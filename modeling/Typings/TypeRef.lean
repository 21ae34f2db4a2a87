/-!
Type references: what a member's signature points at. A reference names a type, possibly with
generic arguments, or a generic parameter, or wraps another reference as an array, a by-ref or a
pointer. The written form is the one used in manifests and listings:

    System.String                        a named type
    System.Collections.List`1<!T>        a constructed type whose argument is a parameter
    !T                                   a generic parameter
    System.Int32[]   System.Int32[,]     arrays of rank 1 and 2
    System.Int32&    System.Byte*        a by-ref and a pointer
-/

namespace Typings

/-- A reference to a type at the place where it is used. -/
inductive TypeRef where
  /-- A type by its full name, with arguments when it is a constructed generic. -/
  | named (name : String) (args : List TypeRef)
  | param (name : String)
  | array (element : TypeRef) (rank : Nat)
  /-- A pass-by-reference wrapper. -/
  | byRef (element : TypeRef)
  | pointer (element : TypeRef)
  deriving Repr, Inhabited

namespace TypeRef

mutual

def decEq : (a b : TypeRef) → Decidable (a = b)
  | .named n as, .named m bs =>
    if hn : n = m then
      match decEqList as bs with
      | isTrue h => isTrue (by rw [hn, h])
      | isFalse h => isFalse fun e => h (by injection e)
    else isFalse fun e => hn (by injection e)
  | .param n, .param m =>
    if hn : n = m then isTrue (by rw [hn]) else isFalse fun e => hn (by injection e)
  | .array a r, .array b s =>
    if hr : r = s then
      match decEq a b with
      | isTrue h => isTrue (by rw [hr, h])
      | isFalse h => isFalse fun e => h (by injection e)
    else isFalse fun e => hr (by injection e)
  | .byRef a, .byRef b =>
    match decEq a b with
    | isTrue h => isTrue (by rw [h])
    | isFalse h => isFalse fun e => h (by injection e)
  | .pointer a, .pointer b =>
    match decEq a b with
    | isTrue h => isTrue (by rw [h])
    | isFalse h => isFalse fun e => h (by injection e)
  | .named .., .param .. | .named .., .array .. | .named .., .byRef .. | .named .., .pointer ..
  | .param .., .named .. | .param .., .array .. | .param .., .byRef .. | .param .., .pointer ..
  | .array .., .named .. | .array .., .param .. | .array .., .byRef .. | .array .., .pointer ..
  | .byRef .., .named .. | .byRef .., .param .. | .byRef .., .array .. | .byRef .., .pointer ..
  | .pointer .., .named .. | .pointer .., .param .. | .pointer .., .array ..
  | .pointer .., .byRef .. => isFalse nofun

def decEqList : (as bs : List TypeRef) → Decidable (as = bs)
  | [], [] => isTrue rfl
  | a :: as, b :: bs =>
    match decEq a b, decEqList as bs with
    | isTrue h, isTrue hs => isTrue (by rw [h, hs])
    | isFalse h, _ => isFalse fun e => h (by injection e)
    | _, isFalse hs => isFalse fun e => hs (by injection e)
  | [], _ :: _ | _ :: _, [] => isFalse nofun

end

instance : DecidableEq TypeRef := decEq

/-- The type without a value, returned by methods that return nothing. -/
def void : TypeRef := .named "System.Void" []

/-- The full name of a named type; parameters and wrappers have none. -/
def name? : TypeRef → Option String
  | .named name _ => some name
  | _ => none

def args : TypeRef → List TypeRef
  | .named _ args => args
  | _ => []

def isParam : TypeRef → Bool
  | .param _ => true
  | _ => false

/-- The full name of a named type without arguments. -/
def plainName? : TypeRef → Option String
  | .named name [] => some name
  | _ => none

def isArray : TypeRef → Bool
  | .array _ _ => true
  | _ => false

def isByRef : TypeRef → Bool
  | .byRef _ => true
  | _ => false

def isPointer : TypeRef → Bool
  | .pointer _ => true
  | _ => false

mutual

/-- No generic parameter appears anywhere inside. -/
def isClosed : TypeRef → Bool
  | .named _ args => allClosed args
  | .param _ => false
  | .array element _ | .byRef element | .pointer element => element.isClosed

def allClosed : List TypeRef → Bool
  | [] => true
  | arg :: args => arg.isClosed && allClosed args

end

theorem allClosed_eq_all (args : List TypeRef) : allClosed args = args.all isClosed := by
  induction args with
  | nil => rfl
  | cons arg args ih => simp [allClosed, ih]

mutual

/-- The written form of a reference, character by character. -/
def chars : TypeRef → List Char
  | .named name [] => name.toList
  | .named name (arg :: args) => name.toList ++ '<' :: (arg.chars ++ argChars args)
  | .param name => '!' :: name.toList
  | .array element rank => element.chars ++ '[' :: (List.replicate (rank - 1) ',' ++ [']'])
  | .byRef element => element.chars ++ ['&']
  | .pointer element => element.chars ++ ['*']

/-- The arguments after the first and the bracket that closes them. -/
def argChars : List TypeRef → List Char
  | [] => ['>']
  | arg :: args => ',' :: ' ' :: (arg.chars ++ argChars args)

end

def text (ty : TypeRef) : String := String.ofList ty.chars

@[simp] theorem toList_text (ty : TypeRef) : ty.text.toList = ty.chars := by simp [text]

end TypeRef

end Typings
