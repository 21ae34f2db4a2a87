import Typings.Declaration.TypeToken

/-!
Parameter lists of declared methods, constructors and events.
-/

namespace Typings

def reservedWords : List String :=
  ["arguments", "break", "case", "catch", "class", "const", "continue", "debugger", "default",
    "delete", "do", "else", "enum", "eval", "export", "extends", "false", "finally", "for",
    "function", "if", "implements", "import", "in", "instanceof", "interface", "let", "new", "null",
    "package", "private", "protected", "public", "return", "static", "super", "switch", "this",
    "throw", "true", "try", "typeof", "var", "void", "while", "with", "yield"]

def isReserved (name : String) : Bool := reservedWords.contains name

/-- The name that a declaration gives to the parameter at an index: a nameless one is numbered, and
a reserved word is followed by an underscore. -/
def parameterName (index : Nat) (name : String) : String :=
  let name := if name.isEmpty then "arg" ++ toString index else name
  if isReserved name then name ++ "_" else name

inductive ParameterForm where
  | single
  | optional
  | rest
  deriving DecidableEq, Repr

structure Parameter where
  name : String
  form : ParameterForm
  type : TypeToken
  deriving DecidableEq, Repr

namespace Parameter

def text (root : String) (p : Parameter) : String :=
  match p.form with
  | .single => p.name ++ ": " ++ p.type.text root
  | .optional => p.name ++ "?: " ++ p.type.text root
  | .rest => "..." ++ p.name ++ ": " ++ p.type.text root

def listText (root : String) (ps : List Parameter) : String :=
  String.intercalate ", " (ps.map (text root))

end Parameter

namespace TypeGraph

/-- The type of a parameter: a generic parameter of the declared type is written by its name. -/
def parameterToken (g : TypeGraph) (owner : Descriptor) (ty : TypeRef) : TypeToken :=
  match ty with
  | .param name => if owner.hasGenericParam ty then .parameter name else g.tokenOf ty
  | _ => g.tokenOf ty

/-- The declared form of the parameter at an index. Whatever a variadic one collects is an array. -/
def parameter (g : TypeGraph) (owner : Descriptor) (index : Nat) (p : ParamDef) : Parameter :=
  let name := parameterName index p.name
  let type := g.parameterToken owner p.type
  if p.isVariadic then ⟨name, .rest, if type.isArray then type else .anyArray⟩
  else if p.hasDefault then ⟨name, .optional, type⟩
  else ⟨name, .single, type⟩

def parameters (g : TypeGraph) (owner : Descriptor) (params : List ParamDef) : List Parameter :=
  params.zipIdx.map fun (p, index) => g.parameter owner index p

end TypeGraph

end Typings
