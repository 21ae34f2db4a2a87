import Typings.Json.Container

/-!
Records: values with named fields, some of them required and the others with a default. A record is
written as an object with its fields in any order, where unknown members are passed over, or as a
list of its fields in their declared order, which may stop early. Reading starts from a blank record
that holds the defaults, and every field read sets its place in it.
-/

namespace Typings.Json

/-- A field of a record: how its value is read, and the place that the value sets. -/
structure Field (α : Type) where
  key : String
  required : Bool
  read : (levels : Nat) → Reader (α → α)

/-- A kind of record: its title in messages, its defaults and its fields in declared order. -/
structure Record (α : Type) where
  title : String
  blank : α
  fields : List (Field α)

namespace Field

variable {α β : Type}

def mandatory (key : String) (read : Nat → Reader β) (set : β → α → α) : Field α :=
  ⟨key, true, fun levels => (read levels).map set⟩

def defaulted (key : String) (read : Nat → Reader β) (set : β → α → α) : Field α :=
  ⟨key, false, fun levels => (read levels).map set⟩

end Field

namespace Record

variable {α : Type}

/-- The first required field that is not among the keys met. -/
def missing? (r : Record α) (met : List String) : Option String :=
  (r.fields.find? fun field => field.required && !met.contains field.key).map Field.key

/-- Reads the members of a record from the next place on, given the keys met before. -/
def readMembers (r : Record α) (levels : Nat) (first : Bool) (met : List String) (draft : α)
    (cs : List Char) : Except Fault (α × List Char) :=
  match _hn : nextMember first cs with
  | .error fault => .error fault
  | .ok (.closed rest) =>
    match r.missing? met with
    | some key => .error (.missingField key)
    | none => .ok (draft, rest)
  | .ok (.more key rest) =>
    match r.fields.find? fun field => field.key = key with
    | none =>
      match _hc : colon rest with
      | .error fault => .error fault
      | .ok rest =>
        match _hs : skipValue rest with
        | .error fault => .error fault
        | .ok rest => readMembers r levels false met draft rest
    | some field =>
      if met.contains key then .error (.duplicateField key)
      else
        match _hc : colon rest with
        | .error fault => .error fault
        | .ok rest =>
          match _hf : (field.read levels).run rest with
          | .error fault => .error fault
          | .ok (set, rest) => readMembers r levels false (key :: met) (set draft) rest
termination_by cs.length
decreasing_by
  · exact Nat.lt_trans (length_skipValue _hs)
      (Nat.lt_trans (length_colon _hc) (length_nextMember _hn))
  · exact Nat.lt_trans ((field.read levels).shrinks _hf)
      (Nat.lt_trans (length_colon _hc) (length_nextMember _hn))

/-- Reads the remaining fields of a record written as a list; `index` counts the ones before. -/
def readElements (r : Record α) (levels : Nat) :
    (remaining : List (Field α)) → (index : Nat) → (draft : α) → List Char →
      Except Fault (α × List Char)
  | [], _, draft, cs =>
    match closeList cs with
    | .ok rest => .ok (draft, rest)
    | .error fault => .error fault
  | field :: remaining, index, draft, cs =>
    match nextElement (index = 0) cs with
    | .error fault => .error fault
    | .ok (.closed rest) =>
      match (field :: remaining).findIdx? Field.required with
      | some i => .error (.tooShort (index + i) r.title r.fields.length)
      | none => .ok (draft, rest)
    | .ok (.more _ start) =>
      match (field.read levels).run start with
      | .error fault => .error fault
      | .ok (set, rest) => readElements r levels remaining (index + 1) (set draft) rest

theorem length_readMembers {r : Record α} {levels : Nat} {first : Bool} {met : List String}
    {draft a : α} {cs rest : List Char}
    (h : r.readMembers levels first met draft cs = .ok (a, rest)) : rest.length < cs.length := by
  fun_induction readMembers r levels first met draft cs with
  | case3 _ _ _ _ _ hn _ => cases h; exact length_nextMember hn
  | case6 _ _ _ _ _ _ hn _ _ hc _ hs ih =>
    have := ih h
    have := length_skipValue hs
    have := length_colon hc
    have := length_nextMember hn
    simp only [Next.rest] at this
    omega
  | case10 _ _ _ _ _ _ hn _ _ _ _ hc _ _ hf ih =>
    have := ih h
    have := (Field.read _ levels).shrinks hf
    have := length_colon hc
    have := length_nextMember hn
    simp only [Next.rest] at this
    omega
  | _ => cases h

theorem length_readElements {r : Record α} {levels : Nat} {remaining : List (Field α)}
    {index : Nat} {draft a : α} {cs rest : List Char}
    (h : r.readElements levels remaining index draft cs = .ok (a, rest)) :
    rest.length < cs.length := by
  induction remaining generalizing index draft cs with
  | nil =>
    simp only [readElements] at h
    split at h
    · next hc => cases h; exact length_closeList hc
    · cases h
  | cons field remaining ih =>
    simp only [readElements] at h
    split at h
    · cases h
    · next hn =>
      split at h
      · cases h
      · cases h; exact length_closed hn
    · next hn =>
      split at h
      · cases h
      · next hf =>
        have := ih h
        have := (field.read levels).shrinks hf
        have := length_nextElement hn
        simp only [Next.rest] at this
        omega

def read (r : Record α) (levels : Nat) : Reader α :=
  .atValue
    (fun c rest =>
      if c = Bracket.list.opening then
        match levels with
        | 0 => .error .tooDeep
        | levels + 1 => r.readElements levels r.fields 0 r.blank rest
      else if c = Bracket.object.opening then
        match levels with
        | 0 => .error .tooDeep
        | levels + 1 => r.readMembers levels true [] r.blank rest
      else .error (mismatch (.record r.title) c rest))
    (by
      intro c cs rest a h
      split at h
      · split at h
        · cases h
        · exact Nat.le_of_lt (length_readElements h)
      · split at h
        · split at h
          · cases h
          · exact Nat.le_of_lt (length_readMembers h)
        · cases h)

end Record

end Typings.Json
