import Mathlib.Data.List.Forall2
import Typings.Json.Container
import Typings.Proofs.Json.Grammar

/-! # Presentations of values

A presentation says which derivations write which values. A value may be written in many ways: a
string with or without escapes, a list with any blanks in it, a record with its members in any
order, with unknown members among them and without those fields whose value is the default. Readers
are told apart from presentations on purpose: what is said here says nothing of how a text is read.
-/
namespace Typings.Json

/-- Which derivations write which values. -/
abbrev Presentation (α : Type) := α → Tree → Prop

namespace Presentation

variable {α β : Type}

/-- A string whose pieces stand for the text. -/
def text : Presentation String := fun s t =>
  ∃ pieces, t = .text pieces ∧ Piece.text? pieces = some s

def flag : Presentation Bool := fun value t => t = .flag value

/-- A number without point and exponent. -/
def integer : Presentation Int := fun value t => ∃ n, t = .number n ∧ n.Writes value

/-- Null for no value, and otherwise the value as it is. -/
def optional (W : Presentation α) : Presentation (Option α)
  | none, t => t = .null
  | some a, t => W a t

/-- No value is written as null, so that null can stand for none. -/
def NeverNull (W : Presentation α) : Prop := ∀ a, ¬ W a .null

/-- The values one by one between brackets. -/
def list (W : Presentation α) : Presentation (List α) := fun as t =>
  ∃ inner items, t = .list inner items ∧ List.Forall₂ (fun a item => W a item.value) as items

theorem neverNull_text : text.NeverNull := by
  intro s ht
  obtain ⟨pieces, ht, -⟩ := ht
  cases ht

theorem neverNull_flag : flag.NeverNull := nofun

theorem neverNull_integer : integer.NeverNull := by
  intro value ht
  obtain ⟨n, ht, -⟩ := ht
  cases ht

end Presentation

/-- A field of a record: the key it is written under, the value of a record there, the value that
need not be written, and how others are. -/
structure Slot (α : Type) where
  Value : Type
  key : String
  get : α → Value
  default : Option Value
  written : Presentation Value

namespace Slot

variable {α β : Type}

def mandatory (key : String) (get : α → β) (written : Presentation β) : Slot α :=
  ⟨β, key, get, none, written⟩

def defaulted (key : String) (get : α → β) (default : β) (written : Presentation β) : Slot α :=
  ⟨β, key, get, some default, written⟩

/-- The members fill a field: one of them has its key and writes its value, or none has it and the
value is the default. -/
inductive FilledBy (s : Slot α) (a : α) (members : List Member) : Prop
  | written (m : Member) (only : members.filter (fun m => m.key? = some s.key) = [m])
      (value : s.written (s.get a) m.value)
  | left_out (unnamed : ∀ m ∈ members, m.key? ≠ some s.key) (value : s.default = some (s.get a))

end Slot

/-- An object whose members fill every field. Their order does not matter, and members with other
keys may be anything. -/
def Presentation.object {α : Type} (slots : List (Slot α)) : Presentation α := fun a t =>
  ∃ inner members, t = .object inner members ∧ (∀ m ∈ members, ∃ key, m.key? = some key) ∧
    ∀ s ∈ slots, s.FilledBy a members

theorem Presentation.neverNull_object {α : Type} (slots : List (Slot α)) :
    (Presentation.object slots).NeverNull := by
  intro a ht
  obtain ⟨inner, members, ht, -⟩ := ht
  cases ht

/-- A text of the value: its derivation between blanks. -/
def Presentation.Document {α : Type} (W : Presentation α) (a : α) (text : String) : Prop :=
  ∃ (lead : Blanks) (t : Tree) (trail : Blanks),
    W a t ∧ text.toList = lead.chars ++ (t.chars ++ trail.chars)

end Typings.Json
