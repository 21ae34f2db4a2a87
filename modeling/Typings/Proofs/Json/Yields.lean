import Typings.Json.Record

/-! # What readers yield

A property of everything that a reader takes off a text. Each way to put readers together carries
such properties along: a list has what its items have, and a record keeps what its blank has as long
as the setting of every field keeps it.
-/
namespace Typings.Json

variable {α β : Type} {P : α → Prop} {Q : β → Prop}

namespace Reader

/-- Every value that the reader takes off a text has the property. -/
def Yields (r : Reader α) (P : α → Prop) : Prop :=
  ∀ (cs rest : List Char) (a : α), r.run cs = .ok (a, rest) → P a

theorem Yields.tryMap {r : Reader α} (h : r.Yields P) {f : α → Except Fault β}
    (hf : ∀ a b, P a → f a = .ok b → Q b) : (r.tryMap f).Yields Q := by
  intro cs rest b hb
  obtain ⟨a, ha, hfa⟩ := onValue_eq_ok hb
  exact hf a b (h cs rest a ha) hfa

theorem Yields.map {r : Reader α} (h : r.Yields P) {f : α → β} (hf : ∀ a, P a → Q (f a)) :
    (r.map f).Yields Q := by
  refine h.tryMap fun a b ha hb => ?_
  cases hb
  exact hf a ha

theorem yields_true (r : Reader α) : r.Yields fun _ => True := fun _ _ _ _ => trivial

theorem Yields.optional {r : Reader α} (h : r.Yields P) :
    r.optional.Yields fun o => ∀ a ∈ o, P a := by
  have hnone : (null.map fun _ => (none : Option α)).Yields fun o => ∀ a ∈ o, P a :=
    null.yields_true.map fun _ _ _ ha => nomatch ha
  have hsome : (r.map some).Yields fun o => ∀ a ∈ o, P a := by
    refine h.map fun a ha b hb => ?_
    cases hb
    exact ha
  intro cs rest o ho
  rw [Reader.optional] at ho
  dsimp only at ho
  split at ho
  · exact hnone _ _ _ ho
  · exact hsome _ _ _ ho

theorem of_mem_elements {item : Reader α} (h : item.Yields P) {first : Bool} {cs rest : List Char}
    {as : List α} (has : elements item first cs = .ok (as, rest)) : ∀ a ∈ as, P a := by
  fun_induction elements item first cs generalizing as with
  | case2 _ _ _ _ => cases has; exact fun a ha => by cases ha
  | case4 _ _ _ _ _ b _ hb _ _ he ih =>
    cases has
    intro a ha
    rcases List.mem_cons.mp ha with rfl | ha
    · exact h _ _ _ hb
    · exact ih he a ha
  | _ => cases has

theorem yields_list {item : Nat → Reader α} (h : ∀ levels, (item levels).Yields P) (levels : Nat) :
    (Reader.list item levels).Yields fun as => ∀ a ∈ as, P a := by
  intro cs rest as has
  rw [Reader.list, atValue] at has
  dsimp only at has
  split at has
  · cases has
  · split at has
    · split at has
      · cases has
      · exact of_mem_elements (h _) has
    · cases has

theorem of_document {r : Nat → Reader α} (h : ∀ levels, (r levels).Yields P) {text : String} {a : α}
    (ha : document r text = .ok a) : P a := by
  unfold document at ha
  split at ha
  · cases ha
  · next hrun =>
    split at ha
    · cases ha; exact h _ _ _ _ hrun
    · cases ha

end Reader

/-! ## Records -/

/-- Whatever the field reads, setting it keeps the property. -/
def Field.Keeps (P : α → Prop) (field : Field α) : Prop :=
  ∀ levels, (field.read levels).Yields fun set => ∀ draft, P draft → P (set draft)

theorem Field.keeps_mk {key : String} {required : Bool} {read : Nat → Reader β} {set : β → α → α}
    (h : ∀ levels, (read levels).Yields Q) (hset : ∀ b draft, Q b → P draft → P (set b draft)) :
    Field.Keeps P ⟨key, required, fun levels => (read levels).map set⟩ :=
  fun levels => (h levels).map fun b hb draft hdraft => hset b draft hb hdraft

/-- The property does not look at the field. -/
theorem Field.keeps_of_set {key : String} {required : Bool} {read : Nat → Reader β}
    {set : β → α → α} (hset : ∀ b draft, P draft → P (set b draft)) :
    Field.Keeps P ⟨key, required, fun levels => (read levels).map set⟩ :=
  Field.keeps_mk (fun levels => (read levels).yields_true) fun b draft _ => hset b draft

namespace Record

variable {r : Record α}

theorem of_readMembers (h : ∀ field ∈ r.fields, field.Keeps P) {levels : Nat} {first : Bool}
    {met : List String} {draft a : α} {cs rest : List Char} (hdraft : P draft)
    (ha : r.readMembers levels first met draft cs = .ok (a, rest)) : P a := by
  -- The object ends, an unknown member is passed over, or a field is set.
  fun_induction readMembers r levels first met draft cs with
  | case3 => cases ha; exact hdraft
  | case6 _ _ _ _ _ _ _ _ _ _ _ _ ih => exact ih hdraft ha
  | case10 _ _ _ _ _ _ _ field hfind _ _ _ _ _ hread ih =>
    have hfield := h field (List.mem_of_find?_eq_some hfind) levels _ _ _ hread
    exact ih (hfield _ hdraft) ha
  | _ => cases ha

theorem of_readElements {levels : Nat} {remaining : List (Field α)}
    (h : ∀ field ∈ remaining, field.Keeps P) {index : Nat} {draft a : α} {cs rest : List Char}
    (hdraft : P draft) (ha : r.readElements levels remaining index draft cs = .ok (a, rest)) :
    P a := by
  induction remaining generalizing index draft cs with
  | nil =>
    rw [readElements] at ha
    split at ha
    · cases ha; exact hdraft
    · cases ha
  | cons field remaining ih =>
    rw [readElements] at ha
    split at ha
    · cases ha
    · split at ha
      · cases ha
      · cases ha; exact hdraft
    · split at ha
      · cases ha
      · next hread =>
        have hfield := h field List.mem_cons_self levels _ _ _ hread
        exact ih (fun f hf => h f (List.mem_cons_of_mem _ hf)) (hfield _ hdraft) ha

/-- A record as it is read has what its blank has and every field keeps. -/
theorem yields_read (hblank : P r.blank) (h : ∀ field ∈ r.fields, field.Keeps P) (levels : Nat) :
    (r.read levels).Yields P := by
  intro cs rest a ha
  rw [Record.read, Reader.atValue] at ha
  dsimp only at ha
  split at ha
  · cases ha
  · split at ha
    · split at ha
      · cases ha
      · exact of_readElements h hblank ha
    · split at ha
      · split at ha
        · cases ha
        · exact of_readMembers h hblank ha
      · cases ha

end Record

end Typings.Json
