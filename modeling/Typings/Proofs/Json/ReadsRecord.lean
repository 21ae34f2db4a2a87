import Mathlib.Data.List.Nodup
import Typings.Json.Record
import Typings.Proofs.Json.Reads

/-! # Reading records

An object is read as the record that its members fill. The induction is over the members in the
order they are written. Of every field of the record, either the value is set already and no further
member has its key, or it is still the one of the blank and the members to come fill it
(`Slot.Stands`); so at the end every field has the value of the record.
-/
namespace Typings.Json

variable {α β : Type} {rest x : List Char}

/-! ## Members -/

theorem nextMember_closing (first : Bool) (gap : Blanks) (rest : List Char) :
    nextMember first (gap.chars ++ '\x7d' :: rest) = .ok (.closed rest) := by
  rw [nextMember, skipSpace_blanks, skipSpace_cons (by decide)]
  exact if_pos rfl

theorem nextMember_member {key : List Piece} {s : String} (hkey : Piece.text? key = some s)
    (first : Bool) (gap lead : Blanks) (rest : List Char) :
    nextMember first
      (gap.chars ++ (comma first ++ (lead.chars ++ '"' :: (Piece.body key ++ rest)))) =
        .ok (.more s rest) := by
  obtain ⟨cs, hcs, rfl⟩ := Option.map_eq_some_iff.mp hkey
  have hspace : skipSpace (lead.chars ++ '"' :: (Piece.body key ++ rest)) =
      '"' :: (Piece.body key ++ rest) := by
    rw [skipSpace_blanks, skipSpace_cons (by decide)]
  have hlabel : memberKey '"' (Piece.body key ++ rest) = .ok (.more (String.ofList cs) rest) := by
    rw [memberKey, if_pos rfl, stringBody_body hcs]
  rw [nextMember, skipSpace_blanks]
  cases first with
  | true =>
    rw [comma, List.nil_append, hspace]
    dsimp only
    rw [if_neg (by decide), if_pos rfl, hlabel]
  | false =>
    rw [comma, List.singleton_append, skipSpace_cons (by decide)]
    dsimp only
    rw [if_neg (by decide), if_neg Bool.false_ne_true, if_pos rfl, hspace]
    dsimp only
    rw [if_neg (by decide), hlabel]

namespace Record

variable {r : Record α} {levels : Nat} {first : Bool} {met : List String} {draft a : α}
  {key : String} {cs y : List Char}

theorem readMembers_closed (hn : nextMember first cs = .ok (.closed rest))
    (hmissing : r.missing? met = none) :
    r.readMembers levels first met draft cs = .ok (draft, rest) := by
  rw [readMembers.eq_def]
  split
  · next h => rw [hn] at h; cases h
  · next h => rw [hn] at h; cases h; rw [hmissing]
  · next h => rw [hn] at h; cases h

theorem readMembers_unknown (hn : nextMember first cs = .ok (.more key x))
    (hfind : r.fields.find? (fun field => field.key = key) = none) (hc : colon x = .ok y)
    (hs : skipValue y = .ok rest) :
    r.readMembers levels first met draft cs = r.readMembers levels false met draft rest := by
  rw [readMembers.eq_def]
  split
  · next h => rw [hn] at h; cases h
  · next h => rw [hn] at h; cases h
  · next h =>
    rw [hn] at h
    cases h
    rw [hfind]
    dsimp only
    split
    · next h => rw [hc] at h; cases h
    · next h =>
      rw [hc] at h
      cases h
      split
      · next h => rw [hs] at h; cases h
      · next h => rw [hs] at h; cases h; rfl

theorem readMembers_field {field : Field α} {set : α → α}
    (hn : nextMember first cs = .ok (.more key x))
    (hfind : r.fields.find? (fun field => field.key = key) = some field) (hmet : key ∉ met)
    (hc : colon x = .ok y) (hread : (field.read levels).run y = .ok (set, rest)) :
    r.readMembers levels first met draft cs =
      r.readMembers levels false (key :: met) (set draft) rest := by
  rw [readMembers.eq_def]
  split
  · next h => rw [hn] at h; cases h
  · next h => rw [hn] at h; cases h
  · next h =>
    rw [hn] at h
    cases h
    rw [hfind]
    dsimp only
    rw [if_neg (by simpa using hmet)]
    split
    · next h => rw [hc] at h; cases h
    · next h =>
      rw [hc] at h
      cases h
      split
      · next h => rw [hread] at h; cases h
      · next h => rw [hread] at h; cases h; rfl

end Record

/-! ## Fields against slots -/

namespace Slot

variable {s : Slot α} {a : α} {m : Member} {members : List Member}

theorem FilledBy.tail (h : s.FilledBy a (m :: members)) (hm : m.key? ≠ some s.key) :
    s.FilledBy a members := by
  cases h with
  | written n only value =>
    rw [List.filter_cons_of_neg (by simpa using hm)] at only
    exact .written n only value
  | left_out unnamed value =>
    exact .left_out (fun n hn => unnamed n (List.mem_cons_of_mem _ hn)) value

theorem FilledBy.head (h : s.FilledBy a (m :: members)) (hm : m.key? = some s.key) :
    s.written (s.get a) m.value ∧ ∀ n ∈ members, n.key? ≠ some s.key := by
  cases h with
  | written n only value =>
    rw [List.filter_cons_of_pos (by simpa using hm)] at only
    obtain ⟨rfl, hnone⟩ := List.cons.inj only
    refine ⟨value, fun n hn => ?_⟩
    simpa using List.filter_eq_nil_iff.mp hnone n hn
  | left_out unnamed value => exact absurd hm (unnamed m List.mem_cons_self)

theorem FilledBy.default_eq (h : s.FilledBy a []) : s.default = some (s.get a) := by
  cases h with
  | written n only value => cases only
  | left_out unnamed value => exact value

/-- Where a field stands with the members to come: it is set and none of them has its key, or it is
as in the blank record and they fill it. -/
inductive Stands (s : Slot α) (blank a draft : α) (met : List String) (members : List Member) : Prop
  | set (met : s.key ∈ met) (value : s.get draft = s.get a)
      (unnamed : ∀ m ∈ members, m.key? ≠ some s.key)
  | due (unmet : s.key ∉ met) (value : s.get draft = s.get blank)
      (filled : s.FilledBy a members)

variable {blank draft draft' : α} {met met' : List String}

/-- A member with another key changes nothing about the field. -/
theorem Stands.pass (h : s.Stands blank a draft met (m :: members)) (hm : m.key? ≠ some s.key)
    (hvalue : s.get draft' = s.get draft) (hmet : s.key ∈ met' ↔ s.key ∈ met) :
    s.Stands blank a draft' met' members := by
  cases h with
  | set met value unnamed =>
    exact .set (hmet.mpr met) (hvalue.trans value) fun n hn => unnamed n (List.mem_cons_of_mem _ hn)
  | due unmet value filled =>
    exact .due (mt hmet.mp unmet) (hvalue.trans value) (filled.tail hm)

/-- A member with its key is the first one, and the last. -/
theorem Stands.meet (h : s.Stands blank a draft met (m :: members)) (hm : m.key? = some s.key) :
    s.key ∉ met ∧ s.written (s.get a) m.value ∧ ∀ n ∈ members, n.key? ≠ some s.key := by
  cases h with
  | set met value unnamed => exact absurd hm (unnamed m List.mem_cons_self)
  | due unmet value filled => exact ⟨unmet, filled.head hm⟩

/-- Behind the last member every field has its value. -/
theorem Stands.get_eq (h : s.Stands blank a draft met [])
    (hblank : ∀ v ∈ s.default, s.get blank = v) : s.get draft = s.get a := by
  cases h with
  | set met value unnamed => exact value
  | due unmet value filled => exact value.trans (hblank _ filled.default_eq)

theorem Stands.mem_met (h : s.Stands blank a draft met []) (hs : s.default = none) :
    s.key ∈ met := by
  cases h with
  | set met value unnamed => exact met
  | due unmet value filled =>
    have hdefault := filled.default_eq
    rw [hs] at hdefault
    cases hdefault

end Slot

/-- The field of a reader is the field of a presentation: it has its key, it is required unless
there is a default, which the blank record then has, and it reads what is written there and sets
nothing else. -/
structure Field.Serves (levels : Nat) (blank : α) (slots : List (Slot α)) (field : Field α)
    (s : Slot α) : Prop where
  key_eq : field.key = s.key
  required_iff : field.required = true ↔ s.default = none
  blank_eq : ∀ v ∈ s.default, s.get blank = v
  reads : ∀ a t, s.written (s.get a) t → ∀ (lead : Blanks) (rest : List Char), Delimited rest →
    ∃ set, (field.read levels).run (lead.chars ++ (t.chars ++ rest)) = .ok (set, rest) ∧
      ∀ draft, s.get (set draft) = s.get a ∧
        ∀ o ∈ slots, o.key ≠ s.key → o.get (set draft) = o.get draft

namespace Field

variable {levels : Nat} {blank : α} {slots : List (Slot α)} {key : String} {read : Nat → Reader β}
  {set : β → α → α} {get : α → β} {W : Presentation β}

/-- Setting a field gives it the value, and leaves the fields with other keys as they are. -/
def SetsOnly (slots : List (Slot α)) (key : String) (get : α → β) (set : β → α → α) : Prop :=
  ∀ b draft, get (set b draft) = b ∧ ∀ o ∈ slots, o.key ≠ key → o.get (set b draft) = o.get draft

theorem SetsOnly.reads_map (hset : SetsOnly slots key get set) (hread : (read levels).Reads W)
    (a : α) (t : Tree) (ht : W (get a) t) (lead : Blanks) (rest : List Char)
    (hrest : Delimited rest) :
    ∃ f, ((read levels).map set).run (lead.chars ++ (t.chars ++ rest)) = .ok (f, rest) ∧
      ∀ draft, get (f draft) = get a ∧
        ∀ o ∈ slots, o.key ≠ key → o.get (f draft) = o.get draft := by
  have hmap : ((read levels).map set).Reads fun f t => ∃ b, W b t ∧ set b = f :=
    hread.map fun _ _ h => h
  exact ⟨set (get a), hmap _ t ⟨get a, ht, rfl⟩ lead rest hrest, hset (get a)⟩

theorem Serves.mandatory (hread : (read levels).Reads W) (hset : SetsOnly slots key get set) :
    (Field.mandatory key read set).Serves levels blank slots (.mandatory key get W) where
  key_eq := rfl
  required_iff := ⟨fun _ => rfl, fun _ => rfl⟩
  blank_eq := nofun
  reads := hset.reads_map hread

theorem Serves.defaulted {default : β} (hread : (read levels).Reads W)
    (hblank : get blank = default) (hset : SetsOnly slots key get set) :
    (Field.defaulted key read set).Serves levels blank slots (.defaulted key get default W) where
  key_eq := rfl
  required_iff := ⟨nofun, nofun⟩
  blank_eq _ hv := hblank.trans (Option.some.inj hv)
  reads := hset.reads_map hread

end Field

/-! ## Records -/

theorem exists_mem_of_forall₂ {A : Type u} {B : Type v} {R : A → B → Prop} {as : List A}
    {bs : List B} (h : List.Forall₂ R as bs) {a : A} (ha : a ∈ as) : ∃ b ∈ bs, R a b := by
  induction h with
  | nil => cases ha
  | cons hab _ ih =>
    rcases List.mem_cons.mp ha with rfl | ha
    · exact ⟨_, List.mem_cons_self, hab⟩
    · obtain ⟨b, hb, hab⟩ := ih ha
      exact ⟨b, List.mem_cons_of_mem _ hb, hab⟩

/-- A record whose fields are those of a presentation, each with a key of its own; nothing but the
fields tells two values apart. -/
structure Record.Serves (levels : Nat) (slots : List (Slot α)) (r : Record α) : Prop where
  fields : List.Forall₂ (Field.Serves levels r.blank slots) r.fields slots
  keys_nodup : (slots.map Slot.key).Nodup
  ext : ∀ a b : α, (∀ s ∈ slots, s.get a = s.get b) → a = b

namespace Record.Serves

variable {levels : Nat} {slots : List (Slot α)} {r : Record α} {a draft : α}
  {met : List String} {first : Bool} {key : String}

theorem exists_slot (h : r.Serves levels slots) {field : Field α}
    (hfind : r.fields.find? (fun field => field.key = key) = some field) :
    ∃ s ∈ slots, s.key = key ∧ field.Serves levels r.blank slots s := by
  obtain ⟨s, hs, hserves⟩ := exists_mem_of_forall₂ h.fields (List.mem_of_find?_eq_some hfind)
  have hkey : field.key = key := by simpa using List.find?_some hfind
  exact ⟨s, hs, hserves.key_eq.symm.trans hkey, hserves⟩

theorem key_ne (h : r.Serves levels slots)
    (hfind : r.fields.find? (fun field => field.key = key) = none) : ∀ s ∈ slots, s.key ≠ key := by
  intro s hs
  obtain ⟨field, hfield, hserves⟩ := exists_mem_of_forall₂ h.fields.flip hs
  rw [← hserves.key_eq]
  simpa using List.find?_eq_none.mp hfind field hfield

/-- Behind the last member no required field is missing. -/
theorem missing?_eq_none (h : r.Serves levels slots)
    (hstands : ∀ s ∈ slots, s.Stands r.blank a draft met []) : r.missing? met = none := by
  rw [missing?, Option.map_eq_none_iff, List.find?_eq_none]
  intro field hfield hmissing
  obtain ⟨s, hs, hserves⟩ := exists_mem_of_forall₂ h.fields hfield
  rw [Bool.and_eq_true] at hmissing
  have hmet := (hstands s hs).mem_met (hserves.required_iff.mp hmissing.1)
  rw [← hserves.key_eq] at hmet
  simp [hmet] at hmissing

theorem draft_eq (h : r.Serves levels slots)
    (hstands : ∀ s ∈ slots, s.Stands r.blank a draft met []) : draft = a := by
  refine h.ext draft a fun s hs => ?_
  obtain ⟨field, hfield, hserves⟩ := exists_mem_of_forall₂ h.fields.flip hs
  exact (hstands s hs).get_eq hserves.blank_eq

theorem readMembers_members (h : r.Serves levels slots)
    {members : List Member} (hnamed : ∀ m ∈ members, ∃ key, m.key? = some key)
    (hstands : ∀ s ∈ slots, s.Stands r.blank a draft met members) (first : Bool) (gap : Blanks)
    (rest : List Char) :
    r.readMembers levels first met draft
      (gap.chars ++ (Member.charsFrom first members ++ rest)) = .ok (a, rest) := by
  induction members generalizing met draft first gap with
  | nil =>
    have hnext := nextMember_closing first gap rest
    rw [← h.draft_eq hstands]
    exact readMembers_closed hnext (h.missing?_eq_none hstands)
  | cons m members ih =>
    obtain ⟨lead, keyPieces, gap', lead', value, trail⟩ := m
    obtain ⟨key, hkey⟩ := hnamed _ List.mem_cons_self
    have hnamed' := fun n hn => hnamed n (List.mem_cons_of_mem _ hn)
    have hdelimited : Delimited (trail.chars ++ (Member.charsFrom false members ++ rest)) :=
      (Member.delimited_charsFrom members rest).blanks trail
    have hnext := nextMember_member hkey first gap lead (gap'.chars ++ ':' :: (lead'.chars ++
      (value.chars ++ (trail.chars ++ (Member.charsFrom false members ++ rest)))))
    have hcolon := colon_gap gap' (lead'.chars ++
      (value.chars ++ (trail.chars ++ (Member.charsFrom false members ++ rest))))
    rw [Member.charsFrom, Member.chars, Item.chars]
    simp only [List.append_assoc, List.cons_append]
    cases hfind : r.fields.find? fun field => field.key = key with
    | none =>
      rw [readMembers_unknown hnext hfind hcolon (skipValue_tree lead' value hdelimited)]
      refine ih hnamed' (fun s hs => ?_) false trail
      refine (hstands s hs).pass ?_ rfl Iff.rfl
      intro hs'
      exact h.key_ne hfind s hs (Option.some.inj (hs'.symm.trans hkey))
    | some field =>
      obtain ⟨s, hs, rfl, hserves⟩ := h.exists_slot hfind
      obtain ⟨hunmet, hwritten, hlast⟩ := (hstands s hs).meet hkey
      obtain ⟨set, hread, hset⟩ := hserves.reads a value hwritten lead' _ hdelimited
      rw [readMembers_field hnext hfind hunmet hcolon hread]
      refine ih hnamed' (fun o ho => ?_) false trail
      by_cases hsame : o.key = s.key
      · obtain rfl : o = s := List.inj_on_of_nodup_map h.keys_nodup ho hs hsame
        exact .set List.mem_cons_self (hset draft).1 hlast
      · refine (hstands o ho).pass ?_ ((hset draft).2 o ho hsame) ?_
        · intro ho'
          exact hsame (Option.some.inj (ho'.symm.trans hkey))
        · simp [hsame]

/-- An object is read as the record that its members fill. -/
theorem reads (h : r.Serves levels slots) : (r.read (levels + 1)).Reads (.object slots) := by
  intro a t ht lead rest hrest
  obtain ⟨inner, members, rfl, hnamed, hfilled⟩ := ht
  refine ((r.read (levels + 1)).run_eq (fun _ => rfl) (.object inner members) rfl lead
    rest).trans ?_
  rw [if_neg (by decide), if_pos (by rfl), List.append_assoc]
  exact h.readMembers_members hnamed (fun s hs => .due List.not_mem_nil rfl (hfilled s hs)) true
    inner rest

end Record.Serves

end Typings.Json
