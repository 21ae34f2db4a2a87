import Mathlib.Data.Nat.Digits.Lemmas
import Typings.Proofs.Json.Presentation

/-! # Every value can be written

A presentation is of no use for values that no derivation writes. Strings and whole numbers all have
one: characters stand for themselves but for the few that must be escaped, and numbers are written
by their decimal digits. Lists and objects have one when their values do; an object then has a
member for each field.
-/
namespace Typings.Json

variable {α : Type}

/-! ## Strings -/

def HexDigit.ofFin (d : Fin 16) : HexDigit where
  char := Nat.digitChar d
  value := d
  value_eq := by decide +revert

def Quad.ofNat (n : Nat) (h : n < 0x10000) : Quad where
  first := .ofFin ⟨n / 4096, by omega⟩
  second := .ofFin ⟨n / 256 % 16, by omega⟩
  third := .ofFin ⟨n / 16 % 16, by omega⟩
  fourth := .ofFin ⟨n % 16, by omega⟩

theorem Quad.value_ofNat (n : Nat) (h : n < 0x10000) : (ofNat n h).value = n := by
  show ((n / 4096 * 16 + n / 256 % 16) * 16 + n / 16 % 16) * 16 + n % 16 = n
  omega

namespace Piece

def ofChar (c : Char) : Piece :=
  if quote : c = '"' then .letter '"' '"' rfl
  else if backslash : c = '\\' then .letter '\\' '\\' rfl
  else if control : c.toNat < 0x20 then .unit (.ofNat c.toNat (by omega))
  else .plain c quote backslash control

theorem meaning?_control {c : Char} (h : c.toNat < 0x20) :
    (unit (.ofNat c.toNat (by omega))).meaning? = some c := by
  have hlow : isLowSurrogate c.toNat = false := by
    rw [isLowSurrogate, Bool.and_eq_false_iff]
    exact .inl (decide_eq_false (by omega))
  have hhigh : isHighSurrogate c.toNat = false := by
    rw [isHighSurrogate, Bool.and_eq_false_iff]
    exact .inl (decide_eq_false (by omega))
  rw [meaning?, Quad.value_ofNat, hlow, hhigh, if_neg (by decide), Char.ofNat_toNat]

theorem meaning?_ofChar (c : Char) : (ofChar c).meaning? = some c := by
  unfold ofChar
  split
  · next quote => rw [quote]; rfl
  · split
    · next backslash => rw [backslash]; rfl
    · split
      · next control => exact meaning?_control control
      · rfl

def ofString (s : String) : List Piece := s.toList.map ofChar

theorem text?_ofString (s : String) : text? (ofString s) = some s := by
  have hmeanings : ∀ cs : List Char, meanings? (cs.map ofChar) = some cs := by
    intro cs
    induction cs with
    | nil => rfl
    | cons c cs ih => rw [List.map_cons, meanings?, meaning?_ofChar, ih]
  rw [text?, ofString, hmeanings, Option.map_some, String.ofList_toList]

end Piece

/-! ## Numbers -/

def Digits.ofNat (n : Nat) : Digits where
  chars := Nat.toDigits 10 n
  ne_nil := Nat.toDigits_ne_nil
  all_digit _ hc := Nat.isDigit_of_mem_toDigits (by decide) (by decide) hc

theorem digitsValue_eq (ds : List Char) : digitsValue ds = Nat.ofDigitChars 10 ds 0 := by
  rw [digitsValue, Nat.ofDigitChars]
  congr
  funext n d
  rw [Nat.mul_comm, digitValue]

theorem Digits.value_ofNat (n : Nat) : (ofNat n).value = n :=
  (digitsValue_eq _).trans (Nat.ofDigitChars_toDigits (by decide) (by decide))

theorem head?_toDigits_ne {n : Nat} (hn : n ≠ 0) : (Nat.toDigits 10 n).head? ≠ some '0' := by
  induction n using Nat.strongRecOn with
  | ind n ih =>
    by_cases h : n < 10
    · have hdigit : ∀ d < 10, Nat.digitChar d = '0' → d = 0 := by decide
      rw [Nat.toDigits_of_lt_base h]
      exact fun hzero => hn (hdigit n h (Option.some.inj hzero))
    · have hmore := ih (n / 10) (by omega) (by omega)
      rw [Nat.toDigits_of_base_le (by decide) (by omega)]
      rwa [List.head?_append_of_ne_nil _ Nat.toDigits_ne_nil]

theorem leading_zero_toDigits (n : Nat) :
    Nat.toDigits 10 n = ['0'] ∨ (Nat.toDigits 10 n).head? ≠ some '0' := by
  by_cases hn : n = 0
  · exact .inl (by rw [hn]; rfl)
  · exact .inr (head?_toDigits_ne hn)

def Numeral.ofInt (value : Int) : Numeral where
  negative := value < 0
  whole := .ofNat value.natAbs
  leading_zero := leading_zero_toDigits value.natAbs
  fraction := none
  exponent := none

theorem Numeral.writes_ofInt (value : Int) : (ofInt value).Writes value where
  no_fraction := rfl
  no_exponent := rfl
  value_eq := by
    show value = if decide (value < 0) = true then -((Digits.ofNat value.natAbs).value : Int)
      else (Digits.ofNat value.natAbs).value
    rw [Digits.value_ofNat]
    split
    · next h => have := of_decide_eq_true h; omega
    · next h => rw [decide_eq_true_eq] at h; omega
  nonzero h := by
    have hneg : value < 0 := of_decide_eq_true h
    show (Digits.ofNat value.natAbs).value ≠ 0
    rw [Digits.value_ofNat]
    omega

/-! ## Presentations -/

namespace Presentation

theorem exists_text (s : String) : ∃ t, text s t := ⟨_, _, rfl, Piece.text?_ofString s⟩

theorem exists_flag (value : Bool) : ∃ t, flag value t := ⟨_, rfl⟩

theorem exists_integer (value : Int) : ∃ t, integer value t :=
  ⟨_, _, rfl, Numeral.writes_ofInt value⟩

variable {W : Presentation α}

theorem exists_optional {o : Option α} (h : ∀ a ∈ o, ∃ t, W a t) : ∃ t, optional W o t := by
  cases o with
  | none => exact ⟨.null, rfl⟩
  | some a => exact h a rfl

theorem exists_list {as : List α} (h : ∀ a ∈ as, ∃ t, W a t) : ∃ t, list W as t := by
  have hitems : ∃ items, List.Forall₂ (fun a (item : Item) => W a item.value) as items := by
    induction as with
    | nil => exact ⟨[], .nil⟩
    | cons a as ih =>
      obtain ⟨t, ht⟩ := h a List.mem_cons_self
      obtain ⟨items, hitems⟩ := ih fun b hb => h b (List.mem_cons_of_mem a hb)
      exact ⟨.mk .none t .none :: items, .cons ht hitems⟩
  obtain ⟨items, hitems⟩ := hitems
  exact ⟨.list .none items, .none, items, rfl, hitems⟩

end Presentation

/-- A member with a key and a value and no blanks. -/
def Member.ofKey (key : String) (t : Tree) : Member :=
  .mk .none (Piece.ofString key) .none (.mk .none t .none)

@[simp] theorem Member.key?_ofKey (key : String) (t : Tree) : (ofKey key t).key? = some key :=
  Piece.text?_ofString key

theorem Slot.FilledBy.cons {s : Slot α} {a : α} {members : List Member} {m : Member}
    (h : s.FilledBy a members) (hm : m.key? ≠ some s.key) : s.FilledBy a (m :: members) := by
  cases h with
  | written n only value =>
    exact .written n (by rw [List.filter_cons_of_neg (by simpa using hm), only]) value
  | left_out unnamed value => exact .left_out (List.forall_mem_cons.mpr ⟨hm, unnamed⟩) value

/-- Fields with keys of their own are filled by a member for each of them. -/
theorem exists_members {slots : List (Slot α)} {a : α} (hkeys : (slots.map Slot.key).Nodup)
    (h : ∀ s ∈ slots, ∃ t, s.written (s.get a) t) :
    ∃ members : List Member, (∀ m ∈ members, ∃ s ∈ slots, m.key? = some s.key) ∧
      ∀ s ∈ slots, s.FilledBy a members := by
  induction slots with
  | nil => exact ⟨[], nofun, nofun⟩
  | cons s slots ih =>
    obtain ⟨hkey, hkeys⟩ := List.nodup_cons.mp hkeys
    obtain ⟨t, ht⟩ := h s List.mem_cons_self
    obtain ⟨members, hnamed, hfilled⟩ := ih hkeys fun o ho => h o (List.mem_cons_of_mem s ho)
    have hother : ∀ o ∈ slots, o.key ≠ s.key := by
      intro o ho heq
      exact hkey (heq ▸ List.mem_map_of_mem ho)
    have honly : members.filter (fun m => m.key? = some s.key) = [] := by
      refine List.filter_eq_nil_iff.mpr fun m hm => ?_
      obtain ⟨o, ho, hmkey⟩ := hnamed m hm
      simpa [hmkey] using hother o ho
    refine ⟨Member.ofKey s.key t :: members, ?_, ?_⟩
    · refine List.forall_mem_cons.mpr ⟨⟨s, List.mem_cons_self, by simp⟩, fun m hm => ?_⟩
      obtain ⟨o, ho, hmkey⟩ := hnamed m hm
      exact ⟨o, List.mem_cons_of_mem s ho, hmkey⟩
    · refine List.forall_mem_cons.mpr ⟨?_, fun o ho => ?_⟩
      · exact .written (Member.ofKey s.key t) (by rw [List.filter_cons_of_pos (by simp), honly]) ht
      · exact (hfilled o ho).cons (by simpa using (hother o ho).symm)

theorem Presentation.exists_object {slots : List (Slot α)} {a : α}
    (hkeys : (slots.map Slot.key).Nodup) (h : ∀ s ∈ slots, ∃ t, s.written (s.get a) t) :
    ∃ t, object slots a t := by
  obtain ⟨members, hnamed, hfilled⟩ := exists_members hkeys h
  refine ⟨.object .none members, .none, members, rfl, fun m hm => ?_, hfilled⟩
  obtain ⟨s, -, hkey⟩ := hnamed m hm
  exact ⟨s.key, hkey⟩

theorem Presentation.exists_document {W : Presentation α} {a : α} (h : ∃ t, W a t) :
    ∃ text, W.Document a text := by
  obtain ⟨t, ht⟩ := h
  refine ⟨String.ofList t.chars, .none, t, .none, ht, ?_⟩
  rw [String.toList_ofList]
  exact (List.append_nil _).symm

end Typings.Json
