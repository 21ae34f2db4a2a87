import Typings.TypeRef.Reading

/-! # The grammar of type references

    type   := blank* core suffix* blank*
    core   := '!' name | name [ '<' type (',' type)* '>' ]
    suffix := '[' ','* ']' | '&' | '*'
    name   := one or more characters that are neither blank nor marks

A `Phrase` is a derivation of `type`: it holds what was chosen at every rule, so it spells one text
and stands for one reference. The grammar is unambiguous (`chars_injective`): after each part, what
comes next begins with a character that the part cannot go on with.
-/
namespace Typings.TypeRef

open Typings.Text (isBlank)

/-! ## Derivations -/

@[ext] structure Blanks where
  chars : List Char
  all_blank : ∀ c ∈ chars, isBlank c = true

def Blanks.none : Blanks := ⟨[], nofun⟩

/-- The blanks with one more behind them. -/
def Blanks.concat (b : Blanks) (c : Char) (h : isBlank c = true) : Blanks where
  chars := b.chars ++ [c]
  all_blank d hd := by
    rcases List.mem_append.mp hd with hd | hd
    · exact b.all_blank d hd
    · exact List.mem_singleton.mp hd ▸ h

@[ext] structure Name where
  chars : List Char
  ne_nil : chars ≠ []
  all_name : ∀ c ∈ chars, isNameChar c = true

namespace Name

def text (n : Name) : String := String.ofList n.chars

def single (c : Char) (h : isNameChar c = true) : Name where
  chars := [c]
  ne_nil := by simp
  all_name d hd := List.mem_singleton.mp hd ▸ h

/-- The name with one more character behind it. -/
def concat (n : Name) (c : Char) (h : isNameChar c = true) : Name where
  chars := n.chars ++ [c]
  ne_nil := by simp
  all_name d hd := by
    rcases List.mem_append.mp hd with hd | hd
    · exact n.all_name d hd
    · exact List.mem_singleton.mp hd ▸ h

end Name

inductive Suffix where
  | array (commas : Nat)
  | byRef
  | pointer

mutual

/-- A derivation of `type`. -/
inductive Phrase where
  | mk (lead : Blanks) (core : Core) (suffixes : List Suffix) (trail : Blanks)

/-- A derivation of `core`; a name without arguments has no brackets. -/
inductive Core where
  | param (name : Name)
  | named (name : Name) (args : List Phrase)

end

def Suffix.chars : Suffix → List Char
  | .array commas => '[' :: (List.replicate commas ',' ++ [']'])
  | .byRef => ['&']
  | .pointer => ['*']

/-- The reference that a suffix makes of the one in front of it; the rank counts the commas. -/
def Suffix.apply (ty : TypeRef) : Suffix → TypeRef
  | .array commas => .array ty (commas + 1)
  | .byRef => .byRef ty
  | .pointer => .pointer ty

mutual

/-- The text that a derivation spells. -/
def Phrase.chars : Phrase → List Char
  | .mk lead core suffixes trail =>
    lead.chars ++ (core.chars ++ (suffixes.flatMap Suffix.chars ++ trail.chars))

def Core.chars : Core → List Char
  | .param name => '!' :: name.chars
  | .named name args => name.chars ++ Phrase.argChars args

/-- The arguments in their brackets, which are left out when there are none. -/
def Phrase.argChars : List Phrase → List Char
  | [] => []
  | arg :: args => '<' :: (arg.chars ++ Phrase.moreChars args)

/-- The arguments after the first, and the bracket that closes them. -/
def Phrase.moreChars : List Phrase → List Char
  | [] => ['>']
  | arg :: args => ',' :: (arg.chars ++ Phrase.moreChars args)

end

mutual

/-- The reference that a derivation stands for: suffixes apply from left to right. -/
def Phrase.tree : Phrase → TypeRef
  | .mk _ core suffixes _ => suffixes.foldl Suffix.apply core.tree

def Core.tree : Core → TypeRef
  | .param name => .param name.text
  | .named name args => .named name.text (Phrase.trees args)

def Phrase.trees : List Phrase → List TypeRef
  | [] => []
  | arg :: args => arg.tree :: Phrase.trees args

end

theorem Phrase.trees_eq_map (args : List Phrase) : Phrase.trees args = args.map Phrase.tree := by
  induction args with
  | nil => rfl
  | cons arg args ih => simp [Phrase.trees, ih]

/-- An argument behind the others takes the place of the closing bracket, with its comma. -/
theorem Phrase.argChars_concat (args : List Phrase) (last : Phrase) :
    Phrase.argChars (args ++ [last]) =
      '<' :: (args.flatMap (fun arg => arg.chars ++ [',']) ++ (last.chars ++ ['>'])) := by
  have hmore : ∀ (args : List Phrase) (first : Phrase),
      first.chars ++ Phrase.moreChars (args ++ [last]) =
        (first :: args).flatMap (fun arg => arg.chars ++ [',']) ++ (last.chars ++ ['>']) := by
    intro args
    induction args with
    | nil => intro first; simp [Phrase.moreChars]
    | cons arg args ih => intro first; simp [Phrase.moreChars, ih arg]
  cases args with
  | nil => rfl
  | cons arg args => rw [List.cons_append, Phrase.argChars, hmore]

/-! ## Unambiguity -/

/-- A run of characters of a class is cut off by the first character outside of it. -/
theorem run_eq_of_append_eq {P : Char → Bool} {a b x y : List Char} (ha : ∀ c ∈ a, P c = true)
    (hb : ∀ c ∈ b, P c = true) (hx : ∀ c ∈ x.head?, P c = false) (hy : ∀ c ∈ y.head?, P c = false)
    (h : a ++ x = b ++ y) : a = b ∧ x = y := by
  have hstop : ∀ {z : List Char}, (∀ c ∈ z.head?, P c = false) → z.takeWhile P = [] := by
    intro z hz
    cases z with
    | nil => rfl
    | cons c z => rw [List.takeWhile_cons, hz c rfl]; rfl
  have hrun := congrArg (List.takeWhile P) h
  rw [List.takeWhile_append_of_pos ha, List.takeWhile_append_of_pos hb, hstop hx, hstop hy] at hrun
  have hab : a = b := by simpa using hrun
  exact ⟨hab, List.append_cancel_left (hab ▸ h)⟩

/-- What may come right after a whole reference: nothing, a separator or a closing bracket. -/
def Closes (rest : List Char) : Prop := ∀ c ∈ rest.head?, c = ',' ∨ c = '>'

/-- A text that a name, with arguments or without, cannot go on with. -/
def Leaves (rest : List Char) : Prop := ∀ c ∈ rest.head?, isNameChar c = false ∧ c ≠ '<'

/-- A text that starts with no suffix. -/
def Unsuffixed (rest : List Char) : Prop := ∀ c ∈ rest.head?, c ≠ '[' ∧ c ≠ '&' ∧ c ≠ '*'

theorem not_isNameChar_of_isBlank {c : Char} (h : isBlank c = true) : isNameChar c = false := by
  simp [isNameChar, h]

theorem not_isBlank_of_isNameChar {c : Char} (h : isNameChar c = true) : isBlank c = false := by
  cases hb : isBlank c with
  | false => rfl
  | true => simp [isNameChar, hb] at h

theorem Name.exists_chars (name : Name) :
    ∃ c rest, name.chars = c :: rest ∧ isNameChar c = true := by
  obtain ⟨c, rest, h⟩ := List.exists_cons_of_ne_nil name.ne_nil
  exact ⟨c, rest, h, name.all_name c (by simp [h])⟩

theorem Core.exists_chars (core : Core) :
    ∃ c rest, core.chars = c :: rest ∧ isBlank c = false := by
  cases core with
  | param name => exact ⟨'!', name.chars, by rw [Core.chars], rfl⟩
  | named name args =>
    obtain ⟨c, rest, h, hc⟩ := name.exists_chars
    exact ⟨c, rest ++ Phrase.argChars args, by rw [Core.chars, h]; rfl,
      not_isBlank_of_isNameChar hc⟩

theorem closes_moreChars (args : List Phrase) (rest : List Char) :
    Closes (Phrase.moreChars args ++ rest) := by
  intro c hc
  cases args with
  | nil => cases hc; exact .inr rfl
  | cons arg args => cases hc; exact .inl rfl

theorem Closes.not_isBlank {rest : List Char} (h : Closes rest) :
    ∀ c ∈ rest.head?, isBlank c = false := by
  intro c hc
  rcases h c hc with rfl | rfl <;> decide

theorem Closes.unsuffixed_blanks {rest : List Char} (h : Closes rest) (b : Blanks) :
    Unsuffixed (b.chars ++ rest) := by
  intro c hc
  cases hb : b.chars with
  | nil =>
    rw [hb] at hc
    rcases h c hc with rfl | rfl <;> decide
  | cons d ds =>
    rw [hb] at hc
    cases hc
    have hd := b.all_blank c (by simp [hb])
    exact ⟨ne_of_class hd rfl, ne_of_class hd rfl, ne_of_class hd rfl⟩

theorem Closes.leaves {rest : List Char} (h : Closes rest) (suffixes : List Suffix) (b : Blanks) :
    Leaves (suffixes.flatMap Suffix.chars ++ (b.chars ++ rest)) := by
  intro c hc
  cases suffixes with
  | nil =>
    cases hb : b.chars with
    | nil =>
      rw [hb] at hc
      rcases h c hc with rfl | rfl <;> decide
    | cons d ds =>
      rw [hb] at hc
      cases hc
      have hd := b.all_blank c (by simp [hb])
      exact ⟨not_isNameChar_of_isBlank hd, ne_of_class hd rfl⟩
  | cons s suffixes => cases s <;> (cases hc; decide)

theorem Unsuffixed.ne_append {rest : List Char} (h : Unsuffixed rest) (s : Suffix)
    (more : List Char) : rest ≠ s.chars ++ more := by
  intro he
  subst he
  cases s with
  | array commas => exact (h '[' rfl).1 rfl
  | byRef => exact (h '&' rfl).2.1 rfl
  | pointer => exact (h '*' rfl).2.2 rfl

/-- Two suffixes that begin one text are the same suffix. -/
theorem Suffix.eq_of_append_eq {s t : Suffix} {x y : List Char} (h : s.chars ++ x = t.chars ++ y) :
    s = t ∧ x = y := by
  cases s with
  | array m =>
    cases t with
    | array n =>
      simp only [Suffix.chars, List.cons_append, List.append_assoc, List.cons.injEq,
        true_and] at h
      have hcomma : ∀ k, ∀ c ∈ List.replicate k ',', (c == ',') = true := by
        intro k c hc
        simp [List.eq_of_mem_replicate hc]
      obtain ⟨hmn, hrest⟩ := run_eq_of_append_eq (hcomma m) (hcomma n)
        (by intro c hc; cases hc; rfl) (by intro c hc; cases hc; rfl) h
      have hlen := congrArg List.length hmn
      simp only [List.length_replicate] at hlen
      exact ⟨by rw [hlen], (List.cons.inj hrest).2⟩
    | byRef | pointer => simp [Suffix.chars] at h
  | byRef =>
    cases t with
    | byRef => exact ⟨rfl, (List.cons.inj h).2⟩
    | array | pointer => simp [Suffix.chars] at h
  | pointer =>
    cases t with
    | pointer => exact ⟨rfl, (List.cons.inj h).2⟩
    | array | byRef => simp [Suffix.chars] at h

theorem suffixes_eq_of_append_eq {ss ts : List Suffix} {x y : List Char} (hx : Unsuffixed x)
    (hy : Unsuffixed y)
    (h : ss.flatMap Suffix.chars ++ x = ts.flatMap Suffix.chars ++ y) : ss = ts ∧ x = y := by
  induction ss generalizing ts with
  | nil =>
    cases ts with
    | nil => exact ⟨rfl, h⟩
    | cons t ts =>
      rw [List.flatMap_cons, List.append_assoc] at h
      exact absurd h (hx.ne_append t _)
  | cons s ss ih =>
    cases ts with
    | nil =>
      rw [List.flatMap_cons, List.append_assoc] at h
      exact absurd h.symm (hy.ne_append s _)
    | cons t ts =>
      rw [List.flatMap_cons, List.flatMap_cons, List.append_assoc, List.append_assoc] at h
      obtain ⟨rfl, hrest⟩ := Suffix.eq_of_append_eq h
      obtain ⟨rfl, hxy⟩ := ih hrest
      exact ⟨rfl, hxy⟩

theorem Leaves.argChars {rest : List Char} (h : Leaves rest) (args : List Phrase) :
    ∀ c ∈ (Phrase.argChars args ++ rest).head?, isNameChar c = false := by
  intro c hc
  cases args with
  | nil => exact (h c hc).1
  | cons arg args => cases hc; decide

theorem Name.eq_of_append_eq {m n : Name} {x y : List Char}
    (hx : ∀ c ∈ x.head?, isNameChar c = false) (hy : ∀ c ∈ y.head?, isNameChar c = false)
    (h : m.chars ++ x = n.chars ++ y) : m = n ∧ x = y := by
  obtain ⟨hmn, hxy⟩ := run_eq_of_append_eq m.all_name n.all_name hx hy h
  exact ⟨Name.ext hmn, hxy⟩

theorem Name.append_ne_bang (name : Name) (x y : List Char) : name.chars ++ x ≠ '!' :: y := by
  obtain ⟨c, rest, hname, hc⟩ := name.exists_chars
  intro h
  rw [hname, List.cons_append] at h
  exact ne_of_class hc rfl (List.cons.inj h).1

mutual

theorem Phrase.eq_of_append_eq : ∀ (p q : Phrase) {x y : List Char}, Closes x → Closes y →
    p.chars ++ x = q.chars ++ y → p = q ∧ x = y
  | .mk lead core suffixes trail, .mk lead' core' suffixes' trail', x, y, hx, hy, h => by
    simp only [Phrase.chars, List.append_assoc] at h
    -- From left to right: what comes after a part shows where the part ends in both texts.
    obtain ⟨c, cs, hcore, hc⟩ := core.exists_chars
    obtain ⟨d, ds, hcore', hd⟩ := core'.exists_chars
    obtain ⟨hlead, hc⟩ := run_eq_of_append_eq lead.all_blank lead'.all_blank
      (by rw [hcore]; intro e he; cases he; exact hc)
      (by rw [hcore']; intro e he; cases he; exact hd) h
    obtain ⟨hcore, hs⟩ := Core.eq_of_append_eq core core' (hx.leaves _ _) (hy.leaves _ _) hc
    obtain ⟨hsuffixes, ht⟩ := suffixes_eq_of_append_eq (hx.unsuffixed_blanks _)
      (hy.unsuffixed_blanks _) hs
    obtain ⟨htrail, hxy⟩ := run_eq_of_append_eq trail.all_blank trail'.all_blank
      hx.not_isBlank hy.not_isBlank ht
    exact ⟨by rw [Blanks.ext hlead, hcore, hsuffixes, Blanks.ext htrail], hxy⟩

theorem Core.eq_of_append_eq : ∀ (p q : Core) {x y : List Char}, Leaves x → Leaves y →
    p.chars ++ x = q.chars ++ y → p = q ∧ x = y
  | .param m, .param n, x, y, hx, hy, h => by
    simp only [Core.chars, List.cons_append, List.cons.injEq, true_and] at h
    obtain ⟨hname, hxy⟩ := Name.eq_of_append_eq (hx.argChars []) (hy.argChars []) h
    exact ⟨by rw [hname], hxy⟩
  | .named m args, .named n args', x, y, hx, hy, h => by
    simp only [Core.chars, List.append_assoc] at h
    obtain ⟨hname, ha⟩ := Name.eq_of_append_eq (hx.argChars args) (hy.argChars args') h
    obtain ⟨hargs, hxy⟩ := Phrase.args_eq_of_append_eq args args' hx hy ha
    exact ⟨by rw [hname, hargs], hxy⟩
  | .param m, .named n args, x, y, hx, hy, h => by
    simp only [Core.chars, List.append_assoc] at h
    exact absurd h.symm (n.append_ne_bang _ _)
  | .named m args, .param n, x, y, hx, hy, h => by
    simp only [Core.chars, List.append_assoc] at h
    exact absurd h (m.append_ne_bang _ _)

theorem Phrase.args_eq_of_append_eq : ∀ (ps qs : List Phrase) {x y : List Char}, Leaves x →
    Leaves y → Phrase.argChars ps ++ x = Phrase.argChars qs ++ y → ps = qs ∧ x = y
  | [], [], x, y, hx, hy, h => ⟨rfl, h⟩
  | [], q :: qs, x, y, hx, hy, h => by
    exact absurd rfl (hx '<' (by rw [show x = _ from h]; rfl)).2
  | p :: ps, [], x, y, hx, hy, h => by
    exact absurd rfl (hy '<' (by rw [show y = _ from h.symm]; rfl)).2
  | p :: ps, q :: qs, x, y, hx, hy, h => by
    simp only [Phrase.argChars, List.cons_append, List.append_assoc, List.cons.injEq,
      true_and] at h
    obtain ⟨hpq, hm⟩ := Phrase.eq_of_append_eq p q (closes_moreChars ps x) (closes_moreChars qs y) h
    obtain ⟨hps, hxy⟩ := Phrase.more_eq_of_append_eq ps qs hm
    exact ⟨by rw [hpq, hps], hxy⟩

theorem Phrase.more_eq_of_append_eq : ∀ (ps qs : List Phrase) {x y : List Char},
    Phrase.moreChars ps ++ x = Phrase.moreChars qs ++ y → ps = qs ∧ x = y
  | [], [], x, y, h => ⟨rfl, (List.cons.inj h).2⟩
  | [], q :: qs, x, y, h => by simp [Phrase.moreChars] at h
  | p :: ps, [], x, y, h => by simp [Phrase.moreChars] at h
  | p :: ps, q :: qs, x, y, h => by
    simp only [Phrase.moreChars, List.cons_append, List.append_assoc, List.cons.injEq,
      true_and] at h
    obtain ⟨hpq, hm⟩ := Phrase.eq_of_append_eq p q (closes_moreChars ps x) (closes_moreChars qs y) h
    obtain ⟨hps, hxy⟩ := Phrase.more_eq_of_append_eq ps qs hm
    exact ⟨by rw [hpq, hps], hxy⟩

end

/-- A text has one derivation at most, the places of its blanks included. -/
theorem Phrase.chars_injective : Function.Injective Phrase.chars := by
  intro p q h
  have hend : Closes [] := by intro c hc; cases hc
  exact (Phrase.eq_of_append_eq p q hend hend (by rw [h])).1

/-! ## Names and ranks -/

mutual

/-- The names in a reference, of types and of parameters. -/
def names : TypeRef → List String
  | .named name args => name :: namesAll args
  | .param name => [name]
  | .array element _ | .byRef element | .pointer element => element.names

def namesAll : List TypeRef → List String
  | [] => []
  | arg :: args => arg.names ++ namesAll args

end

mutual

/-- The ranks of the arrays in a reference. -/
def ranks : TypeRef → List Nat
  | .named _ args => ranksAll args
  | .param _ => []
  | .array element rank => rank :: element.ranks
  | .byRef element | .pointer element => element.ranks

def ranksAll : List TypeRef → List Nat
  | [] => []
  | arg :: args => arg.ranks ++ ranksAll args

end

@[simp] theorem names_apply (ty : TypeRef) (s : Suffix) : (s.apply ty).names = ty.names := by
  cases s <;> rfl

theorem names_foldl_apply (suffixes : List Suffix) (ty : TypeRef) :
    (suffixes.foldl Suffix.apply ty).names = ty.names := by
  induction suffixes generalizing ty with
  | nil => rfl
  | cons s suffixes ih => rw [List.foldl_cons, ih, names_apply]

theorem rank_of_mem_apply {ty : TypeRef} {s : Suffix} {r : Nat} (h : r ∈ (s.apply ty).ranks) :
    r ∈ ty.ranks ∨ 0 < r ∧ r < s.chars.length := by
  cases s with
  | array commas =>
    rcases List.mem_cons.mp h with rfl | h
    · exact .inr ⟨Nat.succ_pos _, by simp [Suffix.chars]⟩
    · exact .inl h
  | byRef | pointer => exact .inl h

theorem rank_of_mem_foldl_apply {suffixes : List Suffix} {ty : TypeRef} {r : Nat}
    (h : r ∈ (suffixes.foldl Suffix.apply ty).ranks) :
    r ∈ ty.ranks ∨ 0 < r ∧ r < (suffixes.flatMap Suffix.chars).length := by
  induction suffixes generalizing ty with
  | nil => exact .inl h
  | cons s suffixes ih =>
    rw [List.flatMap_cons, List.length_append]
    rcases ih h with h | h
    · rcases rank_of_mem_apply h with h | h
      · exact .inl h
      · exact .inr (by omega)
    · exact .inr (by omega)

mutual

/-- The names of what is derived are the names that were derived. -/
theorem Phrase.exists_name_of_mem : ∀ (p : Phrase) {n : String}, n ∈ p.tree.names →
    ∃ name : Name, name.text = n
  | .mk lead core suffixes trail, n, h => by
    rw [Phrase.tree, names_foldl_apply] at h
    exact Core.exists_name_of_mem core h

theorem Core.exists_name_of_mem : ∀ (core : Core) {n : String}, n ∈ core.tree.names →
    ∃ name : Name, name.text = n
  | .param name, n, h => ⟨name, (List.mem_singleton.mp h).symm⟩
  | .named name args, n, h => by
    rcases List.mem_cons.mp h with h | h
    · exact ⟨name, h.symm⟩
    · exact Phrase.exists_name_of_mem_all args h

theorem Phrase.exists_name_of_mem_all : ∀ (args : List Phrase) {n : String},
    n ∈ namesAll (Phrase.trees args) → ∃ name : Name, name.text = n
  | [], n, h => by cases h
  | arg :: args, n, h => by
    rcases List.mem_append.mp h with h | h
    · exact Phrase.exists_name_of_mem arg h
    · exact Phrase.exists_name_of_mem_all args h

end

mutual

/-- A rank is counted off the text, so it is at most as large as the text is long. -/
theorem Phrase.rank_of_mem : ∀ (p : Phrase) {r : Nat}, r ∈ p.tree.ranks →
    0 < r ∧ r < p.chars.length
  | .mk lead core suffixes trail, r, h => by
    simp only [Phrase.chars, List.length_append]
    rcases rank_of_mem_foldl_apply h with h | h
    · have := Core.rank_of_mem core h
      omega
    · omega

theorem Core.rank_of_mem : ∀ (core : Core) {r : Nat}, r ∈ core.tree.ranks →
    0 < r ∧ r < core.chars.length
  | .param name, r, h => by cases h
  | .named name args, r, h => by
    have hargs := Phrase.rank_of_mem_all args h
    cases args with
    | nil => cases h
    | cons arg args =>
      simp only [Core.chars, Phrase.argChars, Phrase.moreChars, List.length_append,
        List.length_cons] at hargs ⊢
      omega

theorem Phrase.rank_of_mem_all : ∀ (args : List Phrase) {r : Nat},
    r ∈ ranksAll (Phrase.trees args) → 0 < r ∧ r < (Phrase.moreChars args).length
  | [], r, h => by cases h
  | arg :: args, r, h => by
    simp only [Phrase.moreChars, List.length_cons, List.length_append]
    rcases List.mem_append.mp h with h | h
    · have := Phrase.rank_of_mem arg h
      omega
    · have := Phrase.rank_of_mem_all args h
      omega

end

end Typings.TypeRef
