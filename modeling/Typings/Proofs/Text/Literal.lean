import Typings.Text.Quoted
import Typings.Proofs.Json.Writing

/-! # Quoted strings are string literals

Each character of a quoted string is spelled by one piece of a literal that stands for it, so the
literal as a whole stands for the string; no piece holds a control as such.
-/
namespace Typings.Text

open Typings.Json

theorem mem_of_lookup {α β : Type} [BEq α] [LawfulBEq α] {a : α} {b : β} {entries : List (α × β)}
    (h : entries.lookup a = some b) : (a, b) ∈ entries := by
  obtain ⟨front, back, rfl, -⟩ := List.lookup_eq_some_iff.mp h
  exact List.mem_append_right front List.mem_cons_self

theorem exists_piece (c : Char) : ∃ p : Json.Piece, p.chars = escaped c ∧ p.meaning? = some c := by
  rw [escaped]
  cases hshort : shortEscapes.lookup c with
  | some mark =>
    have hletter : ∀ entry ∈ shortEscapes, letterEscapes.lookup entry.2 = some entry.1 := by decide
    exact ⟨.letter mark c (hletter _ (mem_of_lookup hshort)), rfl, rfl⟩
  | none =>
    dsimp only
    split
    · next hcontrol =>
      refine ⟨.unit (.ofNat c.toNat (by omega)), ?_, Json.Piece.meaning?_control hcontrol⟩
      have hfirst : c.toNat / 4096 = 0 := by omega
      have hsecond : c.toNat / 256 % 16 = 0 := by omega
      have hthird : c.toNat / 16 % 16 = c.toNat / 16 := by omega
      simp only [Json.Piece.chars, Quad.chars, Quad.ofNat, HexDigit.ofFin, hfirst, hsecond, hthird]
      rfl
    · next hcontrol =>
      have hquote : c ≠ '"' := by
        rintro rfl
        cases hshort
      have hbackslash : c ≠ '\\' := by
        rintro rfl
        cases hshort
      exact ⟨.plain c hquote hbackslash hcontrol, rfl, rfl⟩

theorem exists_pieces (cs : List Char) :
    ∃ ps, Json.Piece.body ps = cs.flatMap escaped ++ ['"'] ∧ Json.Piece.meanings? ps = some cs := by
  induction cs with
  | nil => exact ⟨[], rfl, rfl⟩
  | cons c cs ih =>
    obtain ⟨p, hchars, hmeaning⟩ := exists_piece c
    obtain ⟨ps, hbody, hmeanings⟩ := ih
    refine ⟨p :: ps, ?_, ?_⟩
    · rw [Json.Piece.body, hchars, hbody, List.flatMap_cons, List.append_assoc]
    · rw [Json.Piece.meanings?, hmeaning, hmeanings]

/-- A quoted string is a literal that stands for it. -/
theorem exists_literal (s : String) : ∃ ps,
    (quoted s).toList = (Tree.text ps).chars ∧ Json.Piece.text? ps = some s := by
  obtain ⟨ps, hbody, hmeanings⟩ := exists_pieces s.toList
  refine ⟨ps, ?_, ?_⟩
  · rw [toList_quoted, quotedChars, Tree.chars, hbody]
  · rw [Json.Piece.text?, hmeanings, Option.map_some, String.ofList_toList]

theorem no_control_of_mem_escaped {c d : Char} (h : d ∈ escaped c) : ¬ d.toNat < 0x20 := by
  rw [escaped] at h
  split at h
  · next mark hshort =>
    have hmarks : ∀ entry ∈ shortEscapes, ¬ entry.2.toNat < 0x20 := by decide
    rcases List.mem_cons.mp h with rfl | h
    · decide
    · rw [List.mem_singleton.mp h]
      exact hmarks _ (mem_of_lookup hshort)
  · split at h
    · next hcontrol =>
      have hdigit : ∀ n < 16, ¬ (Nat.digitChar n).toNat < 0x20 := by decide
      have hmark : ∀ d ∈ ['\\', 'u', '0', '0'], ¬ d.toNat < 0x20 := by simp
      rcases (List.mem_append (s := ['\\', 'u', '0', '0'])).mp h with h | h
      · exact hmark d h
      · rcases List.mem_cons.mp h with rfl | h
        · exact hdigit _ (by omega)
        · rw [List.mem_singleton.mp h]
          exact hdigit _ (by omega)
    · next hplain =>
      rwa [List.mem_singleton.mp h]

theorem no_control_of_mem_quoted {s : String} {c : Char} (h : c ∈ (quoted s).toList) :
    ¬ c.toNat < 0x20 := by
  rw [toList_quoted, quotedChars] at h
  rcases List.mem_cons.mp h with rfl | h
  · decide
  · rcases List.mem_append.mp h with h | h
    · obtain ⟨d, -, hd⟩ := List.mem_flatMap.mp h
      exact no_control_of_mem_escaped hd
    · rw [List.mem_singleton.mp h]
      decide

end Typings.Text
