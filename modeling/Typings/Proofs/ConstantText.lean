import Typings.Proofs.Json.LongNumbers
import Typings.Proofs.Json.Yields
import Typings.Proofs.ManifestReading
import Typings.Proofs.Text.Literal

/-! # Constants survive as text

The text of a constant is JSON that is read as the constant again, as long as it is no double
(`text_reads_back`). Only numbers need care: whatever is kept as a whole number fits 64 bits, and an
unsigned one does so only where no signed one equals it, so the constant is one that its text can
describe (`writable_of_ofJson`, `document_text`). A whole number beyond 64 bits is never kept as
one: it is a double, up to a bound a little below the largest double.
-/
namespace Typings.Constant

open Typings.Json

/-! ## What is read can be written -/

theorem literal_eq_ok {α : Type} {a b : α} {letters cs rest : List Char}
    (h : literal a letters cs = .ok (b, rest)) : b = a := by
  rw [literal] at h
  split at h
  · cases h; rfl
  · cases h

/-- Doubles aside, the constant is one that JSON tells apart. -/
def WritableUnlessFloat (c : Constant) : Prop := (∃ x, c = .float x) ∨ c.IsWritable

theorem writable_ofNumber {n : Number} (h : ∀ value, n = .integer value → FitsNumber value) :
    (ofNumber n).WritableUnlessFloat := by
  cases n with
  | float x => exact .inl ⟨x, rfl⟩
  | integer value =>
    have hfits := fitsNumber_iff.mp (h value rfl)
    right
    rw [ofNumber]
    split
    · trivial
    · next hlarge =>
      show Int64.maxValue.toInt < (UInt64.ofNat value.toNat).toNat
      rw [UInt64.toNat_ofNat_of_lt' (by show value.toNat < 18446744073709551616; omega)]
      omega

theorem yields_readWith (inside : Option (Reader (Option Constant))) :
    (readWith inside).Yields fun o => ∀ c ∈ o, c.WritableUnlessFloat := by
  intro cs rest o h
  rw [readWith, Reader.atValue] at h
  dsimp only at h
  split at h
  · cases h
  · split at h
    · cases literal_eq_ok h
      nofun
    · split at h
      · cases literal_eq_ok h
        exact fun c hc => by cases hc; exact .inr trivial
      · split at h
        · cases literal_eq_ok h
          exact fun c hc => by cases hc; exact .inr trivial
        · split at h
          · obtain ⟨s, -, hs⟩ := Reader.onValue_eq_ok h
            cases hs
            exact fun c hc => by cases hc; exact .inr trivial
          · split at h
            · obtain ⟨n, hn, ho⟩ := Reader.onValue_eq_ok h
              cases ho
              intro c hc
              cases hc
              exact writable_ofNumber fun value hvalue => fits_of_number (hvalue ▸ hn)
            · split at h
              · split at h
                · cases h
                · obtain ⟨as, -, ho⟩ := Reader.onValue_eq_ok h
                  cases ho
                  nofun
              · split at h
                · split at h
                  · cases h
                  · obtain ⟨as, -, ho⟩ := Reader.onValue_eq_ok h
                    cases ho
                    nofun
                · cases h

theorem writable_of_ofJson {text : String} {c : Constant} (h : ofJson text = .ok c) :
    c.WritableUnlessFloat := by
  have hany : ∀ levels, (readAny levels).Yields fun o => ∀ c ∈ o, c.WritableUnlessFloat := by
    intro levels
    cases levels with
    | zero => exact yields_readWith none
    | succ levels => exact yields_readWith (some (readAny levels))
  have hread : ∀ levels, (read levels).Yields WritableUnlessFloat := by
    refine fun levels => (hany levels).tryMap fun o c ho hc => ?_
    cases o with
    | none => cases hc
    | some constant => cases hc; exact ho c rfl
  exact Reader.of_document hread h

/-! ## What is written is read -/

theorem toList_toString (value : Int) : (toString value).toList = (Numeral.ofInt value).chars := by
  have hdigits : ∀ n : Nat, (toString n).toList = (Digits.ofNat n).chars := by
    intro n
    rw [Nat.toString_eq_ofList_toDigits, String.toList_ofList]
    rfl
  have hunsigned : (Numeral.ofInt value).unsigned = (Digits.ofNat value.natAbs).chars :=
    List.append_nil _
  rw [Numeral.chars, hunsigned]
  cases value with
  | ofNat n =>
    rw [if_neg (by simp [Numeral.ofInt])]
    exact hdigits n
  | negSucc n =>
    rw [if_pos (by simp [Numeral.ofInt])]
    show ("-" ++ toString n.succ).toList = _
    rw [String.toList_append, hdigits]
    rfl

theorem document_toString (value : Int) :
    Presentation.integer.Document value (toString value) :=
  ⟨.none, _, .none, ⟨_, rfl, Numeral.writes_ofInt value⟩,
    (toList_toString value).trans (List.append_nil _).symm⟩

/-- Between blanks or not, the text of a constant is one that describes it. -/
theorem document_text {c : Constant} (h : c.IsWritable) :
    Manifest.Written.constant.Document c c.text := by
  suffices ∃ t, Manifest.Written.constant c t ∧ c.text.toList = t.chars by
    obtain ⟨t, ht, htext⟩ := this
    exact ⟨.none, t, .none, ht, htext.trans (List.append_nil _).symm⟩
  cases c with
  | bool value => exact ⟨.flag value, rfl, by cases value <;> rfl⟩
  | int value => exact ⟨_, ⟨_, rfl, Numeral.writes_ofInt value.toInt⟩, toList_toString _⟩
  | uint value =>
    exact ⟨_, ⟨h, _, rfl, Numeral.writes_ofInt value.toNat⟩, toList_toString value.toNat⟩
  | float value => exact absurd h not_false
  | string value =>
    obtain ⟨pieces, hchars, hpieces⟩ := Text.exists_literal value
    exact ⟨.text pieces, ⟨pieces, rfl, hpieces⟩, hchars⟩

theorem ofJson_of_document {c : Constant} {text : String}
    (h : Manifest.Written.constant.Document c text) : ofJson text = .ok c :=
  (Manifest.reads_constant maxLevels).document h

theorem ofJson_text {c : Constant} (h : c.IsWritable) : ofJson c.text = .ok c :=
  ofJson_of_document (document_text h)

/-! ## Whole numbers -/

section Whole

variable {value : Int} {text : String}

/-- A text of a number is read as its numeral is. -/
theorem ofJson_of_numeral {n : Numeral} {lead trail : Blanks}
    (htext : text.toList = lead.chars ++ (n.chars ++ trail.chars)) :
    (∀ x, number (n.chars ++ trail.chars) = .ok (.float x, trail.chars) →
        ofJson text = .ok (.float x)) ∧
      ∀ fault, number (n.chars ++ trail.chars) = .error fault → ofJson text = .error fault := by
  have hread : (readAny maxLevels).run text.toList =
      Reader.onValue (fun n => .ok (some (ofNumber n))) (number (n.chars ++ trail.chars)) := by
    rw [htext]
    exact Manifest.readWith_numeral n _ lead trail.chars
  have hrun : (read maxLevels).run text.toList = Reader.onValue _ _ := rfl
  rw [hread] at hrun
  have hblank : skipSpace trail.chars = [] := by
    have hskip := skipSpace_blanks trail []
    rwa [List.append_nil] at hskip
  constructor
  · intro x hx
    rw [ofJson, Reader.document, hrun, hx]
    show (if (skipSpace trail.chars).isEmpty = true then _ else _) = _
    rw [hblank]
    rfl
  · intro fault hfault
    rw [ofJson, Reader.document, hrun, hfault]
    rfl

/-- A whole number that fits 64 bits with a sign is read so. -/
theorem ofJson_int (h : Presentation.integer.Document value text) (hmin : -2 ^ 63 ≤ value)
    (hmax : value < 2 ^ 63) : ∃ i : Int64, i.toInt = value ∧ ofJson text = .ok (.int i) := by
  obtain ⟨lead, t, trail, ht, htext⟩ := h
  have hvalue : (Int64.ofInt value).toInt = value := Int64.toInt_ofInt_of_le hmin hmax
  refine ⟨.ofInt value, hvalue, ofJson_of_document ⟨lead, t, trail, ?_, htext⟩⟩
  show Presentation.integer (Int64.ofInt value).toInt t
  rwa [hvalue]

/-- Beyond these it is unsigned, as far as 64 bits go. -/
theorem ofJson_uint (h : Presentation.integer.Document value text) (hmin : 2 ^ 63 ≤ value)
    (hmax : value < 2 ^ 64) :
    ∃ u : UInt64, (u.toNat : Int) = value ∧ ofJson text = .ok (.uint u) := by
  obtain ⟨lead, t, trail, ht, htext⟩ := h
  have hvalue : ((UInt64.ofNat value.toNat).toNat : Int) = value := by
    rw [UInt64.toNat_ofNat_of_lt' (by show value.toNat < 2 ^ 64; omega)]
    omega
  refine ⟨.ofNat value.toNat, hvalue, ofJson_of_document ⟨lead, t, trail, ⟨?_, ?_⟩, htext⟩⟩
  · show (9223372036854775807 : Int) < (UInt64.ofNat value.toNat).toNat
    omega
  · rwa [hvalue]

theorem ofJson_beyond (h : Presentation.integer.Document value text)
    (hbeyond : value < -2 ^ 63 ∨ 2 ^ 64 ≤ value) :
    (value.natAbs < Decimal.leastRefused → ∃ x, ofJson text = .ok (.float x)) ∧
      (Decimal.leastRefused ≤ value.natAbs → ofJson text = .error .numberOutOfRange) := by
  obtain ⟨lead, t, trail, ⟨n, rfl, hn⟩, htext⟩ := h
  obtain ⟨hfloat, hfault⟩ := ofJson_of_numeral htext
  have hnot : ¬ FitsNumber value := by
    rw [fitsNumber_iff]
    omega
  have hnil : Delimited [] := nofun
  have hdelimited := hnil.blanks trail
  rw [List.append_nil] at hdelimited
  obtain ⟨hbelow, hfrom⟩ := number_beyond hn hnot hdelimited
  refine ⟨fun hlt => ?_, fun hle => hfault _ (hfrom hle)⟩
  obtain ⟨x, hx⟩ := hbelow hlt
  exact ⟨x, hfloat x hx⟩

end Whole

/-! ## All constants -/

/-- Doubles aside, the text of a constant is read back as the constant. Whole numbers keep their
value within 64 bits, signed as far as they fit; beyond, they are doubles below one bound and
refused from there on. That bound is not past the largest double, though it is less than one place
below it. The text of a string is one literal that stands for the string and holds no controls. -/
theorem text_reads_back :
    (∀ (json : String) (c : Constant), ofJson json = .ok c → (∀ x, c ≠ .float x) →
      ofJson c.text = .ok c) ∧
    (∀ (value : Int) (json : String), Presentation.integer.Document value json →
      (-2 ^ 63 ≤ value → value < 2 ^ 63 → ∃ i : Int64, i.toInt = value ∧
        ofJson json = .ok (.int i) ∧ (Constant.int i).text = toString value) ∧
      (2 ^ 63 ≤ value → value < 2 ^ 64 → ∃ u : UInt64, (u.toNat : Int) = value ∧
        ofJson json = .ok (.uint u) ∧ (Constant.uint u).text = toString value) ∧
      (value < -2 ^ 63 ∨ 2 ^ 64 ≤ value →
        (value.natAbs < Decimal.leastRefused → ∃ x, ofJson json = .ok (.float x)) ∧
        (Decimal.leastRefused ≤ value.natAbs → ofJson json = .error .numberOutOfRange))) ∧
    (Decimal.largestDouble - 2 ^ 971 < Decimal.leastRefused ∧
      Decimal.leastRefused ≤ Decimal.largestDouble) ∧
    (∀ s : String, ofJson (Constant.string s).text = .ok (.string s) ∧
      (∃ pieces, (Constant.string s).text.toList = (Tree.text pieces).chars ∧
        Json.Piece.text? pieces = some s) ∧
      ∀ c ∈ (Constant.string s).text.toList, 0x20 ≤ c.toNat) := by
  refine ⟨fun json c hread hfloat => ?_, fun value json hjson => ⟨fun hmin hmax => ?_,
    fun hmin hmax => ?_, ofJson_beyond hjson⟩, ?_,
    fun s => ⟨ofJson_text trivial, Text.exists_literal s, ?_⟩⟩
  · rcases writable_of_ofJson hread with ⟨x, hx⟩ | hwritable
    · exact absurd hx (hfloat x)
    · exact ofJson_text hwritable
  · obtain ⟨i, rfl, hread⟩ := ofJson_int hjson hmin hmax
    exact ⟨i, rfl, hread, rfl⟩
  · obtain ⟨u, rfl, hread⟩ := ofJson_uint hjson hmin hmax
    exact ⟨u, rfl, hread, rfl⟩
  · exact Decimal.leastRefused_bounds
  · exact fun c hc => Nat.le_of_not_lt (Text.no_control_of_mem_quoted hc)

/-- The digits of the largest double. -/
def largestNumeral : String :=
  "17976931348623157081452742373170435679807056752584499659891747680315726078002853" ++
  "87605895586327668781715404589535143824642343213268894641827684675467035375169860" ++
  "49910576551282076245490090389328944075868508455133942304583236903222948165808559" ++
  "332123348274797826204144723168738177180919299881250404026184124858368"

/-- The numeral of the largest double is refused, though there is a double for it. -/
theorem largest_double_refused :
    Presentation.integer.Document Decimal.largestDouble largestNumeral ∧
      ofJson largestNumeral = .error .numberOutOfRange := by
  have hnumeral : toString (Decimal.largestDouble : Int) = largestNumeral := by decide +kernel
  have hdocument : Presentation.integer.Document Decimal.largestDouble largestNumeral :=
    hnumeral ▸ document_toString Decimal.largestDouble
  refine ⟨hdocument, (ofJson_beyond hdocument (.inr (by decide +kernel))).2 ?_⟩
  rw [Int.natAbs_natCast]
  exact Decimal.leastRefused_bounds.2

end Typings.Constant
