import Typings.Manifest
import Typings.MetadataSet
import Typings.Proofs.Json.ReadsRecord
import Typings.Proofs.ManifestPresentation

/-! # Reading what describes a manifest

Every manifest of some assemblies is read as just these (`reads_every_presentation`): the order of
members, fields left out, members with unknown keys, blanks, escapes and the spelling of references
make no difference. Each record serves the fields it is written with, one level of brackets below
its own; the number of levels that a manifest needs is far below the limit.
-/
namespace Typings.Manifest

open Typings.Json

/-! ## Single values -/

theorem reads_text (levels : Nat) : (text levels).Reads .text := Reader.reads_text

theorem reads_flag (levels : Nat) : (flag levels).Reads .flag := Reader.reads_flag

theorem reads_reference (levels : Nat) : (reference levels).Reads Written.reference :=
  Reader.reads_text.tryMap fun ty t ⟨s, hs, ht⟩ => ⟨s, ht, by rw [hs]⟩

theorem neverNull_reference : Written.reference.NeverNull := by
  intro ty ht
  obtain ⟨s, -, ht⟩ := ht
  exact Presentation.neverNull_text s ht

theorem reads_token (levels : Nat) : (token levels).Reads (.optional Written.token) := by
  have htoken : (Reader.token.map MethodToken.mk).Reads Written.token :=
    Reader.reads_token.map fun token t ht => ⟨token.value, ht, rfl⟩
  exact htoken.optional fun token => Presentation.neverNull_integer _

theorem kindNamed_nameOfKind (kind : DefinitionKind) :
    kindNamed (Written.nameOfKind kind) = .ok kind := by
  cases kind <;> rfl

theorem reads_kind (levels : Nat) : (kind levels).Reads Written.kind := by
  have hname : kindName.Reads Written.kind :=
    Reader.reads_text.tryMap fun kind t ht => ⟨_, ht, kindNamed_nameOfKind kind⟩
  intro k t ht lead rest hrest
  have hread := hname k t ht .none rest hrest
  obtain ⟨pieces, rfl, -⟩ := ht
  refine ((kind levels).run_eq (fun _ => rfl) (.text pieces) rfl lead rest).trans ?_
  rw [if_neg (by decide), if_pos rfl]
  exact hread

/-! ## Constants -/

theorem ofNumber_int (value : Int64) :
    Constant.ofNumber (.integer value.toInt) = .int value := by
  rw [Constant.ofNumber, if_pos value.toInt_le, Int64.ofInt_toInt]

theorem ofNumber_uint {value : UInt64} (h : Int64.maxValue.toInt < value.toNat) :
    Constant.ofNumber (.integer value.toNat) = .uint value := by
  rw [Constant.ofNumber, if_neg (Int.not_le.mpr h), Int.toNat_natCast, UInt64.ofNat_toNat]

theorem readWith_numeral (n : Numeral) (inside : Option (Reader (Option Constant)))
    (lead : Blanks) (rest : List Char) :
    (Constant.readWith inside).run (lead.chars ++ ((Tree.number n).chars ++ rest)) =
      Reader.onValue (fun n => .ok (some (Constant.ofNumber n))) (number (n.chars ++ rest)) := by
  obtain ⟨c, cs, hcs, hc⟩ := n.exists_chars
  refine ((Constant.readWith inside).run_eq (fun _ => rfl) (.number n) hcs lead rest).trans ?_
  rw [if_neg (ne_of_class hc (by decide)), if_neg (ne_of_class hc (by decide)),
    if_neg (ne_of_class hc (by decide)), if_neg (ne_of_class hc (by decide)), if_pos hc, hcs,
    List.cons_append]

theorem readWith_number {n : Numeral} {value : Int} (hn : n.Writes value) (hfits : FitsNumber value)
    (inside : Option (Reader (Option Constant))) (lead : Blanks) {rest : List Char}
    (hrest : Delimited rest) :
    (Constant.readWith inside).run (lead.chars ++ ((Tree.number n).chars ++ rest)) =
      .ok (some (Constant.ofNumber (.integer value)), rest) := by
  rw [readWith_numeral, number_chars hn hfits hrest]
  rfl

theorem fitsNumber_int (value : Int64) : FitsNumber value.toInt := by
  have hmin := value.le_toInt
  have hmax := value.toInt_lt
  rw [fitsNumber_iff]
  omega

theorem fitsNumber_uint (value : UInt64) : FitsNumber value.toNat := by
  have hmax := value.toNat_lt
  rw [fitsNumber_iff]
  omega

/-- Whatever may be read inside of brackets, a constant has none. -/
theorem reads_readWith (inside : Option (Reader (Option Constant))) :
    (Constant.readWith inside).Reads fun o t => ∃ constant, o = some constant ∧
      Written.constant constant t := by
  intro o t ht lead rest hrest
  obtain ⟨constant, rfl, ht⟩ := ht
  cases constant with
  | bool value =>
    cases ht
    cases value with
    | true => exact (Constant.readWith inside).run_eq (fun _ => rfl) (.flag true) rfl lead rest
    | false => exact (Constant.readWith inside).run_eq (fun _ => rfl) (.flag false) rfl lead rest
  | int value =>
    obtain ⟨n, rfl, hn⟩ := ht
    rw [← ofNumber_int value]
    exact readWith_number hn (fitsNumber_int value) inside lead hrest
  | uint value =>
    obtain ⟨hlarge, n, rfl, hn⟩ := ht
    rw [← ofNumber_uint hlarge]
    exact readWith_number hn (fitsNumber_uint value) inside lead hrest
  | float value => cases ht
  | string value =>
    obtain ⟨pieces, rfl, hpieces⟩ := ht
    obtain ⟨cs, hcs, rfl⟩ := Option.map_eq_some_iff.mp hpieces
    refine ((Constant.readWith inside).run_eq (fun _ => rfl) (.text pieces) rfl lead rest).trans ?_
    rw [if_neg (by decide), if_neg (by decide), if_neg (by decide), if_pos rfl, stringBody_body hcs]
    rfl

theorem reads_constant (levels : Nat) : (Constant.read levels).Reads Written.constant := by
  have hany : (Constant.readAny levels).Reads fun o t => ∃ constant, o = some constant ∧
      Written.constant constant t := by
    cases levels with
    | zero => exact reads_readWith none
    | succ levels => exact reads_readWith (some (Constant.readAny levels))
  exact hany.tryMap fun constant t ht => ⟨some constant, ⟨constant, rfl, ht⟩, rfl⟩

theorem neverNull_constant : Written.constant.NeverNull := by
  intro constant ht
  cases constant with
  | bool value => exact Presentation.neverNull_flag value ht
  | int value => exact Presentation.neverNull_integer _ ht
  | uint value => exact Presentation.neverNull_integer _ ht.2
  | float value => exact ht
  | string value => exact Presentation.neverNull_text value ht

/-! ## Records -/

theorem serves_accessor (levels : Nat) : accessor.Serves levels Written.accessor where
  fields := by
    refine .cons (.defaulted (reads_token levels) rfl ?_) <|
      .cons (.defaulted (reads_flag levels) rfl ?_) <|
      .cons (.defaulted (reads_flag levels) rfl ?_) .nil
    all_goals simp [Field.SetsOnly, Written.accessor, Slot.defaulted]
  keys_nodup := by decide
  ext := by
    rintro ⟨⟩ ⟨⟩ h
    simpa [Written.accessor, Slot.defaulted] using h

theorem serves_field (levels : Nat) : field.Serves levels Written.field where
  fields := by
    refine .cons (.mandatory (reads_text levels) ?_) <|
      .cons (.mandatory (reads_reference levels) ?_) <|
      .cons (.defaulted (reads_flag levels) rfl ?_) <|
      .cons (.defaulted (reads_flag levels) rfl ?_) <|
      .cons (.defaulted ((reads_constant levels).optional neverNull_constant) rfl ?_) .nil
    all_goals simp [Field.SetsOnly, Written.field, Slot.mandatory, Slot.defaulted]
  keys_nodup := by decide
  ext := by
    rintro ⟨⟩ ⟨⟩ h
    simpa [Written.field, Slot.mandatory, Slot.defaulted] using h

theorem serves_property (levels : Nat) : property.Serves (levels + 1) Written.property where
  fields := by
    have haccessor := (serves_accessor levels).reads.optional (Presentation.neverNull_object _)
    refine .cons (.mandatory (reads_text _) ?_) <|
      .cons (.mandatory (reads_reference _) ?_) <|
      .cons (.defaulted haccessor rfl ?_) <|
      .cons (.defaulted haccessor rfl ?_) .nil
    all_goals simp [Field.SetsOnly, Written.property, Slot.mandatory, Slot.defaulted]
  keys_nodup := by decide
  ext := by
    rintro ⟨⟩ ⟨⟩ h
    simpa [Written.property, Slot.mandatory, Slot.defaulted] using h

theorem serves_param (levels : Nat) : param.Serves levels Written.param where
  fields := by
    refine .cons (.mandatory (reads_text levels) ?_) <|
      .cons (.mandatory (reads_reference levels) ?_) <|
      .cons (.defaulted (reads_flag levels) rfl ?_) <|
      .cons (.defaulted (reads_flag levels) rfl ?_) .nil
    all_goals simp [Field.SetsOnly, Written.param, Slot.mandatory, Slot.defaulted]
  keys_nodup := by decide
  ext := by
    rintro ⟨⟩ ⟨⟩ h
    simpa [Written.param, Slot.mandatory, Slot.defaulted] using h

theorem reads_params (levels : Nat) :
    (Reader.list param.read (levels + 2)).Reads (.list (.object Written.param)) :=
  (serves_param levels).reads.list

theorem serves_constructor (levels : Nat) :
    constructor.Serves (levels + 2) Written.constructor where
  fields := by
    refine .cons (.defaulted (reads_token _) rfl ?_) <|
      .cons (.defaulted (reads_flag _) rfl ?_) <|
      .cons (.defaulted (reads_flag _) rfl ?_) <|
      .cons (.defaulted (reads_params levels) rfl ?_) .nil
    all_goals simp [Field.SetsOnly, Written.constructor, Slot.defaulted]
  keys_nodup := by decide
  ext := by
    rintro ⟨⟩ ⟨⟩ h
    simpa [Written.constructor, Slot.defaulted] using h

theorem serves_method (levels : Nat) : method.Serves (levels + 2) Written.method where
  fields := by
    refine .cons (.defaulted (reads_token _) rfl ?_) <|
      .cons (.mandatory (reads_text _) ?_) <|
      .cons (.defaulted (reads_flag _) rfl ?_) <|
      .cons (.defaulted (reads_flag _) rfl ?_) <|
      .cons (.defaulted (reads_params levels) rfl ?_) <|
      .cons (.defaulted (reads_reference _) rfl ?_) .nil
    all_goals simp [Field.SetsOnly, Written.method, Slot.mandatory, Slot.defaulted]
  keys_nodup := by decide
  ext := by
    rintro ⟨⟩ ⟨⟩ h
    simpa [Written.method, Slot.mandatory, Slot.defaulted] using h

theorem serves_signature (levels : Nat) : signature.Serves (levels + 2) Written.signature where
  fields := by
    refine .cons (.defaulted (reads_params levels) rfl ?_) <|
      .cons (.defaulted (reads_reference _) rfl ?_) .nil
    all_goals simp [Field.SetsOnly, Written.signature, Slot.defaulted]
  keys_nodup := by decide
  ext := by
    rintro ⟨⟩ ⟨⟩ h
    simpa [Written.signature, Slot.defaulted] using h

theorem serves_event (levels : Nat) : event.Serves (levels + 3) Written.event where
  fields := by
    refine .cons (.mandatory (reads_text _) ?_) <|
      .cons (.mandatory (reads_reference _) ?_) <|
      .cons (.defaulted (reads_flag _) rfl ?_) <|
      .cons (.defaulted (reads_flag _) rfl ?_) <|
      .cons (.defaulted (reads_token _) rfl ?_) <|
      .cons (.defaulted (reads_token _) rfl ?_) <|
      .cons (.defaulted (serves_signature levels).reads rfl ?_) .nil
    all_goals simp [Field.SetsOnly, Written.event, Slot.mandatory, Slot.defaulted]
  keys_nodup := by decide
  ext := by
    rintro ⟨⟩ ⟨⟩ h
    simpa [Written.event, Slot.mandatory, Slot.defaulted] using h

/-- Events open the most levels inside of a type. -/
theorem serves_type (levels : Nat) : type.Serves (levels + 5) Written.type where
  fields := by
    refine .cons (.defaulted (reads_text _) rfl ?_) <|
      .cons (.mandatory (reads_text _) ?_) <|
      .cons (.defaulted (reads_kind _) rfl ?_) <|
      .cons (.defaulted (reads_flag _) rfl ?_) <|
      .cons (.defaulted (reads_flag _) rfl ?_) <|
      .cons (.defaulted (reads_flag _) rfl ?_) <|
      .cons (.defaulted ((reads_text _).optional Presentation.neverNull_text) rfl ?_) <|
      .cons (.defaulted ((reads_reference _).optional neverNull_reference) rfl ?_) <|
      .cons (.defaulted (reads_reference _).list rfl ?_) <|
      .cons (.defaulted (reads_text _).list rfl ?_) <|
      .cons (.defaulted (serves_field _).reads.list rfl ?_) <|
      .cons (.defaulted (serves_property _).reads.list rfl ?_) <|
      .cons (.defaulted (serves_constructor _).reads.list rfl ?_) <|
      .cons (.defaulted (serves_method _).reads.list rfl ?_) <|
      .cons (.defaulted (serves_event _).reads.list rfl ?_) .nil
    all_goals simp [Field.SetsOnly, Written.type, Slot.mandatory, Slot.defaulted]
  keys_nodup := by decide
  ext := by
    rintro ⟨⟩ ⟨⟩ h
    simpa [Written.type, Slot.mandatory, Slot.defaulted] using h

theorem serves_assembly (levels : Nat) : assembly.Serves (levels + 7) Written.assembly where
  fields := by
    refine .cons (.mandatory (reads_text _) ?_) <|
      .cons (.defaulted (serves_type levels).reads.list rfl ?_) <|
      .cons (.defaulted (reads_text _).list rfl ?_) .nil
    all_goals simp [Field.SetsOnly, Written.assembly, Slot.mandatory, Slot.defaulted]
  keys_nodup := by decide
  ext := by
    rintro ⟨⟩ ⟨⟩ h
    simpa [Written.assembly, Slot.mandatory, Slot.defaulted] using h

theorem serves_whole (levels : Nat) : whole.Serves (levels + 9) Written.whole where
  fields := by
    refine .cons (.defaulted (serves_assembly levels).reads.list rfl ?_) .nil
    simp [Field.SetsOnly, Written.whole, Slot.defaulted]
  keys_nodup := by decide
  ext := by
    intro a b h
    simpa [Written.whole, Slot.defaulted] using h

/-- All definitions that can be written have a manifest, and each of their manifests loads as a set
with just these definitions. -/
theorem reads_every_presentation (assemblies : List AssemblyDef) (h : Writable assemblies) :
    (∃ text, Describes text assemblies) ∧
      ∀ text, Describes text assemblies →
        ∃ set, (ofJson text).map MetadataSet.ofAssemblies = .ok set ∧
          set.assemblies = assemblies := by
  refine ⟨exists_manifest h, fun text htext => ?_⟩
  have hwhole : (whole.read maxLevels).Reads (.object Written.whole) := (serves_whole 117).reads
  have hread : ofJson text = .ok assemblies := hwhole.document htext
  exact ⟨MetadataSet.ofAssemblies assemblies, by rw [hread]; rfl, rfl⟩

/-! ### One manifest

Its members are out of order and it leaves defaults out; it has an unknown member, a blank in front
of a key, an escape in a name and one in front of a reference. -/

def shuffledText : String :=
  "\x7b \"generator\":[null],\"assemblies\":[\x7b\"types\":[\x7b\"fields\":[\x7b\"constant\":5," ++
    "\"type\":\" int\",\"name\":\"Max\"\x7d],\"name\":\"\\u0041\"\x7d],\"name\":\"Lib\"\x7d]\x7d"

def shuffledField : Tree :=
  .object .none
    [.ofKey "constant" (.number (.ofInt 5)), .ofKey "type" (.text (Piece.ofString " int")),
      .ofKey "name" (.text (Piece.ofString "Max"))]

def shuffledType : Tree :=
  .object .none
    [.ofKey "fields" (.list .none [.mk .none shuffledField .none]),
      .ofKey "name" (.text [.unit (.ofNat 0x41 (by decide))])]

def shuffledAssembly : Tree :=
  .object .none
    [.ofKey "types" (.list .none [.mk .none shuffledType .none]),
      .ofKey "name" (.text (Piece.ofString "Lib"))]

def shuffled : Tree :=
  .object ⟨[' '], List.forall_mem_singleton.mpr rfl⟩
    [.ofKey "generator" (.list .none [.mk .none .null .none]),
      .ofKey "assemblies" (.list .none [.mk .none shuffledAssembly .none])]

def plainField : FieldDef :=
  { name := "Max", type := .named "int" [], constant := some (.int 5) }

def plainType : TypeDef := { name := "A", fields := [plainField] }

def plainAssembly : AssemblyDef := { name := "Lib", types := [plainType] }

theorem writes_plainField : Presentation.object Written.field plainField shuffledField := by
  refine ⟨.none, _, rfl, by simp, ?_⟩
  simp only [Written.field, List.forall_mem_cons]
  exact ⟨.written (.ofKey "name" (.text (Piece.ofString "Max"))) (by simp [Slot.mandatory])
      ⟨_, rfl, Piece.text?_ofString _⟩,
    .written (.ofKey "type" (.text (Piece.ofString " int"))) (by simp [Slot.mandatory])
      ⟨" int", rfl, _, rfl, Piece.text?_ofString _⟩,
    .left_out (by simp [Slot.defaulted]) rfl, .left_out (by simp [Slot.defaulted]) rfl,
    .written (.ofKey "constant" (.number (.ofInt 5))) (by simp [Slot.defaulted])
      ⟨_, rfl, Numeral.writes_ofInt 5⟩, List.forall_mem_nil _⟩

theorem writes_plainType : Presentation.object Written.type plainType shuffledType := by
  have hleft_out : ∀ (β : Type) key get default (W : Presentation β), default = get plainType →
      key ≠ "fields" → key ≠ "name" → (Slot.defaulted key get default W).FilledBy plainType
        [.ofKey "fields" (.list .none [.mk .none shuffledField .none]),
          .ofKey "name" (.text [.unit (.ofNat 0x41 (by decide))])] := by
    intro β key get default W hdefault hfields hname
    exact .left_out (by simp [Slot.defaulted, hfields.symm, hname.symm]) (congrArg some hdefault)
  refine ⟨.none, _, rfl, by simp, ?_⟩
  simp only [Written.type, List.forall_mem_cons]
  refine ⟨hleft_out _ _ _ _ _ rfl (by decide) (by decide),
    .written (.ofKey "name" (.text [.unit (.ofNat 0x41 (by decide))]))
      (by simp [Slot.mandatory]) ⟨_, rfl, by decide +kernel⟩,
    ?_, ?_, ?_, ?_, ?_, ?_, ?_, ?_,
    .written (.ofKey "fields" (.list .none [.mk .none shuffledField .none]))
      (by simp [Slot.defaulted]) ⟨.none, _, rfl, .cons writes_plainField .nil⟩,
    ?_, ?_, ?_, ?_, List.forall_mem_nil _⟩
  all_goals exact hleft_out _ _ _ _ _ rfl (by decide) (by decide)

theorem writes_plainAssembly :
    Presentation.object Written.assembly plainAssembly shuffledAssembly := by
  refine ⟨.none, _, rfl, by simp, ?_⟩
  simp only [Written.assembly, List.forall_mem_cons]
  exact ⟨.written (.ofKey "name" (.text (Piece.ofString "Lib"))) (by simp [Slot.mandatory])
      ⟨_, rfl, Piece.text?_ofString _⟩,
    .written (.ofKey "types" (.list .none [.mk .none shuffledType .none]))
      (by simp [Slot.defaulted]) ⟨.none, _, rfl, .cons writes_plainType .nil⟩,
    .left_out (by simp [Slot.defaulted]) rfl, List.forall_mem_nil _⟩

theorem describes_shuffledText : Describes shuffledText [plainAssembly] := by
  have hassemblies : Presentation.object Written.whole [plainAssembly] shuffled := by
    refine ⟨_, _, rfl, by simp, ?_⟩
    simp only [Written.whole, List.forall_mem_cons]
    exact ⟨.written (.ofKey "assemblies" (.list .none [.mk .none shuffledAssembly .none]))
      (by simp [Slot.defaulted]) ⟨.none, _, rfl, .cons writes_plainAssembly .nil⟩,
      List.forall_mem_nil _⟩
  exact ⟨.none, shuffled, .none, hassemblies, by decide +kernel⟩

theorem writable_plainAssembly : Writable [plainAssembly] where
  references a ha d hd := by
    cases List.mem_singleton.mp ha
    cases List.mem_singleton.mp hd
    have hint : (TypeRef.named "int" []).WellFormed := TypeRef.wellFormed_of_ofText (s := "int") rfl
    exact { base := nofun, genericArgs := nofun, fields := List.forall_mem_singleton.mpr hint,
            properties := nofun, constructors := nofun, methods := nofun, events := nofun }
  constants := by simp [plainAssembly, plainType, plainField, Constant.IsWritable]

theorem shuffled_manifest_loads :
    Writable [plainAssembly] ∧ Describes shuffledText [plainAssembly] ∧
      ∃ set, (ofJson shuffledText).map MetadataSet.ofAssemblies = .ok set ∧
        set.assemblies = [plainAssembly] :=
  ⟨writable_plainAssembly, describes_shuffledText,
    (reads_every_presentation [plainAssembly] writable_plainAssembly).2 shuffledText
      describes_shuffledText⟩

end Typings.Manifest
