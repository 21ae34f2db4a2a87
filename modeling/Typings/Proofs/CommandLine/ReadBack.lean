import Typings.Proofs.CommandLine.Words

/-! # Command lines read back

What a command line says is the same in any order, as long as the seeds of a kind keep theirs:
`Draft.SaidBy` compares a draft with what is said, kind by kind. A draft that is said in the end has
room for each thing when it comes, so no word is refused on the way, and the draft that the last
word leads to is the one that is said, for there is only one.
-/
namespace Typings.CommandLine

/-- The manifests that are named. -/
def pathsOf (items : List Item) : List String :=
  items.filterMap fun
    | .manifest path => some path
    | _ => none

/-- The values that an option is given, in order. -/
def valuesOf (option : ValueOption) (items : List Item) : List String :=
  items.filterMap fun
    | .value other text => if other = option then some text else none
    | _ => none

namespace Draft

/-- What a draft holds for an option is what the values say. A value that can be given once only may
be missing, and the path of an output is not empty. -/
def Records (d : Draft) (texts : List String) : ValueOption → Prop
  | .assembly => texts = d.assemblies
  | .type => texts = d.types
  | .output => texts = d.output.toList ∧ d.output ≠ some ""
  | .root => texts = d.root.toList
  | .indent => texts.map Indent.ofText = d.indent.toList.map .ok

def isSet (d : Draft) : Flag → Bool
  | .noHeader => d.noHeader
  | .readonly => d.readonly
  | .staticMembers => d.staticMembers

/-- The draft is what the things say, whatever order they are said in: the manifest once, the seeds
of either kind in their order, and each other option and flag that is chosen once. -/
structure SaidBy (d : Draft) (items : List Item) : Prop where
  manifest : pathsOf items = d.manifest.toList
  manifest_ne : d.manifest ≠ some ""
  values : ∀ option, d.Records (valuesOf option items) option
  flags : ∀ flag, items.count (.flag flag) = (d.isSet flag).toNat

end Draft

/-- The draft of a command line that asks for the declarations. -/
def GenerateArgs.draft (args : GenerateArgs) : Draft where
  manifest := some args.manifest
  assemblies := args.seeds.assemblies
  types := args.seeds.types
  output := args.output
  root := args.root
  indent := args.indent
  noHeader := !args.header
  readonly := args.readonlyProperties
  staticMembers := args.staticMembers

/-- The draft of a command line that asks for the listing: it has seeds only. -/
def GraphArgs.draft (args : GraphArgs) : Draft where
  manifest := some args.manifest
  assemblies := args.seeds.assemblies
  types := args.seeds.types

theorem GenerateArgs.command_draft (args : GenerateArgs) :
    args.draft.command .generate = .ok (.generate args) := by
  obtain ⟨manifest, ⟨assemblies, types⟩, output, root, indent, header, readonly, static⟩ := args
  simp [draft, Draft.command]

theorem GraphArgs.command_draft (args : GraphArgs) :
    args.draft.command .graph = .ok (.graph args) := rfl

/-! ## What is said, part by part -/

section Parts

variable (xs ys : List Item) (option : ValueOption)

theorem pathsOf_append : pathsOf (xs ++ ys) = pathsOf xs ++ pathsOf ys := List.filterMap_append

theorem valuesOf_append :
    valuesOf option (xs ++ ys) = valuesOf option xs ++ valuesOf option ys :=
  List.filterMap_append

theorem valuesOf_value (text : String) :
    valuesOf option (.value option text :: ys) = text :: valuesOf option ys :=
  List.filterMap_cons_some (if_pos rfl)

theorem valuesOf_other {other : ValueOption} (h : other ≠ option) (text : String) :
    valuesOf option (.value other text :: ys) = valuesOf option ys :=
  List.filterMap_cons_none (if_neg h)

end Parts

theorem toList_inj {α : Type} {o o' : Option α} (h : o.toList = o'.toList) : o = o' := by
  cases o <;> cases o' <;> cases h <;> rfl

theorem toNat_inj {b b' : Bool} (h : b.toNat = b'.toNat) : b = b' := by
  cases b <;> cases b' <;> first | rfl | cases h

/-- Where there is room for one only, nothing comes before it. -/
theorem eq_nil_of_append_eq_toList {α : Type} {xs ys : List α} {x : α} {o : Option α}
    (h : xs ++ x :: ys = o.toList) : xs = [] ∧ o = some x := by
  cases o with
  | none => simp at h
  | some y =>
    cases xs with
    | nil =>
      cases h
      exact ⟨rfl, rfl⟩
    | cons z zs => simp at h

namespace Draft

variable {d d' D e : Draft} {items done more : List Item}

/-! ## Storing a value, setting a flag -/

/-- A value for which there is room is stored. -/
theorem Records.store {option : ValueOption} {texts rest : List String} {text : String}
    (hD : D.Records (texts ++ text :: rest) option) (h : d.Records texts option) :
    ∃ d', d.store option text = .ok d' ∧ d'.Records (texts ++ [text]) option := by
  cases option with
  | assembly => exact ⟨_, rfl, congrArg (· ++ [text]) h⟩
  | type => exact ⟨_, rfl, congrArg (· ++ [text]) h⟩
  | output =>
    obtain ⟨rfl, hnew⟩ := eq_nil_of_append_eq_toList hD.1
    have hnone : d.output = none := Option.toList_eq_nil_iff.mp h.1.symm
    have htext : text ≠ "" := fun he => hD.2 (he ▸ hnew)
    refine ⟨{ d with output := some text }, ?_, rfl, by simpa using htext⟩
    simp [Draft.store, hnone, htext]
  | root =>
    obtain ⟨rfl, -⟩ := eq_nil_of_append_eq_toList hD
    have hnone : d.root = none := Option.toList_eq_nil_iff.mp h.symm
    exact ⟨{ d with root := some text }, by simp [Draft.store, hnone], rfl⟩
  | indent =>
    rw [Records, List.map_append, List.map_cons, ← Option.toList_map] at hD
    obtain ⟨htexts, hnew⟩ := eq_nil_of_append_eq_toList hD
    obtain ⟨indent, -, hindent⟩ := Option.map_eq_some_iff.mp hnew
    obtain rfl : texts = [] := List.map_eq_nil_iff.mp htexts
    have hnone : d.indent = none := by
      rw [Records, ← Option.toList_map] at h
      exact Option.map_eq_none_iff.mp (Option.toList_eq_nil_iff.mp h.symm)
    refine ⟨{ d with indent := some indent }, ?_, ?_⟩
    · simp [Draft.store, hnone, ← hindent]
    · simp [Records, ← hindent]

/-- The other options keep their values. -/
theorem Records.of_store {option other : ValueOption} {text : String}
    (hs : d.store option text = .ok d') (ho : other ≠ option) {texts : List String}
    (h : d.Records texts other) : d'.Records texts other := by
  cases option <;> simp only [Draft.store] at hs <;> (repeat' split at hs) <;> cases hs <;>
    cases other <;> first | exact absurd rfl ho | exact h

theorem isSet_store {option : ValueOption} {text : String} (hs : d.store option text = .ok d')
    (flag : Flag) : d'.isSet flag = d.isSet flag := by
  cases option <;> simp only [Draft.store] at hs <;> (repeat' split at hs) <;> cases hs <;>
    cases flag <;> rfl

theorem exists_setFlag {flag : Flag} (h : d.isSet flag = false) :
    ∃ d', d.setFlag flag = .ok d' ∧ d'.isSet flag = true := by
  cases flag with
  | noHeader => exact ⟨_, if_neg (Bool.eq_false_iff.mp h), rfl⟩
  | readonly => exact ⟨_, if_neg (Bool.eq_false_iff.mp h), rfl⟩
  | staticMembers => exact ⟨_, if_neg (Bool.eq_false_iff.mp h), rfl⟩

/-- A flag changes nothing else. -/
theorem setFlag_frame {flag : Flag} (hs : d.setFlag flag = .ok d') :
    d'.manifest = d.manifest ∧ (∀ other, other ≠ flag → d'.isSet other = d.isSet other) ∧
      ∀ option texts, d.Records texts option → d'.Records texts option := by
  cases flag <;> simp only [setFlag] at hs <;> split at hs <;> cases hs
  all_goals
    refine ⟨rfl, fun other ho => ?_, fun option texts h => ?_⟩
    · cases other <;> first | exact absurd rfl ho | rfl
    · cases option <;> exact h

/-! ## One more thing -/

theorem SaidBy.start : SaidBy {} [] where
  manifest := rfl
  manifest_ne := nofun
  values option := by
    cases option with
    | output => exact ⟨rfl, nofun⟩
    | assembly | type | root | indent => rfl
  flags flag := by cases flag <;> rfl

theorem SaidBy.add_manifest {path : String} (hD : D.SaidBy (done ++ .manifest path :: more))
    (h : d.SaidBy done) :
    ∃ d', d.add (.manifest path) = .ok d' ∧ d'.SaidBy (done ++ [.manifest path]) := by
  have hpaths : pathsOf done ++ path :: pathsOf more = D.manifest.toList := by
    rw [← hD.manifest, pathsOf_append]
    rfl
  obtain ⟨hdone, hnew⟩ := eq_nil_of_append_eq_toList hpaths
  have hnone : d.manifest = none := Option.toList_eq_nil_iff.mp (h.manifest.symm.trans hdone)
  have hpath : path ≠ "" := fun he => hD.manifest_ne (he ▸ hnew)
  refine ⟨{ d with manifest := some path }, ?_, ?_, by simpa using hpath, fun option => ?_,
    fun flag => ?_⟩
  · simp [add, storeManifest, hnone, hpath]
  · rw [pathsOf_append, hdone]
    rfl
  · have hvalues : valuesOf option (done ++ [.manifest path]) = valuesOf option done := by
      rw [valuesOf_append]
      exact List.append_nil _
    have hold := h.values option
    rw [hvalues]
    cases option <;> exact hold
  · rw [List.count_append, h.flags flag]
    cases flag <;> rfl

theorem SaidBy.add_value {option : ValueOption} {text : String}
    (hD : D.SaidBy (done ++ .value option text :: more)) (h : d.SaidBy done) :
    ∃ d', d.add (.value option text) = .ok d' ∧ d'.SaidBy (done ++ [.value option text]) := by
  have hvalues := hD.values option
  rw [valuesOf_append, valuesOf_value] at hvalues
  obtain ⟨d', hstore, hrecords⟩ := hvalues.store (h.values option)
  refine ⟨d', hstore, ?_, ?_, fun other => ?_, fun flag => ?_⟩
  · rw [Progress.manifest_store hstore, ← h.manifest, pathsOf_append]
    exact List.append_nil _
  · rw [Progress.manifest_store hstore]
    exact h.manifest_ne
  · rw [valuesOf_append]
    by_cases ho : option = other
    · subst ho
      rw [valuesOf_value]
      exact hrecords
    · rw [valuesOf_other _ _ ho]
      have hold := (h.values other).of_store hstore (Ne.symm ho)
      rwa [← List.append_nil (valuesOf other done)] at hold
  · rw [isSet_store hstore, List.count_append, h.flags flag]
    rfl

theorem SaidBy.add_flag {flag : Flag} (hD : D.SaidBy (done ++ .flag flag :: more))
    (h : d.SaidBy done) :
    ∃ d', d.add (.flag flag) = .ok d' ∧ d'.SaidBy (done ++ [.flag flag]) := by
  have hcount := hD.flags flag
  have hold := h.flags flag
  rw [List.count_append, List.count_cons_self] at hcount
  have hmax := Bool.toNat_le (D.isSet flag)
  have hunset : d.isSet flag = false := Bool.toNat_eq_zero.mp (by omega)
  obtain ⟨d', hset, hflag⟩ := exists_setFlag hunset
  obtain ⟨hmanifest, hothers, hrecords⟩ := setFlag_frame hset
  refine ⟨d', hset, ?_, ?_, fun option => ?_, fun other => ?_⟩
  · rw [hmanifest, ← h.manifest, pathsOf_append]
    exact List.append_nil _
  · rw [hmanifest]
    exact h.manifest_ne
  · have hvalues := hrecords option _ (h.values option)
    rw [valuesOf_append]
    rwa [← List.append_nil (valuesOf option done)] at hvalues
  · rw [List.count_append, List.count_singleton, h.flags other]
    by_cases ho : other = flag
    · subst ho
      rw [hflag, hunset]
      simp
    · rw [hothers other ho, if_neg (by simpa using Ne.symm ho)]
      rfl

theorem SaidBy.add {item : Item} (hD : D.SaidBy (done ++ item :: more)) (h : d.SaidBy done) :
    ∃ d', d.add item = .ok d' ∧ d'.SaidBy (done ++ [item]) := by
  cases item with
  | manifest path => exact hD.add_manifest h
  | value option text => exact hD.add_value h
  | flag flag => exact hD.add_flag h

/-- There is one draft only that is said. -/
theorem SaidBy.unique (h : d.SaidBy items) (h' : e.SaidBy items) : d = e := by
  have hflag : ∀ flag, d.isSet flag = e.isSet flag := fun flag =>
    toNat_inj ((h.flags flag).symm.trans (h'.flags flag))
  obtain ⟨manifest, assemblies, types, output, root, indent, noHeader, readonly, static⟩ := d
  obtain ⟨manifest', assemblies', types', output', root', indent', noHeader', readonly',
    static'⟩ := e
  obtain rfl : manifest = manifest' := toList_inj (h.manifest.symm.trans h'.manifest)
  obtain rfl : assemblies = assemblies' := (h.values .assembly).symm.trans (h'.values .assembly)
  obtain rfl : types = types' := (h.values .type).symm.trans (h'.values .type)
  obtain rfl : output = output' :=
    toList_inj ((h.values .output).1.symm.trans (h'.values .output).1)
  obtain rfl : root = root' := toList_inj ((h.values .root).symm.trans (h'.values .root))
  obtain rfl : indent = indent' := by
    have hmap : indent.toList.map Except.ok = indent'.toList.map Except.ok :=
      (h.values .indent).symm.trans (h'.values .indent)
    exact toList_inj ((List.map_inj_right fun _ _ => Except.ok.inj).mp hmap)
  obtain rfl : noHeader = noHeader' := hflag .noHeader
  obtain rfl : readonly = readonly' := hflag .readonly
  obtain rfl : static = static' := hflag .staticMembers
  rfl

end Draft

/-! ## Whole command lines -/

variable {D : Draft} {command : CommandName} {items : List Item} {words : List String}

/-- The things can be said to the command: it has every option that is taken. -/
def Known (command : CommandName) (items : List Item) : Prop :=
  ∀ item ∈ items, ∀ option, item.option? = some option → option.belongsTo command = true

theorem known_generate (items : List Item) : Known .generate items := by
  intro item _ option ho
  cases item with
  | manifest => cases ho
  | value option => cases ho; cases option <;> rfl
  | flag flag => cases ho; rfl

theorem Item.exists_option {item : Item} (h : item.isEmission = true) :
    ∃ option, item.option? = some option := by
  cases item with
  | manifest => cases h
  | value option => exact ⟨_, rfl⟩
  | flag flag => exact ⟨_, rfl⟩

theorem belongsTo_graph {item : Item} {option : CommandOption} (ho : item.option? = some option) :
    option.belongsTo .graph = !item.isEmission := by
  cases item with
  | manifest => cases ho
  | value option => cases ho; cases option <;> rfl
  | flag flag => cases ho; rfl

/-- By induction on what is said: the words so far lead to what they say. -/
theorem Progress.Holds.said {p : Progress} {d : Draft} {done more : List Item} (h : p.Holds d)
    (hd : d.SaidBy done) (hw : Spells items words) (hD : D.SaidBy (done ++ (items ++ more)))
    (hknown : Known command items) :
    ∃ (p' : Progress) (d' : Draft), p'.Holds d' ∧ d'.SaidBy (done ++ items) ∧
      ∀ rest, p.run command (words ++ rest) = p'.run command rest := by
  induction hw generalizing p d done with
  | nil => exact ⟨p, d, h, by rwa [List.append_nil], fun _ => rfl⟩
  | @cons item items words rest head tail ih =>
    obtain ⟨d₁, hadd, hd₁⟩ := Draft.SaidBy.add hD hd
    obtain ⟨p₁, hp₁, hrun⟩ := h.add head (hknown item List.mem_cons_self) hadd
    have hD₁ : D.SaidBy (done ++ [item] ++ (items ++ more)) := by
      rwa [List.append_assoc]
    obtain ⟨p₂, d₂, hp₂, hd₂, hrest⟩ :=
      ih hp₁ hd₁ hD₁ fun i hi => hknown i (List.mem_cons_of_mem item hi)
    refine ⟨p₂, d₂, hp₂, by rwa [List.append_assoc] at hd₂, fun last => ?_⟩
    rw [List.append_assoc, hrun, hrest]

theorem commandOf_of_spells (hD : D.SaidBy items) (hw : Spells items words)
    (hknown : Known command items) : commandOf command words = D.command command := by
  have hall : D.SaidBy ([] ++ (items ++ [])) := by rwa [List.append_nil]
  obtain ⟨p, d, hp, hd, hrun⟩ := Progress.Holds.start.said .start hw hall hknown
  obtain rfl : d = D := hd.unique hD
  have hend := hrun []
  rw [List.append_nil, Progress.run, hp.settles] at hend
  simp only [commandOf, hend]

/-- The draft of a listing takes no option that says how declarations are written. -/
theorem GraphArgs.known_of_saidBy {args : GraphArgs} (h : args.draft.SaidBy items) :
    Known .graph items := by
  intro item hitem option ho
  rw [belongsTo_graph ho, Bool.not_eq_true', Bool.eq_false_iff]
  intro hemission
  cases item with
  | manifest => cases ho
  | flag flag =>
    have hpos : 0 < items.count (.flag flag) := List.count_pos_iff.mpr hitem
    have hunset : args.draft.isSet flag = false := by cases flag <;> rfl
    rw [h.flags flag, hunset] at hpos
    exact absurd hpos (Nat.lt_irrefl 0)
  | value option text =>
    have hmem : text ∈ valuesOf option items := List.mem_filterMap.mpr ⟨_, hitem, if_pos rfl⟩
    have hnone : valuesOf option items = [] := by
      have hvalues := h.values option
      cases option with
      | assembly | type => cases hemission
      | output => exact hvalues.1
      | root => exact hvalues
      | indent => exact List.map_eq_nil_iff.mp hvalues
    rw [hnone] at hmem
    cases hmem

/-- The first thing that says how declarations are written ends the run of a listing. -/
theorem commandOf_graph_of_emission (hD : D.SaidBy items) (hw : Spells items words)
    (hemission : ∃ item ∈ items, item.isEmission = true) :
    ∃ argument ∈ words, commandOf .graph words = .error (.unknownArgument argument) := by
  obtain ⟨item, hfind⟩ := Option.isSome_iff_exists.mp (List.find?_isSome.mpr hemission)
  obtain ⟨hitem, front, back, rfl, hfront⟩ := List.find?_eq_some_iff_append.mp hfind
  obtain ⟨first, _, rfl, hfirst, hrest⟩ := hw.split
  cases hrest with
  | @cons _ _ own last head tail =>
    have hknown : Known .graph front := fun i hi option ho =>
      (belongsTo_graph ho).trans (hfront i hi)
    obtain ⟨p, d, hp, -, hrun⟩ := Progress.Holds.start.said .start hfirst hD hknown
    obtain ⟨option, hoption⟩ := Item.exists_option hitem
    have hforeign : option.belongsTo .graph = false := by rw [belongsTo_graph hoption, hitem]; rfl
    obtain ⟨argument, hmem, hstop⟩ := hp.unknown head hoption hforeign last
    refine ⟨argument, List.mem_append_right first (List.mem_append_left last hmem), ?_⟩
    simp only [commandOf, hrun, hstop]

/-- A command line that says what the arguments of a command hold, in any order and spelling, is
read as that command with those arguments. One that asks for a listing and says something about how
declarations are written is refused at a word of its own. -/
theorem command_lines_read_back (program : String) :
    (∀ (args : GenerateArgs) (items : List Item) (words : List String),
      args.draft.SaidBy items → Spells items words →
        parse (program :: "generate" :: words) = .ok (.generate args)) ∧
    (∀ (args : GraphArgs) (items : List Item) (words : List String),
      args.draft.SaidBy items → Spells items words →
        parse (program :: "graph" :: words) = .ok (.graph args)) ∧
    (∀ (args : GenerateArgs) (items : List Item) (words : List String),
      args.draft.SaidBy items → Spells items words → (∃ item ∈ items, item.isEmission = true) →
        ∃ argument ∈ words,
          parse (program :: "graph" :: words) = .error (.unknownArgument argument)) := by
  refine ⟨fun args items words hsaid hwords => ?_, fun args items words hsaid hwords => ?_,
    fun args items words hsaid hwords hemission => ?_⟩
  · exact (commandOf_of_spells hsaid hwords (known_generate items)).trans args.command_draft
  · exact (commandOf_of_spells hsaid hwords (GraphArgs.known_of_saidBy hsaid)).trans
      args.command_draft
  · exact commandOf_graph_of_emission hsaid hwords hemission

/-- Seeds around the manifest, attached values, a short option and a flag. -/
def scattered : List Item :=
  [.value .type "N.B", .manifest "api.json", .value .indent "2", .value .type "N.A",
    .value .output "out.d.ts", .flag .noHeader]

def scatteredArgs : GenerateArgs where
  manifest := "api.json"
  seeds := { assemblies := [], types := ["N.B", "N.A"] }
  output := some "out.d.ts"
  root := none
  indent := some (.spaces 2)
  header := false
  readonlyProperties := false
  staticMembers := false

theorem scattered_read_back :
    parse ["dtsgen", "generate", "-tN.B", "api.json", "--indent=2", "--type", "N.A", "-o",
      "out.d.ts", "--no-header"] = .ok (.generate scatteredArgs) := by
  have hsaid : scatteredArgs.draft.SaidBy scattered := by
    refine ⟨rfl, by decide, fun option => ?_, fun flag => by cases flag <;> decide⟩
    cases option with
    | assembly | type | root | indent => rfl
    | output => exact ⟨rfl, by decide⟩
  have hwords : Spells scattered ["-tN.B", "api.json", "--indent=2", "--type", "N.A", "-o",
      "out.d.ts", "--no-header"] :=
    .cons (.shortAttached rfl ['.', 'B'] (by decide)) <|
      .cons (.manifest (by decide)) <|
      .cons (.longAttached .indent "2") <|
      .cons (.long .type (by decide)) <|
      .cons (.short rfl (by decide)) <|
      .cons (.flag .noHeader) .nil
  exact (command_lines_read_back "dtsgen").1 _ _ _ hsaid hwords

end Typings.CommandLine
