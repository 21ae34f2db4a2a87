import Typings.CommandLine.Arguments

/-! # The words of a command line

A command line says one thing after another: the manifest, an option with its value, a flag. Each
takes one word or two, in one of several spellings (`Spelled`). What the words have said up to some
point is a draft, though the last value may still be pending (`Progress.Holds`); the words of one
more thing lead on to the draft that it makes (`holds_add`). A word that spells what a command has
no option for ends the run at once.
-/
namespace Typings.CommandLine

/-- One thing that a command line says. -/
inductive Item where
  | manifest (path : String)
  | value (option : ValueOption) (text : String)
  | flag (flag : Flag)
  deriving DecidableEq

def ValueOption.longName : ValueOption → String
  | .assembly => "assembly"
  | .type => "type"
  | .output => "output"
  | .root => "root"
  | .indent => "indent"

def ValueOption.letter? : ValueOption → Option Char
  | .assembly => some 'a'
  | .type => some 't'
  | .output => some 'o'
  | .root | .indent => none

def Flag.longName : Flag → String
  | .noHeader => "no-header"
  | .readonly => "readonly"
  | .staticMembers => "static-members"

/-- The option that an item takes, if it takes one. -/
def Item.option? : Item → Option CommandOption
  | .manifest _ => none
  | .value option _ => some (.value option)
  | .flag name => some (.flag name)

/-- The item says how declarations are written, which is no concern of a listing. -/
def Item.isEmission (item : Item) : Bool :=
  match item with
  | .manifest _ | .value .assembly _ | .value .type _ => false
  | .value .output _ | .value .root _ | .value .indent _ | .flag .. => true

/-- A word that cannot be taken for an option. -/
def IsPlain (word : String) : Prop := word.toList.head? ≠ some '-'

instance (word : String) : Decidable (IsPlain word) :=
  inferInstanceAs (Decidable (word.toList.head? ≠ some '-'))

/-- The words that say one thing. An option is spelled in full or, when it has one, by its letter.
Its value is a word of its own, which does not start with a dash, or it is attached. -/
inductive Spelled : Item → List String → Prop
  | manifest {path : String} (plain : IsPlain path) : Spelled (.manifest path) [path]
  | long (option : ValueOption) {text : String} (plain : IsPlain text) :
      Spelled (.value option text) ["--" ++ option.longName, text]
  | longAttached (option : ValueOption) (text : String) :
      Spelled (.value option text) ["--" ++ option.longName ++ "=" ++ text]
  | short {option : ValueOption} {letter : Char} (has : option.letter? = some letter)
      {text : String} (plain : IsPlain text) :
      Spelled (.value option text) [String.ofList ['-', letter], text]
  | shortAttached {option : ValueOption} {letter : Char} (has : option.letter? = some letter)
      {c : Char} (cs : List Char) (mark : c ≠ '=') :
      Spelled (.value option (String.ofList (c :: cs))) [String.ofList ('-' :: letter :: c :: cs)]
  | shortEquals {option : ValueOption} {letter : Char} (has : option.letter? = some letter)
      (text : String) :
      Spelled (.value option text) [String.ofList ('-' :: letter :: '=' :: text.toList)]
  | flag (flag : Flag) : Spelled (.flag flag) ["--" ++ flag.longName]

/-- The words that say some things one after another. -/
inductive Spells : List Item → List String → Prop
  | nil : Spells [] []
  | cons {item items words rest} (head : Spelled item words) (tail : Spells items rest) :
      Spells (item :: items) (words ++ rest)

theorem Spells.split {front back : List Item} {words : List String}
    (h : Spells (front ++ back) words) :
    ∃ first rest, words = first ++ rest ∧ Spells front first ∧ Spells back rest := by
  induction front generalizing words with
  | nil => exact ⟨[], words, rfl, .nil, h⟩
  | cons item front ih =>
    cases h with
    | @cons _ _ ws rest head tail =>
      obtain ⟨first, last, rfl, hfront, hback⟩ := ih tail
      exact ⟨ws ++ first, last, (List.append_assoc ..).symm, .cons head hfront, hback⟩

/-! ## What a word is taken for -/

theorem token_plain {word : String} (h : IsPlain word) : Token.of word = .plain := by
  rw [IsPlain] at h
  rw [Token.of]
  cases hw : word.toList with
  | nil => rfl
  | cons c cs =>
    rw [hw] at h
    exact if_pos fun hc => h (congrArg some hc)

theorem token_letter {letter : Char} (h : letter ≠ '-') (rest : List Char) :
    Token.of (String.ofList ('-' :: letter :: rest)) = .short letter rest := by
  rw [Token.of, String.toList_ofList]
  exact if_pos h

theorem token_name {name : String} (hne : name.toList ≠ []) :
    Token.of ("--" ++ name) = .ofLong name.toList := by
  have hdashes : "--".toList = ['-', '-'] := rfl
  have hempty : ¬ name.toList.isEmpty = true := by rwa [List.isEmpty_iff]
  rw [Token.of, String.toList_append, hdashes]
  exact (if_neg (not_not_intro rfl)).trans ((if_neg (not_not_intro rfl)).trans (if_neg hempty))

theorem ofLong_name {name : List Char} (h : '=' ∉ name) :
    Token.ofLong name = .long (String.ofList name) none := by
  have hall : ∀ c ∈ name, decide (c ≠ '=') = true :=
    fun c hc => decide_eq_true fun he => h (he ▸ hc)
  have htake : (name ++ []).takeWhile (· ≠ '=') = name ++ [] := List.takeWhile_append_of_pos hall
  have hdrop : (name ++ []).dropWhile (· ≠ '=') = [] := List.dropWhile_append_of_pos hall
  rw [List.append_nil] at htake hdrop
  rw [Token.ofLong, htake, hdrop]

theorem ofLong_attached {name : List Char} (h : '=' ∉ name) (value : List Char) :
    Token.ofLong (name ++ '=' :: value) =
      .long (String.ofList name) (some (String.ofList value)) := by
  have hall : ∀ c ∈ name, decide (c ≠ '=') = true :=
    fun c hc => decide_eq_true fun he => h (he ▸ hc)
  rw [Token.ofLong, List.takeWhile_append_of_pos hall, List.dropWhile_append_of_pos hall,
    List.takeWhile_cons_of_neg (by decide), List.dropWhile_cons_of_neg (by decide),
    List.append_nil]

namespace ValueOption

variable (option : ValueOption) {letter : Char}

theorem name_ne_nil : option.longName.toList ≠ [] := by cases option <;> decide

theorem not_mem_name : '=' ∉ option.longName.toList := by cases option <;> decide

theorem token_long : Token.of ("--" ++ option.longName) = .long option.longName none := by
  rw [token_name option.name_ne_nil, ofLong_name option.not_mem_name, String.ofList_toList]

theorem token_attached (text : String) :
    Token.of ("--" ++ option.longName ++ "=" ++ text) = .long option.longName (some text) := by
  have htext : (option.longName ++ ("=" ++ text)).toList =
      option.longName.toList ++ '=' :: text.toList := by
    rw [String.toList_append, String.toList_append]
    rfl
  have hne : (option.longName ++ ("=" ++ text)).toList ≠ [] := by
    rw [htext]
    simp
  rw [String.append_assoc, String.append_assoc, token_name hne, htext,
    ofLong_attached option.not_mem_name, String.ofList_toList, String.ofList_toList]

theorem ofLong?_name (command : CommandName) :
    CommandOption.ofLong? command option.longName =
      (some (.value option)).filter (CommandOption.belongsTo command) := by
  cases option <;> rfl

variable {option}

theorem letter_ne (h : option.letter? = some letter) : letter ≠ '-' := by
  cases option <;> cases h <;> decide

theorem ofLetter?_letter (h : option.letter? = some letter) (command : CommandName) :
    CommandOption.ofLetter? command letter =
      (some (.value option)).filter (CommandOption.belongsTo command) := by
  cases option <;> cases h <;> rfl

end ValueOption

namespace Flag

variable (flag : Flag)

theorem token_long : Token.of ("--" ++ flag.longName) = .long flag.longName none := by
  have hne : flag.longName.toList ≠ [] := by cases flag <;> decide
  have hmark : '=' ∉ flag.longName.toList := by cases flag <;> decide
  rw [token_name hne, ofLong_name hmark, String.ofList_toList]

theorem ofLong?_name (command : CommandName) :
    CommandOption.ofLong? command flag.longName =
      (some (.flag flag)).filter (CommandOption.belongsTo command) := by
  cases flag <;> rfl

end Flag

/-- The first word of an option names it in full or by its letter. -/
theorem Spelled.first_word {item : Item} {words : List String} (h : Spelled item words)
    {option : CommandOption} (ho : item.option? = some option) (command : CommandName) :
    ∃ argument more, words = argument :: more ∧
      ((∃ name attached, Token.of argument = .long name attached ∧
          CommandOption.ofLong? command name =
            (some option).filter (CommandOption.belongsTo command)) ∨
        ∃ letter attached, Token.of argument = .short letter attached ∧
          CommandOption.ofLetter? command letter =
            (some option).filter (CommandOption.belongsTo command)) := by
  cases h with
  | manifest => cases ho
  | long option =>
    cases ho
    exact ⟨_, _, rfl, .inl ⟨_, _, option.token_long, option.ofLong?_name command⟩⟩
  | longAttached option text =>
    cases ho
    exact ⟨_, _, rfl, .inl ⟨_, _, option.token_attached text, option.ofLong?_name command⟩⟩
  | short has | shortAttached has | shortEquals has =>
    cases ho
    exact ⟨_, _, rfl, .inr ⟨_, _, token_letter (ValueOption.letter_ne has) _,
      ValueOption.ofLetter?_letter has command⟩⟩
  | flag flag =>
    cases ho
    exact ⟨_, _, rfl, .inl ⟨_, _, flag.token_long, flag.ofLong?_name command⟩⟩

/-! ## What has been said so far -/

/-- What one more thing makes of a draft. -/
def Draft.add (d : Draft) : Item → Except Stop Draft
  | .manifest path =>
    if d.manifest.isSome then .error (.unknownArgument path) else d.storeManifest path
  | .value option text => d.store option text
  | .flag flag => d.setFlag flag

namespace Progress

variable {p : Progress} {d d' : Draft} {command : CommandName}

/-- The words up to here have said what the draft holds: no value is awaited, and what is pending
goes into the draft. -/
structure Holds (p : Progress) (d : Draft) : Prop where
  not_ended : p.ended = false
  not_awaiting : ∀ option, p.pending ≠ .awaited option
  settles : p.settle = .ok d

theorem Holds.start : Holds {} {} := ⟨rfl, nofun, rfl⟩

theorem manifest_store {option : ValueOption} {text : String} (h : d.store option text = .ok d') :
    d'.manifest = d.manifest := by
  cases option <;> simp only [Draft.store] at h
  case assembly | type => cases h; rfl
  all_goals
    repeat' split at h
    all_goals cases h
    rfl

theorem Holds.hasManifest_eq (h : p.Holds d) : p.hasManifest = d.manifest.isSome := by
  obtain ⟨draft, pending, ended⟩ := p
  have hsettles := h.settles
  cases pending with
  | nothing =>
    cases hsettles
    exact Bool.or_false _
  | awaited option => exact absurd rfl (h.not_awaiting option)
  | value option text =>
    rw [manifest_store hsettles]
    exact Bool.or_false _
  | manifest path =>
    have hstored : d.manifest = some path := by
      simp only [settle, Draft.storeManifest] at hsettles
      split at hsettles <;> cases hsettles
      rfl
    rw [hstored]
    exact Bool.or_true _

theorem Holds.settling_eq (h : p.Holds d) (f : Draft → Except Stop Progress) :
    p.settling f = f d := by
  rw [settling, h.settles]

theorem Holds.rest (h : p.Holds d) (d' : Draft) :
    ({ p with draft := d', pending := .nothing } : Progress).Holds d' :=
  ⟨h.not_ended, nofun, rfl⟩

/-! ## One word -/

theorem run_cons {argument : String} {p' : Progress} (h : p.step command argument = .ok p')
    (rest : List String) : p.run command (argument :: rest) = p'.run command rest := by
  rw [run, h]

theorem run_cons_of_error {argument : String} {stop : Stop}
    (h : p.step command argument = .error stop) (rest : List String) :
    p.run command (argument :: rest) = .error stop := by
  rw [run, h]

section Steps

variable {argument name : String} {letter : Char} {rest : List Char} {attached : Option String}
  {option : ValueOption}

theorem Holds.step_long (h : p.Holds d) (ht : Token.of argument = .long name attached)
    (command : CommandName) :
    p.step command argument =
      p.takeOption argument (CommandOption.ofLong? command name) attached := by
  rw [step, h.not_ended, if_neg Bool.false_ne_true, ht]

theorem Holds.step_letter (h : p.Holds d) (ht : Token.of argument = .short letter rest)
    (hletter : CommandOption.ofLetter? command letter = some (.value option)) :
    p.step command argument = p.takeOption argument (some (.value option)) (attachedTo rest) := by
  rw [step, h.not_ended, if_neg Bool.false_ne_true, ht]
  dsimp only
  rw [hletter]

theorem Holds.step_unknown_letter (h : p.Holds d) (ht : Token.of argument = .short letter rest)
    (hletter : CommandOption.ofLetter? command letter = none) :
    p.step command argument = .error (.unknownArgument argument) := by
  rw [step, h.not_ended, if_neg Bool.false_ne_true, ht]
  dsimp only
  rw [hletter]
  rfl

theorem Holds.takeOption_attached (h : p.Holds d) {text : String}
    (hd : d.store option text = .ok d') :
    p.takeOption argument (some (.value option)) (some text) =
      .ok { p with draft := d', pending := .nothing } := by
  rw [takeOption, h.settling_eq]
  dsimp only
  rw [hd]
  rfl

theorem Holds.takeOption_awaiting (h : p.Holds d) :
    p.takeOption argument (some (.value option)) none =
      .ok { p with draft := d, pending := .awaited option } := by
  rw [takeOption, h.settling_eq]

theorem Holds.takeOption_flag (h : p.Holds d) {flag : Flag} (hd : d.setFlag flag = .ok d') :
    p.takeOption argument (some (.flag flag)) none =
      .ok { p with draft := d', pending := .nothing } := by
  rw [takeOption, if_neg (by decide), h.settling_eq, hd]
  rfl

/-- A value that is a word of its own stays pending. -/
theorem Holds.step_value (h : p.Holds d) (hplain : IsPlain argument) :
    step command { p with draft := d, pending := .awaited option } argument =
      .ok { p with draft := d, pending := .value option argument } := by
  rw [step, if_neg (Bool.eq_false_iff.mp h.not_ended), token_plain hplain]

theorem Holds.step_manifest (h : p.Holds d) (hplain : IsPlain argument)
    (hnone : d.manifest.isSome = false) :
    p.step command argument = .ok { p with draft := d, pending := .manifest argument } := by
  have hpath : p.step command argument = p.takePath argument := by
    rw [step, h.not_ended, if_neg Bool.false_ne_true, token_plain hplain]
    dsimp only
    cases hp : p.pending with
    | awaited option => exact absurd hp (h.not_awaiting option)
    | nothing | value | manifest => rfl
  rw [hpath, takePath, h.hasManifest_eq, hnone, if_neg Bool.false_ne_true, h.settling_eq]

end Steps

/-! ## One thing -/

/-- The words of one more thing lead on to the draft that it makes. -/
theorem Holds.add (h : p.Holds d) {item : Item} {words : List String} (hw : Spelled item words)
    (hknown : ∀ option, item.option? = some option → option.belongsTo command = true)
    (hd : d.add item = .ok d') :
    ∃ p' : Progress, p'.Holds d' ∧ ∀ rest, p.run command (words ++ rest) = p'.run command rest := by
  have hsome : ∀ option, item.option? = some option →
      (some option).filter (CommandOption.belongsTo command) = some option :=
    fun option ho => Option.filter_eq_some_iff.mpr ⟨rfl, hknown option ho⟩
  cases hw with
  | @manifest path plain =>
    rw [Draft.add] at hd
    split at hd
    · cases hd
    · next hnone =>
      rw [Bool.not_eq_true] at hnone
      exact ⟨{ p with draft := d, pending := .manifest path }, ⟨h.not_ended, nofun, hd⟩,
        run_cons (h.step_manifest plain hnone)⟩
  | @long option text plain =>
    have hname := h.step_long option.token_long command
    rw [option.ofLong?_name, hsome _ rfl, h.takeOption_awaiting] at hname
    exact ⟨{ p with draft := d, pending := .value option text }, ⟨h.not_ended, nofun, hd⟩,
      fun rest => (run_cons hname _).trans (run_cons (h.step_value plain) rest)⟩
  | @longAttached option text =>
    have hname := h.step_long (option.token_attached text) command
    rw [option.ofLong?_name, hsome _ rfl, h.takeOption_attached hd] at hname
    exact ⟨_, h.rest d', run_cons hname⟩
  | @short option letter has text plain =>
    have hletter := (ValueOption.ofLetter?_letter has command).trans (hsome _ rfl)
    have hname := h.step_letter (token_letter (ValueOption.letter_ne has) []) hletter
    rw [attachedTo, h.takeOption_awaiting] at hname
    exact ⟨{ p with draft := d, pending := .value option text }, ⟨h.not_ended, nofun, hd⟩,
      fun rest => (run_cons hname _).trans (run_cons (h.step_value plain) rest)⟩
  | @shortAttached option letter has c cs mark =>
    have hletter := (ValueOption.ofLetter?_letter has command).trans (hsome _ rfl)
    have hname := h.step_letter (token_letter (ValueOption.letter_ne has) (c :: cs)) hletter
    rw [attachedTo, if_neg mark, h.takeOption_attached hd] at hname
    exact ⟨_, h.rest d', run_cons hname⟩
  | @shortEquals option letter has text =>
    have hletter := (ValueOption.ofLetter?_letter has command).trans (hsome _ rfl)
    have hname := h.step_letter (token_letter (ValueOption.letter_ne has) ('=' :: text.toList))
      hletter
    rw [attachedTo, if_pos rfl, String.ofList_toList, h.takeOption_attached hd] at hname
    exact ⟨_, h.rest d', run_cons hname⟩
  | flag flag =>
    have hname := h.step_long flag.token_long command
    rw [flag.ofLong?_name, hsome _ rfl, h.takeOption_flag hd] at hname
    exact ⟨_, h.rest d', run_cons hname⟩

/-- The first word of an option that the command does not have ends the run, whatever is pending. -/
theorem Holds.unknown (h : p.Holds d) {item : Item} {words : List String} (hw : Spelled item words)
    {option : CommandOption} (hoption : item.option? = some option)
    (hunknown : option.belongsTo command = false) (rest : List String) :
    ∃ argument ∈ words,
      p.run command (words ++ rest) = .error (.unknownArgument argument) := by
  have hnone : (some option).filter (CommandOption.belongsTo command) = none :=
    Option.filter_eq_none_iff.mpr fun _ he => by cases he; rw [hunknown]; decide
  obtain ⟨argument, more, rfl, hfirst⟩ := hw.first_word hoption command
  refine ⟨argument, List.mem_cons_self, run_cons_of_error ?_ _⟩
  rcases hfirst with ⟨name, attached, ht, hname⟩ | ⟨letter, attached, ht, hletter⟩
  · rw [h.step_long ht command, hname, hnone]
    rfl
  · exact h.step_unknown_letter ht (hletter.trans hnone)

end Progress

end Typings.CommandLine
