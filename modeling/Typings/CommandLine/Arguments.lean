import Typings.CommandLine.IndentText
import Typings.Seeding

/-!
The arguments of the two commands. Options may stand before and after the manifest, a value may be
attached to its option or follow it, and `--` ends the options. A value that follows is taken up
when the next argument or the end of the line settles it, so a fault of an earlier argument may be
reported before or after one of a later argument, as told at each step.
-/

namespace Typings.CommandLine

/-- Why a command line runs no command. -/
inductive Stop where
  | help
  | noArguments
  | unknownCommand (word : String)
  | unknownArgument (argument : String)
  | missingManifest
  /-- An option without a value, or an empty path. -/
  | emptyValue
  | invalidIndent (error : Indent.Invalid)
  /-- A flag with a value attached. -/
  | valueForFlag
  /-- An option that can be given once only. -/
  | repeated
  deriving DecidableEq, Repr

/-- Asking for help is no failure. -/
def Stop.exitCode : Stop → Nat
  | .help => 0
  | _ => 2

structure GenerateArgs where
  manifest : String
  seeds : SeedChoice
  output : Option String
  root : Option String
  indent : Option Indent
  header : Bool
  readonlyProperties : Bool
  staticMembers : Bool
  deriving DecidableEq, Repr

structure GraphArgs where
  manifest : String
  seeds : SeedChoice
  deriving DecidableEq, Repr

inductive Command where
  | generate (args : GenerateArgs)
  | graph (args : GraphArgs)
  deriving DecidableEq, Repr

/-- The chosen configuration; what is not chosen keeps its default. -/
def GenerateArgs.config (args : GenerateArgs) : Config :=
  let defaults : Config := {}
  { root := args.root.getD defaults.root
    header := args.header
    indent := args.indent.getD defaults.indent
    readonlyProperties := args.readonlyProperties
    staticMembers := args.staticMembers }

/-! ## Options -/

inductive CommandName where
  | generate
  | graph
  deriving DecidableEq, Repr

inductive ValueOption where
  | assembly
  | type
  | output
  | root
  | indent
  deriving DecidableEq, Repr

inductive Flag where
  | noHeader
  | readonly
  | staticMembers
  deriving DecidableEq, Repr

inductive CommandOption where
  | value (option : ValueOption)
  | flag (option : Flag)
  | help
  deriving DecidableEq, Repr

namespace CommandOption

def longNames : List (String × CommandOption) :=
  [("assembly", .value .assembly), ("type", .value .type), ("output", .value .output),
    ("root", .value .root), ("indent", .value .indent), ("no-header", .flag .noHeader),
    ("readonly", .flag .readonly), ("static-members", .flag .staticMembers), ("help", .help)]

def letters : List (Char × CommandOption) :=
  [('a', .value .assembly), ('t', .value .type), ('o', .value .output), ('h', .help)]

/-- A command has the option: the ones that select seeds belong to both. -/
def belongsTo (command : CommandName) : CommandOption → Bool
  | .value .assembly | .value .type | .help => true
  | _ => command = .generate

def ofLong? (command : CommandName) (name : String) : Option CommandOption :=
  (longNames.lookup name).filter (belongsTo command)

def ofLetter? (command : CommandName) (letter : Char) : Option CommandOption :=
  (letters.lookup letter).filter (belongsTo command)

end CommandOption

/-! ## Arguments one by one -/

inductive Token where
  | long (name : String) (attached : Option String)
  | short (letter : Char) (rest : List Char)
  /-- The mark behind which no option stands. -/
  | endOfOptions
  | plain
  deriving DecidableEq, Repr

/-- A long option's name, and the value attached by an equals sign. -/
def Token.ofLong (cs : List Char) : Token :=
  let name := String.ofList (cs.takeWhile (· ≠ '='))
  match cs.dropWhile (· ≠ '=') with
  | [] => .long name none
  | _ :: value => .long name (some (String.ofList value))

/-- The shape of an argument; a single dash is a plain one. -/
def Token.of (argument : String) : Token :=
  match argument.toList with
  | [] => .plain
  | c :: cs =>
    if c ≠ '-' then .plain
    else
      match cs with
      | [] => .plain
      | d :: ds => if d ≠ '-' then .short d ds else if ds.isEmpty then .endOfOptions else .ofLong ds

structure Draft where
  manifest : Option String := none
  assemblies : List String := []
  types : List String := []
  output : Option String := none
  root : Option String := none
  indent : Option Indent := none
  noHeader : Bool := false
  readonly : Bool := false
  staticMembers : Bool := false
  deriving DecidableEq, Repr

namespace Draft

def storeManifest (d : Draft) (path : String) : Except Stop Draft :=
  if path.isEmpty then .error .emptyValue else .ok { d with manifest := some path }

/-- Stores the value of an option. Seeds add up; any other option can be given once. -/
def store (d : Draft) (option : ValueOption) (value : String) : Except Stop Draft :=
  match option with
  | .assembly => .ok { d with assemblies := d.assemblies ++ [value] }
  | .type => .ok { d with types := d.types ++ [value] }
  | .output =>
    if d.output.isSome then .error .repeated
    else if value.isEmpty then .error .emptyValue
    else .ok { d with output := some value }
  | .root => if d.root.isSome then .error .repeated else .ok { d with root := some value }
  | .indent =>
    if d.indent.isSome then .error .repeated
    else
      match Indent.ofText value with
      | .ok indent => .ok { d with indent := some indent }
      | .error e => .error (.invalidIndent e)

/-- Sets a flag, which can be given once. -/
def setFlag (d : Draft) (flag : Flag) : Except Stop Draft :=
  match flag with
  | .noHeader => if d.noHeader then .error .repeated else .ok { d with noHeader := true }
  | .readonly => if d.readonly then .error .repeated else .ok { d with readonly := true }
  | .staticMembers =>
    if d.staticMembers then .error .repeated else .ok { d with staticMembers := true }

end Draft

/-- What the last argument left to be settled. -/
inductive Pending where
  | nothing
  /-- An option whose value is to follow. -/
  | awaited (option : ValueOption)
  | value (option : ValueOption) (text : String)
  | manifest (path : String)
  deriving DecidableEq, Repr

structure Progress where
  draft : Draft := {}
  pending : Pending := .nothing
  ended : Bool := false
  deriving DecidableEq, Repr

namespace Progress

def hasManifest (p : Progress) : Bool :=
  p.draft.manifest.isSome || match p.pending with | .manifest _ => true | _ => false

def settle (p : Progress) : Except Stop Draft :=
  match p.pending with
  | .nothing => .ok p.draft
  | .awaited _ => .error .emptyValue
  | .value option text => p.draft.store option text
  | .manifest path => p.draft.storeManifest path

/-- Settles what is pending and goes on with the draft. -/
def settling (p : Progress) (f : Draft → Except Stop Progress) : Except Stop Progress :=
  match p.settle with
  | .ok draft => f draft
  | .error stop => .error stop

def advance (p : Progress) (draft : Except Stop Draft) : Except Stop Progress :=
  match draft with
  | .ok draft => .ok { p with draft, pending := .nothing }
  | .error stop => .error stop

/-- Takes up a path. A second one is refused before anything pending is settled. -/
def takePath (p : Progress) (argument : String) : Except Stop Progress :=
  if p.hasManifest then .error (.unknownArgument argument)
  else p.settling fun draft => .ok { p with draft, pending := .manifest argument }

/-- Takes up an option, which settles what is pending, unless the option is unknown or a flag has a
value attached. -/
def takeOption (p : Progress) (argument : String) (option : Option CommandOption)
    (attached : Option String) : Except Stop Progress :=
  match option with
  | none => .error (.unknownArgument argument)
  | some (.value option) =>
    p.settling fun draft =>
      match attached with
      | some value => p.advance (draft.store option value)
      | none => .ok { p with draft, pending := .awaited option }
  | some (.flag flag) =>
    if attached.isSome then .error .valueForFlag
    else p.settling fun draft => p.advance (draft.setFlag flag)
  | some .help => if attached.isSome then .error .valueForFlag else p.settling fun _ => .error .help

/-- The value attached to a letter, whose equals sign may be left out. -/
def attachedTo (rest : List Char) : Option String :=
  match rest with
  | [] => none
  | c :: cs => some (String.ofList (if c = '=' then cs else c :: cs))

def step (command : CommandName) (p : Progress) (argument : String) : Except Stop Progress :=
  if p.ended then p.takePath argument
  else
    match Token.of argument with
    | .endOfOptions => .ok { p with ended := true }
    | .long name attached => p.takeOption argument (CommandOption.ofLong? command name) attached
    | .short letter rest =>
      match CommandOption.ofLetter? command letter with
      | some (.value option) => p.takeOption argument (some (.value option)) (attachedTo rest)
      | option => p.takeOption argument option none
    | .plain =>
      match p.pending with
      | .awaited option => .ok { p with pending := .value option argument }
      | _ => p.takePath argument

def run (command : CommandName) (p : Progress) : List String → Except Stop Draft
  | [] => p.settle
  | argument :: rest =>
    match p.step command argument with
    | .ok p => p.run command rest
    | .error stop => .error stop

end Progress

namespace Draft

/-- The command that a draft amounts to, once it has a manifest. -/
def command (d : Draft) (name : CommandName) : Except Stop Command :=
  match d.manifest with
  | none => .error .missingManifest
  | some manifest =>
    let seeds : SeedChoice := { assemblies := d.assemblies, types := d.types }
    match name with
    | .generate =>
      .ok (.generate
        { manifest, seeds, output := d.output, root := d.root, indent := d.indent,
          header := !d.noHeader, readonlyProperties := d.readonly,
          staticMembers := d.staticMembers })
    | .graph => .ok (.graph { manifest, seeds })

end Draft

def commandOf (name : CommandName) (arguments : List String) : Except Stop Command :=
  match Progress.run name {} arguments with
  | .ok draft => draft.command name
  | .error stop => .error stop

/-! ## The whole line -/

/-- The words that stand in the place of a command. -/
inductive CommandWord where
  | command (name : CommandName)
  | help
  deriving DecidableEq, Repr

namespace CommandWord

def all : List (String × CommandWord) :=
  [("generate", .command .generate), ("graph", .command .graph), ("help", .help)]

def of? (word : String) : Option CommandWord := all.lookup word

end CommandWord

/-- What `help` followed by words comes to: it knows the commands and nothing below them. -/
def helpOn (words : List String) : Stop :=
  match words with
  | [] => .help
  | word :: rest =>
    match CommandWord.of? word with
    | none => .unknownCommand word
    | some _ => match rest with | [] => .help | word :: _ => .unknownCommand word

/-- The command of a line without the program's name, and the options in front of it; `ended` tells
that the options have ended, behind which no command stands either. -/
def ofWords (ended : Bool) : List String → Except Stop Command
  | [] => .error .noArguments
  | argument :: rest =>
    if ended then
      .error (if (CommandWord.of? argument).isSome then .unknownArgument argument
        else .unknownCommand argument)
    else
      match CommandWord.of? argument with
      | some (.command name) => commandOf name rest
      | some .help => .error (helpOn rest)
      | none =>
        match Token.of argument with
        | .endOfOptions => ofWords true rest
        | .long name attached =>
          .error (if name ≠ "help" then .unknownArgument argument
            else if attached.isSome then .valueForFlag else .help)
        | .short letter _ => .error (if letter = 'h' then .help else .unknownArgument argument)
        | .plain => .error (.unknownCommand argument)

/-- The command that a whole line asks for; its first word is the program's name. -/
def parse (argv : List String) : Except Stop Command := ofWords false (argv.drop 1)

end Typings.CommandLine
