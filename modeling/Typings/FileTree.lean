/-!
Reading and writing text files by path. A `FileTree` holds the directories, files and devices that
can be reached, and stands in for the file system where a run is to be a function of its input. A
path is followed name by name: all names but the last have to lead to directories, and only then is
the last one looked at, so the first name that leads nowhere decides what is wrong with a path.
-/

namespace Typings

inductive FileFailure where
  | notFound
  | isDirectory
  | notDirectory
  /-- A name in the path, or the whole path, has too many bytes. -/
  | nameTooLong
  | noSpace
  /-- The file is not text in UTF-8. -/
  | notText
  /-- The path holds the character that ends the paths of the system. -/
  | nulInPath
  | other (text : String)
  deriving DecidableEq, Repr

def FileFailure.message : FileFailure → String
  | .notFound => "No such file or directory (os error 2)"
  | .notDirectory => "Not a directory (os error 20)"
  | .isDirectory => "Is a directory (os error 21)"
  | .noSpace => "No space left on device (os error 28)"
  | .nameTooLong => "File name too long (os error 36)"
  | .notText => "stream did not contain valid UTF-8"
  | .nulInPath => "file name contained an unexpected NUL byte"
  | .other text => text

/-! ## Paths -/

/-- The most bytes that a name in a path may have. -/
def maxNameBytes : Nat := 255

/-- The most bytes that a path may have. -/
def maxPathBytes : Nat := 4095

structure FilePath where
  /-- The path starts at the root of the tree and not in the working directory. -/
  absolute : Bool
  names : List String
  /-- A slash behind the last name asks for a directory. -/
  slashed : Bool
  deriving DecidableEq, Repr

namespace FilePath

/-- The path that a text spells; any number of slashes separates two names. -/
def ofText (text : String) : FilePath where
  absolute := text.toList.head? = some '/'
  names := ((text.toList.splitOn '/').filter fun name => !name.isEmpty).map String.ofList
  slashed := text.toList.getLast? = some '/'

example : ofText "/a//../b/" = ⟨true, ["a", "..", "b"], true⟩ ∧ ofText "//" = ⟨true, [], true⟩ ∧
    ofText "a/." = ⟨false, ["a", "."], false⟩ := by decide +kernel

end FilePath

/-! ## Trees -/

/-- A file that is no store of bytes. All of them read as empty. -/
inductive Device where
  /-- Takes any text and keeps nothing. -/
  | sink
  | output
  /-- Takes nothing. -/
  | full
  deriving DecidableEq, Repr

inductive Entry where
  | directory
  | file (bytes : ByteArray)
  | device (d : Device)

/-- Places by the names that lead to them from the root, the root itself apart. -/
structure FileTree where
  entries : List (List String × Entry)
  /-- The place where paths start that are not absolute. -/
  working : List String
  printed : String

namespace FileTree

def entry? (t : FileTree) (place : List String) : Option Entry :=
  if place.isEmpty then some .directory else t.entries.lookup place

/-- The place that a name stands for in a directory, whether there is anything or not. -/
def child (place : List String) (name : String) : Except FileFailure (List String) :=
  if name = "." then .ok place
  else if name = ".." then .ok place.dropLast
  else if maxNameBytes < name.utf8ByteSize then .error .nameTooLong
  else .ok (place ++ [name])

def descend (t : FileTree) (place : List String) : List String → Except FileFailure (List String)
  | [] => .ok place
  | name :: names =>
    match child place name with
    | .error failure => .error failure
    | .ok place =>
      match t.entry? place with
      | some .directory => t.descend place names
      | some _ => .error .notDirectory
      | none => .error .notFound

/-- The directory that the last name of a path is looked up in. -/
def enclosing (t : FileTree) (path : FilePath) : Except FileFailure (List String) :=
  t.descend (if path.absolute then [] else t.working) path.names.dropLast

/-- The place of the last name of a path in the directory around it. -/
def placeIn (directory : List String) (path : FilePath) : Except FileFailure (List String) :=
  match path.names.getLast? with
  | none => .ok directory
  | some name => child directory name

/-- The place that a path leads to. The last name need not lead to anything. -/
def follow (t : FileTree) (path : FilePath) : Except FileFailure (List String) :=
  match t.enclosing path with
  | .error failure => .error failure
  | .ok directory => placeIn directory path

def pathOf (text : String) : Except FileFailure FilePath :=
  if '\x00' ∈ text.toList then .error .nulInPath
  else if text.isEmpty then .error .notFound
  else if maxPathBytes < text.utf8ByteSize then .error .nameTooLong
  else .ok (.ofText text)

def read (t : FileTree) (path : String) : Except FileFailure String :=
  match pathOf path with
  | .error failure => .error failure
  | .ok path =>
    match t.follow path with
    | .error failure => .error failure
    | .ok place =>
      match t.entry? place with
      | none => .error .notFound
      | some .directory => .error .isDirectory
      | some (.device _) => if path.slashed then .error .notDirectory else .ok ""
      | some (.file bytes) =>
        if path.slashed then .error .notDirectory
        else
          match String.fromUTF8? bytes with
          | some text => .ok text
          | none => .error .notText

def print (t : FileTree) (text : String) : FileTree := { t with printed := t.printed ++ text }

/-- The tree with a file at a place, in the stead of any other there. -/
def put (t : FileTree) (place : List String) (bytes : ByteArray) : FileTree :=
  { t with entries := (place, .file bytes) :: t.entries.filter fun entry => entry.1 ≠ place }

def store (t : FileTree) (place : List String) (text : String) : Except FileFailure FileTree :=
  match t.entry? place with
  | some .directory => .error .isDirectory
  | some (.device .sink) => .ok t
  | some (.device .output) => .ok (t.print text)
  | some (.device .full) => .error .noSpace
  | some (.file _) | none => .ok (t.put place text.toUTF8)

/-- The tree after a text is written to a path. No file is made behind a slash, whatever the name in
front of it leads to. -/
def write (t : FileTree) (path : String) (text : String) : Except FileFailure FileTree :=
  match pathOf path with
  | .error failure => .error failure
  | .ok path =>
    match t.enclosing path with
    | .error failure => .error failure
    | .ok directory =>
      if path.slashed then .error .isDirectory
      else
        match placeIn directory path with
        | .error failure => .error failure
        | .ok place => t.store place text

/-! ## The tree around a working directory -/

def rootDirectories : List String :=
  ["bin", "boot", "dev", "etc", "home", "lib", "lib64", "media", "mnt", "opt", "proc", "root",
    "run", "sbin", "srv", "sys", "tmp", "usr", "var"]

def devices : List (String × Device) :=
  [("null", .sink), ("stdin", .sink), ("stdout", .output), ("stderr", .sink), ("full", .full)]

/-- The proper beginnings of a list of names, the empty one apart. -/
def parents (names : List String) : List (List String) :=
  ((List.range names.length).drop 1).map names.take

def workplace : List String := ["tmp", "work"]

/-- The tree whose working directory holds the given files, by the names that lead to them. -/
def holding (files : List (List String × ByteArray)) : FileTree where
  entries :=
    files.map (fun file => (workplace ++ file.1, .file file.2)) ++
      files.flatMap (fun file =>
        (parents file.1).map fun names => (workplace ++ names, .directory)) ++
      (workplace, .directory) :: rootDirectories.map (fun name => ([name], .directory)) ++
      devices.map (fun device => (["dev", device.1], .device device.2))
  working := workplace
  printed := ""

/-- The files below the working directory, by the names that lead to them from there. -/
def files (t : FileTree) : List (List String × ByteArray) :=
  t.entries.filterMap fun entry =>
    match entry.2 with
    | .file bytes =>
      if t.working.isPrefixOf entry.1 then some (entry.1.drop t.working.length, bytes) else none
    | _ => none

end FileTree

end Typings
