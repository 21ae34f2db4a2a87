import Typings.CommandLine.Arguments
import Typings.Declaration.Layout
import Typings.FileTree
import Typings.Listing
import Typings.Manifest

/-!
Running a command: the manifest is read, the graph is seeded, and the result goes to standard output
or to a file. The first failure ends the run, before anything is written.
-/

namespace Typings.CommandLine

inductive Failure where
  | unreadable (path : String) (failure : FileFailure)
  | invalidManifest (fault : Json.Fault)
  | unknownSeed (seed : UnknownSeed)
  | unwritable (path : String) (failure : FileFailure)

def Failure.message : Failure → String
  | .unreadable path failure => "failed to read " ++ path ++ ": " ++ failure.message
  | .invalidManifest fault => Manifest.faultMessage fault
  | .unknownSeed seed => seed.message
  | .unwritable path failure => "failed to write " ++ path ++ ": " ++ failure.message

/-- A text and the file it goes to, or standard output. -/
structure Product where
  text : String
  path : Option String
  deriving DecidableEq, Repr

namespace Command

def manifest : Command → String
  | .generate args => args.manifest
  | .graph args => args.manifest

def seeds : Command → SeedChoice
  | .generate args => args.seeds
  | .graph args => args.seeds

def ofGraph (g : TypeGraph) : Command → Product
  | .generate args => ⟨g.emit args.config, args.output⟩
  | .graph _ => ⟨g.listing, none⟩

def produce (c : Command) (file : Except FileFailure String) : Except Failure Product :=
  match file with
  | .error failure => .error (.unreadable c.manifest failure)
  | .ok text =>
    match Manifest.ofJson text with
    | .error fault => .error (.invalidManifest fault)
    | .ok assemblies =>
      match c.seeds.apply (MetadataSet.ofAssemblies assemblies) .empty with
      | (_, some unknown) => .error (.unknownSeed unknown)
      | (g, none) => .ok (c.ofGraph g)

end Command

/-- How a run ends: in a failure or not, and with what files and standard output. -/
structure Report where
  failure : Option Failure
  files : FileTree

def writeFile (files : FileTree) (path text : String) : Except Failure FileTree :=
  match files.write path text with
  | .ok files => .ok files
  | .error failure => .error (.unwritable path failure)

def Product.deliver (product : Product) (files : FileTree) : Except Failure FileTree :=
  match product.path with
  | none => .ok (files.print product.text)
  | some path => writeFile files path product.text

def runIn (files : FileTree) (c : Command) : Report :=
  match c.produce (files.read c.manifest) with
  | .error failure => ⟨some failure, files⟩
  | .ok product =>
    match product.deliver files with
    | .ok files => ⟨none, files⟩
    | .error failure => ⟨some failure, files⟩

def Failure.line (failure : Failure) : String := "error: " ++ failure.message

end Typings.CommandLine
