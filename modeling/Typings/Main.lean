import Typings.CommandLine.Run

/-!
The program: arguments in, declarations or a listing out. Everything but the reading and writing of
files and streams is decided in `Typings.CommandLine`.
-/

namespace Typings.CommandLine

def fileFailure (e : IO.Error) : FileFailure :=
  match e with
  | .noFileOrDirectory .. => .notFound
  | .inappropriateType _ 20 _ => .notDirectory
  | .inappropriateType _ 21 _ => .isDirectory
  | .resourceExhausted _ 28 _ => .noSpace
  | .invalidArgument _ 36 _ => .nameTooLong
  | e => .other (toString e)

def readFile (path : String) : IO (Except FileFailure String) := do
  match ← (IO.FS.readBinFile path).toBaseIO with
  | .error e => return .error (fileFailure e)
  | .ok bytes =>
    match String.fromUTF8? bytes with
    | some text => return .ok text
    | none => return .error .notText

def deliver (product : Product) : IO (Except Failure Unit) := do
  match product.path with
  | none =>
    IO.print product.text
    return .ok ()
  | some path =>
    match ← (IO.FS.writeFile path product.text).toBaseIO with
    | .ok () => return .ok ()
    | .error e => return .error (.unwritable path (fileFailure e))

def perform (c : Command) : IO UInt32 := do
  let result ←
    match c.produce (← readFile c.manifest) with
    | .ok product => deliver product
    | .error failure => pure (.error failure)
  match result with
  | .ok () => return 0
  | .error failure =>
    IO.eprintln failure.line
    return 1

def usage : String :=
  "Usage: dtsgen generate <METADATA> [-a <NAME>]... [-t <FULLNAME>]... [-o <FILE>]\n" ++
  "           [--root <NAME>] [--indent <N|tab>] [--no-header] [--readonly] [--static-members]\n" ++
  "       dtsgen graph <METADATA> [-a <NAME>]... [-t <FULLNAME>]..."

def Stop.message : Stop → String
  | .help => usage
  | .noArguments => usage
  | .unknownCommand word => "unrecognized subcommand '" ++ word ++ "'"
  | .unknownArgument argument => "unexpected argument '" ++ argument ++ "' found"
  | .missingManifest => "the following required arguments were not provided: <METADATA>"
  | .emptyValue => "a value is required but none was supplied"
  | .invalidIndent e => "invalid value for '--indent <N|tab>': " ++ e.message
  | .valueForFlag => "unexpected value for a flag"
  | .repeated => "an option cannot be used multiple times"

end Typings.CommandLine

open Typings.CommandLine in
def main (args : List String) : IO UInt32 := do
  match parse ("dtsgen" :: args) with
  | .ok command => perform command
  | .error stop =>
    match stop with
    | .help => IO.println stop.message
    | _ => IO.eprintln stop.message
    return UInt32.ofNat stop.exitCode
