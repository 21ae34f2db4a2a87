/-!
What can be chosen about a declaration file.
-/

namespace Typings

inductive Indent where
  | spaces (width : Nat)
  | tab
  deriving DecidableEq, Repr

def Indent.unit : Indent → String
  | .spaces width => String.ofList (List.replicate width ' ')
  | .tab => "\t"

structure Config where
  /-- The name of the namespace around all declarations. -/
  root : String := "dotnet"
  /-- The banner comment comes first. -/
  header : Bool := true
  indent : Indent := .spaces 4
  /-- Properties without a public setter are marked `readonly`. -/
  readonlyProperties : Bool := false
  /-- Public static fields and properties are declared too. -/
  staticMembers : Bool := false
  deriving DecidableEq, Repr

end Typings
