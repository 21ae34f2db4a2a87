import Typings.Definition

/-!
Where definitions come from: a source answers what type a full name stands for, and which types an
assembly exports. It knows finitely many definitions, which is what ends every closure over them.
-/

namespace Typings

/-- What an assembly exports. The load was partial when some types could not be loaded. -/
structure Exports where
  types : List TypeDef
  loadFailures : List String

def Exports.isPartial (e : Exports) : Bool := !e.loadFailures.isEmpty

structure Source where
  /-- Every definition that a look-up by name may answer with. -/
  definitions : List TypeDef
  typeDef : String → Option TypeDef
  exported : String → Option Exports
  mem_definitions : ∀ {name : String} {d : TypeDef}, typeDef name = some d → d ∈ definitions

end Typings
