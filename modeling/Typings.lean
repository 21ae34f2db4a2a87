import Typings.Main
import Typings.Proofs.Graph.Arena
import Typings.Proofs.Graph.Reachability
import Typings.Proofs.Declaration.SameTypes
import Typings.Proofs.SeedOrder
import Typings.Proofs.Declaration.Declared
import Typings.Proofs.Declaration.References
import Typings.Proofs.Declaration.Names
import Typings.Proofs.Declaration.Nesting
import Typings.Proofs.TypeRef.RoundTrip
import Typings.Proofs.Declaration.Listed
import Typings.Proofs.Graph.Extension
import Typings.Proofs.Graph.Expansion
import Typings.Proofs.Graph.Provenance
import Typings.Proofs.SeedChoice
import Typings.Proofs.UnknownSeed
import Typings.Proofs.Declaration.Pieces
import Typings.Proofs.Declaration.Switches
import Typings.Proofs.Graph.Exports
import Typings.Proofs.Json.Yields
import Typings.Proofs.ManifestReferences
import Typings.Proofs.Declaration.Refinement
import Typings.Proofs.Declaration.Scopes
import Typings.Proofs.Declaration.Resolution
import Typings.Proofs.Declaration.ParameterNames
import Typings.Proofs.Declaration.Accessors
import Typings.Proofs.Declaration.Members
import Typings.Proofs.Json.Grammar
import Typings.Proofs.Json.Passing
import Typings.Proofs.TypeRef.Errors
import Typings.Proofs.Json.Presentation
import Typings.Proofs.Json.Reads
import Typings.Proofs.Json.ReadsRecord
import Typings.Proofs.ManifestPresentation
import Typings.Proofs.ManifestReading
import Typings.Proofs.Text.ByteOrder
import Typings.Proofs.Graph.Partition
import Typings.Proofs.CommandLine.ReadBack
import Typings.Proofs.FirstDefinition
import Typings.Proofs.Decimal.Rounding
import Typings.Proofs.Decimal.Overflow
import Typings.Proofs.Json.LongNumbers
import Typings.Proofs.Text.Literal
import Typings.Proofs.ConstantText
import Typings.Proofs.FullName
import Typings.Proofs.CommandLine.IndentText
import Typings.Proofs.TypeRef.Closedness
