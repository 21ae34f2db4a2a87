import Typings.Declaration.Document

/-!
The text of a declaration file: lines with the depth of the blocks around them, then the banner and
the lines with their indentation. A block is its header, its lines one level deeper, and a closing
brace at the depth of the header.
-/

namespace Typings

/-- A line and the number of blocks around it. -/
structure Line where
  depth : Nat
  text : String
  deriving DecidableEq, Repr

namespace Line

def deeper (l : Line) : Line := { l with depth := l.depth + 1 }

def render (indent : Indent) (l : Line) : String :=
  String.join (List.replicate l.depth indent.unit) ++ l.text ++ "\n"

/-- The lines of a block whose header stands at the outermost level. -/
def block (header : String) (body : List Line) : List Line :=
  ⟨0, header ++ " \x7b"⟩ :: (body.map deeper ++ [⟨0, "\x7d"⟩])

end Line

namespace Block

/-- What follows the name in a header: type parameters, or else the base. -/
def suffixText (root : String) (b : Block) : String :=
  if b.typeParams.isEmpty then
    match b.base with
    | some fullName => " extends " ++ qualify root fullName
    | none => ""
  else "<" ++ String.intercalate ", " b.typeParams ++ ">"

def header (root : String) (b : Block) : String :=
  b.kind.keyword ++ " " ++ b.name ++ b.suffixText root

/-- The lines in front of a header: a remark on enums of bit flags. -/
def remarks (b : Block) : List Line := if b.kind = .enumType true then [⟨0, "/** Flags */"⟩] else []

def body (root : String) (b : Block) : List Line := b.members.map fun m => ⟨0, m.text root⟩

def lines (root : String) (b : Block) : List Line :=
  b.remarks ++ Line.block (b.header root) (b.body root)

end Block

/-- The lines of a namespace; the types of the global one stand in the root block itself. -/
def SpaceBlock.lines (root : String) (s : SpaceBlock) : List Line :=
  let types := s.types.flatMap (Block.lines root)
  if s.name.isEmpty then types else Line.block ("namespace " ++ s.name) types

def Document.lines (root : String) (doc : Document) : List Line :=
  Line.block ("declare namespace " ++ root) (doc.flatMap (SpaceBlock.lines root))

def banner : String := "/** Auto-generated by dtsgen. Do not edit. */"

def Document.text (config : Config) (doc : Document) : String :=
  (if config.header then banner ++ "\n\n" else "") ++
    String.join ((doc.lines config.root).map (Line.render config.indent))

def TypeGraph.emit (g : TypeGraph) (config : Config) : String := (g.document config).text config

end Typings
