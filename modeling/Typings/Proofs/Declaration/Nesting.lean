import Typings.Proofs.Declaration.Names
import Typings.Proofs.Declaration.Writer

/-! # Blocks inside blocks

The lines of a declaration file with the depth at which each stands: the root block around the
namespaces, these around their types, and the types around their members. Header and indentation
have no part in them, and the counter of a pass goes through the same depths.
-/
namespace Typings

/-- A block whose header stands at a depth, and its brace at the same one. -/
def Line.blockAt (depth : Nat) (header : String) (inside : List Line) : List Line :=
  ⟨depth, header ++ " \x7b"⟩ :: (inside ++ [⟨depth, "\x7d"⟩])

def Block.linesAt (root : String) (depth : Nat) (b : Block) : List Line :=
  (if b.kind = .enumType true then [⟨depth, "/** Flags */"⟩] else []) ++
    Line.blockAt depth (b.header root) (b.members.map fun m => ⟨depth + 1, m.text root⟩)

/-- The lines of a namespace inside the root block. -/
def SpaceBlock.nested (root : String) (s : SpaceBlock) : List Line :=
  if s.name = "" then s.types.flatMap (Block.linesAt root 1)
  else Line.blockAt 1 ("namespace " ++ s.name) (s.types.flatMap (Block.linesAt root 2))

def Document.nested (root : String) (doc : Document) : List Line :=
  Line.blockAt 0 ("declare namespace " ++ root) (doc.flatMap (SpaceBlock.nested root))

theorem Line.within_block (depth : Nat) (header : String) (body : List Line) :
    (Line.block header body).map (Line.within depth) =
      Line.blockAt depth header (body.map (Line.within (depth + 1))) := by
  simp only [Line.block, Line.blockAt, List.map_cons, List.map_append, List.map_nil, List.map_map,
    Function.comp_def, Line.within_deeper]
  rfl

theorem Block.within_lines (root : String) (depth : Nat) (b : Block) :
    (b.lines root).map (Line.within depth) = b.linesAt root depth := by
  rw [Block.lines, List.map_append, Line.within_block, Block.linesAt, Block.remarks, Block.body,
    List.map_map]
  split <;> rfl

theorem SpaceBlock.within_lines (root : String) (s : SpaceBlock) :
    (s.lines root).map (Line.within 1) = s.nested root := by
  have htypes : ∀ depth, (s.types.flatMap (Block.lines root)).map (Line.within depth) =
      s.types.flatMap (Block.linesAt root depth) := by
    intro depth
    rw [List.map_flatMap]
    exact List.flatMap_congr fun b _ => b.within_lines root depth
  rw [SpaceBlock.lines, SpaceBlock.nested, ← htypes, ← htypes]
  simp only [String.isEmpty_iff]
  split
  · rfl
  · exact Line.within_block 1 _ _

theorem Document.lines_eq_nested (root : String) (doc : Document) :
    doc.lines root = doc.nested root := by
  have hspaces : (doc.flatMap (SpaceBlock.lines root)).map (Line.within 1) =
      doc.flatMap (SpaceBlock.nested root) := by
    rw [List.map_flatMap]
    exact List.flatMap_congr fun s _ => s.within_lines root
  calc doc.lines root = (doc.lines root).map (Line.within 0) := by
        rw [funext Line.within_zero]; exact (List.map_id _).symm
    _ = doc.nested root := by rw [Document.lines, Line.within_block, hspaces, Document.nested]

namespace TypeGraph

theorem types_ne_nil_of_mem_document {g : TypeGraph} {config : Config} {s : SpaceBlock}
    (h : s ∈ g.document config) : s.types ≠ [] := by
  obtain ⟨⟨space, types⟩, ht, rfl⟩ := List.mem_map.mp h
  have hne : types ≠ [] := by simpa using (List.mem_filter.mp ht).2
  exact fun hnil => hne (List.map_eq_nil_iff.mp hnil)

end TypeGraph

end Typings
