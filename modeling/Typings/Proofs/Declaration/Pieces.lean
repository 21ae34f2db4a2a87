import Typings.Proofs.Declaration.Nesting
import Typings.Proofs.Declaration.References

/-! # Lines and what they stand for

Every line of a declaration file stands for something: the root, a namespace, or one part of a type.
It is put together from pieces, and of these only the types that are written and the name in the
root header look at the root namespace. `markedLines` goes through the declared types as a document
does and keeps both with each line; without the marks its lines are those of the text.
-/
namespace Typings

/-- A piece of a line. -/
inductive Piece where
  | verbatim (text : String)
  /-- The modifier of a property without a public setter. -/
  | readonly
  /-- The root namespace in its own header. -/
  | rootName
  /-- A type at a place where one is written. -/
  | token (t : TypeToken)
  deriving DecidableEq, Repr

namespace Piece

def text (root : String) : Piece → String
  | .verbatim text => text
  | .readonly => Member.readonlyText true
  | .rootName => root
  | .token t => t.text root

/-- The text of pieces that stand one behind the other. -/
def joined (root : String) (ps : List Piece) : String := String.join (ps.map (text root))

@[simp] theorem joined_nil (root : String) : joined root [] = "" := rfl

@[simp] theorem joined_cons (root : String) (p : Piece) (ps : List Piece) :
    joined root (p :: ps) = p.text root ++ joined root ps := by
  simp [joined]

@[simp] theorem joined_append (root : String) (ps qs : List Piece) :
    joined root (ps ++ qs) = joined root ps ++ joined root qs := by
  simp [joined]

end Piece

/-! ## Members and headers in pieces -/

namespace Parameter

/-- The name of a parameter with the marks of its form. -/
def label (p : Parameter) : String :=
  match p.form with
  | .single => p.name ++ ": "
  | .optional => p.name ++ "?: "
  | .rest => "..." ++ p.name ++ ": "

def pieces (p : Parameter) : List Piece := [.verbatim p.label, .token p.type]

def listPieces : List Parameter → List Piece
  | [] => []
  | p :: ps => p.pieces ++ ps.flatMap fun q => .verbatim ", " :: q.pieces

theorem joined_pieces (root : String) (p : Parameter) :
    Piece.joined root p.pieces = p.text root := by
  rw [pieces, text, label]
  cases p.form <;> simp [Piece.text]

theorem joined_listPieces (root : String) (ps : List Parameter) :
    Piece.joined root (listPieces ps) = listText root ps := by
  induction ps with
  | nil => rfl
  | cons p ps ih =>
    cases ps with
    | nil => simp [listPieces, listText, joined_pieces]
    | cons q qs =>
      rw [listText, listPieces] at ih
      rw [listText, listPieces, List.map_cons, List.map_cons, String.intercalate_cons_cons,
        ← List.map_cons, ← ih, List.flatMap_cons, ← joined_pieces]
      simp [Piece.text, String.append_assoc]

end Parameter

namespace Member

def pieces : Member → List Piece
  | .literal name value => [.verbatim (name ++ " = " ++ value.text ++ ",")]
  | .field isStatic name type =>
    [.verbatim (staticText isStatic ++ name ++ ": "), .token type, .verbatim ";"]
  | .property isStatic isReadonly name type =>
    .verbatim (staticText isStatic) :: (if isReadonly then [.readonly] else []) ++
      [.verbatim (name ++ ": "), .token type, .verbatim ";"]
  | .constructor params =>
    .verbatim "constructor(" :: Parameter.listPieces params ++ [.verbatim ");"]
  | .method isStatic name params returns =>
    .verbatim (staticText isStatic ++ name ++ "(") :: Parameter.listPieces params ++
      [.verbatim "): ", .token returns, .verbatim ";"]
  | .event isStatic name params returns =>
    .verbatim (staticText isStatic ++ name ++ ": \x7b connect(callback: (") ::
      Parameter.listPieces params ++
        [.verbatim ") => ", .token returns, .verbatim "): \x7b disconnect(): void; \x7d; \x7d;"]

theorem joined_pieces (root : String) (m : Member) : Piece.joined root m.pieces = m.text root := by
  cases m with
  | property isStatic isReadonly name type =>
    cases isReadonly <;> simp [pieces, text, Piece.text, readonlyText, String.append_assoc]
  | _ => simp [pieces, text, Piece.text, Parameter.joined_listPieces, String.append_assoc]

end Member

namespace Block

/-- What stands behind the name of a type in its header, the base apart. -/
def typeParamsText (b : Block) : String :=
  if b.typeParams.isEmpty then "" else "<" ++ String.intercalate ", " b.typeParams ++ ">"

def headerPieces (b : Block) : List Piece :=
  .verbatim (b.kind.keyword ++ " " ++ b.name ++ b.typeParamsText) ::
    (b.extended.toList.flatMap fun r => [.verbatim " extends ", .token (.declared r)]) ++
      [.verbatim " \x7b"]

theorem joined_headerPieces (root : String) (b : Block) :
    Piece.joined root b.headerPieces = b.header root ++ " \x7b" := by
  rw [headerPieces, header, suffixText, typeParamsText, extended]
  split
  · cases b.base <;> simp [Piece.text, TypeToken.text, String.append_assoc]
  · simp [Piece.text, String.append_assoc]

end Block

/-! ## Marked lines -/

/-- The parts of the block of a type. -/
inductive Part where
  | remark
  | header
  | literal (f : FieldDef)
  | field (f : FieldDef)
  | property (p : PropertyDef)
  | constructor (c : ConstructorDef)
  | method (m : MethodDef)
  | event (e : EventDef)
  | closing

/-- What a line stands for. A namespace has its header and its closing brace. -/
inductive Origin where
  | root
  | space (name : String)
  | type (d : TypeDef) (part : Part)

def Origin.type? : Origin → Option TypeDef
  | .type d _ => some d
  | _ => none

structure MarkedLine where
  origin : Origin
  depth : Nat
  pieces : List Piece

def MarkedLine.line (root : String) (l : MarkedLine) : Line :=
  ⟨l.depth, Piece.joined root l.pieces⟩

namespace TypeGraph

variable (g : TypeGraph) (config : Config)

/-- The members of a declared type, each with what it is a member for. -/
def markedMembers (x : Descriptor) : List (Part × Member) :=
  if x.kind.isEnum then
    (x.definition.fields.filter FieldDef.isPublic).filterMap fun f =>
      f.constant.map fun value => (.literal f, .literal f.name value)
  else
    (x.declaredFields config).map (fun f => (.field f, g.fieldMember x f)) ++
      (x.declaredProperties config).map (fun p => (.property p, g.propertyMember config x p)) ++
      x.declaredConstructors.map (fun c => (.constructor c, g.constructorMember x c)) ++
      x.declaredMethods.map (fun m => (.method m, g.methodMember x m)) ++
      x.declaredEvents.map (fun e => (.event e, g.eventMember x e))

def memberLine (d : TypeDef) (depth : Nat) (m : Part × Member) : MarkedLine :=
  ⟨.type d m.1, depth, m.2.pieces⟩

/-- The lines in front of a header: a remark on enums of bit flags. -/
def remarkLines (x : Descriptor) (depth : Nat) : List MarkedLine :=
  if x.kind = .enumType true then [⟨.type x.definition .remark, depth, [.verbatim "/** Flags */"]⟩]
  else []

/-- The lines of a declared type, whose header stands at a depth. -/
def typeLinesAt (depth : Nat) (x : Descriptor) : List MarkedLine :=
  remarkLines x depth ++
    ⟨.type x.definition .header, depth, (g.block config x).headerPieces⟩ ::
      ((g.markedMembers config x).map (memberLine x.definition (depth + 1)) ++
        [⟨.type x.definition .closing, depth, [.verbatim "\x7d"]⟩])

/-- The depth at which the declaration of a type stands. -/
def declaredDepth (x : Descriptor) : Nat := if x.space = "" then 1 else 2

def typeLines (x : Descriptor) : List MarkedLine := g.typeLinesAt config (declaredDepth x) x

/-- The lines of a namespace and its declared types. -/
def spaceLines (group : String × List Descriptor) : List MarkedLine :=
  if group.1 = "" then group.2.flatMap (g.typeLines config)
  else
    ⟨.space group.1, 1, [.verbatim ("namespace " ++ group.1 ++ " \x7b")]⟩ ::
      (group.2.flatMap (g.typeLines config) ++ [⟨.space group.1, 1, [.verbatim "\x7d"]⟩])

/-- The header of the root namespace. -/
def rootHeader : MarkedLine :=
  ⟨.root, 0, [.verbatim "declare namespace ", .rootName, .verbatim " \x7b"]⟩

/-- The lines of a declaration file, banner apart, each with what it stands for. -/
def markedLines : List MarkedLine :=
  rootHeader ::
    (g.declaredTypes.flatMap (g.spaceLines config) ++ [⟨.root, 0, [.verbatim "\x7d"]⟩])

variable {g config}

theorem snd_markedMembers (x : Descriptor) :
    (g.markedMembers config x).map Prod.snd = g.members config x := by
  rw [markedMembers, members]
  split
  · rw [literals, List.map_filterMap]
    refine List.filterMap_congr fun f _ => ?_
    cases f.constant <;> rfl
  · simp only [List.map_append, List.map_map]
    rfl

theorem eq_of_mem_remarkLines {x : Descriptor} {depth : Nat} {l : MarkedLine}
    (h : l ∈ remarkLines x depth) :
    l = ⟨.type x.definition .remark, depth, [.verbatim "/** Flags */"]⟩ := by
  rw [remarkLines] at h
  split at h
  · exact List.mem_singleton.mp h
  · cases h

theorem line_typeLinesAt (depth : Nat) (x : Descriptor) :
    (g.typeLinesAt config depth x).map (MarkedLine.line config.root) =
      (g.block config x).linesAt config.root depth := by
  have hremark : (remarkLines x depth).map (MarkedLine.line config.root) =
      if x.kind = .enumType true then [⟨depth, "/** Flags */"⟩] else [] := by
    rw [remarkLines]
    split
    · simp [MarkedLine.line, Piece.text]
    · rfl
  have hmembers : ((g.markedMembers config x).map (memberLine x.definition (depth + 1))).map
      (MarkedLine.line config.root) =
        (g.members config x).map fun m => ⟨depth + 1, m.text config.root⟩ := by
    rw [← snd_markedMembers, List.map_map, List.map_map]
    refine List.map_congr_left fun m _ => ?_
    rw [Function.comp_apply, memberLine, MarkedLine.line, Member.joined_pieces]
    rfl
  rw [typeLinesAt, List.map_append, List.map_cons, List.map_append, hremark, hmembers,
    MarkedLine.line, Block.joined_headerPieces, Block.linesAt, Line.blockAt]
  rfl

theorem line_typeLines (config : Config) {space : String} {types : List Descriptor}
    (h : (space, types) ∈ g.declaredTypes) :
    (types.flatMap (g.typeLines config)).map (MarkedLine.line config.root) =
      types.flatMap fun x =>
        (g.block config x).linesAt config.root (if space = "" then 1 else 2) := by
  rw [List.map_flatMap]
  refine List.flatMap_congr fun x hx => ?_
  obtain ⟨-, -, rfl⟩ := mem_declaredTypes_iff.mp ⟨types, h, hx⟩
  exact line_typeLinesAt _ x

/-- Without the marks, the lines are those of the document. -/
theorem line_markedLines (g : TypeGraph) (config : Config) :
    (g.markedLines config).map (MarkedLine.line config.root) =
      (g.document config).nested config.root := by
  have hspaces : (g.declaredTypes.flatMap (g.spaceLines config)).map
      (MarkedLine.line config.root) =
        (g.document config).flatMap (SpaceBlock.nested config.root) := by
    rw [document, List.flatMap_map, List.map_flatMap]
    refine List.flatMap_congr fun group h => ?_
    obtain ⟨space, types⟩ := group
    have htypes := line_typeLines config h
    simp only [spaceLines, SpaceBlock.nested, List.flatMap_map]
    split
    · next hs => rw [htypes, if_pos hs]
    · next hs =>
      rw [if_neg hs] at htypes
      rw [List.map_cons, List.map_append, htypes]
      simp [MarkedLine.line, Line.blockAt, Piece.text]
  rw [markedLines, List.map_cons, List.map_append, hspaces, Document.nested, Line.blockAt]
  simp [rootHeader, MarkedLine.line, Piece.text, String.append_assoc]

/-- The text of a graph is the banner and the marked lines. -/
theorem emit_eq_markedLines (g : TypeGraph) (config : Config) :
    g.emit config = (if config.header then banner ++ "\n\n" else "") ++
      String.join ((g.markedLines config).map fun l =>
        (l.line config.root).render config.indent) := by
  have h := congrArg (List.map (Line.render config.indent)) (g.line_markedLines config)
  rw [List.map_map] at h
  rw [emit, Document.text, Document.lines_eq_nested, ← h]
  rfl

/-- The lines that stand for parts of types are those of the declared types, in order. -/
theorem filter_markedLines (g : TypeGraph) (config : Config) :
    ((g.markedLines config).filter fun l => l.origin.type?.isSome) =
      g.declared.flatMap (g.typeLines config) := by
  have htype : ∀ x, ∀ l ∈ g.typeLines config x, l.origin.type?.isSome = true := by
    intro x l hl
    simp only [typeLines, typeLinesAt, List.mem_append, List.mem_cons, List.mem_map,
      List.not_mem_nil, or_false] at hl
    rcases hl with hl | rfl | ⟨m, -, rfl⟩ | rfl
    · rw [eq_of_mem_remarkLines hl]; rfl
    · rfl
    · rfl
    · rfl
  have htypes : ∀ types : List Descriptor,
      ((types.flatMap (g.typeLines config)).filter fun l => l.origin.type?.isSome) =
        types.flatMap (g.typeLines config) := by
    intro types
    refine List.filter_eq_self.mpr fun l hl => ?_
    obtain ⟨x, -, hl⟩ := List.mem_flatMap.mp hl
    exact htype x l hl
  have hspaces : ∀ group : String × List Descriptor,
      ((g.spaceLines config group).filter fun l => l.origin.type?.isSome) =
        group.2.flatMap (g.typeLines config) := by
    intro group
    rw [spaceLines]
    split
    · exact htypes group.2
    · rw [List.filter_cons_of_neg (by simp [Origin.type?]), List.filter_append, htypes,
        List.filter_cons_of_neg (by simp [Origin.type?]), List.filter_nil, List.append_nil]
  rw [markedLines, List.filter_cons_of_neg (by simp [rootHeader, Origin.type?]),
    List.filter_append, List.filter_flatMap, List.filter_cons_of_neg (by simp [Origin.type?]), List.filter_nil,
    List.append_nil, declared, List.flatMap_assoc]
  exact List.flatMap_congr fun group _ => hspaces group

end TypeGraph

end Typings
