import Mathlib.Data.List.Basic
import Typings.Declaration.Layout
import Typings.Proofs.Declaration.Declared

/-! # One pass with a counter

The text of a graph, written front to back into one buffer while a counter keeps the number of
blocks that are open. `Writes` says what a part of the pass adds: lines whose depths count from the
counter, which stands after the part where it stood before. Parts compose along `++`, so that the
loops over namespaces, types and members need no other fact about the counter, and the whole pass
writes what `emit` puts together from the document.
-/
namespace Typings

/-- The buffer of a pass and the number of blocks that are open. -/
structure Writer where
  indent : Indent
  depth : Nat
  output : String

/-- A part of a pass. It fails where a block is closed that was never opened. -/
abbrev Writing := StateT Writer Option Unit

namespace Line

/-- A line inside a number of further blocks. -/
def within (depth : Nat) (l : Line) : Line := { l with depth := depth + l.depth }

theorem within_zero (l : Line) : l.within 0 = l := by rw [within, Nat.zero_add]

theorem within_deeper (depth : Nat) (l : Line) : l.deeper.within depth = l.within (depth + 1) := by
  rw [within, within, deeper, Nat.add_assoc, Nat.add_comm 1]

theorem render_zero (indent : Indent) (text : String) :
    Line.render indent ⟨0, text⟩ = text ++ "\n" := by
  simp [render]

end Line

namespace Writer

def written (w : Writer) (text : String) : Writer := { w with output := w.output ++ text }

def opened (w : Writer) : Writer := { w with depth := w.depth + 1 }

theorem written_empty (w : Writer) : w.written "" = w := by
  rw [written, String.append_empty]

theorem written_written (w : Writer) (first last : String) :
    (w.written first).written last = w.written (first ++ last) := by
  rw [written, written, written, String.append_assoc]

/-- The state after some lines whose depths count from the present one. -/
def after (w : Writer) (ls : List Line) : Writer :=
  w.written (String.join (ls.map fun l => (l.within w.depth).render w.indent))

theorem after_nil (w : Writer) : w.after [] = w := by
  simp [after, written]

theorem after_append (w : Writer) (ls ks : List Line) :
    w.after (ls ++ ks) = (w.after ls).after ks := by
  simp [after, written, String.append_assoc]

theorem after_line (w : Writer) (text : String) :
    w.after [⟨0, text⟩] = w.written (Line.render w.indent ⟨w.depth, text⟩) := by
  simp [after, Line.within]

/-- What is written inside one more block is written one level deeper. -/
theorem after_opened (w : Writer) (ls : List Line) :
    w.opened.after ls = (w.after (ls.map Line.deeper)).opened := by
  simp [after, written, opened, Function.comp_def, Line.within_deeper]

end Writer

namespace Writing

def line (text : String) : Writing :=
  modify fun w => w.written (Line.render w.indent ⟨w.depth, text⟩)

def opening (header : String) : Writing := do
  line (header ++ " \x7b")
  modify Writer.opened

def closing : Writing := do
  match (← get).depth with
  | 0 => failure
  | depth + 1 =>
    modify fun w => { w with depth := depth }
    line "\x7d"

/-- A loop over the members of one kind, some of which are passed over. -/
def eachMember {α : Type} (root : String) (items : List α) (member? : α → Option Member) :
    Writing :=
  items.forM fun a =>
    match member? a with
    | some m => line (m.text root)
    | none => pure ()

end Writing

namespace TypeGraph

open Writing

variable (g : TypeGraph) (config : Config) (d : Descriptor)

def writeLiterals : Writing :=
  eachMember config.root d.definition.fields fun f =>
    (f.constant.filter fun _ => f.isPublic).map (Member.literal f.name)

def writeFields : Writing :=
  eachMember config.root d.definition.fields fun f =>
    if !f.isPublic || !d.declaresSlot config f.isStatic then none else some (g.fieldMember d f)

def writeProperties : Writing :=
  eachMember config.root d.definition.properties fun p =>
    if !p.isPublic || !d.declaresSlot config p.isStatic then none
    else some (g.propertyMember config d p)

def writeConstructors : Writing :=
  if d.isInterface then pure ()
  else
    eachMember config.root d.definition.constructors fun c =>
      if !c.isPublic || c.isStatic || d.definition.isPropertyAccessor c.token then none
      else some (g.constructorMember d c)

def writeMethods : Writing :=
  eachMember config.root d.definition.methods fun m =>
    if !m.isPublic || d.definition.isAccessor m then none
    else if m.isStatic && d.isInterface then none
    else some (g.methodMember d m)

def writeEvents : Writing :=
  eachMember config.root d.definition.events fun e =>
    if !e.isPublic then none
    else if e.isStatic && d.isInterface then none
    else some (g.eventMember d e)

def writeMembers : Writing := do
  g.writeFields config d
  g.writeProperties config d
  g.writeConstructors config d
  g.writeMethods config d
  g.writeEvents config d

def writeType : Writing := do
  let header := (g.block config d).header config.root
  match d.kind with
  | .enumType flags =>
    if flags then line "/** Flags */"
    opening header
    writeLiterals config d
    closing
  | _ =>
    opening header
    g.writeMembers config d
    closing

def writeSpace (space : String) (types : List Descriptor) : Writing := do
  let types := types.filter Descriptor.isDeclared
  if types.isEmpty then
    pure ()
  else if space.isEmpty then
    types.forM (g.writeType config)
  else
    opening ("namespace " ++ space)
    types.forM (g.writeType config)
    closing

def writeRoot : Writing := do
  opening ("declare namespace " ++ config.root)
  g.byNamespace.forM fun (space, types) => g.writeSpace config space types
  closing

/-- The pass over a graph: the banner and an empty line first, where they are asked for. -/
def write : Writing := do
  if config.header then
    line banner
    modify fun w => w.written "\n"
  g.writeRoot config

end TypeGraph

namespace Writing

variable {part next : Writing} {ls ks : List Line} {α : Type}

/-- A part of a pass adds lines, and leaves the counter as it finds it. -/
def Writes (part : Writing) (ls : List Line) : Prop :=
  ∀ w : Writer, part.run w = some ((), w.after ls)

theorem writes_pure : Writes (pure ()) [] := by
  intro w
  rw [w.after_nil]
  rfl

theorem writes_line (text : String) : Writes (line text) [⟨0, text⟩] := by
  intro w
  rw [w.after_line]
  rfl

theorem Writes.run_bind (h : Writes part ls) (w : Writer) :
    (part >>= fun _ => next).run w = next.run (w.after ls) := by
  rw [StateT.run_bind, h w]
  rfl

theorem Writes.bind (h : Writes part ls) (hnext : Writes next ks) :
    Writes (part >>= fun _ => next) (ls ++ ks) := by
  intro w
  rw [h.run_bind, hnext, Writer.after_append]

theorem run_opening (header : String) (w : Writer) :
    (opening header).run w = some ((), (w.after [⟨0, header ++ " \x7b"⟩]).opened) := by
  rw [opening, (writes_line _).run_bind]
  rfl

theorem run_closing (w : Writer) : closing.run w.opened = some ((), w.after [⟨0, "\x7d"⟩]) :=
  writes_line "\x7d" w

example (indent : Indent) (output : String) : closing.run ⟨indent, 0, output⟩ = none := rfl

/-- The header raises the counter and the brace takes that back, so that the lines between them
stand one level deeper. -/
theorem Writes.block (h : Writes part ls) (header : String) :
    Writes (do opening header; part; closing) (Line.block header ls) := by
  intro w
  calc (do opening header; part; closing : Writing).run w
      = (do part; closing : Writing).run (w.after [⟨0, header ++ " \x7b"⟩]).opened := by
        rw [StateT.run_bind, run_opening]; rfl
    _ = closing.run (w.after (⟨0, header ++ " \x7b"⟩ :: ls.map Line.deeper)).opened := by
        rw [h.run_bind, Writer.after_opened, ← Writer.after_append, List.singleton_append]
    _ = some ((), w.after (Line.block header ls)) := by
        rw [run_closing, ← Writer.after_append, List.cons_append, Line.block]

theorem writes_forM {items : List α} {f : α → Writing} {lines : α → List Line}
    (h : ∀ a ∈ items, Writes (f a) (lines a)) : Writes (items.forM f) (items.flatMap lines) := by
  induction items with
  | nil => exact writes_pure
  | cons a items ih =>
    rw [List.flatMap_cons]
    exact (h a List.mem_cons_self).bind (ih fun b hb => h b (List.mem_cons_of_mem a hb))

/-- The lines of some members right inside their block. -/
def memberLines (root : String) (members : List Member) : List Line :=
  members.map fun m => ⟨0, m.text root⟩

theorem memberLines_append (root : String) (ms ns : List Member) :
    memberLines root (ms ++ ns) = memberLines root ms ++ memberLines root ns :=
  List.map_append

theorem writes_eachMember (root : String) (items : List α) (member? : α → Option Member) :
    Writes (eachMember root items member?) (memberLines root (items.filterMap member?)) := by
  rw [memberLines, List.map_filterMap, List.filterMap_eq_flatMap_toList]
  refine writes_forM fun a _ => ?_
  cases member? a with
  | none => exact writes_pure
  | some m => exact writes_line _

/-- Passing over what is not declared is going through what is. -/
theorem writes_eachMember_of_kept {root : String} {items : List α} {member? : α → Option Member}
    {keeps : α → Bool} {member : α → Member}
    (h : ∀ a, member? a = if keeps a then some (member a) else none) :
    Writes (eachMember root items member?)
      (memberLines root ((items.filter keeps).map member)) := by
  have hmembers : (items.filter keeps).map member = items.filterMap member? := by
    rw [← List.filterMap_eq_map, List.filterMap_filter]
    exact List.filterMap_congr fun a _ => (h a).symm
  rw [hmembers]
  exact writes_eachMember _ _ _

end Writing

namespace TypeGraph

open Writing

variable {g : TypeGraph} {config : Config} {d : Descriptor}

theorem writes_literals :
    Writes (writeLiterals config d) (memberLines config.root (literals d)) := by
  have hmembers : literals d = d.definition.fields.filterMap fun f =>
      (f.constant.filter fun _ => f.isPublic).map (Member.literal f.name) := by
    rw [literals, List.filterMap_filter]
    refine List.filterMap_congr fun f _ => ?_
    cases f.isPublic <;> cases f.constant <;> rfl
  rw [hmembers]
  exact writes_eachMember _ _ _

theorem writes_fields :
    Writes (g.writeFields config d)
      (memberLines config.root ((d.declaredFields config).map (g.fieldMember d))) :=
  writes_eachMember_of_kept fun f => by
    cases f.isPublic <;> cases d.declaresSlot config f.isStatic <;> rfl

theorem writes_properties :
    Writes (g.writeProperties config d)
      (memberLines config.root ((d.declaredProperties config).map (g.propertyMember config d))) :=
  writes_eachMember_of_kept fun p => by
    cases p.isPublic <;> cases d.declaresSlot config p.isStatic <;> rfl

/-- The early way out for interfaces is no different from passing over each of their constructors. -/
theorem writes_constructors :
    Writes (g.writeConstructors config d)
      (memberLines config.root (d.declaredConstructors.map (g.constructorMember d))) := by
  rw [writeConstructors, Descriptor.declaredConstructors]
  cases d.isInterface with
  | true =>
    rw [List.filter_eq_nil_iff.mpr fun c _ => by simp]
    exact writes_pure
  | false =>
    exact writes_eachMember_of_kept fun c => by
      cases c.isPublic <;> cases c.isStatic <;>
        cases d.definition.isPropertyAccessor c.token <;> rfl

theorem writes_methods :
    Writes (g.writeMethods config d)
      (memberLines config.root (d.declaredMethods.map (g.methodMember d))) :=
  writes_eachMember_of_kept fun m => by
    cases m.isPublic <;> cases d.definition.isAccessor m <;>
      cases m.isStatic && d.isInterface <;> rfl

theorem writes_events :
    Writes (g.writeEvents config d)
      (memberLines config.root (d.declaredEvents.map (g.eventMember d))) :=
  writes_eachMember_of_kept fun e => by
    cases e.isPublic <;> cases e.isStatic && d.isInterface <;> rfl

theorem writes_members (h : d.kind.isEnum = false) :
    Writes (g.writeMembers config d) (memberLines config.root (g.members config d)) := by
  rw [members, h, if_neg Bool.false_ne_true]
  simp only [memberLines_append, List.append_assoc]
  exact writes_fields.bind (writes_properties.bind (writes_constructors.bind
    (writes_methods.bind writes_events)))

theorem writes_type : Writes (g.writeType config d) ((g.block config d).lines config.root) := by
  rw [Block.lines, writeType]
  split
  · next flags hk =>
    have hremarks : (g.block config d).remarks =
        if flags then [⟨0, "/** Flags */"⟩] else [] := by
      rw [Block.remarks, block, hk]
      cases flags <;> rfl
    have hmembers : g.members config d = literals d := by rw [members, hk]; rfl
    have hbody : Writes (writeLiterals config d)
        (memberLines config.root (g.members config d)) := by
      rw [hmembers]
      exact writes_literals
    rw [hremarks]
    cases flags with
    | false => exact hbody.block _
    | true => exact (writes_line _).bind (hbody.block _)
  · next hk =>
    have hremarks : (g.block config d).remarks = [] := if_neg (hk true)
    have henum : d.kind.isEnum = false := by
      cases h : d.kind with
      | enumType flags => exact (hk flags h).elim
      | _ => rfl
    rw [hremarks]
    exact (writes_members henum).block _

/-- A namespace without declared types is passed over, and its name is all that decides whether
its types have a block around them. -/
theorem writes_space (space : String) (types : List Descriptor) :
    Writes (g.writeSpace config space types)
      (if (types.filter Descriptor.isDeclared).isEmpty then []
        else SpaceBlock.lines config.root
          ⟨space, (types.filter Descriptor.isDeclared).map (g.block config)⟩) := by
  have htypes : ∀ types : List Descriptor,
      Writes (types.forM (g.writeType config))
        ((types.map (g.block config)).flatMap (Block.lines config.root)) := by
    intro types
    rw [List.flatMap_map]
    exact writes_forM fun d _ => writes_type
  rw [writeSpace, SpaceBlock.lines]
  split
  · exact writes_pure
  · split
    · exact htypes _
    · exact (htypes _).block _

theorem writes_root : Writes (g.writeRoot config) ((g.document config).lines config.root) := by
  have hspaces : (g.document config).flatMap (SpaceBlock.lines config.root) =
      g.byNamespace.flatMap fun (space, types) =>
        if (types.filter Descriptor.isDeclared).isEmpty then []
        else SpaceBlock.lines config.root
          ⟨space, (types.filter Descriptor.isDeclared).map (g.block config)⟩ := by
    rw [document, List.flatMap_map, flatMap_declaredTypes]
  rw [Document.lines, hspaces]
  exact (writes_forM fun (space, types) _ => writes_space space types).block _

/-- What comes before the root block belongs to no block. -/
theorem run_write_eq_run_writeRoot (w : Writer) (h : w.depth = 0) :
    (g.write config).run w =
      (g.writeRoot config).run (w.written (if config.header then banner ++ "\n\n" else "")) := by
  rw [write]
  cases config.header with
  | false =>
    change (g.writeRoot config).run w = _
    rw [if_neg Bool.false_ne_true, w.written_empty]
  | true =>
    -- The empty line has no indentation at any depth, which makes no difference at depth 0.
    have hbanner : (w.after [⟨0, banner⟩]).written "\n" = w.written (banner ++ "\n\n") := by
      rw [w.after_line, h, Line.render_zero, Writer.written_written, String.append_assoc]
      rfl
    calc _ = (g.writeRoot config).run ((w.after [⟨0, banner⟩]).written "\n") :=
          (writes_line banner).run_bind w
      _ = _ := by rw [hbanner, if_pos rfl]

/-- The pass never closes a block that is not open, ends with no open block, and has then written
the text of the document. -/
theorem run_write (g : TypeGraph) (config : Config) :
    (g.write config).run ⟨config.indent, 0, ""⟩ =
      some ((), ⟨config.indent, 0, g.emit config⟩) := by
  rw [run_write_eq_run_writeRoot _ rfl, writes_root, Writer.after, emit, Document.text]
  simp only [Writer.written, Line.within_zero, String.empty_append]

end TypeGraph

end Typings
