import Typings.Proofs.Declaration.Nesting

/-! # What a listing foretells

A listing and a declaration file go through the same groups, each in its own way: the one marks
what is not declared, the other drops it, together with a namespace that is left empty. So the
entries without a note are the blocks of the file, in order. `Line.opensType` finds those blocks in
the lines of the file itself: a header is told from every other line by the keyword it starts with
and the brace it ends in.
-/
namespace Typings

/-- What one line of a listing says. -/
structure ListingEntry where
  keyword : String
  type : Descriptor
  /-- Why the type has no declaration. -/
  note : Option SkipReason

def ListingEntry.text (e : ListingEntry) : String :=
  e.keyword ++ " " ++ e.type.fullName ++
    match e.note with
    | some reason => " (skipped: " ++ reason.message ++ ")"
    | none => ""

def DeclKind.all : List DeclKind := [.plainClass, .abstractClass, .interfaceType, .enumType false]

/-- The line starts as the declaration of a type does, and a block follows it. -/
def Line.opensType (l : Line) : Bool :=
  l.text.toList.getLast? = some '\x7b' &&
    DeclKind.all.any fun kind => (kind.keyword ++ " ").toList.isPrefixOf l.text.toList

namespace TypeGraph

def listedEntries (g : TypeGraph) : List ListingEntry :=
  g.listedTypes.map fun x => ⟨x.kind.keyword, x, x.skipReason?⟩

/-- The entries of the types that are declared. -/
def openEntries (g : TypeGraph) : List ListingEntry := g.listedEntries.filter fun e => e.note.isNone

end TypeGraph

/-! ## Headers among the lines -/

theorem getLast?_toList_append {front last : String} {c : Char}
    (h : last.toList.getLast? = some c) : (front ++ last).toList.getLast? = some c := by
  rw [String.toList_append, List.getLast?_append, h]
  rfl

namespace Line

variable {l : Line} {depth : Nat}

theorem opensType_eq_false_of_last {c : Char} (h : l.text.toList.getLast? = some c)
    (hc : c ≠ '\x7b') : l.opensType = false := by
  simp [opensType, h, hc]

/-- No keyword of a declaration starts with another letter than these. -/
theorem opensType_eq_false_of_head {c : Char} {rest : List Char} (h : l.text.toList = c :: rest)
    (hc : c ∉ ['c', 'a', 'i', 'e']) : l.opensType = false := by
  simp only [List.mem_cons, List.not_mem_nil, or_false, not_or] at hc
  simp [opensType, h, DeclKind.all, DeclKind.keyword, List.isPrefixOf, Ne.symm hc.1,
    Ne.symm hc.2.1, Ne.symm hc.2.2.1, Ne.symm hc.2.2.2]

theorem opensType_of_keyword {kind : DeclKind} {rest : String}
    (h : l.text = kind.keyword ++ " " ++ rest) (hlast : rest.toList.getLast? = some '\x7b') :
    l.opensType = true := by
  have hall : ∃ k ∈ DeclKind.all, k.keyword = kind.keyword := by
    cases kind with
    | enumType flags => exact ⟨.enumType false, by decide, rfl⟩
    | _ => exact ⟨_, by decide, rfl⟩
  obtain ⟨k, hk, hkey⟩ := hall
  have hprefix : (k.keyword ++ " ").toList <+: l.text.toList := by
    rw [h, hkey, @String.toList_append (kind.keyword ++ " ") rest]
    exact List.prefix_append _ _
  rw [opensType, Bool.and_eq_true, decide_eq_true_iff, h]
  exact ⟨getLast?_toList_append hlast,
    List.any_eq_true.mpr ⟨k, hk, List.isPrefixOf_iff_prefix.mpr (h ▸ hprefix)⟩⟩

theorem opensType_namespace (name : String) :
    opensType ⟨depth, "namespace " ++ name ++ " \x7b"⟩ = false :=
  opensType_eq_false_of_head (by rw [String.append_assoc, String.toList_append]; rfl) (by decide)

theorem opensType_root (root : String) :
    opensType ⟨depth, "declare namespace " ++ root ++ " \x7b"⟩ = false :=
  opensType_eq_false_of_head (by rw [String.append_assoc, String.toList_append]; rfl) (by decide)

theorem opensType_member (root : String) (m : Member) :
    opensType ⟨depth, m.text root⟩ = false := by
  cases m with
  | literal name value =>
    exact opensType_eq_false_of_last (getLast?_toList_append (c := ',') (by decide)) (by decide)
  | _ =>
    exact opensType_eq_false_of_last (getLast?_toList_append (c := ';') (by decide)) (by decide)

theorem opensType_brace : opensType ⟨depth, "\x7d"⟩ = false :=
  opensType_eq_false_of_last (c := '\x7d') (by simp) (by decide)

theorem opensType_remark : opensType ⟨depth, "/** Flags */"⟩ = false :=
  opensType_eq_false_of_last (c := '/') (by simp) (by decide)

/-- What opens a type in a block is its header, or stands inside. -/
theorem filter_blockAt (header : String) (inside : List Line) :
    (blockAt depth header inside).filter opensType =
      [⟨depth, header ++ " \x7b"⟩].filter opensType ++ inside.filter opensType := by
  have hclose : [(⟨depth, "\x7d"⟩ : Line)].filter opensType = [] := by
    rw [List.filter_cons_of_neg (by simp [opensType_brace]), List.filter_nil]
  rw [blockAt, ← List.singleton_append, List.filter_append, List.filter_append, hclose,
    List.append_nil]

end Line

theorem Block.filter_linesAt (root : String) (depth : Nat) (b : Block) :
    (b.linesAt root depth).filter Line.opensType = [⟨depth, b.header root ++ " \x7b"⟩] := by
  have hremark : (if b.kind = .enumType true then [(⟨depth, "/** Flags */"⟩ : Line)]
      else []).filter Line.opensType = [] := by
    split
    · exact List.filter_cons_of_neg (by simp [Line.opensType_remark])
    · rfl
  have hheader : Line.opensType ⟨depth, b.header root ++ " \x7b"⟩ = true := by
    have htext : b.header root ++ " \x7b" =
        b.kind.keyword ++ " " ++ (b.name ++ b.suffixText root ++ " \x7b") := by
      simp only [header, String.append_assoc]
    exact Line.opensType_of_keyword htext (getLast?_toList_append (by simp))
  have hmembers : (b.members.map fun m => (⟨depth + 1, m.text root⟩ : Line)).filter
      Line.opensType = [] := by
    simp [List.filter_eq_nil_iff, Line.opensType_member]
  rw [linesAt, List.filter_append, hremark, Line.filter_blockAt, hmembers,
    List.filter_cons_of_pos hheader]
  rfl

/-- The lines of a namespace that open a type are the headers of its blocks. -/
theorem SpaceBlock.filter_nested (root : String) (s : SpaceBlock) :
    (s.nested root).filter Line.opensType =
      s.types.map fun b => ⟨if s.name = "" then 1 else 2, b.header root ++ " \x7b"⟩ := by
  have htypes : ∀ depth, (s.types.flatMap (Block.linesAt root depth)).filter Line.opensType =
      s.types.map fun b => ⟨depth, b.header root ++ " \x7b"⟩ := by
    intro depth
    rw [List.filter_flatMap, List.map_eq_flatMap]
    exact List.flatMap_congr fun b _ => b.filter_linesAt root depth
  rw [nested]
  split
  · exact htypes 1
  · rw [Line.filter_blockAt, List.filter_cons_of_neg (by simp [Line.opensType_namespace]), htypes]
    rfl

theorem Document.filter_nested (root : String) (doc : Document) :
    (doc.nested root).filter Line.opensType = doc.placed.map fun (space, b) =>
      ⟨if space = "" then 1 else 2, b.header root ++ " \x7b"⟩ := by
  rw [nested, Line.filter_blockAt, List.filter_cons_of_neg (by simp [Line.opensType_root]),
    List.filter_flatMap, placed, List.map_flatMap, List.filter_nil, List.nil_append]
  refine List.flatMap_congr fun s _ => ?_
  rw [s.filter_nested root, List.map_map]
  rfl

/-! ## The types that a pass comes to -/

namespace TypeGraph

section Pass

variable {m : Type → Type} [Monad m] (opening : String → m Unit) (closing : m Unit)
  (each : Descriptor → m Unit)

def passOverSpace (space : String) (types : List Descriptor) : m Unit := do
  let types := types.filter Descriptor.isDeclared
  if types.isEmpty then
    pure ()
  else if space.isEmpty then
    types.forM each
  else
    opening ("namespace " ++ space)
    types.forM each
    closing

/-- The pass over a graph, whatever is done to open and close a block and about each type. -/
def passOver (g : TypeGraph) (root : String) : m Unit := do
  opening ("declare namespace " ++ root)
  g.byNamespace.forM fun (space, types) => passOverSpace opening closing each space types
  closing

end Pass

/-- An action that notes a type down. -/
def note (x : Descriptor) : StateM (List Descriptor) Unit := modify fun seen => seen ++ [x]

/-- The types that a pass opens a block for, in order: it notes them down and writes nothing. -/
def visited (g : TypeGraph) (root : String) : List Descriptor :=
  ((passOver (fun _ => pure ()) (pure ()) note g root).run []).2

/-- An action notes down these types and does nothing else. -/
def Notes (act : StateM (List Descriptor) Unit) (xs : List Descriptor) : Prop :=
  ∀ seen, act.run seen = ((), seen ++ xs)

theorem notes_pure : Notes (pure ()) [] := by
  intro seen
  rw [List.append_nil]
  rfl

theorem Notes.bind {act next : StateM (List Descriptor) Unit} {xs ys : List Descriptor}
    (h : Notes act xs) (hnext : Notes next ys) : Notes (act >>= fun _ => next) (xs ++ ys) := by
  intro seen
  calc (act >>= fun _ => next).run seen = next.run (seen ++ xs) := by
        rw [StateT.run_bind, h seen]; rfl
    _ = ((), seen ++ (xs ++ ys)) := by rw [hnext, List.append_assoc]

theorem notes_forM {α : Type} {act : α → StateM (List Descriptor) Unit} {xs : α → List Descriptor}
    (h : ∀ a, Notes (act a) (xs a)) (items : List α) :
    Notes (items.forM act) (items.flatMap xs) := by
  induction items with
  | nil => exact notes_pure
  | cons a items ih => exact (h a).bind ih

/-- Whether a namespace has a block of its own makes no difference to the types in it. -/
theorem notes_passOverSpace (space : String) (types : List Descriptor) :
    Notes (passOverSpace (fun _ => pure ()) (pure ()) note space types)
      (types.filter Descriptor.isDeclared) := by
  have heach : ∀ x, Notes (note x) [x] := fun _ _ => rfl
  have htypes : ∀ types : List Descriptor, Notes (types.forM note) types := by
    intro types
    simpa using notes_forM heach types
  rw [passOverSpace]
  split
  · next hnone =>
    rw [List.isEmpty_iff.mp hnone]
    exact notes_pure
  · split
    · exact htypes _
    · simpa only [List.nil_append, List.append_nil] using
        notes_pure.bind ((htypes _).bind notes_pure)

theorem visited_eq_declared (g : TypeGraph) (root : String) : g.visited root = g.declared := by
  have hloop := notes_pure.bind ((notes_forM (fun group : String × List Descriptor =>
    notes_passOverSpace group.1 group.2) g.byNamespace).bind notes_pure)
  have hpass : Notes (passOver (fun _ => pure ()) (pure ()) note g root) g.declared := by
    rw [List.nil_append, List.append_nil] at hloop
    rw [declared_eq_filter, listedTypes, List.filter_flatMap]
    exact hloop
  rw [visited, hpass, List.nil_append]

end TypeGraph

namespace TypeGraph

variable {g : TypeGraph} {config : Config}

theorem listing_eq_join (g : TypeGraph) :
    g.listing = String.join (g.listedEntries.map fun e => e.text ++ "\n") := by
  rw [listing, listedEntries, List.map_map]
  rfl

theorem type_listedEntries (g : TypeGraph) :
    g.listedEntries.map ListingEntry.type = g.listedTypes := by
  rw [listedEntries, List.map_map]
  exact List.map_id _

theorem type_openEntries (g : TypeGraph) : g.openEntries.map ListingEntry.type = g.declared := by
  rw [openEntries, listedEntries, List.filter_map, List.map_map, declared_eq_filter]
  exact List.map_id _

theorem Indexed.listedTypes_perm (h : g.Indexed) (hs : g.Screened) :
    g.listedTypes.Perm g.descriptors.toList := by
  have hall : g.descriptors.toList.Nodup := List.Nodup.of_map _ h.fullNames_nodup
  refine (List.perm_ext_iff_of_nodup h.nodup_listedTypes hall).mpr fun x => ?_
  rw [mem_listedTypes_iff, Array.mem_toList_iff]
  exact ⟨And.left, fun hx => ⟨hx, hs.isNested_eq_false hx⟩⟩

theorem mem_openEntries_iff {e : ListingEntry} :
    e ∈ g.openEntries ↔ e ∈ g.listedEntries ∧ e.note = none := by
  rw [openEntries, List.mem_filter, Option.isNone_iff_eq_none]

theorem note_of_mem_listedEntries {e : ListingEntry} (h : e ∈ g.listedEntries) :
    e.note = e.type.skipReason? := by
  obtain ⟨x, -, rfl⟩ := List.mem_map.mp h
  rfl

/-- A listing has one entry for each admitted type. The pass that writes the text of a graph comes
to the types of the entries without a note, in order, and to no other; the lines of that text that
open the block of a type are theirs, in order, each with the keyword of the entry. -/
theorem listing_predicts_blocks (src : Source) (ops : List Operation) (config : Config) :
    let g := empty.applyAll src ops
    let ls := (g.document config).nested config.root
    g.listing = String.join (g.listedEntries.map fun e => e.text ++ "\n") ∧
      (g.listedEntries.map ListingEntry.type).Perm g.descriptors.toList ∧
      g.emit config = (if config.header then banner ++ "\n\n" else "") ++
        String.join (ls.map (Line.render config.indent)) ∧
      (g.write config).run ⟨config.indent, 0, ""⟩ = some ((), ⟨config.indent, 0, g.emit config⟩) ∧
      g.writeRoot config =
        passOver Writing.opening Writing.closing (g.writeType config) g config.root ∧
      g.visited config.root = g.openEntries.map ListingEntry.type ∧
      ls.filter Line.opensType = g.openEntries.map (fun e =>
        ⟨if e.type.space = "" then 1 else 2, e.keyword ++ " " ++ e.type.displayName ++
          (g.block config e.type).suffixText config.root ++ " \x7b"⟩) ∧
      ∀ e ∈ g.listedEntries, e.note ≠ none → e.type ∉ g.visited config.root := by
  intro g ls
  have hvisited : g.visited config.root = g.openEntries.map ListingEntry.type :=
    (g.visited_eq_declared _).trans g.type_openEntries.symm
  refine ⟨g.listing_eq_join, ?_, ?_, g.run_write config, rfl, hvisited, ?_, ?_⟩
  · rw [type_listedEntries]
    exact (linked_applyAll src ops).listedTypes_perm (screened_applyAll src ops)
  · rw [emit, Document.text, Document.lines_eq_nested]
  · rw [Document.filter_nested, placed_document, List.map_map, ← type_openEntries, List.map_map]
    refine List.map_congr_left fun e he => ?_
    obtain ⟨x, -, rfl⟩ := List.mem_map.mp (mem_openEntries_iff.mp he).1
    rfl
  · intro e he hnote hmem
    rw [hvisited] at hmem
    obtain ⟨e', he', htype⟩ := List.mem_map.mp hmem
    obtain ⟨hlisted, hnone⟩ := mem_openEntries_iff.mp he'
    rw [note_of_mem_listedEntries hlisted, htype, ← note_of_mem_listedEntries he] at hnone
    exact hnote hnone

end TypeGraph

end Typings
