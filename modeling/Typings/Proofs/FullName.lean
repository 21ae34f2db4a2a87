import Typings.Proofs.Graph.Reachability
import Typings.Proofs.TypeRef.Grammar

/-! # Full names tell types apart

A full name is a name behind what the type stands in: an enclosing type and a plus, a namespace and
a dot, or nothing. Enclosing types and namespaces may hold any characters, dots and pluses among
them, so a full name is taken apart from its end. A name without dots and pluses reaches back to the
last of them, which is the one that was put in front of it, and that one tells an enclosing type
from a namespace.
-/
namespace Typings

/-- What a type stands in. -/
inductive Owner where
  | type (fullName : String)
  | space (name : String)

namespace Owner

/-- What a full name puts in front of the name; the global namespace is not named. -/
def chars : Owner → List Char
  | .type fullName => fullName.toList ++ ['+']
  | .space name => if name.isEmpty then [] else name.toList ++ ['.']

/-- The characters that a full name puts in front of a name. -/
def isSeparator (c : Char) : Bool := c = '.' || c = '+'

/-- An owner ends in a separator. -/
theorem isSeparator_of_mem (s : Owner) : ∀ c ∈ s.chars.reverse.head?, isSeparator c = true := by
  intro c hc
  cases s with
  | type fullName =>
    rw [chars, List.reverse_concat] at hc
    cases hc
    rfl
  | space name =>
    rw [chars] at hc
    split at hc
    · cases hc
    · rw [List.reverse_concat] at hc
      cases hc
      rfl

theorem type_ne_space (outer name : String) : (type outer).chars ≠ (space name).chars := by
  intro h
  have hlast := congrArg List.getLast? h
  simp only [chars] at hlast
  split at hlast <;> simp at hlast

theorem chars_injective : Function.Injective chars := by
  intro s t h
  cases s with
  | type outer =>
    cases t with
    | type outer' => rw [String.toList_inj.mp (List.append_cancel_right h)]
    | space name => exact absurd h (type_ne_space outer name)
  | space name =>
    cases t with
    | type outer => exact absurd h.symm (type_ne_space outer name)
    | space name' =>
      simp only [chars] at h
      split at h <;> split at h
      · next hs ht => rw [String.isEmpty_iff.mp hs, String.isEmpty_iff.mp ht]
      · simp at h
      · simp at h
      · rw [String.toList_inj.mp (List.append_cancel_right h)]

end Owner

namespace TypeDef

variable {d e : TypeDef}

def owner (d : TypeDef) : Owner :=
  match d.declaringType with
  | some outer => .type outer
  | none => .space d.space

/-- Both types are nested in one type, or neither is nested and both are in one namespace. -/
def SameOwner (d e : TypeDef) : Prop :=
  (∃ outer, d.declaringType = some outer ∧ e.declaringType = some outer) ∨
    (d.isNested = false ∧ e.isNested = false ∧ d.space = e.space)

/-- The name holds neither a dot nor a plus. -/
def IsSimple (d : TypeDef) : Prop := '.' ∉ d.name.toList ∧ '+' ∉ d.name.toList

instance (d : TypeDef) : Decidable d.IsSimple :=
  inferInstanceAs (Decidable ('.' ∉ d.name.toList ∧ '+' ∉ d.name.toList))

theorem owner_eq_iff : d.owner = e.owner ↔ d.SameOwner e := by
  unfold owner SameOwner isNested
  cases d.declaringType <;> cases e.declaringType <;> simp [eq_comm]

theorem toList_fullName (d : TypeDef) : d.fullName.toList = d.owner.chars ++ d.name.toList := by
  unfold fullName owner
  cases d.declaringType with
  | some outer => simp [Owner.chars]
  | none =>
    dsimp only [Owner.chars]
    split <;> simp

theorem IsSimple.not_isSeparator (h : d.IsSimple) :
    ∀ c ∈ d.name.toList, Owner.isSeparator c = false := by
  intro c hc
  have hdot : c ≠ '.' := fun he => h.1 (he ▸ hc)
  have hplus : c ≠ '+' := fun he => h.2 (he ▸ hc)
  simp [Owner.isSeparator, hdot, hplus]

/-- Read backwards, a full name is the name up to the first separator, and then the owner. -/
theorem fullName_eq_iff (hd : d.IsSimple) (he : e.IsSimple) :
    d.fullName = e.fullName ↔ d.name = e.name ∧ d.SameOwner e := by
  rw [← owner_eq_iff]
  constructor
  · intro h
    have hchars := congrArg (fun s => s.toList.reverse) h
    simp only [toList_fullName, List.reverse_append] at hchars
    obtain ⟨hname, howner⟩ := TypeRef.run_eq_of_append_eq (P := fun c => !Owner.isSeparator c)
      (fun c hc => by simp [hd.not_isSeparator c (List.mem_reverse.mp hc)])
      (fun c hc => by simp [he.not_isSeparator c (List.mem_reverse.mp hc)])
      (fun c hc => by simp [d.owner.isSeparator_of_mem c hc])
      (fun c hc => by simp [e.owner.isSeparator_of_mem c hc]) hchars
    exact ⟨String.toList_inj.mp (List.reverse_inj.mp hname),
      Owner.chars_injective (List.reverse_inj.mp howner)⟩
  · intro h
    rw [← String.toList_inj, toList_fullName, toList_fullName, h.1, h.2]

-- A name with a dot can take it over from a namespace.
example : ({ space := "A", name := "B.C" } : TypeDef).fullName =
    ({ space := "A.B", name := "C" } : TypeDef).fullName := by
  decide

/-- Among simple names, one full name is one name and one owner, whatever characters namespaces and
enclosing types hold. So a graph of such types turns a definition away as already present exactly
when it has a type of that name and owner. -/
theorem fullName_identifies (hd : d.IsSimple) :
    (∀ e : TypeDef, e.IsSimple → (d.fullName = e.fullName ↔ d.name = e.name ∧ d.SameOwner e)) ∧
      ∀ (src : Source) (ops : List Operation) (args : List TypeRef),
        let g := TypeGraph.empty.applyAll src ops
        (∀ e ∈ g.definitions, e.IsSimple) →
          (g.rejection? d args = some .alreadyPresent ↔
            d.fullName ≠ rootType ∧ ∃ e ∈ g.definitions, d.name = e.name ∧ d.SameOwner e) := by
  refine ⟨fun e he => fullName_eq_iff hd he, ?_⟩
  intro src ops args g hg
  have h : g.Indexed := (TypeGraph.linked_applyAll src ops).toIndexed
  have hcontains : g.contains d.fullName = true ↔
      ∃ e ∈ g.definitions, d.name = e.name ∧ d.SameOwner e := by
    rw [h.contains_iff_mem]
    refine exists_congr fun e => and_congr_right fun he => ?_
    rw [eq_comm, fullName_eq_iff hd (hg e he)]
  rw [TypeGraph.rejection?_eq_alreadyPresent_iff, hcontains]

/-- Dots and pluses in what types stand in: a namespace and an enclosing type of one text. -/
theorem namespace_and_enclosing_type_differ :
    let top : TypeDef := { space := "A.B+C", name := "D" }
    let nested : TypeDef := { name := "D", declaringType := some "A.B+C" }
    let set := MetadataSet.ofAssemblies [{ name := "A", types := [top, nested] }]
    let g := TypeGraph.empty.applyAll set.source [.seed (.assembly "A")]
    top.IsSimple ∧ nested.IsSimple ∧ (∀ e ∈ g.definitions, e.IsSimple) ∧
      (top.fullName = nested.fullName ↔ top.name = nested.name ∧ top.SameOwner nested) ∧
      (g.rejection? top [] = some .alreadyPresent ↔
        top.fullName ≠ rootType ∧ ∃ e ∈ g.definitions, top.name = e.name ∧ top.SameOwner e) := by
  intro top nested set g
  have htop : top.IsSimple := by decide
  have hnested : nested.IsSimple := by decide
  have hgrown : g.GrownFrom set.source _ :=
    TypeGraph.grownFrom_applyAll (MetadataSet.faithful_source _) _
  have hall : ∀ e ∈ g.definitions, e.IsSimple := by
    intro e he
    have hset : set.definitions = [top, nested] := rfl
    have hmem := hset ▸ hgrown.definitions_subset he
    rcases List.mem_pair.mp hmem with rfl | rfl
    · exact htop
    · exact hnested
  obtain ⟨hnames, hgraph⟩ := fullName_identifies htop
  exact ⟨htop, hnested, hall, hnames nested hnested, hgraph _ _ [] hall⟩

end TypeDef

end Typings
