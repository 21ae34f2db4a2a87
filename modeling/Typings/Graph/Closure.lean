import Typings.Graph.Admission

/-!
Closure over the public surface. A type is admitted when it is first met and expanded later, the
last admitted one first: expansion offers every type named in the signature of a public method and
then the base type. The closure ends because each admission makes one more definition of the source
known to the graph, and between two admissions the list of types to expand gets shorter.
-/

namespace Typings

namespace TypeDef

/-- The return and parameter types of the public methods. -/
def surface (d : TypeDef) : List TypeRef :=
  (d.methods.filter MethodDef.isPublic).flatMap fun m => m.returns :: m.params.map ParamDef.type

/-- The references that expansion offers: the surface without the type itself, then the base. -/
def offers (d : TypeDef) : List TypeRef :=
  (d.surface.filter fun ty => ty.name? ≠ some d.fullName) ++ d.base.toList

end TypeDef

/-- A graph with the admitted definitions that are yet to be expanded, the next one first. -/
structure Frontier where
  graph : TypeGraph
  pending : List TypeDef

namespace Frontier

/-- Admits a definition reached with the given generic arguments, unless it is rejected. -/
def offerDef (f : Frontier) (d : TypeDef) (args : List TypeRef) : Frontier :=
  match f.graph.rejection? d args with
  | none => ⟨f.graph.insert d, d :: f.pending⟩
  | some _ => f

/-- Admits the type behind a reference, unless it is rejected. -/
def offer (src : Source) (f : Frontier) (ty : TypeRef) : Frontier :=
  match f.graph.resolve src ty with
  | .ok d => f.offerDef d ty.args
  | .error _ => f

def expand (src : Source) (f : Frontier) (d : TypeDef) : Frontier := d.offers.foldl (offer src) f

/-- The number of the source's definitions whose full names are not in the graph. -/
def unseen (src : Source) (f : Frontier) : Nat :=
  src.definitions.countP fun d => !f.graph.contains d.fullName

theorem countP_lt_of_imp {α : Type} {p q : α → Bool} {l : List α} {a : α}
    (hpq : ∀ x ∈ l, p x = true → q x = true) (ha : a ∈ l) (hp : p a = false) (hq : q a = true) :
    l.countP p < l.countP q := by
  induction l with
  | nil => cases ha
  | cons x l ih =>
    have hle : l.countP p ≤ l.countP q :=
      List.countP_mono_left fun y hy => hpq y (List.mem_cons_of_mem _ hy)
    rw [List.countP_cons, List.countP_cons]
    rcases List.mem_cons.mp ha with rfl | ha
    · simp only [hp, hq, Bool.false_eq_true, if_false, if_true]; omega
    · have hlt := ih (fun y hy => hpq y (List.mem_cons_of_mem _ hy)) ha
      have hx : (if p x then 1 else 0) ≤ if q x then 1 else 0 := by
        split
        · next hpx => simp [hpq x (List.mem_cons_self ..) hpx]
        · exact Nat.zero_le _
      omega

theorem unseen_insert_lt {src : Source} {g : TypeGraph} {d : TypeDef}
    {pending pending' : List TypeDef} (hd : d ∈ src.definitions)
    (hg : g.contains d.fullName = false) :
    unseen src ⟨g.insert d, pending'⟩ < unseen src ⟨g, pending⟩ := by
  refine countP_lt_of_imp (a := d) ?_ hd ?_ ?_
  · intro x _ hx
    simp only [TypeGraph.contains_insert, Bool.not_eq_true', Bool.or_eq_false_iff] at hx ⊢
    exact hx.2
  · simp [TypeGraph.contains_insert]
  · simp [hg]

/-- An offer changes nothing or makes one more definition known. -/
theorem offer_eq_or_lt (src : Source) (f : Frontier) (ty : TypeRef) :
    offer src f ty = f ∨ unseen src (offer src f ty) < unseen src f := by
  unfold offer
  split
  · next d hr =>
    obtain ⟨name, -, hd⟩ := TypeGraph.resolve_eq_ok hr
    unfold offerDef
    split
    · next hn =>
      have hnew := TypeGraph.not_contains_of_rejection? hn
      exact .inr (unseen_insert_lt (src.mem_definitions hd) hnew)
    · exact .inl rfl
  · exact .inl rfl

theorem foldl_offer_eq_or_lt (src : Source) (f : Frontier) (tys : List TypeRef) :
    tys.foldl (offer src) f = f ∨ unseen src (tys.foldl (offer src) f) < unseen src f := by
  induction tys generalizing f with
  | nil => exact .inl rfl
  | cons ty tys ih =>
    rw [List.foldl_cons]
    rcases offer_eq_or_lt src f ty with h | h
    · rw [h]; exact ih f
    · rcases ih (offer src f ty) with h' | h'
      · rw [h']; exact .inr h
      · exact .inr (Nat.lt_trans h' h)

end Frontier

/-- What a closure ends in: the graph, and the definitions that were expanded, in order. -/
structure Closure where
  graph : TypeGraph
  expanded : List TypeDef

namespace Frontier

/-- Expands pending definitions until none is left. -/
def close (src : Source) (f : Frontier) : Closure :=
  match _h : f.pending with
  | [] => ⟨f.graph, []⟩
  | d :: pending =>
    let rest := close src (expand src { f with pending } d)
    { rest with expanded := d :: rest.expanded }
termination_by (unseen src f, f.pending.length)
decreasing_by
  have hsame : unseen src { f with pending } = unseen src f := rfl
  rcases foldl_offer_eq_or_lt src { f with pending } d.offers with h | h
  · rw [expand, h, hsame]
    exact .right _ (by rw [_h]; simp)
  · exact .left _ _ (by rw [expand, ← hsame]; exact h)

def closeLinked (src : Source) (f : Frontier) : Closure :=
  let closure := f.close src
  { closure with graph := closure.graph.linkBases }

end Frontier

end Typings
