import MarkSweep.Roots
/-!
# Visits that only read

A visit sees the root slots in the order of `Roots.enumerate`, and where each slot keeps what it holds, the roots are
what they were (`Roots.visit_read`).
-/
namespace MarkSweep
namespace Roots

variable {σ : Type}

/-- What a visit does to slots it only reads. -/
def reading (f : σ → Reference → σ) (state : σ) (x : Reference) : σ × Nat := (f state x, x.content)

theorem visitSlots_read (f : σ → Reference → σ) {width : Nat → Reference} (hwidth : ∀ n, (width n).content = n)
    (state : σ) (slots : Array Nat) :
    visitSlots (reading f) width state slots = ((slots.toList.map width).foldl f state, slots) := by
  have hfold : ∀ (l : List Nat) (state : σ) (done : Array Nat),
      l.foldl (fun p x => ((reading f p.1 (width x)).1, p.2.push (reading f p.1 (width x)).2)) (state, done) =
        ((l.map width).foldl f state, done ++ l.toArray) := by
    intro l
    induction l with
    | nil => intro state done; simp
    | cons x l ih =>
      intro state done
      rw [List.foldl_cons, ih, List.map_cons, List.foldl_cons]
      simp [reading, hwidth]
  rw [visitSlots, ← Array.foldl_toList]
  simpa using hfold slots.toList state #[]

theorem setIfInBounds_self {α : Type} (xs : Array α) (i : Nat) (default : α) :
    xs.setIfInBounds i (xs[i]?.getD default) = xs := by
  apply Array.ext_getElem?
  intro j
  by_cases h : i = j <;> by_cases hj : j < xs.size <;> simp_all

theorem visitSource_read (f : σ → Reference → σ) (state : σ) (r : Roots) (s : RootSource) :
    visitSource (reading f) state r s = ((r.references s).foldl f state, r) := by
  cases s with
  | table id =>
    rw [visitSource, visitSlots_read f fun _ => rfl]
    simp only [setTable, table, setIfInBounds_self]
    rfl
  | slots id =>
    rw [visitSource]
    simp only [visitSlots_read f (fun _ => rfl : ∀ n, (Reference.wide n).content = n),
      visitSlots_read f (fun _ => rfl : ∀ n, (Reference.narrow n).content = n)]
    simp only [references, RootSlots.references, List.foldl_append]
    refine Prod.ext rfl ?_
    exact congrArg (fun fixed => Roots.mk r.tables fixed r.sources) (setIfInBounds_self r.fixed id RootSlots.empty)

theorem visitSources_read (f : σ → Reference → σ) (r : Roots) : ∀ (l : List (RootKind × RootSource)) (state : σ),
    l.foldl (fun p s => visitSource (reading f) p.1 p.2 s.2) (state, r) =
      ((l.flatMap fun s => r.references s.2).foldl f state, r)
  | [], _ => rfl
  | s :: l, state => by
    rw [List.foldl_cons, visitSource_read, visitSources_read f r l, List.flatMap_cons, List.foldl_append]

/-- What a visit does to the sources of one kind. -/
def visitKind (visit : σ → Reference → σ × Nat) (p : σ × Roots × List Address) (kind : RootKind) :
    σ × Roots × List Address :=
  let q := (p.2.1.sources.filter (·.1 == kind)).foldl (fun q s => visitSource visit q.1 q.2 s.2) (p.1, p.2.1)
  if kind = .threads then
    let v := visitSlots visit .wide q.1 p.2.2.toArray
    (v.1, q.2, v.2.toList)
  else (q.1, q.2, p.2.2)

/-- The slots of one kind, in visiting order. -/
def enumerateKind (r : Roots) (threadRoots : List Address) (kind : RootKind) : List Reference :=
  (r.sources.filter (·.1 == kind)).flatMap (fun s => r.references s.2) ++
    if kind = .threads then threadRoots.map .wide else []

theorem visitKind_read (f : σ → Reference → σ) (state : σ) (r : Roots) (threadRoots : List Address) (kind : RootKind) :
    visitKind (reading f) (state, r, threadRoots) kind =
      ((r.enumerateKind threadRoots kind).foldl f state, r, threadRoots) := by
  rw [visitKind, enumerateKind, List.foldl_append]
  simp only [visitSources_read]
  split
  · rw [visitSlots_read f fun _ => rfl]
  · rfl

/-- **A visit that only reads goes through the enumerated slots in order and leaves all of them as they are.** -/
theorem visit_read (f : σ → Reference → σ) (state : σ) (r : Roots) (threadRoots : List Address) :
    visit (reading f) state r threadRoots = ((r.enumerate threadRoots).foldl f state, r, threadRoots) := by
  have hfold : ∀ (kinds : List RootKind) (state : σ), kinds.foldl (visitKind (reading f)) (state, r, threadRoots) =
      ((kinds.flatMap (r.enumerateKind threadRoots)).foldl f state, r, threadRoots) := by
    intro kinds
    induction kinds with
    | nil => exact fun _ => rfl
    | cons kind kinds ih =>
      intro state
      rw [List.foldl_cons, visitKind_read, ih, List.flatMap_cons, List.foldl_append]
  exact hfold RootKind.order state

end Roots
end MarkSweep
