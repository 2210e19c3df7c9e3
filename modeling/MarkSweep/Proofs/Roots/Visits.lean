import MarkSweep.Proofs.Roots.Places
/-!
# Visits to the roots

What the tables and the other sources keep is compared with what their slots hold, place by place: an update of a table
changes what one source holds, and a visit touches every place once (`Roots.visit_view`).
-/
namespace MarkSweep
namespace Roots

variable {σ : Type} {r r' : Roots} {threadRoots : List Address}

/-! ## What updates leave -/

theorem getD_setIfInBounds {α : Type} {xs : Array α} {i : Nat} {v default : α} (h : i < xs.size ∨ v = default) (j : Nat) :
    (xs.setIfInBounds i v)[j]?.getD default = if i = j then v else xs[j]?.getD default := by
  rw [Array.getElem?_setIfInBounds]
  by_cases hij : i = j
  · rw [if_pos hij, if_pos hij]
    by_cases hlt : i < xs.size
    · rw [if_pos hlt]
      rfl
    · rw [if_neg hlt, h.resolve_left hlt]
      rfl
  · rw [if_neg hij, if_neg hij]

theorem getD_modify {α : Type} {xs : Array α} {i : Nat} (default : α) (h : i < xs.size) (f : α → α) (j : Nat) :
    (xs.modify i f)[j]?.getD default = if i = j then f (xs[i]?.getD default) else xs[j]?.getD default := by
  rw [Array.getElem?_modify]
  by_cases hij : i = j
  · subst hij
    rw [if_pos rfl, if_pos rfl, Array.getElem?_eq_getElem h]
    rfl
  · rw [if_neg hij, if_neg hij]

theorem references_of_tables {tables : Array HandleTable} {id : TableId} {t : HandleTable}
    (h : ∀ j, tables[j]?.getD #[] = if id = j then t else r.table j) :
    ({ r with tables } : Roots).references = Function.update r.references (.table id) (t.toList.map .wide) := by
  funext s
  cases s with
  | table j =>
    show (tables[j]?.getD #[]).toList.map Reference.wide = _
    rw [h, Function.update_apply]
    by_cases hj : id = j
    · rw [if_pos hj, if_pos (by rw [hj])]
    · rw [if_neg hj, if_neg fun he => hj (RootSource.table.inj he).symm]
      rfl
  | slots j => rw [Function.update_of_ne (by simp)]; rfl

theorem references_setTable {id : TableId} {t : HandleTable} (h : id < r.tables.size ∨ t = #[]) :
    (r.setTable id t).references = Function.update r.references (.table id) (t.toList.map .wide) :=
  references_of_tables (getD_setIfInBounds h)

theorem references_modify {id : TableId} (h : id < r.tables.size) (f : HandleTable → HandleTable) :
    ({ r with tables := r.tables.modify id f } : Roots).references =
      Function.update r.references (.table id) ((f (r.table id)).toList.map .wide) :=
  references_of_tables (getD_modify #[] h f)

theorem references_of_fixed {fixed : Array RootSlots} {id : Nat} {l : RootSlots}
    (h : ∀ j, fixed[j]?.getD .empty = if id = j then l else r.fixed[j]?.getD .empty) (sources) :
    ({ r with fixed, sources } : Roots).references = Function.update r.references (.slots id) l.references := by
  funext s
  cases s with
  | table j => rw [Function.update_of_ne (by simp)]; rfl
  | slots j =>
    show (fixed[j]?.getD .empty).references = _
    rw [h, Function.update_apply]
    by_cases hj : id = j
    · rw [if_pos hj, if_pos (by rw [hj])]
    · rw [if_neg hj, if_neg fun he => hj (RootSource.slots.inj he).symm]
      rfl

theorem contents_of_references {s : RootSource} {l : List Reference}
    (h : r'.references = Function.update r.references s l) :
    r'.contents threadRoots = Function.update (r.contents threadRoots) (.source s) l := by
  funext o
  cases o with
  | source t =>
    show r'.references t = _
    rw [h, Function.update_apply, Function.update_apply]
    simp only [RootOwner.source.injEq]
    rfl
  | threads => rw [Function.update_of_ne (by simp)]; rfl

theorem contents_threads (r : Roots) (threadRoots after : List Address) :
    r.contents after = Function.update (r.contents threadRoots) .threads (after.map .wide) := by
  funext o
  cases o with
  | source t => rw [Function.update_of_ne (by simp)]; rfl
  | threads => rw [Function.update_self]; rfl

/-! ## What a visit does to the roots -/

/-- The same sources, and as many tables and other lists of slots. -/
structure SameShape (r r' : Roots) : Prop where
  sources : r'.sources = r.sources
  tables : r'.tables.size = r.tables.size
  fixed : r'.fixed.size = r.fixed.size

theorem SameShape.refl (r : Roots) : r.SameShape r := ⟨rfl, rfl, rfl⟩

theorem SameShape.trans {r₁ r₂ r₃ : Roots} (h : r₁.SameShape r₂) (h' : r₂.SameShape r₃) : r₁.SameShape r₃ :=
  ⟨h'.sources.trans h.sources, h'.tables.trans h.tables, h'.fixed.trans h.fixed⟩

/-- What a visit has come to: the state of the visitor, and what all slots hold. -/
def view (v : σ × Roots × List Address) : σ × (RootOwner → List Reference) := (v.1, v.2.1.contents v.2.2)

theorem visitSlots_eq (visitor : σ → Reference → σ × Nat) (width : Nat → Reference)
    (hwidth : ∀ m n, (width m).refill n = width n) (state : σ) (slots : Array Nat) :
    visitList visitor state (slots.toList.map width) =
      ((visitSlots visitor width state slots).1, (visitSlots visitor width state slots).2.toList.map width) := by
  have hfold : ∀ (l : List Nat) (state : σ) (done : Array Nat),
      let p := l.foldl (fun p x => ((visitor p.1 (width x)).1, p.2.push (visitor p.1 (width x)).2)) (state, done)
      (p.1, p.2.toList.map width) = ((visitList visitor state (l.map width)).1,
        done.toList.map width ++ (visitList visitor state (l.map width)).2) := by
    intro l
    induction l with
    | nil => exact fun _ _ => Prod.ext rfl (List.append_nil _).symm
    | cons x l ih =>
      intro state done
      refine (ih (visitor state (width x)).1 (done.push (visitor state (width x)).2)).trans ?_
      rw [Array.toList_push, List.map_append, List.map_singleton, List.append_assoc, List.map_cons, visitList, hwidth]
      rfl
  rw [visitSlots, ← Array.foldl_toList]
  exact (hfold slots.toList state #[]).symm

theorem visitSource_spec (visitor : σ → Reference → σ × Nat) (state : σ) (r : Roots) (s : RootSource) :
    (visitSource visitor state r s).1 = (visitList visitor state (r.references s)).1 ∧
      (visitSource visitor state r s).2.references =
        Function.update r.references s (visitList visitor state (r.references s)).2 ∧
      r.SameShape (visitSource visitor state r s).2 := by
  have hwide (state : σ) (slots : Array Nat) := visitSlots_eq visitor .wide (fun _ _ => rfl) state slots
  have hnarrow (state : σ) (slots : Array Nat) := visitSlots_eq visitor .narrow (fun _ _ => rfl) state slots
  cases s with
  | table id =>
    have hin : id < r.tables.size ∨ (visitSlots visitor .wide state (r.table id)).2 = #[] := by
      refine (Nat.lt_or_ge id r.tables.size).imp_right fun hge => ?_
      rw [table, Array.getElem?_eq_none hge]
      rfl
    simp only [references, hwide]
    exact ⟨rfl, references_setTable hin, rfl, Array.size_setIfInBounds, rfl⟩
  | slots id =>
    have hin (l : RootSlots) (h : r.fixed[id]?.getD .empty = .empty → l = .empty) : id < r.fixed.size ∨ l = .empty := by
      refine (Nat.lt_or_ge id r.fixed.size).imp_right fun hge => h ?_
      rw [Array.getElem?_eq_none hge]
      rfl
    simp only [references, RootSlots.references, visitList_append, hwide, hnarrow]
    refine ⟨rfl, references_of_fixed (getD_setIfInBounds (hin _ ?_)) r.sources, rfl, rfl, Array.size_setIfInBounds⟩
    intro hempty
    rw [hempty]
    rfl

theorem visitOwner_source (visitor : σ → Reference → σ × Nat) (state : σ) (r : Roots) (threadRoots : List Address)
    (s : RootSource) : visitOwner visitor (view (state, r, threadRoots)) (.source s) =
      view ((visitSource visitor state r s).1, (visitSource visitor state r s).2, threadRoots) := by
  obtain ⟨hstate, hreferences, -⟩ := visitSource_spec visitor state r s
  exact Prod.ext hstate.symm (contents_of_references hreferences).symm

theorem visitOwner_threads (visitor : σ → Reference → σ × Nat) (state : σ) (r : Roots) (threadRoots : List Address) :
    visitOwner visitor (view (state, r, threadRoots)) .threads =
      view ((visitSlots visitor .wide state threadRoots.toArray).1, r,
        (visitSlots visitor .wide state threadRoots.toArray).2.toList) := by
  have hslots := visitSlots_eq visitor .wide (fun _ _ => rfl) state threadRoots.toArray
  have hstate : (visitList visitor state (threadRoots.map .wide)).1 =
      (visitSlots visitor .wide state threadRoots.toArray).1 := congrArg Prod.fst hslots
  refine Prod.ext hstate (Eq.trans ?_ (contents_threads r threadRoots _).symm)
  exact congrArg (Function.update (r.contents threadRoots) .threads) (congrArg Prod.snd hslots)

theorem foldl_visitSource (visitor : σ → Reference → σ × Nat) (threadRoots : List Address) :
    ∀ (l : List (RootKind × RootSource)) (state : σ) (r : Roots),
      let v := l.foldl (fun v s => visitSource visitor v.1 v.2 s.2) (state, r)
      (l.map fun s => RootOwner.source s.2).foldl (visitOwner visitor) (view (state, r, threadRoots)) =
        view (v.1, v.2, threadRoots) ∧ r.SameShape v.2
  | [], _, r => ⟨rfl, .refl r⟩
  | s :: l, state, r => by
    obtain ⟨heq, hshape⟩ := foldl_visitSource visitor threadRoots l (visitSource visitor state r s.2).1
      (visitSource visitor state r s.2).2
    refine ⟨?_, (visitSource_spec visitor state r s.2).2.2.trans hshape⟩
    rw [List.map_cons, List.foldl_cons, visitOwner_source]
    exact heq

/-- The slots of one kind belong to its sources, and with the last kind to the threads. -/
def ownersOf (sources : List (RootKind × RootSource)) (kind : RootKind) : List RootOwner :=
  (sources.filter (·.1 == kind)).map (fun s => .source s.2) ++ if kind = .threads then [.threads] else []

theorem owners_eq (sources : List (RootKind × RootSource)) :
    owners sources = RootKind.order.flatMap (ownersOf sources) := by
  simp [owners, agenda, RootKind.order, ownersOf]

theorem enumerate_eq (r : Roots) (threadRoots : List Address) :
    r.enumerate threadRoots = (owners r.sources).flatMap (r.contents threadRoots) := by
  simp [enumerate, owners, agenda, RootKind.order, contents, List.flatMap_map]

theorem visitKind_view (visitor : σ → Reference → σ × Nat) (v : σ × Roots × List Address) (kind : RootKind) :
    (ownersOf v.2.1.sources kind).foldl (visitOwner visitor) (view v) = view (visitKind visitor v kind) ∧
      v.2.1.SameShape (visitKind visitor v kind).2.1 := by
  obtain ⟨state, r, threadRoots⟩ := v
  obtain ⟨heq, hshape⟩ := foldl_visitSource visitor threadRoots (r.sources.filter (·.1 == kind)) state r
  unfold visitKind ownersOf
  rw [List.foldl_append, heq]
  by_cases hkind : kind = .threads
  · simp only [hkind, if_true] at hshape ⊢
    exact ⟨visitOwner_threads visitor _ _ threadRoots, hshape⟩
  · simp only [if_neg hkind] at hshape ⊢
    exact ⟨rfl, hshape⟩

/-- **A visit touches every place once**, in the order of the owners. -/
theorem visit_view (visitor : σ → Reference → σ × Nat) (state : σ) (r : Roots) (threadRoots : List Address) :
    view (visit visitor state r threadRoots) =
      (places (r.contents threadRoots) (owners r.sources)).foldl (touch visitor) (state, r.contents threadRoots) ∧
    r.SameShape (visit visitor state r threadRoots).2.1 := by
  have hfold : ∀ (kinds : List RootKind) (v : σ × Roots × List Address),
      view (kinds.foldl (visitKind visitor) v) =
        (kinds.flatMap (ownersOf v.2.1.sources)).foldl (visitOwner visitor) (view v) ∧
      v.2.1.SameShape (kinds.foldl (visitKind visitor) v).2.1 := by
    intro kinds
    induction kinds with
    | nil => exact fun v => ⟨rfl, .refl _⟩
    | cons kind kinds ih =>
      intro v
      obtain ⟨hkind, hshape⟩ := visitKind_view visitor v kind
      obtain ⟨heq, hshape'⟩ := ih (visitKind visitor v kind)
      refine ⟨?_, hshape.trans hshape'⟩
      rw [List.foldl_cons, heq, List.flatMap_cons, List.foldl_append, hkind, hshape.sources]
  obtain ⟨heq, hshape⟩ := hfold RootKind.order (state, r, threadRoots)
  refine ⟨?_, hshape⟩
  rw [foldl_touch_places visitor (owners r.sources) (state, r.contents threadRoots), owners_eq]
  exact heq

end Roots
end MarkSweep
