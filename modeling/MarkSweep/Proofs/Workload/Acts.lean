import MarkSweep.Proofs.Workload.Stock
/-!
# Every act of a worker keeps the heap stocked

`Crew.Inv` ties the workers to the mutators: every worker at work has one, which holds its window, and every mutator belongs
to such a worker.  No act of a worker ever faults, and each keeps the invariant (`Inv.act`).
-/
namespace MarkSweep

open Heap

variable {o : Workload} {w w' : Worker} {m m' : Memory} {e e' : NarrowEncoding} {s : RootSlots} {stage : Stage}

/-- What the slots of a worker hold at a stage: once it is leaving, nothing. -/
def Worker.HoldsAt (w : Worker) (m : Memory) (e : NarrowEncoding) (s : RootSlots) : Stage → Prop
  | .leaving p => p ≠ .working ∧ s = .empty
  | _ => w.Holds m e s

/-- The worker has not given up what it holds. -/
def Stage.Holds : Stage → Prop
  | .leaving _ => False
  | _ => True

theorem Worker.holdsAt_iff (h : stage.Holds) : w.HoldsAt m e s stage ↔ w.Holds m e s := by
  cases stage with
  | leaving p => exact h.elim
  | _ => exact .rfl

theorem Worker.HoldsAt.congr (h : w.HoldsAt m e s stage) (hleaf : ∀ x ∈ s.wide, x ≠ 0 → Leaf m e x → Leaf m' e' x) :
    w.HoldsAt m' e' s stage := by
  have hwindow (h : w.Holds m e s) : w.Holds m' e' s := by
    refine h.congr fun hlast => ?_
    by_cases hne : previous s = 0
    · exact .inl hne
    · exact .inr (hleaf _ h.previous_mem hne hlast)
  cases stage with
  | leaving p => exact h
  | _ => exact hwindow h

namespace Heap.Stocked

variable {h : Heap} {ts : List Tile} {P : Address → Prop}

theorem words_le (a : h.Stocked ts P) (w : Worker) : w.words ≤ h.space.region.wordSize := by
  have := w.words_bounds
  have := a.furnished.room
  omega

theorem adjust_words (a : h.Stocked ts P) (w : Worker) :
    h.adjust w.words = .ok (h.space.granulesFor w.words * h.space.granuleWords) :=
  a.sound.mapped.tiled.adjust_eq (a.words_le w)

theorem countable_words (a : h.Stocked ts P) (w : Worker) : h.space.Countable w.words := a.countable (by
  have := w.words_bounds
  have : 11 < Header.sizeLimit := by decide
  omega)

theorem carve_words (a : h.Stocked ts P) (w : Worker) :
    (carve (h.space.granulesFor w.words * h.space.granuleWords)).run h = .ok none h ∨
    ∃ h' pre k post, (carve (h.space.granulesFor w.words * h.space.granuleWords)).run h = .ok (some (h.space.address k)) h' ∧
      Grants h ts h' pre k (h.space.granulesFor w.words) post := by
  have hg := a.sound.mapped.tiled.granule_pos
  have hround := h.space.granulesFor_mul hg (h.space.granulesFor_pos w.words hg)
  have hcount : h.space.Countable (h.space.granulesFor w.words * h.space.granuleWords) := by
    intro _
    rw [hround]
    exact a.countable_words w (a.words_le w)
  rcases carve_spec a.sound a.settled hcount with ⟨hnone, -⟩ | ⟨h', pre, k, post, hsome, g, -⟩
  · exact .inl hnone
  · rw [hround] at g
    exact .inr ⟨h', pre, k, post, hsome, g⟩

/-- A mutator is never stopped, as the buffers of a workload have words. -/
theorem refill_cases (a : h.Stocked ts P) {m : Mutator} (hm : m ∈ h.mutators) (w : Worker) :
    ((refill m (h.space.granulesFor w.words * h.space.granuleWords)).run h = .ok none h ∧
      (refillOrCarve m (h.space.granulesFor w.words * h.space.granuleWords)).run h =
        (carve (h.space.granulesFor w.words * h.space.granuleWords)).run h) ∨
    ∃ h' pre k post, (refill m (h.space.granulesFor w.words * h.space.granuleWords)).run h =
        .ok (some (h.space.address k)) h' ∧
      (refillOrCarve m (h.space.granulesFor w.words * h.space.granuleWords)).run h = .ok (some (h.space.address k)) h' ∧
      Grants h ts h' pre k (h.space.granulesFor w.words) post := by
  rcases refill_spec a.sound a.settled hm (a.countable a.furnished.max_tlab)
    (h.space.granulesFor_pos w.words a.sound.mapped.tiled.granule_pos) with
    hnone | ⟨h', pre, k, post, hsome, hboth, g, -⟩ | ⟨-, hzero⟩
  · exact .inl hnone
  · exact .inr ⟨h', pre, k, post, hsome, hboth, g⟩
  · exact absurd hzero (Nat.ne_of_gt a.furnished.max_tlab_pos)

end Heap.Stocked

/-! ## Acts in terms of what they ask the heap for -/

namespace Worker

variable {h h' : Heap} {n : Nat}

theorem run_act_ended (hended : w.progress ≠ .working) : (w.act o .ready).run h = .ok (w, .ready) h := by
  unfold act
  cases hp : w.progress with
  | working => exact absurd hp hended
  | finished => rfl
  | failed e => rfl

theorem run_act_done (hwork : w.progress = .working) (hmade : w.made = o.objects) :
    (w.act o .ready).run h = (w.leave .finished).run h := by
  unfold act
  simp only [hwork]
  rw [if_pos hmade]

theorem run_act_ready {m : Mutator} (hwork : w.progress = .working) (hmade : w.made ≠ o.objects)
    (hfit : w.words ≤ h.space.region.wordSize) (hmut : h.mutator w.mutator = .ok m) (hadj : h.adjust w.words = .ok n) :
    (w.act o .ready).run h = (do
      match ← modifyGet (·.bump m.tlab n) with
      | some obj => w.make o obj
      | none => return (w, .refilling false) : HeapM (Worker × Stage)).run h := by
  unfold act
  simp only [hwork]
  rw [if_neg hmade, run_bind_of_ok (EStateM.run_get _), if_neg (mt h.space.refuses_iff.1 (not_not.2 hfit)),
    run_bind_of_ok (EStateM.run_get _), hmut, run_bind_of_ok (run_lift_ok _ _), run_bind_of_ok (EStateM.run_get _),
    hadj]
  exact run_bind_of_ok (run_lift_ok _ _)

theorem run_act_refilling (again : Bool) {m : Mutator} (hmut : h.mutator w.mutator = .ok m)
    (hadj : h.adjust w.words = .ok n) :
    (w.act o (.refilling again)).run h = (do
      match ← refill m n with
      | some obj => w.make o obj
      | none => return (w, .carving again) : HeapM (Worker × Stage)).run h := by
  unfold act
  simp only
  rw [run_bind_of_ok (EStateM.run_get _), hmut, run_bind_of_ok (run_lift_ok _ _), run_bind_of_ok (EStateM.run_get _),
    hadj]
  exact run_bind_of_ok (run_lift_ok _ _)

theorem run_act_carving (again : Bool) (hadj : h.adjust w.words = .ok n) :
    (w.act o (.carving again)).run h = (do
      match ← carve n with
      | some obj => w.make o obj
      | none => if again then w.leave (.failed (.outOfMemory n)) else return (w, .starved) :
        HeapM (Worker × Stage)).run h := by
  unfold act
  simp only
  rw [run_bind_of_ok (EStateM.run_get _), hadj]
  exact run_bind_of_ok (run_lift_ok _ _)

theorem run_act_starved (hrun : (collectForAllocation (some w.mutator)).run h = .ok () h') :
    (w.act o .starved).run h = .ok (w, .refilling true) h' := by
  unfold act
  simp only
  rw [run_bind_of_ok hrun]
  exact EStateM.run_pure _ _

theorem run_act_leaving {p : WorkerProgress} (hrun : (dropMutator w.mutator).run h = .ok () h') :
    (w.act o (.leaving p)).run h = .ok ({ w with progress := p }, .ready) h' := by
  unfold act
  simp only
  rw [run_bind_of_ok hrun]
  exact EStateM.run_pure _ _

end Worker

namespace Crew

variable {c : Crew} {ts ts' : List Tile} {P P' : Address → Prop} {h' : Heap} {i : Nat}

/-- The workers have different mutators, and who was not started yet stands at the beginning. -/
structure Listed (c : Crew) : Prop where
  issued : ∀ (i : Nat) (w : Worker), c.run.workers[i]? = some w → w.mutator < c.run.heap.nextMutator
  distinct : ∀ (i j : Nat) (w w' : Worker), c.run.workers[i]? = some w → c.run.workers[j]? = some w' →
    w.mutator = w'.mutator → i = j
  fresh : ∀ i, c.run.workers.size ≤ i → c.stage i = .ready

/-- **The invariant of a crew.** -/
structure Inv (c : Crew) (ts : List Tile) (P : Address → Prop) : Prop where
  stocked : c.run.heap.Stocked ts P
  listed : c.Listed
  ended : ∀ (i : Nat) (w : Worker), c.run.workers[i]? = some w → w.progress ≠ .working → c.stage i = .ready
  employed : ∀ (i : Nat) (w : Worker), c.run.workers[i]? = some w → w.progress = .working →
    ∃ m ∈ c.run.heap.mutators, m.id = w.mutator ∧
      w.HoldsAt c.run.heap.memory c.run.heap.encoding m.roots (c.stage i)
  staffed : ∀ m ∈ c.run.heap.mutators, ∃ (i : Nat) (w : Worker),
    c.run.workers[i]? = some w ∧ w.progress = .working ∧ w.mutator = m.id

theorem workers_acted (hw : c.run.workers[i]? = some w) {w' : Worker} {stage : Stage} {j : Nat} {v : Worker}
    (hv : (c.acted i w' stage h').run.workers[j]? = some v) :
    (j = i ∧ v = w' ∧ (c.acted i w' stage h').stage j = stage) ∨
    (j ≠ i ∧ c.run.workers[j]? = some v ∧ (c.acted i w' stage h').stage j = c.stage j) := by
  unfold acted at hv ⊢
  have hlt : i < c.run.workers.size := (Array.getElem?_eq_some_iff.1 hw).1
  by_cases hj : j = i
  · subst hj
    simp only [Array.getElem?_setIfInBounds_self_of_lt hlt, Option.some.injEq] at hv
    exact .inl ⟨rfl, hv.symm, Function.update_self ..⟩
  · simp only [Array.getElem?_setIfInBounds_ne (Ne.symm hj)] at hv
    exact .inr ⟨hj, hv, Function.update_of_ne hj ..⟩

theorem getElem?_acted (hw : c.run.workers[i]? = some w) (w' : Worker) (stage : Stage) (h' : Heap) (j : Nat) :
    (c.acted i w' stage h').run.workers[j]? = if j = i then some w' else c.run.workers[j]? := by
  have hlt : i < c.run.workers.size := (Array.getElem?_eq_some_iff.1 hw).1
  unfold acted
  by_cases hj : j = i
  · subst hj
    rw [if_pos rfl]
    exact Array.getElem?_setIfInBounds_self_of_lt hlt
  · rw [if_neg hj]
    exact Array.getElem?_setIfInBounds_ne (Ne.symm hj)

/-- Nothing changes if the worker, its stage and the heap stay. -/
theorem acted_self (hw : c.run.workers[i]? = some w) : c.acted i w (c.stage i) c.run.heap = c := by
  have hlt : i < c.run.workers.size := (Array.getElem?_eq_some_iff.1 hw).1
  have hworkers : c.run.workers.setIfInBounds i w = c.run.workers := by
    rw [← (Array.getElem?_eq_some_iff.1 hw).2, Array.setIfInBounds, dif_pos hlt, Array.set_getElem_self]
  unfold acted
  rw [hworkers, Function.update_eq_self]

theorem Listed.acted (hl : c.Listed) (hw : c.run.workers[i]? = some w) (hn : h'.nextMutator = c.run.heap.nextMutator)
    (hid : w'.mutator = w.mutator) (stage : Stage) : (c.acted i w' stage h').Listed := by
  have hlt : i < c.run.workers.size := (Array.getElem?_eq_some_iff.1 hw).1
  -- a worker of the crew, as it was before the act
  have hbefore {j : Nat} {v : Worker} (hv : (c.acted i w' stage h').run.workers[j]? = some v) :
      ∃ u, c.run.workers[j]? = some u ∧ u.mutator = v.mutator := by
    rcases workers_acted hw hv with ⟨rfl, rfl, -⟩ | ⟨-, hv, -⟩
    · exact ⟨w, hw, hid.symm⟩
    · exact ⟨v, hv, rfl⟩
  refine ⟨?_, ?_, ?_⟩
  · intro j v hv
    obtain ⟨u, hu, he⟩ := hbefore hv
    show v.mutator < h'.nextMutator
    rw [hn, ← he]
    exact hl.issued j u hu
  · intro j k v v' hv hv' he
    obtain ⟨u, hu, hue⟩ := hbefore hv
    obtain ⟨u', hu', hue'⟩ := hbefore hv'
    exact hl.distinct j k u u' hu hu' (hue.trans (he.trans hue'.symm))
  · intro j hj
    have hj' : c.run.workers.size ≤ j := by
      simpa [Crew.acted] using hj
    exact (Function.update_of_ne (Nat.ne_of_gt (Nat.lt_of_lt_of_le hlt hj')) ..).trans (hl.fresh j hj')

namespace Inv

/-- **An act that leaves its worker at work** keeps the invariant if the worker itself holds what it should. -/
theorem acted (hi : c.Inv ts P) (hw : c.run.workers[i]? = some w) (hwork : w.progress = .working)
    (hs : h'.Stocked ts' P') (hlinks : c.run.heap.SameLinks h' fun x => P x ∧ P' x) {f : RootSlots → RootSlots}
    (hm : h'.mutators = (c.run.heap.updateRoots w.mutator f).mutators) (hn : h'.nextMutator = c.run.heap.nextMutator)
    (hid : w'.mutator = w.mutator) (hprogress : w'.progress = .working)
    (hself : ∀ m ∈ c.run.heap.mutators, m.id = w.mutator →
      w.HoldsAt c.run.heap.memory c.run.heap.encoding m.roots (c.stage i) →
        w'.HoldsAt h'.memory h'.encoding (f m.roots) stage) : (c.acted i w' stage h').Inv ts' P' := by
  have hheap : (c.acted i w' stage h').run.heap = h' := rfl
  refine ⟨hs, hi.listed.acted hw hn hid stage, ?_, ?_, ?_⟩
  · intro j v hv hnot
    rcases workers_acted hw hv with ⟨rfl, rfl, -⟩ | ⟨-, hv, hstage⟩
    · exact absurd hprogress hnot
    · rw [hstage]
      exact hi.ended j v hv hnot
  · intro j v hv hvwork
    rcases workers_acted hw hv with ⟨rfl, rfl, hstage⟩ | ⟨hne, hv, hstage⟩
    · obtain ⟨n, hn', hnid, hholds⟩ := hi.employed j w hw hwork
      refine ⟨{ n with roots := f n.roots }, ?_, hnid.trans hid.symm, ?_⟩
      · rw [hheap, hm]
        exact List.mem_map.2 ⟨n, hn', if_pos hnid⟩
      · rw [hstage]
        exact hself n hn' hnid hholds
    · obtain ⟨n, hn', hnid, hholds⟩ := hi.employed j v hv hvwork
      have hother : ¬n.id = w.mutator := fun he => hne (hi.listed.distinct j i v w hv hw (hnid.symm.trans he))
      have hkept : n ∈ h'.mutators := by
        rw [hm]
        exact List.mem_map.2 ⟨n, hn', if_neg hother⟩
      refine ⟨n, hkept, hnid, ?_⟩
      rw [hstage]
      refine hholds.congr fun x hx hne hleaf => hleaf.congr (hlinks x ⟨?_, ?_⟩)
      · exact (hi.stocked.wide_cases hn' hx).resolve_left hne
      · exact (hs.wide_cases hkept hx).resolve_left hne
  · intro n hn'
    rw [hheap, hm] at hn'
    obtain ⟨n', hn', he, -⟩ := mem_updateRoots hn'
    obtain ⟨j, v, hv, hvwork, hvid⟩ := hi.staffed n' hn'
    by_cases hj : j = i
    · subst hj
      obtain rfl : v = w := Option.some.inj (hv.symm.trans hw)
      exact ⟨j, w', by rw [getElem?_acted hw, if_pos rfl], hprogress, hid.trans (hvid.trans he.symm)⟩
    · exact ⟨j, v, by rw [getElem?_acted hw, if_neg hj]; exact hv, hvwork, hvid.trans he.symm⟩

/-- The heap is left as it is, or a cycle runs, and the worker keeps what it holds. -/
theorem pass (hi : c.Inv ts P) (hw : c.run.workers[i]? = some w) (hwork : w.progress = .working)
    (hs : h'.Stocked ts' P') (hlinks : c.run.heap.SameLinks h' P')
    (hm : h'.mutators = c.run.heap.mutators) (hn : h'.nextMutator = c.run.heap.nextMutator)
    (hbefore : (c.stage i).Holds) (hafter : stage.Holds) : (c.acted i w stage h').Inv ts' P' := by
  refine hi.acted hw hwork hs (fun x hx => hlinks x hx.2) (f := fun s => s) ?_ hn rfl hwork ?_
  · rw [hm]
    refine (List.map_id' c.run.heap.mutators).symm.trans (List.map_congr_left fun m _ => ?_)
    exact (ite_self m).symm
  · intro m hmem _ hholds
    refine (Worker.holdsAt_iff hafter).2 ((Worker.holdsAt_iff hbefore).1 (hholds.congr fun x hx hne hleaf => ?_))
    exact hleaf.congr (hlinks x ((hs.wide_cases (hm ▸ hmem) hx).resolve_left hne))

theorem stay (hi : c.Inv ts P) (hw : c.run.workers[i]? = some w) (hwork : w.progress = .working)
    (hbefore : (c.stage i).Holds) (hafter : stage.Holds) : (c.acted i w stage c.run.heap).Inv ts P :=
  hi.pass hw hwork hi.stocked (fun _ _ _ => .rfl) rfl rfl hbefore hafter

/-- **A worker gives up what it holds.** -/
theorem leave (hi : c.Inv ts P) (hw : c.run.workers[i]? = some w) (hwork : w.progress = .working) {p : WorkerProgress}
    (hp : p ≠ .working) : ∃ h', (w.leave p).run c.run.heap = .ok (w, .leaving p) h' ∧
      (c.acted i w (.leaving p) h').Inv ts P := by
  have hs := hi.stocked.hold w.mutator (f := fun _ => .empty) fun m _ _ r hr => by cases hr
  exact ⟨_, rfl, hi.acted hw hwork hs (fun _ _ _ => .rfl) rfl rfl rfl hwork fun _ _ _ _ => ⟨hp, rfl⟩⟩

/-- **A worker makes an object of words it was granted.** -/
theorem make (hi : c.Inv ts P) (hw : c.run.workers[i]? = some w) (hwork : w.progress = .working)
    {n : Mutator} (hmut : c.run.heap.mutator w.mutator = .ok n)
    (hstage : (c.stage i).Holds) {h₂ : Heap} {pre post : List Tile} {k : Nat}
    (g : Grants c.run.heap ts h₂ pre k (c.run.heap.space.granulesFor w.words) post) :
    ∃ h' ts' P', (w.make o (c.run.heap.space.address k)).run h₂ = .ok (w.grown o, .ready) h' ∧
      (c.acted i (w.grown o) .ready h').Inv ts' P' := by
  obtain ⟨hmem, hnid⟩ := mutator_eq_ok hmut
  -- a mutator with the worker's id holds the worker's window
  have hholds {m : Mutator} (hm : m ∈ c.run.heap.mutators) (hid : m.id = w.mutator) :
      w.Holds c.run.heap.memory c.run.heap.encoding m.roots := by
    obtain ⟨m', hm', hid', hholds⟩ := hi.employed i w hw hwork
    obtain rfl : m = m' := List.inj_on_of_nodup_map hi.stocked.sound.mutators.nodup hm hm' (hid.trans hid'.symm)
    exact (Worker.holdsAt_iff hstage).1 hholds
  obtain ⟨h', ts', P', hrun, hs, hm, hn, hlinks, hleaf⟩ := hi.stocked.make (o := o) g rfl hmut (hholds hmem hnid)
  exact ⟨h', ts', P', hrun, hi.acted hw hwork hs (fun x hx => hlinks x hx.1) hm hn (w.mutator_grown o)
    ((w.progress_grown o).trans hwork) fun m hm hid _ => (hholds hm hid).remember hleaf⟩

/-- **A worker ends its mutator.** -/
theorem drop (hi : c.Inv ts P) (hw : c.run.workers[i]? = some w) (hwork : w.progress = .working) {p : WorkerProgress}
    (hp : p ≠ .working) : ∃ h' ts', (dropMutator w.mutator).run c.run.heap = .ok () h' ∧
      (c.acted i { w with progress := p } .ready h').Inv ts' P := by
  have a := hi.stocked
  obtain ⟨m, hm, hid, -⟩ := hi.employed i w hw hwork
  obtain ⟨h', ts', -, -, -, hrun, hs, hset, hcar, -, -, hms, hn⟩ := dropMutator_spec a.sound a.settled ⟨m, hm, hid⟩
  have hsub {n : Mutator} (hn : n ∈ h'.mutators) : n ∈ c.run.heap.mutators ∧ n.id ≠ w.mutator := by
    rw [hms] at hn
    simpa using hn
  obtain ⟨a', hlinks⟩ := a.carry hs hset hcar fun n hn => a.loads (hsub hn).1
  have hsame : ({ w with progress := p } : Worker).mutator = w.mutator := rfl
  refine ⟨h', ts', hrun, a', hi.listed.acted hw hn hsame .ready, ?_, ?_, ?_⟩
  · intro j v hv hnot
    rcases workers_acted hw hv with ⟨-, -, hstage⟩ | ⟨-, hv, hstage⟩
    · exact hstage
    · rw [hstage]
      exact hi.ended j v hv hnot
  · intro j v hv hvwork
    rcases workers_acted hw hv with ⟨-, rfl, -⟩ | ⟨hne, hv, hstage⟩
    · exact absurd hvwork hp
    · obtain ⟨n, hn', hnid, hholds⟩ := hi.employed j v hv hvwork
      have hother : n.id ≠ w.mutator := fun he => hne (hi.listed.distinct j i v w hv hw (hnid.symm.trans he))
      have hkept : n ∈ h'.mutators := by
        rw [hms]
        simpa using ⟨hn', hother⟩
      refine ⟨n, hkept, hnid, ?_⟩
      rw [hstage]
      exact hholds.congr fun x hx hne hleaf => hleaf.congr (hlinks x ((a'.wide_cases hkept hx).resolve_left hne))
  · intro n hn'
    obtain ⟨hmem, hne⟩ := hsub hn'
    obtain ⟨j, v, hv, hvwork, hvid⟩ := hi.staffed n hmem
    have hj : j ≠ i := by
      rintro rfl
      obtain rfl : v = w := Option.some.inj (hv.symm.trans hw)
      exact hne hvid.symm
    exact ⟨j, v, by rw [getElem?_acted hw, if_neg hj]; exact hv, hvwork, hvid⟩

theorem mutator (hi : c.Inv ts P) (hw : c.run.workers[i]? = some w) (hwork : w.progress = .working) :
    ∃ m, c.run.heap.mutator w.mutator = .ok m ∧ m ∈ c.run.heap.mutators := by
  obtain ⟨m₀, hm₀, hid, -⟩ := hi.employed i w hw hwork
  obtain ⟨m, hmut⟩ := mutator_of_mem hm₀
  rw [hid] at hmut
  exact ⟨m, hmut, (mutator_eq_ok hmut).1⟩

/-- An act of worker `i` at a stage ends, and keeps the invariant. -/
def Acts (o : Workload) (c : Crew) (i : Nat) (w : Worker) (stage : Stage) : Prop :=
  ∃ w' stage' h' ts' P', (w.act o stage).run c.run.heap = .ok (w', stage') h' ∧ (c.acted i w' stage' h').Inv ts' P'

/-- A worker whose run is over does nothing. -/
theorem act_ended (o : Workload) (hi : c.Inv ts P) (hw : c.run.workers[i]? = some w) (hended : w.progress ≠ .working) :
    Acts o c i w .ready := by
  refine ⟨w, .ready, c.run.heap, ts, P, Worker.run_act_ended hended, ?_⟩
  rw [← hi.ended i w hw hended, acted_self hw]
  exact hi

theorem act_ready (o : Workload) (hi : c.Inv ts P) (hw : c.run.workers[i]? = some w) (hwork : w.progress = .working)
    (hstage : c.stage i = .ready) : Acts o c i w .ready := by
  have a := hi.stocked
  have hholds : (c.stage i).Holds := by rw [hstage]; trivial
  by_cases hmade : w.made = o.objects
  · obtain ⟨h', hrun, hi'⟩ := hi.leave hw hwork (p := .finished) (by decide)
    exact ⟨_, _, h', ts, P, (Worker.run_act_done hwork hmade).trans hrun, hi'⟩
  obtain ⟨m, hmut, -⟩ := hi.mutator hw hwork
  have hact := Worker.run_act_ready hwork hmade (a.words_le w) hmut (a.adjust_words w)
  rcases bump_spec a.sound a.settled m.tlab (c.run.heap.space.granulesFor_pos w.words a.sound.mapped.tiled.granule_pos) with
    ⟨hnone, -⟩ | ⟨h₂, pre, k, post, hsome, g, -⟩
  · refine ⟨w, .refilling false, c.run.heap, ts, P, ?_, hi.stay hw hwork hholds trivial⟩
    rw [hact, run_bind_of_ok (run_bump hnone)]
    exact EStateM.run_pure _ _
  · obtain ⟨h', ts', P', hrun, hi'⟩ := hi.make (o := o) hw hwork hmut hholds g
    refine ⟨_, _, h', ts', P', ?_, hi'⟩
    rw [hact, run_bind_of_ok (run_bump hsome)]
    exact hrun

theorem act_refilling (o : Workload) (hi : c.Inv ts P) (hw : c.run.workers[i]? = some w) (hwork : w.progress = .working)
    {again : Bool} (hstage : c.stage i = .refilling again) : Acts o c i w (.refilling again) := by
  have a := hi.stocked
  have hholds : (c.stage i).Holds := by rw [hstage]; trivial
  obtain ⟨m, hmut, hm⟩ := hi.mutator hw hwork
  have hact := Worker.run_act_refilling (o := o) again hmut (a.adjust_words w)
  rcases a.refill_cases hm w with ⟨hnone, -⟩ | ⟨h₂, pre, k, post, hsome, -, g⟩
  · refine ⟨w, .carving again, c.run.heap, ts, P, ?_, hi.stay hw hwork hholds trivial⟩
    rw [hact, run_bind_of_ok hnone]
    exact EStateM.run_pure _ _
  · obtain ⟨h', ts', P', hrun, hi'⟩ := hi.make (o := o) hw hwork hmut hholds g
    refine ⟨_, _, h', ts', P', ?_, hi'⟩
    rw [hact, run_bind_of_ok hsome]
    exact hrun

theorem act_carving (o : Workload) (hi : c.Inv ts P) (hw : c.run.workers[i]? = some w) (hwork : w.progress = .working)
    {again : Bool} (hstage : c.stage i = .carving again) : Acts o c i w (.carving again) := by
  have a := hi.stocked
  have hholds : (c.stage i).Holds := by rw [hstage]; trivial
  obtain ⟨m, hmut, -⟩ := hi.mutator hw hwork
  have hact := Worker.run_act_carving (o := o) again (a.adjust_words w)
  rcases a.carve_words w with hnone | ⟨h₂, pre, k, post, hsome, g⟩
  · rw [run_bind_of_ok hnone] at hact
    cases again with
    | false => exact ⟨w, .starved, c.run.heap, ts, P, hact, hi.stay hw hwork hholds trivial⟩
    | true =>
      obtain ⟨h', hrun, hi'⟩ := hi.leave hw hwork (p := .failed _) (by simp)
      exact ⟨_, _, h', ts, P, hact.trans hrun, hi'⟩
  · obtain ⟨h', ts', P', hrun, hi'⟩ := hi.make (o := o) hw hwork hmut hholds g
    refine ⟨_, _, h', ts', P', ?_, hi'⟩
    rw [hact, run_bind_of_ok hsome]
    exact hrun

/-- A cycle runs for a worker that found no words. -/
theorem starve (hi : c.Inv ts P) (hw : c.run.workers[i]? = some w) (hwork : w.progress = .working)
    (hstage : c.stage i = .starved) : ∃ h' ts' P', (collectForAllocation (some w.mutator)).run c.run.heap = .ok () h' ∧
      (c.acted i w (.refilling true) h').Inv ts' P' ∧ c.run.heap.SameFrame h' ∧ h'.mutators = c.run.heap.mutators := by
  have a := hi.stocked
  obtain ⟨m, hm, hid, -⟩ := hi.employed i w hw hwork
  obtain ⟨h', ts', -, hrun, hpass, hs', hset', -⟩ := collectForAllocation_spec a.sound a.settled a.closed a.rooted
    (some w.mutator) fun j hj => by
      cases hj
      exact ⟨m, hm, hid⟩
  obtain ⟨P', a', hlinks, -⟩ := a.pass hpass hs' hset'
  exact ⟨h', ts', P', hrun,
    hi.pass hw hwork a' hlinks hpass.mutators.1 hpass.mutators.2 (by rw [hstage]; trivial) trivial, hpass.frame,
    hpass.mutators.1⟩

theorem act_starved (o : Workload) (hi : c.Inv ts P) (hw : c.run.workers[i]? = some w) (hwork : w.progress = .working)
    (hstage : c.stage i = .starved) : Acts o c i w .starved := by
  obtain ⟨h', ts', P', hrun, hi', -⟩ := hi.starve hw hwork hstage
  exact ⟨w, _, h', ts', P', Worker.run_act_starved hrun, hi'⟩

theorem act_leaving (o : Workload) (hi : c.Inv ts P) (hw : c.run.workers[i]? = some w) (hwork : w.progress = .working)
    {p : WorkerProgress} (hstage : c.stage i = .leaving p) : Acts o c i w (.leaving p) := by
  obtain ⟨m, hm, hid, hholds⟩ := hi.employed i w hw hwork
  rw [hstage] at hholds
  obtain ⟨h', ts', hrun, hi'⟩ := hi.drop hw hwork hholds.1
  exact ⟨_, _, h', ts', P, Worker.run_act_leaving hrun, hi'⟩

/-- **No act faults, and each keeps the invariant.** -/
theorem act (o : Workload) (hi : c.Inv ts P) (hw : c.run.workers[i]? = some w) : Acts o c i w (c.stage i) := by
  by_cases hwork : w.progress = .working
  · cases hstage : c.stage i with
    | ready => exact hi.act_ready o hw hwork hstage
    | refilling again => exact hi.act_refilling o hw hwork hstage
    | carving again => exact hi.act_carving o hw hwork hstage
    | starved => exact hi.act_starved o hw hwork hstage
    | leaving p => exact hi.act_leaving o hw hwork hstage
  · rw [hi.ended i w hw hwork]
    exact hi.act_ended o hw hwork

/-- A lost request leaves everything as it is. -/
theorem excused (hi : c.Inv ts P) (hw : c.run.workers[i]? = some w) (hstage : c.stage i = .starved) :
    (c.acted i w (.refilling true) c.run.heap).Inv ts P := by
  have hwork : w.progress = .working := by
    by_contra hended
    have hready := hi.ended i w hw hended
    rw [hstage] at hready
    cases hready
  exact hi.stay hw hwork (by rw [hstage]; trivial) trivial

end Inv
end Crew
end MarkSweep
