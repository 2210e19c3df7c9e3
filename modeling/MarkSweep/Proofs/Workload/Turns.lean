import MarkSweep.Proofs.Workload.Opening
import Mathlib.Logic.Relation
/-!
# Workers that take turns

A worker that makes one object after another goes through the acts of a crew, from one `ready` stage to the next
(`Inv.turn`).  So what `Workload.run` does is among what a crew does in any order (`tryRun_eq`).
-/
namespace MarkSweep

open Heap

/-! ## The end of a mutator -/

namespace Heap

variable {h h' : Heap} {i : MutatorId} {m : Mutator}

theorem mutator_updateRoots (hm : h.mutator i = .ok m) (f : RootSlots → RootSlots) :
    (h.updateRoots i f).mutator i = .ok { m with roots := f m.roots } := by
  have hid : m.id = i := (mutator_eq_ok hm).2
  have hfind : h.mutators.find? (·.id == i) = some m := by
    unfold mutator mutator? at hm
    split at hm
    · next hfind =>
      cases hm
      exact hfind
    · cases hm
  have hsame : ((·.id == i) ∘ fun m : Mutator => if m.id = i then { m with roots := f m.roots } else m) = (·.id == i) := by
    funext m
    simp only [Function.comp]
    split <;> rfl
  unfold mutator mutator? updateRoots
  rw [List.find?_map, hsame, hfind, Option.map_some, if_pos hid]

/-- The other mutators are the same ones. -/
theorem others_updateRoots (h : Heap) (i : MutatorId) (f : RootSlots → RootSlots) :
    (h.updateRoots i f).mutators.filter (·.id != i) = h.mutators.filter (·.id != i) := by
  have hsame : ((·.id != i) ∘ fun m : Mutator => if m.id = i then { m with roots := f m.roots } else m) = (·.id != i) := by
    funext m
    simp only [Function.comp]
    split <;> rfl
  unfold updateRoots
  rw [List.filter_map, hsame]
  refine (List.map_congr_left fun m hm => ?_).trans (List.map_id' _)
  exact if_neg (by simpa using (List.mem_filter.1 hm).2)

/-- A mutator ends in the same way whatever it holds. -/
theorem dropMutator_updateRoots (hrun : (dropMutator i).run h = .ok () h') (f : RootSlots → RootSlots) :
    (dropMutator i).run (h.updateRoots i f) = .ok () h' := by
  unfold dropMutator at hrun ⊢
  cases hm : h.mutator i with
  | error e =>
    rw [run_bind_of_ok (EStateM.run_get h), hm] at hrun
    cases hrun
  | ok m =>
    rw [run_bind_of_ok (EStateM.run_get h), hm, run_bind_of_ok (run_lift_ok _ _), run_bind_of_ok (EStateM.run_modify _ _),
      run_bind_of_ok (EStateM.run_get _)] at hrun
    rw [run_bind_of_ok (EStateM.run_get _), mutator_updateRoots hm, run_bind_of_ok (run_lift_ok _ _),
      run_bind_of_ok (EStateM.run_modify _ _), run_bind_of_ok (EStateM.run_get _)]
    have hsame : ((h.updateRoots i f).retireTlab m.tlab).safepoint = (h.retireTlab m.tlab).safepoint := rfl
    rw [hsame]
    cases hs : (h.retireTlab m.tlab).safepoint.unregister with
    | error e =>
      rw [hs] at hrun
      cases hrun
    | ok s =>
      rw [hs, run_bind_of_ok (run_lift_ok _ _)] at hrun
      rw [run_bind_of_ok (run_lift_ok _ _), ← hrun]
      show EStateM.Result.ok () ({ (h.updateRoots i f).retireTlab m.tlab with
        safepoint := s, tlabs := _, mutators := (h.updateRoots i f).mutators.filter (·.id != i) } : Heap) = _
      rw [others_updateRoots]
      rfl

end Heap

/-! ## One object -/

namespace Worker

variable {o : Workload} {w : Worker} {h h₁ h' : Heap} {obj : Address} {e : HeapError}

theorem step_ended (hended : w.progress ≠ .working) : (w.step o).run h = .ok w h := by
  unfold step
  cases hp : w.progress with
  | working => exact absurd hp hended
  | finished => rfl
  | failed e => rfl

theorem step_done (hwork : w.progress = .working) (hmade : w.made = o.objects)
    (hdrop : (Heap.dropMutator w.mutator).run h = .ok () h') :
    (w.step o).run h = .ok { w with progress := .finished } h' := by
  unfold step
  simp only [hwork]
  rw [if_pos hmade, run_bind_of_ok hdrop]
  exact EStateM.run_pure _ _

theorem step_failed (hwork : w.progress = .working) (hmade : w.made ≠ o.objects)
    (hrun : (Heap.allocateFor w.mutator w.words).run h = .ok (.error e) h₁)
    (hdrop : (Heap.dropMutator w.mutator).run h₁ = .ok () h') :
    (w.step o).run h = .ok { w with progress := .failed e } h' := by
  unfold words at hrun
  unfold step
  simp only [hwork]
  rw [if_neg hmade, run_bind_of_ok hrun]
  simp only
  rw [run_bind_of_ok hdrop]
  exact EStateM.run_pure _ _

theorem step_made (hwork : w.progress = .working) (hmade : w.made ≠ o.objects)
    (hrun : (Heap.allocateFor w.mutator w.words).run h = .ok (.ok obj) h₁)
    (hmake : (w.make o obj).run h₁ = .ok (w.grown o, .ready) h') : (w.step o).run h = .ok (w.grown o) h' := by
  unfold make at hmake
  obtain ⟨_, _, hget, hmake⟩ := run_bind_eq_ok hmake
  obtain ⟨m, _, hmut, hmake⟩ := run_bind_eq_ok hmake
  obtain ⟨_, _, hformat, hmake⟩ := run_bind_eq_ok hmake
  obtain ⟨_, _, hlink, hmake⟩ := run_bind_eq_ok hmake
  obtain ⟨_, h₅, hroots, hmake⟩ := run_bind_eq_ok hmake
  rw [EStateM.run_pure] at hmake
  cases hmake
  unfold words at hrun hformat
  unfold previous at hlink
  unfold step
  simp only [hwork]
  rw [if_neg hmade, run_bind_of_ok hrun]
  simp only
  rw [run_bind_of_ok hget, run_bind_of_ok hmut, run_bind_of_ok hformat, run_bind_of_ok hlink, run_bind_of_ok hroots,
    EStateM.run_pure, grown, hwork]
  rfl

end Worker

namespace Crew

variable {o : Workload} {c : Crew} {w w₀ w' : Worker} {stage stage' : Stage} {h h' : Heap} {i : Nat} {ts : List Tile}
  {P : Address → Prop}

theorem acted_acted (c : Crew) (i : Nat) (w w' : Worker) (stage stage' : Stage) (h h' : Heap) :
    (c.acted i w stage h).acted i w' stage' h' = c.acted i w' stage' h' := by
  unfold acted
  simp only [Array.setIfInBounds_setIfInBounds, Function.update_idem]

/-- Any number of steps. -/
def Steps (o : Workload) : Crew → Crew → Prop := Relation.ReflTransGen (Step o)

theorem Reached.steps {c' : Crew} (hc : Reached o c) (hs : Steps o c c') : Reached o c' := by
  induction hs with
  | refl => exact hc
  | tail _ next ih => exact .step ih next

theorem Steps.inv {c' : Crew} (hs : Steps o c c') (hi : c.Inv ts P) : ∃ ts' P', c'.Inv ts' P' := by
  induction hs with
  | refl => exact ⟨ts, P, hi⟩
  | tail _ next ih =>
    obtain ⟨ts', P', hi'⟩ := ih
    exact next.inv hi'

/-- One more act of the same worker. -/
theorem Steps.act (hs : Steps o c (c.acted i w stage h)) (hw : c.run.workers[i]? = some w₀)
    (hrun : (w.act o stage).run h = .ok (w', stage') h') : Steps o c (c.acted i w' stage' h') := by
  have hworker : (c.acted i w stage h).run.workers[i]? = some w := by rw [getElem?_acted hw, if_pos rfl]
  have hstage : (c.acted i w stage h).stage i = stage := Function.update_self ..
  have hnext : (c.acted i w stage h).Step o ((c.acted i w stage h).acted i w' stage' h') :=
    .act hworker (by rw [hstage]; exact hrun)
  rw [acted_acted] at hnext
  exact hs.tail hnext

/-- The worker makes an object at `obj`, which was granted in `h`. -/
def Makes (o : Workload) (c : Crew) (i : Nat) (w : Worker) (obj : Address) (h : Heap) : Prop :=
  ∃ h', (w.make o obj).run h = .ok (w.grown o, .ready) h' ∧ Steps o c (c.acted i (w.grown o) .ready h')

/-- The worker ends its mutator in `h` because of `e`. -/
def Ends (o : Workload) (c : Crew) (i : Nat) (w : Worker) (e : HeapError) (h : Heap) : Prop :=
  ∃ h', (dropMutator w.mutator).run h = .ok () h' ∧ Steps o c (c.acted i { w with progress := .failed e } .ready h')

namespace Inv

variable {m : Mutator} {n : Nat}

/-- A worker asks for a new buffer and then for words of its own. -/
theorem attempt {again : Bool} (hi : (c.acted i w (.refilling again) h).Inv ts P) (hw : c.run.workers[i]? = some w₀)
    (hs : Steps o c (c.acted i w (.refilling again) h)) (hwork : w.progress = .working) (hmut : h.mutator w.mutator = .ok m)
    (hadj : h.adjust w.words = .ok n) :
    (∃ obj h₂, (refillOrCarve m n).run h = .ok (some obj) h₂ ∧ Makes o c i w obj h₂) ∨
    ((refillOrCarve m n).run h = .ok none h ∧ (carve n).run h = .ok none h ∧ Steps o c (c.acted i w (.carving again) h)) := by
  have a : h.Stocked ts P := hi.stocked
  have hworker : (c.acted i w (.refilling again) h).run.workers[i]? = some w := by rw [getElem?_acted hw, if_pos rfl]
  have hholds : ((c.acted i w (.refilling again) h).stage i).Holds := by
    rw [show (c.acted i w (.refilling again) h).stage i = .refilling again from Function.update_self ..]
    trivial
  have hmake {h₂ : Heap} {pre post : List Tile} {k : Nat} (g : Grants h ts h₂ pre k (h.space.granulesFor w.words) post) :
      ∃ h', (w.make o (h.space.address k)).run h₂ = .ok (w.grown o, .ready) h' := by
    obtain ⟨h', -, -, hrun, -⟩ := hi.make (o := o) hworker hwork hmut hholds g
    exact ⟨h', hrun⟩
  have hrefilling := Worker.run_act_refilling (o := o) again hmut hadj
  have hcarving := Worker.run_act_carving (o := o) again hadj
  rw [a.adjust_words w] at hadj
  cases hadj
  rcases a.refill_cases (mutator_eq_ok hmut).1 w with ⟨hnone, hboth⟩ | ⟨h₂, pre, k, post, hsome, hboth, g⟩
  · rw [run_bind_of_ok hnone] at hrefilling
    rw [hboth]
    rcases a.carve_words w with hnone | ⟨h₂, pre, k, post, hsome, g⟩
    · exact .inr ⟨hnone, hnone, hs.act hw hrefilling⟩
    · obtain ⟨h', hrun⟩ := hmake g
      rw [run_bind_of_ok hsome] at hcarving
      exact .inl ⟨_, h₂, hsome, h', hrun, (hs.act hw hrefilling).act hw (hcarving.trans hrun)⟩
  · obtain ⟨h', hrun⟩ := hmake g
    rw [run_bind_of_ok hsome] at hrefilling
    exact .inl ⟨_, h₂, hboth, h', hrun, hs.act hw (hrefilling.trans hrun)⟩

/-- A worker that found no words asks for a cycle and then once more, and leaves if there are still none. -/
theorem retry (hi : (c.acted i w .starved h).Inv ts P) (hw : c.run.workers[i]? = some w₀)
    (hs : Steps o c (c.acted i w .starved h)) (hwork : w.progress = .working) (hmut : h.mutator w.mutator = .ok m)
    (hadj : h.adjust w.words = .ok n) :
    ∃ h₁, (collectForAllocation (some w.mutator)).run h = .ok () h₁ ∧
      ((∃ obj h₂, (refillOrCarve m n).run h₁ = .ok (some obj) h₂ ∧ Makes o c i w obj h₂) ∨
        (refillOrCarve m n).run h₁ = .ok none h₁ ∧ Ends o c i w (.outOfMemory n) h₁) := by
  have hworker (stage : Stage) (h : Heap) : (c.acted i w stage h).run.workers[i]? = some w := by
    rw [getElem?_acted hw, if_pos rfl]
  have hadjust := hi.stocked.adjust_words w
  obtain ⟨h₁, ts₁, P₁, hcollect, hi₁, hframe, hms⟩ := hi.starve (hworker _ _) hwork (Function.update_self ..)
  change (collectForAllocation (some w.mutator)).run h = .ok () h₁ at hcollect
  change h.SameFrame h₁ at hframe
  change h₁.mutators = h.mutators at hms
  rw [acted_acted] at hi₁
  -- the cycle changed neither the mutator nor the words it asks for
  have hmut₁ : h₁.mutator w.mutator = .ok m := by
    unfold Heap.mutator mutator?
    rw [hms]
    exact hmut
  have hadj₁ : h₁.adjust w.words = .ok n := by
    have a₁ : h₁.Stocked ts₁ P₁ := hi₁.stocked
    rw [a₁.adjust_words w, hframe.grid.granulesFor, hframe.grid.2]
    exact hadjust.symm.trans hadj
  refine ⟨h₁, hcollect, ?_⟩
  rcases hi₁.attempt hw (hs.act hw (Worker.run_act_starved hcollect)) hwork hmut₁ hadj₁ with
    hmade | ⟨hnone, hcarve, hcarving⟩
  · exact .inl hmade
  · have hact := Worker.run_act_carving (o := o) true hadj₁
    rw [run_bind_of_ok hcarve] at hact
    obtain ⟨h', -, hdrop, -⟩ := hi₁.drop (hworker _ _) hwork (p := .finished) (by decide)
    exact .inr ⟨hnone, h', hdrop,
      (hcarving.act hw hact).act hw (Worker.run_act_leaving (dropMutator_updateRoots hdrop _))⟩

/-- **An allocation goes through the acts of a worker**, from its buffer to the collection and once more, and ends with an
object or with a worker that leaves. -/
theorem allocateFor (hi : c.Inv ts P) (hw : c.run.workers[i]? = some w) (hs : Steps o c (c.acted i w .ready c.run.heap))
    (hwork : w.progress = .working) (hstage : c.stage i = .ready) (hmade : w.made ≠ o.objects) :
    (∃ obj h₂, (Heap.allocateFor w.mutator w.words).run c.run.heap = .ok (.ok obj) h₂ ∧ Makes o c i w obj h₂) ∨
    ∃ e h₁, (Heap.allocateFor w.mutator w.words).run c.run.heap = .ok (.error e) h₁ ∧ Ends o c i w e h₁ := by
  have a := hi.stocked
  have hholds : (c.stage i).Holds := by rw [hstage]; trivial
  obtain ⟨m, hmut, -⟩ := hi.mutator hw hwork
  obtain ⟨n, hn⟩ : ∃ n, n = c.run.heap.space.granulesFor w.words * c.run.heap.space.granuleWords := ⟨_, rfl⟩
  have hadj : c.run.heap.adjust w.words = .ok n := by rw [hn, a.adjust_words w]
  have hrun := run_allocateFor (a.words_le w) hmut hadj
  have hready := Worker.run_act_ready (o := o) hwork hmade (a.words_le w) hmut hadj
  rcases bump_spec a.sound a.settled m.tlab (c.run.heap.space.granulesFor_pos w.words a.sound.mapped.tiled.granule_pos) with
    ⟨hnone, -⟩ | ⟨h₂, pre, k, post, hsome, g, -⟩
  case inr =>
    obtain ⟨h', -, -, hmake, -⟩ := hi.make (o := o) hw hwork hmut hholds g
    rw [← hn] at hsome
    rw [run_bind_of_ok (run_bump hsome)] at hrun hready
    exact .inl ⟨_, h₂, hrun, h', hmake, hs.act hw (hready.trans hmake)⟩
  rw [← hn] at hnone
  rw [run_bind_of_ok (run_bump hnone)] at hrun hready
  simp only at hrun
  have hi₀ : (c.acted i w (.refilling false) c.run.heap).Inv ts P := hi.stay hw hwork hholds trivial
  rcases hi₀.attempt hw (hs.act hw hready) hwork hmut hadj with ⟨obj, h₂, hsome, hmakes⟩ | ⟨hnone, hcarve, hcarving⟩
  · rw [run_bind_of_ok hsome] at hrun
    exact .inl ⟨obj, h₂, hrun.trans (EStateM.run_pure _ _), hmakes⟩
  rw [run_bind_of_ok hnone] at hrun
  simp only at hrun
  have hact := Worker.run_act_carving (o := o) false hadj
  rw [run_bind_of_ok hcarve] at hact
  have hi₁ : (c.acted i w .starved c.run.heap).Inv ts P := hi.stay hw hwork hholds trivial
  obtain ⟨h₁, hcollect, ⟨obj, h₂, hsome, hmakes⟩ | ⟨hnone, hends⟩⟩ := hi₁.retry hw (hcarving.act hw hact) hwork hmut hadj
  · rw [run_bind_of_ok hcollect, run_bind_of_ok hsome] at hrun
    exact .inl ⟨obj, h₂, hrun.trans (EStateM.run_pure _ _), hmakes⟩
  · rw [run_bind_of_ok hcollect, run_bind_of_ok hnone] at hrun
    exact .inr ⟨_, h₁, hrun.trans (EStateM.run_pure _ _), hends⟩

/-- **A worker takes a turn**: it makes an object, or it ends. -/
theorem turn (o : Workload) (hi : c.Inv ts P) (hw : c.run.workers[i]? = some w) (hstage : c.stage i = .ready) :
    ∃ w' h', (w.step o).run c.run.heap = .ok w' h' ∧ Steps o c (c.acted i w' .ready h') ∧
      (w'.progress = .working → w.progress = .working ∧ w.made ≠ o.objects ∧ w'.made = w.made + 1) := by
  have hstart : Steps o c (c.acted i w .ready c.run.heap) := by
    rw [← hstage, acted_self hw]
    exact .refl
  by_cases hwork : w.progress = .working
  case neg => exact ⟨w, _, Worker.step_ended hwork, hstart, fun h => absurd h hwork⟩
  by_cases hmade : w.made = o.objects
  · obtain ⟨h', ts', hdrop, -⟩ := hi.drop hw hwork (p := .finished) (by decide)
    refine ⟨_, h', Worker.step_done hwork hmade hdrop, ?_, fun h => by cases h⟩
    exact (hstart.act hw (Worker.run_act_done hwork hmade)).act hw (Worker.run_act_leaving (dropMutator_updateRoots hdrop _))
  · rcases hi.allocateFor hw hstart hwork hstage hmade with
      ⟨obj, h₂, hrun, h', hmake, hsteps⟩ | ⟨e, h₁, hrun, h', hdrop, hsteps⟩
    · exact ⟨_, h', Worker.step_made hwork hmade hrun hmake, hsteps, fun _ => ⟨hwork, hmade, by unfold Worker.grown; rfl⟩⟩
    · exact ⟨_, h', Worker.step_failed hwork hmade hrun hdrop, hsteps, fun h => by cases h⟩

/-- Any number of turns of one worker.  It is still at work only if it has made an object in each of them. -/
theorem turns (o : Workload) (n : Nat) (hi : c.Inv ts P) (hw : c.run.workers[i]? = some w) (hstage : c.stage i = .ready) :
    ∃ w' h', (w.advance o n).run c.run.heap = .ok w' h' ∧ Steps o c (c.acted i w' .ready h') ∧
      (w'.progress = .working → w.progress = .working ∧ w'.made = w.made + n ∧
        (w.made ≤ o.objects → w'.made ≤ o.objects)) := by
  induction n generalizing c w ts P with
  | zero =>
    refine ⟨w, _, rfl, ?_, fun h => ⟨h, rfl, id⟩⟩
    rw [← hstage, acted_self hw]
    exact .refl
  | succ n ih =>
    obtain ⟨w₁, h₁, hrun, hsteps, hone⟩ := hi.turn o hw hstage
    obtain ⟨ts₁, P₁, hi₁⟩ := hsteps.inv hi
    obtain ⟨w', h', hrest, hsteps', hmore⟩ := ih hi₁ (by rw [getElem?_acted hw, if_pos rfl]) (Function.update_self ..)
    rw [acted_acted] at hsteps'
    refine ⟨w', h', ?_, hsteps.trans hsteps', fun hwork => ?_⟩
    · unfold Worker.advance
      rw [run_bind_of_ok hrun]
      exact hrest
    · obtain ⟨hwork₁, hmade, hle⟩ := hmore hwork
      obtain ⟨hbefore, hne, hsucc⟩ := hone hwork₁
      exact ⟨hbefore, by omega, by omega⟩

end Inv

/-! ## Runs in which the workers take turns -/

variable {r : WorkloadRun}

/-- One worker advances by any number of objects while no other is in the middle of an allocation. -/
theorem Inv.advance (o : Workload) (n : Nat) (hi : (ready r).Inv ts P) (i : Nat) :
    ∃ r', r.advance o n i = .ok r' ∧ Steps o (ready r) (ready r') ∧ r'.workers.size = r.workers.size ∧
      (∀ j, j ≠ i → r'.workers[j]? = r.workers[j]?) ∧ ∀ w', r'.workers[i]? = some w' → w'.progress = .working →
        ∃ w, r.workers[i]? = some w ∧ w'.made = w.made + n ∧ (w.made ≤ o.objects → w'.made ≤ o.objects) := by
  unfold WorkloadRun.advance
  cases hw : r.workers[i]? with
  | none =>
    refine ⟨r, rfl, .refl, rfl, fun _ _ => rfl, fun w' hw' => ?_⟩
    rw [hw] at hw'
    cases hw'
  | some w =>
    obtain ⟨w', h', hrun, hsteps, hmore⟩ := hi.turns o n (c := ready r) hw rfl
    have hready : (ready r).acted i w' .ready h' =
        ready { r with heap := h', workers := r.workers.setIfInBounds i w' } :=
      congrArg (Crew.mk _) (Function.update_eq_self i fun _ => Stage.ready)
    refine ⟨{ r with heap := h', workers := r.workers.setIfInBounds i w' }, ?_, hready ▸ hsteps,
      Array.size_setIfInBounds, fun j hj => Array.getElem?_setIfInBounds_ne (Ne.symm hj), ?_⟩
    · change (w.advance o n).run r.heap = .ok w' h' at hrun
      simp only [WorkloadRun.onHeap, hrun]
      rfl
    · intro w'' hw'' hwork
      rw [Array.getElem?_setIfInBounds_self_of_lt (Array.getElem?_eq_some_iff.1 hw).1] at hw''
      cases hw''
      exact ⟨w, rfl, (hmore hwork).2⟩

/-- All workers can be hired before one of them makes an object. -/
theorem Inv.hireAll (o : Workload) (hi : (ready r).Inv ts P) (hnone : r.workers = #[]) (n : Nat) (hn : n ≤ o.threads) :
    ∃ r', r.hire n = .ok r' ∧ Steps o (ready r) (ready r') ∧ r'.workers.size = n ∧ ∀ w ∈ r'.workers, w.made = 0 := by
  induction n with
  | zero => exact ⟨r, rfl, .refl, by rw [hnone]; rfl, by simp [hnone]⟩
  | succ n ih =>
    obtain ⟨r₁, hrun, hsteps, hsize, hmade⟩ := ih (Nat.le_of_succ_le hn)
    obtain ⟨ts₁, P₁, hi₁⟩ := hsteps.inv hi
    obtain ⟨r', w, hnext, hworkers, hw, -⟩ := hi₁.hire
    change r₁.hireNext = .ok r' at hnext
    change r'.workers = r₁.workers.push w at hworkers
    refine ⟨r', ?_, hsteps.tail (.hire (by show r₁.workers.size < _; omega) hnext), ?_, ?_⟩
    · rw [← hnext]
      unfold WorkloadRun.hire WorkloadRun.hireNext
      rw [hrun, hsize]
      rfl
    · rw [hworkers, Array.size_push, hsize]
    · intro v hv
      rw [hworkers, Array.mem_push] at hv
      rcases hv with hv | rfl
      · exact hmade v hv
      · exact hw

/-- **The workers one after the other**, each until it has ended. -/
theorem Inv.advanceAll (o : Workload) (hi : (ready r).Inv ts P) (hmade : ∀ w ∈ r.workers, w.made = 0) (n : Nat) :
    ∃ r', (List.range n).foldlM (·.advance o (o.objects + 1)) r = Except.ok r' ∧ Steps o (ready r) (ready r') ∧
      r'.workers.size = r.workers.size ∧ (∀ i, n ≤ i → r'.workers[i]? = r.workers[i]?) ∧
      ∀ i w, i < n → r'.workers[i]? = some w → w.progress ≠ .working := by
  induction n with
  | zero => exact ⟨r, rfl, .refl, rfl, fun _ _ => rfl, fun i w hi => absurd hi (Nat.not_lt_zero i)⟩
  | succ n ih =>
    obtain ⟨r₁, hrun, hsteps, hsize, hkept, hended⟩ := ih
    obtain ⟨ts₁, P₁, hi₁⟩ := hsteps.inv hi
    have hzero {w : Worker} (hw : r₁.workers[n]? = some w) : w.made = 0 :=
      hmade w (Array.mem_of_getElem? ((hkept n (Nat.le_refl n)).symm.trans hw))
    obtain ⟨r', hnext, hsteps', hsize', hother, hlast⟩ := hi₁.advance o (o.objects + 1) n
    refine ⟨r', ?_, hsteps.trans hsteps', hsize'.trans hsize, ?_, ?_⟩
    · rw [List.range_succ, List.foldlM_append, hrun]
      show (r₁.advance o (o.objects + 1) n >>= pure) = Except.ok r'
      rw [hnext]
      rfl
    · intro i hle
      rw [hother i (by omega)]
      exact hkept i (Nat.le_of_succ_le hle)
    · intro i w hlt hw hwork
      by_cases he : i = n
      · subst he
        -- it would have made more objects than there are
        obtain ⟨w₁, hw₁, hmade₁, hle⟩ := hlast w hw hwork
        rw [hzero hw₁] at hmade₁ hle
        omega
      · rw [hother i he] at hw
        exact hended i w (by omega) hw hwork

/-- **The run that takes the workers one after the other** is one that a crew reaches, and closes it. -/
theorem tryRun_eq {settings : Settings} {base : Address} {h : Heap} (sizes : o.settings = .ok settings)
    (run : Heap.create settings base true false = .ok h) (page : pageBytes ∣ base) (base_ne : base ≠ 0)
    (high : h.high < addressLimit) : ∃ c, Reached o c ∧ c.Done o ∧ o.tryRun base = o.close c.run := by
  obtain ⟨h', hkept, ts, P, hi⟩ := inv_start sizes run page base_ne high
  obtain ⟨r₁, hhire, hsteps₁, hsize₁, hmade⟩ := hi.hireAll o rfl o.threads (Nat.le_refl _)
  obtain ⟨ts₁, P₁, hi₁⟩ := hsteps₁.inv hi
  obtain ⟨r₂, hadvance, hsteps₂, hsize₂, -, hended⟩ := hi₁.advanceAll o hmade o.threads
  refine ⟨ready r₂, ((Reached.start sizes run page base_ne high hkept).steps hsteps₁).steps hsteps₂,
    ⟨hsize₂.trans hsize₁, fun w hw => ?_⟩, ?_⟩
  · obtain ⟨i, hlt, rfl⟩ := Array.mem_iff_getElem.1 hw
    have hlt' : i < o.threads := by
      rw [← hsize₁, ← hsize₂]
      exact hlt
    exact hended i _ hlt' (Array.getElem?_eq_getElem hlt)
  · unfold Workload.tryRun
    rw [sizes]
    simp only [bind, Except.bind, run, hkept, hhire, hadvance]
    rfl

end Crew
end MarkSweep
