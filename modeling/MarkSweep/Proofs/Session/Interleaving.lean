import MarkSweep.Proofs.Heap.Aborts
import MarkSweep.Proofs.Session.Steps
/-!
# Aborted cycles between other requests

A request whose cycle is aborted leaves the heap as it was (`Heap.aborted`), so it makes no difference to anything that is
asked for later: a run with such requests anywhere in it has the same answers as the run without them.
-/
namespace MarkSweep

/-- A cycle that the request asks for is aborted, as the log tells. -/
def Request.Aborts (r : Request) (g : Guarded) : Prop := (r.serve g).2.heap.aborts ≠ g.heap.aborts

namespace Guarded

def permit (g : Guarded) (granted : Bool) : Guarded := { g with heap := { g.heap with granted } }

/-- `Interleaved g rs as g'`: a run from `g` to `g'` answers `rs` with `as`, and any number of requests whose cycles are
aborted, for which the system refuses memory, come between.  A collection for the cause on record stands among `rs` as the
one for that cause. -/
inductive Interleaved : Guarded → List Request → List (Except Fault Answer) → Guarded → Prop
  | done (g : Guarded) : Interleaved g [] [] g
  | request {g g' : Guarded} {r : Request} {rs : List Request} {as : List (Except Fault Answer)} (other : r ≠ .collectFull)
    (rest : Interleaved (r.serve g).2 rs as g') : Interleaved g (r :: rs) ((r.serve g).1 :: as) g'
  | replay {g g' : Guarded} {rs : List Request} {as : List (Except Fault Answer)}
    (rest : Interleaved (Request.collectFull.serve g).2 rs as g') :
    Interleaved g (.collect none g.heap.cause :: rs) ((Request.collectFull.serve g).1 :: as) g'
  | aborted {g g' : Guarded} {r : Request} {rs : List Request} {as : List (Except Fault Answer)}
    (aborts : r.Aborts (g.permit false)) (rest : Interleaved ((r.serve (g.permit false)).2.permit g.heap.granted) rs as g') :
    Interleaved g rs as g'

end Guarded

namespace Request

variable {h : Heap} {r : Request}

theorem serve_refused (ho : h.Orderly) {id : Option MutatorId} {cause : Cause} {a : Answer} (asks : r.AsksFor h id cause a)
    (hr : h.Refuses id) : r.serve ⟨h, false⟩ = (.ok a, ⟨h.aborted cause, false⟩) := by
  rw [r.serve_free, r.op_refused ho asks hr]

/-- **Which requests abort a cycle.** -/
theorem aborts_iff (ho : h.Orderly) :
    r.Aborts ⟨h, false⟩ ↔ ∃ id cause a, r.AsksFor h id cause a ∧ h.Refuses id := by
  constructor
  · intro haborts
    by_contra hno
    apply haborts
    have hsame := op_sameAborts (r := r) ho fun id cause a asks hr => hno ⟨id, cause, a, asks, hr⟩
    rw [r.serve_free]
    cases hrun : r.op.run h <;> rw [hrun] at hsame <;> exact hsame
  · rintro ⟨id, cause, a, asks, hr⟩
    unfold Aborts
    rw [serve_refused ho asks hr]
    exact Nat.ne_of_gt (by rw [h.aborts_aborted]; exact Nat.lt_succ_self _)

/-- A collection for the cause on record is one for that cause. -/
theorem serve_collectFull (h : Heap) : Request.collectFull.serve ⟨h, false⟩ = (collect none h.cause).serve ⟨h, false⟩ := by
  rw [serve_free, serve_free]
  rfl

end Request

namespace Guarded

/-- **A run answers the same with aborted cycles in it as without.** -/
theorem Interleaved.same {g g' : Guarded} {rs : List Request} {as : List (Except Fault Answer)}
    (run : Interleaved g rs as g') (free : g.locked = false) (ho : g.heap.Orderly) {k : Heap} (same : k.view = g.heap.view) :
    ∃ k' : Heap, Request.serveAll rs ⟨k, false⟩ = (as, ⟨k', false⟩) ∧ k'.view = g'.heap.view ∧ g'.locked = false := by
  induction run generalizing k with
  | done g => exact ⟨k, rfl, same, free⟩
  | @request g g' r rs as other rest ih =>
    obtain ⟨h, locked⟩ := g
    obtain rfl : locked = false := free
    obtain ⟨a, h₁, k₁, hserve, hserve', hview⟩ := Request.serve_view other same
    have ho₁ := (r.serve_orderly ho).2
    rw [hserve] at ih ho₁
    obtain ⟨k', hrun, hend⟩ := ih rfl ho₁ hview
    refine ⟨k', ?_, hend⟩
    rw [Request.serveAll, hserve', hserve]
    simp only [hrun]
  | @replay g g' rs as rest ih =>
    obtain ⟨h, locked⟩ := g
    obtain rfl : locked = false := free
    have hother : Request.collect none h.cause ≠ .collectFull := fun he => by cases he
    obtain ⟨a, h₁, k₁, hserve, hserve', hview⟩ := Request.serve_view hother same
    have ho₁ := (Request.collectFull.serve_orderly ho).2
    rw [Request.serve_collectFull, hserve] at ih ho₁
    obtain ⟨k', hrun, hend⟩ := ih rfl ho₁ hview
    refine ⟨k', ?_, hend⟩
    rw [Request.serveAll, hserve', Request.serve_collectFull, hserve]
    simp only [hrun]
  | @aborted g g' r rs as aborts rest ih =>
    obtain ⟨h, locked⟩ := g
    obtain rfl : locked = false := free
    have hrests (h : Heap) (granted : Bool) : h.Rests { h with granted } :=
      Heap.Writes.rests ⟨Nat.le_refl _, rfl, rfl⟩
    have ho₁ := (hrests h false).keepsOrder ho
    obtain ⟨id, cause, a, asks, hr⟩ := (Request.aborts_iff ho₁).1 aborts
    have ho₂ := (r.serve_orderly ho₁).2
    have hserve : r.serve ((⟨h, false⟩ : Guarded).permit false) =
      (.ok a, ⟨({ h with granted := false } : Heap).aborted cause, false⟩) := Request.serve_refused ho₁ asks hr
    rw [show r.serve ⟨{ h with granted := false }, false⟩ = _ from hserve] at ho₂
    rw [hserve] at ih
    exact ih rfl ((hrests _ h.granted).keepsOrder ho₂) (same.trans (h.aborted_view cause).symm)

/-- **An aborted cycle changes nothing.** -/
theorem Reached.abort_changes_nothing {g : Guarded} (hg : g.Reached) :
    (∀ r : Request, r.Aborts g ↔ ∃ id cause a, r.AsksFor g.heap id cause a ∧ g.heap.Refuses id) ∧
    (∀ {r : Request} {id cause a}, r.AsksFor g.heap id cause a → g.heap.Refuses id →
      r.serve g = (.ok a, ⟨g.heap.aborted cause, false⟩) ∧ g.locked = false ∧ g.heap.phase = .idle ∧
        g.heap.live.isCommitted = false) ∧
    Request.collectFull.serve g = (Request.collect none g.heap.cause).serve g ∧
    ∀ {rs as g'}, Interleaved g rs as g' →
      ∃ g'', Request.serveAll rs g = (as, g'') ∧ g''.heap.view = g'.heap.view ∧ g''.locked = false ∧ g'.locked = false := by
  obtain ⟨hfree, ho⟩ := hg.orderly
  obtain ⟨h, locked⟩ := g
  obtain rfl : locked = false := hfree
  refine ⟨fun r => Request.aborts_iff ho, fun asks hr => ?_, Request.serve_collectFull h, fun run => ?_⟩
  · obtain ⟨x, hhalt⟩ := hr.stops
    obtain ⟨hreq, -⟩ := Heap.halt_spec (fun hreq => (ho.calm hreq).1) hhalt
    exact ⟨Request.serve_refused ho asks hr, rfl, (ho.calm hreq).2⟩
  · obtain ⟨k', hrun, hview, hend⟩ := run.same rfl ho rfl
    exact ⟨⟨k', false⟩, hrun, hview, rfl, hend⟩

/-- Whether no thread uses a heap yet. -/
def idles (h : Heap) : Bool := h.mutators.isEmpty && !h.safepoint.requested

/-- A program whose collection is refused its bitmap, and a run with that collection in it. -/
theorem exists_aborted : ∃ g : Guarded, g.Reached ∧ (Request.collect none .explicit).Aborts g ∧
    (Request.collect none .explicit).serve g =
      (.ok (.collected (.error .uncommitted)), ⟨g.heap.aborted .explicit, false⟩) ∧
    ∃ as g', Interleaved g [.look] as g' ∧ g.heap.aborts < g'.heap.aborts ∧
      ∃ g'', Request.serveAll [.look] g = (as, g'') ∧ g''.heap.view = g'.heap.view := by
  have hrun : (match Heap.create Session.onePage 4096 true false with | .ok h => idles h | .error _ => false) = true := by
    decide +kernel
  cases hc : Heap.create Session.onePage 4096 true false with
  | error e => rw [hc] at hrun; cases hrun
  | ok h =>
  rw [hc] at hrun
  simp only [idles, Bool.and_eq_true, List.isEmpty_iff, Bool.not_eq_true'] at hrun
  obtain ⟨hnone, hreq⟩ := hrun
  have hreached : Reached ⟨{ h with granted := false }, false⟩ := by
    have hnext := (Reached.create hc).serve (.permit false)
    rw [Request.serve_free] at hnext
    exact hnext
  have hrefuses : ({ h with granted := false } : Heap).Refuses none := by
    refine ⟨hreached.orderly.2.stops hreq (fun m hm => ?_) (fun i hi => by cases hi), rfl⟩
    rw [show ({ h with granted := false } : Heap).mutators = [] from hnone] at hm
    cases hm
  obtain ⟨hiff, hserve, -, hruns⟩ := hreached.abort_changes_nothing
  have hasks := @Request.AsksFor.collect { h with granted := false } none .explicit (.inr rfl)
  have haborts := (hiff (.collect none .explicit)).2 ⟨_, _, _, hasks, hrefuses⟩
  obtain ⟨hanswer, -⟩ := hserve hasks hrefuses
  have hinserted : Interleaved ⟨{ h with granted := false }, false⟩ [.look] _ _ :=
    .aborted (r := .collect none .explicit) haborts (.request (fun he => by cases he) (.done _))
  obtain ⟨g'', hplain, hview, -⟩ := hruns hinserted
  refine ⟨_, hreached, haborts, hanswer, _, _, hinserted, ?_, g'', hplain, hview⟩
  calc ({ h with granted := false } : Heap).aborts
    _ < (({ h with granted := false } : Heap).aborted .explicit).aborts := by
      rw [Heap.aborts_aborted]
      exact Nat.lt_succ_self _
    _ = _ := (congrArg (·.2.heap.aborts) hanswer).symm

end Guarded
end MarkSweep
