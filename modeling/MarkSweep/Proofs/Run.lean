import Mathlib.Order.Defs.Unbundled
import MarkSweep.Error
/-!
# Running operations

An operation ends with a result and a state, or with a fault and a state.  These lemmas take a sequence of operations
apart, forwards (`run_bind_of_ok`) and backwards (`run_bind_eq_ok`).
-/
namespace MarkSweep

variable {ε σ α β : Type}

theorem run_bind_of_ok {x : EStateM ε σ α} {f : α → EStateM ε σ β} {s s' : σ} {a : α} (h : x.run s = .ok a s') :
    (x >>= f).run s = (f a).run s' := by
  rw [EStateM.run_bind, h]

theorem run_bind_eq_ok {x : EStateM ε σ α} {f : α → EStateM ε σ β} {s s'' : σ} {b : β}
    (h : (x >>= f).run s = .ok b s'') : ∃ a s', x.run s = .ok a s' ∧ (f a).run s' = .ok b s'' := by
  rw [EStateM.run_bind] at h
  cases hx : x.run s with
  | ok a s' => exact ⟨a, s', rfl, by rwa [hx] at h⟩
  | error e s' => rw [hx] at h; cases h

@[simp] theorem run_lift_ok (a : α) (s : σ) : (liftM (Except.ok a : Except Fault α) : EStateM Fault σ α).run s = .ok a s :=
  rfl

@[simp] theorem run_lift_error (f : Fault) (s : σ) :
    (liftM (Except.error f : Except Fault α) : EStateM Fault σ α).run s = .error f s := rfl

theorem except_bind_eq_ok {x : Except ε α} {f : α → Except ε β} {b : β} (h : (x >>= f) = .ok b) :
    ∃ a, x = .ok a ∧ f a = .ok b := by
  cases x with
  | ok a => exact ⟨a, rfl, h⟩
  | error e => cases h

theorem lift_fault_eq_ok {x : Except Fault α} {a : α} (h : (liftM x : Except Failure α) = .ok a) : x = .ok a := by
  cases x with
  | ok b => cases h; rfl
  | error f => cases h

theorem lift_error_eq_ok {x : Except HeapError α} {a : α} (h : (liftM x : Except Failure α) = .ok a) : x = .ok a := by
  cases x with
  | ok b => cases h; rfl
  | error f => cases h

theorem except_bind_of_ok {x : Except ε α} {a : α} (h : x = .ok a) (f : α → Except ε β) : (x >>= f) = f a := by
  rw [h]
  rfl

theorem except_bind_of_error {x : Except ε α} {e : ε} (h : x = .error e) (f : α → Except ε β) :
    (x >>= f) = .error e := by
  rw [h]
  rfl

theorem lift_fault_of_ok {x : Except Fault α} {a : α} (h : x = .ok a) : (liftM x : Except Failure α) = .ok a := by
  rw [h]
  rfl

theorem lift_fault_of_error {x : Except Fault α} {f : Fault} (h : x = .error f) :
    (liftM x : Except Failure α) = .error (.fault f) := by
  rw [h]
  rfl

/-! ## The last state -/

/-- The state that an operation leaves, also where a fault stops it. -/
def finalState : EStateM.Result ε σ α → σ
  | .ok _ s => s
  | .error _ s => s

/-- However `x` ends, its first and its last state are in the relation `R`. -/
def Leads (R : σ → σ → Prop) (x : EStateM ε σ α) : Prop := ∀ s, R s (finalState (x.run s))

namespace Leads

variable {R : σ → σ → Prop}

theorem pure [Std.Refl R] (a : α) : Leads R (pure a : EStateM ε σ α) := fun s => Std.Refl.refl s

theorem lift [Std.Refl R] (x : Except Fault α) : Leads R (liftM x : EStateM Fault σ α) := fun s => by
  cases x <;> exact Std.Refl.refl s

theorem bind [IsTrans σ R] {x : EStateM ε σ α} {f : α → EStateM ε σ β} (hx : Leads R x) (hf : ∀ a, Leads R (f a)) :
    Leads R (x >>= f) := by
  intro s
  have hfirst := hx s
  rw [EStateM.run_bind]
  cases hrun : x.run s with
  | ok a s' =>
    rw [hrun] at hfirst
    exact IsTrans.trans _ _ _ hfirst (hf a s')
  | error e s' =>
    rw [hrun] at hfirst
    exact hfirst

theorem get_bind {f : σ → EStateM ε σ β} (hf : ∀ s, Leads R (f s)) : Leads R (get >>= f) := fun s => hf s s

theorem modify {f : σ → σ} (hf : ∀ s, R s (f s)) : Leads R (modify f : EStateM ε σ Unit) := hf

theorem modifyGet {f : σ → α × σ} (hf : ∀ s, R s (f s).2) : Leads R (modifyGet f : EStateM ε σ α) := hf

theorem mono {R' : σ → σ → Prop} (h : ∀ {s s'}, R s s' → R' s s') {x : EStateM ε σ α} (hx : Leads R x) : Leads R' x :=
  fun s => h (hx s)

end Leads

end MarkSweep
