import Mathlib.Algebra.Ring.Nat
import Mathlib.Data.Set.Function
import MarkSweep.Object.Narrow
/-!
# The narrow codec — which addresses 32 bits give back

An address above the base is encoded as the number of whole steps from the base to it, and decoding goes that many steps
from the base again.  So the way to 32 bits and back rounds an address down to a step, and the addresses it gives back
are null and the `Exact` ones, whatever the base (`codec_faithful`).
-/
namespace MarkSweep
namespace NarrowEncoding

/-- How many whole steps an address lies above the base. -/
def steps (e : NarrowEncoding) (a : Address) : Nat := (a - e.base) / 2 ^ e.shift

/-- The address `n` steps above the base. -/
def address (e : NarrowEncoding) (n : Nat) : Address := e.base + n * 2 ^ e.shift

/-- An address a whole number of steps above the base, and not more of them than 32 bits count. -/
structure Exact (e : NarrowEncoding) (a : Address) : Prop where
  above : e.base < a
  dvd : 2 ^ e.shift ∣ a - e.base
  reach : e.steps a < narrowLimit

variable {e : NarrowEncoding} {a b n : Nat}

/-! ## Steps and addresses -/

theorem steps_address (e : NarrowEncoding) (n : Nat) : e.steps (e.address n) = n := by
  rw [steps, address, Nat.add_sub_cancel_left, Nat.mul_div_cancel _ (Nat.two_pow_pos _)]

theorem address_steps_le (h : e.base ≤ a) : e.address (e.steps a) ≤ a := by
  have hle := Nat.div_mul_le_self (a - e.base) (2 ^ e.shift)
  exact Nat.le_trans (Nat.add_le_add_left hle _) (Nat.le_of_eq (Nat.add_sub_cancel' h))

theorem address_steps_eq_iff (h : e.base ≤ a) : e.address (e.steps a) = a ↔ 2 ^ e.shift ∣ a - e.base := by
  rw [Nat.dvd_iff_div_mul_eq, eq_comm, eq_comm (b := a - e.base), Nat.sub_eq_iff_eq_add' h]
  rfl

theorem address_eq_base_iff : e.address n = e.base ↔ n = 0 := by
  have hpos := Nat.two_pow_pos e.shift
  rw [address, Nat.add_eq_left, Nat.mul_eq_zero]
  exact or_iff_left (Nat.ne_of_gt hpos)

theorem lt_address (hn : n ≠ 0) : e.base < e.address n :=
  Nat.lt_add_of_pos_right (Nat.mul_pos (Nat.pos_of_ne_zero hn) (Nat.two_pow_pos _))

namespace Exact

theorem address_steps (h : e.Exact a) : e.address (e.steps a) = a :=
  (address_steps_eq_iff (Nat.le_of_lt h.above)).2 h.dvd

theorem steps_ne_zero (h : e.Exact a) : e.steps a ≠ 0 := by
  intro hz
  have hbase := h.address_steps
  rw [address_eq_base_iff.2 hz] at hbase
  exact Nat.ne_of_lt h.above hbase

/-- A higher address is more steps above the base. -/
theorem steps_lt (ha : e.Exact a) (hb : e.Exact b) (h : a < b) : e.steps a < e.steps b := by
  rw [← ha.address_steps, ← hb.address_steps, address, address, Nat.add_lt_add_iff_left] at h
  exact Nat.lt_of_mul_lt_mul_right h

end Exact

/-! ## What the two directions give -/

theorem encode_zero (e : NarrowEncoding) : e.encode 0 = .ok 0 := rfl

theorem decode_zero (e : NarrowEncoding) : e.decode 0 = .ok .null := rfl

/-- **Encoding counts the steps** of an address above the base, as far as 32 bits count them. -/
theorem encode_eq (hshift : e.shift < 64) (hne : a ≠ 0) :
    e.encode a = if e.base < a ∧ e.steps a < narrowLimit then .ok (e.steps a) else .error (.notEncodable a) := by
  unfold encode
  rw [if_neg hne]
  simp only [bind, Except.bind, pure, Except.pure, throw, throwThe, MonadExceptOf.throw]
  by_cases habove : a ≤ e.base
  · rw [if_pos habove, if_neg (mt And.left (Nat.not_lt_of_le habove))]
  rw [if_neg habove, if_neg (Nat.not_le_of_lt hshift), Nat.shiftRight_eq_div_pow, ← steps]
  by_cases hreach : narrowLimit ≤ e.steps a
  · rw [if_pos hreach, if_neg (mt And.right (Nat.not_lt_of_le hreach))]
  · rw [if_neg hreach, if_pos ⟨Nat.lt_of_not_le habove, Nat.lt_of_not_le hreach⟩]

theorem encode_of_reach (hshift : e.shift < 64) (habove : e.base < a) (hreach : e.steps a < narrowLimit) :
    e.encode a = .ok (e.steps a) := by
  rw [encode_eq hshift (Nat.ne_of_gt (Nat.lt_of_le_of_lt (Nat.zero_le _) habove)), if_pos ⟨habove, hreach⟩]

/-- **Decoding goes the steps**, where they lead to an address. -/
theorem decode_of_lt (hshift : e.shift < 64) (hn : n ≠ 0) (h : e.address n < addressLimit) :
    e.decode n = .ok (e.address n) := by
  have hsmall : n * 2 ^ e.shift < addressLimit := Nat.lt_of_le_of_lt (Nat.le_add_left _ _) h
  unfold decode checkedAdd
  rw [if_neg hn, if_neg (Nat.not_le_of_lt hshift), Nat.shiftLeft_eq, Nat.mod_eq_of_lt hsmall]
  exact if_pos h

/-! ## There and back -/

theorem encode_decode (hshift : e.shift < 64) (hn : n < narrowLimit) (h : e.address n < addressLimit) :
    ∃ a, e.decode n = .ok a ∧ e.encode a = .ok n := by
  by_cases hz : n = 0
  · subst hz
    exact ⟨0, rfl, rfl⟩
  · have habove : e.base < e.address n := lt_address hz
    have hsteps := steps_address e n
    refine ⟨e.address n, decode_of_lt hshift hz h, ?_⟩
    rw [encode_of_reach hshift habove (by rwa [hsteps]), hsteps]

/-- An address decodes from its number of steps to what lies that many steps above the base. -/
theorem decode_steps (hshift : e.shift < 64) (h : e.base ≤ a) (ha : a < addressLimit) :
    e.decode (e.steps a) = .ok (if e.steps a = 0 then .null else e.address (e.steps a)) := by
  by_cases hz : e.steps a = 0
  · rw [if_pos hz, hz, decode_zero]
  · rw [if_neg hz, decode_of_lt hshift hz (Nat.lt_of_le_of_lt (address_steps_le h) ha)]

/-- **What comes back of an address is the address exactly if it is null or exact.** -/
theorem decode_encode_iff (hshift : e.shift < 64) (ha : a < addressLimit) :
    (∃ n, e.encode a = .ok n ∧ e.decode n = .ok a) ↔ a = 0 ∨ e.Exact a := by
  by_cases hz : a = 0
  · subst hz
    exact ⟨fun _ => .inl rfl, fun _ => ⟨0, rfl, rfl⟩⟩
  rw [or_iff_right hz, encode_eq hshift hz]
  by_cases hreach : e.base < a ∧ e.steps a < narrowLimit
  case neg =>
    -- nothing is encoded below the base, nor out of reach
    rw [if_neg hreach]
    constructor
    · rintro ⟨n, hn, -⟩
      cases hn
    · exact fun h => absurd ⟨h.above, h.reach⟩ hreach
  rw [if_pos hreach]
  have hle := Nat.le_of_lt hreach.1
  have hdecode := decode_steps hshift hle ha
  constructor
  · rintro ⟨n, hn, hback⟩
    cases hn
    rw [hdecode, Except.ok.injEq] at hback
    have hne : e.steps a ≠ 0 := by
      intro hzero
      rw [if_pos hzero] at hback
      exact hz hback.symm
    rw [if_neg hne] at hback
    exact ⟨hreach.1, (address_steps_eq_iff hle).1 hback, hreach.2⟩
  · intro h
    refine ⟨e.steps a, rfl, ?_⟩
    rw [hdecode, if_neg h.steps_ne_zero, h.address_steps]

theorem encode_exact (hshift : e.shift < 64) (h : e.Exact a) : e.encode a = .ok (e.steps a) :=
  encode_of_reach hshift h.above h.reach

theorem encode_injOn (hshift : e.shift < 64) : Set.InjOn e.encode {a | a = 0 ∨ e.Exact a} := by
  have hzero {a : Nat} (h : e.Exact a) : e.encode a ≠ .ok 0 := by
    rw [encode_exact hshift h, ne_eq, Except.ok.injEq]
    exact h.steps_ne_zero
  rintro a (rfl | ha) b (rfl | hb) heq
  · rfl
  · exact absurd heq.symm (hzero hb)
  · exact absurd heq (hzero ha)
  · rw [encode_exact hshift ha, encode_exact hshift hb, Except.ok.injEq] at heq
    rw [← ha.address_steps, heq, hb.address_steps]

/-- **What a codec between addresses and 32 bits owes.** -/
structure Faithful (e : NarrowEncoding) : Prop where
  /-- A number that stands for an address is encoded again from it. -/
  numbers : ∀ n < narrowLimit, e.base + n * 2 ^ e.shift < addressLimit → ∃ a, e.decode n = .ok a ∧ e.encode a = .ok n
  /-- An address in reach comes back rounded down to a step, or as null where that is the base. -/
  rounds : ∀ a, e.base < a → a < addressLimit → (a - e.base) / 2 ^ e.shift ≤ narrowLimit - 1 →
    ∃ n b, e.encode a = .ok n ∧ e.decode n = .ok b ∧
      (let down := e.base + (a - e.base) / 2 ^ e.shift * 2 ^ e.shift
       b = if down = e.base then .null else down) ∧
      (b = a ↔ 2 ^ e.shift ∣ a - e.base)
  null : e.encode .null = .ok 0 ∧ e.decode 0 = .ok .null
  /-- No other address comes back as itself. -/
  survivors : ∀ a < addressLimit, (∃ n, e.encode a = .ok n ∧ e.decode n = .ok a) ↔ a = 0 ∨ e.Exact a
  injective : Set.InjOn e.encode {a | a = 0 ∨ e.Exact a}
  increasing : ∀ a b, e.Exact a → e.Exact b → a < b → ∃ m n, e.encode a = .ok m ∧ e.encode b = .ok n ∧ m < n

/-- **Narrow references are faithful**, for every base and every step up to 2^32. -/
theorem codec_faithful (e : NarrowEncoding) (hshift : e.shift ≤ 32) : e.Faithful := by
  have hs : e.shift < 64 := Nat.lt_of_le_of_lt hshift (by decide)
  constructor
  case numbers => exact fun n hn h => encode_decode hs hn h
  case rounds =>
    intro a hbase ha hreach
    have hle := Nat.le_of_lt hbase
    have hz : a ≠ 0 := Nat.ne_of_gt (Nat.lt_of_le_of_lt (Nat.zero_le _) hbase)
    have hlt : e.steps a < narrowLimit := Nat.lt_of_le_of_lt hreach (by decide)
    have hdown : (e.address (e.steps a) = e.base) = (e.steps a = 0) := propext address_eq_base_iff
    refine ⟨e.steps a, if e.steps a = 0 then .null else e.address (e.steps a), ?_,
      decode_steps hs hle ha, ?_, ?_⟩
    · exact encode_of_reach hs hbase hlt
    · show _ = if e.address (e.steps a) = e.base then Address.null else e.address (e.steps a)
      simp only [hdown]
    · rw [← address_steps_eq_iff hle]
      split
      · next hzero =>
        rw [address_eq_base_iff.2 hzero]
        exact iff_of_false (fun h => hz h.symm) (Nat.ne_of_lt hbase)
      · exact Iff.rfl
  case null => exact ⟨encode_zero e, decode_zero e⟩
  case survivors => exact fun a ha => decode_encode_iff hs ha
  case injective => exact encode_injOn hs
  case increasing =>
    exact fun a b ha hb h => ⟨_, _, encode_exact hs ha, encode_exact hs hb, ha.steps_lt hb h⟩

/-- A base above 2^32 and steps of a granule: an address inside a granule comes back as its start, and the first granule
above the base is null from inside. -/
theorem exists_faithful : ∃ e : NarrowEncoding, e = ⟨0x100000000, 4⟩ ∧ e.shift ≤ 32 ∧ e.Faithful ∧
    (∃ n, e.encode 0x100000047 = .ok n ∧ e.decode n = .ok 0x100000040) ∧
    (∃ n, e.encode 0x10000000f = .ok n ∧ e.decode n = .ok .null) ∧
    ∃ m n, e.encode 0x100000010 = .ok m ∧ e.encode 0x100000040 = .ok n ∧ m < n := by
  have h := codec_faithful ⟨0x100000000, 4⟩ (by decide)
  refine ⟨_, rfl, by decide, h, ⟨4, by decide, by decide⟩, ⟨0, by decide, by decide⟩, ?_⟩
  exact h.increasing _ _ ⟨by decide, by decide, by decide⟩ ⟨by decide, by decide, by decide⟩ (by decide)

end NarrowEncoding
end MarkSweep
