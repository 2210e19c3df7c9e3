import MarkSweep.Error
/-!
# Addresses — 64-bit addresses and sizes, with checked arithmetic

An address is a number below `addressLimit`, and so is every size.  Sums, differences and products that leave this
range are a fault, never a wrapped number.
-/
namespace MarkSweep

abbrev Address := Nat

def wordBytes : Nat := 8

/-- Bytes in a page, which is also the step in which address space is reserved. -/
def pageBytes : Nat := 4096

@[noinline] def addressLimit : Nat := 0x10000000000000000

def checkedAdd (a b : Nat) : Except Fault Nat :=
  if a + b < addressLimit then .ok (a + b) else .error .overflow

def checkedSub (a b : Nat) : Except Fault Nat :=
  if b ≤ a then .ok (a - b) else .error .overflow

def checkedMul (a b : Nat) : Except Fault Nat :=
  if a * b < addressLimit then .ok (a * b) else .error .overflow

/-- The least multiple of `align` (a power of two) at or above `value`. -/
def alignUp (value align : Nat) : Except Fault Nat := do
  let sum ← checkedAdd value (← checkedSub align 1)
  return sum / align * align

/-- The greatest multiple of `align` (a power of two) at or below `value`. -/
def alignDown (value align : Nat) : Except Fault Nat := do
  let _ ← checkedSub align 1
  return value / align * align

def divCeil (n d : Nat) : Except Fault Nat :=
  if d = 0 then .error .zeroDivisor else .ok ((n + (d - 1)) / d)

def isPowerOfTwo (n : Nat) : Bool := n != 0 && n == 1 <<< n.log2

/-- A number in base 16 behind `0x`, as addresses are shown. -/
def toHex (n : Nat) : String := "0x" ++ String.ofList (Nat.toDigits 16 n)

namespace Address

def null : Address := 0

def isNull (a : Address) : Bool := a == 0

def addWords (a : Address) (words : Nat) : Except Fault Address := do
  checkedAdd a (← checkedMul words wordBytes)

def addBytes (a : Address) (bytes : Nat) : Except Fault Address :=
  checkedAdd a bytes

def wordsSince (a base : Address) : Except Fault Nat := do
  return (← checkedSub a base) / wordBytes

def isAligned (a : Address) (bytes : Nat) : Except Fault Bool := do
  return a &&& (← checkedSub bytes 1) == 0

end Address

/-! ## Laws of rounding -/

theorem alignUp_eq_ok_iff {v a r : Nat} :
    alignUp v a = .ok r ↔ 1 ≤ a ∧ v + (a - 1) < addressLimit ∧ r = (v + (a - 1)) / a * a := by
  unfold alignUp checkedSub checkedAdd
  by_cases ha : 1 ≤ a <;> by_cases hv : v + (a - 1) < addressLimit <;>
    simp [ha, hv, bind, Except.bind, pure, Except.pure, eq_comm]

theorem le_roundUp {v a : Nat} (ha : 0 < a) : v ≤ (v + (a - 1)) / a * a := by
  have h := Nat.div_add_mod (v + (a - 1)) a
  have hm := Nat.mod_lt (v + (a - 1)) ha
  rw [Nat.mul_comm] at h
  omega

theorem roundUp_lt {v a : Nat} (ha : 0 < a) : (v + (a - 1)) / a * a < v + a := by
  have := Nat.div_mul_le_self (v + (a - 1)) a
  omega

theorem roundUp_of_dvd {v a : Nat} (ha : 0 < a) (h : a ∣ v) : (v + (a - 1)) / a * a = v := by
  obtain ⟨k, rfl⟩ := h
  have : (a * k + (a - 1)) / a = k := by
    rw [Nat.mul_add_div ha]
    have : (a - 1) / a = 0 := Nat.div_eq_of_lt (by omega)
    omega
  rw [this, Nat.mul_comm]

end MarkSweep
