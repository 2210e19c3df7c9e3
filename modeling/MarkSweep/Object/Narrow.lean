import MarkSweep.Address
/-!
# Narrow references — addresses in 32 bits

A narrow reference `n` stands for the address `base + n * 2 ^ shift`, and `0` for null.
-/
namespace MarkSweep

@[noinline] def narrowLimit : Nat := 0x100000000

structure NarrowEncoding where
  base : Address
  shift : Nat
  deriving DecidableEq, Repr

namespace NarrowEncoding

/-- The address a narrow reference stands for; bits shifted out of the 64-bit range are lost. -/
def decode (e : NarrowEncoding) (n : Nat) : Except Fault Address :=
  if n = 0 then .ok .null
  else if 64 ≤ e.shift then .error .overflow
  else checkedAdd e.base ((n <<< e.shift) % addressLimit)

/-- The narrow reference for an address above the base and not too far from it.  The base itself has none, since `0` is
null. -/
def encode (e : NarrowEncoding) (a : Address) : Except Fault Nat := do
  if a = 0 then
    return 0
  if a ≤ e.base then
    throw (.notEncodable a)
  if 64 ≤ e.shift then
    throw .overflow
  let offset := (a - e.base) >>> e.shift
  if narrowLimit ≤ offset then
    throw (.notEncodable a)
  return offset

end NarrowEncoding

end MarkSweep
