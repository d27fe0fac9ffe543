import PhysicalMemory.Outcome

/-!
# Rounding addresses

Addresses are rounded to multiples of an alignment, which need not be a power of two. Rounding to
multiples of zero halts, and rounding up has no answer when the multiple is past the last address.
-/

namespace PhysicalMemory

/-- The least multiple of the alignment at or above an address, if it is an address itself. -/
def roundUp (address alignment : UInt64) : Except Halt (Option UInt64) :=
  if alignment = 0 then .error .zeroStep
  else
    let rounded := ceilingTo alignment.toNat address.toNat
    .ok (if rounded < addressSpace then some (UInt64.ofNat rounded) else none)

/-- The greatest multiple of the alignment at or below an address. -/
def roundDown (address alignment : UInt64) : Except Halt UInt64 :=
  if alignment = 0 then .error .zeroStep
  else .ok (UInt64.ofNat (floorTo alignment.toNat address.toNat))

end PhysicalMemory
