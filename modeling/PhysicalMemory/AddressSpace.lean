/-!
# The physical address space

Addresses and lengths are 64-bit words. Where an extent of memory ends is a natural number, because
memory may end at `2^64`, one past the last address, and a firmware may even describe memory that
would run past it. This module holds the two bounds of the address space, the page of the platform
and the rounding of positions to multiples; `floorTo_le`, `le_ceilingTo` and the lemmas beside them
say that the roundings are the nearest multiples on either side.
-/

namespace PhysicalMemory

/-- The exclusive end of the address space: every address is below it. -/
def addressSpace : Nat := UInt64.size

/-- The exclusive end of what a 32-bit address can reach. -/
def fourGiB : Nat := UInt32.size

/-- The smallest page that the platform maps, in bytes. -/
def platformPage : UInt64 := 4096

/-- An address lies in the address space. -/
theorem toNat_lt_addressSpace (address : UInt64) : address.toNat < addressSpace :=
  address.toNat_lt

/-- The greatest multiple of `step` at or below `position`. -/
def floorTo (step position : Nat) : Nat := position / step * step

/-- The least multiple of `step` at or above `position`, for a `step` other than zero. -/
def ceilingTo (step position : Nat) : Nat := (position + (step - 1)) / step * step

/-- The floor is a multiple of the step. -/
theorem dvd_floorTo (step position : Nat) : step ∣ floorTo step position :=
  Nat.dvd_mul_left _ _

/-- The floor is not above the position. -/
theorem floorTo_le (step position : Nat) : floorTo step position ≤ position :=
  Nat.div_mul_le_self _ _

/-- The position lies less than one step above its floor. -/
theorem lt_floorTo_add {step : Nat} (h : 0 < step) (position : Nat) :
    position < floorTo step position + step := by
  have hdiv := Nat.div_add_mod position step
  have hmod := Nat.mod_lt position h
  rw [Nat.mul_comm] at hdiv
  unfold floorTo
  omega

/-- The ceiling is a multiple of the step. -/
theorem dvd_ceilingTo (step position : Nat) : step ∣ ceilingTo step position :=
  Nat.dvd_mul_left _ _

/-- The ceiling is not below the position. -/
theorem le_ceilingTo {step : Nat} (h : 0 < step) (position : Nat) :
    position ≤ ceilingTo step position := by
  have hlt := lt_floorTo_add h (position + (step - 1))
  unfold floorTo at hlt
  unfold ceilingTo
  omega

/-- The ceiling lies less than one step above the position. -/
theorem ceilingTo_lt {step : Nat} (h : 0 < step) (position : Nat) :
    ceilingTo step position < position + step := by
  have hle := floorTo_le step (position + (step - 1))
  unfold floorTo at hle
  unfold ceilingTo
  omega

/-- No multiple of the step lies between the position and its ceiling. -/
theorem ceilingTo_le_of_dvd {step position multiple : Nat} (h : 0 < step)
    (hdvd : step ∣ multiple) (hle : position ≤ multiple) : ceilingTo step position ≤ multiple := by
  obtain ⟨k, rfl⟩ := hdvd
  have hlt : (position + (step - 1)) / step < k + 1 := by
    rw [Nat.div_lt_iff_lt_mul h, Nat.add_mul, Nat.mul_comm k step]
    omega
  unfold ceilingTo
  rw [Nat.mul_comm step k]
  exact Nat.mul_le_mul_right step (by omega)

end PhysicalMemory
