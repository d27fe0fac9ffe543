import PhysicalMemory.Rounding
import PhysicalMemory.Claims.Basic

/-!
# Finding room

A search visits the holes of a claim table from the lowest to the highest and takes the first
aligned address at which the wanted bytes fit into the hole and end at or below a ceiling.
-/

namespace PhysicalMemory.Claims

variable {capacity : Nat}

/-- What a search looks for. -/
structure Wanted where
  /-- The number of bytes. -/
  size : UInt64
  /-- The address is to be a multiple of this. -/
  alignment : UInt64
  /-- The bytes are to end at or below this position. -/
  ceiling : Nat
deriving DecidableEq

/-- The first aligned address in the hole between two positions, if the wanted bytes fit there. -/
def Wanted.fitBetween (wanted : Wanted) (start stop : Nat) : Except Halt (Option UInt64) :=
  if start < stop then do
    let aligned ← roundUp (UInt64.ofNat start) wanted.alignment
    return aligned.filter fun address =>
      decide (address.toNat + wanted.size.toNat ≤ min stop wanted.ceiling)
  else return none

/-- The first fit in the holes around entries, where the first hole starts at a position. No hole
from the ceiling on is worth a look. -/
def Wanted.fitAround (wanted : Wanted) (start : Nat) : List Extent → Except Halt (Option UInt64)
  | [] => wanted.fitBetween start addressSpace
  | entry :: rest =>
    if wanted.ceiling ≤ start then return none
    else do
      match ← wanted.fitBetween start entry.start with
      | some address => return some address
      | none => wanted.fitAround entry.stop rest

/-- The lowest aligned address at which the wanted bytes are unclaimed, if there is one. -/
def firstFit (claims : Claims capacity) (wanted : Wanted) : Except Halt (Option UInt64) :=
  wanted.fitAround 0 claims.entries

end PhysicalMemory.Claims
