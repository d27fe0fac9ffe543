/-!
# Placements

A claim is placed at the address that the caller names, or wherever a search finds room.
-/

namespace PhysicalMemory

/-- Where a claim may be placed. -/
inductive Placement where
  /-- In the lowest room that ends at or below 4 GiB. -/
  | below4GiB
  /-- At the given address, which must be unclaimed. -/
  | fixed
  /-- At the given address, whether it is claimed or not. -/
  | forced
  /-- In the lowest room of the address space. -/
  | anywhere
deriving DecidableEq

namespace Placement

/-- The number by which callers ask for a placement. -/
def code : Placement → UInt32
  | .below4GiB => 0
  | .fixed => 1
  | .forced => 2
  | .anywhere => 3

/-- The placement with a number, if there is one. -/
def ofCode? (code : UInt32) : Option Placement :=
  [Placement.below4GiB, .fixed, .forced, .anywhere].find? fun p => p.code == code

/-- A placement in words. -/
def text : Placement → String
  | .below4GiB => "below 4GiB"
  | .fixed => "fixed"
  | .forced => "forced"
  | .anywhere => "anywhere"

/-- Every placement is found by its number. -/
theorem ofCode?_code (p : Placement) : ofCode? p.code = some p := by
  cases p <;> rfl

end Placement

end PhysicalMemory
