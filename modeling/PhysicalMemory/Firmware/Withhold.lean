import PhysicalMemory.Arena.Reserve
import PhysicalMemory.Firmware.Audit
import PhysicalMemory.Firmware.Coalesce

/-!
# Withholding what a memory map does not grant

An arena starts with all memory unclaimed. From a memory map follows a plan of what has to be
withheld: the memory above all regions, the gaps between regions, and the regions whose usage is not
granted. Empty regions play no part, and a region inside an earlier, longer one opens no gap. The
plan depends on the map alone; carrying it out reserves each piece in turn and stops at the first
that cannot be reserved.

Memory of the boot loader is granted, because it is free once the boot is over; until then it can be
withheld on its own.
-/

namespace PhysicalMemory.Firmware

variable {capacity : Nat}

/-- The greatest stop of the regions that are not empty, if there are any. -/
def top? (regions : List Region) : Option Nat :=
  ((regions.filter fun region => !region.extent.isEmpty).map fun region => region.extent.stop).max?

/-- The memory from a position to the top of the address space. -/
def aboveTop (top : Nat) : List Withheld :=
  if top < addressSpace then [⟨.between top addressSpace, .aboveMap⟩] else []

/-- The gap between what is covered so far and the start of a region. -/
def gapBefore (covered : Nat) (region : Region) : List Withheld :=
  if covered < region.extent.start then [⟨.between covered region.extent.start, .gap⟩] else []

/-- The region itself, unless its usage is granted. -/
def ungranted (region : Region) : List Withheld :=
  if region.usage.isGranted then [] else [⟨region.extent, .usage region.usage⟩]

/-- The gaps between regions and the regions that are not granted, in ascending order, given what is
covered by the regions before them. -/
def sweep (covered : Nat) : List Region → List Withheld
  | [] => []
  | region :: rest =>
    if region.extent.isEmpty then sweep covered rest
    else
      gapBefore covered region ++ ungranted region ++ sweep (max covered region.extent.stop) rest

/-- All that has to be withheld, for a map whose regions reach up to `top`. -/
def plan (top : Nat) (regions : List Region) : List Withheld := aboveTop top ++ sweep 0 regions

/-- Reserves a piece of memory and reports it. -/
def withholdPiece (piece : Withheld) : Action (Arena capacity) Unit := do
  Action.emit (.withholding piece)
  Arena.reserve piece.extent

/-- Withholds all that a memory map does not grant. -/
def withhold (regions : List Region) : Action (Arena capacity) Unit := do
  audit regions
  match top? regions with
  | none => Action.refuse .emptyMap
  | some top => do
    Action.forEach (plan top regions) withholdPiece
    let arena ← get
    Action.emit (.withheld arena.claims.size arena.claims.byteCount)

/-- The memory of the boot loader in a memory map. -/
def loaderPieces (regions : List Region) : List Withheld :=
  (regions.filter fun region => region.usage == .loader && !region.extent.isEmpty).map
    fun region => ⟨region.extent, .loader⟩

/-- Withholds the memory of the boot loader, so that memory claimed from then on can be written at
once. -/
def withholdLoader (regions : List Region) : Action (Arena capacity) Unit :=
  Action.forEach (loaderPieces regions) withholdPiece

/-- Coalesces a memory map and withholds what it does not grant; the value is the canonical map. -/
def adopt (regions : List Region) : Action (Arena capacity) (List Region) := do
  let canonicalMap ← coalesce regions
  withhold canonicalMap
  pure canonicalMap

end PhysicalMemory.Firmware
