import PhysicalMemory.Firmware.Withhold

/-!
# Memory maps in slots

Before there is a heap, a memory map lives in slots that the caller provides. The map is the front
of the slots; behind it stand slots that were never filled and, once the map has been coalesced,
regions that no longer belong to it. Every operation reads the front alone, so what stands behind it
cannot matter.
-/

namespace PhysicalMemory.Firmware

/-- A memory map at the front of slots. -/
@[ext]
structure MapBuffer where
  /-- The slots. -/
  slots : List Region
  /-- The number of regions in the map. -/
  count : Nat
deriving DecidableEq

namespace MapBuffer

variable {capacity : Nat}

/-- The regions of the map. -/
def regions (buffer : MapBuffer) : List Region := buffer.slots.take buffer.count

/-- There is no region in the map. -/
def isEmpty (buffer : MapBuffer) : Bool := buffer.count == 0

/-- A map that fills its slots. -/
def ofRegions (regions : List Region) : MapBuffer := ⟨regions, regions.length⟩

/-- Copies a platform's memory map to the front of slots, which must be as many as its entries. -/
def load {σ ρ : Type} [BootEntry ρ] (bootMap : List ρ) (slots : List Region) :
    Action σ MapBuffer :=
  if slots.length < bootMap.length then
    Action.refuse (.bootMapTooLong bootMap.length slots.length)
  else do
    Action.emit (.copied bootMap.length)
    pure ⟨bootMap.map Region.ofEntry ++ slots.drop bootMap.length, bootMap.length⟩

/-- The buffer with its map in canonical form. The map is coalesced in place: it shrinks towards the
front, and behind it stay the regions that were sorted there and the slots that were never part of
the map. -/
def coalesced (buffer : MapBuffer) : MapBuffer :=
  let sorted := ordered buffer.regions
  let map := joined sorted
  ⟨map ++ sorted.drop map.length ++ buffer.slots.drop buffer.count, map.length⟩

/-- The number of bytes that the map describes as of a usage; bytes that regions share count once
for each. -/
def byteCount (buffer : MapBuffer) (usage : Usage) : Nat :=
  Extent.totalSize
    ((buffer.regions.filter fun region => region.usage == usage).map Region.extent)

/-- A map that fills its slots has all of them as regions. -/
@[simp]
theorem regions_ofRegions (rs : List Region) : (ofRegions rs).regions = rs := by
  simp [regions, ofRegions]

/-- The regions of a coalesced buffer are the canonical form of its regions. -/
@[simp]
theorem regions_coalesced (buffer : MapBuffer) :
    buffer.coalesced.regions = canonical buffer.regions := by
  simp only [regions, coalesced, canonical, List.append_assoc, List.take_left']

end MapBuffer

/-- A memory map in slots and the arena of the same boot. -/
@[ext]
structure Boot (capacity : Nat) where
  /-- The memory map. -/
  map : MapBuffer
  /-- The arena. -/
  arena : Arena capacity

namespace Boot

variable {capacity : Nat} {α : Type}

/-- Runs an action on the arena. -/
def onArena (action : Action (Arena capacity) α) : Action (Boot capacity) α :=
  action.onPart Boot.arena fun boot arena => { boot with arena }

/-- Brings the map into canonical form; the value is its number of regions. -/
def coalesce : Action (Boot capacity) Nat := do
  let boot ← get
  let map ← Firmware.coalesce boot.map.regions
  set { boot with map := boot.map.coalesced }
  pure map.length

/-- Audits the map. -/
def audit : Action (Boot capacity) Unit := do
  let boot ← get
  Firmware.audit boot.map.regions

/-- Withholds from the arena all that the map does not grant. -/
def withhold : Action (Boot capacity) Unit := do
  let boot ← get
  onArena (Firmware.withhold boot.map.regions)

/-- Withholds from the arena the memory of the boot loader. -/
def withholdLoader : Action (Boot capacity) Unit := do
  let boot ← get
  onArena (Firmware.withholdLoader boot.map.regions)

/-- Brings the map into canonical form and withholds from the arena all that it does not grant; the
map stays in canonical form when that fails. The value is its number of regions. -/
def adopt : Action (Boot capacity) Nat := do
  let count ← coalesce
  withhold
  pure count

end Boot

end PhysicalMemory.Firmware
