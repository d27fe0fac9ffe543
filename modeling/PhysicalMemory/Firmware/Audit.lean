import PhysicalMemory.Action

/-!
# Auditing a memory map

A usable memory map has its regions in ascending order of their bases, and none of them runs past
the top of memory or, unless it is the last, ends there. Regions may overlap, but that is suspicious
and is reported. The audit goes through the map once: a region shares a byte with some region before
it exactly when it starts below the greatest stop so far.
-/

namespace PhysicalMemory.Firmware

/-- What is wrong with the place of a region at a position, given the region before it, if any, and
the greatest stop of the regions before it. -/
def placeFindings (index : Nat) (previous : Option Region) (covered : Nat) (region : Region) :
    List Finding :=
  match previous with
  | none => []
  | some before =>
    if region.extent.start < before.extent.start then [.startsBelow index region before]
    -- The greatest stop stands for all regions before: one of them reaches past this start.
    else if !region.extent.isEmpty && decide (region.extent.start < covered) then
      [.overlapsEarlier index region]
    else []

/-- What is wrong with where a region at a position ends. -/
def stopFindings (index : Nat) (region : Region) (isLast : Bool) : List Finding :=
  if region.extent.runsPastTop || (region.extent.endsAtTop && !isLast) then
    [.overflows index region]
  else []

/-- What an audit finds in the regions from a position on, given the region before them, if any, and
the greatest stop of the regions before them. -/
def findingsFrom (index : Nat) (previous : Option Region) (covered : Nat) :
    List Region → List Finding
  | [] => []
  | region :: rest =>
    placeFindings index previous covered region ++ stopFindings index region rest.isEmpty ++
      findingsFrom (index + 1) (some region) (max covered region.extent.stop) rest

/-- What an audit finds in a memory map, in the order of the map. -/
def findings (regions : List Region) : List Finding := findingsFrom 0 none 0 regions

/-- The events that list a memory map. -/
def listing (regions : List Region) : List Event :=
  .mapHeading regions.length :: regions.mapIdx Event.mapEntry

/-- Lists a memory map in the log. -/
def list {σ : Type} (regions : List Region) : Action σ Unit := Action.emitAll (listing regions)

/-- Reports all findings, with the map when there are any, and fails when the map is unusable. -/
def audit {σ : Type} (regions : List Region) : Action σ Unit := do
  let found := findings regions
  Action.emitAll (found.map Event.found)
  if !found.isEmpty then list regions
  if found.any Finding.isFatal then Action.fail .invalidParameter

/-- An audit changes nothing; it fails exactly when some finding makes the map unusable, and it
lists the map exactly when there is a finding. -/
theorem run_audit {σ : Type} (regions : List Region) (state : σ) :
    (audit regions).run state =
      ⟨if (findings regions).any Finding.isFatal then .failed .invalidParameter else .done (),
        state, (findings regions).map Event.found ++
          if (findings regions).isEmpty then [] else listing regions⟩ := by
  cases h : (findings regions).isEmpty <;> cases hfatal : (findings regions).any Finding.isFatal <;>
    simp [audit, list, h, hfatal]

end PhysicalMemory.Firmware
