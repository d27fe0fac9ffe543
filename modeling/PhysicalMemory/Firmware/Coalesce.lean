import PhysicalMemory.Action
import PhysicalMemory.Sorting

/-!
# Coalescing a memory map

Firmware reports memory in any order and in as many pieces as it likes. Coalescing sorts the regions
by base, keeping the firmware's order among equal bases, and joins each run of regions of the same
kind that overlap or touch into one. A region that runs past the top of memory is never joined, so
that an audit still sees it.
-/

namespace PhysicalMemory.Firmware

/-- The region joined with the next, when they are of the same kind and overlap or touch, neither
runs past the top of memory, and together they are not the whole address space. -/
def Region.join? (region next : Region) : Option Region :=
  if region.extent.runsPastTop || next.extent.runsPastTop then none
  else if region.sameKind next && region.extent.meets next.extent then
    (region.extent.hull? next.extent).map fun hull => { region with extent := hull }
  else none

/-- Joins a region with as many of the regions after it as it can be joined with one after the
other, and goes on from the first that it cannot be joined with. -/
def joinRuns (region : Region) : List Region → List Region
  | [] => [region]
  | next :: rest =>
    match region.join? next with
    | some joined => joinRuns joined rest
    | none => region :: joinRuns next rest

/-- Regions in ascending order of their bases. -/
def ordered (regions : List Region) : List Region := Sorting.sortBy Region.compareBases regions

/-- The canonical form of ordered regions. -/
def joined : List Region → List Region
  | [] => []
  | region :: rest => joinRuns region rest

/-- The canonical form of a memory map. -/
def canonical (regions : List Region) : List Region := joined (ordered regions)

/-- Reports the canonical form of a memory map. -/
def coalesce {σ : Type} (regions : List Region) : Action σ (List Region) := do
  if !regions.isEmpty then
    Action.emit (.coalesced regions.length (canonical regions).length)
  pure (canonical regions)

/-- Coalescing reports both numbers of regions, unless there is no region. -/
theorem run_coalesce {σ : Type} (regions : List Region) (state : σ) :
    (coalesce regions).run state =
      ⟨.done (canonical regions), state,
        if regions.isEmpty then []
        else [.coalesced regions.length (canonical regions).length]⟩ := by
  cases h : regions.isEmpty <;> simp [coalesce, h]

/-- Joining runs never adds a region. -/
theorem length_joinRuns_le (region : Region) (rest : List Region) :
    (joinRuns region rest).length ≤ rest.length + 1 := by
  fun_induction joinRuns region rest with
  | case1 => exact Nat.le_refl _
  | case2 region next rest joined _ ih => exact Nat.le_succ_of_le ih
  | case3 region next rest _ ih => exact Nat.succ_le_succ ih

/-- The canonical form has no more regions than the map. -/
theorem length_canonical_le (regions : List Region) :
    (canonical regions).length ≤ regions.length := by
  have hlen : (ordered regions).length = regions.length := Sorting.length_sortBy _ _
  unfold canonical
  cases h : ordered regions with
  | nil => simp [joined]
  | cons region rest =>
    rw [h, List.length_cons] at hlen
    exact hlen ▸ length_joinRuns_le region rest

end PhysicalMemory.Firmware
