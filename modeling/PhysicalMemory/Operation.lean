import PhysicalMemory.Firmware.MapBuffer

/-!
# Operations as data

Everything that can be asked of an arena, and of an arena with a memory map, as data. A run is a
list of operations: each is performed on the state that the one before it left, whether that one was
done, failed or halted. `Arena.Reachable` says which arenas operations can lead to, and they are the
ones that some run leaves (`reachable_iff`).
-/

namespace PhysicalMemory

open Firmware

/-- The value of an operation that is done. -/
inductive Reply where
  /-- There is nothing to say. -/
  | nothing
  /-- The address of claimed memory. -/
  | address (address : UInt64)
  /-- The number of regions in a memory map. -/
  | count (regions : Nat)
  /-- A memory map. -/
  | map (regions : List Region)
  /-- A number of bytes. -/
  | bytes (count : Nat)
deriving DecidableEq

/-- Something to ask of an arena. -/
inductive Operation where
  /-- Add an extent to the claimed bytes. -/
  | insert (extent : Extent)
  /-- Claim bytes. -/
  | claim (address size alignment : UInt64) (placement : Placement)
  /-- Claim bytes with a placement given by its number. -/
  | request (address size alignment : UInt64) (code : UInt32)
  /-- Claim bytes at an address. -/
  | claimFixed (address size : UInt64)
  /-- Reserve the pages that meet an extent. -/
  | reserve (extent : Extent)
  /-- Check the claims. -/
  | selfCheck
  /-- List the claims. -/
  | list
  /-- Withhold what a memory map does not grant. -/
  | withhold (regions : List Region)
  /-- Withhold the boot loader's memory in a memory map. -/
  | withholdLoader (regions : List Region)
  /-- Coalesce a memory map and withhold what it does not grant. -/
  | adopt (regions : List Region)
deriving DecidableEq

namespace Operation

variable {capacity : Nat}

/-- Performs an operation on an arena. -/
def perform : Operation → Action (Arena capacity) Reply
  | .insert extent => do Arena.onClaims (Claims.add extent); pure .nothing
  | .claim address size alignment placement =>
    Reply.address <$> Arena.claim address size alignment placement
  | .request address size alignment code =>
    Reply.address <$> Arena.request address size alignment code
  | .claimFixed address size => Reply.address <$> Arena.claimFixed address size
  | .reserve extent => do Arena.reserve extent; pure .nothing
  | .selfCheck => do Arena.selfCheck; pure .nothing
  | .list => do Arena.list; pure .nothing
  | .withhold regions => do Firmware.withhold regions; pure .nothing
  | .withholdLoader regions => do Firmware.withholdLoader regions; pure .nothing
  | .adopt regions => Reply.map <$> Firmware.adopt regions

end Operation

namespace Arena

variable {capacity : Nat}

/-- The reports of the operations of a run, in order. -/
def reports (arena : Arena capacity) : List Operation → List (Report (Arena capacity) Reply)
  | [] => []
  | operation :: rest =>
    let report := operation.perform.run arena
    report :: reports report.state rest

/-- The arena that a run leaves. -/
def afterRun (arena : Arena capacity) (operations : List Operation) : Arena capacity :=
  operations.foldl (fun arena operation => (operation.perform.run arena).state) arena

/-- Operations lead from an empty arena to this one. -/
inductive Reachable : Arena capacity → Prop where
  /-- An empty arena is where every boot starts. -/
  | start (page : PageSize) (watchful : Bool) : Reachable (empty page watchful)
  /-- An operation leads on, however it ends. -/
  | step {arena : Arena capacity} (operation : Operation) :
      Reachable arena → Reachable (operation.perform.run arena).state

/-- A run leads on from a reachable arena. -/
theorem Reachable.afterRun {arena : Arena capacity} (h : arena.Reachable)
    (operations : List Operation) : (arena.afterRun operations).Reachable := by
  induction operations generalizing arena with
  | nil => exact h
  | cons operation rest ih => exact ih (h.step operation)

/-- The arena that two runs leave, one after the other. -/
theorem afterRun_append (arena : Arena capacity) (first second : List Operation) :
    arena.afterRun (first ++ second) = (arena.afterRun first).afterRun second :=
  List.foldl_append

/-- The reachable arenas are the ones that a run from an empty arena leaves. -/
theorem reachable_iff {arena : Arena capacity} :
    arena.Reachable ↔
      ∃ page watchful operations, arena = (empty page watchful).afterRun operations := by
  constructor
  · intro h
    induction h with
    | start page watchful => exact ⟨page, watchful, [], rfl⟩
    | step operation _ ih =>
      obtain ⟨page, watchful, operations, rfl⟩ := ih
      exact ⟨page, watchful, operations ++ [operation], by rw [afterRun_append]; rfl⟩
  · rintro ⟨page, watchful, operations, rfl⟩
    exact (Reachable.start page watchful).afterRun operations

end Arena

/-- Something to ask of a memory map and an arena. -/
inductive BootOperation where
  /-- Bring the map into canonical form. -/
  | coalesce
  /-- Audit the map. -/
  | audit
  /-- Withhold what the map does not grant. -/
  | withhold
  /-- Withhold the boot loader's memory. -/
  | withholdLoader
  /-- Bring the map into canonical form and withhold what it does not grant. -/
  | adopt
  /-- Count the bytes of a usage. -/
  | byteCount (usage : Usage)
  /-- Ask something of the arena alone. -/
  | ofArena (operation : Operation)
deriving DecidableEq

namespace BootOperation

variable {capacity : Nat}

/-- Performs an operation on a memory map and an arena. -/
def perform : BootOperation → Action (Boot capacity) Reply
  | .coalesce => Reply.count <$> Boot.coalesce
  | .audit => do Boot.audit; pure .nothing
  | .withhold => do Boot.withhold; pure .nothing
  | .withholdLoader => do Boot.withholdLoader; pure .nothing
  | .adopt => Reply.count <$> Boot.adopt
  | .byteCount usage => do
    let boot ← get
    pure (.bytes (boot.map.byteCount usage))
  | .ofArena operation => Boot.onArena operation.perform

end BootOperation

/-- The reports of the operations of a run, in order. -/
def Firmware.Boot.reports {capacity : Nat} (boot : Boot capacity) :
    List BootOperation → List (Report (Boot capacity) Reply)
  | [] => []
  | operation :: rest =>
    let report := operation.perform.run boot
    report :: reports report.state rest

end PhysicalMemory
