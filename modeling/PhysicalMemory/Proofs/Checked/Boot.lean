import PhysicalMemory.Proofs.Boot.Runs
import PhysicalMemory.Proofs.Checked.Runs

/-!
# A boot in slots

On a machine, a memory map is copied into slots one entry after the other and stays there. All that
is asked of it is asked of a slice of these slots, its front, which coalescing shortens: the regions
that it leaves behind are still in the slots. A boot in slots holds a boot of the library when the
front is the map (`SlotBoot.Holds`), whatever stands behind it, and then every operation agrees with
the library's (`perform_agrees`). Slots are no more than a word can count, so that the sizes of all
regions add up to a double word (`totalSize_lt`).
-/

namespace PhysicalMemory

open Checked Firmware

variable {capacity : Nat} {α σ ρ : Type} [BootEntry ρ]

namespace Checked

/-- Copies the entries of a platform's memory map to the slots from a position on. -/
def copyFrom (slots : List Region) (position : Nat) : List ρ → Except Fault (List Region)
  | [] => .ok slots
  | entry :: rest => do copyFrom (← put slots position (.ofEntry entry)) (position + 1) rest

/-- Copies a platform's memory map to the front of slots, which must be as many as its entries. -/
def load (bootMap : List ρ) (slots : List Region) : Checked σ MapBuffer :=
  if slots.length < bootMap.length then
    ofAction (Action.refuse (.bootMapTooLong bootMap.length slots.length))
  else do
    let filled ← ofExcept (copyFrom slots 0 bootMap)
    ofAction (Action.emit (.copied bootMap.length))
    return ⟨filled, bootMap.length⟩

/-- The number of bytes that regions describe as of a usage. -/
def usageBytes (usage : Usage) (regions : List Region) : Except Fault Nat :=
  totalSizeFrom 0 ((regions.filter fun region => region.usage == usage).map Region.extent)

/-- Entries take the place of the regions in as many slots. -/
theorem copyFrom_eq (front rest : List Region) {bootMap : List ρ}
    (h : bootMap.length ≤ rest.length) :
    copyFrom (front ++ rest) front.length bootMap =
      .ok (front ++ bootMap.map Region.ofEntry ++ rest.drop bootMap.length) := by
  induction bootMap generalizing front rest with
  | nil => simp [copyFrom]
  | cons entry bootMap ih =>
    obtain ⟨old, rest, rfl⟩ := List.exists_cons_of_length_pos (Nat.lt_of_lt_of_le (by simp) h)
    have hcopied := ih (front ++ [.ofEntry entry]) rest (by simpa using h)
    rw [List.length_append, List.length_singleton, List.append_assoc, List.singleton_append] at hcopied
    rw [copyFrom, put_append, ok_bind, hcopied]
    simp

/-- A memory map that fits into the slots is copied there. -/
theorem run_load {bootMap : List ρ} {slots : List Region} (h : bootMap.length ≤ slots.length)
    (state : σ) : (load bootMap slots).run state =
      .ok ⟨.done ⟨bootMap.map Region.ofEntry ++ slots.drop bootMap.length, bootMap.length⟩, state,
        [.copied bootMap.length]⟩ := by
  have hcopied : copyFrom slots 0 bootMap = _ := copyFrom_eq [] slots h
  rw [load, if_neg (Nat.not_lt.mpr h), run_ofExcept_bind hcopied]
  rfl

/-- The sizes of no more extents than a word can count add up to a double word. -/
theorem totalSize_lt {extents : List Extent} (h : extents.length ≤ addressSpace) :
    Extent.totalSize extents < 2 ^ 128 := by
  have hle : Extent.totalSize extents ≤ extents.length * (addressSpace - 1) := by
    clear h
    induction extents with
    | nil => exact Nat.zero_le _
    | cons e rest ih =>
      have hsize := e.size_lt
      rw [Extent.totalSize, List.length_cons, Nat.add_mul, Nat.one_mul]
      omega
  calc Extent.totalSize extents ≤ extents.length * (addressSpace - 1) := hle
    _ ≤ addressSpace * (addressSpace - 1) := Nat.mul_le_mul_right _ h
    _ < 2 ^ 128 := by decide

/-- The bytes of a usage are counted without a fault, if there are no more regions than a word can
count. -/
theorem usageBytes_eq {buffer : MapBuffer} (h : buffer.regions.length ≤ addressSpace) (usage : Usage) :
    usageBytes usage buffer.regions = .ok (buffer.byteCount usage) := by
  have hlength : ((buffer.regions.filter fun region => region.usage == usage).map
      Region.extent).length ≤ addressSpace := by
    rw [List.length_map]
    exact (List.length_filter_le _ _).trans h
  have hsum := totalSize_lt hlength
  rw [usageBytes, totalSizeFrom_eq (by rwa [Nat.zero_add]), Nat.zero_add]
  rfl

end Checked

/-- A memory map that fits into the slots is copied there by the library too. -/
theorem Firmware.MapBuffer.run_load {bootMap : List ρ} {slots : List Region}
    (h : bootMap.length ≤ slots.length) (state : σ) : (load bootMap slots).run state =
      ⟨.done ⟨bootMap.map Region.ofEntry ++ slots.drop bootMap.length, bootMap.length⟩, state,
        [.copied bootMap.length]⟩ := by
  rw [load, if_neg (Nat.not_lt.mpr h)]
  rfl

/-- A memory map and the arena of the same boot, both in slots. -/
structure SlotBoot where
  /-- The memory map. -/
  map : MapBuffer
  /-- The arena. -/
  arena : SlotArena

namespace SlotBoot

/-- The slots of the map that hold its regions. -/
def front (boot : SlotBoot) : Except Fault (List Region) := slice boot.map.slots 0 boot.map.count

/-- The regions of the map. -/
def regions : Checked SlotBoot (List Region) := do
  let boot ← ofAction get
  ofExcept boot.front

/-- Runs an action on the arena. -/
def onArena (action : Checked SlotArena α) : Checked SlotBoot α :=
  action.onPart SlotBoot.arena fun boot arena => { boot with arena }

/-- Brings the map into canonical form where it stands; the value is its number of regions. -/
def coalesce : Checked SlotBoot Nat := do
  let regions ← regions
  let (slots, count) ← ofExcept (coalesceInPlace regions)
  ofAction (emitIf (regions.isEmpty = false) (.coalesced regions.length count))
  let boot ← ofAction get
  ofAction (set { boot with map := ⟨slots ++ boot.map.slots.drop boot.map.count, count⟩ })
  return count

/-- Audits the map. -/
def audit : Checked SlotBoot Unit := do Checked.audit (← regions)

/-- Withholds from the arena all that the map does not grant. -/
def withhold : Checked SlotBoot Unit := do onArena (Checked.withhold (← regions))

/-- Withholds from the arena the memory of the boot loader. -/
def withholdLoader : Checked SlotBoot Unit := do onArena (Checked.withholdLoader (← regions))

/-- Brings the map into canonical form and withholds from the arena all that it does not grant. -/
def adopt : Checked SlotBoot Nat := do
  let count ← coalesce
  withhold
  return count

end SlotBoot

/-- Performs an operation on a boot in slots. -/
def BootOperation.performChecked : BootOperation → Checked SlotBoot Reply
  | .coalesce => do return .count (← SlotBoot.coalesce)
  | .audit => do SlotBoot.audit; pure .nothing
  | .withhold => do SlotBoot.withhold; pure .nothing
  | .withholdLoader => do SlotBoot.withholdLoader; pure .nothing
  | .adopt => do return .count (← SlotBoot.adopt)
  | .byteCount usage => do
    let regions ← SlotBoot.regions
    return .bytes (← ofExcept (usageBytes usage regions))
  | .ofArena operation => SlotBoot.onArena operation.performChecked

namespace SlotBoot

/-- The boot in slots holds a boot of the library: the front of its slots is the map, and its arena
holds the arena. A word counts the regions. -/
structure Holds (slotted : SlotBoot) (boot : Boot capacity) : Prop where
  /-- The front of the slots is the map. -/
  front_eq : slotted.front = .ok boot.map.regions
  /-- A word counts the regions. -/
  length_le : boot.map.regions.length ≤ addressSpace
  /-- The arena is held too. -/
  arena_holds : slotted.arena.Holds boot.arena

variable {slotted : SlotBoot} {boot : Boot capacity} {rs : List Region}

/-- The front of the slots is as many of them as the count says. -/
theorem front_append (rs spare : List Region) (arena : SlotArena) :
    (SlotBoot.mk ⟨rs ++ spare, rs.length⟩ arena).front = .ok rs := slice_front rs spare

/-- What comes after reading the regions gets the front of the slots. -/
theorem run_regions_bind (h : slotted.front = .ok rs) (next : List Region → Checked SlotBoot α) :
    (regions >>= next).run slotted = (next rs).run slotted := by
  have hregions : regions.run slotted = .ok ⟨.done rs, slotted, []⟩ := by
    rw [regions, run_get_bind]
    exact run_ofExcept h slotted
  rw [run_bind, hregions]
  exact andThen_quiet rs slotted next

/-- Coalescing leaves the canonical form of the map at the front of the slots. -/
theorem run_coalesce (h : slotted.front = .ok rs) : ∃ spare, coalesce.run slotted =
    .ok ⟨.done (canonical rs).length,
      { slotted with map := ⟨canonical rs ++ spare, (canonical rs).length⟩ },
      if rs.isEmpty = false then [.coalesced rs.length (canonical rs).length] else []⟩ := by
  obtain ⟨stale, hmap, -⟩ := coalesceInPlace_eq rs
  refine ⟨stale ++ slotted.map.slots.drop slotted.map.count, ?_⟩
  rw [coalesce, run_regions_bind h, run_ofExcept_bind hmap, ← List.append_assoc]
  dsimp only
  rw [run_ofAction_bind (run_emitIf _ _ slotted)]
  cases rs.isEmpty <;> rfl

/-- An action on the arena agrees when it does on the arena that is held. -/
theorem onArena_agrees (h : slotted.Holds boot) {first : Checked SlotArena α}
    {action : Action (Arena capacity) α}
    (hagrees : Agrees SlotArena.Holds (first.run slotted.arena) (action.run boot.arena)) :
    Agrees Holds ((onArena first).run slotted) ((Boot.onArena action).run boot) :=
  hagrees.onPart fun _ hleft => ⟨h.front_eq, h.length_le, hleft⟩

/-- Coalescing agrees with the library's. -/
theorem coalesce_agrees (h : slotted.Holds boot) :
    Agrees Holds (coalesce.run slotted) (Boot.coalesce.run boot) := by
  obtain ⟨spare, hrun⟩ := run_coalesce h.front_eq
  have hfront := front_append (canonical boot.map.regions) spare slotted.arena
  have hlength := (length_canonical_le boot.map.regions).trans h.length_le
  rw [← MapBuffer.regions_coalesced] at hfront hlength
  rw [Boot.run_coalesce, hrun]
  refine ⟨_, ?_, ⟨hfront, hlength, h.arena_holds⟩, by simp⟩
  cases boot.map.regions.isEmpty <;> simp

/-- Auditing agrees with the library's. -/
theorem audit_agrees (h : slotted.Holds boot) :
    Agrees Holds (audit.run slotted) (Boot.audit.run boot) := by
  rw [audit, run_regions_bind h.front_eq]
  exact Checked.audit_agrees h boot.map.regions

/-- Withholding agrees with the library's. -/
theorem withhold_agrees (h : slotted.Holds boot) :
    Agrees Holds (withhold.run slotted) (Boot.withhold.run boot) := by
  rw [withhold, run_regions_bind h.front_eq]
  exact onArena_agrees h (Checked.withhold_agrees h.arena_holds boot.map.regions)

/-- Withholding the boot loader's memory agrees with the library's. -/
theorem withholdLoader_agrees (h : slotted.Holds boot) :
    Agrees Holds (withholdLoader.run slotted) (Boot.withholdLoader.run boot) := by
  rw [withholdLoader, run_regions_bind h.front_eq]
  exact onArena_agrees h (Checked.withholdLoader_agrees h.arena_holds boot.map.regions)

/-- Adopting agrees with the library's. -/
theorem adopt_agrees (h : slotted.Holds boot) :
    Agrees Holds (adopt.run slotted) (Boot.adopt.run boot) :=
  (coalesce_agrees h).bind fun count _ _ hleft =>
    (withhold_agrees hleft).bind fun _ _ _ hlast => agrees_pure hlast count

/-- An operation on a boot in slots agrees with the operation on the boot that it holds. -/
theorem perform_agrees (h : slotted.Holds boot) (operation : BootOperation) :
    Agrees Holds (operation.performChecked.run slotted) (operation.perform.run boot) := by
  cases operation with
  | coalesce => exact (coalesce_agrees h).map Reply.count
  | audit => exact (audit_agrees h).map fun _ => Reply.nothing
  | withhold => exact (withhold_agrees h).map fun _ => Reply.nothing
  | withholdLoader => exact (withholdLoader_agrees h).map fun _ => Reply.nothing
  | adopt => exact (adopt_agrees h).map Reply.count
  | byteCount usage =>
    rw [BootOperation.performChecked, run_regions_bind h.front_eq,
      run_ofExcept_bind (usageBytes_eq h.length_le usage)]
    exact agrees_pure h (Reply.bytes (boot.map.byteCount usage))
  | ofArena operation => exact onArena_agrees h (operation.perform_agrees h.arena_holds)

end SlotBoot

end PhysicalMemory
