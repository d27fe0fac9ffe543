import PhysicalMemory.Proofs.Checked.Boot

/-!
# What stands behind a memory map

The slots that a memory map came in may be more than its regions, and once the map has been coalesced
they are: behind the map stand regions that were moved or joined. Nothing is ever asked of them. Two
boots in slots that have the same map and the same arena cannot be told apart by any action
(`ReadsFront`), however different the slots behind their maps are, and so neither can two runs, even
when in one of them these slots are overwritten before every step (`steps_eq`). A run on slots that
held other records before is therefore, step by step, the run on slots that hold the map alone
(`spare_never_read`).
-/

namespace PhysicalMemory

open Checked Firmware

variable {capacity : Nat} {α β ρ : Type} [BootEntry ρ]

/-- Two boots in slots differ at most in the slots behind their maps. -/
structure SameFront (a b : SlotBoot) : Prop where
  /-- The maps are the same. -/
  exists_front : ∃ regions, a.front = .ok regions ∧ b.front = .ok regions
  /-- The arenas are the same. -/
  arena_eq : a.arena = b.arena

/-- Two runs end alike: with the same fault, or in the same way and with the same log, and then what
they leave differs at most in the slots behind the maps. -/
inductive Alike : Except Fault (Report SlotBoot α) → Except Fault (Report SlotBoot α) → Prop where
  /-- Both run into a fault. -/
  | fault (fault : Fault) : Alike (.error fault) (.error fault)
  /-- Both leave a report. -/
  | report (outcome : Outcome α) (log : List Event) {a b : SlotBoot} (left : SameFront a b) :
      Alike (.ok ⟨outcome, a, log⟩) (.ok ⟨outcome, b, log⟩)

/-- An action reads the front of the slots alone: it runs alike whatever stands behind the map. -/
def ReadsFront (action : Checked SlotBoot α) : Prop :=
  ∀ a b : SlotBoot, SameFront a b → Alike (action.run a) (action.run b)

/-- Runs that end alike do so after the same events. -/
theorem Alike.after {first second : Except Fault (Report SlotBoot α)} (h : Alike first second)
    (events : List Event) :
    Alike (do return (← first).after events) (do return (← second).after events) := by
  cases h with
  | fault fault => exact .fault fault
  | report outcome log left => exact .report outcome (events ++ log) left

namespace ReadsFront

/-- A value is the same whatever stands behind the map. -/
theorem pure (value : α) : ReadsFront (pure value) := fun _ _ h =>
  .report (.done value) [] h

/-- A sequence of actions that read the front alone does so. -/
theorem bind {first : Checked SlotBoot α} {next : α → Checked SlotBoot β} (h : ReadsFront first)
    (hnext : ∀ value, ReadsFront (next value)) : ReadsFront (first >>= next) := by
  intro a b hab
  have hfirst := h a b hab
  rw [run_bind, run_bind]
  generalize first.run a = left at hfirst ⊢
  generalize first.run b = right at hfirst ⊢
  cases hfirst with
  | fault fault => exact .fault fault
  | report outcome log hleft =>
    cases outcome with
    | done value => exact (hnext value _ _ hleft).after log
    | failed failure => exact .report (.failed failure) log hleft
    | halted reason => exact .report (.halted reason) log hleft

/-- A computation is the same whatever stands behind the map. -/
theorem ofExcept (computation : Except Fault α) : ReadsFront (ofExcept computation) := by
  intro a b hab
  cases computation with
  | error fault => exact .fault fault
  | ok value => exact .report (.done value) [] hab

/-- What is done with the regions of a map reads the front alone when it does for any regions. -/
theorem withRegions {next : List Region → Checked SlotBoot α} (hnext : ∀ rs, ReadsFront (next rs)) :
    ReadsFront (SlotBoot.regions >>= next) := by
  intro a b hab
  obtain ⟨rs, ha, hb⟩ := hab.exists_front
  rw [SlotBoot.run_regions_bind ha, SlotBoot.run_regions_bind hb]
  exact hnext rs a b hab

/-- An action on the arena does not read the map at all. -/
theorem onArena (action : Checked SlotArena α) : ReadsFront (SlotBoot.onArena action) := by
  intro a b hab
  have hrun : ∀ boot : SlotBoot, (SlotBoot.onArena action).run boot = (do
      let report ← action.run boot.arena
      return ⟨report.outcome, { boot with arena := report.state }, report.log⟩) := fun _ => rfl
  rw [hrun, hrun, hab.arena_eq]
  cases action.run b.arena with
  | error fault => exact .fault fault
  | ok report => exact .report report.outcome report.log ⟨hab.exists_front, rfl⟩

/-- An audit of given regions does not read the map at all. -/
theorem audit (rs : List Region) : ReadsFront (Checked.audit rs) := by
  intro a b hab
  have hrun : ∀ boot : SlotBoot, (Checked.audit rs).run boot = .ok ((Firmware.audit rs).run boot) :=
    fun boot => by
      rw [Checked.audit, run_ofExcept_bind (findings_eq rs)]
      rfl
  rw [hrun, hrun, run_audit, run_audit]
  exact .report _ _ hab

/-- Coalescing reads the front alone, and what it leaves behind the map is behind it. -/
theorem coalesce : ReadsFront SlotBoot.coalesce := by
  intro a b hab
  obtain ⟨rs, ha, hb⟩ := hab.exists_front
  obtain ⟨spare, hruna⟩ := SlotBoot.run_coalesce ha
  obtain ⟨other, hrunb⟩ := SlotBoot.run_coalesce hb
  rw [hruna, hrunb]
  refine .report _ _ ⟨⟨canonical rs, ?_, ?_⟩, hab.arena_eq⟩
  · exact SlotBoot.front_append (canonical rs) spare a.arena
  · exact SlotBoot.front_append (canonical rs) other b.arena

/-- Withholding reads the front alone. -/
theorem withhold : ReadsFront SlotBoot.withhold := withRegions fun rs => onArena (Checked.withhold rs)

/-- Every operation on a boot reads the front alone. -/
theorem perform (operation : BootOperation) : ReadsFront operation.performChecked := by
  cases operation with
  | coalesce => exact coalesce.bind fun count => pure (Reply.count count)
  | audit => exact (withRegions audit).bind fun _ => pure Reply.nothing
  | withhold => exact withhold.bind fun _ => pure Reply.nothing
  | withholdLoader =>
    exact (withRegions fun rs => onArena (Checked.withholdLoader rs)).bind fun _ => pure Reply.nothing
  | adopt =>
    have hadopt : ReadsFront SlotBoot.adopt :=
      coalesce.bind fun count => withhold.bind fun _ => pure count
    exact hadopt.bind fun count => pure (Reply.count count)
  | byteCount usage =>
    exact withRegions fun rs => (ofExcept (usageBytes usage rs)).bind fun bytes =>
      pure (Reply.bytes bytes)
  | ofArena operation => exact onArena operation.performChecked

end ReadsFront

/-- A step of a run: an operation, and before it, perhaps, other records in the slots behind the
map. -/
structure Turn where
  /-- What is written to the slots behind the map before the operation, if anything is. -/
  spare? : Option (List Region)
  /-- What is asked of the boot. -/
  operation : BootOperation

/-- The same operation, before which nothing is written. -/
def Turn.undisturbed (turn : Turn) : Turn := { turn with spare? := none }

/-- The boot that the operation of a step is performed on. -/
def Turn.before (turn : Turn) (boot : SlotBoot) : SlotBoot :=
  match turn.spare? with
  | none => boot
  | some spare => { boot with map.slots := boot.map.slots.take boot.map.count ++ spare }

/-- What can be seen of a step of a run. -/
structure BootStep (σ : Type) where
  /-- How the step ended. -/
  outcome : Outcome Reply
  /-- The regions of the map that it left. -/
  regions : List Region
  /-- The arena that it left. -/
  arena : σ
  /-- What it reported. -/
  log : List Event

/-- The steps of a run of operations. -/
def Firmware.Boot.steps (boot : Boot capacity) (operations : List BootOperation) :
    List (BootStep (Arena capacity)) :=
  (boot.reports operations).map fun report =>
    ⟨report.outcome, report.state.map.regions, report.state.arena, report.log⟩

/-- A step on a machine shows a step of the library. -/
structure BootStep.Shows (slotted : BootStep SlotArena) (step : BootStep (Arena capacity)) : Prop where
  /-- They end in the same way. -/
  outcome_eq : slotted.outcome = step.outcome
  /-- They leave the same map. -/
  regions_eq : slotted.regions = step.regions
  /-- The arena is held in slots. -/
  arena_holds : slotted.arena.Holds step.arena
  /-- They report the same. -/
  log_eq : slotted.log = step.log

namespace SlotBoot

/-- The steps of a run on a boot in slots. -/
def steps (boot : SlotBoot) : List Turn → Except Fault (List (BootStep SlotArena))
  | [] => .ok []
  | turn :: rest => do
    let report ← turn.operation.performChecked.run (turn.before boot)
    let regions ← report.state.front
    let later ← report.state.steps rest
    return ⟨report.outcome, regions, report.state.arena, report.log⟩ :: later

variable {a b slotted : SlotBoot} {boot : Boot capacity} {rs : List Region}

/-- Writing behind a map leaves the map alone. -/
theorem front_before (h : slotted.front = .ok rs) (turn : Turn) :
    (turn.before slotted).front = .ok rs := by
  unfold Turn.before
  cases turn.spare? with
  | none => exact h
  | some spare =>
    unfold front slice at h
    split at h
    · rename_i hcount
      have hlength : (slotted.map.slots.take slotted.map.count).length = slotted.map.count :=
        List.length_take_of_le hcount.2
      have hfront := slice_front (slotted.map.slots.take slotted.map.count) spare
      rw [hlength] at hfront
      exact hfront.trans h
    · exact absurd h (by simp)

/-- Writing behind a map leaves the arena alone. -/
theorem arena_before (slotted : SlotBoot) (turn : Turn) :
    (turn.before slotted).arena = slotted.arena := by
  unfold Turn.before
  cases turn.spare? <;> rfl

/-- Two runs on boots that differ at most in the slots behind their maps have the same steps, also
when in one of them these slots are overwritten between the steps. -/
theorem steps_eq (h : SameFront a b) (turns : List Turn) :
    a.steps turns = b.steps (turns.map Turn.undisturbed) := by
  induction turns generalizing a b with
  | nil => rfl
  | cons turn rest ih =>
    obtain ⟨rs, ha, hb⟩ := h.exists_front
    have hbefore : SameFront (turn.before a) b :=
      ⟨⟨rs, front_before ha turn, hb⟩, (arena_before a turn).trans h.arena_eq⟩
    have halike := ReadsFront.perform turn.operation _ _ hbefore
    rw [List.map_cons, steps, steps]
    change (turn.operation.performChecked.run (turn.before a) >>= _) =
      (turn.operation.performChecked.run b >>= _)
    generalize turn.operation.performChecked.run (turn.before a) = left at halike ⊢
    generalize turn.operation.performChecked.run b = right at halike ⊢
    cases halike with
    | fault fault => rfl
    | report outcome log hleft =>
      obtain ⟨rs, hfront, hfront'⟩ := hleft.exists_front
      rw [ok_bind, ok_bind, hfront, hfront', ih hleft, hleft.arena_eq]

/-- The steps of a run on a boot in slots show those of the run on a boot that it holds. -/
theorem steps_agree (h : slotted.Holds boot) (turns : List Turn) :
    ∃ steps, slotted.steps turns = .ok steps ∧
      List.Forall₂ BootStep.Shows steps (boot.steps (turns.map Turn.operation)) := by
  induction turns generalizing slotted boot with
  | nil => exact ⟨[], rfl, .nil⟩
  | cons turn rest ih =>
    have hbefore : (turn.before slotted).Holds boot :=
      ⟨front_before h.front_eq turn, h.length_le, (arena_before slotted turn).symm ▸ h.arena_holds⟩
    obtain ⟨left, hrun, hleft, -⟩ := perform_agrees hbefore turn.operation
    obtain ⟨later, hlater, hshows⟩ := ih hleft
    generalize hreport : turn.operation.perform.run boot = report at hrun hleft hshows
    have hsteps : slotted.steps (turn :: rest) =
        .ok (⟨report.outcome, report.state.map.regions, left.arena, report.log⟩ :: later) := by
      rw [steps, hrun, ok_bind, hleft.front_eq, ok_bind, hlater, ok_bind]
      rfl
    have hfirst : boot.steps (turn.operation :: rest.map Turn.operation) =
        ⟨report.outcome, report.state.map.regions, report.state.arena, report.log⟩ ::
          report.state.steps (rest.map Turn.operation) := by
      rw [← hreport]
      rfl
    rw [List.map_cons, hfirst]
    exact ⟨_, hsteps, .cons ⟨rfl, rfl, hleft.arena_holds, rfl⟩ hshows⟩

end SlotBoot

/-- A memory map that is copied to the front of slots fares as it does in slots of its own, whatever
the slots held before and whatever is written behind the map later on: every step of every run ends in
the same way, with the same map, the same arena and the same log. If a word counts the entries and the
arena holds claims that are well formed, no step runs into a fault, and the steps are those of the
library, on every boot with the same regions. -/
theorem spare_never_read (bootMap : List ρ) {slots : List Region}
    (h : bootMap.length ≤ slots.length) (arena : SlotArena) (turns : List Turn) :
    ∃ buffer : MapBuffer,
      (Checked.load bootMap slots).run arena =
        .ok ⟨.done buffer, arena, [.copied bootMap.length]⟩ ∧
      (MapBuffer.load bootMap slots).run arena =
        ⟨.done buffer, arena, [.copied bootMap.length]⟩ ∧
      (SlotBoot.mk buffer arena).steps turns =
        (SlotBoot.mk (.ofRegions (bootMap.map Region.ofEntry)) arena).steps
          (turns.map Turn.undisturbed) ∧
      ∀ {capacity : Nat} (boot : Boot capacity), boot.map.regions = bootMap.map Region.ofEntry →
        bootMap.length ≤ addressSpace → arena.Holds boot.arena →
          ∃ steps, (SlotBoot.mk buffer arena).steps turns = .ok steps ∧
            List.Forall₂ BootStep.Shows steps (boot.steps (turns.map Turn.operation)) := by
  obtain ⟨buffer, hbuffer⟩ : ∃ buffer : MapBuffer, buffer =
      ⟨bootMap.map Region.ofEntry ++ slots.drop bootMap.length, bootMap.length⟩ := ⟨_, rfl⟩
  have hfront : (SlotBoot.mk buffer arena).front = .ok (bootMap.map Region.ofEntry) := by
    have happend := SlotBoot.front_append (bootMap.map Region.ofEntry) (slots.drop bootMap.length) arena
    rwa [List.length_map, ← hbuffer] at happend
  have hown : (SlotBoot.mk (.ofRegions (bootMap.map Region.ofEntry)) arena).front =
      .ok (bootMap.map Region.ofEntry) := by
    have happend := SlotBoot.front_append (bootMap.map Region.ofEntry) [] arena
    rwa [List.append_nil] at happend
  have hload := Checked.run_load h arena
  have hload' := MapBuffer.run_load h arena
  rw [← hbuffer] at hload hload'
  refine ⟨buffer, hload, hload', SlotBoot.steps_eq ⟨⟨_, hfront, hown⟩, rfl⟩ turns,
    fun boot hregions hlength hholds => SlotBoot.steps_agree ⟨?_, ?_, hholds⟩ turns⟩
  · rw [hregions]
    exact hfront
  · rw [hregions, List.length_map]
    exact hlength

/-- Four entries are copied to six slots, and two of them are joined there. Withholding what the map
does not grant then fails halfway, since the arena has but one slot. The map stays joined, and neither
the regions that were in the slots before nor those written behind the map are counted, found by an
audit or joined with it, here as in the library. -/
theorem spare_never_read_afterFailure :
    let bootMap : List PlainEntry := [⟨⟨0x2000, 0x1000⟩, .available⟩, ⟨⟨0x8000, 0x1000⟩, .reserved⟩,
      ⟨⟨0x1000, 0x1000⟩, .available⟩, ⟨⟨0x5000, 0x1000⟩, .reserved⟩]
    let stale : Region := ⟨⟨0, 0xffff⟩, .available, 1⟩
    let slots := List.replicate 6 stale
    let arena : SlotArena := .empty 1 .ofPlatform false
    let boot : Boot 1 := ⟨.ofRegions (bootMap.map Region.ofEntry), .empty .ofPlatform false⟩
    let turns : List Turn := [⟨none, .adopt⟩, ⟨some [stale, stale], .byteCount .available⟩,
      ⟨some [], .audit⟩, ⟨none, .ofArena (.insert ⟨0xa000, 0x1000⟩)⟩, ⟨some [stale], .coalesce⟩]
    let map : List Extent := [⟨0x1000, 0x2000⟩, ⟨0x5000, 0x1000⟩, ⟨0x8000, 0x1000⟩]
    bootMap.length ≤ slots.length ∧ bootMap.length ≤ addressSpace ∧ arena.Holds boot.arena ∧
    ∃ buffer : MapBuffer,
      (Checked.load bootMap slots).run arena = .ok ⟨.done buffer, arena, [.copied 4]⟩ ∧
      ((SlotBoot.mk buffer arena).steps turns).map
          (List.map fun step => (step.outcome, step.regions.map Region.extent)) =
        .ok [(.failed .outOfResources, map), (.done (.bytes 0x2000), map), (.done .nothing, map),
          (.done .nothing, map), (.done (.count 3), map)] ∧
      ∃ steps, (SlotBoot.mk buffer arena).steps turns = .ok steps ∧
        List.Forall₂ BootStep.Shows steps (boot.steps (turns.map Turn.operation)) := by
  intro bootMap stale slots arena boot turns map
  have hfits : bootMap.length ≤ slots.length := by decide
  have hlength : bootMap.length ≤ addressSpace := by decide
  have hholds : arena.Holds boot.arena := SlotArena.holds_empty 1 .ofPlatform false false
  obtain ⟨buffer, hload, -, hsteps, hagree⟩ := spare_never_read bootMap hfits arena turns
  refine ⟨hfits, hlength, hholds, buffer, hload, ?_, ?_⟩
  · rw [hsteps]
    decide +kernel
  · exact hagree boot (MapBuffer.regions_ofRegions _) hlength hholds

end PhysicalMemory
