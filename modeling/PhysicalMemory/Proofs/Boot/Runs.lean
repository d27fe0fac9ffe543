import PhysicalMemory.Proofs.Runs

/-!
# Runs of a boot

A boot has a memory map in slots and an arena. Whatever is asked of them, the arena grows and the
map goes on covering the same bytes by regions of each kind: coalescing it is all that ever happens
to it (`perform_advances`). So what was true of a step of a run is true after the run: the bytes
that the step claimed are still claimed (`mem_claims_of_mem_history`).
-/

namespace PhysicalMemory

namespace Report

variable {σ α β : Type}

/-- Events that came before do not change the state. -/
theorem state_after (report : Report σ α) (events : List Event) :
    (report.after events).state = report.state := rfl

/-- A function of its value does not change the state that an action leaves. -/
theorem state_andThen_pure (report : Report σ α) (f : α → β) :
    (report.andThen fun value => (pure (f value) : Action σ β)).state = report.state := by
  obtain ⟨outcome, state, log⟩ := report
  cases outcome <;> rfl

/-- When two actions are done one after the other, the first was done. -/
theorem exists_done_of_andThen {report : Report σ α} {next : α → Action σ β} {result : β}
    (h : (report.andThen next).outcome = .done result) : ∃ value, report.outcome = .done value := by
  obtain ⟨outcome, state, log⟩ := report
  cases outcome with
  | done value => exact ⟨value, rfl⟩
  | failed failure => exact absurd h (by simp)
  | halted reason => exact absurd h (by simp)

end Report

namespace Firmware.Boot

variable {capacity : Nat} {boot next last : Boot capacity}

/-- The map and the arena that a run leaves. -/
def afterRun (boot : Boot capacity) (operations : List BootOperation) : Boot capacity :=
  operations.foldl (fun boot operation => (operation.perform.run boot).state) boot

/-- The steps of a run: its operations, each with its report. -/
def history (boot : Boot capacity) (operations : List BootOperation) :
    List (BootOperation × Report (Boot capacity) Reply) :=
  operations.zip (boot.reports operations)

/-- What every operation on a boot is: the arena grows, and the map covers the same bytes as
before. -/
structure Advances (boot next : Boot capacity) : Prop where
  /-- The arena grows. -/
  grows : ∃ part, boot.arena.Grows next.arena part
  /-- Regions of each kind cover the same bytes. -/
  sameBytes : SameBytes next.map.regions boot.map.regions

/-- A boot with a well-formed claim table advances by nothing. -/
theorem Advances.refl (hwf : boot.arena.claims.WellFormed) : boot.Advances boot :=
  ⟨⟨∅, .refl hwf⟩, .refl _⟩

/-- A boot that advances twice advances. -/
theorem Advances.trans (first : boot.Advances next) (second : next.Advances last) :
    boot.Advances last := by
  obtain ⟨added, hadded⟩ := first.grows
  obtain ⟨more, hmore⟩ := second.grows
  exact ⟨⟨added ∪ more, hadded.trans hmore⟩, second.sameBytes.trans first.sameBytes⟩

/-- The claim table stays well formed. -/
theorem Advances.wellFormed (h : boot.Advances next) : next.arena.claims.WellFormed := by
  obtain ⟨part, hgrows⟩ := h.grows
  exact hgrows.wellFormed

/-- Pages stay as large as they are. -/
theorem Advances.page_eq (h : boot.Advances next) : next.arena.page = boot.arena.page := by
  obtain ⟨part, hgrows⟩ := h.grows
  exact hgrows.page_eq

/-- What is claimed stays claimed. -/
theorem Advances.mem_of_mem (h : boot.Advances next) {x : Nat} (hx : x ∈ boot.arena.claims) :
    x ∈ next.arena.claims := by
  obtain ⟨part, hgrows⟩ := h.grows
  exact hgrows.mem_of_mem hx

/-- A boot advances when its arena grows. -/
theorem advances_arena {arena : Arena capacity} (h : ∃ part, boot.arena.Grows arena part) :
    boot.Advances { boot with arena } :=
  ⟨h, .refl _⟩

/-- Coalescing brings the map into canonical form and leaves the arena alone. -/
theorem run_coalesce (boot : Boot capacity) :
    coalesce.run boot = ⟨.done (canonical boot.map.regions).length,
      { boot with map := boot.map.coalesced },
      if boot.map.regions.isEmpty then []
      else [.coalesced boot.map.regions.length (canonical boot.map.regions).length]⟩ := by
  simp [coalesce, Firmware.run_coalesce]

/-- Adopting the map coalesces it and withholds by the canonical form. -/
theorem run_adopt (boot : Boot capacity) : ∃ events, adopt.run boot =
    ((withhold.run { boot with map := boot.map.coalesced }).andThen fun _ =>
      pure (canonical boot.map.regions).length).after events := by
  exact ⟨_, by rw [adopt, Action.run_bind, run_coalesce, Report.andThen_done]; rfl⟩

/-- A boot advances when its map is coalesced. -/
theorem advances_coalesced (hwf : boot.arena.claims.WellFormed) :
    boot.Advances { boot with map := boot.map.coalesced } := by
  refine ⟨⟨∅, .refl hwf⟩, ?_⟩
  rw [MapBuffer.regions_coalesced]
  exact sameBytes_canonical _

/-- A boot advances when memory is withheld by its map. -/
theorem advances_withhold (hwf : boot.arena.claims.WellFormed) :
    boot.Advances (withhold.run boot).state :=
  advances_arena (withhold_claimsWithin hwf boot.map.regions).grows

end Firmware.Boot

namespace BootOperation

open Firmware

variable {capacity : Nat} {boot : Boot capacity}

/-- Whatever an operation is and however it ends, the boot advances. -/
theorem perform_advances (hwf : boot.arena.claims.WellFormed) (operation : BootOperation) :
    boot.Advances (operation.perform.run boot).state := by
  cases operation with
  | coalesce =>
    rw [perform, Action.run_map, Report.state_andThen_pure, Boot.run_coalesce]
    exact Boot.advances_coalesced hwf
  | audit =>
    -- An audit reports what it finds, and fails or not, but changes nothing.
    have hstate : (Boot.audit.run boot).state = boot := by
      rw [Boot.audit, Action.run_bind, Action.run_get, Report.andThen_done, run_audit]
      rfl
    rw [perform, Action.run_bind, Report.state_andThen_pure, hstate]
    exact .refl hwf
  | withhold =>
    rw [perform, Action.run_bind, Report.state_andThen_pure]
    exact Boot.advances_withhold hwf
  | withholdLoader =>
    rw [perform, Action.run_bind, Report.state_andThen_pure]
    exact Boot.advances_arena (withholdLoader_claimsWithin hwf boot.map.regions).grows
  | adopt =>
    obtain ⟨events, hrun⟩ := Boot.run_adopt boot
    rw [perform, Action.run_map, Report.state_andThen_pure, hrun, Report.state_after,
      Report.state_andThen_pure]
    exact (Boot.advances_coalesced hwf).trans (Boot.advances_withhold hwf)
  | byteCount usage => exact .refl hwf
  | ofArena operation => exact Boot.advances_arena (operation.perform_grows hwf)

/-- The bytes that an operation on a boot claims by itself, on an arena with pages of some size,
when it ends in some way. -/
def claimedBytes (page : PageSize) : BootOperation → Outcome Reply → Set Nat
  | .ofArena operation, outcome => operation.claimedBytes page outcome
  | _, _ => ∅

/-- The bytes that an operation on a boot claims by itself are claimed after it. -/
theorem mem_claims_of_mem_claimedBytes (hwf : boot.arena.claims.WellFormed)
    (operation : BootOperation) {x : Nat}
    (hx : x ∈ operation.claimedBytes boot.arena.page (operation.perform.run boot).outcome) :
    x ∈ (operation.perform.run boot).state.arena.claims := by
  cases operation with
  | ofArena operation => exact operation.mem_claims_of_mem_claimedBytes hwf hx
  | _ => exact absurd hx (Set.notMem_empty x)

end BootOperation

namespace Firmware.Boot

variable {capacity : Nat} {boot : Boot capacity} {operations : List BootOperation}

/-- A boot advances by a run. -/
theorem afterRun_advances (hwf : boot.arena.claims.WellFormed) (operations : List BootOperation) :
    boot.Advances (boot.afterRun operations) := by
  induction operations generalizing boot with
  | nil => exact .refl hwf
  | cons operation rest ih =>
    have hfirst := operation.perform_advances hwf
    exact hfirst.trans (ih hfirst.wellFormed)

/-- Between the steps of a run the boot advances: from its start to the state that a step is made
on, and from the state that the step leaves to the end. -/
theorem exists_of_mem_history (hwf : boot.arena.claims.WellFormed)
    {step : BootOperation × Report (Boot capacity) Reply} (h : step ∈ boot.history operations) :
    ∃ before, boot.Advances before ∧ step.2 = step.1.perform.run before ∧
      step.2.state.Advances (boot.afterRun operations) := by
  induction operations generalizing boot with
  | nil => exact absurd h (by simp [history])
  | cons operation rest ih =>
    have hfirst := operation.perform_advances hwf
    rcases List.mem_cons.mp h with rfl | h
    · exact ⟨boot, .refl hwf, rfl, afterRun_advances hfirst.wellFormed rest⟩
    · obtain ⟨before, hbefore, hreport, hafter⟩ := ih hfirst.wellFormed h
      exact ⟨before, hfirst.trans hbefore, hreport, hafter⟩

/-- The bytes that a step of a run claims are claimed after the run. -/
theorem mem_claims_of_mem_history (hwf : boot.arena.claims.WellFormed)
    {step : BootOperation × Report (Boot capacity) Reply} (h : step ∈ boot.history operations)
    {x : Nat} (hx : x ∈ step.1.claimedBytes boot.arena.page step.2.outcome) :
    x ∈ (boot.afterRun operations).arena.claims := by
  obtain ⟨before, hbefore, hreport, hafter⟩ := exists_of_mem_history hwf h
  refine hafter.mem_of_mem ?_
  rw [hreport] at hx ⊢
  rw [← hbefore.page_eq] at hx
  exact step.1.mem_claims_of_mem_claimedBytes hbefore.wellFormed hx

end Firmware.Boot

end PhysicalMemory
