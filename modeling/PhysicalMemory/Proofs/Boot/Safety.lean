import PhysicalMemory.Proofs.Boot.Runs

/-!
# Memory that is handed out is safe

A boot adopts the memory map of the firmware before it claims any memory. From then on, whatever
happens, a claim that is not forced gets memory that is `SafeToHandOut`: the map grants it, nobody
claimed or reserved it before, and it is not the boot loader's once the loader's memory has been
withheld. All of that follows from two facts. What must not be handed out was claimed at some step,
so it is claimed still; and a claim that is not forced gets nothing that is claimed.
-/

namespace PhysicalMemory.BootOperation

open Firmware

/-- The operation adopts a memory map: the one in the buffer, or one that comes with it. -/
inductive Adopts (buffer : MapBuffer) : BootOperation → List Region → Prop where
  /-- The map in the buffer. -/
  | buffered : Adopts buffer .adopt buffer.regions
  /-- A map that comes with the operation. -/
  | given (regions : List Region) : Adopts buffer (.ofArena (.adopt regions)) regions

/-- The operation withholds the boot loader's memory of a memory map: the one in the buffer, or one
that comes with it and covers the same bytes, such as the map itself or its canonical form. -/
inductive WithholdsLoader (buffer : MapBuffer) : BootOperation → List Region → Prop where
  /-- The map in the buffer. -/
  | buffered : WithholdsLoader buffer .withholdLoader buffer.regions
  /-- A map that comes with the operation. -/
  | given {same regions : List Region} :
    SameBytes same regions → WithholdsLoader buffer (.ofArena (.withholdLoader same)) regions

end PhysicalMemory.BootOperation

namespace PhysicalMemory.Firmware.Boot

open BootOperation

variable {capacity : Nat} {boot : Boot capacity} {first : BootOperation} {regions : List Region}
  {x : Nat}

/-- When a map is adopted, the bytes that it does not grant are claimed. -/
theorem mem_claims_of_adopts (hwf : boot.arena.claims.WellFormed)
    (hadopts : Adopts boot.map first regions) {reply : Reply}
    (hdone : (first.perform.run boot).outcome = .done reply) (hx : x ∈ withheldBytes regions) :
    x ∈ (first.perform.run boot).state.arena.claims := by
  cases hadopts with
  | buffered =>
    obtain ⟨events, hrun⟩ := run_adopt boot
    rw [perform, Action.run_map] at hdone ⊢
    obtain ⟨count, hcount⟩ := Report.exists_done_of_andThen hdone
    rw [hrun] at hcount
    obtain ⟨value, hvalue⟩ := Report.exists_done_of_andThen hcount
    rw [Report.state_andThen_pure, hrun, Report.state_after, Report.state_andThen_pure]
    have hgrows := (withhold_claimsWithin hwf boot.map.coalesced.regions).grows_of_done hvalue
    refine (hgrows.mem_iff x).mpr (Or.inr (boot.arena.page.subset_around _ ?_))
    rw [MapBuffer.regions_coalesced, (sameBytes_canonical _).withheldBytes_eq]
    exact hx
  | given =>
    rw [perform, onArena, Action.run_onPart, Operation.perform, Action.run_map] at hdone ⊢
    obtain ⟨map, hmap⟩ := Report.exists_done_of_andThen hdone
    rw [Report.state_andThen_pure]
    have hgrows := (adopt_claimsWithin hwf regions).grows_of_done hmap
    exact (hgrows.mem_iff x).mpr (Or.inr (boot.arena.page.subset_around _ hx))

/-- When the boot loader's memory of a map is withheld at a step of a run, it is claimed after the
run. -/
theorem mem_claims_of_withholdsLoader (hwf : boot.arena.claims.WellFormed)
    {operations : List BootOperation} {step : BootOperation × Report (Boot capacity) Reply}
    (hstep : step ∈ boot.history operations)
    (hwithholds : WithholdsLoader boot.map step.1 regions) {reply : Reply}
    (hdone : step.2.outcome = .done reply) (hx : x ∈ loaderBytes regions) :
    x ∈ (boot.afterRun operations).arena.claims := by
  obtain ⟨before, hbefore, hreport, hafter⟩ := exists_of_mem_history hwf hstep
  refine hafter.mem_of_mem ?_
  rw [hreport] at hdone ⊢
  generalize step.1 = operation at *
  cases hwithholds with
  | buffered =>
    -- The map in the buffer covers the same bytes as it did at the start.
    rw [← hbefore.sameBytes.loaderBytes_eq] at hx
    rw [perform, Action.run_bind] at hdone ⊢
    obtain ⟨value, hvalue⟩ := Report.exists_done_of_andThen hdone
    rw [Report.state_andThen_pure]
    exact mem_claims_of_mem_loaderBytes hbefore.wellFormed hvalue hx
  | given hsame =>
    rw [← hsame.loaderBytes_eq] at hx
    rw [perform, onArena, Action.run_onPart, Operation.perform, Action.run_bind] at hdone ⊢
    obtain ⟨value, hvalue⟩ := Report.exists_done_of_andThen hdone
    rw [Report.state_andThen_pure]
    exact mem_claims_of_mem_loaderBytes hbefore.wellFormed hvalue hx

/-- What makes it safe to hand out the bytes from `start` to `stop` after a run that adopted a
memory map. -/
structure SafeToHandOut (boot : Boot capacity) (operations : List BootOperation)
    (regions : List Region) (start stop : Nat) : Prop where
  /-- The bytes lie inside the address space. -/
  inside : stop ≤ addressSpace
  /-- The map grants each of the bytes. -/
  granted : ∀ x ∈ Set.Ico start stop, Grants regions x
  /-- No step claimed or reserved one of the bytes when it was done. -/
  fresh : ∀ step ∈ boot.history operations, ∀ x ∈ Set.Ico start stop,
    x ∉ step.1.claimedBytes boot.arena.page step.2.outcome
  /-- No step left one of the bytes claimed, however it ended. -/
  unclaimed : ∀ step ∈ boot.history operations, ∀ x ∈ Set.Ico start stop,
    x ∉ step.2.state.arena.claims
  /-- None of the bytes is the boot loader's when its memory has been withheld. -/
  notLoader : ∀ step ∈ boot.history operations, WithholdsLoader boot.map step.1 regions →
    (∃ reply, step.2.outcome = .done reply) →
      ∀ region ∈ regions, region.usage = .loader → ∀ x ∈ Set.Ico start stop, x ∉ region.extent

/-- After a boot has adopted a memory map, and whatever happens then, a claim of some bytes that is
done and was not forced gets bytes that are safe to hand out, and gets them below 4 GiB if it asked
for that. -/
theorem safeToHandOut_of_claim_done (hreachable : boot.arena.Reachable)
    (hadopts : Adopts boot.map first regions) {reply : Reply}
    (hadopted : (first.perform.run boot).outcome = .done reply) (later : List BootOperation)
    {address size alignment base : UInt64} {placement : Placement} (hsize : size ≠ 0)
    (hforced : placement ≠ .forced)
    (hdone : ((BootOperation.ofArena (.claim address size alignment placement)).perform.run
      (boot.afterRun (first :: later))).outcome = .done (.address base)) :
    boot.SafeToHandOut (first :: later) regions base.toNat (base.toNat + size.toNat) ∧
      (placement = .below4GiB → base.toNat + size.toNat ≤ fourGiB) := by
  have hwf := hreachable.wellFormed
  have hlater : (first.perform.run boot).state.Advances (boot.afterRun (first :: later)) :=
    afterRun_advances (first.perform_advances hwf).wellFormed later
  rw [perform, onArena, Action.run_onPart] at hdone
  obtain ⟨hchosen, hinside⟩ := Operation.chosen_of_claim_done hlater.wellFormed hsize hdone
  -- None of the bytes was claimed, so nothing that is claimed for good has one of them.
  have hfree := hchosen.unclaimed hforced
  refine ⟨⟨hinside, fun x hx => ?_, fun step hstep x hx hmem => ?_, fun step hstep x hx hmem => ?_,
    ?_⟩, hchosen.below⟩
  · have hlt : x < addressSpace := lt_of_lt_of_le hx.2 hinside
    by_contra hnot
    exact hfree x hx (hlater.mem_of_mem (mem_claims_of_adopts hwf hadopts hadopted ⟨hlt, hnot⟩))
  · exact hfree x hx (mem_claims_of_mem_history hwf hstep hmem)
  · obtain ⟨before, -, -, hafter⟩ := exists_of_mem_history hwf hstep
    exact hfree x hx (hafter.mem_of_mem hmem)
  · rintro step hstep hwithholds ⟨reply, hwithheld⟩ region hregion husage x hx hmem
    exact hfree x hx (mem_claims_of_withholdsLoader hwf hstep hwithholds hwithheld
      ⟨region, hregion, husage, hmem⟩)

/-- A boot of a small machine: a reserved region overlaps an available one that comes after it in
the map, and the boot loader's memory lies above both. -/
def ofSmallMachine : Boot 8 :=
  ⟨.ofRegions [⟨⟨0x8000, 0x1000⟩, .reserved, 1⟩, ⟨⟨0x9000, 0x2000⟩, .loader, 1⟩,
    ⟨⟨0, 0x8800⟩, .available, 1⟩], .empty .ofPlatform false⟩

/-- The first pages that are free on the small machine, once its first page is reserved. -/
theorem ofSmallMachine_safeToHandOut :
    ofSmallMachine.SafeToHandOut [.adopt, .withholdLoader, .ofArena (.reserve ⟨0, 1⟩)]
      ofSmallMachine.map.regions 0x1000 0x4000 := by
  have hadopted : (BootOperation.adopt.perform.run ofSmallMachine).outcome = .done (.count 3) := by
    decide +kernel
  have hdone : ((BootOperation.ofArena (.claim 0 0x3000 0x1000 .below4GiB)).perform.run
      (ofSmallMachine.afterRun [.adopt, .withholdLoader, .ofArena (.reserve ⟨0, 1⟩)])).outcome =
        .done (.address 0x1000) := by
    decide +kernel
  exact (safeToHandOut_of_claim_done (.start .ofPlatform false) .buffered hadopted _ (by decide)
    (by decide) hdone).1

end PhysicalMemory.Firmware.Boot
