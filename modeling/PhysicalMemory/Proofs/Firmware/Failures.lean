import PhysicalMemory.Proofs.Firmware.Plans
import PhysicalMemory.Proofs.Runs

/-!
# When withholding fails

Withholding by a map can fail in two ways. A map that is not accepted is refused as invalid before
anything is reserved. From then on, resources can run out at any piece of the plan, and what was
reserved before that stays: some of the pages that had to be withheld, and no others. With enough
free slots only one thing is left that resources can run out of, which is memory: the claims and the
pages to withhold are all there is (`withhold_failure_law`).
-/

namespace PhysicalMemory.Firmware

variable {capacity : Nat} {arena : Arena capacity} {regions : List Region} {x : Nat}

/-- A byte lies in a page that has to be withheld: the page holds a byte that no region covers or
that a region covers which is neither usable memory nor the boot loader's. -/
def InWithheldPage (page : PageSize) (regions : List Region) (x : Nat) : Prop :=
  ∃ y < addressSpace, page.index x = page.index y ∧
    ((∀ region ∈ regions, y ∉ region.extent) ∨
      ∃ region ∈ regions,
        (region.usage ≠ .available ∧ region.usage ≠ .loader) ∧ y ∈ region.extent)

/-- The pages that have to be withheld are those around the bytes that are not granted. -/
theorem mem_around_withheldBytes {page : PageSize} :
    x ∈ page.around (withheldBytes regions) ↔ InWithheldPage page regions x := by
  constructor
  · rintro ⟨y, ⟨hlt, hnot⟩, hpage⟩
    exact ⟨y, hlt, hpage, not_grants_iff.mp hnot⟩
  · rintro ⟨y, hlt, hpage, hnot⟩
    exact ⟨y, ⟨hlt, not_grants_iff.mpr hnot⟩, hpage⟩

/-- A map is accepted when its audit is done and one of its regions has a byte. -/
theorem accepted_of_audit {σ : Type} {state : σ}
    (haudit : ((audit regions).run state).outcome = .done ())
    (hne : ∃ region ∈ regions, region.extent.isEmpty = false) : Accepted regions := by
  refine ⟨?_, ?_⟩
  · rcases outcome_audit regions state with ⟨husable, -⟩ | ⟨-, hfailed⟩
    · exact husable
    · exact absurd (haudit.symm.trans hfailed) (by simp)
  · obtain ⟨region, hregion, hempty⟩ := hne
    have hlt := Extent.isEmpty_eq_false_iff.mp hempty
    exact isSome_top?_iff.mpr
      ⟨region.extent.start, region, hregion, le_refl _, hlt, region.extent.start_lt⟩

/-- Withholding that fails as invalid leaves the arena alone. -/
theorem state_withhold_of_invalid (hwf : arena.claims.WellFormed)
    (hfailed : ((withhold regions).run arena).outcome = .failed .invalidParameter) :
    ((withhold regions).run arena).state = arena := by
  have hnot := (withhold_invalid_iff hwf).mp hfailed
  rcases withhold_cases arena regions with ⟨-, log, hrun⟩ | ⟨husable, top, htop, -⟩
  · rw [hrun]
  · exact absurd ⟨husable, by rw [htop]; rfl⟩ hnot

/-- The failure law of withholding by a map. When it fails as invalid, the arena is as it was. When
resources run out, the claim table is in its form, what was claimed still is, and every byte claimed
on the way lies in a page that has to be withheld. And with two free slots for each region that is
not empty and one more, by a map whose audit is done and that has a region with bytes, resources run
out exactly when the claims and the pages to withhold are the whole address space. -/
theorem withhold_failure_law (hreachable : arena.Reachable) (regions : List Region) :
    (((withhold regions).run arena).outcome = .failed .invalidParameter →
      ((withhold regions).run arena).state = arena) ∧
    (((withhold regions).run arena).outcome = .failed .outOfResources →
      ((withhold regions).run arena).state.claims.WellFormed ∧
      ((withhold regions).run arena).state.claims.firstDefect = none ∧
      (∀ x ∈ arena.claims, x ∈ ((withhold regions).run arena).state.claims) ∧
      ∀ x ∈ ((withhold regions).run arena).state.claims, x ∉ arena.claims →
        InWithheldPage arena.page regions x) ∧
    (arena.claims.size + (2 * (regions.countP fun region => !region.extent.isEmpty) + 1) ≤
        capacity →
      ((audit regions).run arena).outcome = .done () →
      (∃ region ∈ regions, region.extent.isEmpty = false) →
      (((withhold regions).run arena).outcome = .failed .outOfResources ↔
        ∀ x < addressSpace, x ∈ arena.claims ∨ InWithheldPage arena.page regions x)) := by
  have hwf := hreachable.wellFormed
  obtain ⟨part, hpart, hgrows⟩ := (withhold_claimsWithin hwf regions).grows_within
  refine ⟨state_withhold_of_invalid hwf, fun _ => ?_, fun hroom haudit hne => ?_⟩
  · refine ⟨hgrows.wellFormed, hgrows.wellFormed.firstDefect_eq_none, fun x => hgrows.mem_of_mem,
      fun x hx hnew => mem_around_withheldBytes.mp (hpart ?_)⟩
    exact ((hgrows.mem_iff x).mp hx).resolve_left hnew
  · have haccepted := accepted_of_audit haudit hne
    have hdone := exists_leads_withhold_iff hwf haccepted hroom
    simp only [mem_around_withheldBytes] at hdone
    constructor
    · intro hfailed x hx
      by_contra hfree
      rw [not_or] at hfree
      -- A free byte would make it be done.
      obtain ⟨last, hleads⟩ := hdone.mpr ⟨x, hx, hfree⟩
      exact absurd ((Action.leads_iff.mp hleads).1.symm.trans hfailed) (by simp)
    · intro hwhole
      refine (outcome_withhold hwf haccepted).resolve_left fun houtcome => ?_
      obtain ⟨x, hx, hclaims, hpage⟩ := hdone.mp ⟨_, Action.leads_iff.mpr ⟨houtcome, rfl⟩⟩
      exact (hwhole x hx).elim hclaims hpage

/-- All memory above the first page is claimed, and the map has a gap where that page is: resources
run out, although the table has three free slots. -/
theorem withhold_fails_lastPage :
    let regions : List Region := [⟨⟨0x1000, 0xfffffffffffff000⟩, .available, 1⟩]
    let arena := (.empty .ofPlatform false : Arena 4).afterRun
      [.insert ⟨0x1000, 0xfffffffffffff000⟩]
    ((withhold regions).run arena).outcome = .failed .outOfResources := by
  intro regions arena
  have hclaims : arena.claims = ⟨[⟨0x1000, 0xfffffffffffff000⟩]⟩ := by decide +kernel
  have hreachable : arena.Reachable := (Arena.Reachable.start _ _).afterRun _
  have hlaw := (withhold_failure_law hreachable regions).2.2 (by rw [hclaims]; decide)
    (by decide +kernel) ⟨_, List.mem_cons_self, rfl⟩
  refine hlaw.mpr fun x hx => ?_
  by_cases hlow : x < 0x1000
  · -- No region covers the byte itself.
    refine Or.inr ⟨x, hx, rfl, Or.inl fun region hregion hmem => ?_⟩
    obtain rfl := List.mem_singleton.mp hregion
    exact absurd hmem.1 (Nat.not_le.mpr hlow)
  · rw [hclaims]
    exact Or.inl ⟨_, List.mem_cons_self, Nat.not_lt.mp hlow, hx, hx⟩

end PhysicalMemory.Firmware
