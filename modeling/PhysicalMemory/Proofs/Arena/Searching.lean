import PhysicalMemory.Proofs.Arena.Claiming

/-!
# Searches along a run

Nothing is ever given back, so room is only taken: what is room in an arena was room at every time
before (`Claims.Wanted.rooms_anti`). A search finds the lowest room, and the lowest of fewer rooms
is no lower. So along a run, what a search finds never moves down, and where it has found nothing it
finds nothing again. A claim that is made by a search takes the lowest room away, so the next claim
of as many bytes goes strictly above it (`searches_ascend`).
-/

namespace PhysicalMemory

namespace Claims

variable {capacity : Nat} {claims later : Claims capacity} {wanted : Wanted}
  {size alignment first second : UInt64} {ceiling ceiling' : Nat}

/-- Room in a table is room in every table that holds fewer bytes. -/
theorem Wanted.rooms_anti (h : ∀ x ∈ claims, x ∈ later) :
    wanted.rooms later ⊆ wanted.rooms claims := by
  rintro position ⟨hdvd, hend, hfree⟩
  exact ⟨hdvd, hend, fun x hx hmem => hfree x hx (h x hmem)⟩

/-- The lowest room is at or below each room in a table with more bytes, also when the bytes are to
end below another ceiling there. -/
theorem Wanted.le_of_isLeast_rooms (h : ∀ x ∈ claims, x ∈ later)
    (hfirst : IsLeast (Wanted.rooms ⟨size, alignment, ceiling⟩ claims) first.toNat)
    (hsecond : second.toNat ∈ Wanted.rooms ⟨size, alignment, ceiling'⟩ later) :
    first ≤ second := by
  obtain ⟨hdvd, hend, hfree⟩ := rooms_anti h hsecond
  obtain ⟨-, hend', -⟩ := hfirst.1
  rw [UInt64.le_iff_toNat_le]
  by_cases hbelow : second.toNat + size.toNat ≤ ceiling
  · exact hfirst.2 ⟨hdvd, by dsimp only at hend ⊢; omega, hfree⟩
  · -- The first bytes end below the first ceiling, and the second above it.
    dsimp only at hend'
    omega

/-- What a search finds in a table with more bytes is no lower, and it finds nothing there when it
finds nothing here. -/
theorem WellFormed.firstFit_mono (hwf : claims.WellFormed) (hwf' : later.WellFormed)
    (h : ∀ x ∈ claims, x ∈ later) (hsize : wanted.size ≠ 0) (halign : wanted.alignment ≠ 0) :
    ∃ found found', claims.firstFit wanted = .ok found ∧ later.firstFit wanted = .ok found' ∧
      (found = none → found' = none) ∧
      ∀ address ∈ found, ∀ address' ∈ found', address ≤ address' := by
  obtain ⟨found, hfound, -⟩ := hwf.firstFit_ok wanted halign
  obtain ⟨found', hfound', -⟩ := hwf'.firstFit_ok wanted halign
  refine ⟨found, found', hfound, hfound', ?_, ?_⟩
  · rintro rfl
    have hempty := (hwf.firstFit_eq_none_iff hsize halign).mp hfound
    have hnone : wanted.rooms later = ∅ :=
      Set.subset_eq_empty (Wanted.rooms_anti h) hempty
    exact Except.ok.inj (hfound'.symm.trans ((hwf'.firstFit_eq_none_iff hsize halign).mpr hnone))
  · rintro address rfl address' rfl
    have hfirst := (hwf.firstFit_eq_some_iff hsize halign).mp hfound
    have hsecond := (hwf'.firstFit_eq_some_iff hsize halign).mp hfound'
    exact Wanted.le_of_isLeast_rooms h hfirst hsecond.1

end Claims

namespace Arena

variable {capacity : Nat} {arena : Arena capacity} {address size alignment base : UInt64}
  {placement : Placement}

/-- A claim of some bytes that is made by a search is made at the lowest room below some ceiling. -/
theorem exists_isLeast_of_claim_done (hwf : arena.claims.WellFormed) (hsize : size ≠ 0)
    (hsearches : placement.searches = true)
    (hdone : ((claim address size alignment placement).run arena).outcome = .done base) :
    ∃ ceiling, IsLeast (Claims.Wanted.rooms ⟨size, alignment, ceiling⟩ arena.claims)
      base.toNat := by
  have hvalid : ¬(placement.searches = true ∧ alignment = 0) := by
    rw [← choose_invalid_iff hwf, ← claim_invalid_iff hwf hsize, hdone]
    simp
  obtain ⟨htarget, -⟩ := (claim_done_iff_admits hwf hsize hvalid).mp hdone
  cases placement with
  | below4GiB => exact ⟨fourGiB, htarget⟩
  | anywhere => exact ⟨addressSpace, htarget⟩
  | fixed => exact absurd hsearches (by simp [Placement.searches])
  | forced => exact absurd hsearches (by simp [Placement.searches])

/-- When a claim is made, the arena grows by the bytes from its address on. -/
theorem grows_of_claim_done (hwf : arena.claims.WellFormed)
    (hdone : ((claim address size alignment placement).run arena).outcome = .done base) :
    arena.Grows ((claim address size alignment placement).run arena).state
      (Set.Ico base.toNat (base.toNat + size.toNat)) := by
  rcases (claim_claimsAtOnce hwf address size alignment placement).cases with
    ⟨value, hvalue, hgrows⟩ | ⟨failure, hfailed, -⟩
  · rwa [← Outcome.done.inj (hvalue.symm.trans hdone)]
  · exact absurd (hfailed.symm.trans hdone) (by simp)

/-- Searches ascend along a run. From a reachable arena on, whatever is asked of it and however that
ends, a search for some bytes at multiples of some number never finds a lower address than it found
before, and it finds nothing where it has found nothing before. Of two claims of as many bytes that
are made by searches in a run, the later one is made at a strictly higher address. -/
theorem searches_ascend (hreachable : arena.Reachable) (hsize : size ≠ 0)
    (operations : List Operation) :
    (∀ (alignment : UInt64) (ceiling : Nat), alignment ≠ 0 → ∃ found found',
      arena.claims.firstFit ⟨size, alignment, ceiling⟩ = .ok found ∧
      (arena.afterRun operations).claims.firstFit ⟨size, alignment, ceiling⟩ = .ok found' ∧
      (found = none → found' = none) ∧
      ∀ address ∈ found, ∀ address' ∈ found', address ≤ address') ∧
    ∀ (address address' alignment : UInt64) (placement placement' : Placement)
      (first second : UInt64), placement.searches = true → placement'.searches = true →
      let report := (claim address size alignment placement).run arena
      let report' := (claim address' size alignment placement').run
        (report.state.afterRun operations)
      report.outcome = .done first → report'.outcome = .done second → first < second := by
  have hwf := hreachable.wellFormed
  refine ⟨fun alignment ceiling halign => ?_, ?_⟩
  · obtain ⟨part, hgrows⟩ := afterRun_grows hwf operations
    exact hwf.firstFit_mono hgrows.wellFormed (fun x => hgrows.mem_of_mem) hsize halign
  · intro address address' alignment placement placement' first second hsearches hsearches'
      report report' hfirst hsecond
    have hmade := grows_of_claim_done hwf hfirst
    obtain ⟨part, hgrows⟩ := afterRun_grows hmade.wellFormed operations
    have htotal := hmade.trans hgrows
    obtain ⟨ceiling, hlowest⟩ := exists_isLeast_of_claim_done hwf hsize hsearches hfirst
    obtain ⟨ceiling', hlowest'⟩ :=
      exists_isLeast_of_claim_done htotal.wellFormed hsize hsearches' hsecond
    have hle : first ≤ second :=
      Claims.Wanted.le_of_isLeast_rooms (fun x => htotal.mem_of_mem) hlowest hlowest'.1
    -- The first of the bytes is free where the second claim is made, and taken by the first claim.
    have hpos : 0 < size.toNat := UInt64.pos_iff_ne_zero.mpr hsize
    have hclaimed : first.toNat ∈ (report.state.afterRun operations).claims :=
      (htotal.mem_iff _).mpr (Or.inr (Or.inl ⟨le_refl _, by omega⟩))
    obtain ⟨-, -, hfree⟩ := hlowest'.1
    refine UInt64.lt_of_le_of_ne hle fun hsame => ?_
    subst hsame
    exact hfree first.toNat ⟨le_refl _, by dsimp only; omega⟩ hclaimed

/-- Between two claims of a page that are made by searches, a page is reserved and then refused to a
fixed claim. What a search finds moves up from the second page to the fourth, above the reserved one,
and that is where the second claim is made. -/
theorem searches_ascend_aroundPage :
    let arena := (.empty .ofPlatform false : Arena 4).afterRun [.insert ⟨0, 0x800⟩]
    let operations : List Operation := [.reserve ⟨0x2000, 1⟩, .claimFixed 0x2fff 1]
    let report := (claim 0 0x1000 0x1000 .anywhere).run arena
    let report' := (claim 0 0x1000 0x1000 .anywhere).run (report.state.afterRun operations)
    report.state.claims.firstFit ⟨0x1000, 0x1000, fourGiB⟩ = .ok (some 0x2000) ∧
    (report.state.afterRun operations).claims.firstFit ⟨0x1000, 0x1000, fourGiB⟩ =
      .ok (some 0x3000) ∧ (0x2000 : UInt64) ≤ 0x3000 ∧
    report.outcome = .done 0x1000 ∧ report'.outcome = .done 0x3000 ∧
      (0x1000 : UInt64) < 0x3000 := by
  intro arena operations report report'
  have hreachable : arena.Reachable := (Arena.Reachable.start _ _).afterRun _
  have hreachable' : report.state.Reachable := hreachable.step (.claim 0 0x1000 0x1000 .anywhere)
  have hsize : (0x1000 : UInt64) ≠ 0 := by decide
  have hlow : report.state.claims.firstFit ⟨0x1000, 0x1000, fourGiB⟩ = .ok (some 0x2000) := by
    decide +kernel
  have hhigh : (report.state.afterRun operations).claims.firstFit ⟨0x1000, 0x1000, fourGiB⟩ =
      .ok (some 0x3000) := by
    decide +kernel
  have hfirst : report.outcome = .done 0x1000 := by decide +kernel
  have hsecond : report'.outcome = .done 0x3000 := by decide +kernel
  obtain ⟨found, found', hfound, hfound', -, hle⟩ :=
    (searches_ascend hreachable' hsize operations).1 0x1000 fourGiB hsize
  obtain rfl := Except.ok.inj (hfound.symm.trans hlow)
  obtain rfl := Except.ok.inj (hfound'.symm.trans hhigh)
  exact ⟨hlow, hhigh, hle _ rfl _ rfl, hfirst, hsecond,
    (searches_ascend hreachable hsize operations).2 0 0 0x1000 .anywhere .anywhere _ _ rfl rfl hfirst
      hsecond⟩

end Arena

end PhysicalMemory
