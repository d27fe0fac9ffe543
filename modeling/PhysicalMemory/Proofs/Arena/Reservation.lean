import PhysicalMemory.Proofs.Arena.Growth
import PhysicalMemory.Proofs.Leads

/-!
# When a reservation is done

A reservation of some bytes is done exactly when they lie inside the address space, some byte is
left free by the claims and by the pages around the bytes, and there is a slot for these pages
(`exists_leads_reserve_iff`). It changes nothing but the claim table, takes one slot at most, and
fails in one way only.
-/

namespace PhysicalMemory

/-- When some byte is in none of the pages around an extent, the pages are an extent. -/
theorem PageSize.exists_widen?_eq_some {page : PageSize} {extent : Extent} {x : Nat}
    (hne : extent.start < extent.stop) (hinside : extent.stop ≤ addressSpace)
    (hx : x < addressSpace) (hfree : x ∉ page.around (Set.Ico extent.start extent.stop)) :
    ∃ pages, page.widen? extent = some pages := by
  have htop := ceilingTo_le_of_dvd page.bytes_pos page.dvd_addressSpace hinside
  rw [page.around_Ico hne, Set.mem_Ico] at hfree
  unfold widen? firstOf lastOf
  rw [if_pos (by omega)]
  exact ⟨_, rfl⟩

namespace Arena

variable {capacity : Nat} {arena next : Arena capacity} {extent : Extent} {x : Nat}

/-- A reservation of no bytes leads nowhere else. -/
theorem leads_reserve_of_isEmpty (hempty : extent.isEmpty = true) :
    (reserve extent).Leads arena next ↔ arena = next := by
  rw [reserve, if_pos hempty, Action.leads_iff, Action.run_pure]
  simp

/-- A reservation of some bytes leads where the insertion of the pages around them does. -/
theorem leads_reserve_iff (hwf : arena.claims.WellFormed) (hne : extent.isEmpty = false) :
    (reserve extent).Leads arena next ↔ extent.stop ≤ addressSpace ∧
      ∃ pages claims, arena.page.widen? extent = some pages ∧
        arena.claims.insert pages = .ok claims ∧ next = { arena with claims } := by
  rcases reserve_cases hwf hne with
    ⟨pages, claims, log, hinside, hpages, hinsert, hrun⟩ | ⟨⟨log, hrun⟩, hrefused⟩
  · rw [Action.leads_iff, hrun]
    constructor
    · rintro ⟨-, rfl⟩
      exact ⟨hinside, pages, claims, hpages, hinsert, rfl⟩
    · rintro ⟨-, other, grown, hother, hgrown, rfl⟩
      obtain rfl := Option.some.inj (hpages.symm.trans hother)
      rw [Except.ok.inj (hinsert.symm.trans hgrown)]
      exact ⟨rfl, rfl⟩
  · rw [Action.leads_iff, hrun]
    constructor
    · rintro ⟨hdone, -⟩
      exact absurd hdone (by simp)
    · rintro ⟨hinside, pages, claims, hpages, hinsert, -⟩
      obtain ⟨refusal, hrefusal⟩ := hrefused hinside pages hpages
      exact absurd (hinsert.symm.trans hrefusal) (by simp)

/-- A reservation lets the arena grow by the pages around its extent. -/
theorem Grows.of_leads_reserve (hwf : arena.claims.WellFormed)
    (h : (reserve extent).Leads arena next) :
    arena.Grows next (arena.page.around (Set.Ico extent.start extent.stop)) := by
  obtain ⟨hdone, rfl⟩ := Action.leads_iff.mp h
  rcases (reserve_claimsAtOnce hwf extent).cases with ⟨_, -, hgrows⟩ | ⟨failure, hfailed, -⟩
  · exact hgrows
  · exact absurd (hdone.symm.trans hfailed) (by simp)

/-- A reservation changes nothing but the claim table, which grows by one entry at most. -/
theorem eq_of_leads_reserve (hwf : arena.claims.WellFormed)
    (h : (reserve extent).Leads arena next) :
    next = { arena with claims := next.claims } ∧ next.claims.size ≤ arena.claims.size + 1 := by
  cases hempty : extent.isEmpty with
  | true =>
    obtain rfl := (leads_reserve_of_isEmpty hempty).mp h
    exact ⟨rfl, Nat.le_succ _⟩
  | false =>
    obtain ⟨-, pages, claims, -, hinsert, rfl⟩ := (leads_reserve_iff hwf hempty).mp h
    exact ⟨rfl, hwf.size_insert_le hinsert⟩

/-- A reservation of some bytes is done exactly when they lie inside the address space, some byte is
neither claimed nor in the pages around them, and there is a slot for these pages. -/
theorem exists_leads_reserve_iff (hwf : arena.claims.WellFormed) (hne : extent.isEmpty = false) :
    (∃ next, (reserve extent).Leads arena next) ↔ extent.stop ≤ addressSpace ∧
      (∃ x < addressSpace, x ∉ arena.claims ∧
        x ∉ arena.page.around (Set.Ico extent.start extent.stop)) ∧
      ∀ pages, arena.page.widen? extent = some pages → arena.claims.HasSlotFor pages := by
  have hlt := Extent.isEmpty_eq_false_iff.mp hne
  -- What the insertion of the pages needs, in terms of the bytes around the extent.
  have hinsert : ∀ pages, extent.stop ≤ addressSpace → arena.page.widen? extent = some pages →
      ((∃ claims, arena.claims.insert pages = .ok claims) ↔
        (∃ x < addressSpace, x ∉ arena.claims ∧
          x ∉ arena.page.around (Set.Ico extent.start extent.stop)) ∧
        arena.claims.HasSlotFor pages) := by
    intro pages hinside hpages
    obtain ⟨hpagesLt, hpagesInside, hbytes⟩ := PageSize.widen?_eq_some hlt hinside hpages
    have hmem : ∀ x, x ∈ pages ↔ x ∈ arena.page.around (Set.Ico extent.start extent.stop) := by
      intro x
      rw [← hbytes, Set.mem_Ico, Extent.mem_iff_of_inside hpagesInside]
    rw [hwf.exists_insert_iff (Extent.isEmpty_eq_false_iff.mpr hpagesLt)]
    simp only [hpagesInside, hmem, true_and]
  simp only [leads_reserve_iff hwf hne]
  constructor
  · rintro ⟨next, hinside, pages, claims, hpages, hclaims, -⟩
    obtain ⟨hfree, hslot⟩ := (hinsert pages hinside hpages).mp ⟨claims, hclaims⟩
    refine ⟨hinside, hfree, fun other hother => ?_⟩
    rwa [← Option.some.inj (hpages.symm.trans hother)]
  · rintro ⟨hinside, ⟨x, hx, hclaims, haround⟩, hslot⟩
    obtain ⟨pages, hpages⟩ := PageSize.exists_widen?_eq_some hlt hinside hx haround
    obtain ⟨claims, hgrown⟩ :=
      (hinsert pages hinside hpages).mpr ⟨⟨x, hx, hclaims, haround⟩, hslot pages hpages⟩
    exact ⟨_, hinside, pages, claims, hpages, hgrown, rfl⟩

/-- Where a reservation of some bytes is done, so is one of an extent that spans them, inside the
address space, when some byte is neither claimed nor in the pages around it. -/
theorem exists_leads_reserve_of_spans {outer : Extent} (hwf : arena.claims.WellFormed)
    (hne : extent.isEmpty = false) (h : (reserve extent).Leads arena next)
    (hspans : outer.start ≤ extent.start ∧ extent.stop ≤ outer.stop)
    (hinside : outer.stop ≤ addressSpace) (hfree : ∃ x < addressSpace, x ∉ arena.claims ∧
      x ∉ arena.page.around (Set.Ico outer.start outer.stop)) :
    ∃ other, (reserve outer).Leads arena other := by
  have hlt := Extent.isEmpty_eq_false_iff.mp hne
  have houter : outer.start < outer.stop := by omega
  refine (exists_leads_reserve_iff hwf (Extent.isEmpty_eq_false_iff.mpr houter)).mpr
    ⟨hinside, hfree, fun pages hpages => ?_⟩
  -- The pages around the bytes have a slot, and they are among those around the outer extent.
  obtain ⟨hextentInside, inner, claims, hinner, hinsert, -⟩ := (leads_reserve_iff hwf hne).mp h
  obtain ⟨-, -, hpagesBytes⟩ := PageSize.widen?_eq_some houter hinside hpages
  obtain ⟨hinnerLt, -, hinnerBytes⟩ := PageSize.widen?_eq_some hlt hextentInside hinner
  have hsub : Set.Ico inner.start inner.stop ⊆ Set.Ico pages.start pages.stop := by
    rw [hinnerBytes, hpagesBytes]
    exact PageSize.around_mono (Set.Ico_subset_Ico hspans.1 hspans.2)
  obtain ⟨hstart, hstop⟩ := (Set.Ico_subset_Ico_iff hinnerLt).mp hsub
  have hslot := ((hwf.exists_insert_iff
    (Extent.isEmpty_eq_false_iff.mpr hinnerLt)).mp ⟨claims, hinsert⟩).2.2
  exact hslot.of_spans hstart hstop

/-- A reservation that is not done fails for want of resources. -/
theorem outcome_reserve (hwf : arena.claims.WellFormed) (extent : Extent) :
    ((reserve extent).run arena).outcome = .done () ∨
      ((reserve extent).run arena).outcome = .failed .outOfResources := by
  cases hempty : extent.isEmpty with
  | true => exact Or.inl (by rw [reserve, if_pos hempty, Action.run_pure])
  | false =>
    rcases reserve_cases hwf hempty with ⟨_, _, log, -, -, -, hrun⟩ | ⟨⟨log, hrun⟩, -⟩
    · exact Or.inl (by rw [hrun])
    · exact Or.inr (by rw [hrun])

end Arena

end PhysicalMemory
