import PhysicalMemory.Firmware.Audit

/-!
# What an audit accepts

An audit goes through a memory map once and looks at each region beside the one before it. It
accepts exactly the usable maps: the regions are in ascending order of their bases, none runs past
the top of the address space, and none but the last ends there (`outcome_audit`).
-/

namespace PhysicalMemory.Firmware

variable {σ : Type} {regions rest : List Region} {region : Region}

/-- A memory map that memory can be withheld by. -/
structure Usable (regions : List Region) : Prop where
  /-- No region starts below one before it. -/
  ascending : regions.Pairwise fun earlier later => earlier.extent.start ≤ later.extent.start
  /-- No region runs past the top of the address space. -/
  inside : ∀ region ∈ regions, region.extent.stop ≤ addressSpace
  /-- No region but the last ends at the top. -/
  belowTop : ∀ region ∈ regions.dropLast, region.extent.stop ≠ addressSpace

/-- A map is usable exactly when what comes after its first region is, and the first region does not
start above the second, does not run past the top, and ends there only if it is the last. -/
theorem usable_cons : Usable (region :: rest) ↔
    (∀ next ∈ rest.head?, region.extent.start ≤ next.extent.start) ∧
      (region.extent.stop ≤ addressSpace ∧
        (rest.isEmpty = false → region.extent.stop ≠ addressSpace)) ∧ Usable rest := by
  constructor
  · rintro ⟨hascending, hinside, htop⟩
    obtain ⟨hfirst, hrest⟩ := List.pairwise_cons.mp hascending
    refine ⟨fun next hnext => hfirst next (List.mem_of_mem_head? hnext),
      ⟨hinside region List.mem_cons_self, ?_⟩,
      hrest, fun r hr => hinside r (List.mem_cons_of_mem _ hr), ?_⟩
    · intro hne
      refine htop region ?_
      rw [List.dropLast_cons_of_ne_nil (List.isEmpty_eq_false_iff.mp hne)]
      exact List.mem_cons_self
    · intro r hr
      refine htop r ?_
      cases rest with
      | nil => simp at hr
      | cons next others => exact List.mem_cons_of_mem _ hr
  · rintro ⟨hnext, ⟨hstop, htop⟩, husable⟩
    refine ⟨List.pairwise_cons.mpr ⟨fun r hr => ?_, husable.ascending⟩, fun r hr => ?_,
      fun r hr => ?_⟩
    · -- The second region starts no higher than any after it.
      cases rest with
      | nil => simp at hr
      | cons next others =>
        have hle := hnext next rfl
        rcases List.mem_cons.mp hr with rfl | hr
        · exact hle
        · exact Nat.le_trans hle ((List.pairwise_cons.mp husable.ascending).1 r hr)
    · rcases List.mem_cons.mp hr with rfl | hr
      · exact hstop
      · exact husable.inside r hr
    · cases rest with
      | nil => simp at hr
      | cons next others =>
        rcases List.mem_cons.mp hr with rfl | hr
        · exact htop rfl
        · exact husable.belowTop r hr

/-- The place of a region is fatal exactly when it starts below the region before it. -/
theorem any_isFatal_placeFindings (index : Nat) (previous : Option Region) (covered : Nat) :
    (placeFindings index previous covered region).any Finding.isFatal = false ↔
      ∀ before ∈ previous, before.extent.start ≤ region.extent.start := by
  cases previous with
  | none => simp [placeFindings]
  | some before =>
    simp only [placeFindings, Option.mem_some, forall_eq']
    split
    · rename_i hbelow
      simpa [Finding.isFatal] using hbelow
    · rename_i hbelow
      rw [Nat.not_lt] at hbelow
      split <;> simp [Finding.isFatal, hbelow]

/-- The stop of a region is fatal exactly when it is past the top, or at the top before the last
region. -/
theorem any_isFatal_stopFindings (index : Nat) (isLast : Bool) :
    (stopFindings index region isLast).any Finding.isFatal = false ↔
      region.extent.stop ≤ addressSpace ∧
        (isLast = false → region.extent.stop ≠ addressSpace) := by
  have hpast := Extent.runsPastTop_iff (e := region.extent)
  have htop := Extent.endsAtTop_iff (e := region.extent)
  unfold stopFindings
  split
  · rename_i h
    rw [Bool.or_eq_true, hpast, Bool.and_eq_true, htop, Bool.not_eq_true'] at h
    simp only [List.any_cons, Finding.isFatal, Bool.true_or, Bool.true_eq_false, false_iff]
    rintro ⟨hle, hne⟩
    rcases h with h | ⟨h, hlast⟩
    · omega
    · exact hne hlast h
  · rename_i h
    rw [Bool.or_eq_true, hpast, Bool.and_eq_true, htop, Bool.not_eq_true', not_or, not_and] at h
    simp only [List.any_nil, true_iff]
    exact ⟨Nat.not_lt.mp h.1, fun hlast hstop => h.2 hstop hlast⟩

/-- The findings from a position on are not fatal exactly when the map from there on is usable and
does not start below the region before it. -/
theorem any_isFatal_findingsFrom (index : Nat) (previous : Option Region) (covered : Nat) :
    (findingsFrom index previous covered regions).any Finding.isFatal = false ↔
      (∀ before ∈ previous, ∀ first ∈ regions.head?,
        before.extent.start ≤ first.extent.start) ∧ Usable regions := by
  induction regions generalizing index previous covered with
  | nil => simpa [findingsFrom] using ⟨List.Pairwise.nil, by simp, by simp⟩
  | cons region rest ih =>
    rw [findingsFrom, List.any_append, List.any_append, Bool.or_eq_false_iff,
      Bool.or_eq_false_iff, any_isFatal_placeFindings, any_isFatal_stopFindings, ih, usable_cons]
    simp only [List.head?_cons, Option.mem_some, forall_eq']
    constructor
    · rintro ⟨⟨hplace, hstop⟩, hnext, husable⟩
      exact ⟨hplace, hnext, hstop, husable⟩
    · rintro ⟨hplace, hnext, hstop, husable⟩
      exact ⟨⟨hplace, hstop⟩, hnext, husable⟩

/-- No finding about a map is fatal exactly when the map is usable. -/
theorem any_isFatal_findings :
    (findings regions).any Finding.isFatal = false ↔ Usable regions := by
  rw [findings, any_isFatal_findingsFrom]
  simp

/-- An audit is done when the map is usable, and otherwise it fails as invalid. -/
theorem outcome_audit (regions : List Region) (state : σ) :
    Usable regions ∧ ((audit regions).run state).outcome = .done () ∨
      ¬Usable regions ∧ ((audit regions).run state).outcome = .failed .invalidParameter := by
  rw [run_audit, ← any_isFatal_findings]
  cases (findings regions).any Finding.isFatal <;> simp

end PhysicalMemory.Firmware
