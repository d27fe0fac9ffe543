import PhysicalMemory.Firmware.Coalesce
import PhysicalMemory.Proofs.Bytes

/-!
# What a memory map says about a byte

A memory map grants a byte when a region of usable memory or of the boot loader's covers it and no
region of another usage does; it withholds every other byte, be it that no region covers it or that
a region of another usage does. That depends only on which bytes the regions of each kind cover, and
the canonical form of a map keeps those (`sameBytes_canonical`): sorting moves no region's bytes, and
a region is joined only with a region of its own kind that it meets.
-/

namespace PhysicalMemory.Firmware

variable {a b c regions : List Region} {x : Nat}

/-- A region of a usage with some attributes covers a byte. -/
def Covered (regions : List Region) (usage : Usage) (attributes : UInt32) (x : Nat) : Prop :=
  ∃ region ∈ regions, region.usage = usage ∧ region.attributes = attributes ∧ x ∈ region.extent

/-- A byte is granted: a region of usable memory or of the boot loader's covers it, and no region of
another usage does. -/
def Grants (regions : List Region) (x : Nat) : Prop :=
  (∃ region ∈ regions,
    (region.usage = .available ∨ region.usage = .loader) ∧ x ∈ region.extent) ∧
  ∀ region ∈ regions, x ∈ region.extent → region.usage = .available ∨ region.usage = .loader

/-- The bytes of the address space that are not granted. -/
def withheldBytes (regions : List Region) : Set Nat := {x | x < addressSpace ∧ ¬Grants regions x}

/-- The bytes of the boot loader's regions. -/
def loaderBytes (regions : List Region) : Set Nat :=
  {x | ∃ region ∈ regions, region.usage = .loader ∧ x ∈ region.extent}

/-- A byte is not granted exactly when no region covers it or a region does that is neither usable
memory nor the boot loader's. -/
theorem not_grants_iff : ¬Grants regions x ↔ (∀ region ∈ regions, x ∉ region.extent) ∨
    ∃ region ∈ regions,
      (region.usage ≠ .available ∧ region.usage ≠ .loader) ∧ x ∈ region.extent := by
  constructor
  · intro h
    by_cases hsome : ∃ region ∈ regions,
        (region.usage ≠ .available ∧ region.usage ≠ .loader) ∧ x ∈ region.extent
    · exact Or.inr hsome
    · -- Every region that covers the byte is granted, so none does.
      have hall : ∀ region ∈ regions, x ∈ region.extent →
          region.usage = .available ∨ region.usage = .loader := by
        intro region hregion hmem
        by_contra hother
        exact hsome ⟨region, hregion, not_or.mp hother, hmem⟩
      refine Or.inl fun region hregion hmem => h ⟨?_, hall⟩
      exact ⟨region, hregion, hall region hregion hmem, hmem⟩
  · rintro (hnone | ⟨region, hregion, husage, hmem⟩) ⟨⟨other, hother, -, hcovers⟩, hall⟩
    · exact hnone other hother hcovers
    · exact not_or.mpr husage (hall region hregion hmem)

/-- Two maps whose regions of each kind cover the same bytes. -/
def SameBytes (a b : List Region) : Prop :=
  ∀ usage attributes x, Covered a usage attributes x ↔ Covered b usage attributes x

/-- A map covers the same bytes as itself. -/
theorem SameBytes.refl (regions : List Region) : SameBytes regions regions := fun _ _ _ => Iff.rfl

/-- Covering the same bytes goes both ways. -/
theorem SameBytes.symm (h : SameBytes a b) : SameBytes b a :=
  fun usage attributes x => (h usage attributes x).symm

/-- Maps with the same regions cover the same bytes. -/
theorem SameBytes.of_perm (hperm : a.Perm b) : SameBytes a b := by
  intro usage attributes x
  simp only [Covered, hperm.mem_iff]

/-- Covering the same bytes goes from map to map. -/
theorem SameBytes.trans (hab : SameBytes a b) (hbc : SameBytes b c) : SameBytes a c :=
  fun usage attributes x => (hab usage attributes x).trans (hbc usage attributes x)

/-- Of two maps with the same bytes, either covers a byte by a region of a certain usage exactly
when the other does. -/
theorem SameBytes.exists_usage_iff (h : SameBytes a b) (p : Usage → Prop) :
    (∃ region ∈ a, p region.usage ∧ x ∈ region.extent) ↔
      ∃ region ∈ b, p region.usage ∧ x ∈ region.extent := by
  constructor
  · rintro ⟨region, hregion, hp, hmem⟩
    obtain ⟨other, hother, husage, -, hcovers⟩ :=
      (h region.usage region.attributes x).mp ⟨region, hregion, rfl, rfl, hmem⟩
    exact ⟨other, hother, husage ▸ hp, hcovers⟩
  · rintro ⟨region, hregion, hp, hmem⟩
    obtain ⟨other, hother, husage, -, hcovers⟩ :=
      (h region.usage region.attributes x).mpr ⟨region, hregion, rfl, rfl, hmem⟩
    exact ⟨other, hother, husage ▸ hp, hcovers⟩

/-- Maps with the same bytes withhold the same bytes. -/
theorem SameBytes.withheldBytes_eq (h : SameBytes a b) : withheldBytes a = withheldBytes b := by
  have hcovered := fun x => h.exists_usage_iff (x := x) fun _ => True
  have hungranted := fun x =>
    h.exists_usage_iff (x := x) fun usage => usage ≠ .available ∧ usage ≠ .loader
  simp only [true_and] at hcovered
  ext x
  have hnone : (∀ region ∈ a, x ∉ region.extent) ↔ ∀ region ∈ b, x ∉ region.extent := by
    simpa using not_congr (hcovered x)
  simp only [withheldBytes, Set.mem_ofPred_eq, not_grants_iff, hnone, hungranted]

/-- Maps with the same bytes have the same loader memory. -/
theorem SameBytes.loaderBytes_eq (h : SameBytes a b) : loaderBytes a = loaderBytes b := by
  ext x
  exact h.exists_usage_iff fun usage => usage = .loader

/-- When a region is joined with another: neither runs past the top, they are of the same kind, they
overlap or touch, and they have a hull, which becomes the extent. -/
theorem Region.join?_eq_some_iff {region next joined : Region} :
    region.join? next = some joined ↔
      (region.extent.stop ≤ addressSpace ∧ next.extent.stop ≤ addressSpace) ∧
      (next.usage = region.usage ∧ next.attributes = region.attributes) ∧
      region.extent.meets next.extent = true ∧
      ∃ hull, region.extent.hull? next.extent = some hull ∧
        joined = { region with extent := hull } := by
  have hpast : (region.extent.runsPastTop || next.extent.runsPastTop) = true ↔
      ¬(region.extent.stop ≤ addressSpace ∧ next.extent.stop ≤ addressSpace) := by
    rw [Bool.or_eq_true, Extent.runsPastTop_iff, Extent.runsPastTop_iff]
    omega
  have hkind : (region.sameKind next && region.extent.meets next.extent) = true ↔
      (next.usage = region.usage ∧ next.attributes = region.attributes) ∧
        region.extent.meets next.extent = true := by
    rw [Bool.and_eq_true, sameKind, Bool.and_eq_true, beq_iff_eq, beq_iff_eq,
      eq_comm (a := region.usage), eq_comm (a := region.attributes)]
  unfold join?
  by_cases hinside : region.extent.stop ≤ addressSpace ∧ next.extent.stop ≤ addressSpace
  · rw [if_neg (by rwa [hpast, not_not])]
    by_cases hjoin : (next.usage = region.usage ∧ next.attributes = region.attributes) ∧
        region.extent.meets next.extent = true
    · rw [if_pos (hkind.mpr hjoin), Option.map_eq_some_iff]
      simp only [hinside, hjoin, true_and, eq_comm]
    · rw [if_neg (by rwa [hkind])]
      simp only [reduceCtorEq, false_iff]
      exact fun h => hjoin ⟨h.2.1, h.2.2.1⟩
  · rw [if_pos (hpast.mpr hinside)]
    simp only [reduceCtorEq, false_iff]
    exact fun h => hinside h.1

/-- A region is joined with one of its own kind, and their hull holds the bytes of both. -/
theorem Region.join?_eq_some {region next joined : Region}
    (h : region.join? next = some joined) :
    (joined.usage = region.usage ∧ joined.attributes = region.attributes) ∧
      (next.usage = region.usage ∧ next.attributes = region.attributes) ∧
      ∀ x, x ∈ joined.extent ↔ x ∈ region.extent ∨ x ∈ next.extent := by
  obtain ⟨-, hkind, hmeets, hull, hhull, rfl⟩ := join?_eq_some_iff.mp h
  exact ⟨⟨rfl, rfl⟩, hkind, fun x => Extent.mem_hull? hmeets hhull⟩

/-- Joining runs keeps the bytes of each kind. -/
theorem sameBytes_joinRuns (region : Region) (rest : List Region) :
    SameBytes (joinRuns region rest) (region :: rest) := by
  intro usage attributes x
  fun_induction joinRuns region rest with
  | case1 region => exact Iff.rfl
  | case2 region next rest joined hjoin ih =>
    obtain ⟨⟨husage, hattributes⟩, ⟨husage', hattributes'⟩, hmem⟩ := Region.join?_eq_some hjoin
    rw [ih]
    simp only [Covered, List.mem_cons, or_and_right, exists_or, exists_eq_left, hmem, husage,
      hattributes, husage', hattributes', and_or_left, or_assoc]
  | case3 region next rest hjoin ih =>
    simp only [Covered, List.mem_cons, or_and_right, exists_or, exists_eq_left] at ih ⊢
    rw [ih]

/-- The canonical form of a map keeps the bytes of each kind. -/
theorem sameBytes_canonical (regions : List Region) : SameBytes (canonical regions) regions := by
  have hordered : SameBytes (ordered regions) regions := .of_perm (Sorting.sortBy_perm _ _)
  refine SameBytes.trans ?_ hordered
  unfold canonical
  cases ordered regions with
  | nil => exact .refl _
  | cons region rest => exact sameBytes_joinRuns region rest

end PhysicalMemory.Firmware
