import PhysicalMemory.Proofs.Bytes
import PhysicalMemory.Proofs.Checked.Words

/-!
# Extents as intervals of bytes

The bytes of an extent are an interval of addresses, cut off at the top of the address space. What the
library asks about two extents is decided by numbers that are not cut off, and it is a question about
these intervals all the same: whether they share a byte, whether together they are one interval, and
which interval that is (`algebra_exact`). That a start is always an address is what makes it so. Where
an extent runs past the top, the bytes that it lacks lie above every start that could be compared with
its stop.
-/

namespace PhysicalMemory.Extent

variable {a b : Extent} {first stop : Nat}

/-- An extent that is not empty has the byte at its start. -/
theorem start_mem (h : a.isEmpty = false) : a.start ∈ a :=
  ⟨le_refl _, isEmpty_eq_false_iff.mp h, a.start_lt⟩

/-- When the bytes of two extents together are one interval, the first does not start above the stop of
the second. -/
theorem start_le_stop_of_interval (ha : a.isEmpty = false) (hb : b.isEmpty = false)
    (h : {x | x ∈ a ∨ x ∈ b} = Set.Ico first stop) : a.start ≤ b.stop := by
  by_contra hgap
  have hastart : a.start ∈ Set.Ico first stop := h ▸ Or.inl (start_mem ha)
  have hbstart : b.start ∈ Set.Ico first stop := h ▸ Or.inr (start_mem hb)
  have hble := b.start_le_stop
  -- The stop of the second would lie between the two starts, and it is a byte of neither extent.
  have hbetween : b.stop ∈ Set.Ico first stop := by
    rw [Set.mem_Ico] at hastart hbstart ⊢
    omega
  rw [← h] at hbetween
  rcases hbetween with hmem | hmem
  · exact hgap hmem.1
  · exact Nat.lt_irrefl _ hmem.2.1

/-- Extents that are not empty meet exactly when their bytes together are one interval. -/
theorem meets_iff_interval (ha : a.isEmpty = false) (hb : b.isEmpty = false) :
    a.meets b = true ↔ ∃ first stop, {x | x ∈ a ∨ x ∈ b} = Set.Ico first stop := by
  constructor
  · intro hmeets
    rw [meets_iff] at hmeets
    have hale := a.start_le_stop
    have hble := b.start_le_stop
    refine ⟨min a.start b.start, min (max a.stop b.stop) addressSpace, ?_⟩
    ext x
    rw [Set.mem_ofPred_eq, Set.mem_Ico, mem_def, mem_def]
    omega
  · rintro ⟨first, stop, h⟩
    have h' : {x | x ∈ b ∨ x ∈ a} = Set.Ico first stop := by
      simpa only [or_comm] using h
    rw [meets_iff]
    exact ⟨start_le_stop_of_interval ha hb h, start_le_stop_of_interval hb ha h'⟩

/-- Extents have no hull exactly when it would be the whole address space. -/
theorem hull?_eq_none_iff :
    a.hull? b = none ↔ min a.start b.start = 0 ∧ addressSpace ≤ max a.stop b.stop := by
  have hastart := a.start_lt
  simp only [hull?]
  split
  · simp only [reduceCtorEq, false_iff]
    omega
  · simp only [true_iff]
    omega

/-- The comparisons and the hull of any two extents say what they should about the bytes, which are
the addresses from the start on and below the stop. They overlap exactly when they have a byte in
common. Unless one of them is empty, they meet exactly when their bytes together are one interval, and
when they meet and have a hull, its bytes are the bytes of both. They lack a hull exactly when the
lower start is zero and the higher stop is at the top of the address space or above it. The order of
the two never matters, and on a machine, which adds words and looks at the lower extent first, the
answers are the same. -/
theorem algebra_exact (a b : Extent) :
    (a.overlaps b = true ↔ ∃ x, x ∈ a ∧ x ∈ b) ∧
    (a.isEmpty = false → b.isEmpty = false →
      (a.meets b = true ↔ ∃ first stop, {x | x ∈ a ∨ x ∈ b} = Set.Ico first stop) ∧
      (a.meets b = true → ∀ hull, a.hull? b = some hull → ∀ x, x ∈ hull ↔ x ∈ a ∨ x ∈ b)) ∧
    (a.hull? b = none ↔ min a.start b.start = 0 ∧ addressSpace ≤ max a.stop b.stop) ∧
    (a.overlaps b = b.overlaps a ∧ a.meets b = b.meets a ∧ a.hull? b = b.hull? a) ∧
    (Checked.overlaps a b = a.overlaps b ∧ Checked.meets a b = a.meets b ∧
      Checked.hull? a b = .ok (a.hull? b)) := by
  refine ⟨overlaps_iff_exists_mem, fun ha hb => ⟨meets_iff_interval ha hb, ?_⟩, hull?_eq_none_iff,
    ?_, ?_⟩
  · intro hmeets hull hhull x
    exact mem_hull? hmeets hhull
  · exact ⟨overlaps_comm a b, meets_comm a b, hull?_comm a b⟩
  · exact ⟨Checked.overlaps_eq a b, Checked.meets_eq a b, Checked.hull?_eq a b⟩

/-- One extent touches another that runs past the top. They share no byte, all bytes from the lower
start on are in one of them, and the hull has just those. -/
theorem algebra_touchingPastTop :
    let a : Extent := ⟨0x1000, 0xfffffffffffff800⟩
    let b : Extent := ⟨0x800, 0x800⟩
    let hull : Extent := ⟨0x800, 0xfffffffffffff800⟩
    a.isEmpty = false ∧ b.isEmpty = false ∧ a.meets b = true ∧ a.hull? b = some hull ∧
      (¬∃ x, x ∈ a ∧ x ∈ b) ∧ (∃ first stop, {x | x ∈ a ∨ x ∈ b} = Set.Ico first stop) ∧
      ∀ x, x ∈ hull ↔ x ∈ a ∨ x ∈ b := by
  intro a b hull
  have ha : a.isEmpty = false := by decide
  have hb : b.isEmpty = false := by decide
  have hmeets : a.meets b = true := by decide
  have hhull : a.hull? b = some hull := by decide +kernel
  obtain ⟨hoverlaps, hinterval, -⟩ := algebra_exact a b
  obtain ⟨hmeets_iff, hbytes⟩ := hinterval ha hb
  exact ⟨ha, hb, hmeets, hhull, fun h => absurd (hoverlaps.mpr h) (by decide),
    hmeets_iff.mp hmeets, hbytes hmeets hull hhull⟩

end PhysicalMemory.Extent
