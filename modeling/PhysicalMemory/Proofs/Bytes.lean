import Mathlib.Data.Set.Card
import Mathlib.Order.Interval.Set.Nat
import PhysicalMemory.Claims.Basic

/-!
# Extents and claim tables as sets of bytes

What an extent and a claim table say about memory is which bytes they hold. Overlapping extents are
the ones with a common byte (`overlaps_iff_exists_mem`), and the hull of two extents that meet holds
the bytes of both and no other (`mem_hull?`), because no byte lies between them. A table finds an
extent unclaimed exactly when none of its bytes is claimed (`unclaimed_iff`), and the byte count of
a well-formed table is the number of its bytes (`encard_bytes`), because no byte is in two entries.
-/

namespace PhysicalMemory

namespace Extent

variable {a b e : Extent} {x : Nat}

/-- Inside the address space, no byte of an extent is clipped. -/
theorem mem_iff_of_inside (h : e.stop ≤ addressSpace) : x ∈ e ↔ e.start ≤ x ∧ x < e.stop := by
  rw [mem_def]
  omega

/-- An empty extent stops where it starts. -/
theorem stop_eq_start_of_isEmpty (h : e.isEmpty = true) : e.stop = e.start := by
  rw [stop, isEmpty_iff.mp h, Nat.add_zero]

/-- An extent is determined by its start and its stop. -/
theorem ext_of_start_stop (hstart : a.start = b.start) (hstop : a.stop = b.stop) : a = b := by
  refine ext_of_start_size hstart ?_
  rw [stop, stop, hstart] at hstop
  exact Nat.add_left_cancel hstop

/-- An empty extent has no byte. -/
theorem not_mem_of_isEmpty (h : e.isEmpty = true) : x ∉ e := by
  rw [isEmpty_iff] at h
  rw [mem_def, stop]
  omega

/-- Extents overlap exactly when they have a byte in common, wherever they end. -/
theorem overlaps_iff_exists_mem : a.overlaps b = true ↔ ∃ x, x ∈ a ∧ x ∈ b := by
  rw [overlaps_iff]
  constructor
  · rintro ⟨ha, hb, hab, hba⟩
    -- The first common byte is the higher of the two starts, which is an address.
    have hastart := a.start_lt
    have hbstart := b.start_lt
    refine ⟨max a.start b.start, ?_, ?_⟩ <;> rw [mem_def] <;> omega
  · rintro ⟨x, ha, hb⟩
    rw [mem_def] at ha hb
    omega

/-- The hull of two extents goes from the lower start to the higher stop, but not past the top of the
address space. -/
theorem hull?_start_stop {hull : Extent} (h : a.hull? b = some hull) :
    hull.start = min a.start b.start ∧ hull.stop = min (max a.stop b.stop) addressSpace := by
  have hastart := a.start_lt
  have hale := a.start_le_stop
  simp only [hull?] at h
  split at h
  · rename_i hlt
    rw [← Option.some.inj h]
    exact between_start_stop (by omega) (by omega) hlt
  · exact absurd h (by simp)

/-- The hull of two extents inside the address space goes from the lower start to the higher
stop. -/
theorem hull?_eq_some {hull : Extent} (ha : a.stop ≤ addressSpace) (hb : b.stop ≤ addressSpace)
    (h : a.hull? b = some hull) :
    hull.start = min a.start b.start ∧ hull.stop = max a.stop b.stop := by
  obtain ⟨hstart, hstop⟩ := hull?_start_stop h
  exact ⟨hstart, by omega⟩

/-- What meets an extent meets its hull with another. -/
theorem meets_of_hull?_eq_some {hull : Extent} (ha : a.stop ≤ addressSpace)
    (hb : b.stop ≤ addressSpace) (h : a.hull? b = some hull) (hmeets : a.meets e = true) :
    hull.meets e = true := by
  obtain ⟨hstart, hstop⟩ := hull?_eq_some ha hb h
  rw [meets_iff] at hmeets ⊢
  omega

/-- The hull of two extents that meet holds the bytes of both, and no other, also when they run past
the top of the address space. -/
theorem mem_hull? {hull : Extent} (hmeets : a.meets b = true) (h : a.hull? b = some hull) :
    x ∈ hull ↔ x ∈ a ∨ x ∈ b := by
  obtain ⟨hstart, hstop⟩ := hull?_start_stop h
  have hale := a.start_le_stop
  have hble := b.start_le_stop
  rw [meets_iff] at hmeets
  rw [mem_def, mem_def, mem_def, hstart, hstop]
  omega

/-- No extent holds every byte: its size is a 64-bit word. -/
theorem exists_not_mem (e : Extent) : ∃ x < addressSpace, x ∉ e := by
  have hsize := e.size_lt
  by_cases hstart : e.start = 0
  · refine ⟨e.stop, ?_, fun hmem => Nat.lt_irrefl _ hmem.2.1⟩
    rw [stop, hstart]
    omega
  · exact ⟨0, by decide, fun hmem => hstart (Nat.le_zero.mp hmem.1)⟩

/-- An extent inside the address space has as many bytes as its size says. -/
theorem encard_bytes (h : e.stop ≤ addressSpace) : {x | x ∈ e}.encard = e.size := by
  have hbytes : {x | x ∈ e} = Finset.Ico e.start e.stop := by
    ext x
    rw [Set.mem_ofPred_eq, mem_iff_of_inside h, Finset.mem_coe, Finset.mem_Ico]
  rw [hbytes, Set.encard_coe_eq_coe_finsetCard, Nat.card_Ico, stop, Nat.add_sub_cancel_left]

/-- An extent has no more bytes than its size says. -/
theorem encard_bytes_le (e : Extent) : {x | x ∈ e}.encard ≤ e.size := by
  have hsub : {x | x ∈ e} ⊆ Finset.Ico e.start e.stop := by
    intro x hx
    rw [Finset.mem_coe, Finset.mem_Ico]
    exact ⟨hx.1, hx.2.1⟩
  refine (Set.encard_le_encard hsub).trans ?_
  rw [Set.encard_coe_eq_coe_finsetCard, Nat.card_Ico, stop, Nat.add_sub_cancel_left]

end Extent

namespace Claims

variable {capacity : Nat} {claims : Claims capacity}

/-- An extent is unclaimed exactly when none of its bytes is claimed. -/
theorem unclaimed_iff {extent : Extent} :
    claims.unclaimed extent = true ↔ ∀ x ∈ extent, x ∉ claims := by
  simp only [unclaimed, List.all_eq_true, Bool.not_eq_true', ← Bool.not_eq_true,
    Extent.overlaps_iff_exists_mem, mem_def]
  constructor
  · rintro h x hx ⟨entry, hentry, hmem⟩
    exact h entry hentry ⟨x, hmem, hx⟩
  · rintro h entry hentry ⟨x, hmem, hx⟩
    exact h x hx ⟨entry, hentry, hmem⟩

/-- Entries that stand apart have as many bytes as their sizes add up to. -/
theorem encard_bytes_entries {entries : List Extent}
    (hinside : ∀ entry ∈ entries, entry.stop ≤ addressSpace)
    (hapart : entries.Pairwise fun earlier later => earlier.stop < later.start) :
    {x | ∃ entry ∈ entries, x ∈ entry}.encard = Extent.totalSize entries := by
  induction entries with
  | nil => simp [Extent.totalSize]
  | cons entry rest ih =>
    obtain ⟨hbelow, hrest⟩ := List.pairwise_cons.mp hapart
    have hsplit : {x | ∃ e ∈ entry :: rest, x ∈ e} =
        {x | x ∈ entry} ∪ {x | ∃ e ∈ rest, x ∈ e} := by
      ext x
      simp
    -- A byte of the first entry is below its stop, so below every start after it.
    have hdisjoint : Disjoint {x | x ∈ entry} {x | ∃ e ∈ rest, x ∈ e} := by
      rw [Set.disjoint_left]
      rintro x hx ⟨e, he, hmem⟩
      have := hbelow e he
      rw [Set.mem_ofPred_eq, Extent.mem_def] at hx
      rw [Extent.mem_def] at hmem
      omega
    rw [hsplit, Set.encard_union_eq hdisjoint,
      Extent.encard_bytes (hinside entry List.mem_cons_self),
      ih (fun e he => hinside e (List.mem_cons_of_mem entry he)) hrest,
      Extent.totalSize, Nat.cast_add]

/-- The byte count of a well-formed table is the number of claimed bytes. -/
theorem WellFormed.encard_bytes (h : claims.WellFormed) :
    {x | x ∈ claims}.encard = claims.byteCount :=
  encard_bytes_entries h.inside h.apart

end Claims

end PhysicalMemory
