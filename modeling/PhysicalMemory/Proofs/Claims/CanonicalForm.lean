import PhysicalMemory.Proofs.Bytes

/-!
# A well-formed table is the canonical form of its bytes

The first entry of a well-formed table starts at the least claimed byte and stops at the first free
one above it, because no other entry overlaps or touches it. So the claimed bytes determine the
first entry, the bytes above it determine the rest, and two well-formed tables with the same bytes
are the same (`WellFormed.ext`). Some byte is free in every well-formed table
(`WellFormed.exists_not_mem`), for the whole address space is longer than any entry.
-/

namespace PhysicalMemory.Claims

variable {capacity : Nat} {a b claims : Claims capacity} {first : Extent} {rest : List Extent}
  {x : Nat}

/-- A byte is claimed in a table when its first entry holds it or the entries after that do. -/
theorem mem_cons : x ∈ (⟨first :: rest⟩ : Claims capacity) ↔
    x ∈ first ∨ x ∈ (⟨rest⟩ : Claims capacity) := by
  simp only [mem_def, List.mem_cons, or_and_right, exists_or, exists_eq_left]

/-- A well-formed table is well formed without its first entry. -/
theorem WellFormed.tail (h : (⟨first :: rest⟩ : Claims capacity).WellFormed) :
    (⟨rest⟩ : Claims capacity).WellFormed :=
  ⟨h.toInForm.tail, Nat.le_of_succ_le h.size_le⟩

/-- The bytes behind the first entry of a well-formed table are above its stop. -/
theorem WellFormed.stop_lt_of_mem_rest (h : (⟨first :: rest⟩ : Claims capacity).WellFormed)
    (hx : x ∈ (⟨rest⟩ : Claims capacity)) : first.stop < x := by
  obtain ⟨entry, hentry, hmem⟩ := hx
  exact Nat.lt_of_lt_of_le ((List.pairwise_cons.mp h.apart).1 entry hentry) hmem.1

/-- The first entry of a well-formed table starts at its least byte. -/
theorem WellFormed.start_le_of_mem (h : (⟨first :: rest⟩ : Claims capacity).WellFormed)
    (hx : x ∈ (⟨first :: rest⟩ : Claims capacity)) : first.start ≤ x := by
  rcases mem_cons.mp hx with hfirst | hrest
  · exact hfirst.1
  · exact Nat.le_trans first.start_le_stop (Nat.le_of_lt (h.stop_lt_of_mem_rest hrest))

/-- The start of the first entry is claimed. -/
theorem WellFormed.start_mem (h : (⟨first :: rest⟩ : Claims capacity).WellFormed) :
    first.start ∈ (⟨first :: rest⟩ : Claims capacity) :=
  mem_cons.mpr (Or.inl ⟨le_refl _, h.nonempty first List.mem_cons_self, first.start_lt⟩)

/-- The stop of the first entry is free. -/
theorem WellFormed.stop_not_mem (h : (⟨first :: rest⟩ : Claims capacity).WellFormed) :
    first.stop ∉ (⟨first :: rest⟩ : Claims capacity) := by
  intro hmem
  rcases mem_cons.mp hmem with hfirst | hrest
  · exact Nat.lt_irrefl _ hfirst.2.1
  · exact Nat.lt_irrefl _ (h.stop_lt_of_mem_rest hrest)

/-- When a table holds all bytes of another and the first entries start alike, its first entry stops
no lower. -/
theorem WellFormed.stop_le_stop {other : Extent} {others : List Extent}
    (h : (⟨first :: rest⟩ : Claims capacity).WellFormed)
    (h' : (⟨other :: others⟩ : Claims capacity).WellFormed) (hstart : other.start = first.start)
    (hsub : ∀ x, x ∈ (⟨other :: others⟩ : Claims capacity) →
      x ∈ (⟨first :: rest⟩ : Claims capacity)) : other.stop ≤ first.stop := by
  by_contra hlt
  -- Otherwise the stop of the first entry, which is free, is a byte of the other table.
  refine h.stop_not_mem (hsub _ (mem_cons.mpr (Or.inl ?_)))
  rw [Extent.mem_iff_of_inside (h'.inside other List.mem_cons_self), hstart]
  exact ⟨first.start_le_stop, Nat.not_le.mp hlt⟩

/-- Well-formed tables with the same bytes have the same entries. -/
theorem entries_eq_of_mem_iff {entries others : List Extent}
    (h : (⟨entries⟩ : Claims capacity).WellFormed) (h' : (⟨others⟩ : Claims capacity).WellFormed)
    (hmem : ∀ x, x ∈ (⟨entries⟩ : Claims capacity) ↔ x ∈ (⟨others⟩ : Claims capacity)) :
    entries = others := by
  induction entries generalizing others with
  | nil =>
    cases others with
    | nil => rfl
    | cons other others => exact absurd ((hmem _).mpr h'.start_mem) (not_mem_empty _)
  | cons first rest ih =>
    cases others with
    | nil => exact absurd ((hmem _).mp h.start_mem) (not_mem_empty _)
    | cons other others =>
      have hstart : first.start = other.start :=
        Nat.le_antisymm (h.start_le_of_mem ((hmem _).mpr h'.start_mem))
          (h'.start_le_of_mem ((hmem _).mp h.start_mem))
      have hstop : first.stop = other.stop :=
        Nat.le_antisymm (h'.stop_le_stop h hstart fun x => (hmem x).mp)
          (h.stop_le_stop h' hstart.symm fun x => (hmem x).mpr)
      obtain rfl : first = other := Extent.ext_of_start_stop hstart hstop
      -- What lies behind the first entry is above its stop, so it is the same in both tables.
      have hrest : ∀ x, x ∈ (⟨rest⟩ : Claims capacity) ↔ x ∈ (⟨others⟩ : Claims capacity) := by
        intro x
        have hx := hmem x
        rw [mem_cons, mem_cons] at hx
        constructor
        · intro hxrest
          refine (hx.mp (Or.inr hxrest)).resolve_left fun hfirst => ?_
          exact Nat.lt_asymm (h.stop_lt_of_mem_rest hxrest) hfirst.2.1
        · intro hxothers
          refine (hx.mpr (Or.inr hxothers)).resolve_left fun hfirst => ?_
          exact Nat.lt_asymm (h'.stop_lt_of_mem_rest hxothers) hfirst.2.1
      rw [ih h.tail h'.tail hrest]

/-- A well-formed table is determined by its bytes. -/
theorem WellFormed.ext (ha : a.WellFormed) (hb : b.WellFormed) (h : ∀ x, x ∈ a ↔ x ∈ b) :
    a = b := by
  obtain ⟨entries⟩ := a
  obtain ⟨others⟩ := b
  rw [entries_eq_of_mem_iff ha hb h]

/-- Some byte is free in every well-formed table. -/
theorem WellFormed.exists_not_mem (h : claims.WellFormed) : ∃ x < addressSpace, x ∉ claims := by
  obtain ⟨entries⟩ := claims
  cases entries with
  | nil => exact ⟨0, by decide, not_mem_empty 0⟩
  | cons first rest =>
    have hsize := first.size_lt
    by_cases hstart : first.start = 0
    · -- The first entry is shorter than the address space and starts at zero.
      refine ⟨first.stop, ?_, h.stop_not_mem⟩
      rw [Extent.stop, hstart]
      omega
    · exact ⟨0, by decide, fun hmem => hstart (Nat.le_zero.mp (h.start_le_of_mem hmem))⟩

end PhysicalMemory.Claims
