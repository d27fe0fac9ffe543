import PhysicalMemory.Proofs.Claims.CanonicalForm
import PhysicalMemory.Proofs.Claims.Insertion

/-!
# When there is room for an extent

An insertion into a well-formed table succeeds exactly when the extent lies inside the address
space, some byte is free of it and of the claims, and there is a slot for it: a free one, or that of
an entry it meets (`exists_insert_iff`). The second condition is what the refusal to claim the whole
address space comes to. The hull of an extent with entries that meet it fails to exist exactly when
their bytes are all there are, so the refusal cannot depend on the order in which they are joined.
-/

namespace PhysicalMemory

namespace Extent

variable {a b : Extent} {x : Nat}

/-- When two extents that meet have no hull, every byte is in one of them. -/
theorem mem_or_mem_of_hull?_eq_none (hmeets : a.meets b = true) (h : a.hull? b = none)
    (hx : x < addressSpace) : x ∈ a ∨ x ∈ b := by
  rw [meets_iff] at hmeets
  simp only [hull?] at h
  split at h
  · exact absurd h (by simp)
  · rw [mem_def, mem_def]
    omega

end Extent

namespace Claims

variable {capacity : Nat} {claims grown : Claims capacity} {extent inner : Extent}
  {entries : List Extent} {x : Nat}

/-- When an extent has no hull with entries that all meet it, every byte is in one of them. -/
theorem mem_or_mem_of_hullOfAll?_eq_none (hinside : extent.stop ≤ addressSpace)
    (hall : ∀ entry ∈ entries, entry.stop ≤ addressSpace ∧ extent.meets entry = true)
    (h : hullOfAll? extent entries = none) (hx : x < addressSpace) :
    x ∈ extent ∨ ∃ entry ∈ entries, x ∈ entry := by
  induction entries generalizing extent with
  | nil => simp [hullOfAll?] at h
  | cons entry rest ih =>
    obtain ⟨hentry, hmeets⟩ := hall entry List.mem_cons_self
    rw [List.exists_mem_cons_iff, ← or_assoc]
    cases hhull : extent.hull? entry with
    | none => exact Or.inl (Extent.mem_or_mem_of_hull?_eq_none hmeets hhull hx)
    | some hull =>
      rw [hullOfAll?, List.foldlM_cons, Option.bind_eq_bind, hhull, Option.bind_some] at h
      rw [← Extent.mem_hull? hmeets hhull]
      have hstop := (Extent.hull?_eq_some hinside hentry hhull).2
      refine ih (by omega) (fun e he => ?_) h
      obtain ⟨heinside, hemeets⟩ := hall e (List.mem_cons_of_mem entry he)
      exact ⟨heinside, Extent.meets_of_hull?_eq_some hinside hentry hhull hemeets⟩

/-- There is a slot for an extent: a free one, or that of an entry which it meets. -/
def HasSlotFor (claims : Claims capacity) (extent : Extent) : Prop :=
  claims.size < capacity ∨ ∃ entry ∈ claims.entries, extent.meets entry = true

/-- Where there is a slot for an extent, there is one for every extent that spans it. -/
theorem HasSlotFor.of_spans (h : claims.HasSlotFor inner) (hstart : extent.start ≤ inner.start)
    (hstop : inner.stop ≤ extent.stop) : claims.HasSlotFor extent := by
  refine h.imp_right ?_
  rintro ⟨entry, hentry, hmeets⟩
  rw [Extent.meets_iff] at hmeets
  exact ⟨entry, hentry, Extent.meets_iff.mpr (by omega)⟩

/-- An insertion that is refused tells the caller that resources ran out. -/
theorem failure_of_insert_eq_error {refusal : Refusal}
    (h : claims.insert extent = .error refusal) : refusal.failure = .outOfResources := by
  unfold insert at h
  split at h
  · exact absurd h (by simp)
  split at h
  · rw [← Except.error.inj h]
    rfl
  dsimp only at h
  split at h
  · split at h
    · rw [← Except.error.inj h]
      rfl
    · exact absurd h (by simp)
  · split at h
    · rw [← Except.error.inj h]
      rfl
    · exact absurd h (by simp)

/-- Adding an extent leaves the table that its insertion gives, or it fails for want of resources
and leaves the table alone. -/
theorem add_cases (extent : Extent) (claims : Claims capacity) :
    (∃ grown log, claims.insert extent = .ok grown ∧
      (add extent).run claims = ⟨.done (), grown, log⟩) ∨
    ∃ refusal log, claims.insert extent = .error refusal ∧
      (add extent).run claims = ⟨.failed .outOfResources, claims, log⟩ := by
  rw [run_add]
  cases hinsert : claims.insert extent with
  | ok grown => exact Or.inl ⟨grown, _, rfl, rfl⟩
  | error refusal =>
    rw [← failure_of_insert_eq_error hinsert]
    exact Or.inr ⟨refusal, _, rfl, rfl⟩

/-- No entry of a cut table meets the extent but those of the run. -/
theorem Cut.Splits.mem_met_of_meets {c : Cut} (hsplits : c.Splits extent entries)
    {entry : Extent} (hentry : entry ∈ entries) (hmeets : extent.meets entry = true) :
    entry ∈ c.met := by
  rw [← hsplits.append_eq, List.mem_append, List.mem_append, or_left_comm, ← List.mem_append]
    at hentry
  refine hentry.resolve_right fun hside => ?_
  exact Bool.false_ne_true ((hsplits.meets_eq_false hside).symm.trans hmeets)

/-- An insertion of an extent with bytes succeeds exactly when the extent lies inside the address
space, some byte is left free by it and by the claims, and there is a slot for it. -/
theorem WellFormed.exists_insert_iff (hwf : claims.WellFormed) (hne : extent.isEmpty = false) :
    (∃ grown, claims.insert extent = .ok grown) ↔ extent.stop ≤ addressSpace ∧
      (∃ x < addressSpace, x ∉ claims ∧ x ∉ extent) ∧ claims.HasSlotFor extent := by
  have hsplits := cut_splits extent hwf.apart
  constructor
  · rintro ⟨grown, h⟩
    obtain ⟨hinside, hroom, -⟩ := insert_eq_ok hne h
    obtain ⟨x, hx, hfree⟩ := (hwf.insert h).exists_not_mem
    rw [hwf.mem_insert h, not_or] at hfree
    refine ⟨hinside, ⟨x, hx, hfree⟩, ?_⟩
    cases hmet : (cut extent claims.entries).met with
    | nil => exact Or.inl (hroom hmet)
    | cons entry rest =>
      have hentry : entry ∈ (cut extent claims.entries).met := hmet ▸ List.mem_cons_self
      exact Or.inr ⟨entry, hsplits.mem_of_mem_met hentry, hsplits.met_meets entry hentry⟩
  · rintro ⟨hinside, ⟨x, hx, hclaims, hextent⟩, hslot⟩
    have hpast : extent.runsPastTop = false := by
      rw [← Bool.not_eq_true, Extent.runsPastTop_iff]
      omega
    simp only [Claims.insert, hne, hpast, Bool.false_eq_true, if_false]
    cases hmet : (cut extent claims.entries).met with
    | nil =>
      -- No entry meets the extent, so the slot is a free one.
      have hfull : claims.isFull = false := by
        rcases hslot with hlt | ⟨entry, hentry, hmeets⟩
        · simpa [isFull] using hlt
        · exact absurd (hsplits.mem_met_of_meets hentry hmeets) (by simp [hmet])
      simp only [List.isEmpty_nil, if_true, hfull, Bool.false_eq_true, if_false]
      exact ⟨_, rfl⟩
    | cons entry rest =>
      cases hhull : hullOfAll? extent (entry :: rest) with
      | some joined => exact ⟨_, rfl⟩
      | none =>
        -- Without a hull, the extent and the run would hold the free byte.
        rw [← hmet] at hhull
        have hall : ∀ e ∈ (cut extent claims.entries).met,
            e.stop ≤ addressSpace ∧ extent.meets e = true :=
          fun e he => ⟨hwf.inside e (hsplits.mem_of_mem_met he), hsplits.met_meets e he⟩
        rcases mem_or_mem_of_hullOfAll?_eq_none hinside hall hhull hx with hin | ⟨e, he, hin⟩
        · exact absurd hin hextent
        · exact absurd ⟨e, hsplits.mem_of_mem_met he, hin⟩ hclaims

/-- An insertion adds at most one entry. -/
theorem WellFormed.size_insert_le (hwf : claims.WellFormed)
    (h : claims.insert extent = .ok grown) : grown.size ≤ claims.size + 1 := by
  cases hempty : extent.isEmpty with
  | true =>
    obtain rfl : claims = grown := by simpa [Claims.insert, hempty] using h
    exact Nat.le_succ _
  | false =>
    obtain ⟨c, joined, hsplits, -, hgrown, -⟩ := hwf.insert_cases hempty h
    simp only [size, hgrown, ← hsplits.append_eq, List.length_append, List.length_cons]
    omega

end Claims

end PhysicalMemory
