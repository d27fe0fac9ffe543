import PhysicalMemory.Proofs.Claims.Room
import PhysicalMemory.Proofs.Leads
import PhysicalMemory.Proofs.Runs

/-!
# Insertions in any order

Extents inserted one after the other leave a table with the bytes of all of them, whatever entries
are made and joined on the way. A table is determined by its bytes, so what was inserted decides the
table and the order does not. Nor does it decide whether the insertions succeed: as many slots as
there are extents always suffice, and a byte that is in none of the extents stays free throughout.
-/

namespace PhysicalMemory.Claims

variable {capacity : Nat} {claims grown last : Claims capacity} {extent : Extent}
  {extents : List Extent} {x : Nat}

/-- Adding an extent leads to the table that its insertion leaves. -/
theorem leads_add : (add extent).Leads claims grown ↔ claims.insert extent = .ok grown := by
  rw [Action.leads_iff, run_add]
  cases claims.insert extent <;> simp

/-- Adding extents one after the other leaves a well-formed table, with their bytes added. -/
theorem WellFormed.of_leads_forEach_add (hwf : claims.WellFormed)
    (h : (Action.forEach extents add).Leads claims last) :
    last.WellFormed ∧ ∀ x, x ∈ last ↔ x ∈ claims ∨ ∃ extent ∈ extents, x ∈ extent := by
  induction extents generalizing claims with
  | nil =>
    obtain rfl := Action.leads_forEach_nil.mp h
    exact ⟨hwf, by simp⟩
  | cons extent rest ih =>
    obtain ⟨grown, hfirst, hrest⟩ := Action.leads_forEach_cons.mp h
    have hinsert := leads_add.mp hfirst
    obtain ⟨hlast, hmem⟩ := ih (hwf.insert hinsert) hrest
    refine ⟨hlast, fun x => ?_⟩
    rw [hmem, hwf.mem_insert hinsert, or_assoc, List.exists_mem_cons_iff]

/-- Adding extents to the empty table one after the other leaves a well-formed table of their
bytes. -/
theorem wellFormed_of_leads_empty
    (h : (Action.forEach extents add).Leads (empty : Claims capacity) last) :
    last.WellFormed ∧ ∀ x, x ∈ last ↔ ∃ extent ∈ extents, x ∈ extent := by
  obtain ⟨hwf, hmem⟩ := wellFormed_empty.of_leads_forEach_add h
  exact ⟨hwf, fun x => (hmem x).trans (or_iff_right (not_mem_empty x))⟩

/-- Extents with the same bytes, added to the empty table one after the other, leave the same
table. -/
theorem eq_of_leads_empty {first second : List Extent} {a b : Claims capacity}
    (ha : (Action.forEach first add).Leads empty a)
    (hb : (Action.forEach second add).Leads empty b)
    (hbytes : ∀ x, (∃ extent ∈ first, x ∈ extent) ↔ ∃ extent ∈ second, x ∈ extent) : a = b := by
  obtain ⟨hwfa, hmema⟩ := wellFormed_of_leads_empty ha
  obtain ⟨hwfb, hmemb⟩ := wellFormed_of_leads_empty hb
  exact hwfa.ext hwfb fun x => by rw [hmema, hmemb, hbytes]

/-- Adding extents one after the other is done when there are as many free slots as extents, and
some byte is neither claimed nor in one of them. -/
theorem WellFormed.exists_leads_forEach_add (hwf : claims.WellFormed)
    (hroom : claims.size + extents.length ≤ capacity)
    (hinside : ∀ extent ∈ extents, extent.stop ≤ addressSpace) (hx : x < addressSpace)
    (hclaims : x ∉ claims) (hextents : ∀ extent ∈ extents, x ∉ extent) :
    ∃ last, (Action.forEach extents add).Leads claims last := by
  -- What is kept up: there is a free slot for each extent to come, and the byte is still free.
  let ready (left : Nat) (state : Claims capacity) : Prop :=
    state.WellFormed ∧ state.size + left ≤ capacity ∧ x ∉ state
  have hfirst : ready extents.length claims := ⟨hwf, hroom, hclaims⟩
  refine Action.exists_leads_forEach (fun extent hextent left state hready => ?_) hfirst
  obtain ⟨hstate, hsize, hfree⟩ := hready
  have hnot := hextents extent hextent
  have hinsert : ∃ grown, state.insert extent = .ok grown := by
    cases hempty : extent.isEmpty with
    | true => exact ⟨state, by simp [Claims.insert, hempty]⟩
    | false =>
      exact (hstate.exists_insert_iff hempty).mpr
        ⟨hinside extent hextent, ⟨x, hx, hfree, hnot⟩, Or.inl (by omega)⟩
  obtain ⟨grown, hgrown⟩ := hinsert
  have hle := hstate.size_insert_le hgrown
  refine ⟨grown, leads_add.mpr hgrown, hstate.insert hgrown, by omega, ?_⟩
  rw [hstate.mem_insert hgrown, not_or]
  exact ⟨hfree, hnot⟩

/-- The claim table is a canonical form of the claimed bytes. Arenas that operations can lead to
have the same entries when they have the same bytes claimed; so do the tables that two sequences of
insertions leave, all of them done, when the extents of both hold the same bytes. And extents of
which no more are inserted than the table has slots, none running past the top and not all bytes
being in one of them, are inserted in every order without a refusal, and leave one and the same
table, which holds the bytes of the extents and no others. -/
theorem entries_determined_by_bytes :
    (∀ first second : Arena capacity, first.Reachable → second.Reachable →
      (∀ x, x ∈ first.claims ↔ x ∈ second.claims) →
        first.claims.entries = second.claims.entries) ∧
    (∀ (first second : List Extent) (a b : Claims capacity),
      (Action.forEach first add).Leads empty a → (Action.forEach second add).Leads empty b →
      (∀ x, (∃ extent ∈ first, x ∈ extent) ↔ ∃ extent ∈ second, x ∈ extent) →
        a.entries = b.entries) ∧
    ∀ extents : List Extent, extents.length ≤ capacity →
      (∀ extent ∈ extents, extent.stop ≤ addressSpace) →
      (∃ x < addressSpace, ∀ extent ∈ extents, x ∉ extent) →
        ∃ claims : Claims capacity, (∀ x, x ∈ claims ↔ ∃ extent ∈ extents, x ∈ extent) ∧
          ∀ order, order.Perm extents → (Action.forEach order add).Leads empty claims := by
  refine ⟨fun first second hfirst hsecond hmem => ?_, fun first second a b ha hb hbytes => ?_,
    fun extents hlength hinside hfree => ?_⟩
  · rw [hfirst.wellFormed.ext hsecond.wellFormed hmem]
  · rw [eq_of_leads_empty ha hb hbytes]
  · obtain ⟨x, hx, hextents⟩ := hfree
    have hdone : ∀ order : List Extent, order.Perm extents →
        ∃ claims : Claims capacity, (Action.forEach order add).Leads empty claims := by
      intro order hperm
      have hroom : (empty : Claims capacity).size + order.length ≤ capacity := by
        rw [hperm.length_eq]
        simpa [size, empty] using hlength
      exact wellFormed_empty.exists_leads_forEach_add hroom
        (fun e he => hinside e (hperm.mem_iff.mp he)) hx (not_mem_empty x)
        fun e he => hextents e (hperm.mem_iff.mp he)
    -- All orders insert the same bytes, so they end where the given one does.
    obtain ⟨claims, hclaims⟩ := hdone extents (List.Perm.refl _)
    refine ⟨claims, (wellFormed_of_leads_empty hclaims).2, fun order hperm => ?_⟩
    obtain ⟨other, hother⟩ := hdone order hperm
    have hbytes : ∀ x, (∃ extent ∈ order, x ∈ extent) ↔ ∃ extent ∈ extents, x ∈ extent := by
      simp only [hperm.mem_iff, implies_true]
    obtain rfl := eq_of_leads_empty hother hclaims hbytes
    exact hother

/-- The same page claimed by an insertion in two pieces and by a reservation of one byte; a page
inserted as a whole and in two pieces that overlap; and the three uppermost pages, the middle one
last, in a table that has two entries before it and one after it, which holds the uppermost byte. -/
theorem entries_of_same_bytes :
    ((Arena.empty .ofPlatform false : Arena 2).afterRun
        [.insert ⟨0x1800, 0x800⟩, .insert ⟨0x1000, 0x800⟩]).claims.entries =
      ((Arena.empty .ofPlatform true : Arena 2).afterRun [.reserve ⟨0x1234, 1⟩]).claims.entries ∧
    ((Action.forEach [⟨0x1000, 0x1000⟩] add).run (empty : Claims 3)).state.entries =
      ((Action.forEach [⟨0x1400, 0xc00⟩, ⟨0x1000, 0x800⟩] add).run
        (empty : Claims 3)).state.entries ∧
    ∃ claims : Claims 3, 0xffffffffffffffff ∈ claims ∧
      (Action.forEach [⟨0xffffffffffffd000, 0x1000⟩, ⟨0xffffffffffffe000, 0x1000⟩,
        ⟨0xfffffffffffff000, 0x1000⟩] add).Leads empty claims ∧
      (Action.forEach [⟨0xfffffffffffff000, 0x1000⟩, ⟨0xffffffffffffd000, 0x1000⟩,
        ⟨0xffffffffffffe000, 0x1000⟩] add).Leads empty claims := by
  refine ⟨?_, ?_, ?_⟩
  · have hbytes : ∀ x, x ∈ ((Arena.empty .ofPlatform false : Arena 2).afterRun
        [.insert ⟨0x1800, 0x800⟩, .insert ⟨0x1000, 0x800⟩]).claims ↔
        x ∈ ((Arena.empty .ofPlatform true : Arena 2).afterRun [.reserve ⟨0x1234, 1⟩]).claims := by
      intro x
      have hfirst : ((Arena.empty .ofPlatform false : Arena 2).afterRun
        [.insert ⟨0x1800, 0x800⟩, .insert ⟨0x1000, 0x800⟩]).claims = ⟨[⟨0x1000, 0x1000⟩]⟩ := by
        decide +kernel
      have hsecond : ((Arena.empty .ofPlatform true : Arena 2).afterRun
        [.reserve ⟨0x1234, 1⟩]).claims = ⟨[⟨0x1000, 0x1000⟩]⟩ := by
        decide +kernel
      rw [hfirst, hsecond]
    exact entries_determined_by_bytes.1 _ _ ((Arena.Reachable.start _ _).afterRun _)
      ((Arena.Reachable.start _ _).afterRun _) hbytes
  · have hbytes : ∀ x, (∃ extent ∈ [(⟨0x1000, 0x1000⟩ : Extent)], x ∈ extent) ↔
        ∃ extent ∈ [(⟨0x1400, 0xc00⟩ : Extent), ⟨0x1000, 0x800⟩], x ∈ extent := by
      intro x
      simp only [List.exists_mem_cons_iff, List.not_mem_nil, false_and, exists_false, or_false,
        Extent.mem_def]
      change (4096 ≤ x ∧ x < 8192 ∧ _) ↔ (5120 ≤ x ∧ x < 8192 ∧ _) ∨ (4096 ≤ x ∧ x < 6144 ∧ _)
      omega
    exact entries_determined_by_bytes.2.1 _ _ _ _
      (Action.leads_iff.mpr ⟨by decide +kernel, rfl⟩)
      (Action.leads_iff.mpr ⟨by decide +kernel, rfl⟩) hbytes
  · refine (entries_determined_by_bytes.2.2 [⟨0xffffffffffffd000, 0x1000⟩,
      ⟨0xffffffffffffe000, 0x1000⟩, ⟨0xfffffffffffff000, 0x1000⟩] (by decide) (by decide)
      ⟨0, by decide, by decide⟩).imp fun claims ⟨hmem, hclaims⟩ => ?_
    exact ⟨(hmem _).mpr (by decide), hclaims _ (List.Perm.refl _), hclaims _ (by decide)⟩

end PhysicalMemory.Claims
