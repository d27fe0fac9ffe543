import PhysicalMemory.Proofs.Boot.Runs
import PhysicalMemory.Proofs.Firmware.Collapsing

/-!
# Byte counts of a coalesced map

The bytes that a map describes as of a usage are counted region by region, so a byte that two
regions share counts twice, and a region that runs past the top counts bytes that do not exist.
Regions that are joined overlap or touch, so the joined one is no larger than both together, and
just as large when they share no byte (`join?_size_le`, `join?_size_eq`). Coalescing can thus take
away what was counted twice, and nothing else: it keeps the bytes themselves, and no count is below
the number of these (`encard_usage_le`).
-/

namespace PhysicalMemory.Firmware

variable {regions rest a b : List Region} {region next joined : Region} {usage : Usage}

/-- The number of bytes that regions describe as of a usage; bytes that they share count once for
each. -/
def usageSize (usage : Usage) (regions : List Region) : Nat :=
  Extent.totalSize ((regions.filter fun region => region.usage == usage).map Region.extent)

/-- The byte count of a buffer is that of its map. -/
theorem MapBuffer.byteCount_eq (buffer : MapBuffer) (usage : Usage) :
    buffer.byteCount usage = usageSize usage buffer.regions := rfl

/-- A region of the usage counts with its size, and any other does not count. -/
theorem usageSize_cons (usage : Usage) (region : Region) (rest : List Region) :
    usageSize usage (region :: rest) =
      (if region.usage = usage then region.extent.size else 0) + usageSize usage rest := by
  unfold usageSize
  by_cases h : region.usage = usage <;> simp [h, Extent.totalSize]

/-- The order of regions does not matter to what they describe. -/
theorem usageSize_perm (h : a.Perm b) : usageSize usage a = usageSize usage b := by
  induction h with
  | nil => rfl
  | cons region _ ih => rw [usageSize_cons, usageSize_cons, ih]
  | swap region other rest => simp only [usageSize_cons, Nat.add_left_comm]
  | trans _ _ ih₁ ih₂ => exact ih₁.trans ih₂

/-- Regions have no more bytes of a usage than they describe. -/
theorem encard_usage_le (usage : Usage) (regions : List Region) :
    {x | ∃ region ∈ regions, region.usage = usage ∧ x ∈ region.extent}.encard ≤
      usageSize usage regions := by
  induction regions with
  | nil => simp
  | cons region rest ih =>
    have hsplit : {x | ∃ r ∈ region :: rest, r.usage = usage ∧ x ∈ r.extent} =
        {x | region.usage = usage ∧ x ∈ region.extent} ∪
          {x | ∃ r ∈ rest, r.usage = usage ∧ x ∈ r.extent} := by
      ext x
      simp
    have hfirst : {x | region.usage = usage ∧ x ∈ region.extent}.encard ≤
        ((if region.usage = usage then region.extent.size else 0 : Nat) : ℕ∞) := by
      split
      · rename_i husage
        simpa [husage] using region.extent.encard_bytes_le
      · rename_i husage
        simp [husage]
    rw [hsplit, usageSize_cons, Nat.cast_add]
    exact (Set.encard_union_le _ _).trans (add_le_add hfirst ih)

/-- Two regions of one kind have no byte in common. -/
def Region.Apart (region next : Region) : Prop :=
  region.usage = next.usage → region.attributes = next.attributes →
    ∀ x ∈ region.extent, x ∉ next.extent

/-- Regions stand apart exactly when they are not of one kind or do not overlap. -/
theorem Region.apart_iff : region.Apart next ↔
    (region.usage = next.usage → region.attributes = next.attributes →
      region.extent.overlaps next.extent = false) := by
  simp only [Apart, ← Bool.not_eq_true, Extent.overlaps_iff_exists_mem, not_exists, not_and]

instance : DecidableRel Region.Apart := fun _ _ => decidable_of_iff _ Region.apart_iff.symm

/-- Standing apart goes both ways. -/
theorem Region.Apart.symm (h : region.Apart next) : next.Apart region :=
  fun husage hattributes x hnext hregion => h husage.symm hattributes.symm x hregion hnext

/-- A joined region is no larger than the two that it is made of. -/
theorem join?_size_le (h : region.join? next = some joined) :
    joined.extent.size ≤ region.extent.size + next.extent.size := by
  obtain ⟨hstart, hstop⟩ := join?_start_stop h
  obtain ⟨-, -, hmeets, -⟩ := Region.join?_eq_some_iff.mp h
  rw [Extent.meets_iff] at hmeets
  unfold Extent.stop at *
  omega

/-- A joined region is as large as the two that it is made of when these have no byte in common. -/
theorem join?_size_eq (h : region.join? next = some joined)
    (hapart : ∀ x ∈ region.extent, x ∉ next.extent) :
    joined.extent.size = region.extent.size + next.extent.size := by
  obtain ⟨hstart, hstop⟩ := join?_start_stop h
  obtain ⟨hinside, -, hmeets, -⟩ := Region.join?_eq_some_iff.mp h
  rw [Extent.meets_iff] at hmeets
  -- The higher of the two starts is not in both, so one of the two ends where the other begins.
  have hnot := hapart (max region.extent.start next.extent.start)
  rw [Extent.mem_iff_of_inside hinside.1, Extent.mem_iff_of_inside hinside.2] at hnot
  unfold Extent.stop at *
  omega

/-- Joining runs never adds to what regions describe. -/
theorem usageSize_joinRuns_le (usage : Usage) (region : Region) (rest : List Region) :
    usageSize usage (joinRuns region rest) ≤ usageSize usage (region :: rest) := by
  fun_induction joinRuns region rest with
  | case1 => exact le_refl _
  | case2 region next rest joined hjoin ih =>
    obtain ⟨⟨hjoined, -⟩, ⟨hnext, -⟩, -⟩ := Region.join?_eq_some hjoin
    have hsize := join?_size_le hjoin
    refine ih.trans ?_
    simp only [usageSize_cons, hjoined, hnext]
    split <;> omega
  | case3 region next rest _ ih =>
    rw [usageSize_cons, usageSize_cons]
    exact Nat.add_le_add_left ih _

/-- When two regions stand apart from another, the region that they are joined to does. -/
theorem Region.Apart.join {other : Region} (h : region.join? next = some joined)
    (hregion : region.Apart other) (hnext : next.Apart other) : joined.Apart other := by
  obtain ⟨⟨husage, hattributes⟩, ⟨husage', hattributes'⟩, hmem⟩ := Region.join?_eq_some h
  intro hkind hkind' x hx
  rcases (hmem x).mp hx with hx | hx
  · exact hregion (husage.symm.trans hkind) (hattributes.symm.trans hkind') x hx
  · exact hnext (husage'.trans (husage.symm.trans hkind))
      (hattributes'.trans (hattributes.symm.trans hkind')) x hx

/-- Joining runs of regions that stand apart keeps what they describe. -/
theorem usageSize_joinRuns_eq (usage : Usage) (region : Region) (rest : List Region)
    (hapart : (region :: rest).Pairwise Region.Apart) :
    usageSize usage (joinRuns region rest) = usageSize usage (region :: rest) := by
  fun_induction joinRuns region rest with
  | case1 => rfl
  | case2 region next rest joined hjoin ih =>
    obtain ⟨hfirst, hothers⟩ := List.pairwise_cons.mp hapart
    obtain ⟨hsecond, hrest⟩ := List.pairwise_cons.mp hothers
    obtain ⟨hregion, hafter⟩ := List.forall_mem_cons.mp hfirst
    obtain ⟨⟨hjoined, -⟩, ⟨hnext, hnext'⟩, -⟩ := Region.join?_eq_some hjoin
    have hsize := join?_size_eq hjoin (hregion hnext.symm hnext'.symm)
    rw [ih (List.pairwise_cons.mpr
      ⟨fun r hr => (hafter r hr).join hjoin (hsecond r hr), hrest⟩)]
    simp only [usageSize_cons, hjoined, hnext]
    split <;> omega
  | case3 region next rest _ ih =>
    rw [usageSize_cons, usageSize_cons, ih (List.pairwise_cons.mp hapart).2]

/-- The canonical form of a map describes no more bytes of a usage than the map. -/
theorem usageSize_canonical_le (usage : Usage) (regions : List Region) :
    usageSize usage (canonical regions) ≤ usageSize usage regions := by
  rw [← usageSize_perm (isStableSort_ordered regions).perm, canonical]
  cases ordered regions with
  | nil => exact le_refl _
  | cons region rest => exact usageSize_joinRuns_le usage region rest

/-- The canonical form of a map whose regions of one kind stand apart describes as many bytes of a
usage as the map. -/
theorem usageSize_canonical_eq (usage : Usage) (hapart : regions.Pairwise Region.Apart) :
    usageSize usage (canonical regions) = usageSize usage regions := by
  have hperm := (isStableSort_ordered regions).perm
  have hordered := (hperm.pairwise_iff Region.Apart.symm).mpr hapart
  rw [← usageSize_perm hperm, canonical]
  cases hmap : ordered regions with
  | nil => rfl
  | cons region rest => exact usageSize_joinRuns_eq usage region rest (hmap ▸ hordered)

/-- What coalescing the map of a boot does to its byte counts, for every usage. A count never grows,
and it never falls below the number of bytes that regions of the usage cover. It stays the same when
no two regions of one usage and the same attributes have a byte in common. -/
theorem byteCount_coalesce {capacity : Nat} (boot : Boot capacity) (usage : Usage) :
    let merged := (Boot.coalesce.run boot).state.map
    merged.byteCount usage ≤ boot.map.byteCount usage ∧
    {x | ∃ region ∈ boot.map.regions, region.usage = usage ∧ x ∈ region.extent}.encard ≤
      merged.byteCount usage ∧
    (boot.map.regions.Pairwise Region.Apart →
      merged.byteCount usage = boot.map.byteCount usage) := by
  intro merged
  have hmerged : merged.regions = canonical boot.map.regions := by
    simp only [merged, Boot.run_coalesce, MapBuffer.regions_coalesced]
  have hbytes : {x | ∃ region ∈ boot.map.regions, region.usage = usage ∧ x ∈ region.extent} =
      {x | ∃ region ∈ canonical boot.map.regions, region.usage = usage ∧ x ∈ region.extent} := by
    ext x
    exact ((sameBytes_canonical boot.map.regions).exists_usage_iff fun u => u = usage).symm
  rw [MapBuffer.byteCount_eq, MapBuffer.byteCount_eq, hmerged, hbytes]
  exact ⟨usageSize_canonical_le usage _, encard_usage_le usage _, usageSize_canonical_eq usage⟩

/-- Regions of available memory touch, one is empty and lies inside another, and one has the bytes of
another but other attributes; a reserved region runs past the top. They stand apart, and coalescing
makes three of six regions one without a change to the counts, though the reserved region counts more
bytes than there are. -/
theorem byteCount_coalesce_touching :
    let regions : List Region := [⟨⟨0x2000, 0x1000⟩, .available, 1⟩, ⟨⟨0x1000, 0x1000⟩, .available, 3⟩,
      ⟨⟨0x1800, 0⟩, .available, 1⟩, ⟨⟨0x1000, 0x1000⟩, .available, 1⟩,
      ⟨⟨0x8000, 0x1000⟩, .available, 1⟩, ⟨⟨0x8000, 0xffffffffffffffff⟩, .reserved, 1⟩]
    let boot : Boot 1 := ⟨.ofRegions regions, .empty .ofPlatform false⟩
    let merged := (Boot.coalesce.run boot).state.map
    regions.Pairwise Region.Apart ∧ merged.count = 4 ∧
    merged.byteCount .available = 0x4000 ∧ merged.byteCount .reserved = 0xffffffffffffffff := by
  intro regions boot merged
  have hapart : regions.Pairwise Region.Apart := by decide +kernel
  obtain ⟨-, -, havailable⟩ := byteCount_coalesce boot .available
  obtain ⟨-, -, hreserved⟩ := byteCount_coalesce boot .reserved
  refine ⟨hapart, by decide +kernel, (havailable hapart).trans ?_, (hreserved hapart).trans ?_⟩
  · decide +kernel
  · decide +kernel

end PhysicalMemory.Firmware
