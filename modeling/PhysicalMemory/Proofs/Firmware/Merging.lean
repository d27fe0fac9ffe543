import PhysicalMemory.Proofs.Firmware.Collapsing
import PhysicalMemory.Proofs.Firmware.Plans
import PhysicalMemory.Proofs.Runs

/-!
# Joining regions costs nothing

Where a memory map is withheld by, its canonical form can be used as well, in the same slots and
with the same result (`adopt_of_withhold_done`). The canonical form of a usable map is usable. Two
regions that are joined leave no gap between them, so the plan of the joined map has one piece in
the place of two, or the same pieces; and where two pieces were withheld one after the other, their
hull can be withheld at once, because the slot for the first of them is a slot for the hull
(`Withholds.join`).
-/

namespace PhysicalMemory.Firmware

variable {capacity : Nat} {arena last : Arena capacity} {regions rest : List Region}
  {region next joined : Region} {first second whole : Withheld} {top covered : Nat}

/-- A piece that has the bytes of two pieces is withheld where they are, one after the other. -/
theorem Withholds.join (hwf : arena.claims.WellFormed) (h : Withholds [first, second] arena last)
    (hne : first.extent.isEmpty = false) (hinside : whole.extent.stop ≤ addressSpace)
    (hbytes : Set.Ico whole.extent.start whole.extent.stop =
      Set.Ico first.extent.start first.extent.stop ∪
        Set.Ico second.extent.start second.extent.stop) :
    Withholds [whole] arena last := by
  have hpieces : pieceBytes [first, second] = pieceBytes [whole] := by
    rw [pieceBytes_cons, pieceBytes_cons, pieceBytes_cons, pieceBytes_nil, hbytes,
      Set.union_empty, Set.union_empty]
  have hsub : Set.Ico first.extent.start first.extent.stop ⊆
      Set.Ico whole.extent.start whole.extent.stop := hbytes ▸ Set.subset_union_left
  have hspans := (Set.Ico_subset_Ico_iff (Extent.isEmpty_eq_false_iff.mp hne)).mp hsub
  have hfree := h.exists_free hwf
  rw [hpieces, pieceBytes_cons, pieceBytes_nil, Set.union_empty] at hfree
  obtain ⟨next, hfirst, -⟩ := withholds_cons.mp h
  obtain ⟨other, hother⟩ :=
    Arena.exists_leads_reserve_of_spans hwf hne hfirst hspans hinside hfree
  have hwhole : Withholds [whole] arena other :=
    withholds_cons.mpr ⟨other, hother, withholds_nil.mpr rfl⟩
  rwa [h.eq_of_bytes hwf hwhole (by rw [hpieces])]

/-- A region is determined by its kind, its start and its stop. -/
theorem Region.ext_of_start_stop (hkind : region.usage = next.usage ∧
    region.attributes = next.attributes) (hstart : region.extent.start = next.extent.start)
    (hstop : region.extent.stop = next.extent.stop) : region = next := by
  have hextent := Extent.ext_of_start_stop hstart hstop
  cases region
  cases next
  simp_all

/-- Of two regions that are joined, an empty one leaves no trace. -/
theorem join?_eq_of_isEmpty (hle : region.extent.start ≤ next.extent.start)
    (h : region.join? next = some joined) :
    (region.extent.isEmpty = true → joined = next) ∧
      (next.extent.isEmpty = true → joined = region) := by
  obtain ⟨hkind, hnext, -⟩ := Region.join?_eq_some h
  obtain ⟨-, -, hmeets, -⟩ := Region.join?_eq_some_iff.mp h
  obtain ⟨hstart, hstop⟩ := join?_start_stop h
  rw [Extent.meets_iff] at hmeets
  have hregionLe := region.extent.start_le_stop
  have hnextLe := next.extent.start_le_stop
  constructor
  · intro hempty
    have hregionStop := Extent.stop_eq_start_of_isEmpty hempty
    exact Region.ext_of_start_stop
      ⟨hkind.1.trans hnext.1.symm, hkind.2.trans hnext.2.symm⟩ (by omega) (by omega)
  · intro hempty
    have hnextStop := Extent.stop_eq_start_of_isEmpty hempty
    exact Region.ext_of_start_stop hkind (by omega) (by omega)

/-- Two regions that are joined are withheld as the joined one. -/
theorem Withholds.join_ungranted (hwf : arena.claims.WellFormed)
    (hle : region.extent.start ≤ next.extent.start) (hne : region.extent.isEmpty = false)
    (hjoin : region.join? next = some joined)
    (h : Withholds (ungranted region ++ ungranted next) arena last) :
    Withholds (ungranted joined) arena last := by
  obtain ⟨hkind, hnext, -⟩ := Region.join?_eq_some hjoin
  obtain ⟨hinside, -, hmeets, -⟩ := Region.join?_eq_some_iff.mp hjoin
  obtain ⟨hstart, hstop⟩ := join?_start_stop hjoin
  rw [Extent.meets_iff] at hmeets
  have hjoined : joined.extent.stop ≤ addressSpace := by omega
  unfold ungranted at h ⊢
  rw [hkind.1]
  rw [hnext.1] at h
  split at h
  · rw [if_pos ‹_›]
    exact h
  · rw [if_neg ‹_›]
    refine h.join hwf hne hjoined ?_
    ext x
    simp only [Set.mem_Ico, Set.mem_union]
    omega

/-- What is withheld for a region and the next can be withheld for the two joined. -/
theorem Withholds.join_sweep (hwf : arena.claims.WellFormed)
    (hle : region.extent.start ≤ next.extent.start) (hjoin : region.join? next = some joined)
    (h : Withholds (sweep covered (region :: next :: rest)) arena last) :
    Withholds (sweep covered (joined :: rest)) arena last := by
  obtain ⟨hleft, hright⟩ := join?_eq_of_isEmpty hle hjoin
  cases hempty : region.extent.isEmpty with
  | true =>
    rw [sweep_cons_of_isEmpty hempty] at h
    rwa [hleft hempty]
  | false =>
    rw [sweep_cons hempty] at h
    cases hnext : next.extent.isEmpty with
    | true =>
      rw [sweep_cons_of_isEmpty hnext] at h
      rwa [hright hnext, sweep_cons hempty]
    | false =>
      obtain ⟨-, -, hmeets, -⟩ := Region.join?_eq_some_iff.mp hjoin
      obtain ⟨hstart, hstop⟩ := join?_start_stop hjoin
      rw [Extent.meets_iff] at hmeets
      have hjoined : joined.extent.isEmpty = false := by
        rw [Extent.isEmpty_eq_false_iff] at hempty ⊢
        omega
      -- The next region starts at the stop of the first or below, so there is no gap before it.
      have hnogap : gapBefore (max covered region.extent.stop) next = [] := by
        rw [gapBefore, if_neg (by omega)]
      have hstartEq : joined.extent.start = region.extent.start := by omega
      have hgap : gapBefore covered joined = gapBefore covered region := by
        rw [gapBefore, gapBefore, hstartEq]
      have hcovered : max (max covered region.extent.stop) next.extent.stop =
          max covered joined.extent.stop := by omega
      rw [sweep_cons hnext, hnogap, List.nil_append, hcovered, ← List.append_assoc,
        List.append_assoc (gapBefore covered region), withholds_append] at h
      obtain ⟨between, hpieces, hrest⟩ := h
      obtain ⟨start, hbefore, hregions⟩ := withholds_append.mp hpieces
      rw [sweep_cons hjoined, hgap]
      refine withholds_append.mpr ⟨between, withholds_append.mpr ⟨start, hbefore, ?_⟩, hrest⟩
      exact hregions.join_ungranted (hbefore.grows hwf).wellFormed hle hempty hjoin

/-- What is withheld for ascending regions can be withheld for those that are left when they are
joined. -/
theorem Withholds.joinRuns (hwf : arena.claims.WellFormed)
    (hascending : (region :: rest).Pairwise fun earlier later =>
      earlier.extent.start ≤ later.extent.start)
    (h : Withholds (sweep covered (region :: rest)) arena last) :
    Withholds (sweep covered (joinRuns region rest)) arena last := by
  fun_induction Firmware.joinRuns region rest generalizing arena covered with
  | case1 => exact h
  | case2 region next rest joined hjoin ih =>
    obtain ⟨hfirst, hothers⟩ := List.pairwise_cons.mp hascending
    have hle := hfirst next List.mem_cons_self
    obtain ⟨hstart, -⟩ := join?_start_stop hjoin
    refine ih hwf (List.pairwise_cons.mpr ⟨fun r hr => ?_, (List.pairwise_cons.mp hothers).2⟩)
      (h.join_sweep hwf hle hjoin)
    have := hfirst r (List.mem_cons_of_mem _ hr)
    omega
  | case3 region next rest hjoin ih =>
    obtain ⟨-, hothers⟩ := List.pairwise_cons.mp hascending
    cases hempty : region.extent.isEmpty with
    | true =>
      rw [sweep_cons_of_isEmpty hempty] at h ⊢
      exact ih hwf hothers h
    | false =>
      rw [sweep_cons hempty] at h ⊢
      obtain ⟨between, hpieces, hrest⟩ := withholds_append.mp h
      exact withholds_append.mpr
        ⟨between, hpieces, ih (hpieces.grows hwf).wellFormed hothers hrest⟩

/-- Joining the regions of a usable map leaves a usable map. -/
theorem Usable.joinRuns (h : Usable (region :: rest)) : Usable (joinRuns region rest) := by
  fun_induction Firmware.joinRuns region rest with
  | case1 => exact h
  | case2 region next rest joined hjoin ih =>
    obtain ⟨hfirst, ⟨-, htop⟩, hothers⟩ := usable_cons.mp h
    obtain ⟨hnext, ⟨hnextInside, hnextTop⟩, hrest⟩ := usable_cons.mp hothers
    obtain ⟨hinside, -⟩ := Region.join?_eq_some_iff.mp hjoin
    obtain ⟨hstart, hstop⟩ := join?_start_stop hjoin
    refine ih (usable_cons.mpr ⟨fun r hr => ?_, ⟨by omega, fun hne => ?_⟩, hrest⟩)
    · have := hnext r hr
      omega
    · -- Neither of the two regions is the last of its map.
      have hregionBelow := htop rfl
      have hnextBelow := hnextTop hne
      omega
  | case3 region next rest _ ih =>
    obtain ⟨hfirst, ⟨hinside, htop⟩, hothers⟩ := usable_cons.mp h
    obtain ⟨first, others, hruns, hextends⟩ :=
      exists_joinRuns_eq_cons next rest (List.pairwise_cons.mp hothers.ascending).1
    have hruns' := ih hothers
    rw [hruns] at hruns' ⊢
    refine usable_cons.mpr ⟨fun r hr => ?_, ⟨hinside, fun _ => htop rfl⟩, hruns'⟩
    obtain rfl : first = r := Option.some.inj hr
    rw [hextends.start_eq]
    exact hfirst next rfl

/-- The canonical form of a usable map is what is left when its regions are joined in the order in
which they are. -/
theorem Usable.canonical_eq (h : Usable regions) : canonical regions = Firmware.joined regions := by
  rw [canonical, ordered_eq_self h.ascending]

/-- The canonical form of a usable map is usable. -/
theorem Usable.canonical (h : Usable regions) : Usable (canonical regions) := by
  rw [h.canonical_eq]
  cases regions with
  | nil => exact h
  | cons region rest => exact h.joinRuns

/-- In maps with the same bytes, all inside the address space, no region stops higher than all of
the other map. -/
theorem SameBytes.exists_stop_le {a b : List Region} (h : SameBytes a b)
    (hinside : ∀ region ∈ a, region.extent.stop ≤ addressSpace) (hregion : region ∈ a)
    (hne : region.extent.isEmpty = false) :
    ∃ other ∈ b, other.extent.isEmpty = false ∧ region.extent.stop ≤ other.extent.stop := by
  have hlt := Extent.isEmpty_eq_false_iff.mp hne
  have hstop := hinside region hregion
  -- The last byte of the region is in a region of the other map.
  have hlast : region.extent.stop - 1 ∈ region.extent :=
    (Extent.mem_iff_of_inside hstop).mpr (by omega)
  obtain ⟨other, hother, -, hmem⟩ :=
    (h.exists_usage_iff fun _ => True).mp ⟨region, hregion, trivial, hlast⟩
  rw [Extent.mem_def] at hmem
  exact ⟨other, hother, Extent.isEmpty_eq_false_iff.mpr (by omega), by omega⟩

/-- Maps with the same bytes reach up to the same position, when they lie inside the address
space. -/
theorem SameBytes.top?_eq_some {a b : List Region} (h : SameBytes a b)
    (ha : ∀ region ∈ a, region.extent.stop ≤ addressSpace)
    (hb : ∀ region ∈ b, region.extent.stop ≤ addressSpace) (htop : top? a = some top) :
    top? b = some top := by
  obtain ⟨⟨highest, hhighest, hne, rfl⟩, hle⟩ := top?_eq_some_iff.mp htop
  have hbelow : ∀ region ∈ b, region.extent.isEmpty = false →
      region.extent.stop ≤ highest.extent.stop := by
    intro region hregion hempty
    obtain ⟨other, hother, hotherNe, hstop⟩ := h.symm.exists_stop_le hb hregion hempty
    exact Nat.le_trans hstop (hle other hother hotherNe)
  obtain ⟨other, hother, hotherNe, hstop⟩ := h.exists_stop_le ha hhighest hne
  exact top?_eq_some_iff.mpr
    ⟨⟨other, hother, hotherNe, Nat.le_antisymm (hbelow other hother hotherNe) hstop⟩, hbelow⟩

/-- When withholding by a map is done, so is withholding by its canonical form, and it leads to the
same arena. -/
theorem leads_withhold_canonical (hwf : arena.claims.WellFormed)
    (h : (withhold regions).Leads arena last) : (withhold (canonical regions)).Leads arena last := by
  obtain ⟨husable, top, htop, hplan⟩ := leads_withhold_iff.mp h
  have hsame := (sameBytes_canonical regions).symm
  refine leads_withhold_iff.mpr ⟨husable.canonical, top,
    hsame.top?_eq_some husable.inside husable.canonical.inside htop, ?_⟩
  obtain ⟨between, habove, hsweep⟩ := withholds_append.mp hplan
  refine withholds_append.mpr ⟨between, habove, ?_⟩
  rw [husable.canonical_eq]
  cases regions with
  | nil => exact hsweep
  | cons region rest => exact hsweep.joinRuns (habove.grows hwf).wellFormed husable.ascending

/-- Whenever withholding by a map is done, and the map is in ascending order then, adopting the map
from the same arena is done, too, and leaves the same arena; its value is the canonical form of the
map. So joining regions never makes a map fail that is accepted as it is, needs no slot that the map
itself did not need, and withholds the same bytes. -/
theorem adopt_of_withhold_done (hreachable : arena.Reachable) (regions : List Region)
    (hdone : ((withhold regions).run arena).outcome = .done ()) :
    ((adopt regions).run arena).outcome = .done (canonical regions) ∧
      ((adopt regions).run arena).state = ((withhold regions).run arena).state := by
  have hleads : (withhold regions).Leads arena ((withhold regions).run arena).state :=
    Action.leads_iff.mpr ⟨hdone, rfl⟩
  exact adopt_done_iff.mpr ⟨rfl, leads_withhold_canonical hreachable.wellFormed hleads⟩

/-- In a table with two slots, the memory above a map and two reserved regions that overlap are
withheld; adopting the map joins the two and takes the same slots. -/
theorem adopt_overlappingReserved :
    let regions : List Region := [⟨⟨0, 0x1000⟩, .available, 1⟩, ⟨⟨0x1000, 0x1000⟩, .available, 1⟩,
      ⟨⟨0x2000, 0x1000⟩, .reserved, 1⟩, ⟨⟨0x2800, 0x1000⟩, .reserved, 1⟩,
      ⟨⟨0x4000, 0x4000⟩, .available, 1⟩]
    let report := (adopt regions).run (.empty .ofPlatform false : Arena 2)
    report.outcome = .done [⟨⟨0, 0x2000⟩, .available, 1⟩, ⟨⟨0x2000, 0x1800⟩, .reserved, 1⟩,
      ⟨⟨0x4000, 0x4000⟩, .available, 1⟩] ∧
    report.state.claims.entries = [⟨0x2000, 0x2000⟩, ⟨0x8000, 0xffffffffffff8000⟩] := by
  intro regions report
  obtain ⟨houtcome, hstate⟩ := adopt_of_withhold_done
    (.start .ofPlatform false : (.empty .ofPlatform false : Arena 2).Reachable) regions
    (by decide +kernel)
  refine ⟨houtcome.trans ?_, (congrArg (fun arena => arena.claims.entries) hstate).trans ?_⟩
  · decide +kernel
  · decide +kernel

end PhysicalMemory.Firmware
