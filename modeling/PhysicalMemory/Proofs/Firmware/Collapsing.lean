import PhysicalMemory.Proofs.Claims.Room
import PhysicalMemory.Proofs.Firmware.Coverage
import PhysicalMemory.Proofs.Sorting

/-!
# What coalescing makes of a memory map

Coalescing cuts the sorted map into consecutive runs and puts one region in the place of each, which
spans the run (`exists_runs_canonical`). A region that grows while it is joined with the next keeps
its start, so the regions that are left still ascend, and one that could not be joined with the
first region of a run cannot be joined with the region that spans the run (`isChain_canonical`). A
region that runs past the top is a run of its own (`count_canonical`).
-/

namespace PhysicalMemory.Firmware

variable {regions rest map : List Region} {runs : List (List Region)} {region next joined : Region}

instance : Std.TransCmp Region.compareBases :=
  inferInstanceAs (Std.TransCmp (compareOn fun region : Region => region.extent.base))

/-- The order by base is the order of the starts. -/
theorem isLE_compareBases_iff :
    (Region.compareBases region next).isLE = true ↔ region.extent.start ≤ next.extent.start := by
  rw [Region.compareBases, Std.isLE_compare, Extent.base_le_iff]

/-- A region is less than another when it starts below it. -/
theorem compareBases_eq_lt_iff :
    Region.compareBases region next = .lt ↔ region.extent.start < next.extent.start := by
  rw [Region.compareBases, Std.compare_eq_lt]
  exact UInt64.lt_iff_toNat_lt

/-- Regions compare equal when they share their base. -/
theorem compareBases_eq_eq_iff :
    Region.compareBases region next = .eq ↔ region.extent.start = next.extent.start := by
  rw [Region.compareBases, Std.compare_eq_iff_eq]
  exact UInt64.toNat_inj.symm

/-- Ordered regions are a stable sort of the map by base. -/
theorem isStableSort_ordered (regions : List Region) :
    Sorting.IsStableSort Region.compareBases regions (ordered regions) :=
  Sorting.isStableSort_sortBy regions

/-- Ordered regions ascend. -/
theorem pairwise_ordered (regions : List Region) :
    (ordered regions).Pairwise fun earlier later =>
      earlier.extent.start ≤ later.extent.start := by
  have hascending := (isStableSort_ordered regions).ascending
  simpa only [isLE_compareBases_iff] using hascending

/-- Ordering leaves ascending regions as they are. -/
theorem ordered_eq_self (hascending : regions.Pairwise fun earlier later =>
    earlier.extent.start ≤ later.extent.start) : ordered regions = regions :=
  Sorting.sortBy_eq_self (by simpa only [isLE_compareBases_iff] using hascending)

/-- Two regions that are left side by side could be joined: they lie inside the address space, they
are of the same kind, they overlap or touch, and together they are not the whole address space. -/
structure Region.Joinable (region next : Region) : Prop where
  /-- Neither runs past the top of the address space. -/
  inside : region.extent.stop ≤ addressSpace ∧ next.extent.stop ≤ addressSpace
  /-- They have the same usage and attributes. -/
  sameKind : next.usage = region.usage ∧ next.attributes = region.attributes
  /-- Neither starts above the stop of the other. -/
  meets : region.extent.start ≤ next.extent.stop ∧ next.extent.start ≤ region.extent.stop
  /-- Some byte is in neither. -/
  notWhole : ∃ x < addressSpace, x ∉ region.extent ∧ x ∉ next.extent

/-- A region is not joined with the next exactly when the two are not joinable. -/
theorem join?_eq_none_iff : region.join? next = none ↔ ¬region.Joinable next := by
  rw [Option.eq_none_iff_forall_ne_some]
  constructor
  · rintro hnone ⟨hinside, hkind, hmeets, x, hx, hregion, hnext⟩
    rw [← Extent.meets_iff] at hmeets
    cases hhull : region.extent.hull? next.extent with
    | none =>
      rcases Extent.mem_or_mem_of_hull?_eq_none hmeets hhull hx with hmem | hmem
      · exact hregion hmem
      · exact hnext hmem
    | some hull =>
      exact hnone _ (Region.join?_eq_some_iff.mpr ⟨hinside, hkind, hmeets, hull, hhull, rfl⟩)
  · rintro hnot joined hjoin
    obtain ⟨hinside, hkind, hmeets, hull, hhull, -⟩ := Region.join?_eq_some_iff.mp hjoin
    obtain ⟨x, hx, hfree⟩ := hull.exists_not_mem
    rw [Extent.mem_hull? hmeets hhull, not_or] at hfree
    exact hnot ⟨hinside, hkind, Extent.meets_iff.mp hmeets, x, hx, hfree⟩

/-- A joined region starts at the lower start and stops at the higher stop. -/
theorem join?_start_stop (h : region.join? next = some joined) :
    joined.extent.start = min region.extent.start next.extent.start ∧
      joined.extent.stop = max region.extent.stop next.extent.stop := by
  obtain ⟨hinside, -, -, hull, hhull, rfl⟩ := Region.join?_eq_some_iff.mp h
  exact Extent.hull?_eq_some hinside.1 hinside.2 hhull

/-- A region spans a run of regions: it is of the kind that all of them are, it starts where the
lowest of them starts, and it stops where the highest of them stops. -/
structure Spans (region : Region) (run : List Region) : Prop where
  /-- All regions of the run have the usage and the attributes of the region. -/
  sameKind : ∀ r ∈ run, r.usage = region.usage ∧ r.attributes = region.attributes
  /-- The region starts at the least start in the run. -/
  start_least : (∃ r ∈ run, r.extent.start = region.extent.start) ∧
    ∀ r ∈ run, region.extent.start ≤ r.extent.start
  /-- The region stops at the greatest stop in the run. -/
  stop_greatest : (∃ r ∈ run, r.extent.stop = region.extent.stop) ∧
    ∀ r ∈ run, r.extent.stop ≤ region.extent.stop

/-- A region spans itself. -/
theorem Spans.singleton (region : Region) : Spans region [region] :=
  ⟨by simp, by simp, by simp⟩

/-- When a region that spans a run is joined with the next, the joined region spans the run with the
next. -/
theorem Spans.join {run : List Region} (h : Spans region run)
    (hjoin : region.join? next = some joined) : Spans joined (run ++ [next]) := by
  obtain ⟨hkind, ⟨⟨first, hfirst, hfirstEq⟩, hleast⟩, ⟨last, hlast, hlastEq⟩, hgreatest⟩ := h
  obtain ⟨hjoined, hnext, -⟩ := Region.join?_eq_some hjoin
  obtain ⟨hstart, hstop⟩ := join?_start_stop hjoin
  have hmem : ∀ {r : Region}, r ∈ run ++ [next] ↔ r ∈ run ∨ r = next := by simp
  refine ⟨fun r hr => ?_, ⟨?_, fun r hr => ?_⟩, ?_, fun r hr => ?_⟩
  · rw [hjoined.1, hjoined.2]
    rcases hmem.mp hr with hr | rfl
    · exact hkind r hr
    · exact hnext
  · -- The lower start is the run's or the next region's.
    rcases Nat.le_total region.extent.start next.extent.start with hle | hle
    · exact ⟨first, hmem.mpr (Or.inl hfirst), by omega⟩
    · exact ⟨next, hmem.mpr (Or.inr rfl), by omega⟩
  · rcases hmem.mp hr with hr | rfl
    · have := hleast r hr
      omega
    · omega
  · rcases Nat.le_total region.extent.stop next.extent.stop with hle | hle
    · exact ⟨next, hmem.mpr (Or.inr rfl), by omega⟩
    · exact ⟨last, hmem.mpr (Or.inl hlast), by omega⟩
  · rcases hmem.mp hr with hr | rfl
    · have := hgreatest r hr
      omega
    · omega

/-- Joining from a region that spans a run cuts the run and the regions after it into runs, each
spanned by one of the regions that are left. -/
theorem exists_runs_joinRuns {run : List Region} (h : Spans region run) (rest : List Region) :
    ∃ runs : List (List Region), runs.flatten = run ++ rest ∧
      List.Forall₂ Spans (joinRuns region rest) runs := by
  fun_induction joinRuns region rest generalizing run with
  | case1 region => exact ⟨[run], by simp, .cons h .nil⟩
  | case2 region next rest joined hjoin ih =>
    obtain ⟨runs, hflatten, hspans⟩ := ih (h.join hjoin)
    exact ⟨runs, by rw [hflatten, List.append_assoc, List.singleton_append], hspans⟩
  | case3 region next rest hjoin ih =>
    obtain ⟨runs, hflatten, hspans⟩ := ih (Spans.singleton next)
    exact ⟨run :: runs, by rw [List.flatten_cons, hflatten, List.singleton_append],
      .cons h hspans⟩

/-- The canonical form has one region for each run of the ordered regions, in order. -/
theorem exists_runs_canonical (regions : List Region) :
    ∃ runs : List (List Region), runs.flatten = ordered regions ∧
      List.Forall₂ Spans (canonical regions) runs := by
  unfold canonical
  cases ordered regions with
  | nil => exact ⟨[], rfl, .nil⟩
  | cons region rest => exact exists_runs_joinRuns (Spans.singleton region) rest

/-- Each of some regions that span runs spans one of the runs. -/
theorem exists_run_of_mem (h : List.Forall₂ Spans map runs) (hregion : region ∈ map) :
    ∃ run ∈ runs, Spans region run := by
  induction h with
  | nil => exact absurd hregion (by simp)
  | cons hspans _ ih =>
    rcases List.mem_cons.mp hregion with rfl | hregion
    · exact ⟨_, List.mem_cons_self, hspans⟩
    · obtain ⟨run, hrun, hspans⟩ := ih hregion
      exact ⟨run, List.mem_cons_of_mem _ hrun, hspans⟩

/-- Regions that span consecutive runs of ascending regions ascend. -/
theorem pairwise_of_forall₂_spans (h : List.Forall₂ Spans map runs)
    (hascending : runs.flatten.Pairwise fun earlier later =>
      earlier.extent.start ≤ later.extent.start) :
    map.Pairwise fun earlier later => earlier.extent.start ≤ later.extent.start := by
  induction h with
  | nil => exact List.Pairwise.nil
  | @cons region run map runs hspans hrest ih =>
    rw [List.flatten_cons] at hascending
    obtain ⟨-, hothers, hcross⟩ := List.pairwise_append.mp hascending
    refine List.pairwise_cons.mpr ⟨fun later hlater => ?_, ih hothers⟩
    -- Both starts are starts of regions in their runs, and these ascend.
    obtain ⟨other, hother, hspans'⟩ := exists_run_of_mem hrest hlater
    obtain ⟨first, hfirst, hfirstEq⟩ := hspans.start_least.1
    obtain ⟨second, hsecond, hsecondEq⟩ := hspans'.start_least.1
    rw [← hfirstEq, ← hsecondEq]
    exact hcross first hfirst second (List.mem_flatten.mpr ⟨other, hother, hsecond⟩)

/-- The regions of the canonical form ascend. -/
theorem pairwise_canonical (regions : List Region) :
    (canonical regions).Pairwise fun earlier later =>
      earlier.extent.start ≤ later.extent.start := by
  obtain ⟨runs, hflatten, hspans⟩ := exists_runs_canonical regions
  exact pairwise_of_forall₂_spans hspans (hflatten ▸ pairwise_ordered regions)

/-- A region that runs past the top is none of two that are joined, and not what they become. -/
theorem ne_of_join?_eq_some {past : Region} (hpast : addressSpace < past.extent.stop)
    (h : region.join? next = some joined) : region ≠ past ∧ next ≠ past ∧ joined ≠ past := by
  obtain ⟨hinside, -⟩ := Region.join?_eq_some_iff.mp h
  have hstop := (join?_start_stop h).2
  refine ⟨?_, ?_, ?_⟩ <;> rintro rfl <;> omega

/-- A region that runs past the top is left as often as it was there. -/
theorem count_joinRuns {past : Region} (hpast : addressSpace < past.extent.stop) (region : Region)
    (rest : List Region) : (joinRuns region rest).count past = (region :: rest).count past := by
  fun_induction joinRuns region rest with
  | case1 => rfl
  | case2 region next rest joined hjoin ih =>
    obtain ⟨hregion, hnext, hjoined⟩ := ne_of_join?_eq_some hpast hjoin
    rw [ih, List.count_cons_of_ne hjoined, List.count_cons_of_ne hregion,
      List.count_cons_of_ne hnext]
  | case3 region next rest _ ih => rw [List.count_cons, List.count_cons, ih]

/-- A region that runs past the top is in the canonical form as often as in the map. -/
theorem count_canonical {past : Region} (hpast : addressSpace < past.extent.stop)
    (regions : List Region) : (canonical regions).count past = regions.count past := by
  rw [← (isStableSort_ordered regions).perm.count_eq, canonical]
  cases ordered regions with
  | nil => rfl
  | cons region rest => exact count_joinRuns hpast region rest

/-- A region is another one that may have been joined with some after it: of the same kind, with the
same start and no lower stop, and not past the top unless the other is. -/
structure Region.Extends (region next : Region) : Prop where
  /-- They have the same usage and attributes. -/
  sameKind : region.usage = next.usage ∧ region.attributes = next.attributes
  /-- They start alike. -/
  start_eq : region.extent.start = next.extent.start
  /-- The region stops no lower than the other. -/
  stop_le : next.extent.stop ≤ region.extent.stop
  /-- The region lies inside the address space when the other does. -/
  inside : next.extent.stop ≤ addressSpace → region.extent.stop ≤ addressSpace

/-- Joining ascending regions leaves, first of all, one that extends the first of them. -/
theorem exists_joinRuns_eq_cons (region : Region) (rest : List Region)
    (hascending : ∀ next ∈ rest, region.extent.start ≤ next.extent.start) :
    ∃ first others, joinRuns region rest = first :: others ∧ first.Extends region := by
  fun_induction joinRuns region rest with
  | case1 region => exact ⟨region, [], rfl, ⟨rfl, rfl⟩, rfl, le_refl _, id⟩
  | case2 region next rest joined hjoin ih =>
    obtain ⟨hnext, hothers⟩ := List.forall_mem_cons.mp hascending
    obtain ⟨hkind, -, -⟩ := Region.join?_eq_some hjoin
    obtain ⟨hinside, -⟩ := Region.join?_eq_some_iff.mp hjoin
    obtain ⟨hstart, hstop⟩ := join?_start_stop hjoin
    obtain ⟨first, others, hruns, hextends⟩ := ih fun r hr => by
      have := hothers r hr
      omega
    obtain ⟨hkind', hstart', hstop', hinside'⟩ := hextends
    exact ⟨first, others, hruns, ⟨hkind'.1.trans hkind.1, hkind'.2.trans hkind.2⟩, by omega,
      by omega, fun _ => hinside' (by omega)⟩
  | case3 region next rest _ _ => exact ⟨region, _, rfl, ⟨rfl, rfl⟩, rfl, le_refl _, id⟩

/-- What cannot be joined with a region cannot be joined with one that extends it. -/
theorem Region.Extends.not_joinable {first : Region} (h : first.Extends next)
    (hle : region.extent.start ≤ next.extent.start) (hnot : ¬region.Joinable next) :
    ¬region.Joinable first := by
  rintro ⟨hinside, hkind, hmeets, x, hx, hregion, hfirst⟩
  obtain ⟨hkind', hstart, hstop, -⟩ := h
  refine hnot ⟨⟨hinside.1, by omega⟩, ⟨hkind'.1.symm.trans hkind.1, hkind'.2.symm.trans hkind.2⟩,
    ⟨?_, by omega⟩, x, hx, hregion, fun hnext => hfirst ?_⟩
  · exact Nat.le_trans hle next.extent.start_le_stop
  · rw [Extent.mem_def] at hnext ⊢
    omega

/-- Of the regions that are left when ascending ones are joined, no two side by side could still be
joined. -/
theorem isChain_joinRuns (region : Region) (rest : List Region)
    (hascending : (region :: rest).Pairwise fun earlier later =>
      earlier.extent.start ≤ later.extent.start) :
    (joinRuns region rest).IsChain fun region next => ¬region.Joinable next := by
  fun_induction joinRuns region rest with
  | case1 => exact .singleton _
  | case2 region next rest joined hjoin ih =>
    obtain ⟨hfirst, hothers⟩ := List.pairwise_cons.mp hascending
    obtain ⟨hstart, -⟩ := join?_start_stop hjoin
    refine ih (List.pairwise_cons.mpr ⟨fun r hr => ?_, (List.pairwise_cons.mp hothers).2⟩)
    have := hfirst r (List.mem_cons_of_mem _ hr)
    omega
  | case3 region next rest hjoin ih =>
    obtain ⟨hfirst, hothers⟩ := List.pairwise_cons.mp hascending
    have hchain := ih hothers
    obtain ⟨first, others, hruns, hextends⟩ :=
      exists_joinRuns_eq_cons next rest (List.pairwise_cons.mp hothers).1
    rw [hruns] at hchain ⊢
    exact List.isChain_cons_cons.mpr
      ⟨hextends.not_joinable (hfirst next List.mem_cons_self) (join?_eq_none_iff.mp hjoin), hchain⟩

/-- No two regions side by side in the canonical form could still be joined. -/
theorem isChain_canonical (regions : List Region) :
    (canonical regions).IsChain fun region next => ¬region.Joinable next := by
  have hascending := pairwise_ordered regions
  unfold canonical
  cases hordered : ordered regions with
  | nil => exact .nil
  | cons region rest => exact isChain_joinRuns region rest (hordered ▸ hascending)

/-- What coalescing makes of a memory map: the runs of its stable sort by base, collapsed. -/
structure Collapses (regions map : List Region) : Prop where
  /-- The stable sort of the map by base is cut into consecutive runs, one for each region that is
  left and in the same order, and the region spans its run. -/
  runs : ∃ (sorted : List Region) (runs : List (List Region)),
    Sorting.IsStableSort Region.compareBases regions sorted ∧ runs.flatten = sorted ∧
      List.Forall₂ Spans map runs
  /-- The regions that are left ascend by their starts. -/
  ascending : map.Pairwise fun earlier later => earlier.extent.start ≤ later.extent.start
  /-- Regions of each kind cover the same bytes as before. -/
  sameBytes : SameBytes map regions
  /-- A region that runs past the top is left unchanged, and as often as it was there. -/
  count_eq : ∀ region : Region, addressSpace < region.extent.stop →
    map.count region = regions.count region
  /-- No two regions that are left side by side could still be joined. -/
  settled : map.IsChain fun region next => ¬region.Joinable next

/-- Coalescing a memory map is done, changes nothing else, and its value is what the runs of the
map collapse to. -/
theorem coalesce_collapses {σ : Type} (regions : List Region) (state : σ) :
    ∃ map, ((coalesce regions).run state).outcome = .done map ∧
      ((coalesce regions).run state).state = state ∧ Collapses regions map := by
  refine ⟨canonical regions, by rw [run_coalesce], by rw [run_coalesce], ?_⟩
  obtain ⟨runs, hflatten, hspans⟩ := exists_runs_canonical regions
  exact {
    runs := ⟨ordered regions, runs, isStableSort_ordered regions, hflatten, hspans⟩
    ascending := pairwise_canonical regions
    sameBytes := sameBytes_canonical regions
    count_eq := fun _ hpast => count_canonical hpast regions
    settled := isChain_canonical regions }

end PhysicalMemory.Firmware
