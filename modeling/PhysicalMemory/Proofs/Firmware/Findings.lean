import Mathlib.Order.Interval.Set.Nat
import PhysicalMemory.Proofs.Firmware.Audit

/-!
# What an audit reports

An audit keeps one number of all the regions that it has passed, the greatest stop among them, and
compares each region with that and with the region before it. So what it finds about a region
depends on the regions before that one, and on whether there is one after it (`mem_findings_iff`).
When the bases ascend, no region before starts above this one. Then the one that reaches highest
shares a position with it as soon as any of them does, and the number stands for all of them
(`overlapsEarlier_mem_findingsAt_iff`). The whole of what an audit says is in `audit_exact`.
-/

namespace PhysicalMemory.Firmware

variable {σ : Type} {regions earlier rest : List Region} {region : Region} {finding : Finding}
  {index position : Nat}

/-- The greatest stop among regions; zero when there is none. -/
def greatestStop (regions : List Region) : Nat :=
  regions.foldl (fun covered region => max covered region.extent.stop) 0

/-- With one more region, the greatest stop is that of the region or the one before. -/
theorem greatestStop_concat (regions : List Region) (region : Region) :
    greatestStop (regions ++ [region]) = max (greatestStop regions) region.extent.stop := by
  rw [greatestStop, List.foldl_append]
  rfl

/-- A position is below the greatest stop exactly when some region stops above it. -/
theorem lt_greatestStop_iff :
    position < greatestStop regions ↔ ∃ region ∈ regions, position < region.extent.stop := by
  induction regions using List.reverseRecOn with
  | nil => simp [greatestStop]
  | append_singleton regions region ih =>
    rw [greatestStop_concat, lt_max_iff, ih]
    simp [or_and_right, exists_or]

/-- What an audit finds about a region, given the regions before it and whether it is the last. -/
def findingsAt (earlier : List Region) (region : Region) (isLast : Bool) : List Finding :=
  placeFindings earlier.length earlier.getLast? (greatestStop earlier) region ++
    stopFindings earlier.length region isLast

/-- An audit that has passed some regions looks at the next and goes on from behind it. -/
theorem findingsFrom_cons (earlier : List Region) (region : Region) (rest : List Region) :
    findingsFrom earlier.length earlier.getLast? (greatestStop earlier) (region :: rest) =
      findingsAt earlier region rest.isEmpty ++
        findingsFrom (earlier ++ [region]).length (earlier ++ [region]).getLast?
          (greatestStop (earlier ++ [region])) rest := by
  rw [findingsFrom, findingsAt, greatestStop_concat, List.getLast?_concat, List.length_append,
    List.length_singleton]

/-- What an audit finds after it has passed some regions is what it finds about one of the others,
given all regions before that one. -/
theorem mem_findingsFrom_iff (earlier rest : List Region) :
    finding ∈ findingsFrom earlier.length earlier.getLast? (greatestStop earlier) rest ↔
      ∃ before region after, rest = before ++ region :: after ∧
        finding ∈ findingsAt (earlier ++ before) region after.isEmpty := by
  induction rest generalizing earlier with
  | nil => simp [findingsFrom]
  | cons region rest ih =>
    rw [findingsFrom_cons, List.mem_append, ih]
    constructor
    · rintro (hfirst | ⟨before, other, after, rfl, hother⟩)
      · exact ⟨[], region, rest, rfl, by rwa [List.append_nil]⟩
      · exact ⟨region :: before, other, after, rfl, by rwa [List.append_cons]⟩
    · rintro ⟨before, other, after, hsplit, hother⟩
      rcases List.cons_eq_append_iff.mp hsplit with ⟨rfl, hrest⟩ | ⟨others, rfl, rfl⟩
      · obtain ⟨rfl, rfl⟩ := List.cons.inj hrest
        exact Or.inl (by rwa [List.append_nil] at hother)
      · exact Or.inr ⟨others, other, after, rfl, by rwa [← List.append_cons]⟩

/-- What an audit finds about a map is what it finds about one of its regions, given the regions
before that one and whether there are any after it. -/
theorem mem_findings_iff :
    finding ∈ findings regions ↔ ∃ earlier region later, regions = earlier ++ region :: later ∧
      finding ∈ findingsAt earlier region later.isEmpty :=
  mem_findingsFrom_iff [] regions

/-- Two regions have a position in common, which may lie above the top of the address space. -/
def Region.SharesPosition (a b : Region) : Prop :=
  ∃ x, x ∈ Set.Ico a.extent.start a.extent.stop ∧ x ∈ Set.Ico b.extent.start b.extent.stop

/-- A region that starts no lower than another has a position in common with it exactly when it is
not empty and starts below the other's stop. -/
theorem Region.sharesPosition_iff {other : Region} (h : other.extent.start ≤ region.extent.start) :
    other.SharesPosition region ↔
      region.extent.isEmpty = false ∧ region.extent.start < other.extent.stop := by
  rw [Extent.isEmpty_eq_false_iff]
  constructor
  · rintro ⟨x, hother, hregion⟩
    exact ⟨lt_of_le_of_lt hregion.1 hregion.2, lt_of_le_of_lt hregion.1 hother.2⟩
  · rintro ⟨hne, hlt⟩
    exact ⟨region.extent.start, ⟨h, hlt⟩, le_refl _, hne⟩

/-- Where no region before stands higher, the greatest stop of all before is above the start of a
region that is not empty exactly when one of them has a position in common with it. -/
theorem lt_greatestStop_iff_sharesPosition
    (hascending : ∀ other ∈ earlier, other.extent.start ≤ region.extent.start) :
    region.extent.isEmpty = false ∧ region.extent.start < greatestStop earlier ↔
      ∃ other ∈ earlier, other.SharesPosition region := by
  rw [lt_greatestStop_iff]
  constructor
  · rintro ⟨hne, other, hother, hlt⟩
    exact ⟨other, hother, (Region.sharesPosition_iff (hascending other hother)).mpr ⟨hne, hlt⟩⟩
  · rintro ⟨other, hother, hshares⟩
    obtain ⟨hne, hlt⟩ := (Region.sharesPosition_iff (hascending other hother)).mp hshares
    exact ⟨hne, other, hother, hlt⟩

/-- No finding about where a region ends is an overlap. -/
theorem overlapsEarlier_notMem_stopFindings {place : Nat} {isLast : Bool} {other : Region} :
    .overlapsEarlier index other ∉ stopFindings place region isLast := by
  unfold stopFindings
  split <;> simp

/-- Where no region before stands higher, an audit finds that a region overlaps exactly when one of
them has a position in common with it. -/
theorem overlapsEarlier_mem_findingsAt_iff {named : Region} {isLast : Bool}
    (hascending : ∀ other ∈ earlier, other.extent.start ≤ region.extent.start) :
    .overlapsEarlier index named ∈ findingsAt earlier region isLast ↔
      (earlier.length = index ∧ region = named) ∧
        ∃ other ∈ earlier, other.SharesPosition region := by
  rw [findingsAt, List.mem_append, or_iff_left overlapsEarlier_notMem_stopFindings,
    ← lt_greatestStop_iff_sharesPosition hascending]
  cases hlast : earlier.getLast? with
  | none =>
    -- Nothing stands before the first region.
    rw [List.getLast?_eq_none_iff] at hlast
    simp [placeFindings, hlast, greatestStop]
  | some before =>
    have hle := hascending before (List.mem_of_getLast? hlast)
    rw [placeFindings, if_neg (Nat.not_lt.mpr hle)]
    by_cases hoverlap : region.extent.isEmpty = false ∧ region.extent.start < greatestStop earlier
    · rw [if_pos (by simpa using hoverlap)]
      simp [hoverlap, eq_comm]
    · rw [if_neg (by simpa using hoverlap)]
      simp [hoverlap]

/-- In a map whose bases ascend, an audit finds an overlap for a position and a region exactly when
the region stands there and has a position in common with one before it. -/
theorem overlapsEarlier_mem_findings_iff
    (hascending : regions.Pairwise fun earlier later =>
      earlier.extent.start ≤ later.extent.start) :
    .overlapsEarlier index region ∈ findings regions ↔
      ∃ earlier later, regions = earlier ++ region :: later ∧ earlier.length = index ∧
        ∃ other ∈ earlier, other.SharesPosition region := by
  have hbefore : ∀ {earlier later : List Region} {region : Region},
      regions = earlier ++ region :: later →
        ∀ other ∈ earlier, other.extent.start ≤ region.extent.start := by
    rintro earlier later region rfl other hother
    exact (List.pairwise_append.mp hascending).2.2 other hother region List.mem_cons_self
  rw [mem_findings_iff]
  constructor
  · rintro ⟨earlier, named, later, hsplit, hfound⟩
    obtain ⟨⟨hindex, rfl⟩, hshares⟩ :=
      (overlapsEarlier_mem_findingsAt_iff (hbefore hsplit)).mp hfound
    exact ⟨earlier, later, hsplit, hindex, hshares⟩
  · rintro ⟨earlier, later, hsplit, hindex, hshares⟩
    exact ⟨earlier, region, later, hsplit,
      (overlapsEarlier_mem_findingsAt_iff (hbefore hsplit)).mpr ⟨⟨hindex, rfl⟩, hshares⟩⟩

/-- What an audit finds is in its log, and the log reports nothing else as found. -/
theorem found_mem_log_iff (regions : List Region) (state : σ) :
    .found finding ∈ ((audit regions).run state).log ↔ finding ∈ findings regions := by
  have hlisting : Event.found finding ∉ listing regions := by simp [listing]
  rw [run_audit]
  dsimp only
  split <;> simp [hlisting]

/-- An audit ends its log with the list of the map when it finds something, and reports nothing when
it does not. -/
theorem listing_isSuffix_log_iff (regions : List Region) (state : σ) :
    (listing regions <:+ ((audit regions).run state).log ↔ findings regions ≠ []) ∧
      (findings regions = [] → ((audit regions).run state).log = []) := by
  rw [run_audit]
  dsimp only
  cases hfound : findings regions with
  | nil => simp [listing]
  | cons first others => simp

/-- A finding that is not fatal is an overlap. -/
theorem Finding.exists_eq_of_isFatal_eq_false (h : finding.isFatal = false) :
    ∃ index region, finding = .overlapsEarlier index region := by
  cases finding with
  | startsBelow index region previous => exact absurd h (by simp [isFatal])
  | overlapsEarlier index region => exact ⟨index, region, rfl⟩
  | overflows index region => exact absurd h (by simp [isFatal])

/-- An audit finds something exactly when the map is unusable or some region is found to overlap. -/
theorem findings_ne_nil_iff : findings regions ≠ [] ↔
    ¬Usable regions ∨ ∃ index region, .overlapsEarlier index region ∈ findings regions := by
  rw [← any_isFatal_findings, Bool.not_eq_false]
  constructor
  · intro hne
    obtain ⟨finding, hfinding⟩ := List.exists_mem_of_ne_nil _ hne
    cases hfatal : finding.isFatal with
    | true => exact Or.inl (List.any_eq_true.mpr ⟨finding, hfinding, hfatal⟩)
    | false =>
      obtain ⟨index, region, rfl⟩ := Finding.exists_eq_of_isFatal_eq_false hfatal
      exact Or.inr ⟨index, region, hfinding⟩
  · rintro (hfatal | ⟨index, region, hfinding⟩)
    · obtain ⟨finding, hfinding, -⟩ := List.any_eq_true.mp hfatal
      exact List.ne_nil_of_mem hfinding
    · exact List.ne_nil_of_mem hfinding

/-- How an audit of a map goes. -/
structure Audited (regions : List Region) (state : σ) (report : Report σ Unit) : Prop where
  /-- The audit accepts exactly the usable maps: the bases ascend, no region runs past the top of the
  address space, and none but the last ends there. -/
  done_iff : report.outcome = .done () ↔ Usable regions
  /-- It refuses every other map as invalid. -/
  invalid_iff : report.outcome = .failed .invalidParameter ↔ ¬Usable regions
  /-- It changes nothing. -/
  state_eq : report.state = state
  /-- When the bases ascend, it reports that a region overlaps exactly when the region has a position
  in common with one before it, however far. -/
  warns_iff : (regions.Pairwise fun earlier later =>
    earlier.extent.start ≤ later.extent.start) → ∀ index region,
      .found (.overlapsEarlier index region) ∈ report.log ↔
        ∃ earlier later, regions = earlier ++ region :: later ∧ earlier.length = index ∧
          ∃ other ∈ earlier, other.SharesPosition region
  /-- It lists the map, at the end of the log, exactly when the map is refused or a region is reported
  to overlap. -/
  lists_iff : listing regions <:+ report.log ↔ report.outcome = .failed .invalidParameter ∨
    ∃ index region, .found (.overlapsEarlier index region) ∈ report.log
  /-- When it does not list the map, it reports nothing. -/
  quiet : ¬listing regions <:+ report.log → report.log = []

/-- An audit is exact, for every map. It accepts the usable maps and no others. It reports an overlap
for exactly those regions that have a position in common with one before them, when the bases
ascend. It lists the map exactly when it has found something. -/
theorem audit_exact (regions : List Region) (state : σ) :
    Audited regions state ((audit regions).run state) := by
  obtain ⟨hdone, hinvalid⟩ : (((audit regions).run state).outcome = .done () ↔ Usable regions) ∧
      (((audit regions).run state).outcome = .failed .invalidParameter ↔ ¬Usable regions) := by
    rcases outcome_audit regions state with ⟨husable, houtcome⟩ | ⟨hunusable, houtcome⟩
    · simp [husable, houtcome]
    · simp [hunusable, houtcome]
  obtain ⟨hlists, hquiet⟩ := listing_isSuffix_log_iff regions state
  exact {
    done_iff := hdone
    invalid_iff := hinvalid
    state_eq := by rw [run_audit]
    warns_iff := fun hascending index region => by
      rw [found_mem_log_iff, overlapsEarlier_mem_findings_iff hascending]
    lists_iff := by
      simp only [hlists, hinvalid, found_mem_log_iff, findings_ne_nil_iff]
    quiet := fun hnot => hquiet (not_not.mp (mt hlists.mpr hnot)) }

/-- The third region overlaps the first and not the one right before it. -/
example : findings [⟨⟨0, 0x4000⟩, .available, 1⟩, ⟨⟨0x1000, 0x1000⟩, .loader, 1⟩,
    ⟨⟨0x2000, 0x1000⟩, .reserved, 1⟩, ⟨⟨0x4000, 0x1000⟩, .available, 1⟩] =
      [.overlapsEarlier 1 ⟨⟨0x1000, 0x1000⟩, .loader, 1⟩,
        .overlapsEarlier 2 ⟨⟨0x2000, 0x1000⟩, .reserved, 1⟩] := by
  decide

end PhysicalMemory.Firmware
