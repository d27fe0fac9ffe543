import PhysicalMemory.Proofs.Firmware.Collapsing
import PhysicalMemory.Proofs.Firmware.Plans
import PhysicalMemory.Proofs.Runs

/-!
# Memory maps in another order

Sorting makes a memory map the same whatever order its regions come in, but for regions that share a
base, which keep the order they came in. That changes which of them are joined, and still not what
is withheld: a plan depends on the bytes of each kind alone, and so, with enough free slots, does
whether it is carried out. In one case the order decides whether the map is usable: only the last
region may end at the top, so in a map that is orderly otherwise (`Orderly`) one that does must not
come before a shorter one of another kind with the same base (`TallFirst`). That is all the canonical
form depends on to be usable (`usable_canonical_iff`). Hence adopting a map in another order ends
alike, or in exactly one of the orders a tall region comes first, and that one is refused
(`adopt_perm`).
-/

namespace PhysicalMemory.Firmware

variable {capacity : Nat} {α : Type} {arena : Arena capacity}
  {regions permuted map : List Region} {runs : List (List Region)}

/-- Two actions on an arena end alike: both fail in the same way, or both are done and leave the
same claims. -/
def EndAlike (first second : Report (Arena capacity) α) : Prop :=
  (∃ failure, first.outcome = .failed failure ∧ second.outcome = .failed failure) ∨
    ∃ value value', first.outcome = .done value ∧ second.outcome = .done value' ∧
      first.state.claims = second.state.claims

/-- A region may stand before another in a map: it does not end at the top of the address space, or
the other is of its kind. -/
def Region.MayPrecede (region next : Region) : Prop :=
  region.extent.stop = addressSpace →
    next.usage = region.usage ∧ next.attributes = region.attributes

/-- What a map must be like for its canonical form to be usable, whatever the order of its regions:
no region runs past the top, those that end there are of one kind, and so is what starts above one of
them. -/
structure Orderly (regions : List Region) : Prop where
  /-- No region runs past the top of the address space. -/
  inside : ∀ region ∈ regions, region.extent.stop ≤ addressSpace
  /-- All regions that end at the top have the same usage and attributes. -/
  oneKind : ∀ tall ∈ regions, tall.extent.stop = addressSpace → ∀ other ∈ regions,
    other.extent.stop = addressSpace →
      other.usage = tall.usage ∧ other.attributes = tall.attributes
  /-- A region that starts above one that ends at the top has its usage and attributes. -/
  sameKind : ∀ tall ∈ regions, tall.extent.stop = addressSpace → ∀ higher ∈ regions,
    tall.extent.start < higher.extent.start →
      higher.usage = tall.usage ∧ higher.attributes = tall.attributes

/-- A region that ends at the top of the address space comes before one with the same base that ends
below the top and has another usage or other attributes. The shorter one has a place in the map even
when it has no byte. -/
def TallFirst (regions : List Region) : Prop :=
  ∃ tall tied : Region, [tall, tied].Sublist regions ∧ tall.extent.stop = addressSpace ∧
    tied.extent.start = tall.extent.start ∧ tied.extent.stop < addressSpace ∧
      ¬(tied.usage = tall.usage ∧ tied.attributes = tall.attributes)

/-- Which of two orders of a map is given decides whether it is refused: the map is orderly, and in
exactly one of the two a tall region comes first. -/
def OrderDecides (regions permuted : List Region) : Prop :=
  Orderly regions ∧ (TallFirst regions ↔ ¬TallFirst permuted)

/-- Whether a map is orderly does not depend on the order of its regions. -/
theorem Orderly.perm (h : Orderly regions) (hperm : permuted.Perm regions) : Orderly permuted := by
  obtain ⟨hinside, hone, hkind⟩ := h
  simp only [← hperm.mem_iff] at hinside hone hkind
  exact ⟨hinside, hone, hkind⟩

/-- When the regions that span some runs are usable, what comes in the runs behind a region that ends
at the top is of its kind, because both are in the last run. -/
theorem pairwise_mayPrecede_of_spans (h : List.Forall₂ Spans map runs) (husable : Usable map) :
    runs.flatten.Pairwise Region.MayPrecede := by
  induction h with
  | nil => exact .nil
  | @cons region run map runs hspans hrest ih =>
    obtain ⟨-, ⟨hinside, hbelow⟩, hothers⟩ := usable_cons.mp husable
    rw [List.flatten_cons]
    refine List.pairwise_append.mpr ⟨?_, ih hothers, fun tall htall later hlater htop => ?_⟩
    · refine List.pairwise_of_forall_mem_list fun tall htall later hlater _ => ?_
      have htallKind := hspans.sameKind tall htall
      have hlaterKind := hspans.sameKind later hlater
      exact ⟨hlaterKind.1.trans htallKind.1.symm, hlaterKind.2.trans htallKind.2.symm⟩
    · -- The region that spans the first run ends at the top, and it is not the last.
      have hregionStop := hspans.stop_greatest.2 tall htall
      have hne : map.isEmpty = false := by
        cases hrest with
        | nil => simp at hlater
        | cons => rfl
      exact absurd (by omega) (hbelow hne)

/-- A region that ends at the top could be joined with one of its kind that starts no lower. -/
theorem Region.joinable_of_stop_eq {region next : Region}
    (htop : region.extent.stop = addressSpace) (hle : region.extent.start ≤ next.extent.start)
    (hinside : next.extent.stop ≤ addressSpace)
    (hkind : next.usage = region.usage ∧ next.attributes = region.attributes) :
    region.Joinable next := by
  have hsize := region.extent.size_lt
  have hstart : 0 < region.extent.start := by
    rw [Extent.stop] at htop
    omega
  have hmeets : region.extent.start ≤ next.extent.stop :=
    Nat.le_trans hle next.extent.start_le_stop
  have hmeets' : next.extent.start ≤ region.extent.stop := htop ▸ Nat.le_of_lt next.extent.start_lt
  -- The first byte of the address space is in neither.
  refine ⟨⟨htop.le, hinside⟩, hkind, ⟨hmeets, hmeets'⟩, 0, by decide, ?_, ?_⟩
  · exact fun hmem => Nat.not_le.mpr hstart hmem.1
  · exact fun hmem => Nat.not_le.mpr hstart (Nat.le_trans hle hmem.1)

/-- When regions that span ascending runs could not be joined any more, they are usable if no region
of the runs runs past the top and what comes behind one that ends there is of its kind. -/
theorem usable_of_spans (h : List.Forall₂ Spans map runs)
    (hascending : runs.flatten.Pairwise fun earlier later =>
      earlier.extent.start ≤ later.extent.start)
    (hchain : map.IsChain fun region next => ¬region.Joinable next)
    (hinside : ∀ region ∈ runs.flatten, region.extent.stop ≤ addressSpace)
    (hprecede : runs.flatten.Pairwise Region.MayPrecede) : Usable map := by
  induction h with
  | nil => exact ⟨.nil, by simp, by simp⟩
  | @cons region run map runs hspans hrest ih =>
    have hmap := pairwise_of_forall₂_spans (.cons hspans hrest) hascending
    obtain ⟨hfirst, -⟩ := List.pairwise_cons.mp hmap
    rw [List.flatten_cons] at hascending hinside hprecede
    obtain ⟨-, hascending', -⟩ := List.pairwise_append.mp hascending
    obtain ⟨-, hprecede', hcross⟩ := List.pairwise_append.mp hprecede
    obtain ⟨⟨tall, htall, htallEq⟩, -⟩ := hspans.stop_greatest
    have hregionInside : region.extent.stop ≤ addressSpace := by
      rw [← htallEq]
      exact hinside tall (List.mem_append_left _ htall)
    have hothers : Usable map := ih hascending' hchain.of_cons
      (fun r hr => hinside r (List.mem_append_right _ hr)) hprecede'
    refine usable_cons.mpr ⟨fun next hnext => hfirst next (List.mem_of_mem_head? hnext),
      ⟨hregionInside, fun hne htop => ?_⟩, hothers⟩
    cases hrest with
    | nil => simp at hne
    | @cons next nextRun map runs hnextSpans hrest =>
      -- The next region starts no lower than one that ends at the top, and it is of the same kind.
      obtain ⟨⟨first, hfirstMem, -⟩, -⟩ := hnextSpans.start_least
      have hsame := hcross tall htall first (List.mem_append_left _ hfirstMem)
        (htallEq.trans htop)
      have htallKind := hspans.sameKind tall htall
      have hfirstKind := hnextSpans.sameKind first hfirstMem
      have hnextKind : next.usage = region.usage ∧ next.attributes = region.attributes := by
        rw [← hfirstKind.1, ← hfirstKind.2, ← htallKind.1, ← htallKind.2]
        exact hsame
      exact (List.isChain_cons_cons.mp hchain).1 (Region.joinable_of_stop_eq htop
        (hfirst next List.mem_cons_self) (hothers.inside next List.mem_cons_self) hnextKind)

/-- The canonical form of a map is usable exactly when no region runs past the top and, once the map
is sorted, what comes behind a region that ends there is of its kind. -/
theorem usable_canonical_iff_pairwise : Usable (canonical regions) ↔
    (∀ region ∈ regions, region.extent.stop ≤ addressSpace) ∧
      (ordered regions).Pairwise Region.MayPrecede := by
  obtain ⟨runs, hflatten, hspans⟩ := exists_runs_canonical regions
  constructor
  · refine fun h => ⟨fun region hregion => ?_, hflatten ▸ pairwise_mayPrecede_of_spans hspans h⟩
    by_contra hpast
    -- A region that runs past the top would still be there.
    have hcount := count_canonical (Nat.not_le.mp hpast) regions
    have hmem : region ∈ canonical regions := by
      rw [← List.count_pos_iff, hcount, List.count_pos_iff]
      exact hregion
    exact hpast (h.inside region hmem)
  · rintro ⟨hinside, hprecede⟩
    rw [← hflatten] at hprecede
    refine usable_of_spans hspans (hflatten ▸ pairwise_ordered regions) (isChain_canonical regions)
      (fun region hregion => hinside region ?_) hprecede
    rwa [hflatten, (isStableSort_ordered regions).perm.mem_iff] at hregion

/-- The canonical form of a map is usable exactly when the map is orderly and no tall region comes
first. -/
theorem usable_canonical_iff :
    Usable (canonical regions) ↔ Orderly regions ∧ ¬TallFirst regions := by
  have hsort := isStableSort_ordered regions
  rw [usable_canonical_iff_pairwise]
  constructor
  · rintro ⟨hinside, hprecede⟩
    obtain ⟨hbelow, htied⟩ := hsort.pairwise_iff.mp hprecede
    rw [List.pairwise_iff_forall_sublist] at hprecede htied
    refine ⟨⟨hinside, fun tall htall htop other hother hotherTop => ?_,
      fun tall htall htop higher hhigher hlt =>
        hbelow tall htall higher hhigher (compareBases_eq_lt_iff.mpr hlt) htop⟩, ?_⟩
    · rcases eq_or_ne tall other with rfl | hne
      · exact ⟨rfl, rfl⟩
      · -- Once the map is sorted, one of the two stands before the other.
        rcases Sorting.pair_sublist_or (hsort.perm.mem_iff.mpr htall)
          (hsort.perm.mem_iff.mpr hother) hne with hsub | hsub
        · exact hprecede hsub htop
        · exact (hprecede hsub hotherTop).imp Eq.symm Eq.symm
    · rintro ⟨tall, tied, hsub, htop, hstart, -, hother⟩
      exact hother (htied hsub (compareBases_eq_eq_iff.mpr hstart.symm) htop)
  · rintro ⟨horderly, hnot⟩
    refine ⟨horderly.inside, hsort.pairwise_iff.mpr ⟨fun tall htall higher hhigher hlt htop =>
      horderly.sameKind tall htall htop higher hhigher (compareBases_eq_lt_iff.mp hlt), ?_⟩⟩
    refine List.pairwise_iff_forall_sublist.mpr fun {tall tied} hsub hequal htop => ?_
    have htall : tall ∈ regions := hsub.subset List.mem_cons_self
    have htied : tied ∈ regions := hsub.subset (List.mem_cons_of_mem _ List.mem_cons_self)
    rcases Nat.lt_or_eq_of_le (horderly.inside tied htied) with hbelow | htiedTop
    · have hstart := compareBases_eq_eq_iff.mp hequal
      by_contra hother
      exact hnot ⟨tall, tied, hsub, htop, hstart.symm, hbelow, hother⟩
    · exact horderly.oneKind tall htall htop tied htied htiedTop

/-- Unless the order decides, it does not depend on the order of a map whether its canonical form is
usable. -/
theorem usable_canonical_perm (hperm : permuted.Perm regions)
    (hnot : ¬OrderDecides regions permuted) :
    Usable (canonical regions) ↔ Usable (canonical permuted) := by
  have horder : Orderly permuted ↔ Orderly regions :=
    ⟨fun h => h.perm hperm.symm, fun h => h.perm hperm⟩
  rw [usable_canonical_iff, usable_canonical_iff, horder]
  refine and_congr_right fun horderly => not_congr ?_
  by_contra hdiffer
  exact hnot ⟨horderly, (not_iff_comm.mp (not_iff.mp hdiffer)).symm⟩

/-- A map in which a tall region comes first reaches up to some position. -/
theorem TallFirst.isSome_top? (h : TallFirst regions) : (top? regions).isSome = true := by
  obtain ⟨tall, tied, hsub, htop, -⟩ := h
  have hlt := tall.extent.start_lt
  exact isSome_top?_iff.mpr ⟨tall.extent.start, tall, hsub.subset List.mem_cons_self,
    le_refl _, htop ▸ hlt, hlt⟩

/-- An orderly map that has a region with bytes is refused exactly when a tall region comes first. -/
theorem Orderly.adopt_invalid_iff (h : Orderly regions) (hwf : arena.claims.WellFormed)
    (htop : (top? regions).isSome = true) :
    ((adopt regions).run arena).outcome = .failed .invalidParameter ↔ TallFirst regions := by
  have htop' : (top? (canonical regions)).isSome = true := by
    rwa [(sameBytes_canonical regions).isSome_top?]
  have haccepted : Accepted (canonical regions) ↔ ¬TallFirst regions :=
    ⟨fun hacc => (usable_canonical_iff.mp hacc.usable).2,
      fun hnot => ⟨usable_canonical_iff.mpr ⟨h, hnot⟩, htop'⟩⟩
  rw [adopt_failed_iff, withhold_invalid_iff hwf, haccepted, not_not]

/-- With enough free slots, withholding by two maps with the same bytes ends alike when both are
accepted or neither is. -/
theorem withhold_endAlike {a b : List Region} (hwf : arena.claims.WellFormed)
    (hsame : SameBytes a b)
    (ha : arena.claims.size + (2 * a.length + 1) ≤ capacity)
    (hb : arena.claims.size + (2 * b.length + 1) ≤ capacity)
    (haccepted : Accepted a ↔ Accepted b) :
    EndAlike ((withhold a).run arena) ((withhold b).run arena) := by
  by_cases hacc : Accepted a
  · have hacc' := haccepted.mp hacc
    have hcount := a.countP_le_length (p := fun region => !region.extent.isEmpty)
    have hcount' := b.countP_le_length (p := fun region => !region.extent.isEmpty)
    -- Either is done exactly when the same bytes leave some byte free.
    have hdone : (∃ last, (withhold a).Leads arena last) ↔
        ∃ last, (withhold b).Leads arena last := by
      rw [exists_leads_withhold_iff hwf hacc (by omega),
        exists_leads_withhold_iff hwf hacc' (by omega), hsame.withheldBytes_eq]
    rcases outcome_withhold hwf hacc with hfirst | hfirst
    · have hleads := Action.leads_iff.mpr ⟨hfirst, rfl⟩
      obtain ⟨last, hlast⟩ := hdone.mp ⟨_, hleads⟩
      obtain ⟨hsecond, hstate⟩ := Action.leads_iff.mp hlast
      have heq := eq_of_leads_withhold hwf hsame hleads hlast
      exact Or.inr ⟨(), (), hfirst, hsecond, by rw [hstate, heq]⟩
    · rcases outcome_withhold hwf hacc' with hsecond | hsecond
      · obtain ⟨last, hlast⟩ := hdone.mpr ⟨_, Action.leads_iff.mpr ⟨hsecond, rfl⟩⟩
        exact absurd ((Action.leads_iff.mp hlast).1.symm.trans hfirst) (by simp)
      · exact Or.inl ⟨_, hfirst, hsecond⟩
  · exact Or.inl ⟨_, (withhold_invalid_iff hwf).mpr hacc,
      (withhold_invalid_iff hwf).mpr fun h => hacc (haccepted.mpr h)⟩

/-- Adopting two maps ends alike when withholding by their canonical forms does. -/
theorem EndAlike.of_canonical (h : EndAlike ((withhold (canonical regions)).run arena)
    ((withhold (canonical permuted)).run arena)) :
    EndAlike ((adopt regions).run arena) ((adopt permuted).run arena) := by
  rcases h with ⟨failure, hfirst, hsecond⟩ | ⟨_, _, hfirst, hsecond, hclaims⟩
  · exact Or.inl ⟨failure, adopt_failed_iff.mpr hfirst, adopt_failed_iff.mpr hsecond⟩
  · obtain ⟨hdone, hstate⟩ := adopt_done_iff.mpr ⟨rfl, Action.leads_iff.mpr ⟨hfirst, rfl⟩⟩
    obtain ⟨hdone', hstate'⟩ := adopt_done_iff.mpr ⟨rfl, Action.leads_iff.mpr ⟨hsecond, rfl⟩⟩
    exact Or.inr ⟨_, _, hdone, hdone', by rw [hstate, hstate', hclaims]⟩

/-- Adopting a map and adopting it in another order, from the same arena with two free slots for
each region and one more, end alike: both fail in the same way, or both are done and leave the same
claims. The exception is an orderly map in which a region that ends at the top of the address space
comes before a shorter one of another kind with the same base in exactly one of the two orders: then
the map is refused as invalid in that order and not in the other. -/
theorem adopt_perm (hreachable : arena.Reachable) (hperm : permuted.Perm regions)
    (hroom : arena.claims.size + (2 * regions.length + 1) ≤ capacity) :
    (¬OrderDecides regions permuted →
      EndAlike ((adopt regions).run arena) ((adopt permuted).run arena)) ∧
    (OrderDecides regions permuted →
      (((adopt regions).run arena).outcome = .failed .invalidParameter ↔ TallFirst regions) ∧
        (((adopt permuted).run arena).outcome = .failed .invalidParameter ↔
          TallFirst permuted)) := by
  have hwf := hreachable.wellFormed
  refine ⟨fun hnot => ?_, fun ⟨horderly, hfirst⟩ => ?_⟩
  · have hsame : SameBytes (canonical regions) (canonical permuted) :=
      ((sameBytes_canonical regions).trans (.of_perm hperm.symm)).trans
        (sameBytes_canonical permuted).symm
    have husable := usable_canonical_perm hperm hnot
    have htop := hsame.isSome_top?
    have haccepted : Accepted (canonical regions) ↔ Accepted (canonical permuted) :=
      ⟨fun h => ⟨husable.mp h.usable, htop ▸ h.isSome_top?⟩,
        fun h => ⟨husable.mpr h.usable, htop ▸ h.isSome_top?⟩⟩
    have hlength := length_canonical_le regions
    have hlength' := length_canonical_le permuted
    have hcount := hperm.length_eq
    exact (withhold_endAlike hwf hsame (by omega) (by omega) haccepted).of_canonical
  · have htops : (top? permuted).isSome = (top? regions).isSome :=
      (SameBytes.of_perm hperm).isSome_top?
    have htop : (top? regions).isSome = true := by
      by_cases hregions : TallFirst regions
      · exact hregions.isSome_top?
      · have hpermuted : TallFirst permuted := not_not.mp (mt hfirst.mpr hregions)
        rw [← htops]
        exact hpermuted.isSome_top?
    exact ⟨horderly.adopt_invalid_iff hwf htop,
      (horderly.perm hperm).adopt_invalid_iff hwf (htops.trans htop)⟩

/-- Two regions with the same base in either order. The region above them is joined with the
available one of the two only where that comes last, and the claims are the same. When the available
one ends at the top, the map is refused where it comes first, and only there. -/
theorem adopt_perm_sharedBase :
    let arena : Arena 8 := .empty .ofPlatform false
    let available : Region := ⟨⟨0x1000, 0x1000⟩, .available, 1⟩
    let reserved : Region := ⟨⟨0x1000, 0x800⟩, .reserved, 1⟩
    let higher : Region := ⟨⟨0x2000, 0x1000⟩, .available, 1⟩
    let tall : Region := ⟨⟨0x1000, 0xfffffffffffff000⟩, .available, 1⟩
    let first := (adopt [available, reserved, higher]).run arena
    let second := (adopt [higher, reserved, available]).run arena
    (first.outcome = .done [available, reserved, higher] ∧
      second.outcome = .done [reserved, ⟨⟨0x1000, 0x2000⟩, .available, 1⟩] ∧
      first.state.claims = second.state.claims) ∧
    ((adopt [tall, reserved]).run arena).outcome = .failed .invalidParameter ∧
      ((adopt [reserved, tall]).run arena).outcome ≠ .failed .invalidParameter := by
  intro arena available reserved higher tall first second
  have hreachable : arena.Reachable := .start _ _
  constructor
  · have hperm : [higher, reserved, available].Perm [available, reserved, higher] :=
      List.reverse_perm [available, reserved, higher]
    have hnone : ∀ regions : List Region,
        (∀ region ∈ regions, region.extent.stop ≠ addressSpace) → ¬TallFirst regions := by
      rintro regions hbelow ⟨tall, tied, hsub, htop, -⟩
      exact hbelow tall (hsub.subset List.mem_cons_self) htop
    have hnot : ¬OrderDecides [available, reserved, higher] [higher, reserved, available] :=
      fun ⟨_, hfirst⟩ => hnone _ (by decide) (hfirst.mpr (hnone _ (by decide)))
    have hdone : first.outcome = .done [available, reserved, higher] := by decide +kernel
    have hdone' : second.outcome =
        .done [reserved, ⟨⟨0x1000, 0x2000⟩, .available, 1⟩] := by decide +kernel
    refine ⟨hdone, hdone', ?_⟩
    rcases (adopt_perm hreachable hperm (by decide)).1 hnot with
      ⟨_, hfailed, -⟩ | ⟨_, _, -, -, hclaims⟩
    · exact absurd (hdone.symm.trans hfailed) (by simp)
    · exact hclaims
  · have hfirst : TallFirst [tall, reserved] :=
      ⟨tall, reserved, .refl _, by decide, rfl, by decide, by decide⟩
    have hlast : ¬TallFirst [reserved, tall] := by
      rintro ⟨tall', tied, hsub, htop, -⟩
      obtain rfl : tall' = reserved := (List.cons.inj (hsub.eq_of_length rfl)).1
      exact absurd htop (by decide)
    have hdecides : OrderDecides [tall, reserved] [reserved, tall] :=
      ⟨⟨by decide, by decide, by decide⟩, iff_of_true hfirst hlast⟩
    obtain ⟨hrefused, hrefused'⟩ :=
      (adopt_perm hreachable (.swap _ _ _) (by decide)).2 hdecides
    exact ⟨hrefused.mpr hfirst, mt hrefused'.mp hlast⟩

/-- It does depend on the order of a map how its adoption ends: when a region that ends at the top
comes before a reserved one with the same base, the map is refused, and the other way round it is
accepted. -/
theorem not_forall_endAlike :
    ¬∀ (capacity : Nat) (arena : Arena capacity) (regions permuted : List Region),
      arena.Reachable → permuted.Perm regions →
      arena.claims.size + (2 * regions.length + 1) ≤ capacity →
        EndAlike ((adopt regions).run arena) ((adopt permuted).run arena) := by
  intro h
  let tall : Region := ⟨⟨0x1000, 0xfffffffffffff000⟩, .available, 1⟩
  let low : Region := ⟨⟨0x1000, 0x1000⟩, .reserved, 1⟩
  let arena : Arena 8 := .empty .ofPlatform false
  have hfirst : ((adopt [tall, low]).run arena).outcome = .failed .invalidParameter := by
    decide +kernel
  have hsecond : ((adopt [low, tall]).run arena).outcome = .done [low, tall] := by
    decide +kernel
  rcases h 8 arena [tall, low] [low, tall] (.start _ _) (.swap _ _ _) (by decide) with
    ⟨_, -, hfailed⟩ | ⟨_, _, hdone, -⟩
  · exact absurd (hsecond.symm.trans hfailed) (by simp)
  · exact absurd (hfirst.symm.trans hdone) (by simp)

end PhysicalMemory.Firmware
