import PhysicalMemory.Proofs.Arena.Reservation
import PhysicalMemory.Proofs.Firmware.Withholding

/-!
# Carrying out a plan

Pieces of memory are withheld one after the other, and `Withholds` says that all of them are and
where that leads. With a free slot for each piece it depends on their bytes alone: it is done
exactly when the claims and the pages around those bytes leave some byte free
(`exists_withholds_iff`). A memory map that is not accepted is refused as invalid; otherwise its
plan is carried out, and that is done or fails for want of resources (`outcome_withhold`).
-/

namespace PhysicalMemory.Firmware

variable {capacity : Nat} {arena next last : Arena capacity} {regions : List Region}
  {piece : Withheld} {pieces rest : List Withheld} {top covered : Nat}

/-- Withholding some pieces one after the other is done on the first arena and leaves the last. -/
def Withholds (pieces : List Withheld) (arena last : Arena capacity) : Prop :=
  (Action.forEach pieces withholdPiece).Leads arena last

/-- Withholding a piece leads where its reservation does. -/
theorem leads_withholdPiece :
    (withholdPiece piece).Leads arena next ↔ (Arena.reserve piece.extent).Leads arena next := by
  rw [withholdPiece, Action.leads_bind]
  simp [Action.leads_iff]

/-- Withholding no piece leads nowhere else. -/
theorem withholds_nil : Withholds [] arena last ↔ arena = last := Action.leads_forEach_nil

/-- Withholding pieces leads through the arena that the reservation of the first of them leaves. -/
theorem withholds_cons : Withholds (piece :: rest) arena last ↔
    ∃ next, (Arena.reserve piece.extent).Leads arena next ∧ Withholds rest next last := by
  simp only [Withholds, Action.leads_forEach_cons, leads_withholdPiece]

/-- Withholding pieces leads through the arena that withholding any front of them leaves. -/
theorem withholds_append {front back : List Withheld} : Withholds (front ++ back) arena last ↔
    ∃ next, Withholds front arena next ∧ Withholds back next last :=
  Action.leads_forEach_append

/-- When pieces are withheld, the arena grows by the pages around their bytes. -/
theorem Withholds.grows (hwf : arena.claims.WellFormed) (h : Withholds pieces arena last) :
    arena.Grows last (arena.page.around (pieceBytes pieces)) := by
  obtain ⟨hdone, rfl⟩ := Action.leads_iff.mp h
  exact (forEach_withholdPiece hwf pieces).grows_of_done hdone

/-- Withholding pieces changes nothing but the claim table. -/
theorem Withholds.eq_with_claims (hwf : arena.claims.WellFormed)
    (h : Withholds pieces arena last) : last = { arena with claims := last.claims } := by
  induction pieces generalizing arena with
  | nil =>
    obtain rfl := withholds_nil.mp h
    rfl
  | cons piece rest ih =>
    obtain ⟨next, hfirst, hrest⟩ := withholds_cons.mp h
    have hnext := (Arena.eq_of_leads_reserve hwf hfirst).1
    rw [ih (Arena.Grows.of_leads_reserve hwf hfirst).wellFormed hrest, hnext]

/-- Withholding pieces leads to the same arena as withholding others around the same bytes. -/
theorem Withholds.eq_of_bytes {others : List Withheld} {other : Arena capacity}
    (hwf : arena.claims.WellFormed) (h : Withholds pieces arena last)
    (h' : Withholds others arena other)
    (hbytes : arena.page.around (pieceBytes pieces) = arena.page.around (pieceBytes others)) :
    last = other := by
  have hgrows := h.grows hwf
  have hgrows' := h'.grows hwf
  have hclaims : last.claims = other.claims :=
    hgrows.wellFormed.ext hgrows'.wellFormed fun x => by
      rw [hgrows.mem_iff, hgrows'.mem_iff, hbytes]
  rw [h.eq_with_claims hwf, h'.eq_with_claims hwf, hclaims]

/-- When pieces are withheld, the claims and the pages around their bytes leave some byte free. -/
theorem Withholds.exists_free (hwf : arena.claims.WellFormed) (h : Withholds pieces arena last) :
    ∃ x < addressSpace, x ∉ arena.claims ∧ x ∉ arena.page.around (pieceBytes pieces) := by
  have hgrows := h.grows hwf
  obtain ⟨x, hx, hfree⟩ := hgrows.wellFormed.exists_not_mem
  rw [hgrows.mem_iff, not_or] at hfree
  exact ⟨x, hx, hfree⟩

/-- With as many free slots as pieces, all inside the address space, they are withheld exactly when
the claims and the pages around their bytes leave some byte free. -/
theorem exists_withholds_iff (hwf : arena.claims.WellFormed)
    (hinside : ∀ piece ∈ pieces, piece.extent.stop ≤ addressSpace)
    (hroom : arena.claims.size + pieces.length ≤ capacity) :
    (∃ last, Withholds pieces arena last) ↔
      ∃ x < addressSpace, x ∉ arena.claims ∧ x ∉ arena.page.around (pieceBytes pieces) := by
  constructor
  · rintro ⟨last, h⟩
    exact h.exists_free hwf
  · rintro ⟨x, hx, hclaims, hfree⟩
    -- What is kept up: there is a free slot for each piece to come, and the byte is still free.
    let ready (left : Nat) (state : Arena capacity) : Prop :=
      state.page = arena.page ∧ state.claims.WellFormed ∧
        state.claims.size + left ≤ capacity ∧ x ∉ state.claims
    have hfirst : ready pieces.length arena := ⟨rfl, hwf, hroom, hclaims⟩
    refine Action.exists_leads_forEach (fun piece hpiece left state hready => ?_) hfirst
    obtain ⟨hpage, hstate, hsize, hstill⟩ := hready
    have hnot : x ∉ state.page.around (Set.Ico piece.extent.start piece.extent.stop) := by
      rw [hpage]
      rintro ⟨y, hy, hindex⟩
      exact hfree ⟨y, ⟨piece, hpiece, hy⟩, hindex⟩
    have hreserve : ∃ next, (Arena.reserve piece.extent).Leads state next := by
      cases hempty : piece.extent.isEmpty with
      | true => exact ⟨state, (Arena.leads_reserve_of_isEmpty hempty).mpr rfl⟩
      | false =>
        exact (Arena.exists_leads_reserve_iff hstate hempty).mpr
          ⟨hinside piece hpiece, ⟨x, hx, hstill, hnot⟩, fun _ _ => Or.inl (by omega)⟩
    obtain ⟨next, hnext⟩ := hreserve
    have hgrows := Arena.Grows.of_leads_reserve hstate hnext
    have hle := (Arena.eq_of_leads_reserve hstate hnext).2
    refine ⟨next, leads_withholdPiece.mpr hnext, hgrows.page_eq.trans hpage, hgrows.wellFormed,
      by omega, ?_⟩
    rw [hgrows.mem_iff, not_or]
    exact ⟨hstill, hnot⟩

/-- Pieces that are not all withheld make it fail for want of resources. -/
theorem outcome_forEach_withholdPiece (hwf : arena.claims.WellFormed) (pieces : List Withheld) :
    ((Action.forEach pieces withholdPiece).run arena).outcome = .done () ∨
      ((Action.forEach pieces withholdPiece).run arena).outcome = .failed .outOfResources := by
  induction pieces generalizing arena with
  | nil => exact Or.inl rfl
  | cons piece rest ih =>
    have hpiece := Arena.outcome_reserve hwf piece.extent
    have hnext : ∀ next, (Arena.reserve piece.extent).Leads arena next → next.claims.WellFormed :=
      fun _ h => (Arena.Grows.of_leads_reserve hwf h).wellFormed
    rw [Action.forEach, Action.run_bind, withholdPiece, Action.run_bind, Action.run_emit,
      Report.andThen_done]
    simp only [Action.leads_iff] at hnext
    generalize (Arena.reserve piece.extent).run arena = report at *
    obtain ⟨outcome, state, log⟩ := report
    obtain (rfl : outcome = _) | (rfl : outcome = _) := hpiece
    · exact ih (hnext state ⟨rfl, rfl⟩)
    · exact Or.inr rfl

/-- The pieces of a usable map's plan lie inside the address space. -/
theorem stop_le_of_mem_plan (husable : Usable regions) (htop : top? regions = some top)
    (hpiece : piece ∈ plan top regions) : piece.extent.stop ≤ addressSpace := by
  by_contra hpast
  -- Otherwise the position above the last address would be withheld.
  have hmem : addressSpace ∈ pieceBytes (plan top regions) :=
    ⟨piece, hpiece, Nat.le_of_lt piece.extent.start_lt, Nat.not_le.mp hpast⟩
  rw [pieceBytes_plan husable htop] at hmem
  exact Nat.lt_irrefl _ hmem.1

/-- The sweep passes an empty region over. -/
theorem sweep_cons_of_isEmpty {region : Region} {others : List Region}
    (hempty : region.extent.isEmpty = true) :
    sweep covered (region :: others) = sweep covered others := by
  simp [sweep, hempty]

/-- The sweep withholds the gap before a region with bytes and the region itself, and goes on. -/
theorem sweep_cons {region : Region} {others : List Region}
    (hne : region.extent.isEmpty = false) :
    sweep covered (region :: others) =
      gapBefore covered region ++ ungranted region ++
        sweep (max covered region.extent.stop) others := by
  simp [sweep, hne]

/-- The sweep makes at most two pieces of each region that is not empty. -/
theorem length_sweep_le (covered : Nat) (regions : List Region) :
    (sweep covered regions).length ≤
      2 * regions.countP fun region => !region.extent.isEmpty := by
  induction regions generalizing covered with
  | nil => simp [sweep]
  | cons region rest ih =>
    cases hempty : region.extent.isEmpty with
    | true => simpa [sweep_cons_of_isEmpty hempty, hempty] using ih covered
    | false =>
      have hgap : (gapBefore covered region).length ≤ 1 := by
        unfold gapBefore
        split <;> simp
      have hungranted : (ungranted region).length ≤ 1 := by
        unfold ungranted
        split <;> simp
      have hrest := ih (max covered region.extent.stop)
      rw [sweep_cons hempty, List.length_append, List.length_append,
        List.countP_cons_of_pos (by simp [hempty])]
      omega

/-- A plan has one piece at most beside two for each region that is not empty. -/
theorem length_plan_le (top : Nat) (regions : List Region) :
    (plan top regions).length ≤
      2 * (regions.countP fun region => !region.extent.isEmpty) + 1 := by
  have hsweep := length_sweep_le 0 regions
  have habove : (aboveTop top).length ≤ 1 := by
    unfold aboveTop
    split <;> simp
  rw [plan, List.length_append]
  omega

/-- A map reaches up to some position exactly when one of its regions has bytes. -/
theorem isSome_top?_iff :
    (top? regions).isSome = true ↔ ∃ x, ∃ region ∈ regions, x ∈ region.extent := by
  have hsome : (top? regions).isSome = true ↔
      ∃ region ∈ regions, region.extent.isEmpty = false := by
    rw [top?, List.isSome_max?_iff, ne_eq, List.map_eq_nil_iff, List.filter_eq_nil_iff]
    simp
  rw [hsome]
  constructor
  · rintro ⟨region, hregion, hne⟩
    have hlt := Extent.isEmpty_eq_false_iff.mp hne
    exact ⟨region.extent.start, region, hregion, le_refl _, hlt, region.extent.start_lt⟩
  · rintro ⟨x, region, hregion, hmem⟩
    have hlt : region.extent.start < region.extent.stop := Nat.lt_of_le_of_lt hmem.1 hmem.2.1
    exact ⟨region, hregion, Extent.isEmpty_eq_false_iff.mpr hlt⟩

/-- Maps with the same bytes both have a region with bytes or both have none. -/
theorem SameBytes.isSome_top? {a b : List Region} (h : SameBytes a b) :
    (top? a).isSome = (top? b).isSome := by
  have hcovered := fun x => h.exists_usage_iff (x := x) fun _ => True
  simp only [true_and] at hcovered
  rw [Bool.eq_iff_iff, isSome_top?_iff, isSome_top?_iff]
  simp only [hcovered]

/-- Withholding by a map is done exactly when the map is usable, describes some memory, and the
pieces of its plan are withheld. -/
theorem leads_withhold_iff : (withhold regions).Leads arena last ↔
    Usable regions ∧ ∃ top, top? regions = some top ∧ Withholds (plan top regions) arena last := by
  rcases withhold_cases arena regions with ⟨hnot, log, hrun⟩ | ⟨husable, top, htop, events, hrun⟩
  · rw [Action.leads_iff, hrun]
    constructor
    · rintro ⟨hdone, -⟩
      exact absurd hdone (by simp)
    · rintro ⟨husable, top, htop, -⟩
      exact absurd ⟨husable, by rw [htop]; rfl⟩ hnot
  · have hafter : (withhold regions).Leads arena last ↔
        Withholds (plan top regions) arena last := by
      rw [Withholds, Action.leads_iff, Action.leads_iff, hrun]
      obtain ⟨outcome, state, log⟩ := (Action.forEach (plan top regions) withholdPiece).run arena
      cases outcome <;> simp
    rw [hafter]
    constructor
    · exact fun h => ⟨husable, top, htop, h⟩
    · rintro ⟨-, other, hother, h⟩
      rwa [← Option.some.inj (hother.symm.trans htop)]

/-- Withholding by an accepted map is done, or it fails for want of resources. -/
theorem outcome_withhold (hwf : arena.claims.WellFormed) (haccepted : Accepted regions) :
    ((withhold regions).run arena).outcome = .done () ∨
      ((withhold regions).run arena).outcome = .failed .outOfResources := by
  rcases withhold_cases arena regions with ⟨hnot, -⟩ | ⟨-, top, -, events, hrun⟩
  · exact absurd haccepted hnot
  · rw [hrun]
    have hpieces := outcome_forEach_withholdPiece hwf (plan top regions)
    generalize (Action.forEach (plan top regions) withholdPiece).run arena = report at *
    obtain ⟨outcome, state, log⟩ := report
    obtain (rfl : outcome = _) | (rfl : outcome = _) := hpieces
    · exact Or.inl rfl
    · exact Or.inr rfl

/-- Withholding by a map fails as invalid exactly when the map is not accepted. -/
theorem withhold_invalid_iff (hwf : arena.claims.WellFormed) :
    ((withhold regions).run arena).outcome = .failed .invalidParameter ↔ ¬Accepted regions := by
  constructor
  · intro hfailed haccepted
    rcases outcome_withhold hwf haccepted with h | h
    · exact absurd (hfailed.symm.trans h) (by simp)
    · exact absurd (hfailed.symm.trans h) (by simp)
  · intro hnot
    rcases withhold_cases arena regions with ⟨-, log, hrun⟩ | ⟨husable, top, htop, -⟩
    · rw [hrun]
    · exact absurd ⟨husable, by rw [htop]; rfl⟩ hnot

/-- With two free slots for each region that is not empty and one more, withholding by an accepted
map is done exactly when the claims and the pages around the bytes that the map does not grant leave
some byte free. -/
theorem exists_leads_withhold_iff (hwf : arena.claims.WellFormed) (haccepted : Accepted regions)
    (hroom : arena.claims.size +
      (2 * (regions.countP fun region => !region.extent.isEmpty) + 1) ≤ capacity) :
    (∃ last, (withhold regions).Leads arena last) ↔
      ∃ x < addressSpace, x ∉ arena.claims ∧ x ∉ arena.page.around (withheldBytes regions) := by
  obtain ⟨husable, hsome⟩ := haccepted
  obtain ⟨top, htop⟩ := Option.isSome_iff_exists.mp hsome
  have hlength := length_plan_le top regions
  rw [← pieceBytes_plan husable htop, ← exists_withholds_iff hwf
    (fun piece hpiece => stop_le_of_mem_plan husable htop hpiece) (by omega)]
  simp only [leads_withhold_iff, husable, htop, Option.some.injEq, exists_eq_left', true_and]

/-- Withholding by maps with the same bytes leads to the same arena. -/
theorem eq_of_leads_withhold {a b : List Region} {other : Arena capacity}
    (hwf : arena.claims.WellFormed) (hsame : SameBytes a b) (ha : (withhold a).Leads arena last)
    (hb : (withhold b).Leads arena other) : last = other := by
  obtain ⟨husable, top, htop, hplan⟩ := leads_withhold_iff.mp ha
  obtain ⟨husable', top', htop', hplan'⟩ := leads_withhold_iff.mp hb
  refine hplan.eq_of_bytes hwf hplan' ?_
  rw [pieceBytes_plan husable htop, pieceBytes_plan husable' htop', hsame.withheldBytes_eq]

/-- Adopting a map withholds by its canonical form and gives that back. -/
theorem run_adopt (regions : List Region) (arena : Arena capacity) :
    ∃ events, (adopt regions).run arena =
      (((withhold (canonical regions)).run arena).andThen fun _ => pure (canonical regions)).after
        events := by
  rw [adopt, Action.run_bind, run_coalesce, Report.andThen_done]
  exact ⟨_, rfl⟩

/-- Adopting a map is done exactly when withholding by its canonical form is, which it gives
back. -/
theorem adopt_done_iff {map : List Region} :
    ((adopt regions).run arena).outcome = .done map ∧ ((adopt regions).run arena).state = last ↔
      canonical regions = map ∧ (withhold (canonical regions)).Leads arena last := by
  obtain ⟨events, hrun⟩ := run_adopt regions arena
  rw [hrun, Action.leads_iff]
  obtain ⟨outcome, state, log⟩ := (withhold (canonical regions)).run arena
  cases outcome <;> simp

/-- Adopting a map fails as withholding by its canonical form does. -/
theorem adopt_failed_iff {failure : Failure} :
    ((adopt regions).run arena).outcome = .failed failure ↔
      ((withhold (canonical regions)).run arena).outcome = .failed failure := by
  obtain ⟨events, hrun⟩ := run_adopt regions arena
  rw [hrun]
  obtain ⟨outcome, state, log⟩ := (withhold (canonical regions)).run arena
  cases outcome <;> simp

end PhysicalMemory.Firmware
