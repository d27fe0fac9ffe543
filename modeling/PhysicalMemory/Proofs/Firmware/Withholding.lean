import PhysicalMemory.Firmware.Withhold
import PhysicalMemory.Proofs.Arena.Growth
import PhysicalMemory.Proofs.Firmware.Audit
import PhysicalMemory.Proofs.Firmware.Coverage

/-!
# Withholding is exact

The plan that follows from a usable map consists of exactly the bytes that the map does not grant
(`pieceBytes_plan`). Its heart is the sweep over ascending regions, which keeps the greatest stop so
far: a byte lies in a gap exactly when it is at or above that position, below the stop of some
region to come, and in none of them (`mem_sweep`), however the regions nest or overlap. Carrying
the plan out claims the pages around those bytes, no more and no less, and a failure on the way
leaves the pages around some of them claimed (`withhold_claimsWithin`).
-/

namespace PhysicalMemory.Firmware

variable {capacity : Nat} {arena : Arena capacity} {regions : List Region} {region : Region}
  {covered top x : Nat}

/-- The bytes of some pieces of memory. -/
def pieceBytes (pieces : List Withheld) : Set Nat :=
  {x | ∃ piece ∈ pieces, x ∈ Set.Ico piece.extent.start piece.extent.stop}

/-- The bytes of pieces in two lists are the bytes of either. -/
theorem mem_pieceBytes_append {first second : List Withheld} :
    x ∈ pieceBytes (first ++ second) ↔ x ∈ pieceBytes first ∨ x ∈ pieceBytes second := by
  simp only [pieceBytes, Set.mem_ofPred_eq, List.mem_append, or_and_right, exists_or]

/-- No bytes are in no pieces. -/
theorem pieceBytes_nil : pieceBytes [] = ∅ := by
  simp [pieceBytes]

/-- The bytes of the first piece and of the pieces after it. -/
theorem pieceBytes_cons {piece : Withheld} {rest : List Withheld} : pieceBytes (piece :: rest) =
    Set.Ico piece.extent.start piece.extent.stop ∪ pieceBytes rest := by
  ext x
  simp [pieceBytes]

/-- The bytes of one piece. -/
theorem mem_pieceBytes_singleton {piece : Withheld} :
    x ∈ pieceBytes [piece] ↔ piece.extent.start ≤ x ∧ x < piece.extent.stop := by
  simp [pieceBytes]

/-- The gap before a region goes from what is covered to its start. -/
theorem mem_gapBefore :
    x ∈ pieceBytes (gapBefore covered region) ↔ covered ≤ x ∧ x < region.extent.start := by
  have hlt := region.extent.start_lt
  unfold gapBefore
  split
  · obtain ⟨hstart, hstop⟩ :=
      Extent.between_start_stop (by omega : covered < addressSpace)
        (by omega : covered ≤ region.extent.start) (by omega)
    rw [mem_pieceBytes_singleton, hstart, hstop]
  · rw [pieceBytes_nil, Set.mem_empty_iff_false, false_iff]
    omega

/-- A region is withheld unless it is usable memory or the boot loader's. -/
theorem mem_ungranted (hinside : region.extent.stop ≤ addressSpace) :
    x ∈ pieceBytes (ungranted region) ↔
      (region.usage ≠ .available ∧ region.usage ≠ .loader) ∧ x ∈ region.extent := by
  rw [← Usage.isGranted_eq_false_iff]
  unfold ungranted
  split
  · simp [pieceBytes_nil, *]
  · rw [mem_pieceBytes_singleton, Extent.mem_iff_of_inside hinside]
    simp [*]

/-- The memory above a position that is not zero goes from there to the top. -/
theorem mem_aboveTop (hpos : 0 < top) :
    x ∈ pieceBytes (aboveTop top) ↔ top ≤ x ∧ x < addressSpace := by
  unfold aboveTop
  split
  · obtain ⟨hstart, hstop⟩ :=
      Extent.between_start_stop (by omega : top < addressSpace) (by omega : top ≤ addressSpace)
        (by omega)
    rw [mem_pieceBytes_singleton, hstart, hstop]
  · rw [pieceBytes_nil, Set.mem_empty_iff_false, false_iff]
    omega

/-- The sweep over ascending regions withholds the bytes of regions that are neither usable memory
nor the boot loader's, and those at or above what is covered and below the stop of some region that
none of the regions covers. -/
theorem mem_sweep
    (hascending : regions.Pairwise fun earlier later =>
      earlier.extent.start ≤ later.extent.start)
    (hinside : ∀ region ∈ regions, region.extent.stop ≤ addressSpace) :
    x ∈ pieceBytes (sweep covered regions) ↔
      (covered ≤ x ∧ (∃ region ∈ regions, region.extent.isEmpty = false ∧ x < region.extent.stop) ∧
        ∀ region ∈ regions, x ∉ region.extent) ∨
      ∃ region ∈ regions,
        (region.usage ≠ .available ∧ region.usage ≠ .loader) ∧ x ∈ region.extent := by
  induction regions generalizing covered with
  | nil => simp [sweep, pieceBytes_nil]
  | cons region rest ih =>
    obtain ⟨hfirst, hrest⟩ := List.pairwise_cons.mp hascending
    have hstop := hinside region List.mem_cons_self
    have ih := fun covered => @ih covered hrest
      fun r hr => hinside r (List.mem_cons_of_mem _ hr)
    simp only [List.exists_mem_cons_iff, List.forall_mem_cons]
    cases hempty : region.extent.isEmpty with
    | true =>
      have hnot : x ∉ region.extent := Extent.not_mem_of_isEmpty hempty
      simp only [sweep, hempty, if_true, ih, hnot, Bool.true_eq_false, false_and, and_false,
        false_or, not_false_eq_true, true_and]
    | false =>
      have hne := Extent.isEmpty_eq_false_iff.mp hempty
      have hregion := Extent.mem_iff_of_inside (x := x) hstop
      -- A byte below the region's start is below all that come after it, too.
      have hbelow : x < region.extent.start → ∀ r ∈ rest, x ∉ r.extent := by
        intro hlt r hr hmem
        have := hfirst r hr
        rw [Extent.mem_def] at hmem
        omega
      simp only [sweep, hempty, Bool.false_eq_true, if_false, mem_pieceBytes_append,
        mem_gapBefore, mem_ungranted hstop, ih, true_and]
      generalize (∃ r ∈ rest, r.extent.isEmpty = false ∧ x < r.extent.stop) = later at *
      generalize (∀ r ∈ rest, x ∉ r.extent) = uncovered at *
      -- An uncovered byte lies below the region, or above it and below a later one.
      have hgap : (covered ≤ x ∧ x < region.extent.start) ∨
          (max covered region.extent.stop ≤ x ∧ later ∧ uncovered) ↔
          covered ≤ x ∧ (x < region.extent.stop ∨ later) ∧ x ∉ region.extent ∧ uncovered := by
        rw [hregion]
        constructor
        · rintro (⟨hle, hlt⟩ | ⟨hle, hlater, huncovered⟩)
          · exact ⟨hle, Or.inl (by omega), by omega, hbelow hlt⟩
          · exact ⟨by omega, Or.inr hlater, by omega, huncovered⟩
        · rintro ⟨hle, hstop | hlater, hnot, huncovered⟩
          · exact Or.inl ⟨hle, by omega⟩
          · by_cases hlt : x < region.extent.start
            · exact Or.inl ⟨hle, hlt⟩
            · exact Or.inr ⟨by omega, hlater, huncovered⟩
      rw [or_or_or_comm, hgap]

/-- The position that a map reaches up to is the greatest stop of its regions with bytes. -/
theorem top?_eq_some_iff : top? regions = some top ↔
    (∃ region ∈ regions, region.extent.isEmpty = false ∧ region.extent.stop = top) ∧
      ∀ region ∈ regions, region.extent.isEmpty = false → region.extent.stop ≤ top := by
  rw [top?, List.max?_eq_some_iff]
  simp only [List.mem_map, List.mem_filter, Bool.not_eq_true', forall_exists_index, and_imp,
    and_assoc]
  refine and_congr_right fun _ => ⟨fun h region hregion hne => h _ region hregion hne rfl, ?_⟩
  rintro h _ region hregion hne rfl
  exact h region hregion hne

/-- The plan that follows from a usable map is exactly the bytes that the map does not grant. -/
theorem pieceBytes_plan (husable : Usable regions) (htop : top? regions = some top) :
    pieceBytes (plan top regions) = withheldBytes regions := by
  obtain ⟨⟨highest, hhighest, hne, rfl⟩, hle⟩ := top?_eq_some_iff.mp htop
  have hpos : 0 < highest.extent.stop := by
    have := Extent.isEmpty_eq_false_iff.mp hne
    omega
  ext x
  rw [plan, mem_pieceBytes_append, mem_aboveTop hpos, mem_sweep husable.ascending husable.inside,
    withheldBytes, Set.mem_ofPred_eq, not_grants_iff]
  constructor
  · rintro (⟨habove, hlt⟩ | ⟨-, ⟨region, hregion, hempty, hlt⟩, hnone⟩ |
      ⟨region, hregion, hgranted, hmem⟩)
    · -- Regions with bytes stop at or below the highest stop, and the others have no bytes.
      refine ⟨hlt, Or.inl fun region hregion hmem => ?_⟩
      cases hempty : region.extent.isEmpty with
      | true => exact Extent.not_mem_of_isEmpty hempty hmem
      | false =>
        have := hle region hregion hempty
        rw [Extent.mem_def] at hmem
        omega
    · have := husable.inside region hregion
      exact ⟨by omega, Or.inl hnone⟩
    · exact ⟨hmem.2.2, Or.inr ⟨region, hregion, hgranted, hmem⟩⟩
  · rintro ⟨hlt, hnone | hungranted⟩
    · -- What no region covers is above the highest stop or in a gap below it.
      by_cases habove : highest.extent.stop ≤ x
      · exact Or.inl ⟨habove, hlt⟩
      · exact Or.inr (Or.inl ⟨Nat.zero_le x, ⟨highest, hhighest, hne, by omega⟩, hnone⟩)
    · exact Or.inr (Or.inr hungranted)

/-- The pieces of the boot loader hold all of its bytes. -/
theorem loaderBytes_subset : loaderBytes regions ⊆ pieceBytes (loaderPieces regions) := by
  rintro x ⟨region, hregion, husage, hmem⟩
  refine ⟨⟨region.extent, .loader⟩, ?_, hmem.1, hmem.2.1⟩
  have hne : region.extent.isEmpty = false := by
    by_contra hempty
    exact Extent.not_mem_of_isEmpty (Bool.not_eq_false _ ▸ hempty) hmem
  rw [loaderPieces, List.mem_map]
  exact ⟨region, by simp [hregion, husage, hne], rfl⟩

/-- Withholding a piece claims the pages around it at once. -/
theorem withholdPiece_claimsAtOnce (hwf : arena.claims.WellFormed) (piece : Withheld) :
    arena.ClaimsAtOnce
      (fun _ => arena.page.around (Set.Ico piece.extent.start piece.extent.stop))
      ((withholdPiece piece).run arena) := by
  rw [withholdPiece, Action.run_bind, Action.run_emit, Report.andThen_done]
  exact (Arena.reserve_claimsAtOnce hwf piece.extent).after _

/-- Withholding pieces one after the other claims the pages around them. -/
theorem forEach_withholdPiece (hwf : arena.claims.WellFormed) (pieces : List Withheld) :
    arena.ClaimsWithin (arena.page.around (pieceBytes pieces))
      ((Action.forEach pieces withholdPiece).run arena) := by
  induction pieces generalizing arena with
  | nil =>
    refine .done ?_
    rw [pieceBytes_nil, PageSize.around_empty]
    exact .refl hwf
  | cons piece rest ih =>
    rw [Action.forEach, Action.run_bind, pieceBytes_cons, PageSize.around_union]
    generalize hreport : (withholdPiece piece).run arena = report
    cases hreport ▸ withholdPiece_claimsAtOnce hwf piece with
    | failed => exact .unchanged hwf
    | done hgrows =>
      rw [Report.andThen_done]
      -- The rest is withheld on the arena that has grown, whose pages are the same.
      have hrest := ih hgrows.wellFormed
      rw [hgrows.page_eq] at hrest
      exact (hrest.of_grows hgrows).after _

/-- A map that is not refused as invalid: it is usable and describes some memory. -/
structure Accepted (regions : List Region) : Prop where
  /-- The audit of the map finds nothing fatal. -/
  usable : Usable regions
  /-- The map reaches up to some position. -/
  isSome_top? : (top? regions).isSome = true

/-- How withholding ends: the map is not accepted, and it is refused and the arena left alone; or
the map is usable, reaches up to some position and its plan is carried out. -/
theorem withhold_cases (arena : Arena capacity) (regions : List Region) :
    (¬Accepted regions ∧
      ∃ log, (withhold regions).run arena = ⟨.failed .invalidParameter, arena, log⟩) ∨
    Usable regions ∧ ∃ top, top? regions = some top ∧ ∃ events,
      (withhold regions).run arena =
        (((Action.forEach (plan top regions) withholdPiece).run arena).andThen fun _ => do
          let arena ← get
          Action.emit (.withheld arena.claims.size arena.claims.byteCount)).after events := by
  rw [withhold, Action.run_bind, run_audit]
  cases hfatal : (findings regions).any Finding.isFatal with
  | true =>
    have hunusable : ¬Usable regions := by
      rw [← any_isFatal_findings, hfatal]
      simp
    exact Or.inl ⟨fun h => hunusable h.usable, _, rfl⟩
  | false =>
    rw [if_neg (by simp), Report.andThen_done]
    cases htop : top? regions with
    | none => exact Or.inl ⟨fun h => by simpa [htop] using h.isSome_top?, _, rfl⟩
    | some top => exact Or.inr ⟨any_isFatal_findings.mp hfatal, top, rfl, _, rfl⟩

/-- Withholding by a map claims the pages around the bytes that the map does not grant. -/
theorem withhold_claimsWithin (hwf : arena.claims.WellFormed) (regions : List Region) :
    arena.ClaimsWithin (arena.page.around (withheldBytes regions))
      ((withhold regions).run arena) := by
  rcases withhold_cases arena regions with ⟨-, log, hrun⟩ | ⟨husable, top, htop, events, hrun⟩
  · rw [hrun]
    exact .unchanged hwf
  · rw [hrun, ← pieceBytes_plan husable htop]
    refine ((forEach_withholdPiece hwf (plan top regions)).andThen ?_).after events
    exact fun _ state => ⟨_, _, rfl⟩

/-- Withholding the boot loader's memory claims the pages around its pieces. -/
theorem withholdLoader_claimsWithin (hwf : arena.claims.WellFormed) (regions : List Region) :
    arena.ClaimsWithin (arena.page.around (pieceBytes (loaderPieces regions)))
      ((withholdLoader regions).run arena) :=
  forEach_withholdPiece hwf (loaderPieces regions)

/-- When withholding the boot loader's memory is done, all of its bytes are claimed. -/
theorem mem_claims_of_mem_loaderBytes (hwf : arena.claims.WellFormed) {value : Unit}
    (hdone : ((withholdLoader regions).run arena).outcome = .done value)
    (hx : x ∈ loaderBytes regions) : x ∈ ((withholdLoader regions).run arena).state.claims := by
  rw [((withholdLoader_claimsWithin hwf regions).grows_of_done hdone).mem_iff]
  exact Or.inr (arena.page.subset_around _ (loaderBytes_subset hx))

/-- Adopting a map claims the pages around the bytes that the map does not grant: the canonical
form grants the same bytes. -/
theorem adopt_claimsWithin (hwf : arena.claims.WellFormed) (regions : List Region) :
    arena.ClaimsWithin (arena.page.around (withheldBytes regions))
      ((adopt regions).run arena) := by
  rw [adopt, Action.run_bind, run_coalesce, Report.andThen_done, Action.run_bind,
    ← (sameBytes_canonical regions).withheldBytes_eq]
  refine ((withhold_claimsWithin hwf (canonical regions)).andThen ?_).after _
  exact fun _ state => ⟨_, _, rfl⟩

end PhysicalMemory.Firmware
