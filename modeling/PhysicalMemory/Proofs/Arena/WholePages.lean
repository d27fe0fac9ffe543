import PhysicalMemory.Proofs.Claims.Joining
import PhysicalMemory.Proofs.Firmware.Plans

/-!
# Reservations are made in whole pages

A reservation claims all pages that meet its extent, or it fails and claims nothing. The pages run
from the floor of the start to the ceiling of the stop, which may be the top of the address space.
When they are the whole of it they are not even an extent, and when they complete it their insertion
is refused; to a caller both are one obstacle, that no byte would be left free (`reserve_done_iff`).

An insertion makes no new bounds, so a table whose entries start and stop at the bounds of pages
keeps that form through every reservation, joined with others or not, and through a memory map that
is withheld in part (`perform_keeps_wholePages`).
-/

namespace PhysicalMemory

open Firmware

/-- The operation claims memory by reservations only. -/
def Operation.isReserving : Operation → Bool
  | .reserve _ => true
  | .withhold _ => true
  | .withholdLoader _ => true
  | .adopt _ => true
  | _ => false

namespace Arena

variable {capacity : Nat} {arena : Arena capacity} {extent : Extent} {page : PageSize}

/-- When the pages around an extent are an extent, there is a slot for them when one is free or an
entry reaches them. -/
theorem hasSlotFor_widen_iff {pages : Extent} (hpages : arena.page.widen? extent = some pages) :
    arena.claims.HasSlotFor pages ↔ arena.claims.size < capacity ∨
      ∃ entry ∈ arena.claims.entries, arena.page.firstOf extent ≤ entry.stop ∧
        entry.start ≤ arena.page.lastOf extent := by
  obtain ⟨hstart, hstop⟩ := PageSize.widen?_start_stop hpages
  simp only [Claims.HasSlotFor, Extent.meets_iff, hstart, hstop]

/-- A reservation of some bytes is done exactly when they lie inside the address space, some byte is
neither claimed nor in the pages around them, and one slot is free or an entry overlaps or touches
these pages. -/
theorem reserve_done_iff (hwf : arena.claims.WellFormed) (hne : extent.isEmpty = false) :
    ((reserve extent).run arena).outcome = .done () ↔ extent.stop ≤ addressSpace ∧
      (∃ x < addressSpace, x ∉ arena.claims ∧
        x ∉ arena.page.around (Set.Ico extent.start extent.stop)) ∧
      (arena.claims.size < capacity ∨ ∃ entry ∈ arena.claims.entries,
        arena.page.firstOf extent ≤ entry.stop ∧ entry.start ≤ arena.page.lastOf extent) := by
  have hleads : ((reserve extent).run arena).outcome = .done () ↔
      ∃ next, (reserve extent).Leads arena next := by
    simp only [Action.leads_iff, exists_and_left, exists_eq', and_true]
  rw [hleads, exists_leads_reserve_iff hwf hne]
  refine and_congr_right fun hinside => and_congr_right fun ⟨x, hx, _, hfree⟩ => ?_
  -- A byte is free of the pages, so they are an extent.
  obtain ⟨pages, hpages⟩ := PageSize.exists_widen?_eq_some
    (Extent.isEmpty_eq_false_iff.mp hne) hinside hx hfree
  rw [← hasSlotFor_widen_iff hpages]
  refine ⟨fun h => h pages hpages, fun hslot other hother => ?_⟩
  rwa [← Option.some.inj (hpages.symm.trans hother)]

/-- The claims of an arena are in whole pages of some size: its own pages have that size, and every
entry starts and stops at a multiple of it. -/
structure InWholePages (page : PageSize) (arena : Arena capacity) : Prop where
  /-- The pages of the arena have the size. -/
  page_eq : arena.page = page
  /-- The claim table is well formed. -/
  wellFormed : arena.claims.WellFormed
  /-- The entries start and stop at the bounds of pages. -/
  bounds : ∀ entry ∈ arena.claims.entries,
    page.bytes.toNat ∣ entry.start ∧ page.bytes.toNat ∣ entry.stop

/-- An arena without claims has its claims in whole pages. -/
theorem inWholePages_empty (page : PageSize) (watchful : Bool) :
    (empty page watchful : Arena capacity).InWholePages page :=
  ⟨rfl, Claims.wellFormed_empty, by simp [empty, Claims.empty]⟩

/-- A reservation keeps the claims in whole pages. -/
theorem reserve_keeps_wholePages (extent : Extent) :
    (reserve extent : Action (Arena capacity) Unit).Keeps (InWholePages page) := by
  rintro arena ⟨rfl, hwf, hbounds⟩
  cases hempty : extent.isEmpty with
  | true =>
    rw [reserve, if_pos hempty]
    exact ⟨rfl, hwf, hbounds⟩
  | false =>
    rcases reserve_cases hwf hempty with
      ⟨pages, claims, log, hinside, hpages, hinsert, hrun⟩ | ⟨⟨log, hrun⟩, -⟩
    · rw [hrun]
      refine ⟨rfl, hwf.insert hinsert, fun entry hentry => ?_⟩
      obtain ⟨hstart, hstop⟩ := PageSize.widen?_start_stop hpages
      obtain ⟨hlt, -, -⟩ :=
        PageSize.widen?_eq_some (Extent.isEmpty_eq_false_iff.mp hempty) hinside hpages
      -- The pages begin and end at multiples, and so does every entry from before.
      have hpieces : ∀ piece ∈ pages :: arena.claims.entries,
          arena.page.bytes.toNat ∣ piece.start ∧ arena.page.bytes.toNat ∣ piece.stop := by
        refine List.forall_mem_cons.mpr ⟨?_, hbounds⟩
        rw [hstart, hstop]
        exact ⟨dvd_floorTo _ _, dvd_ceilingTo _ _⟩
      obtain ⟨⟨first, hfirst, hfirstEq⟩, last, hlast, hlastEq⟩ :=
        hwf.exists_bounds_of_mem_insert (Extent.isEmpty_eq_false_iff.mpr hlt) hinsert hentry
      rw [← hfirstEq, ← hlastEq]
      exact ⟨(hpieces first hfirst).1, (hpieces last hlast).2⟩
    · rw [hrun]
      exact ⟨rfl, hwf, hbounds⟩

/-- Withholding pieces of memory one after the other keeps the claims in whole pages. -/
theorem forEach_withholdPiece_keeps_wholePages (pieces : List Withheld) :
    (Action.forEach pieces withholdPiece : Action (Arena capacity) Unit).Keeps
      (InWholePages page) :=
  .forEach fun piece _ =>
    (Action.Keeps.of_state_eq fun _ => rfl).bind fun _ => reserve_keeps_wholePages piece.extent

/-- Withholding by a map keeps the claims in whole pages, also when it stops half way. -/
theorem withhold_keeps_wholePages (regions : List Region) :
    (withhold regions : Action (Arena capacity) Unit).Keeps (InWholePages page) := by
  intro arena h
  rcases withhold_cases arena regions with ⟨-, log, hrun⟩ | ⟨-, top, -, events, hrun⟩
  · rw [hrun]
    exact h
  · rw [hrun]
    exact (forEach_withholdPiece_keeps_wholePages (plan top regions)).bind
      (fun _ => .of_state_eq fun _ => rfl) arena h

/-- Adopting a map keeps the claims in whole pages. -/
theorem adopt_keeps_wholePages (regions : List Region) :
    (adopt regions : Action (Arena capacity) (List Region)).Keeps (InWholePages page) := by
  intro arena h
  obtain ⟨events, hrun⟩ := run_adopt regions arena
  rw [hrun]
  exact (withhold_keeps_wholePages (canonical regions)).bind
    (fun _ => .of_state_eq fun _ => rfl) arena h

/-- An operation that claims memory by reservations only keeps the claims in whole pages. -/
theorem perform_keeps_wholePages {operation : Operation}
    (hreserving : operation.isReserving = true) :
    (operation.perform : Action (Arena capacity) Reply).Keeps (InWholePages page) := by
  cases operation with
  | reserve extent =>
    exact (reserve_keeps_wholePages extent).bind fun _ => .of_state_eq fun _ => rfl
  | withhold regions =>
    exact (withhold_keeps_wholePages regions).bind fun _ => .of_state_eq fun _ => rfl
  | withholdLoader regions =>
    exact (forEach_withholdPiece_keeps_wholePages (loaderPieces regions)).bind
      fun _ => .of_state_eq fun _ => rfl
  | adopt regions => exact (adopt_keeps_wholePages regions).map _
  | _ => exact absurd hreserving (by simp [Operation.isReserving])

/-- A run of operations that claim memory by reservations only keeps the claims in whole pages. -/
theorem InWholePages.afterRun {operations : List Operation} (h : arena.InWholePages page)
    (hreserving : ∀ operation ∈ operations, operation.isReserving = true) :
    (arena.afterRun operations).InWholePages page := by
  induction operations generalizing arena with
  | nil => exact h
  | cons operation rest ih =>
    exact ih (perform_keeps_wholePages (hreserving operation List.mem_cons_self) arena h)
      fun o ho => hreserving o (List.mem_cons_of_mem _ ho)

/-- A reservation is exact, and reservations keep the claims in whole pages. On a reachable arena, a
reservation of some bytes is done exactly when they lie inside the address space, some byte is
neither claimed nor in the pages around them, and one slot is free or an entry overlaps or touches
these pages. When it is done, exactly the pages are added to the claimed bytes; when it is not,
resources have run out and nothing has changed. In every run from an empty arena that claims memory
by reservations only, every entry starts and stops at a multiple of the page size. -/
theorem reserve_exact :
    (∀ (arena : Arena capacity) (extent : Extent), arena.Reachable → extent.isEmpty = false →
      (((reserve extent).run arena).outcome = .done () ↔ extent.stop ≤ addressSpace ∧
        (∃ x < addressSpace, x ∉ arena.claims ∧
          x ∉ arena.page.around (Set.Ico extent.start extent.stop)) ∧
        (arena.claims.size < capacity ∨ ∃ entry ∈ arena.claims.entries,
          arena.page.firstOf extent ≤ entry.stop ∧ entry.start ≤ arena.page.lastOf extent)) ∧
      (((reserve extent).run arena).outcome = .done () →
        arena.Grows ((reserve extent).run arena).state
          (arena.page.around (Set.Ico extent.start extent.stop))) ∧
      (((reserve extent).run arena).outcome ≠ .done () →
        ((reserve extent).run arena).outcome = .failed .outOfResources ∧
        ((reserve extent).run arena).state = arena)) ∧
    ∀ (page : PageSize) (watchful : Bool) (operations : List Operation),
      (∀ operation ∈ operations, operation.isReserving = true) →
      ∀ entry ∈ ((empty page watchful : Arena capacity).afterRun operations).claims.entries,
        page.bytes.toNat ∣ entry.start ∧ page.bytes.toNat ∣ entry.stop := by
  refine ⟨fun arena extent hreachable hne => ?_, fun page watchful operations hreserving =>
    ((inWholePages_empty page watchful).afterRun hreserving).bounds⟩
  have hwf := hreachable.wellFormed
  refine ⟨reserve_done_iff hwf hne, ?_⟩
  rcases (reserve_claimsAtOnce hwf extent).cases with
    ⟨_, hdone, hgrows⟩ | ⟨failure, hfailed, hsame⟩
  · exact ⟨fun _ => hgrows, fun hnot => absurd hdone hnot⟩
  · refine ⟨fun hdone => absurd (hfailed.symm.trans hdone) (by simp), fun hnot => ⟨?_, hsame⟩⟩
    exact (outcome_reserve hwf extent).resolve_left hnot

/-- The page around a byte is all that a table with one slot holds. The last byte of memory cannot
be reserved there, for its page finds no slot, but a byte of the next page can. In a larger table,
what a map does not grant is withheld in whole pages. -/
theorem reservations_in_full_table :
    let arena := (.empty .ofPlatform false : Arena 1).afterRun [.reserve ⟨0x1234, 1⟩]
    let withheld := (.empty .ofPlatform false : Arena 8).afterRun
      [.reserve ⟨0x1234, 1⟩,
        .adopt [⟨⟨0x2800, 0x10⟩, .reserved, 1⟩, ⟨⟨0x8000, 0x1000⟩, .available, 1⟩]]
    ((reserve ⟨0xffffffffffffffff, 1⟩).run arena).outcome = .failed .outOfResources ∧
    arena.Grows ((reserve ⟨0x2fff, 1⟩).run arena).state
      (PageSize.ofPlatform.around (Set.Ico 0x2fff 0x3000)) ∧
    withheld.claims.size = 2 ∧
    ∀ entry ∈ withheld.claims.entries, 0x1000 ∣ entry.start ∧ 0x1000 ∣ entry.stop := by
  intro arena withheld
  have hreachable : arena.Reachable := (Arena.Reachable.start _ _).afterRun _
  have htop := reserve_exact.1 arena ⟨0xffffffffffffffff, 1⟩ hreachable (by decide)
  have htouching := reserve_exact.1 arena ⟨0x2fff, 1⟩ hreachable (by decide)
  refine ⟨(htop.2.2 (by decide +kernel)).1, htouching.2.1 (by decide +kernel),
    by decide +kernel, ?_⟩
  exact reserve_exact.2 .ofPlatform false _ (by decide)

end Arena

end PhysicalMemory
