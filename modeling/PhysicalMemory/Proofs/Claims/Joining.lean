import Mathlib.Order.Bounds.Basic
import PhysicalMemory.Proofs.Claims.Room
import PhysicalMemory.Proofs.Runs

/-!
# What an insertion makes of the entries

An insertion finds its place with one comparison and ends the run of entries to join with another.
In a well-formed table the run is nevertheless all that meets the new extent
(`Cut.Splits.filter_meets`). So the entries that do not meet it stay as they are, and one entry
stands for all others and the extent: it has their bytes, hence reaches from their least start to
their greatest stop (`isHullOf_of_mem_iff`), and no other entry can span the extent.
-/

namespace PhysicalMemory

namespace Extent

variable {hull : Extent} {pieces : List Extent}

/-- An extent is the hull of some extents: it reaches from their least start to their greatest
stop. -/
structure IsHullOf (hull : Extent) (pieces : List Extent) : Prop where
  /-- The hull starts at the least start. -/
  start_least : IsLeast {position | ∃ piece ∈ pieces, piece.start = position} hull.start
  /-- The hull stops at the greatest stop. -/
  stop_greatest : IsGreatest {position | ∃ piece ∈ pieces, piece.stop = position} hull.stop

/-- An extent with the bytes of some extents, all of which have bytes, and no other is their
hull. -/
theorem isHullOf_of_mem_iff
    (hpieces : ∀ piece ∈ pieces, piece.start < piece.stop ∧ piece.stop ≤ addressSpace)
    (hhull : hull.start < hull.stop ∧ hull.stop ≤ addressSpace)
    (hmem : ∀ x, x ∈ hull ↔ ∃ piece ∈ pieces, x ∈ piece) : hull.IsHullOf pieces := by
  -- The first and the last byte of an extent decide where it starts and stops.
  have hfirst : ∀ {e : Extent}, e.start < e.stop ∧ e.stop ≤ addressSpace → e.start ∈ e :=
    fun he => (mem_iff_of_inside he.2).mpr ⟨le_refl _, he.1⟩
  have hlast : ∀ {e : Extent}, e.start < e.stop ∧ e.stop ≤ addressSpace → e.stop - 1 ∈ e :=
    fun he => (mem_iff_of_inside he.2).mpr ⟨by omega, by omega⟩
  have hstart : ∀ piece ∈ pieces, hull.start ≤ piece.start := fun piece hpiece =>
    ((hmem _).mpr ⟨piece, hpiece, hfirst (hpieces piece hpiece)⟩).1
  have hstop : ∀ piece ∈ pieces, piece.stop ≤ hull.stop := by
    intro piece hpiece
    have hlt := ((hmem _).mpr ⟨piece, hpiece, hlast (hpieces piece hpiece)⟩).2.1
    omega
  refine ⟨⟨?_, ?_⟩, ?_, ?_⟩
  · obtain ⟨piece, hpiece, hbyte⟩ := (hmem _).mp (hfirst hhull)
    exact ⟨piece, hpiece, Nat.le_antisymm hbyte.1 (hstart piece hpiece)⟩
  · rintro _ ⟨piece, hpiece, rfl⟩
    exact hstart piece hpiece
  · obtain ⟨piece, hpiece, hbyte⟩ := (hmem _).mp (hlast hhull)
    have hle := hstop piece hpiece
    have hlt := hbyte.2.1
    exact ⟨piece, hpiece, by omega⟩
  · rintro _ ⟨piece, hpiece, rfl⟩
    exact hstop piece hpiece

end Extent

namespace Claims

variable {capacity : Nat} {claims grown : Claims capacity} {extent entry : Extent}
  {entries : List Extent} {c : Cut}

/-- The entries that meet the extent are the run. -/
theorem Cut.Splits.filter_meets (hsplits : c.Splits extent entries) :
    entries.filter extent.meets = c.met := by
  have hbefore : c.before.filter extent.meets = [] := List.filter_eq_nil_iff.mpr fun e he => by
    simp [hsplits.meets_eq_false (List.mem_append_left _ he)]
  have hafter : c.after.filter extent.meets = [] := List.filter_eq_nil_iff.mpr fun e he => by
    simp [hsplits.meets_eq_false (List.mem_append_right _ he)]
  have hmet : c.met.filter extent.meets = c.met := List.filter_eq_self.mpr hsplits.met_meets
  rw [← hsplits.append_eq, List.filter_append, List.filter_append, hbefore, hmet, hafter,
    List.nil_append, List.append_nil]

/-- The entries that do not meet the extent are those on either side of the run. -/
theorem Cut.Splits.filter_not_meets (hsplits : c.Splits extent entries) :
    entries.filter (fun entry => !extent.meets entry) = c.before ++ c.after := by
  have hsides : (c.before ++ c.after).filter (fun entry => !extent.meets entry) =
      c.before ++ c.after := List.filter_eq_self.mpr fun e he => by
    simp [hsplits.meets_eq_false he]
  have hmet : c.met.filter (fun entry => !extent.meets entry) = [] :=
    List.filter_eq_nil_iff.mpr fun e he => by simp [hsplits.met_meets e he]
  rw [List.filter_append] at hsides
  rw [← hsplits.append_eq, List.filter_append, List.filter_append, hmet, List.nil_append, hsides]

/-- The entries `grown` are some entries with an extent joined to those of them that it meets: the
entry `joined` stands for all of these. -/
structure Joins (extent : Extent) (entries : List Extent) (joined : Extent)
    (grown : List Extent) : Prop where
  /-- The entries that do not meet the extent are still there, unchanged and in order. -/
  kept : ∃ before after, entries.filter (fun entry => !extent.meets entry) = before ++ after ∧
    grown = before ++ joined :: after
  /-- There is one entry more, less the ones that meet the extent. -/
  length_eq : grown.length + entries.countP extent.meets = entries.length + 1
  /-- The joined entry spans the extent and the entries that meet it, and reaches no further. -/
  isHull : joined.IsHullOf (extent :: entries.filter extent.meets)
  /-- Exactly one entry spans the extent. -/
  countP_spans : grown.countP (fun entry => entry.spans extent) = 1

/-- An entry that spans an extent meets it. -/
theorem meets_of_spans (h : entry.spans extent = true) : extent.meets entry = true := by
  have hle := extent.start_le_stop
  rw [Extent.spans_iff] at h
  rw [Extent.meets_iff]
  omega

/-- Inserting an extent with bytes into a well-formed table joins it to the entries it meets. -/
theorem WellFormed.exists_joins (hwf : claims.WellFormed) (hne : extent.isEmpty = false)
    (h : claims.insert extent = .ok grown) :
    ∃ joined, Joins extent claims.entries joined grown.entries := by
  obtain ⟨c, joined, hsplits, -, hgrown, hbounds, hmem⟩ := hwf.insert_cases hne h
  have hinside := (insert_eq_ok hne h).1
  have hhull : joined.IsHullOf (extent :: claims.entries.filter extent.meets) := by
    refine Extent.isHullOf_of_mem_iff (fun piece hpiece => ?_) hbounds fun x => ?_
    · rcases List.mem_cons.mp hpiece with rfl | hmet
      · exact ⟨Extent.isEmpty_eq_false_iff.mp hne, hinside⟩
      · have hentry := List.mem_of_mem_filter hmet
        exact ⟨hwf.nonempty piece hentry, hwf.inside piece hentry⟩
    · rw [hmem, hsplits.filter_meets, List.exists_mem_cons_iff]
  refine ⟨joined, ⟨c.before, c.after, hsplits.filter_not_meets, hgrown⟩, ?_, hhull, ?_⟩
  · rw [List.countP_eq_length_filter, hsplits.filter_meets, hgrown, ← hsplits.append_eq]
    simp only [List.length_append, List.length_cons]
    omega
  · -- An entry beside the joined one does not even meet the extent.
    have hsides : ∀ e ∈ c.before ++ c.after, ¬e.spans extent = true := fun e he hspans =>
      Bool.false_ne_true ((hsplits.meets_eq_false he).symm.trans (meets_of_spans hspans))
    have hjoined : joined.spans extent = true := Extent.spans_iff.mpr
      ⟨hhull.start_least.2 ⟨extent, List.mem_cons_self, rfl⟩,
        hhull.stop_greatest.2 ⟨extent, List.mem_cons_self, rfl⟩⟩
    have hnone := List.countP_eq_zero.mpr hsides
    rw [List.countP_append] at hnone
    simp only [hgrown, List.countP_append, List.countP_cons, hjoined, if_true]
    omega

/-- An insertion makes no new bounds: an entry that it leaves starts where the extent or some entry
starts, and stops where the extent or some entry stops. -/
theorem WellFormed.exists_bounds_of_mem_insert (hwf : claims.WellFormed)
    (hne : extent.isEmpty = false) (h : claims.insert extent = .ok grown)
    (hentry : entry ∈ grown.entries) :
    (∃ piece ∈ extent :: claims.entries, piece.start = entry.start) ∧
      ∃ piece ∈ extent :: claims.entries, piece.stop = entry.stop := by
  obtain ⟨joined, ⟨before, after, hkept, hgrown⟩, -, hhull, -⟩ := hwf.exists_joins hne h
  have hpieces : ∀ {piece : Extent}, piece ∈ extent :: claims.entries.filter extent.meets →
      piece ∈ extent :: claims.entries :=
    fun hpiece => (List.filter_sublist.cons_cons extent).mem hpiece
  rw [hgrown, List.mem_append, List.mem_cons, or_left_comm, ← List.mem_append, ← hkept] at hentry
  rcases hentry with rfl | hentry
  · obtain ⟨first, hfirst, hstart⟩ := hhull.start_least.1
    obtain ⟨last, hlast, hstop⟩ := hhull.stop_greatest.1
    exact ⟨⟨first, hpieces hfirst, hstart⟩, last, hpieces hlast, hstop⟩
  · have hold := List.mem_cons_of_mem extent (List.mem_of_mem_filter hentry)
    exact ⟨⟨entry, hold, rfl⟩, entry, hold, rfl⟩

/-- An empty extent is inserted into every table, and an extent with bytes into a well-formed one
when it lies inside the address space, leaves some byte free, and there is a slot for it. -/
theorem WellFormed.exists_insert_iff_or (hwf : claims.WellFormed) :
    (∃ grown, claims.insert extent = .ok grown) ↔ extent.isEmpty = true ∨
      extent.stop ≤ addressSpace ∧ (∃ x < addressSpace, x ∉ claims ∧ x ∉ extent) ∧
        claims.HasSlotFor extent := by
  cases hempty : extent.isEmpty with
  | true => simp [Claims.insert, hempty]
  | false => simp only [hwf.exists_insert_iff hempty, Bool.false_eq_true, false_or]

/-- Adding an extent is exact. To the table of a reachable arena an extent is added exactly when it
is empty, or it lies inside the address space, some byte is neither claimed nor in it, and it
overlaps or touches an entry or the table has a free slot. Otherwise resources run out and the table
is as it was. An empty extent changes nothing. An extent with bytes is joined to the entries that it
overlaps or touches: they make way for one entry that spans the extent and them, and all others stay
as they are. -/
theorem add_exact {arena : Arena capacity} (hreachable : arena.Reachable) (extent : Extent) :
    (((add extent).run arena.claims).outcome = .done () ↔
      extent.isEmpty = true ∨ extent.stop ≤ addressSpace ∧
        (∃ x < addressSpace, x ∉ arena.claims ∧ x ∉ extent) ∧ arena.claims.HasSlotFor extent) ∧
    (((add extent).run arena.claims).outcome ≠ .done () →
      ((add extent).run arena.claims).outcome = .failed .outOfResources ∧
        ((add extent).run arena.claims).state = arena.claims) ∧
    (extent.isEmpty = true → ((add extent).run arena.claims).state = arena.claims) ∧
    (extent.isEmpty = false → ((add extent).run arena.claims).outcome = .done () →
      ∃ joined, Joins extent arena.claims.entries joined
        ((add extent).run arena.claims).state.entries) := by
  have hwf := hreachable.wellFormed
  rw [← hwf.exists_insert_iff_or]
  rcases add_cases extent arena.claims with
    ⟨grown, log, hinsert, hrun⟩ | ⟨refusal, log, hinsert, hrun⟩
  · rw [hrun]
    refine ⟨⟨fun _ => ⟨grown, hinsert⟩, fun _ => rfl⟩, fun hnot => absurd rfl hnot,
      fun hempty => ?_, fun hne _ => hwf.exists_joins hne hinsert⟩
    simpa [Claims.insert, hempty] using hinsert.symm
  · rw [hrun]
    refine ⟨⟨fun hdone => absurd hdone (by simp), fun hok => ?_⟩, fun _ => ⟨rfl, rfl⟩,
      fun _ => rfl, fun _ hdone => absurd hdone (by simp)⟩
    obtain ⟨grown, hgrown⟩ := hok
    exact absurd (hinsert.symm.trans hgrown) (by simp)

/-- In a full table, the page between two claimed pages makes one entry of both, and a byte that
touches no claim is refused. -/
theorem joins_in_full_table :
    let arena := (.empty .ofPlatform false : Arena 3).afterRun [.insert ⟨0x1000, 0x1000⟩,
      .insert ⟨0x3000, 0x1000⟩, .insert ⟨0xfffffffffffff000, 0x1000⟩]
    (∃ joined, Joins ⟨0x2000, 0x1000⟩ arena.claims.entries joined
      [⟨0x1000, 0x3000⟩, ⟨0xfffffffffffff000, 0x1000⟩]) ∧
    ((add ⟨0x8000, 1⟩).run arena.claims).outcome = .failed .outOfResources := by
  intro arena
  have hreachable : arena.Reachable := (Arena.Reachable.start _ _).afterRun _
  have hdone : ((add ⟨0x2000, 0x1000⟩).run arena.claims).outcome = .done () := by decide +kernel
  have hentries : ((add ⟨0x2000, 0x1000⟩).run arena.claims).state.entries =
      [⟨0x1000, 0x3000⟩, ⟨0xfffffffffffff000, 0x1000⟩] := by decide +kernel
  have hnot : ((add ⟨0x8000, 1⟩).run arena.claims).outcome ≠ .done () := by decide +kernel
  refine ⟨?_, ((add_exact hreachable _).2.1 hnot).1⟩
  rw [← hentries]
  exact (add_exact hreachable _).2.2.2 rfl hdone

end Claims

end PhysicalMemory
