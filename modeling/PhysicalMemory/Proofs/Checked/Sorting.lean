import PhysicalMemory.Proofs.Checked.Slots
import PhysicalMemory.Proofs.Sorting

/-!
# Sorting in slots

Records are sorted where they stand: each moves to its place among those before it, which a search
finds. A search that stays within the records never leads to a slot that is not there, whatever the
comparison answers (`sortInPlaceWith_eq`), and since a record only moves, none is lost. When the
comparison is an order, the search is right, and the records come to stand as every stable sort has
them (`sorts_stably`). The library's own search halves; nothing here depends on that.
-/

namespace PhysicalMemory.Checked

open Sorting (IsPartitionPoint IsStableSort placeWith sortBy)

variable {α : Type} {search : (α → Bool) → List α → Nat}

/-- The record at an index moves to the place among the records before it that a search finds. -/
def placeAtWith (search : (α → Bool) → List α → Nat) (compare : α → α → Ordering)
    (records : List α) (index : Nat) : Except Fault (List α) := do
  let sorted ← slice records 0 index
  let record ← slot records index
  let place := search (fun probe => compare probe record != .gt) sorted
  if place < index then rotate records place (index + 1) else return records

/-- Sorts records where they stand: the first is sorted, and each after it moves to the place that a
search finds. -/
def sortInPlaceWith (search : (α → Bool) → List α → Nat) (compare : α → α → Ordering)
    (records : List α) : Except Fault (List α) :=
  (List.range' 1 (records.length - 1)).foldlM (placeAtWith search compare) records

/-- Sorts records where they stand, each place found by halving. -/
def sortInPlace (compare : α → α → Ordering) (records : List α) : Except Fault (List α) :=
  sortInPlaceWith Sorting.slot compare records

/-- The record behind the sorted ones moves to its place among them. -/
theorem placeAtWith_eq (hsearch : ∀ test (records : List α), search test records ≤ records.length)
    (compare : α → α → Ordering) (sorted : List α) (record : α) (rest : List α) :
    placeAtWith search compare (sorted ++ record :: rest) sorted.length =
      .ok (placeWith search compare sorted record ++ rest) := by
  have hle := hsearch (fun probe => compare probe record != .gt) sorted
  rw [placeAtWith, slice_front, ok_bind, slot_append, ok_bind, placeWith]
  generalize search (fun probe => compare probe record != .gt) sorted = place at hle ⊢
  dsimp only
  split
  · -- From its place to the record there are the sorted records that the search leaves behind it.
    have hslots : sorted ++ record :: rest =
        sorted.take place ++ (sorted.drop place ++ [record]) ++ rest := by
      rw [← List.append_assoc, List.take_append_drop, List.append_assoc, List.singleton_append]
    have hplace : place = (sorted.take place).length := (List.length_take_of_le hle).symm
    rw [hslots]
    refine rotate_append _ _ record rest hplace ?_
    rw [← hplace, List.length_drop]
    omega
  · obtain rfl : place = sorted.length := by omega
    simp

/-- With a search that stays within the records, sorting in place has no fault and places one record
after the other. -/
theorem sortInPlaceWith_eq
    (hsearch : ∀ test (records : List α), search test records ≤ records.length)
    (compare : α → α → Ordering) (records : List α) :
    sortInPlaceWith search compare records =
      .ok (records.foldl (placeWith search compare) []) := by
  -- Up to an index the records are placed, and from there on they are as they were.
  have hsteps : ∀ (rest sorted : List α),
      (List.range' sorted.length rest.length).foldlM (placeAtWith search compare)
          (sorted ++ rest) =
        .ok (rest.foldl (placeWith search compare) sorted) := by
    intro rest
    induction rest with
    | nil => simp
    | cons record rest ih =>
      intro sorted
      have hlength : (placeWith search compare sorted record).length = sorted.length + 1 :=
        (Sorting.placeWith_perm search compare sorted record).length_eq
      rw [List.length_cons, List.range'_succ, List.foldlM_cons, placeAtWith_eq hsearch, ok_bind,
        ← hlength, ih, List.foldl_cons]
  cases records with
  | nil => rfl
  | cons first rest =>
    have hfirst : placeWith search compare [] first = [first] := by simp [placeWith]
    rw [sortInPlaceWith, List.foldl_cons, hfirst]
    exact hsteps rest [first]

/-- Sorting in place has no fault and sorts. -/
theorem sortInPlace_eq (compare : α → α → Ordering) (records : List α) :
    sortInPlace compare records = .ok (sortBy compare records) :=
  sortInPlaceWith_eq Sorting.slot_le_length compare records

/-- Sorting is right, in place and by any search for places. The library's own sort has no fault and
rearranges the records, for any comparison, and so does the sort by any other search that stays
within the records and is right where it has to be. For a comparison that is a total preorder they
agree, and what they leave is the stable sort of the records: the records ascend, those that compare
equal are in the order in which they came, and there is no other list of them that is so. Records
that ascend already are left as they are. -/
theorem sorts_stably (hsearch : IsPartitionPoint search) (compare : α → α → Ordering)
    (records : List α) :
    (sortInPlace compare records = .ok (sortBy compare records) ∧
      (sortBy compare records).Perm records) ∧
    (∃ sorted, sortInPlaceWith search compare records = .ok sorted ∧ sorted.Perm records) ∧
    (Std.TransCmp compare →
      sortInPlaceWith search compare records = .ok (sortBy compare records) ∧
      IsStableSort compare records (sortBy compare records) ∧
      (∀ others, IsStableSort compare records others → others = sortBy compare records) ∧
      ((records.Pairwise fun earlier later => (compare earlier later).isLE = true) →
        sortBy compare records = records)) := by
  have hplaced := sortInPlaceWith_eq hsearch.le_length compare records
  refine ⟨⟨sortInPlace_eq compare records, Sorting.sortBy_perm compare records⟩,
    ⟨_, hplaced, Sorting.foldl_perm (Sorting.placeWith_perm search compare) records []⟩, ?_⟩
  intro hcompare
  have hstable : IsStableSort compare records (sortBy compare records) :=
    Sorting.isStableSort_sortBy records
  refine ⟨?_, hstable, fun others hothers => hothers.eq hstable, Sorting.sortBy_eq_self⟩
  rw [hplaced, Sorting.foldl_placeWith_eq_sortBy hsearch]

/-- Pairs sorted by their numbers keep the order of their letters, and nothing else is a stable sort
of them. By a comparison that calls every record greater than every other, none of them is lost. -/
theorem sorts_stably_tied :
    let records := [(3, 'a'), (1, 'b'), (3, 'c'), (2, 'd'), (1, 'e'), (3, 'f')]
    let sorted := [(1, 'b'), (1, 'e'), (2, 'd'), (3, 'a'), (3, 'c'), (3, 'f')]
    let byNumber := compareOn (Prod.fst : Nat × Char → Nat)
    IsPartitionPoint (@Sorting.slot (Nat × Char)) ∧
    sortInPlaceWith Sorting.slot byNumber records = .ok sorted ∧
    IsStableSort byNumber records sorted ∧
    (∀ others, IsStableSort byNumber records others → others = sorted) ∧
    ∃ others, sortInPlaceWith Sorting.slot (fun _ _ => .gt) records = .ok others ∧
      others.Perm records := by
  intro records sorted byNumber
  have hsearch : IsPartitionPoint (@Sorting.slot (Nat × Char)) := Sorting.isPartitionPoint_slot
  have hsorted : sortBy byNumber records = sorted := by decide +kernel
  obtain ⟨-, -, hstably⟩ := sorts_stably hsearch byNumber records
  obtain ⟨hrun, hstable, hunique, -⟩ := hstably inferInstance
  rw [hsorted] at hrun hstable hunique
  exact ⟨hsearch, hrun, hstable, hunique, (sorts_stably hsearch (fun _ _ => .gt) records).2.1⟩

end PhysicalMemory.Checked
