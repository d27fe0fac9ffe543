/-!
# Stable sorting by binary insertion

Firmware entries with equal keys have to keep their order, and they arrive almost sorted, so they
are sorted by insertion: each record goes behind the last of the records before it that does not
compare greater, and a binary search finds that place. The search halves the sorted records at every
step and never leaves them, whatever the comparison answers, so no comparison loses a record.
-/

namespace PhysicalMemory.Sorting

variable {α : Type}

/-- How many records from the front satisfy the test, found by halving: it is the length of the part
that satisfies the test when all records that do stand before all that do not. -/
def slot (test : α → Bool) (records : List α) : Nat :=
  match h : records.drop (records.length / 2) with
  | [] => 0
  | probe :: above =>
    -- The probe stands in the middle: one half and the probe, or the other half, is settled.
    if test probe then records.length / 2 + 1 + slot test above
    else slot test (records.take (records.length / 2))
termination_by records.length
decreasing_by
  all_goals
    have hlen := congrArg List.length h
    simp only [List.length_drop, List.length_cons, List.length_take] at hlen ⊢
    omega

/-- Inserts a record where a search finds the end of the sorted records that do not compare
greater. -/
def placeWith (search : (α → Bool) → List α → Nat) (compare : α → α → Ordering) (sorted : List α)
    (record : α) : List α :=
  let k := search (fun probe => compare probe record != .gt) sorted
  sorted.take k ++ record :: sorted.drop k

/-- Inserts a record behind the last sorted record that does not compare greater. -/
def place (compare : α → α → Ordering) (sorted : List α) (record : α) : List α :=
  placeWith slot compare sorted record

/-- The records in ascending order, where records that compare equal keep their order. -/
def sortBy (compare : α → α → Ordering) (records : List α) : List α :=
  records.foldl (place compare) []

/-- The slot lies within the records. -/
theorem slot_le_length (test : α → Bool) (records : List α) :
    slot test records ≤ records.length := by
  fun_induction slot test records with
  | case1 => exact Nat.zero_le _
  | case2 records probe above h _ ih =>
    have hlen := congrArg List.length h
    simp only [List.length_drop, List.length_cons] at hlen
    omega
  | case3 records probe above h _ ih =>
    simp only [List.length_take] at ih
    omega

/-- A record put between others neither loses one of them nor doubles one. -/
theorem take_append_cons_drop_perm (k : Nat) (sorted : List α) (record : α) :
    (sorted.take k ++ record :: sorted.drop k).Perm (record :: sorted) := by
  refine List.perm_middle.trans ?_
  rw [List.take_append_drop]

/-- Placing a record neither loses a record nor doubles one, wherever the search says. -/
theorem placeWith_perm (search : (α → Bool) → List α → Nat) (compare : α → α → Ordering)
    (sorted : List α) (record : α) :
    (placeWith search compare sorted record).Perm (record :: sorted) :=
  take_append_cons_drop_perm _ sorted record

/-- Placing records one after the other rearranges them, when placing one does. -/
theorem foldl_perm {step : List α → α → List α}
    (hstep : ∀ sorted record, (step sorted record).Perm (record :: sorted))
    (rest sorted : List α) : (rest.foldl step sorted).Perm (sorted ++ rest) := by
  induction rest generalizing sorted with
  | nil => simp
  | cons record rest ih =>
    rw [List.foldl_cons]
    refine (ih _).trans ?_
    refine ((hstep sorted record).append_right rest).trans ?_
    exact List.perm_middle.symm

/-- Sorting rearranges the records, for any comparison. -/
theorem sortBy_perm (compare : α → α → Ordering) (records : List α) :
    (sortBy compare records).Perm records :=
  foldl_perm (placeWith_perm slot compare) records []

/-- Sorting keeps the number of records. -/
theorem length_sortBy (compare : α → α → Ordering) (records : List α) :
    (sortBy compare records).length = records.length :=
  (sortBy_perm compare records).length_eq

end PhysicalMemory.Sorting
