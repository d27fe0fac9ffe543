import Mathlib.Data.List.Basic
import PhysicalMemory.Sorting

/-!
# Insertion by halving sorts stably

When the records that pass a test stand before those that do not, halving finds where the latter
begin (`slot_append`). In ascending records the ones that do not compare greater than a new record
stand so (`exists_cut`), and the new record is placed right behind them (`place_append`). That keeps
the records ascending, and it puts the new record behind all that compare equal to it, so sorting is
stable (`isStableSort_sortBy`). Records that ascend already are left as they are
(`sortBy_eq_self`).

Halving is one search for that place, and any that is right there does as well: all of them lead to
the same sort (`foldl_placeWith_eq_sortBy`), which is the only stable one (`IsStableSort.eq`). What
holds of any two records of it, the one before the other, can be said of the records as they came
(`IsStableSort.pairwise_iff`).
-/

namespace PhysicalMemory.Sorting

variable {α : Type} {compare : α → α → Ordering} {records sorted : List α} {test : α → Bool}

/-- The records in ascending order, each behind those that came before it and compare equal. -/
structure IsStableSort (compare : α → α → Ordering) (records sorted : List α) : Prop where
  /-- No record is lost or doubled. -/
  perm : sorted.Perm records
  /-- No record compares greater than one after it. -/
  ascending : sorted.Pairwise fun earlier later => (compare earlier later).isLE = true
  /-- The records that compare equal to a key keep their order. -/
  stable : ∀ key, (sorted.filter fun record => compare record key == .eq) =
    records.filter fun record => compare record key == .eq

/-- When all records that pass a test stand before all that do not, the slot is where the latter
begin. -/
theorem slot_append {front back : List α} (hsplit : records = front ++ back)
    (hfront : ∀ record ∈ front, test record = true)
    (hback : ∀ record ∈ back, test record = false) : slot test records = front.length := by
  fun_induction slot test records generalizing front back with
  | case1 records hnone =>
    have hlen := congrArg List.length hnone
    have hsum := congrArg List.length hsplit
    simp only [List.length_drop, List.length_nil, List.length_append] at hlen hsum
    omega
  | case2 records probe above hdrop hprobe ih =>
    -- The probe passes, so it is one of the records in front, and so are all below it.
    have hlt : records.length / 2 < front.length := by
      by_contra hge
      have hmem : probe ∈ back := by
        have hhead : probe ∈ records.drop (records.length / 2) := by simp [hdrop]
        rw [hsplit, List.drop_append, List.drop_eq_nil_of_le (Nat.not_lt.mp (hsplit ▸ hge)),
          List.nil_append] at hhead
        exact List.mem_of_mem_drop hhead
      exact Bool.false_ne_true ((hback probe hmem).symm.trans hprobe)
    have habove : above = front.drop (records.length / 2 + 1) ++ back := by
      have htail : above = records.drop (records.length / 2 + 1) := by
        rw [← List.drop_drop, hdrop, List.drop_one, List.tail_cons]
      generalize records.length / 2 = half at *
      rw [htail, hsplit, List.drop_append_of_le_length (by omega)]
    rw [ih habove (fun r hr => hfront r (List.mem_of_mem_drop hr)) hback, List.length_drop]
    omega
  | case3 records probe above hdrop hprobe ih =>
    -- The probe does not pass, so all records in front are below it.
    have hge : front.length ≤ records.length / 2 := by
      by_contra hlt
      have hmem : probe ∈ front := by
        have hhead : (records.drop (records.length / 2)).head? = some probe := by simp [hdrop]
        generalize records.length / 2 = half at *
        rw [hsplit, List.drop_append_of_le_length (by omega), List.head?_append,
          List.head?_drop, List.getElem?_eq_getElem (by omega), Option.some_or] at hhead
        rw [← Option.some.inj hhead]
        exact List.getElem_mem _
      exact hprobe (hfront probe hmem)
    have hbelow : records.take (records.length / 2) =
        front ++ back.take (records.length / 2 - front.length) := by
      generalize records.length / 2 = half at *
      rw [hsplit, List.take_append, List.take_of_length_le hge]
    exact ih hbelow hfront fun r hr => hback r (List.mem_of_mem_take hr)

/-- What a search for the end of the records that pass a test has to keep to: it stays within the
records, and it is right when all records that pass stand before all that do not. -/
structure IsPartitionPoint (search : (α → Bool) → List α → Nat) : Prop where
  /-- What is found lies within the records or right behind them. -/
  le_length : ∀ test records, search test records ≤ records.length
  /-- When all records that pass stand before all that do not, the latter begin where it is found. -/
  eq_length : ∀ test front back, (∀ record ∈ front, test record = true) →
    (∀ record ∈ back, test record = false) → search test (front ++ back) = front.length

/-- Halving is such a search. -/
theorem isPartitionPoint_slot : IsPartitionPoint (@slot α) :=
  ⟨slot_le_length, fun _ _ _ hfront hback => slot_append rfl hfront hback⟩

/-- A search places a record between records that do not compare greater and records that do. -/
theorem placeWith_append {search : (α → Bool) → List α → Nat} (hsearch : IsPartitionPoint search)
    {front back : List α} {record : α} (hfront : ∀ r ∈ front, (compare r record).isLE = true)
    (hback : ∀ r ∈ back, compare r record = .gt) :
    placeWith search compare (front ++ back) record = front ++ record :: back := by
  have hfound : search (fun probe => compare probe record != .gt) (front ++ back) =
      front.length := by
    refine hsearch.eq_length _ front back (fun r hr => ?_) (fun r hr => by simp [hback r hr])
    rw [bne_iff_ne, ne_eq, Ordering.ne_gt_iff_isLE]
    exact hfront r hr
  simp only [placeWith, hfound, List.take_left', List.drop_left']

/-- A record is placed between records that do not compare greater and records that do. -/
theorem place_append {front back : List α} {record : α}
    (hfront : ∀ r ∈ front, (compare r record).isLE = true)
    (hback : ∀ r ∈ back, compare r record = .gt) :
    place compare (front ++ back) record = front ++ record :: back :=
  placeWith_append isPartitionPoint_slot hfront hback

/-- Ascending records are cut where a new one belongs: those before the cut do not compare greater,
and those behind it do. -/
theorem exists_cut [Std.TransCmp compare]
    (hsorted : sorted.Pairwise fun earlier later => (compare earlier later).isLE = true)
    (record : α) : ∃ front back, sorted = front ++ back ∧
      (∀ r ∈ front, (compare r record).isLE = true) ∧ ∀ r ∈ back, compare r record = .gt := by
  refine ⟨sorted.takeWhile fun r => (compare r record).isLE,
    sorted.dropWhile fun r => (compare r record).isLE, List.takeWhile_append_dropWhile.symm,
    fun r hr => List.all_eq_true.mp List.all_takeWhile r hr, fun r hr => ?_⟩
  have hdrop := hsorted.sublist (List.dropWhile_sublist fun r => (compare r record).isLE)
  cases hcut : sorted.dropWhile fun r => (compare r record).isLE with
  | nil => simp [hcut] at hr
  | cons first rest =>
    have hfirst : compare first record = .gt := by
      have hnot := List.head?_dropWhile_not (fun r => (compare r record).isLE) sorted
      simpa [hcut] using hnot
    rw [hcut] at hr hdrop
    rcases List.mem_cons.mp hr with rfl | hr
    · exact hfirst
    · -- What follows a greater record is no less than that, so it is greater, too.
      have hle := List.rel_of_pairwise_cons hdrop hr
      exact Std.TransCmp.gt_of_isGE_of_gt (Std.OrientedCmp.isGE_of_isLE hle) hfirst

/-- Placing a record keeps ascending records ascending. -/
theorem pairwise_place [Std.TransCmp compare]
    (hsorted : sorted.Pairwise fun earlier later => (compare earlier later).isLE = true)
    (record : α) : (place compare sorted record).Pairwise fun earlier later =>
      (compare earlier later).isLE = true := by
  obtain ⟨front, back, rfl, hfront, hback⟩ := exists_cut hsorted record
  rw [place_append hfront hback]
  obtain ⟨hpairsFront, hpairsBack, hcross⟩ := List.pairwise_append.mp hsorted
  have hrecord : ∀ r ∈ back, (compare record r).isLE = true := by
    intro r hr
    rw [Std.OrientedCmp.lt_of_gt (hback r hr), Ordering.isLE_lt]
  refine List.pairwise_append.mpr
    ⟨hpairsFront, List.pairwise_cons.mpr ⟨hrecord, hpairsBack⟩, fun a ha b hb => ?_⟩
  rcases List.mem_cons.mp hb with rfl | hb
  · exact hfront a ha
  · exact hcross a ha b hb

/-- Placing a record puts it behind all records that compare equal to it. -/
theorem filter_place [Std.TransCmp compare]
    (hsorted : sorted.Pairwise fun earlier later => (compare earlier later).isLE = true)
    (record key : α) :
    ((place compare sorted record).filter fun r => compare r key == .eq) =
      (sorted ++ [record]).filter fun r => compare r key == .eq := by
  obtain ⟨front, back, rfl, hfront, hback⟩ := exists_cut hsorted record
  rw [place_append hfront hback]
  by_cases hkey : compare record key = .eq
  · -- Records that compare greater than the new one do not compare equal to its key.
    have hnone : (back.filter fun r => compare r key == .eq) = [] := by
      refine List.filter_eq_nil_iff.mpr fun r hr => ?_
      rw [Std.TransCmp.gt_of_gt_of_eq (hback r hr) hkey]
      simp
    simp [hkey, hnone]
  · simp [hkey]

/-- Sorting is stable, for any comparison that is a total preorder. -/
theorem isStableSort_sortBy [Std.TransCmp compare] (records : List α) :
    IsStableSort compare records (sortBy compare records) := by
  -- The records placed so far ascend, and those that compare equal to a key are in their order.
  have hfold : ∀ (rest sorted : List α),
      (sorted.Pairwise fun earlier later => (compare earlier later).isLE = true) →
      ((rest.foldl (place compare) sorted).Pairwise fun earlier later =>
        (compare earlier later).isLE = true) ∧
      ∀ key, ((rest.foldl (place compare) sorted).filter fun r => compare r key == .eq) =
        (sorted ++ rest).filter fun r => compare r key == .eq := by
    intro rest
    induction rest with
    | nil => intro sorted hsorted; simpa using hsorted
    | cons record rest ih =>
      intro sorted hsorted
      obtain ⟨hascending, hstable⟩ := ih _ (pairwise_place hsorted record)
      refine ⟨hascending, fun key => ?_⟩
      rw [List.foldl_cons, hstable, List.filter_append, filter_place hsorted, ← List.filter_append,
        List.append_assoc, List.singleton_append]
  obtain ⟨hascending, hstable⟩ := hfold records [] List.Pairwise.nil
  exact ⟨sortBy_perm compare records, hascending, hstable⟩

/-- Among ascending records, every search places a record alike. -/
theorem placeWith_eq_place [Std.TransCmp compare] {search : (α → Bool) → List α → Nat}
    (hsearch : IsPartitionPoint search)
    (hsorted : sorted.Pairwise fun earlier later => (compare earlier later).isLE = true)
    (record : α) : placeWith search compare sorted record = place compare sorted record := by
  obtain ⟨front, back, rfl, hfront, hback⟩ := exists_cut hsorted record
  rw [placeWith_append hsearch hfront hback, place_append hfront hback]

/-- Whatever search finds the places, placing all records one after the other sorts them. -/
theorem foldl_placeWith_eq_sortBy [Std.TransCmp compare] {search : (α → Bool) → List α → Nat}
    (hsearch : IsPartitionPoint search) (records : List α) :
    records.foldl (placeWith search compare) [] = sortBy compare records := by
  -- The records placed so far ascend, so the next is placed where halving would place it.
  have hfold : ∀ (rest sorted : List α),
      (sorted.Pairwise fun earlier later => (compare earlier later).isLE = true) →
      rest.foldl (placeWith search compare) sorted = rest.foldl (place compare) sorted := by
    intro rest
    induction rest with
    | nil => simp
    | cons record rest ih =>
      intro sorted hsorted
      rw [List.foldl_cons, List.foldl_cons, placeWith_eq_place hsearch hsorted]
      exact ih _ (pairwise_place hsorted record)
  exact hfold records [] List.Pairwise.nil

/-- The first of ascending records is no greater than any of them. -/
theorem isLE_of_mem_cons [Std.ReflCmp compare] {first record : α} {rest : List α}
    (hascending : (first :: rest).Pairwise fun earlier later =>
      (compare earlier later).isLE = true) (hrecord : record ∈ first :: rest) :
    (compare first record).isLE = true := by
  rcases List.mem_cons.mp hrecord with rfl | hrecord
  · have hself : compare record record = .eq := Std.ReflCmp.compare_self
    rw [hself, Ordering.isLE_eq]
  · exact List.rel_of_pairwise_cons hascending hrecord

/-- Lists with the same records of each key have the same records. -/
theorem mem_iff_of_filter_eq [Std.ReflCmp compare]
    (hkeys : ∀ key, (sorted.filter fun record => compare record key == .eq) =
      records.filter fun record => compare record key == .eq) (record : α) :
    record ∈ sorted ↔ record ∈ records := by
  have hself : compare record record = .eq := Std.ReflCmp.compare_self
  -- A record is one of those of its own key.
  have hmem : ∀ list : List α,
      (record ∈ list.filter fun r => compare r record == .eq) ↔ record ∈ list := by
    simp [hself]
  rw [← hmem sorted, hkeys, hmem]

/-- Ascending records are determined by those of each key, in their order. -/
theorem eq_of_filter_eq [Std.TransCmp compare]
    (hsorted : sorted.Pairwise fun earlier later => (compare earlier later).isLE = true)
    (hrecords : records.Pairwise fun earlier later => (compare earlier later).isLE = true)
    (hkeys : ∀ key, (sorted.filter fun record => compare record key == .eq) =
      records.filter fun record => compare record key == .eq) : sorted = records := by
  induction sorted generalizing records with
  | nil =>
    refine (List.eq_nil_iff_forall_not_mem.mpr fun record hrecord => ?_).symm
    exact absurd ((mem_iff_of_filter_eq hkeys record).mpr hrecord) (by simp)
  | cons first rest ih =>
    cases records with
    | nil => exact absurd ((mem_iff_of_filter_eq hkeys first).mp List.mem_cons_self) (by simp)
    | cons other others =>
      -- Neither of the two that stand first is greater than the other, so they have one key, and
      -- both are the first record of that key.
      have hkey : compare other first = .eq := Std.OrientedCmp.isLE_antisymm
        (isLE_of_mem_cons hrecords ((mem_iff_of_filter_eq hkeys first).mp List.mem_cons_self))
        (isLE_of_mem_cons hsorted ((mem_iff_of_filter_eq hkeys other).mpr List.mem_cons_self))
      have hself : compare first first = .eq := Std.ReflCmp.compare_self
      have hfirst := hkeys first
      rw [List.filter_cons_of_pos (by simp [hself]), List.filter_cons_of_pos (by simp [hkey])]
        at hfirst
      obtain rfl := (List.cons.inj hfirst).1
      refine congrArg (first :: ·) (ih (List.pairwise_cons.mp hsorted).2
        (List.pairwise_cons.mp hrecords).2 fun key => ?_)
      have hrest := hkeys key
      rw [List.filter_cons, List.filter_cons] at hrest
      split at hrest
      · exact (List.cons.inj hrest).2
      · exact hrest

/-- There is only one stable sort of some records. -/
theorem IsStableSort.eq [Std.TransCmp compare] {others : List α}
    (h : IsStableSort compare records sorted) (hothers : IsStableSort compare records others) :
    sorted = others :=
  eq_of_filter_eq h.ascending hothers.ascending fun key =>
    (h.stable key).trans (hothers.stable key).symm

/-- Sorting leaves ascending records as they are. -/
theorem sortBy_eq_self
    (hsorted : records.Pairwise fun earlier later => (compare earlier later).isLE = true) :
    sortBy compare records = records := by
  have hfold : ∀ (rest sorted : List α),
      ((sorted ++ rest).Pairwise fun earlier later => (compare earlier later).isLE = true) →
      rest.foldl (place compare) sorted = sorted ++ rest := by
    intro rest
    induction rest with
    | nil => simp
    | cons record rest ih =>
      intro sorted hsorted
      -- No record before this one compares greater, so it is placed at the end.
      have hbefore : ∀ r ∈ sorted, (compare r record).isLE = true := fun r hr =>
        (List.pairwise_append.mp hsorted).2.2 r hr record List.mem_cons_self
      have hplace : place compare sorted record = sorted ++ [record] := by
        have hnone : ∀ r ∈ ([] : List α), compare r record = .gt := by simp
        simpa using place_append hbefore hnone
      have happend : sorted ++ record :: rest = sorted ++ [record] ++ rest := by simp
      rw [happend] at hsorted ⊢
      rw [List.foldl_cons, hplace]
      exact ih _ hsorted
  exact hfold records [] hsorted

/-- Of two different records in a list, one stands before the other. -/
theorem pair_sublist_or {a b : α} (ha : a ∈ records) (hb : b ∈ records) (hne : a ≠ b) :
    [a, b].Sublist records ∨ [b, a].Sublist records := by
  induction records with
  | nil => exact absurd ha List.not_mem_nil
  | cons first rest ih =>
    rcases List.mem_cons.mp ha with rfl | harest
    · have hbrest := (List.mem_cons.mp hb).resolve_left hne.symm
      exact Or.inl ((List.singleton_sublist.mpr hbrest).cons_cons a)
    · rcases List.mem_cons.mp hb with rfl | hbrest
      · exact Or.inr ((List.singleton_sublist.mpr harest).cons_cons b)
      · exact (ih harest hbrest).imp (List.Sublist.cons first) (List.Sublist.cons first)

/-- Of two records that compare equal, the one that came first stands before the other. -/
theorem IsStableSort.pair_sublist_iff [Std.TransCmp compare] {a b : α}
    (h : IsStableSort compare records sorted) (heq : compare a b = .eq) :
    [a, b].Sublist sorted ↔ [a, b].Sublist records := by
  have hself : compare b b = .eq := Std.ReflCmp.compare_self
  have hpair : [a, b].filter (fun record => compare record b == .eq) = [a, b] := by
    simp [heq, hself]
  -- Both are among the records of one key, which are the same before and after.
  have hkey : ∀ list : List α, [a, b].Sublist list ↔
      [a, b].Sublist (list.filter fun record => compare record b == .eq) := fun list =>
    ⟨fun hsub => hpair ▸ hsub.filter _, fun hsub => hsub.trans List.filter_sublist⟩
  rw [hkey sorted, h.stable, ← hkey]

/-- Something holds of any two records of a stable sort, the one before the other, exactly when it
holds of any two records of which the one is less, and of any two that compare equal in the order in
which they came. -/
theorem IsStableSort.pairwise_iff [Std.TransCmp compare] {r : α → α → Prop}
    (h : IsStableSort compare records sorted) :
    sorted.Pairwise r ↔ (∀ a ∈ records, ∀ b ∈ records, compare a b = .lt → r a b) ∧
      records.Pairwise fun a b => compare a b = .eq → r a b := by
  have hascending : ∀ {a b : α}, [a, b].Sublist sorted → (compare a b).isLE = true :=
    List.pairwise_iff_forall_sublist.mp h.ascending
  rw [List.pairwise_iff_forall_sublist, List.pairwise_iff_forall_sublist]
  constructor
  · refine fun hsorted => ⟨fun a ha b hb hlt => ?_, fun hsub heq => ?_⟩
    · have hne : a ≠ b := by
        rintro rfl
        exact absurd (hlt.symm.trans Std.ReflCmp.compare_self) (by simp)
      rcases pair_sublist_or (h.perm.mem_iff.mpr ha) (h.perm.mem_iff.mpr hb) hne with hab | hba
      · exact hsorted hab
      · -- The greater of the two does not stand before the other.
        have hle := hascending hba
        rw [Std.OrientedCmp.gt_of_lt hlt] at hle
        exact absurd hle (by simp)
    · exact hsorted ((h.pair_sublist_iff heq).mpr hsub)
  · intro ⟨hless, hequal⟩ a b hsub
    have ha := h.perm.mem_iff.mp (hsub.subset List.mem_cons_self)
    have hb := h.perm.mem_iff.mp (hsub.subset (List.mem_cons_of_mem _ List.mem_cons_self))
    cases hcompare : compare a b with
    | lt => exact hless a ha b hb hcompare
    | eq => exact hequal ((h.pair_sublist_iff hcompare).mp hsub) hcompare
    | gt => exact absurd (hascending hsub) (by simp [hcompare])

end PhysicalMemory.Sorting
