import PhysicalMemory.Claims.Insertion
import PhysicalMemory.Proofs.Bytes

/-!
# Insertion keeps the form of a table

In a well-formed table the entries that meet a new extent are one run: the entries before them stop
below the new extent, and the entries after them start above it (`cut_splits`). Their hull with the
new extent holds the bytes of all of them and no other, so it stands apart from the entries on
either side. Hence an insertion that succeeds leaves a well-formed table (`WellFormed.insert`) with
exactly the new bytes added (`mem_insert`). What adding an extent leaves and reports can be
read off the cut of any table, well formed or not (`run_add_of_met_nil`, `run_add_of_met_ne_nil`).
-/

namespace PhysicalMemory.Claims

variable {capacity : Nat} {claims grown : Claims capacity} {extent joined : Extent}
  {entries : List Extent}

/-- What a cut of a table around a new extent is for: its three parts are the table, and each part
lies where its name says. -/
structure Cut.Splits (c : Cut) (extent : Extent) (entries : List Extent) : Prop where
  /-- No entry is lost or moved. -/
  append_eq : c.before ++ (c.met ++ c.after) = entries
  /-- The first part stops below the extent. -/
  before_below : ∀ entry ∈ c.before, entry.stop < extent.start
  /-- The second part meets the extent. -/
  met_meets : ∀ entry ∈ c.met, extent.meets entry = true
  /-- The third part starts above the extent. -/
  after_above : ∀ entry ∈ c.after, extent.stop < entry.start

/-- The entries of the run are entries of the table. -/
theorem Cut.Splits.mem_of_mem_met {c : Cut} (hsplits : c.Splits extent entries) {entry : Extent}
    (hentry : entry ∈ c.met) : entry ∈ entries := by
  rw [← hsplits.append_eq]
  exact List.mem_append_right _ (List.mem_append_left _ hentry)

/-- The entries on either side of the run do not meet the extent. -/
theorem Cut.Splits.meets_eq_false {c : Cut} (hsplits : c.Splits extent entries) {entry : Extent}
    (hentry : entry ∈ c.before ++ c.after) : extent.meets entry = false := by
  have hextent := extent.start_le_stop
  have hle := entry.start_le_stop
  rw [← Bool.not_eq_true, Extent.meets_iff]
  rcases List.mem_append.mp hentry with hbefore | hafter
  · have := hsplits.before_below entry hbefore
    omega
  · have := hsplits.after_above entry hafter
    omega

/-- When the first of some ascending entries starts at or above an extent or meets it, the entries
after the ones that meet it start above its stop. -/
theorem lt_start_of_mem_dropWhile_meets
    (hapart : entries.Pairwise fun earlier later => earlier.stop < later.start)
    (hfirst : ∀ first ∈ entries.head?, extent.start ≤ first.start ∨ extent.meets first = true) :
    ∀ entry ∈ entries.dropWhile extent.meets, extent.stop < entry.start := by
  induction entries with
  | nil => simp
  | cons first rest ih =>
    obtain ⟨hbelow, hrest⟩ := List.pairwise_cons.mp hapart
    have hle := first.start_le_stop
    rw [List.dropWhile_cons]
    split
    · rename_i hmeets
      -- The extent reaches no further down than the stop of the first entry.
      rw [Extent.meets_iff] at hmeets
      refine ih hrest fun next hnext => Or.inl ?_
      have := hbelow next (List.mem_of_mem_head? hnext)
      omega
    · rename_i hmeets
      have hstart : extent.start ≤ first.start :=
        (hfirst first rfl).resolve_right hmeets
      rw [Extent.meets_iff] at hmeets
      intro entry hentry
      rcases List.mem_cons.mp hentry with rfl | hentry
      · omega
      · have := hbelow entry hentry
        omega

/-- A cut loses no entry. -/
theorem append_cut (extent : Extent) (entries : List Extent) :
    (cut extent entries).before ++ ((cut extent entries).met ++ (cut extent entries).after) =
      entries := by
  unfold cut
  rw [List.takeWhile_append_dropWhile, List.takeWhile_append_dropWhile]

/-- The cut of ascending entries splits them. -/
theorem cut_splits (extent : Extent)
    (hapart : entries.Pairwise fun earlier later => earlier.stop < later.start) :
    (cut extent entries).Splits extent entries := by
  refine ⟨append_cut extent entries, ?_, ?_, ?_⟩ <;> unfold cut
  · -- An entry before the cut starts below the extent and does not meet it.
    intro entry hentry
    have hbefore := List.all_eq_true.mp List.all_takeWhile entry hentry
    have hle := extent.start_le_stop
    rw [Bool.not_eq_true', Bool.or_eq_false_iff, decide_eq_false_iff_not, Extent.base_le_iff,
      ← Bool.not_eq_true, Extent.meets_iff] at hbefore
    omega
  · exact fun entry hentry => List.all_eq_true.mp List.all_takeWhile entry hentry
  · -- The first entry behind the cut is the one that stopped the search for it.
    refine lt_start_of_mem_dropWhile_meets (hapart.sublist (List.dropWhile_sublist _)) ?_
    intro first hfirst
    have hnot := List.head?_dropWhile_not
      (fun entry : Extent => !(decide (extent.base ≤ entry.base) || extent.meets entry)) entries
    rw [Option.mem_def.mp hfirst] at hnot
    simp only [Bool.not_eq_false', Bool.or_eq_true, decide_eq_true_eq] at hnot
    exact hnot.imp_left Extent.base_le_iff.mp

/-- The hull of an extent and entries that all meet it goes from at or below the extent to at or
above it, stays inside the address space, and holds their bytes and no other. -/
theorem hullOfAll?_eq_some (hinside : extent.stop ≤ addressSpace)
    (hall : ∀ entry ∈ entries, entry.stop ≤ addressSpace ∧ extent.meets entry = true)
    (h : hullOfAll? extent entries = some joined) :
    (joined.start ≤ extent.start ∧ extent.stop ≤ joined.stop) ∧ joined.stop ≤ addressSpace ∧
      ∀ x, x ∈ joined ↔ x ∈ extent ∨ ∃ entry ∈ entries, x ∈ entry := by
  induction entries generalizing extent with
  | nil =>
    obtain rfl : extent = joined := by simpa [hullOfAll?] using h
    simpa using hinside
  | cons entry rest ih =>
    obtain ⟨hentry, hmeets⟩ := hall entry List.mem_cons_self
    rw [hullOfAll?, List.foldlM_cons, Option.bind_eq_bind, Option.bind_eq_some_iff] at h
    obtain ⟨hull, hhull, hrest⟩ := h
    obtain ⟨hstart, hstop⟩ := Extent.hull?_eq_some hinside hentry hhull
    have hall' : ∀ e ∈ rest, e.stop ≤ addressSpace ∧ hull.meets e = true := by
      intro e he
      obtain ⟨heinside, hemeets⟩ := hall e (List.mem_cons_of_mem entry he)
      exact ⟨heinside, Extent.meets_of_hull?_eq_some hinside hentry hhull hemeets⟩
    obtain ⟨hspan, hjoined, hmem⟩ := ih (by omega) hall' hrest
    refine ⟨by omega, hjoined, fun x => ?_⟩
    rw [hmem, Extent.mem_hull? hmeets hhull]
    simp [or_assoc]

/-- Adding an extent that meets no entry puts it between the entries around it, when there is a slot
for it, and reports nothing. -/
theorem run_add_of_met_nil {before after : List Extent} (hne : extent.isEmpty = false)
    (hinside : extent.runsPastTop = false)
    (hcut : cut extent claims.entries = ⟨before, [], after⟩) :
    (add extent).run claims =
      if claims.isFull then
        ⟨.failed .outOfResources, claims, [.refused (.tableFull capacity extent)]⟩
      else ⟨.done (), ⟨before ++ extent :: after⟩, []⟩ := by
  have hentries := append_cut extent claims.entries
  have hmore : ¬(⟨before ++ extent :: after⟩ : Claims capacity).size < claims.size := by
    rw [size, size, ← hentries, hcut]
    simp only [List.length_append, List.length_cons, List.length_nil]
    omega
  rw [run_add, insert, hne, hinside, hcut]
  cases hfull : claims.isFull <;> simp [hmore, Refusal.failure]

/-- Adding an extent that meets a run of entries puts their hull in place of the run, unless it is
the whole address space, and reports the run when it has several entries. -/
theorem run_add_of_met_ne_nil {before met after : List Extent} (hne : extent.isEmpty = false)
    (hinside : extent.runsPastTop = false)
    (hcut : cut extent claims.entries = ⟨before, met, after⟩) (hmet : met ≠ []) :
    (add extent).run claims =
      match hullOfAll? extent met with
      | none => ⟨.failed .outOfResources, claims, [.refused (.insertWholeSpace extent)]⟩
      | some joined => ⟨.done (), ⟨before ++ joined :: after⟩,
          if 1 < met.length then [.joined extent met.length] else []⟩ := by
  have hentries := append_cut extent claims.entries
  have hpos := List.length_pos_iff.mpr hmet
  have hempty : met.isEmpty = false := List.isEmpty_eq_false_iff.mpr hmet
  rw [run_add, insert, hne, hinside, hcut]
  simp only [hempty, Bool.false_eq_true, if_false]
  cases hullOfAll? extent met with
  | none => rfl
  | some joined =>
    -- The table has lost as many entries as were joined, but one.
    have hsize : claims.size = before.length + met.length + after.length := by
      rw [size, ← hentries, hcut, List.length_append, List.length_append, Nat.add_assoc]
    have hgrown : (⟨before ++ joined :: after⟩ : Claims capacity).size =
        before.length + 1 + after.length := by
      rw [size, List.length_append, List.length_cons]
      omega
    have hfewer : before.length + 1 + after.length < claims.size ↔ 1 < met.length := by omega
    have hrun : claims.size - (before.length + 1 + after.length) + 1 = met.length := by omega
    simp only [hgrown, hfewer, hrun]

/-- How an insertion of an extent with bytes succeeds: the extent lies inside the address space, and
its hull with the entries it meets takes their place; it needs a free slot when it meets none. -/
theorem insert_eq_ok (hne : extent.isEmpty = false) (h : claims.insert extent = .ok grown) :
    extent.stop ≤ addressSpace ∧
      ((cut extent claims.entries).met = [] → claims.size < capacity) ∧
      ∃ joined, hullOfAll? extent (cut extent claims.entries).met = some joined ∧
        grown.entries =
          (cut extent claims.entries).before ++ joined :: (cut extent claims.entries).after := by
  simp only [insert, hne, Bool.false_eq_true, if_false] at h
  by_cases hpast : extent.runsPastTop = true
  · simp [hpast] at h
  rw [if_neg hpast] at h
  rw [Extent.runsPastTop_iff, Nat.not_lt] at hpast
  refine ⟨hpast, ?_⟩
  cases hmet : (cut extent claims.entries).met with
  | nil =>
    by_cases hfull : claims.isFull = true
    · simp [hmet, hfull] at h
    simp only [hmet, List.isEmpty_nil, if_true, hfull] at h
    refine ⟨fun _ => by simpa [isFull] using hfull, extent, by simp [hullOfAll?], ?_⟩
    simpa using congrArg Claims.entries (Except.ok.inj h).symm
  | cons entry rest =>
    simp only [hmet, List.isEmpty_cons, Bool.false_eq_true, if_false] at h
    cases hhull : hullOfAll? extent (entry :: rest) with
    | none => simp [hhull] at h
    | some joined =>
      rw [hhull] at h
      exact ⟨by simp, joined, rfl, congrArg Claims.entries (Except.ok.inj h).symm⟩

/-- An extent that fits between ascending entries leaves them ascending. -/
theorem pairwise_apart_insert {before after : List Extent}
    (hapart : (before ++ after).Pairwise fun earlier later => earlier.stop < later.start)
    (hbefore : ∀ entry ∈ before, entry.stop < joined.start)
    (hafter : ∀ entry ∈ after, joined.stop < entry.start) :
    (before ++ joined :: after).Pairwise fun earlier later => earlier.stop < later.start := by
  obtain ⟨hb, ha, hcross⟩ := List.pairwise_append.mp hapart
  refine List.pairwise_append.mpr ⟨hb, List.pairwise_cons.mpr ⟨hafter, ha⟩, ?_⟩
  intro earlier hearlier later hlater
  rcases List.mem_cons.mp hlater with rfl | hlater
  · exact hbefore earlier hearlier
  · exact hcross earlier hearlier later hlater

/-- The hull of a new extent and the run that it meets stands apart from the entries on either side
of the run: each of its bytes is one of the extent's or of the run's. -/
theorem Cut.Splits.pairwise_joined {c : Cut} (hsplits : c.Splits extent entries)
    (hapart : entries.Pairwise fun earlier later => earlier.stop < later.start)
    (hne : joined.start < joined.stop) (hinside : joined.stop ≤ addressSpace)
    (hmem : ∀ x, x ∈ joined ↔ x ∈ extent ∨ ∃ entry ∈ c.met, x ∈ entry) :
    (c.before ++ joined :: c.after).Pairwise fun earlier later => earlier.stop < later.start := by
  rw [← hsplits.append_eq] at hapart
  obtain ⟨-, hrest, hcross⟩ := List.pairwise_append.mp hapart
  obtain ⟨-, -, hcross'⟩ := List.pairwise_append.mp hrest
  refine pairwise_apart_insert
    (hapart.sublist ((List.sublist_append_right c.met c.after).append_left c.before)) ?_ ?_
  · -- The first byte of the hull is above all that comes before it.
    intro entry hentry
    have hfirst : joined.start ∈ joined := (Extent.mem_iff_of_inside hinside).mpr ⟨le_refl _, hne⟩
    rcases (hmem _).mp hfirst with h | ⟨m, hm, h⟩
    · exact lt_of_lt_of_le (hsplits.before_below entry hentry) h.1
    · exact lt_of_lt_of_le (hcross entry hentry m (List.mem_append_left _ hm)) h.1
  · -- The last byte of the hull is below all that comes after it.
    intro entry hentry
    have hlast : joined.stop - 1 ∈ joined :=
      (Extent.mem_iff_of_inside hinside).mpr ⟨by omega, by omega⟩
    rcases (hmem _).mp hlast with h | ⟨m, hm, h⟩
    · have := hsplits.after_above entry hentry
      rw [Extent.mem_def] at h
      omega
    · have := hcross' m hm entry hentry
      rw [Extent.mem_def] at h
      omega

/-- How the insertion of an extent with bytes into a well-formed table succeeds: the table is cut
around the extent, and the run of entries that meet the extent is replaced by an extent that spans
it and holds exactly its bytes and those of the run. -/
theorem WellFormed.insert_cases (hwf : claims.WellFormed) (hne : extent.isEmpty = false)
    (h : claims.insert extent = .ok grown) :
    ∃ (c : Cut) (joined : Extent), c.Splits extent claims.entries ∧
      (c.met = [] → claims.size < capacity) ∧ grown.entries = c.before ++ joined :: c.after ∧
      (joined.start < joined.stop ∧ joined.stop ≤ addressSpace) ∧
      ∀ x, x ∈ joined ↔ x ∈ extent ∨ ∃ entry ∈ c.met, x ∈ entry := by
  obtain ⟨hinside, hroom, joined, hhull, hgrown⟩ := insert_eq_ok hne h
  have hsplits := cut_splits extent hwf.apart
  -- From here on, what the parts of the cut are for is all that matters about it.
  generalize cut extent claims.entries = c at *
  have hmet : ∀ entry ∈ c.met, entry.stop ≤ addressSpace ∧ extent.meets entry = true := by
    intro entry hentry
    exact ⟨hwf.inside entry (hsplits.mem_of_mem_met hentry), hsplits.met_meets entry hentry⟩
  obtain ⟨hspan, hjoined, hmem⟩ := hullOfAll?_eq_some hinside hmet hhull
  rw [Extent.isEmpty_eq_false_iff] at hne
  exact ⟨c, joined, hsplits, hroom, hgrown, ⟨by omega, hjoined⟩, hmem⟩

/-- Insertion into a well-formed table leaves a well-formed table. -/
theorem WellFormed.insert (hwf : claims.WellFormed) (h : claims.insert extent = .ok grown) :
    grown.WellFormed := by
  cases hempty : extent.isEmpty with
  | true =>
    obtain rfl : claims = grown := by simpa [Claims.insert, hempty] using h
    exact hwf
  | false =>
    obtain ⟨c, joined, hsplits, hroom, hgrown, ⟨hne, hinside⟩, hmem⟩ := hwf.insert_cases hempty h
    -- Every entry but the new one was there before.
    have hold : ∀ entry ∈ grown.entries, entry = joined ∨ entry ∈ claims.entries := by
      intro entry hentry
      rw [hgrown] at hentry
      rw [← hsplits.append_eq]
      simp only [List.mem_append, List.mem_cons] at hentry ⊢
      tauto
    refine ⟨⟨?_, ?_, ?_⟩, ?_⟩
    · intro entry hentry
      rcases hold entry hentry with rfl | hentry
      · exact hne
      · exact hwf.nonempty entry hentry
    · intro entry hentry
      rcases hold entry hentry with rfl | hentry
      · exact hinside
      · exact hwf.inside entry hentry
    · rw [hgrown]
      exact hsplits.pairwise_joined hwf.apart hne hinside hmem
    · -- The new entry takes the slot of one that it meets, or a free slot.
      have hle := hwf.size_le
      simp only [size, hgrown, ← hsplits.append_eq, List.length_append, List.length_cons]
        at hle hroom ⊢
      cases hmet : c.met with
      | nil =>
        have := hroom hmet
        simp only [hmet, List.length_nil] at this
        omega
      | cons entry rest =>
        simp only [hmet, List.length_cons] at hle
        omega

/-- Insertion into a well-formed table adds the bytes of the extent, and no other. -/
theorem WellFormed.mem_insert (hwf : claims.WellFormed) (h : claims.insert extent = .ok grown)
    (x : Nat) : x ∈ grown ↔ x ∈ claims ∨ x ∈ extent := by
  cases hempty : extent.isEmpty with
  | true =>
    obtain rfl : claims = grown := by simpa [Claims.insert, hempty] using h
    simp [Extent.not_mem_of_isEmpty hempty]
  | false =>
    obtain ⟨c, joined, hsplits, -, hgrown, -, hmem⟩ := hwf.insert_cases hempty h
    rw [mem_def, mem_def, hgrown, ← hsplits.append_eq]
    simp only [List.mem_append, List.mem_cons, or_and_right, exists_or, exists_eq_left, hmem]
    constructor
    · rintro (hbefore | (hnew | hmet) | hafter)
      · exact Or.inl (Or.inl hbefore)
      · exact Or.inr hnew
      · exact Or.inl (Or.inr (Or.inl hmet))
      · exact Or.inl (Or.inr (Or.inr hafter))
    · rintro ((hbefore | hmet | hafter) | hnew)
      · exact Or.inl hbefore
      · exact Or.inr (Or.inl (Or.inr hmet))
      · exact Or.inr (Or.inr hafter)
      · exact Or.inr (Or.inl (Or.inl hnew))

/-- After the insertion of an extent with bytes, something is claimed. -/
theorem WellFormed.isEmpty_insert (hwf : claims.WellFormed) (hne : extent.isEmpty = false)
    (h : claims.insert extent = .ok grown) : grown.isEmpty = false := by
  have hfirst : extent.start ∈ extent :=
    ⟨le_refl _, Extent.isEmpty_eq_false_iff.mp hne, extent.start_lt⟩
  obtain ⟨entry, hentry, -⟩ := (hwf.mem_insert h extent.start).mpr (Or.inr hfirst)
  rw [isEmpty, List.isEmpty_eq_false_iff]
  exact List.ne_nil_of_mem hentry

end PhysicalMemory.Claims
