import PhysicalMemory.Proofs.Checked.Action
import PhysicalMemory.Proofs.Checked.Slots
import PhysicalMemory.Proofs.Claims.Insertion

/-!
# Claims in slots

On a machine, the claims are the records in the first of a fixed number of slots, and their number is
kept beside them. Adding an extent moves the entries behind it, in place, and the entries that it
joins give their slots back. Whatever is done to such a table agrees with what the library does to the
claims that it holds (`add_agrees`, `firstFit_eq`, `firstDefect_eq`, `byteCount_eq`): no position is
out of range, and the count never goes below zero.
-/

namespace PhysicalMemory

/-- A claim table in slots. -/
structure ClaimSlots where
  /-- The slots. -/
  slots : List Extent
  /-- The number of entries, which are in the first slots. -/
  count : Nat

namespace ClaimSlots

open Checked

variable {capacity : Nat} {table : ClaimSlots} {claims : Claims capacity}

/-- As many slots as the capacity, and no entry in them. -/
def empty (capacity : Nat) : ClaimSlots := ⟨List.replicate capacity .empty, 0⟩

/-- The entries of the table. -/
def entries (table : ClaimSlots) : Except Fault (List Extent) := slice table.slots 0 table.count

/-- The slots with an extent in place of a run of entries, of which there may be none: the entries
behind the run move to the slots behind the extent. -/
def replaceRun (table : ClaimSlots) (first run : Nat) (extent : Extent) :
    Except Fault (List Extent) := do
  put (← copyWithin table.slots (first + run) table.count (first + 1)) first extent

/-- Puts an extent that meets no entry into a slot of its own. -/
def addAlone (first : Nat) (extent : Extent) : Checked ClaimSlots Unit := do
  let table ← ofAction get
  if table.slots.length ≤ table.count then
    ofAction (Action.refuse (.tableFull table.slots.length extent))
  else
    let slots ← ofExcept (table.replaceRun first 0 extent)
    ofAction (set (⟨slots, table.count + 1⟩ : ClaimSlots))

/-- Puts the hull of an extent and the run of entries that it meets in place of the run. -/
def addJoined (first run : Nat) (extent : Extent) : Checked ClaimSlots Unit := do
  let table ← ofAction get
  let entries ← ofExcept table.entries
  let met ← ofExcept (slice entries first (first + run))
  match ← ofExcept (Checked.hullOfAll? extent met) with
  | none => ofAction (Action.refuse (.insertWholeSpace extent))
  | some joined => do
    ofAction (emitIf (1 < run) (.joined extent run))
    let slots ← ofExcept (table.replaceRun first run joined)
    let fewer ← ofExcept (difference run 1)
    let count ← ofExcept (difference table.count fewer)
    ofAction (set (⟨slots, count⟩ : ClaimSlots))

/-- Adds an extent to the claimed bytes. -/
def add (extent : Extent) : Checked ClaimSlots Unit :=
  if extent.isEmpty then pure ()
  else do
    let past ← ofExcept (Checked.runsPastTop extent)
    if past then ofAction (Action.refuse (.insertPastTop extent))
    else do
      let table ← ofAction get
      let entries ← ofExcept table.entries
      let first := entries.findIdx fun entry =>
        decide (extent.base ≤ entry.base) || extent.meets entry
      let rest ← ofExcept (slice entries first entries.length)
      let run := (rest.takeWhile extent.meets).length
      if run = 0 then addAlone first extent else addJoined first run extent

/-- The lowest aligned address at which the wanted bytes are unclaimed, if there is one. -/
def firstFit (table : ClaimSlots) (wanted : Claims.Wanted) : Except Fault (Option UInt64) := do
  fitAround wanted 0 (← table.entries)

/-- The number of bytes in all entries. -/
def byteCount (table : ClaimSlots) : Except Fault Nat := do totalSizeFrom 0 (← table.entries)

/-- What is wrong with an entry, given the entry before it, if any, and whether it is the last. -/
def flaw? (previous : Option Extent) (entry : Extent) (isLast : Bool) :
    Except Fault (Option Flaw) := do
  if entry.isEmpty then return some .zeroLength
  else if (← Checked.runsPastTop entry) || (entry.endsAtTop && !isLast) then return some .overflow
  else match previous with
    | none => return none
    | some before =>
      if decide (entry.base ≤ before.base) || before.overlaps entry then return some .unsorted
      else if before.meets entry then return some .unmerged
      else return none

/-- The first defect among entries that follow a given entry, counted from a given index, in a table
with some number of entries. -/
def firstDefectFrom (count index : Nat) (previous : Option Extent) :
    List Extent → Except Fault (Option Defect)
  | [] => .ok none
  | entry :: rest => do
    match ← flaw? previous entry (index + 1 == count) with
    | some flaw => return some ⟨index, entry, flaw⟩
    | none => firstDefectFrom count (index + 1) (some entry) rest

/-- The first entry that breaks the form of a claim table. -/
def firstDefect (table : ClaimSlots) : Except Fault (Option Defect) := do
  firstDefectFrom table.count 0 none (← table.entries)

/-- The slots hold claims: there are as many slots as the claim table has room for, and the first of
them are its entries. -/
structure Holds (table : ClaimSlots) (claims : Claims capacity) : Prop where
  /-- The number of slots is the capacity. -/
  length_eq : table.slots.length = capacity
  /-- The number of entries is kept. -/
  count_eq : table.count = claims.size
  /-- The entries are in the first slots. -/
  exists_spare : ∃ spare, table.slots = claims.entries ++ spare

/-- Empty slots hold no claims. -/
theorem holds_empty (capacity : Nat) : (empty capacity).Holds (.empty : Claims capacity) :=
  ⟨List.length_replicate, rfl, _, rfl⟩

/-- The entries of the table are those of the claims that it holds. -/
theorem Holds.entries_eq (h : table.Holds claims) : table.entries = .ok claims.entries := by
  obtain ⟨spare, hspare⟩ := h.exists_spare
  rw [entries, hspare, h.count_eq]
  exact slice_front claims.entries spare

/-- A count that is more than the slots is a fault. -/
example : (⟨[.empty], 2⟩ : ClaimSlots).entries = .error .outOfRange := rfl

/-- A search for room has no fault and finds what the library finds, unless the alignment is zero. -/
theorem Holds.firstFit_eq (h : table.Holds claims) (wanted : Claims.Wanted)
    (halign : wanted.alignment ≠ 0) :
    ∃ found, claims.firstFit wanted = .ok found ∧ table.firstFit wanted = .ok found := by
  rw [firstFit, h.entries_eq, ok_bind]
  exact fitAround_eq halign 0 claims.entries

/-- The bytes of a well-formed table are counted without a fault. -/
theorem Holds.byteCount_eq (h : table.Holds claims) (hwf : claims.WellFormed) :
    table.byteCount = .ok claims.byteCount := by
  -- All claimed bytes lie in the address space, and the byte count is their number.
  have hle : (claims.byteCount : ℕ∞) ≤ addressSpace := by
    rw [← hwf.encard_bytes]
    refine (Set.encard_le_encard (t := (Finset.range addressSpace : Set Nat)) ?_).trans ?_
    · rintro x ⟨entry, -, hx⟩
      simpa using hx.2.2
    · rw [Set.encard_coe_eq_coe_finsetCard, Finset.card_range]
  have hbound : 0 + Extent.totalSize claims.entries < 2 ^ 128 := by
    have : claims.byteCount ≤ addressSpace := Nat.cast_le.mp hle
    unfold Claims.byteCount addressSpace UInt64.size at this
    omega
  rw [byteCount, h.entries_eq, ok_bind, totalSizeFrom_eq hbound, Nat.zero_add]
  rfl

/-- What is wrong with an entry is found without a fault. -/
@[simp]
theorem flaw?_eq (previous : Option Extent) (entry : Extent) (isLast : Bool) :
    flaw? previous entry isLast = .ok (Claims.flaw? previous entry isLast) := by
  simp only [flaw?, Claims.flaw?, Checked.runsPastTop_eq, ok_bind, pure_eq_ok]
  split
  · rfl
  · split
    · rfl
    · cases previous with
      | none => rfl
      | some before =>
        dsimp only
        split
        · rfl
        · split <;> rfl

/-- The first defect is found without a fault. -/
theorem firstDefectFrom_eq {count index : Nat} {previous : Option Extent} {entries : List Extent}
    (h : index + entries.length = count) :
    firstDefectFrom count index previous entries =
      .ok (Claims.firstDefectFrom index previous entries) := by
  induction entries generalizing index previous with
  | nil => rfl
  | cons entry rest ih =>
    have hlast : (index + 1 == count) = rest.isEmpty := by
      rw [Bool.eq_iff_iff, beq_iff_eq, List.isEmpty_iff_length_eq_zero, ← h, List.length_cons]
      omega
    rw [firstDefectFrom, flaw?_eq, ok_bind, Claims.firstDefectFrom, hlast]
    cases Claims.flaw? previous entry rest.isEmpty with
    | some flaw => rfl
    | none => exact ih (by rw [← h, List.length_cons]; omega)

/-- The first defect of a table in slots is that of its claims. -/
theorem Holds.firstDefect_eq (h : table.Holds claims) :
    table.firstDefect = .ok claims.firstDefect := by
  rw [firstDefect, h.entries_eq, ok_bind, h.count_eq]
  exact firstDefectFrom_eq (Nat.zero_add _)

/-- The first entry that does not stand before an extent is where the entries are cut. -/
theorem findIdx_eq_length_before (extent : Extent) (entries : List Extent) :
    (entries.findIdx fun entry => decide (extent.base ≤ entry.base) || extent.meets entry) =
      (Claims.cut extent entries).before.length := by
  unfold Claims.cut
  dsimp only
  rw [List.takeWhile_eq_take_findIdx_not]
  simp only [Bool.not_not]
  exact (List.length_take_of_le List.findIdx_le_length).symm

/-- The run that a cut finds are the entries from there on that meet the extent. -/
theorem takeWhile_met (extent : Extent) (entries : List Extent) :
    ((Claims.cut extent entries).met ++ (Claims.cut extent entries).after).takeWhile extent.meets =
      (Claims.cut extent entries).met := by
  unfold Claims.cut
  rw [List.takeWhile_append_dropWhile]

/-- A table in slots has no more entries than there are slots. -/
theorem Holds.size_le (h : table.Holds claims) : claims.size ≤ capacity := by
  obtain ⟨spare, hspare⟩ := h.exists_spare
  have hlength := congrArg List.length hspare
  rw [h.length_eq, List.length_append] at hlength
  exact hlength.symm.le.trans' (Nat.le_add_right _ _)

/-- An extent takes the place of a run of entries, when there is a slot for all that stays. -/
theorem Holds.replaceRun_eq (h : table.Holds claims) (before met after : List Extent)
    (hcut : before ++ (met ++ after) = claims.entries)
    (hroom : before.length + 1 + after.length ≤ capacity) (extent : Extent) :
    ∃ slots, table.replaceRun before.length met.length extent = .ok slots ∧
      slots.length = capacity ∧ ∃ spare, slots = before ++ extent :: after ++ spare := by
  obtain ⟨spare, hspare⟩ := h.exists_spare
  have hlength := h.length_eq
  have hcount : table.count = before.length + met.length + after.length := by
    rw [h.count_eq, Claims.size, ← hcut]
    simp only [List.length_append]
    omega
  have hslots : table.slots = (before ++ met) ++ after ++ spare := by
    rw [hspare, ← hcut]
    simp
  have hafter : slice table.slots (before.length + met.length) table.count = .ok after := by
    rw [hslots]
    exact slice_append _ _ _ (by simp) (by simpa using hcount)
  have hbefore : table.slots.take before.length = before := by
    rw [hslots, List.append_assoc, List.append_assoc, List.take_left']
    rfl
  rw [replaceRun, copyWithin_put hafter (hlength ▸ hroom), hbefore]
  refine ⟨_, rfl, ?_, _, rfl⟩
  simp only [List.length_append, List.length_cons, List.length_drop]
  omega

/-- Adding an extent that stands alone agrees with putting it between the entries around it. -/
theorem Holds.addAlone_agrees (h : table.Holds claims) {before after : List Extent}
    (hcut : before ++ after = claims.entries) (extent : Extent) :
    Agrees Holds ((addAlone before.length extent).run table)
      (if claims.isFull then
        ⟨.failed .outOfResources, claims, [.refused (.tableFull capacity extent)]⟩
      else ⟨.done (), ⟨before ++ extent :: after⟩, []⟩) := by
  rw [addAlone, run_get_bind, run_ite, h.length_eq, h.count_eq]
  by_cases hfull : capacity ≤ claims.size
  · rw [if_pos hfull, if_pos (by simpa [Claims.isFull] using hfull)]
    exact ⟨table, rfl, h, by simp⟩
  · have hsize : claims.size = before.length + after.length := by
      rw [Claims.size, ← hcut, List.length_append]
    obtain ⟨slots, hslots, hlength, hspare⟩ :=
      h.replaceRun_eq before [] after hcut (by omega) extent
    rw [List.length_nil] at hslots
    rw [if_neg hfull, if_neg (by simpa [Claims.isFull] using hfull), run_ofExcept_bind hslots]
    refine ⟨_, rfl, ⟨hlength, ?_, hspare⟩, by simp⟩
    simp only [Claims.size, List.length_append, List.length_cons] at hsize ⊢
    omega

/-- Adding an extent that meets a run of entries agrees with putting their hull in place of the
run. -/
theorem Holds.addJoined_agrees (h : table.Holds claims) {before met after : List Extent}
    (hcut : before ++ (met ++ after) = claims.entries) (hmet : 0 < met.length) (extent : Extent) :
    Agrees Holds ((addJoined before.length met.length extent).run table)
      (match Claims.hullOfAll? extent met with
      | none => ⟨.failed .outOfResources, claims, [.refused (.insertWholeSpace extent)]⟩
      | some joined => ⟨.done (), ⟨before ++ joined :: after⟩,
          if 1 < met.length then [.joined extent met.length] else []⟩) := by
  have hsize : claims.size = before.length + met.length + after.length := by
    rw [Claims.size, ← hcut, List.length_append, List.length_append, Nat.add_assoc]
  have hle := h.size_le
  have hslice : slice claims.entries before.length (before.length + met.length) = .ok met := by
    rw [← hcut, ← List.append_assoc]
    exact slice_append before met after rfl rfl
  rw [addJoined, run_get_bind, run_ofExcept_bind h.entries_eq, run_ofExcept_bind hslice,
    run_ofExcept_bind (Checked.hullOfAll?_eq extent met)]
  cases Claims.hullOfAll? extent met with
  | none => exact ⟨table, rfl, h, by simp⟩
  | some joined =>
    obtain ⟨slots, hslots, hlength, hspare⟩ := h.replaceRun_eq before met after hcut (by omega) joined
    have hfewer : difference met.length 1 = .ok (met.length - 1) := difference_eq hmet
    have hcount : difference table.count (met.length - 1) =
        .ok (claims.size - (met.length - 1)) := by
      rw [h.count_eq]
      exact difference_eq (by omega)
    have hholds : (⟨slots, claims.size - (met.length - 1)⟩ : ClaimSlots).Holds
        (⟨before ++ joined :: after⟩ : Claims capacity) := by
      refine ⟨hlength, ?_, hspare⟩
      simp only [Claims.size, List.length_append, List.length_cons] at hsize ⊢
      omega
    dsimp only
    rw [run_ofAction_bind (run_emitIf _ _ table), run_ofExcept_bind hslots, run_ofExcept_bind hfewer,
      run_ofExcept_bind hcount]
    exact ⟨_, by simp [ofAction, run, Report.after], hholds, by simp⟩

/-- Adding an extent to a table in slots agrees with adding it to the claims. -/
theorem Holds.add_agrees (h : table.Holds claims) (extent : Extent) :
    Agrees Holds ((add extent).run table) ((Claims.add extent).run claims) := by
  rw [add, Checked.run_ite]
  by_cases hempty : extent.isEmpty = true
  · rw [if_pos hempty, Claims.run_add, Claims.insert, if_pos hempty]
    exact ⟨table, by simp, h, by simp⟩
  rw [if_neg hempty, run_ofExcept_bind (Checked.runsPastTop_eq extent), run_ite]
  by_cases hpast : extent.runsPastTop = true
  · rw [if_pos hpast, Claims.run_add, Claims.insert, if_neg hempty, if_pos hpast]
    exact ⟨table, rfl, h, by simp⟩
  rw [Bool.not_eq_true] at hempty hpast
  have hentries := Claims.append_cut extent claims.entries
  have hrun := takeWhile_met extent claims.entries
  rw [hpast, if_neg (by simp), run_get_bind, run_ofExcept_bind h.entries_eq,
    findIdx_eq_length_before]
  rcases hcut : Claims.cut extent claims.entries with ⟨before, met, after⟩
  rw [hcut] at hentries hrun
  have hrest : slice claims.entries before.length claims.entries.length = .ok (met ++ after) := by
    rw [← hentries, ← List.append_nil (before ++ (met ++ after))]
    exact slice_append before (met ++ after) [] rfl (by simp)
  dsimp only at hrun ⊢
  rw [run_ofExcept_bind hrest, hrun, run_ite]
  cases met with
  | nil =>
    rw [List.length_nil, if_pos rfl, Claims.run_add_of_met_nil hempty hpast hcut]
    exact h.addAlone_agrees hentries extent
  | cons entry rest =>
    rw [if_neg (by simp), Claims.run_add_of_met_ne_nil hempty hpast hcut (by simp)]
    exact h.addJoined_agrees hentries (by simp) extent

end ClaimSlots

end PhysicalMemory
