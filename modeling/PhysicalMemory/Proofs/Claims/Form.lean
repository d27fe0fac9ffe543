import Mathlib.Logic.Basic
import PhysicalMemory.Claims.Basic

/-!
# What the check of a table finds

The check of a table looks at each entry beside the one before it, and its tests are made on words.
On an entry after one that has passed them, they are four conditions on positions, and the flaw that
is found is the first that holds (`flaw?_eq_some_iff`). An entry that passes all of them starts
above the stop of its neighbour; that neighbour starts above the stop of its own, and so on, so
entries that all pass stand apart in any two places (`firstDefectFrom_eq_none_iff`). Where an entry
does not pass, the entries before it have, and what comes after it is not looked at
(`firstDefect_exact`).
-/

namespace PhysicalMemory

/-- An entry runs past the top of the address space, or it ends there and others come after it. -/
def Extent.Overruns (entry : Extent) (back : List Extent) : Prop :=
  addressSpace < entry.stop ∨ entry.stop = addressSpace ∧ back ≠ []

instance (entry : Extent) (back : List Extent) : Decidable (entry.Overruns back) :=
  inferInstanceAs (Decidable (_ ∨ _))

/-- The flaw of an entry that stands between an entry before it, if any, and those after it. Of the
four flaws it is the first that the entry has. -/
structure Flaw.Describes (flaw : Flaw) (previous : Option Extent) (entry : Extent)
    (back : List Extent) : Prop where
  /-- The flaw is to have no byte exactly when the entry has none. -/
  zeroLength_iff : flaw = .zeroLength ↔ entry.size = 0
  /-- Else it is to overflow exactly when the entry runs past the top or ends there too early. -/
  overflow_iff : entry.size ≠ 0 → (flaw = .overflow ↔ entry.Overruns back)
  /-- Else it is to be unsorted exactly when the entry starts below the stop of the one before. -/
  unsorted_iff : entry.size ≠ 0 → ¬entry.Overruns back →
    (flaw = .unsorted ↔ ∃ before ∈ previous, entry.start < before.stop)
  /-- Else it is to be unmerged exactly when the entry starts at the stop of the one before. -/
  unmerged_iff : entry.size ≠ 0 → ¬entry.Overruns back →
    (¬∃ before ∈ previous, entry.start < before.stop) →
      (flaw = .unmerged ↔ ∃ before ∈ previous, entry.start = before.stop)

namespace Claims

variable {capacity : Nat} {claims : Claims capacity} {previous : Option Extent} {entry : Extent}
  {entries front back : List Extent} {flaw : Flaw} {defect : Defect} {index : Nat}

/-- Entries are in form exactly when those after the first are, and the first has bytes, lies inside
the address space and stops below the start of the second. -/
theorem inForm_cons {rest : List Extent} : InForm (entry :: rest) ↔
    (entry.start < entry.stop ∧ entry.stop ≤ addressSpace) ∧
      (∀ next ∈ rest.head?, entry.stop < next.start) ∧ InForm rest := by
  constructor
  · intro h
    obtain ⟨hbelow, -⟩ := List.pairwise_cons.mp h.apart
    exact ⟨⟨h.nonempty entry List.mem_cons_self, h.inside entry List.mem_cons_self⟩,
      fun next hnext => hbelow next (List.mem_of_mem_head? hnext), h.tail⟩
  · rintro ⟨⟨hne, hinside⟩, hnext, hrest⟩
    refine ⟨List.forall_mem_cons.mpr ⟨hne, hrest.nonempty⟩,
      List.forall_mem_cons.mpr ⟨hinside, hrest.inside⟩,
      List.pairwise_cons.mpr ⟨fun later hlater => ?_, hrest.apart⟩⟩
    -- What comes after the second entry starts above its stop, so above its start.
    cases rest with
    | nil => exact absurd hlater (by simp)
    | cons next others =>
      have hbelow := hnext next rfl
      rcases List.mem_cons.mp hlater with rfl | hlater
      · exact hbelow
      · have hle := next.start_le_stop
        have hlt := (List.pairwise_cons.mp hrest.apart).1 later hlater
        omega

/-- After an entry with bytes, the tests of an entry are conditions on where it starts and stops. -/
theorem flaw?_eq (hprevious : ∀ before ∈ previous, before.start < before.stop) :
    flaw? previous entry back.isEmpty =
      if entry.size = 0 then some .zeroLength
      else if entry.Overruns back then some .overflow
      else if ∃ before ∈ previous, entry.start < before.stop then some .unsorted
      else if ∃ before ∈ previous, entry.start = before.stop then some .unmerged
      else none := by
  have hover : (entry.runsPastTop || (entry.endsAtTop && !back.isEmpty)) = true ↔
      entry.Overruns back := by
    simp [Extent.Overruns, Extent.runsPastTop_iff, Extent.endsAtTop_iff]
  unfold flaw?
  simp only [Extent.isEmpty_iff, hover]
  split
  · rfl
  · rename_i hsize
    split
    · rfl
    · cases previous with
      | none => simp
      | some before =>
        have hbefore := hprevious before rfl
        have hle := entry.start_le_stop
        have hentry : entry.start < entry.stop := by
          rw [Extent.stop]
          omega
        -- Not to start after the start of the one before, or to overlap it, is to start below its
        -- stop; to meet it then is to start there.
        have hbelow : (decide (entry.base ≤ before.base) || before.overlaps entry) = true ↔
            entry.start < before.stop := by
          rw [Bool.or_eq_true, decide_eq_true_iff, Extent.base_le_iff, Extent.overlaps_iff]
          omega
        have hmeets : ¬entry.start < before.stop →
            (before.meets entry = true ↔ entry.start = before.stop) := by
          rw [Extent.meets_iff]
          omega
        simp only [hbelow, Option.mem_some, exists_eq_left']
        split
        · rfl
        · simp only [hmeets ‹_›]

/-- After an entry with bytes, the flaw that is found is the first that the entry has. -/
theorem flaw?_eq_some_iff (hprevious : ∀ before ∈ previous, before.start < before.stop) :
    flaw? previous entry back.isEmpty = some flaw ↔ flaw.Describes previous entry back := by
  rw [flaw?_eq hprevious]
  split
  · rename_i hsize
    refine ⟨fun h => ?_, fun h => by rw [h.zeroLength_iff.mpr hsize]⟩
    obtain rfl := Option.some.inj h
    exact ⟨by simp [hsize], fun hne => absurd hsize hne, fun hne => absurd hsize hne,
      fun hne => absurd hsize hne⟩
  rename_i hsize
  split
  · rename_i hover
    refine ⟨fun h => ?_, fun h => by rw [(h.overflow_iff hsize).mpr hover]⟩
    obtain rfl := Option.some.inj h
    exact ⟨by simp [hsize], fun _ => by simp [hover], fun _ hnot => absurd hover hnot,
      fun _ hnot => absurd hover hnot⟩
  rename_i hover
  split
  · rename_i hbelow
    refine ⟨fun h => ?_, fun h => by rw [(h.unsorted_iff hsize hover).mpr hbelow]⟩
    obtain rfl := Option.some.inj h
    exact ⟨by simp [hsize], fun _ => by simp [hover], fun _ _ => by simp only [hbelow],
      fun _ _ hnot => absurd hbelow hnot⟩
  rename_i hbelow
  split
  · rename_i hmeets
    refine ⟨fun h => ?_, fun h => by rw [(h.unmerged_iff hsize hover hbelow).mpr hmeets]⟩
    obtain rfl := Option.some.inj h
    exact ⟨by simp [hsize], fun _ => by simp [hover],
      fun _ _ => by simp only [hbelow, reduceCtorEq], fun _ _ _ => by simp only [hmeets]⟩
  · rename_i hmeets
    -- An entry that passes all tests has none of the flaws.
    refine ⟨fun h => absurd h (by simp), fun h => ?_⟩
    cases flaw with
    | zeroLength => exact absurd (h.zeroLength_iff.mp rfl) hsize
    | overflow => exact absurd ((h.overflow_iff hsize).mp rfl) hover
    | unsorted => exact absurd ((h.unsorted_iff hsize hover).mp rfl) hbelow
    | unmerged => exact absurd ((h.unmerged_iff hsize hover hbelow).mp rfl) hmeets

/-- After an entry with bytes, an entry has no flaw when it has bytes, does not overrun, and starts
above the stop of the one before. -/
theorem flaw?_eq_none_iff (hprevious : ∀ before ∈ previous, before.start < before.stop) :
    flaw? previous entry back.isEmpty = none ↔ entry.start < entry.stop ∧ ¬entry.Overruns back ∧
      ∀ before ∈ previous, before.stop < entry.start := by
  have hsize : entry.start < entry.stop ↔ ¬entry.size = 0 := by
    rw [Extent.stop]
    omega
  have habove : (∀ before ∈ previous, before.stop < entry.start) ↔
      (¬∃ before ∈ previous, entry.start < before.stop) ∧
        ¬∃ before ∈ previous, entry.start = before.stop := by
    cases previous with
    | none => simp
    | some before =>
      simp only [Option.mem_some, forall_eq', exists_eq_left']
      omega
  rw [flaw?_eq hprevious, habove, hsize]
  simp only [ite_eq_iff, reduceCtorEq, and_false, false_or, and_true]

/-- Entries have no defect exactly when the first has no flaw and those after it have no defect. -/
theorem firstDefectFrom_cons_eq_none_iff :
    firstDefectFrom index previous (entry :: entries) = none ↔
      flaw? previous entry entries.isEmpty = none ∧
        firstDefectFrom (index + 1) (some entry) entries = none := by
  rw [firstDefectFrom]
  cases flaw? previous entry entries.isEmpty <;> simp

/-- Entries after one with bytes have no defect exactly when they are in form and start above the
stop of that one. -/
theorem firstDefectFrom_eq_none_iff (index : Nat)
    (hprevious : ∀ before ∈ previous, before.start < before.stop) :
    firstDefectFrom index previous entries = none ↔ InForm entries ∧
      ∀ before ∈ previous, ∀ first ∈ entries.head?, before.stop < first.start := by
  induction entries generalizing index previous with
  | nil => simp [firstDefectFrom, inForm_nil]
  | cons entry rest ih =>
    rw [firstDefectFrom_cons_eq_none_iff, flaw?_eq_none_iff hprevious, inForm_cons]
    simp only [List.head?_cons, Option.mem_some, forall_eq']
    constructor
    · rintro ⟨⟨hne, hover, habove⟩, hrest⟩
      obtain ⟨hform, hnext⟩ := (ih (index + 1) (by simpa using hne)).mp hrest
      exact ⟨⟨⟨hne, Nat.not_lt.mp fun hpast => hover (Or.inl hpast)⟩, hnext entry rfl, hform⟩,
        habove⟩
    · rintro ⟨⟨⟨hne, hinside⟩, hnext, hform⟩, habove⟩
      have hover : ¬entry.Overruns rest := by
        rintro (hpast | ⟨htop, hback⟩)
        · exact Nat.not_lt.mpr hinside hpast
        · -- The next entry starts above the stop, at an address.
          obtain ⟨next, others, rfl⟩ := List.exists_cons_of_ne_nil hback
          have := hnext next rfl
          have := next.start_lt
          omega
      exact ⟨⟨hne, hover, habove⟩,
        (ih (index + 1) (by simpa using hne)).mpr ⟨hform, by simpa using hnext⟩⟩

/-- A table has no defect exactly when its entries are in form. -/
theorem firstDefect_eq_none_iff : claims.firstDefect = none ↔ InForm claims.entries := by
  rw [firstDefect, firstDefectFrom_eq_none_iff 0 (by simp)]
  simp

/-- A well-formed table has no defect. -/
theorem WellFormed.firstDefect_eq_none (h : claims.WellFormed) : claims.firstDefect = none :=
  firstDefect_eq_none_iff.mpr h.toInForm

/-- An entry that ends below the top has the same flaw, whether or not it is the last. -/
theorem flaw?_eq_of_stop_lt (hbelow : entry.stop < addressSpace) (isLast other : Bool) :
    flaw? previous entry isLast = flaw? previous entry other := by
  have htop : entry.endsAtTop = false := by
    rw [← Bool.not_eq_true, Extent.endsAtTop_iff]
    omega
  simp only [flaw?, htop, Bool.false_and]

/-- An entry that has no flaw and is not the last ends below the top. -/
theorem stop_lt_of_flaw?_eq_none (h : flaw? previous entry false = none) :
    entry.stop < addressSpace := by
  rw [← Nat.not_le]
  intro hge
  have hover : (entry.runsPastTop || entry.endsAtTop) = true := by
    rw [Bool.or_eq_true, Extent.runsPastTop_iff, Extent.endsAtTop_iff]
    omega
  unfold flaw? at h
  rw [Bool.not_false, Bool.and_true, hover] at h
  split at h <;> simp at h

/-- The last of an entry and those behind it is the last of these, or the entry itself. -/
theorem getLast?_cons_or (entry : Extent) (entries : List Extent) (previous : Option Extent) :
    (entry :: entries).getLast?.or previous = entries.getLast?.or (some entry) := by
  rw [List.getLast?_cons]
  cases entries.getLast? <;> rfl

/-- Behind entries without a defect that end below the top, the check goes on with what follows. -/
theorem firstDefectFrom_append (index : Nat) (hfront : firstDefectFrom index previous front = none)
    (hbelow : ∀ entry ∈ front, entry.stop < addressSpace) :
    firstDefectFrom index previous (front ++ back) =
      firstDefectFrom (index + front.length) (front.getLast?.or previous) back := by
  induction front generalizing index previous with
  | nil => rfl
  | cons entry front ih =>
    obtain ⟨hentry, hothers⟩ := List.forall_mem_cons.mp hbelow
    obtain ⟨hflaw, hrest⟩ := firstDefectFrom_cons_eq_none_iff.mp hfront
    rw [List.cons_append, firstDefectFrom, flaw?_eq_of_stop_lt hentry _ front.isEmpty, hflaw]
    dsimp only
    rw [ih (index + 1) hrest hothers, getLast?_cons_or, List.length_cons, Nat.add_right_comm]
    rfl

/-- Where a defect is found, the entries before it have none and end below the top, and its entry
has its flaw. -/
theorem exists_of_firstDefectFrom_eq_some
    (h : firstDefectFrom index previous entries = some defect) :
    ∃ front back, entries = front ++ defect.extent :: back ∧
      defect.index = index + front.length ∧ firstDefectFrom index previous front = none ∧
      (∀ entry ∈ front, entry.stop < addressSpace) ∧
      flaw? (front.getLast?.or previous) defect.extent back.isEmpty = some defect.flaw := by
  induction entries generalizing index previous with
  | nil => exact absurd h (by simp [firstDefectFrom])
  | cons entry rest ih =>
    rw [firstDefectFrom] at h
    cases hflaw : flaw? previous entry rest.isEmpty with
    | some flaw =>
      rw [hflaw] at h
      obtain rfl := Option.some.inj h
      exact ⟨[], rest, rfl, rfl, rfl, by simp, hflaw⟩
    | none =>
      rw [hflaw] at h
      obtain ⟨front, back, rfl, hindex, hfront, hbelow, hdefect⟩ := ih h
      -- The defect is in what follows the entry, so the entry is not the last.
      have hnot : (front ++ defect.extent :: back).isEmpty = false := by simp
      have hentry := stop_lt_of_flaw?_eq_none (hnot ▸ hflaw)
      refine ⟨entry :: front, back, rfl, ?_, ?_, List.forall_mem_cons.mpr ⟨hentry, hbelow⟩, ?_⟩
      · rw [hindex, List.length_cons]
        omega
      · rw [flaw?_eq_of_stop_lt hentry _ front.isEmpty] at hflaw
        exact firstDefectFrom_cons_eq_none_iff.mpr ⟨hflaw, hfront⟩
      · rw [getLast?_cons_or]
        exact hdefect

/-- The check of a table is sound, complete and precise, whatever the entries are. It finds no
defect exactly when the entries are in form: each has bytes and lies inside the address space, and
each stops below the start of all entries after it. A defect that it finds names an entry of the
table by its position; the entries before it are in form and end below the top, and its flaw is the
first that the entry has. There is only one such entry and flaw, and when there is one it is found.
-/
theorem firstDefect_exact (claims : Claims capacity) :
    (claims.firstDefect = none ↔ InForm claims.entries) ∧
    ∀ defect, claims.firstDefect = some defect ↔
      ∃ front back, claims.entries = front ++ defect.extent :: back ∧
        defect.index = front.length ∧ InForm front ∧
        (∀ entry ∈ front, entry.stop < addressSpace) ∧
        defect.flaw.Describes front.getLast? defect.extent back := by
  have hform : ∀ front : List Extent, firstDefectFrom 0 none front = none ↔ InForm front :=
    fun front => @firstDefect_eq_none_iff capacity ⟨front⟩
  have hdescribes : ∀ {front back : List Extent} {entry : Extent} {flaw : Flaw}, InForm front →
      (flaw? front.getLast? entry back.isEmpty = some flaw ↔
        flaw.Describes front.getLast? entry back) :=
    fun hfront => flaw?_eq_some_iff fun before hbefore =>
      hfront.nonempty before (List.mem_of_getLast? hbefore)
  refine ⟨firstDefect_eq_none_iff, fun defect => ⟨fun h => ?_, ?_⟩⟩
  · obtain ⟨front, back, hentries, hindex, hfront, hbelow, hflaw⟩ :=
      exists_of_firstDefectFrom_eq_some h
    rw [hform] at hfront
    rw [Option.or_none] at hflaw
    exact ⟨front, back, hentries, by omega, hfront, hbelow, (hdescribes hfront).mp hflaw⟩
  · rintro ⟨front, back, hentries, hindex, hfront, hbelow, hflaw⟩
    rw [firstDefect, hentries, firstDefectFrom_append 0 ((hform front).mpr hfront) hbelow,
      Option.or_none, firstDefectFrom, (hdescribes hfront).mpr hflaw, Nat.zero_add, ← hindex]

/-- The second entry starts inside the first, but before that it ends at the top with an entry
behind it. -/
example : (⟨[⟨0x1000, 0x1000⟩, ⟨0x1800, 0xffffffffffffe800⟩, ⟨0, 0⟩]⟩ : Claims 4).firstDefect =
    some ⟨1, ⟨0x1800, 0xffffffffffffe800⟩, .overflow⟩ := by
  decide

end Claims

end PhysicalMemory
