import PhysicalMemory.Arena.Reserve
import PhysicalMemory.Proofs.Pages

/-!
# Checked words

The library counts positions with natural numbers, and nothing can go wrong in its arithmetic. A
machine computes on words: a sum may be too long for them, a difference may have no answer, and so
may a remainder or a cast. Here the arithmetic of extents, pages and searches is done step by step as
a machine does it, and a step without an answer stops with a `Fault`. Each computation is then shown
to have no fault and to give what the library gives: comparisons of extents (`meets_eq`,
`overlaps_eq`) and their hulls (`hull?_eq`), pages around an extent (`widen?_eq`), the first fit in
the holes around entries (`fitAround_eq`) and the sum of all sizes (`totalSizeFrom_eq`).
-/

namespace PhysicalMemory

/-- What a step on a machine may run into instead of a result. -/
inductive Fault where
  /-- A position is none of those that there are slots for. -/
  | outOfRange
  /-- A number is no word of the width that is there for it. -/
  | overflow
  /-- A remainder by zero is to be taken. -/
  | zeroDivisor
deriving DecidableEq

/-- The least multiple of a step at or above a position is the position itself, or what is missing
to the next multiple above it. -/
theorem ceilingTo_eq {step : Nat} (h : 0 < step) (position : Nat) :
    ceilingTo step position =
      if position % step = 0 then position else position + (step - position % step) := by
  have hmod := Nat.mod_lt position h
  have hdiv := Nat.div_add_mod position step
  split
  · rename_i hzero
    exact le_antisymm (ceilingTo_le_of_dvd h (Nat.dvd_of_mod_eq_zero hzero) le_rfl)
      (le_ceilingTo h position)
  · rename_i hrest
    have hnext : step ∣ position + (step - position % step) := by
      refine ⟨position / step + 1, ?_⟩
      rw [Nat.mul_add, Nat.mul_one]
      omega
    refine le_antisymm (ceilingTo_le_of_dvd h hnext (Nat.le_add_right _ _)) ?_
    -- The multiple below the next one is below the position.
    obtain ⟨k, hk⟩ := dvd_ceilingTo step position
    have hle := le_ceilingTo h position
    rw [hk] at hle ⊢
    have hquotient : position / step < k := by
      rw [Nat.div_lt_iff_lt_mul h, Nat.mul_comm]
      refine lt_of_le_of_ne hle fun heq => hrest ?_
      rw [heq, Nat.mul_mod_right]
    have := Nat.mul_le_mul_left step hquotient
    rw [Nat.mul_succ] at this
    omega

/-- The greatest multiple of a step at or below a position, by the remainder. -/
theorem floorTo_eq (step position : Nat) : floorTo step position = position - position % step := by
  have hdiv := Nat.div_add_mod position step
  rw [floorTo, Nat.mul_comm]
  omega

namespace Checked

variable {α β : Type}

/-- A computation goes on from a value. -/
@[simp]
theorem ok_bind (value : α) (next : α → Except Fault β) :
    ((Except.ok value : Except Fault α) >>= next) = next value := rfl

/-- A value has no fault. -/
@[simp]
theorem pure_eq_ok (value : α) : (pure value : Except Fault α) = .ok value := rfl

/-- The sum of two numbers as a double word. -/
def sum (a b : Nat) : Except Fault Nat :=
  if a + b < 2 ^ 128 then .ok (a + b) else .error .overflow

/-- The difference of two numbers, which may not be negative. -/
def difference (a b : Nat) : Except Fault Nat :=
  if b ≤ a then .ok (a - b) else .error .overflow

/-- The remainder of a division. -/
def remainder (a b : Nat) : Except Fault Nat :=
  if b = 0 then .error .zeroDivisor else .ok (a % b)

/-- A number as a word, of which no bit may be lost. -/
def narrow (value : Nat) : Except Fault UInt64 :=
  if value < addressSpace then .ok (UInt64.ofNat value) else .error .overflow

/-- The word with a value, if there is one. That there is none is an answer, and no fault. -/
def word? (value : Nat) : Option UInt64 :=
  if value < addressSpace then some (UInt64.ofNat value) else none

/-- The position after the last byte of an extent. -/
def stop (e : Extent) : Except Fault Nat := sum e.start e.size

/-- The extent runs past the top of the address space. -/
def runsPastTop (e : Extent) : Except Fault Bool := do
  return decide (addressSpace < (← stop e))

/-- The lower of two extents, with the address at which the other one starts. -/
def byBase (a b : Extent) : Extent × UInt64 :=
  if b.base < a.base then (b, a.base) else (a, b.base)

/-- The extent stops at an address or above it. A stop that is no word is above every address. -/
def reaches (e : Extent) (address : UInt64) : Bool :=
  match word? e.stop with
  | some stop => decide (address ≤ stop)
  | none => true

/-- The extent stops above an address. A stop that is no word is above every address. -/
def stopsAbove (e : Extent) (address : UInt64) : Bool :=
  match word? e.stop with
  | some stop => decide (address < stop)
  | none => true

/-- The extents overlap or touch: the lower one reaches the start of the other. -/
def meets (a b : Extent) : Bool :=
  let (lower, start) := byBase a b
  reaches lower start

/-- The extents share a byte: neither is empty, and the lower one stops above the start of the
other. -/
def overlaps (a b : Extent) : Bool :=
  if a.isEmpty || b.isEmpty then false
  else
    let (lower, start) := byBase a b
    stopsAbove lower start

/-- The least extent that spans both, unless it is the whole address space. -/
def hull? (a b : Extent) : Except Fault (Option Extent) := do
  let base := if a.base ≤ b.base then a.base else b.base
  let length ← difference (min (max (← stop a) (← stop b)) addressSpace) base.toNat
  return (word? length).map (Extent.mk base)

/-- The hull of an extent and entries, unless it is the whole address space. -/
def hullOfAll? (extent : Extent) : List Extent → Except Fault (Option Extent)
  | [] => .ok (some extent)
  | entry :: rest => do
    match ← hull? extent entry with
    | none => return none
    | some joined => hullOfAll? joined rest

/-- The least multiple of the alignment at or above an address, if it is an address itself. -/
def roundUp (address alignment : UInt64) : Except Fault (Option UInt64) := do
  let past ← remainder address.toNat alignment.toNat
  if past = 0 then return some address
  else return word? (address.toNat + (← difference alignment.toNat past))

/-- The greatest multiple of the alignment at or below an address. -/
def roundDown (address alignment : UInt64) : Except Fault UInt64 := do
  let past ← remainder address.toNat alignment.toNat
  return UInt64.ofNat (← difference address.toNat past)

/-- The least multiple of the step at or above a position. -/
def nextMultiple (position step : Nat) : Except Fault Nat := do
  let past ← remainder position step
  if past = 0 then return position
  else sum position (← difference step past)

/-- The pages that meet an extent, unless they are the whole address space. -/
def widen? (page : PageSize) (extent : Extent) : Except Fault (Option Extent) := do
  let start ← roundDown extent.base page.bytes
  let length ← difference (← nextMultiple (← stop extent) page.bytes.toNat) start.toNat
  return (word? length).map (Extent.mk start)

/-- The first aligned address in the hole between two positions, if the wanted bytes fit there. -/
def fitBetween (wanted : Claims.Wanted) (start stop : Nat) : Except Fault (Option UInt64) := do
  if stop ≤ start then return none
  let some base := word? start | return none
  let some address ← roundUp base wanted.alignment | return none
  let last ← sum address.toNat wanted.size.toNat
  return if last ≤ stop ∧ last ≤ wanted.ceiling then some address else none

/-- The first fit in the holes around entries, where the first hole starts at a position. -/
def fitAround (wanted : Claims.Wanted) (start : Nat) :
    List Extent → Except Fault (Option UInt64)
  | [] => fitBetween wanted start addressSpace
  | entry :: rest => do
    if wanted.ceiling ≤ start then return none
    match ← fitBetween wanted start entry.start with
    | some address => return some address
    | none => fitAround wanted (← stop entry) rest

/-- The sum of the sizes of extents, added up one after the other. -/
def totalSizeFrom (total : Nat) : List Extent → Except Fault Nat
  | [] => .ok total
  | e :: rest => do totalSizeFrom (← sum total e.size) rest

/-- A sum that is a double word has no fault. -/
theorem sum_eq {a b : Nat} (h : a + b < 2 ^ 128) : sum a b = .ok (a + b) := if_pos h

/-- A difference that is not negative has no fault. -/
theorem difference_eq {a b : Nat} (h : b ≤ a) : difference a b = .ok (a - b) := if_pos h

/-- A remainder by a positive number has no fault. -/
theorem remainder_eq {a b : Nat} (h : 0 < b) : remainder a b = .ok (a % b) :=
  if_neg (Nat.ne_of_gt h)

/-- A number below the top of the address space is a word. -/
theorem narrow_eq {value : Nat} (h : value < addressSpace) :
    narrow value = .ok (UInt64.ofNat value) := if_pos h

/-- What is made of the word with a value, if there is one. -/
theorem map_word? (f : UInt64 → α) (value : Nat) :
    (word? value).map f =
      if value < addressSpace then some (f (UInt64.ofNat value)) else none := by
  unfold word?
  split <;> rfl

/-- The sum of two words is a double word. -/
theorem sum_words_eq (a b : UInt64) : sum a.toNat b.toNat = .ok (a.toNat + b.toNat) := by
  have ha := toNat_lt_addressSpace a
  have hb := toNat_lt_addressSpace b
  refine sum_eq ?_
  unfold addressSpace UInt64.size at ha hb
  omega

/-- Where an extent ends is a double word. -/
@[simp]
theorem stop_eq (e : Extent) : stop e = .ok e.stop := sum_words_eq e.base e.length

/-- Running past the top is decided without a fault. -/
@[simp]
theorem runsPastTop_eq (e : Extent) : runsPastTop e = .ok e.runsPastTop := by
  have hpast : decide (addressSpace < e.stop) = e.runsPastTop := by
    rw [Bool.eq_iff_iff, decide_eq_true_eq, Extent.runsPastTop_iff]
  rw [runsPastTop, stop_eq, ok_bind, pure_eq_ok, hpast]

/-- Reaching an address is decided as in the library. -/
theorem reaches_eq (e : Extent) (address : UInt64) : reaches e address = e.reaches address := by
  have haddress := toNat_lt_addressSpace address
  rw [Bool.eq_iff_iff, Extent.reaches_iff, reaches, word?]
  by_cases hstop : e.stop < addressSpace
  · rw [if_pos hstop, decide_eq_true_eq, UInt64.le_iff_toNat_le, UInt64.toNat_ofNat_of_lt' hstop]
  · simp only [if_neg hstop, true_iff]
    omega

/-- Stopping above an address is decided as in the library. -/
theorem stopsAbove_eq (e : Extent) (address : UInt64) :
    stopsAbove e address = e.stopsAbove address := by
  have haddress := toNat_lt_addressSpace address
  rw [Bool.eq_iff_iff, Extent.stopsAbove_iff, stopsAbove, word?]
  by_cases hstop : e.stop < addressSpace
  · rw [if_pos hstop, decide_eq_true_eq, UInt64.lt_iff_toNat_lt, UInt64.toNat_ofNat_of_lt' hstop]
  · simp only [if_neg hstop, true_iff]
    omega

/-- Of two extents, the one that starts lower is found, and the start of the other. -/
theorem byBase_cases (a b : Extent) :
    (byBase a b = (b, a.base) ∧ b.start < a.start) ∨
      (byBase a b = (a, b.base) ∧ a.start ≤ b.start) := by
  by_cases hlt : b.base < a.base
  · exact Or.inl ⟨if_pos hlt, UInt64.lt_iff_toNat_lt.mp hlt⟩
  · exact Or.inr ⟨if_neg hlt, UInt64.le_iff_toNat_le.mp (UInt64.not_lt.mp hlt)⟩

/-- Meeting is decided as in the library. -/
theorem meets_eq (a b : Extent) : meets a b = a.meets b := by
  have hastop := a.start_le_stop
  have hbstop := b.start_le_stop
  rw [Bool.eq_iff_iff, Extent.meets_iff, meets]
  rcases byBase_cases a b with ⟨horder, hlt⟩ | ⟨horder, hle⟩
  · simp only [horder, reaches_eq, Extent.reaches_iff]
    change a.start ≤ b.stop ↔ _
    omega
  · simp only [horder, reaches_eq, Extent.reaches_iff]
    change b.start ≤ a.stop ↔ _
    omega

/-- Overlapping is decided as in the library. -/
theorem overlaps_eq (a b : Extent) : overlaps a b = a.overlaps b := by
  rw [Bool.eq_iff_iff, Extent.overlaps_iff, overlaps, ← Extent.isEmpty_eq_false_iff,
    ← Extent.isEmpty_eq_false_iff]
  cases ha : a.isEmpty with
  | true => simp
  | false =>
    cases hb : b.isEmpty with
    | true => simp
    | false =>
      rw [Extent.isEmpty_eq_false_iff] at ha hb
      simp only [Bool.or_self, Bool.false_eq_true, if_false, true_and]
      rcases byBase_cases a b with ⟨horder, hlt⟩ | ⟨horder, hle⟩
      · simp only [horder, stopsAbove_eq, Extent.stopsAbove_iff]
        change a.start < b.stop ↔ _
        omega
      · simp only [horder, stopsAbove_eq, Extent.stopsAbove_iff]
        change b.start < a.stop ↔ _
        omega

/-- The hull of two extents has no fault. -/
@[simp]
theorem hull?_eq (a b : Extent) : hull? a b = .ok (a.hull? b) := by
  have hbase : (if a.base ≤ b.base then a.base else b.base).toNat = min a.start b.start := by
    rw [min_def]
    simp only [Extent.base_le_iff]
    split <;> rfl
  have hword : UInt64.ofNat (min a.start b.start) =
      if a.base ≤ b.base then a.base else b.base := by
    rw [← hbase, UInt64.ofNat_toNat]
  have hle : min a.start b.start ≤ min (max a.stop b.stop) addressSpace := by
    have := a.start_le_stop
    have := a.start_lt
    omega
  simp only [hull?, stop_eq, ok_bind, hbase, difference_eq hle, pure_eq_ok, map_word?,
    Extent.hull?, Extent.between, hword]

/-- The hull of an extent and entries has no fault. -/
@[simp]
theorem hullOfAll?_eq (extent : Extent) (entries : List Extent) :
    hullOfAll? extent entries = .ok (Claims.hullOfAll? extent entries) := by
  induction entries generalizing extent with
  | nil => rfl
  | cons entry rest ih =>
    rw [hullOfAll?, hull?_eq, ok_bind, Claims.hullOfAll?, List.foldlM_cons]
    cases extent.hull? entry with
    | none => rfl
    | some joined => exact ih joined

/-- Rounding up to a multiple of an alignment other than zero has no fault. -/
theorem roundUp_eq {alignment : UInt64} (h : alignment ≠ 0) (address : UInt64) :
    PhysicalMemory.roundUp address alignment =
        .ok (word? (ceilingTo alignment.toNat address.toNat)) ∧
      roundUp address alignment = .ok (word? (ceilingTo alignment.toNat address.toNat)) := by
  have hpos : 0 < alignment.toNat := by
    have : alignment.toNat ≠ 0 := fun hzero => h (UInt64.toNat_inj.mp hzero)
    omega
  refine ⟨by rw [PhysicalMemory.roundUp, if_neg h]; rfl, ?_⟩
  have hmod := Nat.mod_lt address.toNat hpos
  rw [roundUp, remainder_eq hpos, ok_bind, ceilingTo_eq hpos]
  split
  · simp [word?, toNat_lt_addressSpace]
  · rw [difference_eq (Nat.le_of_lt hmod)]
    rfl

/-- Rounding down to a multiple of an alignment other than zero has no fault. -/
theorem roundDown_eq {alignment : UInt64} (h : 0 < alignment.toNat) (address : UInt64) :
    roundDown address alignment =
      .ok (UInt64.ofNat (floorTo alignment.toNat address.toNat)) := by
  rw [roundDown, remainder_eq h, ok_bind, difference_eq (Nat.mod_le _ _), floorTo_eq]
  rfl

/-- The next multiple of a position that is not past the top has no fault. -/
theorem nextMultiple_eq {position step : Nat} (h : 0 < step) (hstep : step ≤ addressSpace)
    (hposition : position ≤ addressSpace) :
    nextMultiple position step = .ok (ceilingTo step position) := by
  have hmod := Nat.mod_lt position h
  rw [nextMultiple, remainder_eq h, ok_bind, ceilingTo_eq h]
  split
  · rfl
  · rw [difference_eq (Nat.le_of_lt hmod), ok_bind, sum_eq]
    unfold addressSpace UInt64.size at hstep hposition
    omega

/-- The pages around an extent that does not run past the top are found without a fault. -/
theorem widen?_eq (page : PageSize) {extent : Extent} (hinside : extent.stop ≤ addressSpace) :
    widen? page extent = .ok (page.widen? extent) := by
  have hpos := page.bytes_pos
  have hfirst : (UInt64.ofNat (page.firstOf extent)).toNat = page.firstOf extent :=
    UInt64.toNat_ofNat_of_lt' (lt_of_le_of_lt (floorTo_le _ _) extent.start_lt)
  have hle : page.firstOf extent ≤ page.lastOf extent :=
    (floorTo_le _ _).trans (extent.start_le_stop.trans (le_ceilingTo hpos _))
  rw [widen?, roundDown_eq hpos, ok_bind, stop_eq, ok_bind,
    nextMultiple_eq hpos (Nat.le_of_lt (toNat_lt_addressSpace _)) hinside, ok_bind]
  change (do
    let length ← difference (page.lastOf extent) (UInt64.ofNat (page.firstOf extent)).toNat
    return (word? length).map (Extent.mk (UInt64.ofNat (page.firstOf extent)))) = _
  rw [hfirst, difference_eq hle, ok_bind, PageSize.widen?, map_word?]
  rfl

/-- A search in a hole of the address space has no fault, unless the alignment is zero. -/
theorem fitBetween_eq {wanted : Claims.Wanted} (h : wanted.alignment ≠ 0) (start : Nat)
    {stop : Nat} (hstop : stop ≤ addressSpace) :
    ∃ found, wanted.fitBetween start stop = .ok found ∧
      fitBetween wanted start stop = .ok found := by
  by_cases hlt : start < stop
  · obtain ⟨hplain, hchecked⟩ := roundUp_eq h (UInt64.ofNat start)
    have hword : word? start = some (UInt64.ofNat start) := if_pos (by omega)
    refine ⟨_, by rw [Claims.Wanted.fitBetween, if_pos hlt, hplain]; rfl, ?_⟩
    rw [fitBetween, if_neg (Nat.not_le.mpr hlt), hword]
    simp only [ok_bind, hchecked]
    cases word? (ceilingTo wanted.alignment.toNat (UInt64.ofNat start).toNat) with
    | none => rfl
    | some address =>
      simp only [sum_words_eq, ok_bind, pure_eq_ok, Except.ok.injEq, ← le_min_iff]
      by_cases hfits : address.toNat + wanted.size.toNat ≤ min stop wanted.ceiling <;>
        simp [hfits, Option.filter]
  · refine ⟨none, by rw [Claims.Wanted.fitBetween, if_neg hlt]; rfl, ?_⟩
    rw [fitBetween, if_pos (Nat.not_lt.mp hlt)]
    rfl

/-- With an alignment of zero, the first hole that is tried is a fault. -/
example : fitBetween ⟨1, 0, addressSpace⟩ 0 addressSpace = .error .zeroDivisor := rfl

/-- A search in the holes around entries has no fault, unless the alignment is zero. -/
theorem fitAround_eq {wanted : Claims.Wanted} (h : wanted.alignment ≠ 0) (start : Nat)
    (entries : List Extent) :
    ∃ found, wanted.fitAround start entries = .ok found ∧
      fitAround wanted start entries = .ok found := by
  induction entries generalizing start with
  | nil => exact fitBetween_eq h start le_rfl
  | cons entry rest ih =>
    rw [Claims.Wanted.fitAround, fitAround]
    by_cases hceiling : wanted.ceiling ≤ start
    · exact ⟨none, by rw [if_pos hceiling]; rfl, by rw [if_pos hceiling]; rfl⟩
    · obtain ⟨found, hplain, hchecked⟩ := fitBetween_eq h start (Nat.le_of_lt entry.start_lt)
      rw [if_neg hceiling, if_neg hceiling, hplain]
      simp only [pure_eq_ok, ok_bind, hchecked]
      cases found with
      | some address => exact ⟨some address, rfl, rfl⟩
      | none =>
        simp only [stop_eq, ok_bind]
        exact ih entry.stop

/-- Adding up sizes has no fault as long as the sum is a double word. -/
theorem totalSizeFrom_eq {total : Nat} {entries : List Extent}
    (h : total + Extent.totalSize entries < 2 ^ 128) :
    totalSizeFrom total entries = .ok (total + Extent.totalSize entries) := by
  induction entries generalizing total with
  | nil => rfl
  | cons e rest ih =>
    rw [Extent.totalSize, ← Nat.add_assoc] at h ⊢
    rw [totalSizeFrom, sum_eq (lt_of_le_of_lt (Nat.le_add_right _ _) h), ok_bind, ih h]

end Checked

end PhysicalMemory
