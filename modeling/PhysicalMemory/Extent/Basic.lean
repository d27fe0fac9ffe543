import PhysicalMemory.AddressSpace

/-!
# Extents of memory

An `Extent` is a base address and a length in bytes, both 64-bit words, so it may be empty, end
exactly at the top of the address space, or run past it. Its end `stop` is the unbounded sum. Two
extents overlap when each starts below the other's stop, and they meet (overlap or touch) when
neither starts above the other's stop.

Tables of thousands of extents are compared entry by entry, so the comparisons are made on words, by
distances that cannot wrap. What they say about starts and stops as natural numbers is stated for
each of them (`overlaps_iff`, `meets_iff`, `endsAtTop_iff`, `runsPastTop_iff`), and nothing else
about them is ever needed.
-/

namespace PhysicalMemory

/-- `length` bytes of memory from the address `base` on. -/
@[ext]
structure Extent where
  /-- The address of the first byte. -/
  base : UInt64
  /-- The number of bytes. -/
  length : UInt64
deriving DecidableEq, Inhabited

namespace Extent

/-- The extent without a byte at address zero. -/
def empty : Extent := ⟨0, 0⟩

/-- The base as a position. -/
@[inline]
def start (e : Extent) : Nat := e.base.toNat

/-- The number of bytes as a natural number. -/
@[inline]
def size (e : Extent) : Nat := e.length.toNat

/-- The position after the last byte, which is not bounded by the address space. -/
@[inline]
def stop (e : Extent) : Nat := e.start + e.size

/-- The extent has no byte. -/
@[inline]
def isEmpty (e : Extent) : Bool := e.length == 0

/-- The address after the last byte, when there is such an address. -/
def nextAddress? (e : Extent) : Option UInt64 :=
  if e.stop < addressSpace then some (UInt64.ofNat e.stop) else none

/-- The address of the last byte, counted around the top of the address space; of an empty extent
it is the address before the base. -/
def lastByte (e : Extent) : UInt64 := e.base + e.length - 1

/-- The extent ends exactly at the top of the address space: the word after its last byte is
zero. -/
def endsAtTop (e : Extent) : Bool := e.length != 0 && e.base + e.length == 0

/-- The extent runs past the top of the address space, so it describes no real memory: from its base
to the top there are fewer bytes than its length. -/
def runsPastTop (e : Extent) : Bool := e.base != 0 && decide (0 - e.base < e.length)

/-- The extent stops above an address. -/
@[inline]
def stopsAbove (e : Extent) (address : UInt64) : Bool :=
  decide (address < e.base) || decide (address - e.base < e.length)

/-- The extent stops at an address or above it. -/
@[inline]
def reaches (e : Extent) (address : UInt64) : Bool :=
  decide (address ≤ e.base) || decide (address - e.base ≤ e.length)

/-- The extents share a byte. -/
def overlaps (a b : Extent) : Bool :=
  !a.isEmpty && !b.isEmpty && b.stopsAbove a.base && a.stopsAbove b.base

/-- The extents overlap or touch: no byte lies between them. -/
def meets (a b : Extent) : Bool := b.reaches a.base && a.reaches b.base

/-- The extent `a` reaches from the start of `b`, or below, to its stop, or above. -/
def spans (a b : Extent) : Bool := decide (a.start ≤ b.start) && decide (b.stop ≤ a.stop)

/-- The extent from one position to another. -/
def between (start stop : Nat) : Extent := ⟨UInt64.ofNat start, UInt64.ofNat (stop - start)⟩

/-- The least extent that spans both, clipped to the address space; `none` when that is the whole
address space, whose length is no 64-bit word. -/
def hull? (a b : Extent) : Option Extent :=
  let start := min a.start b.start
  let stop := min (max a.stop b.stop) addressSpace
  -- The whole address space is one byte longer than any 64-bit length.
  if stop - start < addressSpace then some (between start stop) else none

/-- The number of bytes in extents, in which a byte that several of them share counts once for
each. -/
def totalSize : List Extent → Nat
  | [] => 0
  | e :: rest => e.size + totalSize rest

/-- A position is a byte of the extent when it is an address between the start and the stop: what
runs past the top of the address space has no bytes there. -/
instance : Membership Nat Extent where
  mem e x := e.start ≤ x ∧ x < e.stop ∧ x < addressSpace

/-- The bytes of an extent. -/
theorem mem_def {e : Extent} {x : Nat} :
    x ∈ e ↔ e.start ≤ x ∧ x < e.stop ∧ x < addressSpace := Iff.rfl

instance (e : Extent) (x : Nat) : Decidable (x ∈ e) := decidable_of_iff _ mem_def.symm

/-- Every extent starts inside the address space. -/
theorem start_lt (e : Extent) : e.start < addressSpace := toNat_lt_addressSpace _

/-- A length is a 64-bit word. -/
theorem size_lt (e : Extent) : e.size < addressSpace := toNat_lt_addressSpace _

/-- An extent never stops before it starts. -/
theorem start_le_stop (e : Extent) : e.start ≤ e.stop := Nat.le_add_right _ _

/-- An extent is determined by its start and its size. -/
theorem ext_of_start_size {a b : Extent} (hstart : a.start = b.start) (hsize : a.size = b.size) :
    a = b :=
  Extent.ext (UInt64.toNat_inj.mp hstart) (UInt64.toNat_inj.mp hsize)

/-- An extent is empty exactly when its size is zero. -/
theorem isEmpty_iff {e : Extent} : e.isEmpty = true ↔ e.size = 0 := by
  simp [isEmpty, size, ← UInt64.toNat_inj]

/-- An extent is not empty exactly when it starts below its stop. -/
theorem isEmpty_eq_false_iff {e : Extent} : e.isEmpty = false ↔ e.start < e.stop := by
  have := isEmpty_iff (e := e)
  cases h : e.isEmpty <;> simp [h, stop] at this ⊢ <;> omega

/-- Bases are in the order of the starts. -/
theorem base_le_iff {a b : Extent} : a.base ≤ b.base ↔ a.start ≤ b.start :=
  UInt64.le_iff_toNat_le

/-- Ending at the top is a matter of the stop. -/
theorem endsAtTop_iff {e : Extent} : e.endsAtTop = true ↔ e.stop = addressSpace := by
  have hstart := e.start_lt
  have hsize := e.size_lt
  simp only [endsAtTop, Bool.and_eq_true, bne_iff_ne, beq_iff_eq, ne_eq, ← UInt64.toNat_inj,
    UInt64.toNat_add]
  change ¬e.size = 0 ∧ (e.start + e.size) % addressSpace = 0 ↔ e.start + e.size = addressSpace
  unfold addressSpace UInt64.size at *
  omega

/-- Running past the top is a matter of the stop. -/
theorem runsPastTop_iff {e : Extent} : e.runsPastTop = true ↔ addressSpace < e.stop := by
  have hstart := e.start_lt
  have hsize := e.size_lt
  simp only [runsPastTop, Bool.and_eq_true, bne_iff_ne, ne_eq, decide_eq_true_eq,
    ← UInt64.toNat_inj, UInt64.lt_iff_toNat_lt, UInt64.toNat_sub]
  change ¬e.start = 0 ∧ (addressSpace - e.start + 0) % addressSpace < e.size ↔
    addressSpace < e.start + e.size
  unfold addressSpace UInt64.size at *
  omega

/-- Stopping above an address is a matter of the stop. -/
theorem stopsAbove_iff {e : Extent} {address : UInt64} :
    e.stopsAbove address = true ↔ address.toNat < e.stop := by
  by_cases h : address < e.base
  · have hnat := UInt64.lt_iff_toNat_lt.mp h
    simp only [stopsAbove, h, decide_true, Bool.true_or, stop, start, true_iff]
    omega
  · have hle : e.base ≤ address := UInt64.not_lt.mp h
    have hnat := UInt64.le_iff_toNat_le.mp hle
    simp only [stopsAbove, h, decide_false, Bool.false_or, decide_eq_true_eq,
      UInt64.lt_iff_toNat_lt, UInt64.toNat_sub_of_le _ _ hle, stop, start, size]
    omega

/-- Reaching an address is a matter of the stop. -/
theorem reaches_iff {e : Extent} {address : UInt64} :
    e.reaches address = true ↔ address.toNat ≤ e.stop := by
  by_cases h : address ≤ e.base
  · have hnat := UInt64.le_iff_toNat_le.mp h
    simp only [reaches, h, decide_true, Bool.true_or, stop, start, true_iff]
    omega
  · have hle : e.base ≤ address := UInt64.le_of_lt (UInt64.not_le.mp h)
    have hnat := UInt64.le_iff_toNat_le.mp hle
    simp only [reaches, h, decide_false, Bool.false_or, decide_eq_true_eq,
      UInt64.le_iff_toNat_le, UInt64.toNat_sub_of_le _ _ hle, stop, start, size]
    omega

/-- Overlapping, as inequalities between positions. -/
theorem overlaps_iff {a b : Extent} : a.overlaps b = true ↔
    a.start < a.stop ∧ b.start < b.stop ∧ a.start < b.stop ∧ b.start < a.stop := by
  simp only [overlaps, Bool.and_eq_true, Bool.not_eq_true', isEmpty_eq_false_iff,
    stopsAbove_iff, and_assoc]
  rfl

/-- Meeting, as inequalities between positions. -/
theorem meets_iff {a b : Extent} :
    a.meets b = true ↔ a.start ≤ b.stop ∧ b.start ≤ a.stop := by
  simp only [meets, Bool.and_eq_true, reaches_iff]
  rfl

/-- Spanning, as inequalities between positions. -/
theorem spans_iff {a b : Extent} :
    a.spans b = true ↔ a.start ≤ b.start ∧ b.stop ≤ a.stop := by
  simp [spans]

/-- Meeting does not depend on the order of the extents. -/
theorem meets_comm (a b : Extent) : a.meets b = b.meets a := by
  simp [meets, Bool.and_comm]

/-- Overlapping does not depend on the order of the extents. -/
theorem overlaps_comm (a b : Extent) : a.overlaps b = b.overlaps a := by
  rw [Bool.eq_iff_iff, overlaps_iff, overlaps_iff]
  omega

/-- The hull does not depend on the order of the extents. -/
theorem hull?_comm (a b : Extent) : a.hull? b = b.hull? a := by
  simp only [hull?, Nat.min_comm, Nat.max_comm]

/-- Between two positions less than the address space apart, the extent starts at the first and
stops at the second. -/
theorem between_start_stop {start stop : Nat} (hstart : start < addressSpace) (hle : start ≤ stop)
    (hlt : stop - start < addressSpace) :
    (between start stop).start = start ∧ (between start stop).stop = stop := by
  have h1 : (UInt64.ofNat start).toNat = start := UInt64.toNat_ofNat_of_lt' hstart
  have h2 : (UInt64.ofNat (stop - start)).toNat = stop - start := UInt64.toNat_ofNat_of_lt' hlt
  refine ⟨h1, ?_⟩
  simp only [Extent.stop, Extent.start, size, between, h1, h2]
  omega

end Extent

end PhysicalMemory
