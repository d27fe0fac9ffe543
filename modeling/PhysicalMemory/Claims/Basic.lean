import PhysicalMemory.Claims.Defect

/-!
# Claim tables

A claim table records which memory is claimed, as a list of extents that never outgrows its
capacity. Memory is claimed and never given back. A table is well formed when its entries are
non-empty, lie inside the address space and ascend with a gap between any two; then each set of
bytes has one table. Nothing keeps a table from being built of entries that are not in that form, so
every operation has an answer for those too, and `firstDefect` finds where the form is lost.
-/

namespace PhysicalMemory

/-- The claimed memory, in at most `capacity` entries. -/
structure Claims (capacity : Nat) where
  /-- The entries, in ascending order when the table is well formed. -/
  entries : List Extent
deriving DecidableEq

namespace Claims

/-- The capacity of a table when nobody asks for another. -/
def defaultCapacity : Nat := 4096

variable {capacity : Nat}

/-- Nothing is claimed. -/
def empty : Claims capacity := ⟨[]⟩

/-- The number of entries. -/
def size (claims : Claims capacity) : Nat := claims.entries.length

/-- There is no entry. -/
def isEmpty (claims : Claims capacity) : Bool := claims.entries.isEmpty

/-- There is no room for another entry. -/
def isFull (claims : Claims capacity) : Bool := decide (capacity ≤ claims.size)

/-- The number of bytes in all entries. -/
def byteCount (claims : Claims capacity) : Nat := Extent.totalSize claims.entries

/-- No entry shares a byte with the extent. -/
def unclaimed (claims : Claims capacity) (extent : Extent) : Bool :=
  claims.entries.all fun entry => !entry.overlaps extent

/-- A byte is claimed when an entry holds it. -/
instance : Membership Nat (Claims capacity) where
  mem claims x := ∃ entry ∈ claims.entries, x ∈ entry

/-- The claimed bytes. -/
theorem mem_def {claims : Claims capacity} {x : Nat} :
    x ∈ claims ↔ ∃ entry ∈ claims.entries, x ∈ entry := Iff.rfl

/-- Nothing is claimed in an empty table. -/
theorem not_mem_empty (x : Nat) : x ∉ (empty : Claims capacity) := by
  simp [mem_def, empty]

/-- The form of the entries of a claim table, however many they are. -/
structure InForm (entries : List Extent) : Prop where
  /-- Every entry holds a byte. -/
  nonempty : ∀ entry ∈ entries, entry.start < entry.stop
  /-- Every entry lies inside the address space. -/
  inside : ∀ entry ∈ entries, entry.stop ≤ addressSpace
  /-- Every entry ends below the start of each entry after it, with a gap between. -/
  apart : entries.Pairwise fun earlier later => earlier.stop < later.start

/-- The form of a claim table. -/
structure WellFormed (claims : Claims capacity) : Prop extends InForm claims.entries where
  /-- The table does not outgrow its capacity. -/
  size_le : claims.size ≤ capacity

/-- No entries are in form. -/
theorem inForm_nil : InForm [] :=
  ⟨by simp, by simp, List.Pairwise.nil⟩

/-- Entries that are in form are so without the first. -/
theorem InForm.tail {first : Extent} {rest : List Extent} (h : InForm (first :: rest)) :
    InForm rest :=
  ⟨fun e he => h.nonempty e (List.mem_cons_of_mem _ he),
    fun e he => h.inside e (List.mem_cons_of_mem _ he), (List.pairwise_cons.mp h.apart).2⟩

/-- The empty table is well formed. -/
theorem wellFormed_empty : (empty : Claims capacity).WellFormed :=
  ⟨inForm_nil, Nat.zero_le _⟩

/-- What is wrong with an entry, given the entry before it, if any, and whether it is the last. -/
def flaw? (previous : Option Extent) (entry : Extent) (isLast : Bool) : Option Flaw :=
  if entry.isEmpty then some .zeroLength
  else if entry.runsPastTop || (entry.endsAtTop && !isLast) then some .overflow
  else match previous with
    | none => none
    | some before =>
      if decide (entry.base ≤ before.base) || before.overlaps entry then some .unsorted
      else if before.meets entry then some .unmerged
      else none

/-- The first defect among entries that follow a given entry, counted from a given index. -/
def firstDefectFrom (index : Nat) (previous : Option Extent) : List Extent → Option Defect
  | [] => none
  | entry :: rest =>
    match flaw? previous entry rest.isEmpty with
    | some flaw => some ⟨index, entry, flaw⟩
    | none => firstDefectFrom (index + 1) (some entry) rest

/-- The first entry that breaks the form of a claim table. -/
def firstDefect (claims : Claims capacity) : Option Defect :=
  firstDefectFrom 0 none claims.entries

end Claims

end PhysicalMemory
