import PhysicalMemory.Text.Extent

/-!
# Defects of a claim table

A claim table lists non-empty extents in ascending order with a gap between any two of them, all of
them inside the address space. A `Defect` says which entry is the first to break that form, and how.
-/

namespace PhysicalMemory

/-- How an entry breaks the form of a claim table. -/
inductive Flaw where
  /-- The entry covers no memory. -/
  | zeroLength
  /-- The entry runs past the top of the address space, or ends there before the last entry. -/
  | overflow
  /-- The entry does not start after the end of the entry before it. -/
  | unsorted
  /-- The entry starts where the entry before it ends, so the two should be one. -/
  | unmerged
deriving DecidableEq

/-- A flaw in words. -/
def Flaw.text : Flaw → String
  | .zeroLength => "zero-length range"
  | .overflow => "range overflows the address space"
  | .unsorted => "range table is not sorted"
  | .unmerged => "adjacent ranges were not merged"

/-- An entry that breaks the form of a claim table. -/
structure Defect where
  /-- The position of the entry in the table. -/
  index : Nat
  /-- The entry. -/
  extent : Extent
  /-- How it breaks the form. -/
  flaw : Flaw
deriving DecidableEq

/-- A defect in words. -/
def Defect.text (d : Defect) : String :=
  "entry " ++ Numeral.decimal d.index ++ " " ++ Text.extent d.extent ++ ": " ++ d.flaw.text

end PhysicalMemory
