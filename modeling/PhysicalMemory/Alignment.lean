import PhysicalMemory.AddressSpace

/-!
# Alignments

Alignments by what the memory is for. Any number of bytes other than zero is an alignment; these are
the ones that have a purpose.
-/

namespace PhysicalMemory

/-- Alignments by what the memory is for, in bytes. -/
inductive Alignment where
  /-- Memory that may lie anywhere. -/
  | any
  /-- Strings. -/
  | text
  /-- Entry points of code. -/
  | function
  /-- Data of the size of a pointer. -/
  | pointer
  /-- Whole pages. -/
  | page
deriving DecidableEq

/-- The addresses of aligned memory are multiples of this. -/
def Alignment.bytes : Alignment → UInt64
  | .any => 1
  | .text => 1
  | .function => 16
  | .pointer => 8
  | .page => platformPage

end PhysicalMemory
