import PhysicalMemory.Firmware.Region
import PhysicalMemory.Text.Extent

/-!
# Findings about a memory map

What an audit of a memory map finds is a list of findings, each about one entry. An overlap is
suspicious and no more; the other findings make the map unusable.
-/

namespace PhysicalMemory.Firmware

/-- Something that an audit finds about an entry of a memory map. -/
inductive Finding where
  /-- The entry at a position starts below the entry before it. -/
  | startsBelow (index : Nat) (region previous : Region)
  /-- The entry at a position shares a byte with an entry before it. -/
  | overlapsEarlier (index : Nat) (region : Region)
  /-- The entry at a position runs past the top of the address space, or ends there before the last
  entry. -/
  | overflows (index : Nat) (region : Region)
deriving DecidableEq

namespace Finding

/-- The finding makes the map unusable. -/
def isFatal : Finding → Bool
  | .startsBelow .. => true
  | .overlapsEarlier .. => false
  | .overflows .. => true

/-- A finding in words. -/
def text : Finding → String
  | .startsBelow index region previous =>
    "memory map entry " ++ Numeral.decimal index ++ " " ++ Text.extent region.extent ++
      " starts below entry " ++ Numeral.decimal (index - 1) ++ " " ++ Text.extent previous.extent
  | .overlapsEarlier index region =>
    "memory map entry " ++ Numeral.decimal index ++ " " ++ Text.extent region.extent ++
      " (" ++ region.usage.text ++ ") overlaps an earlier entry"
  | .overflows index region =>
    "memory map entry " ++ Numeral.decimal index ++
      " at " ++ Numeral.hexadecimal region.extent.start ++
      " with length " ++ Numeral.hexadecimal region.extent.size ++ " overflows"

end Finding

end PhysicalMemory.Firmware
