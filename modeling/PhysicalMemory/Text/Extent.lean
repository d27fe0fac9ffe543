import PhysicalMemory.Extent.Basic
import PhysicalMemory.Text.Address
import PhysicalMemory.Text.Size

/-!
# The text of an extent

An extent is written as its first and its last byte and its size, as in `0x1000-0x1FFF (4KiB)`: the
last byte has an address even where the extent ends at the top of the address space. An empty extent
is written as its base alone.
-/

namespace PhysicalMemory.Text

/-- An extent by its first and last bytes and its size. -/
def extent (e : Extent) : String :=
  if e.isEmpty then address e.base ++ " (0B)"
  else address e.base ++ "-" ++ address e.lastByte ++ " (" ++ size e.size ++ ")"

end PhysicalMemory.Text
