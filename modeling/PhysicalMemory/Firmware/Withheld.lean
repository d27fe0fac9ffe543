import PhysicalMemory.Firmware.Region
import PhysicalMemory.Text.Extent

/-!
# Withheld memory

Memory that a memory map does not grant is withheld from allocation, piece by piece, and each piece
is withheld for a reason.
-/

namespace PhysicalMemory.Firmware

/-- Why a piece of memory is withheld. -/
inductive Reason where
  /-- It lies above all that the map describes. -/
  | aboveMap
  /-- It lies between regions, and none describes it. -/
  | gap
  /-- It has a usage whose memory is not handed out. -/
  | usage (u : Usage)
  /-- It belongs to the boot loader, which is still running. -/
  | loader
deriving DecidableEq

/-- A piece of memory to withhold. -/
structure Withheld where
  /-- The memory, before it is widened to whole pages. -/
  extent : Extent
  /-- Why it is withheld. -/
  reason : Reason
deriving DecidableEq

/-- A piece of withheld memory in words. -/
def Withheld.text (w : Withheld) : String :=
  match w.reason with
  | .aboveMap => "blacklisting everything above " ++ Text.address w.extent.base
  | .gap => "blacklisting gap " ++ Text.extent w.extent
  | .usage u => "blacklisting " ++ Text.extent w.extent ++ " (" ++ u.text ++ ")"
  | .loader => "blacklisting boot loader memory " ++ Text.extent w.extent

end PhysicalMemory.Firmware
