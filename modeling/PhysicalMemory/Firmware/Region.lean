import PhysicalMemory.Extent.Basic
import PhysicalMemory.Firmware.Usage

/-!
# Regions of a memory map

A memory map is a list of regions, each an extent of memory with its usage and attributes. Regions
of the same usage and attributes are of the same kind; only those are ever joined.
-/

namespace PhysicalMemory.Firmware

/-- One entry of a memory map. -/
structure Region where
  /-- The memory that the entry describes. -/
  extent : Extent
  /-- What the memory is used for. -/
  usage : Usage
  /-- Further properties of the memory, as bits. -/
  attributes : UInt32
deriving DecidableEq

namespace Region

/-- The attribute bit of an entry that is in force. -/
def enabled : UInt32 := 1

/-- The regions have the same usage and attributes. -/
def sameKind (a b : Region) : Bool := a.usage == b.usage && a.attributes == b.attributes

/-- The order of a memory map: by base address. -/
def compareBases (a b : Region) : Ordering := compare a.extent.base b.extent.base

end Region

/-- What a platform's own memory map entry has to say to become a region. Entries of a platform
without attributes are in force. -/
class BootEntry (ρ : Type) where
  /-- The memory that the entry describes. -/
  extent : ρ → Extent
  /-- What the memory is used for. -/
  usage : ρ → Usage
  /-- Further properties of the memory. -/
  attributes : ρ → UInt32 := fun _ => Region.enabled

/-- A platform's memory map entry as a region. -/
def Region.ofEntry {ρ : Type} [BootEntry ρ] (entry : ρ) : Region :=
  ⟨BootEntry.extent entry, BootEntry.usage entry, BootEntry.attributes entry⟩

instance : BootEntry Region where
  extent := Region.extent
  usage := Region.usage
  attributes := Region.attributes

/-- A memory map entry of a platform without attributes. -/
structure PlainEntry where
  /-- The memory that the entry describes. -/
  extent : Extent
  /-- What the memory is used for. -/
  usage : Usage
deriving DecidableEq

instance : BootEntry PlainEntry where
  extent := PlainEntry.extent
  usage := PlainEntry.usage

end PhysicalMemory.Firmware
