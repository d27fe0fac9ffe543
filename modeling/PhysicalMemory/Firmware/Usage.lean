import PhysicalMemory.Text.Numeral

/-!
# Usages of memory

The firmware says of each region of memory what it is used for, by a number. Numbers without a
meaning here are kept as they are, and their memory is never handed out.
-/

namespace PhysicalMemory.Firmware

/-- What a region of memory is used for. -/
structure Usage where
  /-- The number by which the firmware names the usage. -/
  code : UInt32
deriving DecidableEq

namespace Usage

/-- Usable memory. -/
def available : Usage := ⟨1⟩

/-- Memory reserved by the firmware or the platform. -/
def reserved : Usage := ⟨2⟩

/-- Configuration tables, usable once they have been read. -/
def acpi : Usage := ⟨3⟩

/-- Configuration storage that is preserved across sleep. -/
def acpiStorage : Usage := ⟨4⟩

/-- Memory with detected errors. -/
def unusable : Usage := ⟨5⟩

/-- Memory that is present but not enabled. -/
def disabled : Usage := ⟨6⟩

/-- Memory that keeps its content without power. -/
def persistent : Usage := ⟨7⟩

/-- Code of the firmware's runtime services. -/
def runtimeCode : Usage := ⟨100⟩

/-- Data of the firmware's runtime services. -/
def runtimeData : Usage := ⟨101⟩

/-- Device registers of the firmware's runtime services. -/
def runtimeDevice : Usage := ⟨102⟩

/-- Memory of the boot loader itself. -/
def loader : Usage := ⟨0xFFFFFFFF⟩

/-- The usages with a meaning, each with its name. -/
def named : List (Usage × String) :=
  [(available, "available"), (reserved, "reserved"), (acpi, "ACPI"), (acpiStorage, "ACPI NVS"),
    (unusable, "unusable"), (disabled, "disabled"), (persistent, "persistent"),
    (runtimeCode, "runtime code"), (runtimeData, "runtime data"), (runtimeDevice, "runtime MMIO"),
    (loader, "boot loader")]

/-- The name of a usage with a meaning. -/
def name? (u : Usage) : Option String := named.lookup u

/-- A usage in words: its name, or its number. -/
def text (u : Usage) : String :=
  u.name?.getD ("MemoryType(" ++ Numeral.hexadecimal u.code.toNat ++ ")")

/-- Memory of this usage may be handed out. -/
def isGranted (u : Usage) : Bool := u == available || u == loader

/-- The usages that are granted are usable memory and the boot loader's. -/
theorem isGranted_iff {u : Usage} : u.isGranted = true ↔ u = available ∨ u = loader := by
  rw [isGranted, Bool.or_eq_true, beq_iff_eq, beq_iff_eq]

/-- All other usages are not granted. -/
theorem isGranted_eq_false_iff {u : Usage} : u.isGranted = false ↔ u ≠ available ∧ u ≠ loader := by
  rw [← Bool.not_eq_true, isGranted_iff, not_or]

end Usage

end PhysicalMemory.Firmware
