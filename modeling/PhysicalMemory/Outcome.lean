import PhysicalMemory.Claims.Defect

/-!
# How an operation ends

An operation is done and has a value, or it fails and its caller may carry on, or it halts the boot
because nothing after it could be trusted.
-/

namespace PhysicalMemory

/-- Why an operation fails, as far as a caller can tell. -/
inductive Failure where
  /-- The request or the memory map is malformed. -/
  | invalidParameter
  /-- No memory satisfies the request, or there is no room to record it. -/
  | outOfResources
deriving DecidableEq

/-- A failure in words. -/
def Failure.text : Failure → String
  | .invalidParameter => "invalid parameter"
  | .outOfResources => "out of resources"

/-- Why the boot is halted. -/
inductive Halt where
  /-- The claim table lost its form, so no claim in it can be trusted. -/
  | corruptClaims (defect : Defect)
  /-- A position was to be rounded to a multiple of zero. -/
  | zeroStep
deriving DecidableEq

/-- The message of a halt. -/
def Halt.text : Halt → String
  | .corruptClaims defect => "range table is corrupted: " ++ defect.text
  | .zeroStep => "attempt to calculate the remainder with a divisor of zero"

/-- How an operation ends. -/
inductive Outcome (α : Type) where
  /-- The operation is done and has a value. -/
  | done (value : α)
  /-- The operation fails. -/
  | failed (failure : Failure)
  /-- The boot is halted. -/
  | halted (reason : Halt)
deriving DecidableEq

end PhysicalMemory
