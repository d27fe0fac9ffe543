import PhysicalMemory.Action
import PhysicalMemory.Claims.Basic

/-!
# Claiming an extent

A new extent is joined with all entries that it overlaps or touches. In a well formed table these
stand in one run, so the table is cut in three: the entries before the run, the run, and the entries
after it. An extent that meets no entry needs a free slot; one that meets some entry never does.
-/

namespace PhysicalMemory.Claims

variable {capacity : Nat}

/-- The entries of a table around the place of a new extent. -/
structure Cut where
  /-- The entries that start below the new extent and do not meet it. -/
  before : List Extent
  /-- The run of entries from there that meet the new extent. -/
  met : List Extent
  /-- The entries after the run. -/
  after : List Extent
deriving DecidableEq

/-- Cuts entries around the place of a new extent. -/
def cut (extent : Extent) (entries : List Extent) : Cut :=
  let isBefore := fun entry : Extent =>
    !(decide (extent.base ≤ entry.base) || extent.meets entry)
  let rest := entries.dropWhile isBefore
  ⟨entries.takeWhile isBefore, rest.takeWhile extent.meets, rest.dropWhile extent.meets⟩

/-- The least extent that spans an extent and entries, unless it is the whole address space. -/
def hullOfAll? (extent : Extent) (entries : List Extent) : Option Extent :=
  entries.foldlM Extent.hull? extent

/-- The table with an extent added to its claimed bytes. -/
def insert (claims : Claims capacity) (extent : Extent) : Except Refusal (Claims capacity) :=
  if extent.isEmpty then .ok claims
  else if extent.runsPastTop then .error (.insertPastTop extent)
  else
    let ⟨before, met, after⟩ := cut extent claims.entries
    if met.isEmpty then
      -- Only an extent that stands alone needs a slot of its own.
      if claims.isFull then .error (.tableFull capacity extent)
      else .ok ⟨before ++ extent :: after⟩
    else match hullOfAll? extent met with
      | none => .error (.insertWholeSpace extent)
      | some joined => .ok ⟨before ++ joined :: after⟩

/-- Adds an extent to the claimed bytes, and reports when several entries become one. A table that
loses `k` entries had `k + 1` of them joined. -/
def add (extent : Extent) : Action (Claims capacity) Unit := do
  let claims ← get
  let grown ← Action.orRefuse (claims.insert extent)
  if grown.size < claims.size then
    Action.emit (.joined extent (claims.size - grown.size + 1))
  set grown

/-- Adding an extent leaves the table with it, or the table as it was when the extent is refused. -/
theorem run_add (extent : Extent) (claims : Claims capacity) :
    (add extent).run claims =
      match claims.insert extent with
      | .ok grown => ⟨.done (), grown,
          if grown.size < claims.size then
            [.joined extent (claims.size - grown.size + 1)]
          else []⟩
      | .error refusal => ⟨.failed refusal.failure, claims, [.refused refusal]⟩ := by
  cases h : claims.insert extent with
  | ok grown =>
    by_cases fewer : grown.size < claims.size <;> simp [add, Action.orRefuse, h, fewer]
  | error refusal => simp [add, Action.orRefuse, h]

end PhysicalMemory.Claims
