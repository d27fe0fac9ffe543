import PhysicalMemory.Arena.Basic

/-!
# Listing and checking claims

The claims of an arena can be listed in the log. A self-check looks for a defect in them and halts
the boot when it finds one, for then memory may have been handed out twice. An arena without claims
is suspicious, but it has no defect.
-/

namespace PhysicalMemory.Arena

variable {capacity : Nat}

/-- The events that list a claim table. -/
def listing (claims : Claims capacity) : List Event :=
  .claimsHeading claims.size capacity claims.byteCount ::
    claims.entries.mapIdx Event.claimsEntry

/-- Lists the claims in the log. -/
def list : Action (Arena capacity) Unit := do
  let arena ← get
  Action.emitAll (listing arena.claims)

/-- Halts the boot when the claims have a defect. -/
def selfCheck : Action (Arena capacity) Unit := do
  let arena ← get
  if arena.claims.isEmpty then Action.emit .nothingClaimed
  else match arena.claims.firstDefect with
    | none => pure ()
    | some defect => do
      Action.emit (.defective defect)
      -- The claims are listed before the halt, because nothing can be asked after it.
      list
      Action.emit .corrupted
      Action.halt (.corruptClaims defect)

/-- Listing the claims changes nothing. -/
theorem run_list (arena : Arena capacity) :
    list.run arena = ⟨.done (), arena, listing arena.claims⟩ := by
  simp [list]

/-- A self-check changes nothing; it halts exactly when there are claims with a defect. -/
theorem run_selfCheck (arena : Arena capacity) :
    selfCheck.run arena =
      if arena.claims.isEmpty then ⟨.done (), arena, [.nothingClaimed]⟩
      else match arena.claims.firstDefect with
        | none => ⟨.done (), arena, []⟩
        | some defect => ⟨.halted (.corruptClaims defect), arena,
            .defective defect :: listing arena.claims ++ [.corrupted]⟩ := by
  by_cases h : arena.claims.isEmpty
  · simp [selfCheck, h]
  · cases hdefect : arena.claims.firstDefect <;> simp [selfCheck, h, hdefect, run_list]

end PhysicalMemory.Arena
