import PhysicalMemory.Alignment
import PhysicalMemory.Arena.SelfCheck

/-!
# Claiming memory

A claim of some bytes chooses an address, adds the bytes to the claim table and answers with the
address. Pinned claims are made at an address that the caller gives; searching claims take the
lowest room below a ceiling. A claim of no bytes claims nothing and answers with zero.
-/

namespace PhysicalMemory.Arena

variable {capacity : Nat}

/-- Chooses the address that the caller gives. Unless it is forced, none of the extent may be
claimed; that a caller finds it claimed is no error, so it is not reported as one. -/
def choosePinned (extent : Extent) (placement : Placement) : Action (Arena capacity) UInt64 := do
  let arena ← get
  if extent.runsPastTop then Action.refuse (.claimPastTop placement extent)
  else if placement = .fixed ∧ arena.claims.unclaimed extent = false then do
    Action.emit (.alreadyClaimed extent)
    Action.fail .outOfResources
  else pure extent.base

/-- Chooses the lowest aligned address with room for the bytes below a ceiling. -/
def chooseLowest (size alignment : UInt64) (ceiling : Nat) (placement : Placement) :
    Action (Arena capacity) UInt64 := do
  let arena ← get
  if alignment = 0 then Action.refuse .zeroAlignment
  else do
    match ← Action.orHalt (arena.claims.firstFit ⟨size, alignment, ceiling⟩) with
    | some address => pure address
    | none => Action.refuse (.noRoom size alignment placement)

/-- Chooses the address of a claim. -/
def choose (address size alignment : UInt64) (placement : Placement) :
    Action (Arena capacity) UInt64 :=
  match placement with
  | .fixed => choosePinned ⟨address, size⟩ .fixed
  | .forced => choosePinned ⟨address, size⟩ .forced
  | .below4GiB => chooseLowest size alignment fourGiB .below4GiB
  | .anywhere => chooseLowest size alignment addressSpace .anywhere

/-- Claims bytes of memory and answers with their address. A pinned claim is made at the given
address, whatever its alignment; a searching claim may be made at any other. -/
def claim (address size alignment : UInt64) (placement : Placement) :
    Action (Arena capacity) UInt64 :=
  if size = 0 then pure 0
  else do
    let base ← choose address size alignment placement
    -- A chosen address may still be refused: by a full table, or as the last of all memory.
    onClaims (Claims.add ⟨base, size⟩)
    Action.emit (.claimed ⟨base, size⟩ placement)
    let arena ← get
    if arena.watchful then selfCheck
    pure base

/-- Claims bytes of memory at an address where none of them may be claimed. -/
def claimFixed (address size : UInt64) : Action (Arena capacity) UInt64 :=
  claim address size Alignment.any.bytes .fixed

/-- The placement with a number. -/
def placementOfCode {σ : Type} (code : UInt32) : Action σ Placement :=
  match Placement.ofCode? code with
  | some placement => pure placement
  | none => Action.refuse (.unknownPlacement code)

/-- Claims bytes of memory with a placement that is given by its number. -/
def request (address size alignment : UInt64) (code : UInt32) : Action (Arena capacity) UInt64 := do
  let placement ← placementOfCode code
  claim address size alignment placement

/-- Choosing a given address changes nothing; it fails when the extent runs past the top, and when
it must be unclaimed and is not. -/
theorem run_choosePinned (extent : Extent) (placement : Placement) (arena : Arena capacity) :
    (choosePinned extent placement).run arena =
      if extent.runsPastTop then
        ⟨.failed .outOfResources, arena, [.refused (.claimPastTop placement extent)]⟩
      else if placement = .fixed ∧ arena.claims.unclaimed extent = false then
        ⟨.failed .outOfResources, arena, [.alreadyClaimed extent]⟩
      else ⟨.done extent.base, arena, []⟩ := by
  simp [choosePinned, Refusal.failure]

/-- Choosing the lowest room changes nothing; it fails without an alignment and without room. -/
theorem run_chooseLowest (size alignment : UInt64) (ceiling : Nat) (placement : Placement)
    (arena : Arena capacity) :
    (chooseLowest size alignment ceiling placement).run arena =
      if alignment = 0 then ⟨.failed .invalidParameter, arena, [.refused .zeroAlignment]⟩
      else match arena.claims.firstFit ⟨size, alignment, ceiling⟩ with
        | .ok (some address) => ⟨.done address, arena, []⟩
        | .ok none =>
          ⟨.failed .outOfResources, arena, [.refused (.noRoom size alignment placement)]⟩
        | .error reason => ⟨.halted reason, arena, []⟩ := by
  by_cases h : alignment = 0
  · simp [chooseLowest, h, Refusal.failure]
  · rcases hfit : arena.claims.firstFit ⟨size, alignment, ceiling⟩ with reason | _ | address <;>
      simp [chooseLowest, h, hfit, Action.orHalt, Refusal.failure]

/-- A claim of no bytes claims nothing. -/
theorem run_claim_zero (address alignment : UInt64) (placement : Placement)
    (arena : Arena capacity) :
    (claim address 0 alignment placement).run arena = ⟨.done 0, arena, []⟩ := by
  simp [claim]

end PhysicalMemory.Arena
