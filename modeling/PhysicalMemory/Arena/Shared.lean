import PhysicalMemory.Arena.Reserve

/-!
# The shared arena

A boot has one arena, which everything that needs memory goes through. Joining a claim with the
entries it meets is one step of several moves, so the arena is behind a gate that lets one action in
at a time; an action that goes through the gate is answered as by the arena itself.
-/

namespace PhysicalMemory

/-- An arena behind a gate. -/
structure Shared (capacity : Nat) where
  /-- The arena, for whoever holds the gate. -/
  arena : Arena capacity

namespace Shared

variable {capacity : Nat} {α : Type}

/-- Runs an action on the arena, while no other does. -/
def exclusively (action : Action (Arena capacity) α) : Action (Shared capacity) α :=
  action.onPart Shared.arena fun _ arena => ⟨arena⟩

/-- Behind the gate, an action is answered as by the arena itself. -/
theorem run_exclusively (action : Action (Arena capacity) α) (shared : Shared capacity) :
    (exclusively action).run shared =
      ⟨(action.run shared.arena).outcome, ⟨(action.run shared.arena).state⟩,
        (action.run shared.arena).log⟩ := rfl

end Shared

end PhysicalMemory
