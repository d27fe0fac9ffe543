import PhysicalMemory.Operation
import PhysicalMemory.Proofs.Checked.Firmware

/-!
# Runs without a fault

Every operation on an arena in slots agrees with the same operation on an arena that it holds
(`perform_agrees`), and so does every run (`reports_agree`). What can be seen of a run is then the
same on a machine as in the library, with every step checked or none, and in an arena that is
watchful as in one that is not (`steps_of_run`): no step halts, and none runs into a fault.
-/

namespace PhysicalMemory

open Checked

variable {capacity : Nat}

/-- Performs an operation on an arena in slots. -/
def Operation.performChecked : Operation → Checked SlotArena Reply
  | .insert extent => do SlotArena.onTable (ClaimSlots.add extent); pure .nothing
  | .claim address size alignment placement => do
    return .address (← SlotArena.claim address size alignment placement)
  | .request address size alignment code => do
    return .address (← SlotArena.request address size alignment code)
  | .claimFixed address size => do
    return .address (← SlotArena.claim address size Alignment.any.bytes .fixed)
  | .reserve extent => do SlotArena.reserve extent; pure .nothing
  | .selfCheck => do SlotArena.selfCheck; pure .nothing
  | .list => do SlotArena.list; pure .nothing
  | .withhold regions => do Checked.withhold regions; pure .nothing
  | .withholdLoader regions => do Checked.withholdLoader regions; pure .nothing
  | .adopt regions => do return .map (← Checked.adopt regions)

/-- An operation on an arena in slots agrees with the operation on the arena that it holds. -/
theorem Operation.perform_agrees {slotted : SlotArena} {arena : Arena capacity}
    (h : slotted.Holds arena) (operation : Operation) :
    Agrees SlotArena.Holds (operation.performChecked.run slotted)
      (operation.perform.run arena) := by
  cases operation with
  | insert extent => exact (SlotArena.onTable_add_agrees h extent).map fun _ => Reply.nothing
  | claim address size alignment placement =>
    exact (SlotArena.claim_agrees h address size alignment placement).map Reply.address
  | request address size alignment code =>
    exact (SlotArena.request_agrees h address size alignment code).map Reply.address
  | claimFixed address size =>
    exact (SlotArena.claim_agrees h address size Alignment.any.bytes .fixed).map Reply.address
  | reserve extent => exact (SlotArena.reserve_agrees h extent).map fun _ => Reply.nothing
  | selfCheck => exact (SlotArena.selfCheck_agrees h).map fun _ => Reply.nothing
  | list => exact (SlotArena.list_agrees h).map fun _ => Reply.nothing
  | withhold regions => exact (withhold_agrees h regions).map fun _ => Reply.nothing
  | withholdLoader regions => exact (withholdLoader_agrees h regions).map fun _ => Reply.nothing
  | adopt regions => exact (adopt_agrees h regions).map Reply.map

/-- What can be seen of a step of a run. -/
structure Step where
  /-- How the step ended. -/
  outcome : Outcome Reply
  /-- The claims that it left. -/
  entries : List Extent
  /-- What it reported. -/
  log : List Event
deriving DecidableEq

/-- The steps of a run. -/
def Arena.steps (arena : Arena capacity) (operations : List Operation) : List Step :=
  (arena.reports operations).map fun report =>
    ⟨report.outcome, report.state.claims.entries, report.log⟩

/-- The steps of a run on an arena in slots. -/
def SlotArena.steps (slotted : SlotArena) : List Operation → Except Fault (List Step)
  | [] => .ok []
  | operation :: rest => do
    let report ← operation.performChecked.run slotted
    let entries ← report.state.table.entries
    let later ← report.state.steps rest
    return ⟨report.outcome, entries, report.log⟩ :: later

/-- The steps of a run on an arena in slots are those of the run on an arena that it holds, and no
step halts. -/
theorem SlotArena.steps_eq {slotted : SlotArena} {arena : Arena capacity}
    (h : slotted.Holds arena) (operations : List Operation) :
    slotted.steps operations = .ok (arena.steps operations) ∧
      ∀ step ∈ arena.steps operations, ∀ reason, step.outcome ≠ .halted reason := by
  induction operations generalizing slotted arena with
  | nil => exact ⟨rfl, by simp [Arena.steps, Arena.reports]⟩
  | cons operation rest ih =>
    obtain ⟨left, hrun, hleft, hhalted⟩ := operation.perform_agrees h
    obtain ⟨hsteps, hrest⟩ := ih hleft
    constructor
    · rw [SlotArena.steps, hrun, ok_bind, hleft.table_holds.entries_eq, ok_bind, hsteps, ok_bind]
      rfl
    · intro step hstep
      rcases List.mem_cons.mp hstep with rfl | hstep
      · exact hhalted
      · exact hrest step hstep

/-- Whatever operations are performed from an empty arena on, one after the other, no step halts. Nor
does any step of the machine run into a fault, where the claims are in slots, every position is
checked and so are all sums, differences, remainders and casts. And every step ends in the same way
with the same claims and the same log, on the machine and in the library, in an arena that is watchful
and in one that is not. -/
theorem steps_of_run (capacity : Nat) (page : PageSize) (operations : List Operation) :
    ∃ steps : List Step,
      (∀ watchful, (Arena.empty page watchful : Arena capacity).steps operations = steps) ∧
      (∀ watchful, (SlotArena.empty capacity page watchful).steps operations = .ok steps) ∧
      ∀ step ∈ steps, ∀ reason, step.outcome ≠ .halted reason := by
  have hsteps := fun watchful other =>
    SlotArena.steps_eq (SlotArena.holds_empty capacity page watchful other) operations
  refine ⟨(Arena.empty page false : Arena capacity).steps operations, fun watchful => ?_,
    fun watchful => (hsteps watchful false).1, (hsteps false false).2⟩
  -- One machine holds both arenas.
  exact Except.ok.inj ((hsteps false watchful).1.symm.trans (hsteps false false).1)

end PhysicalMemory
