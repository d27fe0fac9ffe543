import PhysicalMemory.Action
import PhysicalMemory.Proofs.Checked.Words

/-!
# Checked actions

On a machine, an action runs into a fault or leaves a report as every action does. A checked run
agrees with a report (`Agrees`) when it has no fault, ends in the same way and with the same log, and
leaves a state that is related to the reported one; and neither halts. Steps that agree, one after
the other, agree (`Agrees.bind`), so a checked action is compared with an action step by step.
-/

namespace PhysicalMemory

/-- An action on a state of type `σ` with a value of type `α`, which may run into a fault. -/
def Checked (σ α : Type) : Type := σ → Except Fault (Report σ α)

namespace Checked

variable {σ τ σ' τ' α β : Type}

/-- Runs a checked action on a state. -/
def run (action : Checked σ α) (state : σ) : Except Fault (Report σ α) := action state

/-- Goes on with another checked action when the one before is done. -/
def andThen (report : Report σ α) (next : α → Checked σ β) : Except Fault (Report σ β) :=
  match report.outcome with
  | .done value => do return ((← (next value).run report.state).after report.log)
  | .failed failure => .ok ⟨.failed failure, report.state, report.log⟩
  | .halted reason => .ok ⟨.halted reason, report.state, report.log⟩

instance : Monad (Checked σ) where
  pure value := fun state => .ok ⟨.done value, state, []⟩
  bind first next := fun state => do andThen (← first.run state) next

/-- An action, none of whose steps can run into a fault. -/
def ofAction (action : Action σ α) : Checked σ α := fun state => .ok (action.run state)

/-- Reports an event in some cases only. -/
def emitIf (p : Prop) [Decidable p] (event : Event) : Action σ Unit :=
  if p then Action.emit event else pure ()

/-- The value of a computation that may run into a fault. -/
def ofExcept (computation : Except Fault α) : Checked σ α := fun state => do
  return ⟨.done (← computation), state, []⟩

/-- A checked action on a part of a state. -/
def onPart (part : σ → τ) (replace : σ → τ → σ) (action : Checked τ α) : Checked σ α :=
  fun state => do
    let report ← action.run (part state)
    return ⟨report.outcome, replace state report.state, report.log⟩

/-- The checked action for each item, in order. -/
def forEach (items : List β) (action : β → Checked σ Unit) : Checked σ Unit :=
  match items with
  | [] => pure ()
  | item :: rest => do
    action item
    forEach rest action

/-- A value leaves the state alone. -/
@[simp]
theorem run_pure (value : α) (state : σ) :
    (pure value : Checked σ α).run state = .ok ⟨.done value, state, []⟩ := rfl

/-- A sequence runs its first action and goes on from there. -/
theorem run_bind (first : Checked σ α) (next : α → Checked σ β) (state : σ) :
    (first >>= next).run state = (do andThen (← first.run state) next) := rfl

/-- When nothing was reported before, the next action runs alone. -/
theorem andThen_quiet (value : α) (state : σ) (next : α → Checked σ β) :
    andThen ⟨.done value, state, []⟩ next = (next value).run state := by
  change ((next value).run state >>= fun report => .ok (report.after [])) = _
  cases (next value).run state <;> rfl

/-- What comes after reading the state gets the state. -/
@[simp]
theorem run_get_bind (next : σ → Checked σ β) (state : σ) :
    (ofAction get >>= next).run state = (next state).run state :=
  andThen_quiet state state next

/-- A computation without a fault is done with its value. -/
theorem run_ofExcept {computation : Except Fault α} {value : α} (h : computation = .ok value)
    (state : σ) : (ofExcept computation).run state = .ok ⟨.done value, state, []⟩ := by
  subst h
  rfl

/-- What comes after a computation without a fault gets its value. -/
theorem run_ofExcept_bind {computation : Except Fault α} {value : α}
    (h : computation = .ok value) (next : α → Checked σ β) (state : σ) :
    (ofExcept computation >>= next).run state = (next value).run state := by
  subst h
  exact andThen_quiet value state next

/-- What comes after an action that is done runs on the state that it left, and its events come
after. -/
theorem run_ofAction_bind {action : Action σ α} {state left : σ} {value : α} {log : List Event}
    (h : action.run state = ⟨.done value, left, log⟩) (next : α → Checked σ β) :
    (ofAction action >>= next).run state = (do return (← (next value).run left).after log) := by
  change andThen (action.run state) next = _
  rw [h]
  rfl

/-- An event that is reported in some cases only is the whole log, or nothing is. -/
theorem run_emitIf (p : Prop) [Decidable p] (event : Event) (state : σ) :
    (emitIf p event).run state = ⟨.done (), state, if p then [event] else []⟩ := by
  unfold emitIf
  split <;> rfl

/-- The alternatives of a choice run as they do alone. -/
@[simp]
theorem run_ite (p : Prop) [Decidable p] (yes no : Checked σ α) (state : σ) :
    (if p then yes else no).run state = if p then yes.run state else no.run state := by
  split <;> rfl

/-- A checked run agrees with a report: it has no fault and ends in the same way with the same log,
the states that they leave are related, and it is not a halt. -/
def Agrees (R : τ → σ → Prop) (result : Except Fault (Report τ α)) (report : Report σ α) : Prop :=
  ∃ left, result = .ok ⟨report.outcome, left, report.log⟩ ∧ R left report.state ∧
    ∀ reason, report.outcome ≠ .halted reason

variable {R : τ → σ → Prop} {machine : τ} {state : σ}

/-- Two actions that end in the same way with the same log and leave their states alone agree. -/
theorem agrees_still (h : R machine state) {first : Action τ α} {second : Action σ α}
    {outcome : Outcome α} {log : List Event} (hfirst : first.run machine = ⟨outcome, machine, log⟩)
    (hsecond : second.run state = ⟨outcome, state, log⟩)
    (hhalted : ∀ reason, outcome ≠ .halted reason) :
    Agrees R ((ofAction first).run machine) (second.run state) := by
  rw [hsecond]
  exact ⟨machine, congrArg Except.ok hfirst, h, hhalted⟩

/-- A value is the same on both sides. -/
theorem agrees_pure (h : R machine state) (value : α) :
    Agrees R ((pure value : Checked τ α).run machine) ((pure value : Action σ α).run state) :=
  ⟨machine, rfl, h, by simp⟩

/-- Events that came before are the same on both sides. -/
theorem Agrees.after {result : Except Fault (Report τ α)} {report : Report σ α}
    (h : Agrees R result report) (events : List Event) :
    Agrees R (do return (← result).after events) (report.after events) := by
  obtain ⟨left, rfl, hleft, hhalted⟩ := h
  exact ⟨left, rfl, hleft, hhalted⟩

/-- When the first actions agree and so do the next ones from what the first leave, the sequences
agree. -/
theorem Agrees.bind {first : Checked τ α} {next : α → Checked τ β} {action : Action σ α}
    {next' : α → Action σ β} (h : Agrees R (first.run machine) (action.run state))
    (hnext : ∀ value left, (action.run state).outcome = .done value →
      R left (action.run state).state →
        Agrees R ((next value).run left) ((next' value).run (action.run state).state)) :
    Agrees R ((first >>= next).run machine) ((action >>= next').run state) := by
  obtain ⟨left, hrun, hleft, hhalted⟩ := h
  rw [run_bind, hrun, ok_bind, Action.run_bind]
  generalize action.run state = report at *
  obtain ⟨outcome, last, log⟩ := report
  cases outcome with
  | done value => exact (hnext value left rfl hleft).after log
  | failed failure => exact ⟨left, rfl, hleft, by simp⟩
  | halted reason => exact absurd rfl (hhalted reason)

/-- A function of the value is the same on both sides. -/
theorem Agrees.map {first : Checked τ α} {action : Action σ α}
    (h : Agrees R (first.run machine) (action.run state)) (f : α → β) :
    Agrees R ((first >>= fun value => pure (f value)).run machine)
      ((action >>= fun value => pure (f value)).run state) :=
  h.bind fun value _ _ hleft => agrees_pure hleft (f value)

/-- Actions on parts of states agree when they do on the parts, and the states are related again when
the parts are. -/
theorem Agrees.onPart {R' : τ' → σ' → Prop} {part : τ' → τ} {replace : τ' → τ → τ'}
    {part' : σ' → σ} {replace' : σ' → σ → σ'} {machine : τ'} {state : σ'} {first : Checked τ α}
    {action : Action σ α}
    (h : Agrees R (first.run (part machine)) (action.run (part' state)))
    (hreplace : ∀ left, R left (action.run (part' state)).state →
      R' (replace machine left) (replace' state (action.run (part' state)).state)) :
    Agrees R' ((first.onPart part replace).run machine)
      ((action.onPart part' replace').run state) := by
  obtain ⟨left, hrun, hleft, hhalted⟩ := h
  rw [Action.run_onPart]
  refine ⟨replace machine left, ?_, hreplace left hleft, hhalted⟩
  change (do
    let report ← first.run (part machine)
    return (⟨report.outcome, replace machine report.state, report.log⟩ : Report τ' α)) = _
  rw [hrun]
  rfl

/-- Actions for each item agree when they agree for one item, from all related states. -/
theorem agrees_forEach {action : β → Checked τ Unit} {action' : β → Action σ Unit}
    (h : ∀ item machine state, R machine state →
      Agrees R ((action item).run machine) ((action' item).run state))
    (items : List β) (hrelated : R machine state) :
    Agrees R ((forEach items action).run machine) ((Action.forEach items action').run state) := by
  induction items generalizing machine state with
  | nil => exact agrees_pure hrelated ()
  | cons item rest ih => exact (h item machine state hrelated).bind fun _ _ _ hleft => ih hleft

end Checked

end PhysicalMemory
