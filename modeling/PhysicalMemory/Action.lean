import PhysicalMemory.Event

/-!
# Actions

An action runs on a state and leaves a `Report`: how it ended, the state it leaves, and the events
it reported, in order. Actions are sequenced until one fails or halts, and what was done and
reported before that stays done and reported (`run_bind` with the lemmas on `Report.andThen`): a
failure of the second action undoes nothing of the first.
-/

namespace PhysicalMemory

/-- What is left when an action has run. -/
@[ext]
structure Report (σ α : Type) where
  /-- How the action ended. -/
  outcome : Outcome α
  /-- The state that the action leaves. -/
  state : σ
  /-- What the action reported, in order. -/
  log : List Event
deriving DecidableEq

/-- An action on a state of type `σ` with a value of type `α`. -/
def Action (σ α : Type) : Type := σ → Report σ α

variable {σ τ α β γ : Type}

/-- Runs an action on a state. -/
def Action.run (action : Action σ α) (state : σ) : Report σ α := action state

namespace Report

/-- The report of an action that came after these events. -/
def after (events : List Event) (report : Report σ α) : Report σ α :=
  { report with log := events ++ report.log }

/-- Goes on with another action when the one before is done. -/
def andThen (report : Report σ α) (next : α → Action σ β) : Report σ β :=
  match report.outcome with
  | .done value => ((next value).run report.state).after report.log
  | .failed failure => ⟨.failed failure, report.state, report.log⟩
  | .halted reason => ⟨.halted reason, report.state, report.log⟩

/-- When the first action is done, the next runs on the state it left, and its events come after. -/
@[simp]
theorem andThen_done (value : α) (state : σ) (log : List Event) (next : α → Action σ β) :
    (⟨.done value, state, log⟩ : Report σ α).andThen next =
      ((next value).run state).after log := rfl

/-- When the first action fails, all that it did and reported stays. -/
@[simp]
theorem andThen_failed (failure : Failure) (state : σ) (log : List Event)
    (next : α → Action σ β) :
    (⟨.failed failure, state, log⟩ : Report σ α).andThen next =
      ⟨.failed failure, state, log⟩ := rfl

/-- When the first action halts, all that it did and reported stays. -/
@[simp]
theorem andThen_halted (reason : Halt) (state : σ) (log : List Event) (next : α → Action σ β) :
    (⟨.halted reason, state, log⟩ : Report σ α).andThen next =
      ⟨.halted reason, state, log⟩ := rfl

/-- Events that came before stand before in the log. -/
@[simp]
theorem after_mk (events log : List Event) (outcome : Outcome α) (state : σ) :
    (⟨outcome, state, log⟩ : Report σ α).after events = ⟨outcome, state, events ++ log⟩ := rfl

/-- Nothing came before. -/
@[simp]
theorem after_nil (report : Report σ α) : report.after [] = report := rfl

/-- What came before in two parts came before. -/
@[simp]
theorem after_after (events earlier : List Event) (report : Report σ α) :
    (report.after events).after earlier = report.after (earlier ++ events) := by
  simp [after]

/-- Events that came before do not change how it goes on. -/
theorem after_andThen (events : List Event) (report : Report σ α) (next : α → Action σ β) :
    (report.after events).andThen next = (report.andThen next).after events := by
  obtain ⟨outcome, state, log⟩ := report
  cases outcome <;> simp

end Report

namespace Action

/-- The first action, then the action that its value calls for, unless the first fails or halts. -/
def bind (first : Action σ α) (next : α → Action σ β) : Action σ β := fun state =>
  (first.run state).andThen next

instance : Monad (Action σ) where
  pure value := fun state => ⟨.done value, state, []⟩
  bind := Action.bind

instance : MonadStateOf σ (Action σ) where
  get := fun state => ⟨.done state, state, []⟩
  set state := fun _ => ⟨.done (), state, []⟩
  modifyGet f := fun state => ⟨.done (f state).1, (f state).2, []⟩

/-- Reports an event. -/
def emit (event : Event) : Action σ Unit := fun state => ⟨.done (), state, [event]⟩

/-- Reports events. -/
def emitAll (events : List Event) : Action σ Unit := fun state => ⟨.done (), state, events⟩

/-- Fails, without an event. -/
def fail (failure : Failure) : Action σ α := fun state => ⟨.failed failure, state, []⟩

/-- Halts the boot. -/
def halt (reason : Halt) : Action σ α := fun state => ⟨.halted reason, state, []⟩

/-- Refuses a request: reports why and fails. -/
def refuse (refusal : Refusal) : Action σ α := fun state =>
  ⟨.failed refusal.failure, state, [.refused refusal]⟩

/-- The value, unless its computation halted. -/
def orHalt : Except Halt α → Action σ α
  | .ok value => pure value
  | .error reason => halt reason

/-- The value, unless the request for it is refused. -/
def orRefuse : Except Refusal α → Action σ α
  | .ok value => pure value
  | .error refusal => refuse refusal

/-- The action for each item, in order. -/
def forEach (items : List β) (action : β → Action σ Unit) : Action σ Unit :=
  match items with
  | [] => pure ()
  | item :: rest => do
    action item
    forEach rest action

/-- An action on a part of a state. -/
def onPart (part : σ → τ) (replace : σ → τ → σ) (action : Action τ α) : Action σ α := fun state =>
  let report := action.run (part state)
  ⟨report.outcome, replace state report.state, report.log⟩

/-- A value is done and leaves the state alone. -/
@[simp]
theorem run_pure (value : α) (state : σ) :
    (pure value : Action σ α).run state = ⟨.done value, state, []⟩ := rfl

/-- A sequence runs its first action and goes on from there. -/
@[simp]
theorem run_bind (first : Action σ α) (next : α → Action σ β) (state : σ) :
    (first >>= next).run state = (first.run state).andThen next := rfl

/-- A function of the value of an action. -/
@[simp]
theorem run_map (f : α → β) (action : Action σ α) (state : σ) :
    (f <$> action).run state = (action.run state).andThen fun value => pure (f value) := rfl

/-- Two actions are the same when they run the same. -/
theorem ext {first second : Action σ α} (h : ∀ state, first.run state = second.run state) :
    first = second := funext h

/-- Going on with the value itself changes nothing. -/
theorem map_id (action : Action σ α) : id <$> action = action := by
  refine Action.ext fun state => ?_
  rw [run_map]
  obtain ⟨outcome, left, log⟩ := action.run state
  cases outcome <;> simp

/-- Sequences of three actions may be grouped either way. -/
theorem bind_assoc (action : Action σ α) (next : α → Action σ β) (last : β → Action σ γ) :
    action >>= next >>= last = action >>= fun value => next value >>= last := by
  refine Action.ext fun state => ?_
  simp only [run_bind]
  obtain ⟨outcome, left, log⟩ := action.run state
  cases outcome <;> simp [Report.after_andThen]

instance : LawfulMonad (Action σ) :=
  LawfulMonad.mk' _ map_id (fun _ _ => Action.ext fun _ => by simp) bind_assoc

/-- Reading the state leaves it alone. -/
@[simp]
theorem run_get (state : σ) : (get : Action σ σ).run state = ⟨.done state, state, []⟩ := rfl

/-- Replacing the state leaves the new one. -/
@[simp]
theorem run_set (new state : σ) : (set new : Action σ Unit).run state = ⟨.done (), new, []⟩ := rfl

/-- An event is the whole log. -/
@[simp]
theorem run_emit (event : Event) (state : σ) :
    (emit event : Action σ Unit).run state = ⟨.done (), state, [event]⟩ := rfl

/-- The events are the whole log. -/
@[simp]
theorem run_emitAll (events : List Event) (state : σ) :
    (emitAll events : Action σ Unit).run state = ⟨.done (), state, events⟩ := rfl

/-- A failure leaves the state alone. -/
@[simp]
theorem run_fail (failure : Failure) (state : σ) :
    (fail failure : Action σ α).run state = ⟨.failed failure, state, []⟩ := rfl

/-- A halt leaves the state alone. -/
@[simp]
theorem run_halt (reason : Halt) (state : σ) :
    (halt reason : Action σ α).run state = ⟨.halted reason, state, []⟩ := rfl

/-- A refusal fails with its event and leaves the state alone. -/
@[simp]
theorem run_refuse (refusal : Refusal) (state : σ) :
    (refuse refusal : Action σ α).run state =
      ⟨.failed refusal.failure, state, [.refused refusal]⟩ := rfl

/-- An action on a part of a state runs on that part. -/
@[simp]
theorem run_onPart (part : σ → τ) (replace : σ → τ → σ) (action : Action τ α) (state : σ) :
    (onPart part replace action).run state =
      ⟨(action.run (part state)).outcome, replace state (action.run (part state)).state,
        (action.run (part state)).log⟩ := rfl

/-- The alternatives of a choice run as they do alone. -/
@[simp]
theorem run_ite (p : Prop) [Decidable p] (yes no : Action σ α) (state : σ) :
    (if p then yes else no).run state = if p then yes.run state else no.run state := by
  split <;> rfl

end Action

end PhysicalMemory
