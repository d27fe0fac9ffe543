import PhysicalMemory.Action

/-!
# Actions that are done, and what actions keep

An action without a value leads from one state to another when it is done there and leaves the
other. A sequence of actions leads through the states between them. Doing an action for a list of
items is done when each item leads from a state that is ready for it to one that is ready for the
rest (`exists_leads_forEach`).

However it ends, an action may keep a property of states. A sequence that stops half way has left
some state on the way, so it keeps what each of its actions keeps.
-/

namespace PhysicalMemory.Action

variable {σ α β : Type} {action next : Action σ Unit} {first last : σ} {p : σ → Prop}

/-- The action is done when it runs on the first state, and leaves the last. -/
def Leads (action : Action σ Unit) (first last : σ) : Prop :=
  ∃ log, action.run first = ⟨.done (), last, log⟩

/-- An action leads to the state that it leaves, when it is done. -/
theorem leads_iff : action.Leads first last ↔
    (action.run first).outcome = .done () ∧ (action.run first).state = last := by
  unfold Leads
  obtain ⟨outcome, state, log⟩ := action.run first
  simp

/-- An action that is followed by a value is done where the action is, with that value. -/
theorem bind_pure_done_iff {value result : α} :
    ((action >>= fun _ => pure value).run first).outcome = .done result ∧
      ((action >>= fun _ => pure value).run first).state = last ↔
    value = result ∧ action.Leads first last := by
  rw [leads_iff, run_bind]
  obtain ⟨outcome, state, log⟩ := action.run first
  cases outcome <;> simp

/-- A sequence of two actions leads through the state between them. -/
theorem leads_bind : (action >>= fun _ => next).Leads first last ↔
    ∃ between, action.Leads first between ∧ next.Leads between last := by
  constructor
  · rintro ⟨log, h⟩
    rw [run_bind] at h
    generalize hreport : action.run first = report at h
    obtain ⟨outcome, state, earlier⟩ := report
    cases outcome with
    | done value =>
      rw [Report.andThen_done] at h
      generalize hnext : next.run state = result at h
      obtain ⟨outcome, state', later⟩ := result
      rw [Report.after_mk, Report.mk.injEq] at h
      obtain ⟨rfl, rfl, -⟩ := h
      exact ⟨state, ⟨earlier, hreport⟩, later, hnext⟩
    | failed failure => simp at h
    | halted reason => simp at h
  · rintro ⟨between, ⟨earlier, hfirst⟩, later, hnext⟩
    exact ⟨earlier ++ later, by rw [run_bind, hfirst, Report.andThen_done, hnext, Report.after_mk]⟩

/-- Doing an action for no item leads nowhere else. -/
theorem leads_forEach_nil {action : β → Action σ Unit} :
    (forEach [] action).Leads first last ↔ first = last := by
  simp [forEach, leads_iff]

/-- Doing an action for items leads through the state that the first of them leads to. -/
theorem leads_forEach_cons {action : β → Action σ Unit} {item : β} {rest : List β} :
    (forEach (item :: rest) action).Leads first last ↔
      ∃ between, (action item).Leads first between ∧ (forEach rest action).Leads between last :=
  leads_bind

/-- Doing an action for items leads through the state that any front of them leads to. -/
theorem leads_forEach_append {action : β → Action σ Unit} {front back : List β} :
    (forEach (front ++ back) action).Leads first last ↔
      ∃ between, (forEach front action).Leads first between ∧
        (forEach back action).Leads between last := by
  induction front generalizing first with
  | nil => simp [leads_forEach_nil]
  | cons item front ih =>
    simp only [List.cons_append, leads_forEach_cons, ih]
    constructor
    · rintro ⟨state, hitem, between, hfront, hback⟩
      exact ⟨between, ⟨state, hitem, hfront⟩, hback⟩
    · rintro ⟨between, ⟨state, hitem, hfront⟩, hback⟩
      exact ⟨state, hitem, between, hfront, hback⟩

/-- Doing an action for items is done when it can be kept up: from a state that is ready for some
items more, the action for one of them leads to a state that is ready for the others. -/
theorem exists_leads_forEach {action : β → Action σ Unit} {items : List β}
    {ready : Nat → σ → Prop}
    (hstep : ∀ item ∈ items, ∀ left state, ready (left + 1) state →
      ∃ between, (action item).Leads state between ∧ ready left between)
    (hfirst : ready items.length first) : ∃ last, (forEach items action).Leads first last := by
  induction items generalizing first with
  | nil => exact ⟨first, leads_forEach_nil.mpr rfl⟩
  | cons item rest ih =>
    obtain ⟨between, hitem, hready⟩ := hstep item List.mem_cons_self rest.length first hfirst
    obtain ⟨last, hlast⟩ := ih (fun i hi => hstep i (List.mem_cons_of_mem _ hi)) hready
    exact ⟨last, leads_forEach_cons.mpr ⟨between, hitem, hlast⟩⟩

/-- The action keeps a property of states, however it ends. -/
def Keeps (action : Action σ α) (p : σ → Prop) : Prop :=
  ∀ state, p state → p (action.run state).state

/-- An action that leaves every state alone keeps all properties. -/
theorem Keeps.of_state_eq {action : Action σ α} (h : ∀ state, (action.run state).state = state) :
    action.Keeps p :=
  fun state hstate => (h state).symm ▸ hstate

/-- A sequence keeps what its actions keep. -/
theorem Keeps.bind {action : Action σ α} {next : α → Action σ β} (haction : action.Keeps p)
    (hnext : ∀ value, (next value).Keeps p) : (action >>= next).Keeps p := by
  intro state hstate
  have hleft := haction state hstate
  rw [run_bind]
  generalize action.run state = report at *
  obtain ⟨outcome, left, log⟩ := report
  cases outcome with
  | done value => exact hnext value left hleft
  | failed failure => exact hleft
  | halted reason => exact hleft

/-- A function of its value does not change what an action keeps. -/
theorem Keeps.map {action : Action σ α} (h : action.Keeps p) (f : α → β) :
    (f <$> action).Keeps p :=
  h.bind fun _ => .of_state_eq fun _ => rfl

/-- Doing an action for items keeps what the action keeps for each of them. -/
theorem Keeps.forEach {action : β → Action σ Unit} {items : List β}
    (h : ∀ item ∈ items, (action item).Keeps p) : (Action.forEach items action).Keeps p := by
  induction items with
  | nil => exact .of_state_eq fun _ => rfl
  | cons item rest ih =>
    exact (h item List.mem_cons_self).bind fun _ => ih fun i hi => h i (List.mem_cons_of_mem _ hi)

end PhysicalMemory.Action
