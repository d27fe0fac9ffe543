import PhysicalMemory.Proofs.Arena.Growth
import PhysicalMemory.Proofs.Checked.Claims

/-!
# An arena in slots

On a machine, the claims of an arena are in slots, and claiming memory and reserving pages are made of
checked steps. As long as the claims that the slots hold are well formed, each of these actions agrees
with the action of the library (`claim_agrees`, `reserve_agrees`, `selfCheck_agrees`), and nothing is
said about whether either arena is watchful: a claim leaves a table that is well formed and not empty,
and the self-check of such a table says nothing (`run_selfCheck`).
-/

namespace PhysicalMemory

/-- An arena with its claims in slots. -/
structure SlotArena where
  /-- Reservations are made in whole pages of this size. -/
  page : PageSize
  /-- The claims are checked after every claim. -/
  watchful : Bool
  /-- The claims made so far. -/
  table : ClaimSlots

namespace SlotArena

open Checked

variable {capacity : Nat} {α : Type}

/-- Nothing is claimed. -/
def empty (capacity : Nat) (page : PageSize) (watchful : Bool) : SlotArena :=
  ⟨page, watchful, .empty capacity⟩

/-- Runs an action on the claims of an arena. -/
def onTable (action : Checked ClaimSlots α) : Checked SlotArena α :=
  action.onPart SlotArena.table fun arena table => { arena with table }

/-- Lists the claims in the log. -/
def list : Checked SlotArena Unit := do
  let arena ← ofAction get
  let entries ← ofExcept arena.table.entries
  let bytes ← ofExcept arena.table.byteCount
  ofAction (Action.emitAll (.claimsHeading arena.table.count arena.table.slots.length bytes ::
    entries.mapIdx Event.claimsEntry))

/-- Halts the boot when the claims have a defect. -/
def selfCheck : Checked SlotArena Unit := do
  let arena ← ofAction get
  if arena.table.count = 0 then ofAction (Action.emit .nothingClaimed)
  else do
    match ← ofExcept arena.table.firstDefect with
    | none => pure ()
    | some defect => do
      ofAction (Action.emit (.defective defect))
      list
      ofAction (Action.emit .corrupted)
      ofAction (Action.halt (.corruptClaims defect))

/-- Checks the claims of an arena that is watchful. -/
def watch : Checked SlotArena Unit := do
  let arena ← ofAction get
  if arena.watchful then selfCheck else pure ()

/-- Chooses the address that the caller gives. -/
def choosePinned (extent : Extent) (placement : Placement) : Checked SlotArena UInt64 := do
  let past ← ofExcept (runsPastTop extent)
  if past then ofAction (Action.refuse (.claimPastTop placement extent))
  else do
    let arena ← ofAction get
    let entries ← ofExcept arena.table.entries
    if placement = .fixed ∧ (entries.all fun entry => !entry.overlaps extent) = false then
      ofAction (do Action.emit (.alreadyClaimed extent); Action.fail .outOfResources)
    else pure extent.base

/-- Chooses the lowest aligned address with room for the bytes below a ceiling. -/
def chooseLowest (size alignment : UInt64) (ceiling : Nat) (placement : Placement) :
    Checked SlotArena UInt64 :=
  if alignment = 0 then ofAction (Action.refuse .zeroAlignment)
  else do
    let arena ← ofAction get
    match ← ofExcept (arena.table.firstFit ⟨size, alignment, ceiling⟩) with
    | some address => pure address
    | none => ofAction (Action.refuse (.noRoom size alignment placement))

/-- Chooses the address of a claim. -/
def choose (address size alignment : UInt64) (placement : Placement) :
    Checked SlotArena UInt64 :=
  match placement with
  | .fixed => choosePinned ⟨address, size⟩ .fixed
  | .forced => choosePinned ⟨address, size⟩ .forced
  | .below4GiB => chooseLowest size alignment fourGiB .below4GiB
  | .anywhere => chooseLowest size alignment addressSpace .anywhere

/-- Claims bytes of memory and answers with their address. -/
def claim (address size alignment : UInt64) (placement : Placement) :
    Checked SlotArena UInt64 :=
  if size = 0 then pure 0
  else do
    let base ← choose address size alignment placement
    onTable (ClaimSlots.add ⟨base, size⟩)
    ofAction (Action.emit (.claimed ⟨base, size⟩ placement))
    watch
    pure base

/-- Claims bytes of memory with a placement that is given by its number. -/
def request (address size alignment : UInt64) (code : UInt32) : Checked SlotArena UInt64 := do
  let placement ← ofAction (Arena.placementOfCode code)
  claim address size alignment placement

/-- Keeps all pages that meet an extent from being handed out. -/
def reserve (extent : Extent) : Checked SlotArena Unit :=
  if extent.isEmpty then pure ()
  else do
    let past ← ofExcept (runsPastTop extent)
    if past then ofAction (Action.refuse (.reservePastTop extent))
    else do
      let arena ← ofAction get
      match ← ofExcept (widen? arena.page extent) with
      | none => ofAction (Action.refuse .reserveWholeSpace)
      | some pages => do
        let _ ← claim pages.base pages.length Alignment.any.bytes .forced
        pure ()

/-- The arena in slots holds an arena: it has the same pages, and its slots hold the claims, which are
well formed. Either may be watchful. -/
structure Holds (slotted : SlotArena) (arena : Arena capacity) : Prop where
  /-- Pages are as large. -/
  page_eq : slotted.page = arena.page
  /-- The slots hold the claims. -/
  table_holds : slotted.table.Holds arena.claims
  /-- The claims are well formed. -/
  wellFormed : arena.claims.WellFormed

variable {slotted : SlotArena} {arena : Arena capacity}

/-- An empty arena in slots holds an empty arena. -/
theorem holds_empty (capacity : Nat) (page : PageSize) (watchful other : Bool) :
    (empty capacity page watchful).Holds (.empty page other : Arena capacity) :=
  ⟨rfl, ClaimSlots.holds_empty capacity, Claims.wellFormed_empty⟩

/-- Listing the claims has no fault and lists those of the arena. -/
theorem run_list (h : slotted.Holds arena) :
    list.run slotted = .ok ⟨.done (), slotted, Arena.listing arena.claims⟩ := by
  rw [list, run_get_bind, run_ofExcept_bind h.table_holds.entries_eq,
    run_ofExcept_bind (h.table_holds.byteCount_eq h.wellFormed), h.table_holds.count_eq,
    h.table_holds.length_eq]
  rfl

/-- Listing the claims agrees with listing those of the arena. -/
theorem list_agrees (h : slotted.Holds arena) :
    Agrees Holds (list.run slotted) (Arena.list.run arena) := by
  rw [Arena.run_list]
  exact ⟨slotted, run_list h, h, by simp⟩

/-- A self-check has no fault, changes nothing and does not halt; it warns of an empty table. -/
theorem run_selfCheck (h : slotted.Holds arena) : selfCheck.run slotted =
    .ok ⟨.done (), slotted, if arena.claims.isEmpty then [.nothingClaimed] else []⟩ := by
  have hempty : arena.claims.isEmpty = true ↔ slotted.table.count = 0 := by
    rw [h.table_holds.count_eq]
    exact List.isEmpty_iff_length_eq_zero
  rw [selfCheck, run_get_bind, Checked.run_ite]
  by_cases hcount : slotted.table.count = 0
  · rw [if_pos hcount, if_pos (hempty.mpr hcount)]
    rfl
  · rw [if_neg hcount, if_neg (hempty.not.mpr hcount),
      run_ofExcept_bind h.table_holds.firstDefect_eq, h.wellFormed.firstDefect_eq_none]
    rfl

/-- A self-check agrees with that of the arena. -/
theorem selfCheck_agrees (h : slotted.Holds arena) :
    Agrees Holds (selfCheck.run slotted) (Arena.selfCheck.run arena) := by
  rw [Arena.run_selfCheck_of_wellFormed h.wellFormed]
  exact ⟨slotted, run_selfCheck h, h, by simp⟩

/-- Watching over claims that are not empty is silent, in an arena that is watchful as in one that is
not. -/
theorem run_watch (h : slotted.Holds arena) (hne : arena.claims.isEmpty = false) :
    watch.run slotted = .ok ⟨.done (), slotted, []⟩ := by
  rw [watch, run_get_bind, Checked.run_ite, run_selfCheck h, hne]
  simp

/-- Adding an extent to the claims agrees with adding it to those of the arena. -/
theorem onTable_add_agrees (h : slotted.Holds arena) (extent : Extent) :
    Agrees Holds ((onTable (ClaimSlots.add extent)).run slotted)
      ((Arena.onClaims (Claims.add extent)).run arena) := by
  refine (h.table_holds.add_agrees extent).onPart fun left hleft => ⟨h.page_eq, hleft, ?_⟩
  -- What an insertion leaves of a well-formed table is well formed.
  obtain ⟨value, -, hgrows⟩ | ⟨failure, -, hsame⟩ :=
    (Arena.add_claimsAtOnce extent h.wellFormed).cases
  · exact hgrows.wellFormed
  · exact (congrArg Arena.claims hsame).symm ▸ h.wellFormed

/-- When an extent with bytes has been added, the claims are not empty. -/
theorem isEmpty_add {extent : Extent} (hwf : arena.claims.WellFormed)
    (hne : extent.isEmpty = false)
    (hdone : ((Arena.onClaims (Claims.add extent)).run arena).outcome = .done ()) :
    ((Arena.onClaims (Claims.add extent)).run arena).state.claims.isEmpty = false := by
  rw [Arena.onClaims, Action.run_onPart, Claims.run_add] at hdone ⊢
  cases hinsert : arena.claims.insert extent with
  | error refusal => simp [hinsert] at hdone
  | ok grown => exact hwf.isEmpty_insert hne hinsert

/-- Choosing a given address agrees with the arena's choice. -/
theorem choosePinned_agrees (h : slotted.Holds arena) (extent : Extent) (placement : Placement) :
    Agrees Holds ((choosePinned extent placement).run slotted)
      ((Arena.choosePinned extent placement).run arena) := by
  rw [choosePinned, run_ofExcept_bind (runsPastTop_eq extent), Checked.run_ite,
    Arena.run_choosePinned]
  by_cases hpast : extent.runsPastTop = true
  · rw [if_pos hpast, if_pos hpast]
    exact ⟨slotted, rfl, h, by simp⟩
  · rw [if_neg hpast, if_neg hpast, run_get_bind, run_ofExcept_bind h.table_holds.entries_eq,
      Checked.run_ite]
    change Agrees Holds (if placement = .fixed ∧ arena.claims.unclaimed extent = false
      then _ else _) _
    split <;> exact ⟨slotted, rfl, h, by simp⟩

/-- Choosing the lowest room agrees with the arena's choice. -/
theorem chooseLowest_agrees (h : slotted.Holds arena) (size alignment : UInt64) (ceiling : Nat)
    (placement : Placement) :
    Agrees Holds ((chooseLowest size alignment ceiling placement).run slotted)
      ((Arena.chooseLowest size alignment ceiling placement).run arena) := by
  rw [chooseLowest, Checked.run_ite, Arena.run_chooseLowest]
  by_cases halign : alignment = 0
  · rw [if_pos halign, if_pos halign]
    exact ⟨slotted, rfl, h, by simp⟩
  · obtain ⟨found, hplain, hchecked⟩ :=
      h.table_holds.firstFit_eq ⟨size, alignment, ceiling⟩ halign
    rw [if_neg halign, if_neg halign, run_get_bind, run_ofExcept_bind hchecked, hplain]
    cases found <;> exact ⟨slotted, rfl, h, by simp⟩

/-- Choosing an address agrees with the arena's choice. -/
theorem choose_agrees (h : slotted.Holds arena) (address size alignment : UInt64)
    (placement : Placement) :
    Agrees Holds ((choose address size alignment placement).run slotted)
      ((Arena.choose address size alignment placement).run arena) := by
  cases placement with
  | fixed => exact choosePinned_agrees h ⟨address, size⟩ .fixed
  | forced => exact choosePinned_agrees h ⟨address, size⟩ .forced
  | below4GiB => exact chooseLowest_agrees h size alignment fourGiB .below4GiB
  | anywhere => exact chooseLowest_agrees h size alignment addressSpace .anywhere

/-- A claim agrees with the arena's, whether they are watchful or not. -/
theorem claim_agrees (h : slotted.Holds arena) (address size alignment : UInt64)
    (placement : Placement) :
    Agrees Holds ((claim address size alignment placement).run slotted)
      ((Arena.claim address size alignment placement).run arena) := by
  by_cases hsize : size = 0
  · rw [claim, if_pos hsize, Arena.claim, if_pos hsize]
    exact agrees_pure h 0
  · rw [claim, if_neg hsize, Arena.run_claim h.wellFormed hsize]
    refine (choose_agrees h address size alignment placement).bind fun base left _ hleft => ?_
    refine (onTable_add_agrees hleft ⟨base, size⟩).bind fun _ left' hdone hleft' => ?_
    have hne : (⟨base, size⟩ : Extent).isEmpty = false := by simpa [Extent.isEmpty] using hsize
    have hfull := isEmpty_add hleft.wellFormed hne hdone
    rw [run_ofAction_bind (Action.run_emit _ _), Action.run_bind, Action.run_emit,
      Report.andThen_done]
    refine Agrees.after ?_ _
    rw [Checked.run_bind, run_watch hleft' hfull, ok_bind, andThen_quiet]
    exact agrees_pure hleft' base

/-- A claim with a placement given by its number agrees with the arena's. -/
theorem request_agrees (h : slotted.Holds arena) (address size alignment : UInt64)
    (code : UInt32) :
    Agrees Holds ((request address size alignment code).run slotted)
      ((Arena.request address size alignment code).run arena) := by
  have hcode : Agrees Holds ((ofAction (Arena.placementOfCode code)).run slotted)
      ((Arena.placementOfCode code).run arena) := by
    rw [Arena.placementOfCode, Arena.placementOfCode]
    cases Placement.ofCode? code <;> exact agrees_still h rfl rfl (by simp)
  exact hcode.bind fun placement left _ hleft =>
    claim_agrees hleft address size alignment placement

/-- A reservation agrees with the arena's. -/
theorem reserve_agrees (h : slotted.Holds arena) (extent : Extent) :
    Agrees Holds ((reserve extent).run slotted) ((Arena.reserve extent).run arena) := by
  rw [reserve, Arena.reserve, Checked.run_ite, Action.run_ite]
  by_cases hempty : extent.isEmpty = true
  · rw [if_pos hempty, if_pos hempty]
    exact agrees_pure h ()
  rw [if_neg hempty, if_neg hempty, run_ofExcept_bind (runsPastTop_eq extent), Checked.run_ite,
    Action.run_ite]
  by_cases hpast : extent.runsPastTop = true
  · rw [if_pos hpast, if_pos hpast]
    exact agrees_still h rfl rfl (by simp)
  · have hinside : extent.stop ≤ addressSpace := by
      rwa [Extent.runsPastTop_iff, Nat.not_lt] at hpast
    rw [if_neg hpast, if_neg hpast, run_get_bind, Action.run_bind, Action.run_get,
      Report.andThen_done, Report.after_nil, h.page_eq,
      run_ofExcept_bind (widen?_eq arena.page hinside)]
    cases arena.page.widen? extent with
    | none => exact agrees_still h rfl rfl (by simp)
    | some pages =>
      exact (claim_agrees h pages.base pages.length Alignment.any.bytes .forced).map fun _ => ()

end SlotArena

end PhysicalMemory
