import PhysicalMemory.Proofs.Boot.Runs

/-!
# Errors tell failures

Whether an action failed can be read off its log: it reports an error exactly when it fails
(`Report.Candid`). That is so of each step, and it stays so when steps are sequenced, because what
fails later leaves the log of what was done before. One action is the exception: a claim at a fixed
address that meets claimed memory fails as it may, and a single record for debugging is all that it
reports (`run_of_contests`). The operations together are in `errors_tell_failures`.
-/

namespace PhysicalMemory

open Firmware

namespace Report

variable {σ α β : Type} {report : Report σ α}

/-- The action failed. -/
def Failed (report : Report σ α) : Prop := ∃ failure, report.outcome = .failed failure

/-- The action reported an error. -/
def HasError (report : Report σ α) : Prop := ∃ event ∈ report.log, event.severity = .error

/-- The action reported an error exactly when it failed. -/
def Candid (report : Report σ α) : Prop := report.HasError ↔ report.Failed

/-- An action that is done is candid when it reported no error. -/
theorem candid_done {value : α} {state : σ} {log : List Event} :
    (⟨.done value, state, log⟩ : Report σ α).Candid ↔
      ∀ event ∈ log, event.severity ≠ .error := by
  simp [Candid, HasError, Failed]

/-- An action that failed is candid when it reported an error. -/
theorem candid_failed {failure : Failure} {state : σ} {log : List Event} :
    (⟨.failed failure, state, log⟩ : Report σ α).Candid ↔
      ∃ event ∈ log, event.severity = .error := by
  simp [Candid, HasError, Failed]

/-- Events that came before and are no errors do not matter. -/
theorem Candid.after (h : report.Candid) {events : List Event}
    (hevents : ∀ event ∈ events, event.severity ≠ .error) : (report.after events).Candid := by
  have herror : (report.after events).HasError ↔ report.HasError := by
    simp only [HasError, Report.after, List.mem_append, or_and_right, exists_or]
    refine or_iff_right ?_
    rintro ⟨event, hmem, hsevere⟩
    exact hevents event hmem hsevere
  exact herror.trans h

/-- Two candid actions, one after the other, are candid. -/
theorem Candid.andThen (h : report.Candid) {next : α → Action σ β}
    (hnext : ∀ value, report.outcome = .done value →
      ((next value).run report.state).Candid) : (report.andThen next).Candid := by
  obtain ⟨outcome, state, log⟩ := report
  cases outcome with
  | done value => exact (hnext value rfl).after (candid_done.mp h)
  | failed failure => exact candid_failed.mpr (candid_failed.mp h)
  | halted reason => simpa [Candid, HasError, Failed] using h

/-- A function of the value of a candid action is candid. -/
theorem Candid.map (h : report.Candid) (f : α → β) :
    (report.andThen fun value => pure (f value)).Candid :=
  h.andThen fun value _ => candid_done.mpr (by simp)

/-- An action on a part of a state is as candid as on that part. -/
theorem Candid.onPart {τ : Type} {part : σ → τ} {replace : σ → τ → σ} {action : Action τ α}
    {state : σ} (h : (action.run (part state)).Candid) :
    ((Action.onPart part replace action).run state).Candid := h

/-- A refusal is an error and fails. -/
theorem candid_refuse (refusal : Refusal) (state : σ) :
    ((Action.refuse refusal : Action σ α).run state).Candid :=
  candid_failed.mpr ⟨_, List.mem_singleton_self _, rfl⟩

end Report

namespace Claims

variable {capacity : Nat}

/-- Adding an extent to a claim table, well formed or not, is candid. -/
theorem add_candid (extent : Extent) (claims : Claims capacity) :
    ((add extent).run claims).Candid := by
  rw [run_add]
  cases claims.insert extent with
  | error refusal => exact Report.candid_failed.mpr ⟨_, List.mem_singleton_self _, rfl⟩
  | ok grown =>
    refine Report.candid_done.mpr fun event hevent => ?_
    split at hevent
    · rw [List.mem_singleton.mp hevent]
      simp [Event.severity]
    · exact absurd hevent List.not_mem_nil

end Claims

namespace Arena

variable {capacity : Nat} {arena : Arena capacity} {extent : Extent}

/-- An extent of the address space has a byte that is claimed already. -/
def Contests (arena : Arena capacity) (extent : Extent) : Prop :=
  extent.stop ≤ addressSpace ∧ ∃ x ∈ extent, x ∈ arena.claims

/-- A contested extent lies inside the address space, and is not unclaimed. -/
theorem contests_iff :
    arena.Contests extent ↔
      extent.runsPastTop = false ∧ arena.claims.unclaimed extent = false := by
  rw [Contests, ← Bool.not_eq_true, ← Bool.not_eq_true, Extent.runsPastTop_iff,
    Claims.unclaimed_iff, Nat.not_lt]
  push Not
  rfl

/-- A contested extent has a byte. -/
theorem Contests.length_ne_zero (h : arena.Contests extent) : extent.length ≠ 0 := by
  obtain ⟨-, x, hx, -⟩ := h
  intro hlength
  exact Extent.not_mem_of_isEmpty (by simp [Extent.isEmpty, hlength]) hx

/-- A fixed claim of a contested extent fails, changes nothing and reports that the extent is
claimed already, and nothing else. -/
theorem run_claim_of_contests (h : arena.Contests extent) (alignment : UInt64) :
    (claim extent.base extent.length alignment .fixed).run arena =
      ⟨.failed .outOfResources, arena, [.alreadyClaimed extent]⟩ := by
  obtain ⟨hinside, hclaimed⟩ := contests_iff.mp h
  rw [claim, if_neg h.length_ne_zero, Action.run_bind, choose, run_choosePinned]
  simp [hinside, hclaimed]

/-- The choice of an address is candid, unless it is to be a fixed one that is contested. -/
theorem choose_candid (hwf : arena.claims.WellFormed) (address size alignment : UInt64)
    {placement : Placement} (hfree : placement = .fixed → ¬arena.Contests ⟨address, size⟩) :
    ((choose address size alignment placement).run arena).Candid := by
  -- The claims have to be well formed for a search not to halt.
  have hlowest : ∀ ceiling wanted,
      ((chooseLowest size alignment ceiling wanted).run arena).Candid := by
    intro ceiling wanted
    rw [run_chooseLowest]
    split
    · exact Report.candid_refuse .zeroAlignment arena
    · rename_i halign
      obtain ⟨found, hfound, -⟩ := hwf.firstFit_ok ⟨size, alignment, ceiling⟩ halign
      rw [hfound]
      cases found with
      | none => exact Report.candid_refuse (.noRoom size alignment wanted) arena
      | some base => exact Report.candid_done.mpr (by simp)
  have hpinned : ∀ wanted, (wanted = .fixed → ¬arena.Contests ⟨address, size⟩) →
      ((choosePinned ⟨address, size⟩ wanted).run arena).Candid := by
    intro wanted hfree
    rw [run_choosePinned]
    split
    · exact Report.candid_refuse (.claimPastTop wanted ⟨address, size⟩) arena
    · rename_i hinside
      rw [if_neg fun h => hfree h.1 (contests_iff.mpr ⟨Bool.eq_false_iff.mpr hinside, h.2⟩)]
      exact Report.candid_done.mpr (by simp)
  cases placement with
  | fixed => exact hpinned .fixed hfree
  | forced => exact hpinned .forced (by simp)
  | below4GiB => exact hlowest fourGiB .below4GiB
  | anywhere => exact hlowest addressSpace .anywhere

/-- A claim is candid, unless it is a fixed one that is contested. -/
theorem claim_candid (hwf : arena.claims.WellFormed) (address size alignment : UInt64)
    {placement : Placement} (hfree : placement = .fixed → ¬arena.Contests ⟨address, size⟩) :
    ((claim address size alignment placement).run arena).Candid := by
  by_cases hsize : size = 0
  · rw [hsize, run_claim_zero]
    exact Report.candid_done.mpr (by simp)
  · rw [run_claim hwf hsize, Action.run_bind]
    refine (choose_candid hwf address size alignment hfree).andThen fun base _ => ?_
    rw [Action.run_bind]
    refine (Claims.add_candid ⟨base, size⟩ _).onPart.andThen fun _ _ => ?_
    rw [Action.run_bind, Action.run_emit, Report.andThen_done]
    exact Report.candid_done.mpr (by simp [Event.severity])

/-- The placement with a number is found, or the number is refused with an error. -/
theorem placementOfCode_candid {σ : Type} (code : UInt32) (state : σ) :
    ((placementOfCode code).run state).Candid := by
  rw [placementOfCode]
  cases Placement.ofCode? code with
  | none => exact Report.candid_refuse (.unknownPlacement code) state
  | some placement => exact Report.candid_done.mpr (by simp)

/-- A claim with a placement given by its number is candid, unless it is a fixed one that is
contested. -/
theorem request_candid (hwf : arena.claims.WellFormed) (address size alignment : UInt64)
    {code : UInt32}
    (hfree : Placement.ofCode? code = some .fixed → ¬arena.Contests ⟨address, size⟩) :
    ((request address size alignment code).run arena).Candid := by
  rw [request, Action.run_bind]
  refine (placementOfCode_candid code arena).andThen fun placement hdone => ?_
  have hcode : Placement.ofCode? code = some placement ∧
      ((placementOfCode code).run arena).state = arena := by
    rw [placementOfCode] at hdone ⊢
    cases h : Placement.ofCode? code with
    | none => exact absurd hdone (by simp [h])
    | some found => simpa [h] using hdone
  rw [hcode.2]
  exact claim_candid hwf address size alignment fun hfixed => hfree (hcode.1.trans (by rw [hfixed]))

/-- A reservation is candid: what it claims, it claims by force. -/
theorem reserve_candid (hwf : arena.claims.WellFormed) (extent : Extent) :
    ((reserve extent).run arena).Candid := by
  rw [reserve]
  split
  · exact Report.candid_done.mpr (by simp)
  · split
    · exact Report.candid_refuse (.reservePastTop extent) arena
    · rw [Action.run_bind, Action.run_get, Report.andThen_done, Report.after_nil]
      cases arena.page.widen? extent with
      | none => exact Report.candid_refuse .reserveWholeSpace arena
      | some pages =>
        exact (claim_candid hwf pages.base pages.length Alignment.any.bytes (by simp)).map
          fun _ => ()

/-- A self-check of a well-formed table reports no error and is done. -/
theorem selfCheck_candid (hwf : arena.claims.WellFormed) : (selfCheck.run arena).Candid := by
  rw [run_selfCheck_of_wellFormed hwf]
  refine Report.candid_done.mpr fun event hevent => ?_
  split at hevent
  · rw [List.mem_singleton.mp hevent]
    simp [Event.severity]
  · exact absurd hevent List.not_mem_nil

/-- Listing the claims reports no error and is done. -/
theorem list_candid (arena : Arena capacity) : (list.run arena).Candid := by
  rw [run_list]
  refine Report.candid_done.mpr fun event hevent => ?_
  rcases List.mem_cons.mp hevent with rfl | hevent
  · simp [Event.severity]
  · obtain ⟨index, hindex, rfl⟩ := List.mem_mapIdx.mp hevent
    simp [Event.severity]

/-- An arena is made for a page size, or the size is refused with an error. -/
theorem ofPageBytes_candid {σ : Type} (bytes : UInt64) (watchful : Bool) (state : σ) :
    ((ofPageBytes bytes watchful : Action σ (Arena capacity)).run state).Candid := by
  rw [ofPageBytes]
  cases PageSize.ofBytes? bytes with
  | none => exact Report.candid_refuse (.badPageSize bytes) state
  | some page => exact Report.candid_done.mpr (by simp)

end Arena

namespace Firmware

variable {σ : Type} {capacity : Nat} {arena : Arena capacity}

/-- An audit reports an error exactly when a finding makes the map unusable, and then it fails. -/
theorem audit_candid (regions : List Region) (state : σ) :
    ((audit regions).run state).Candid := by
  -- Only what was found fatal is an error: neither a warning nor a line of the list is one.
  have herror : ((audit regions).run state).HasError ↔
      (findings regions).any Finding.isFatal = true := by
    rw [Report.HasError, run_audit]
    dsimp only
    rw [List.any_eq_true]
    constructor
    · rintro ⟨event, hevent, hsevere⟩
      rcases List.mem_append.mp hevent with hfound | hlisted
      · obtain ⟨finding, hfinding, rfl⟩ := List.mem_map.mp hfound
        refine ⟨finding, hfinding, ?_⟩
        by_contra hfatal
        simp [Event.severity, hfatal] at hsevere
      · split at hlisted
        · exact absurd hlisted List.not_mem_nil
        · rcases List.mem_cons.mp hlisted with rfl | hlisted
          · simp [Event.severity] at hsevere
          · obtain ⟨index, hindex, rfl⟩ := List.mem_mapIdx.mp hlisted
            simp [Event.severity] at hsevere
    · rintro ⟨finding, hfinding, hfatal⟩
      exact ⟨.found finding, List.mem_append_left _ (List.mem_map_of_mem hfinding),
        by simp [Event.severity, hfatal]⟩
  refine herror.trans ?_
  rw [Report.Failed, run_audit]
  cases (findings regions).any Finding.isFatal <;> simp

/-- Withholding a piece is candid. -/
theorem withholdPiece_candid (hwf : arena.claims.WellFormed) (piece : Withheld) :
    ((withholdPiece piece).run arena).Candid := by
  rw [withholdPiece, Action.run_bind, Action.run_emit, Report.andThen_done]
  exact (Arena.reserve_candid hwf piece.extent).after (by simp [Event.severity])

/-- Withholding pieces one after the other is candid. -/
theorem forEach_withholdPiece_candid (hwf : arena.claims.WellFormed) (pieces : List Withheld) :
    ((Action.forEach pieces withholdPiece).run arena).Candid := by
  induction pieces generalizing arena with
  | nil => exact Report.candid_done.mpr (by simp)
  | cons piece rest ih =>
    rw [Action.forEach, Action.run_bind]
    refine (withholdPiece_candid hwf piece).andThen fun value hdone => ih ?_
    -- The rest meets a table that is well formed again.
    rcases (withholdPiece_claimsAtOnce hwf piece).cases with
      ⟨_, -, hgrows⟩ | ⟨failure, hfailed, -⟩
    · exact hgrows.wellFormed
    · exact absurd (hdone.symm.trans hfailed) (by simp)

/-- Withholding by a map is candid. -/
theorem withhold_candid (hwf : arena.claims.WellFormed) (regions : List Region) :
    ((withhold regions).run arena).Candid := by
  have hstate : ((audit regions).run arena).state = arena := by rw [run_audit]
  rw [withhold, Action.run_bind]
  refine (audit_candid regions arena).andThen fun _ _ => ?_
  rw [hstate]
  cases top? regions with
  | none => exact Report.candid_refuse .emptyMap arena
  | some top =>
    refine (forEach_withholdPiece_candid hwf (plan top regions)).andThen fun _ _ => ?_
    exact Report.candid_done.mpr (by simp [Event.severity])

/-- Coalescing a map reports no error and is done. -/
theorem coalesce_candid (regions : List Region) (state : σ) :
    ((coalesce regions).run state).Candid := by
  rw [run_coalesce]
  refine Report.candid_done.mpr fun event hevent => ?_
  split at hevent
  · exact absurd hevent List.not_mem_nil
  · rw [List.mem_singleton.mp hevent]
    simp [Event.severity]

/-- Adopting a map is candid. -/
theorem adopt_candid (hwf : arena.claims.WellFormed) (regions : List Region) :
    ((adopt regions).run arena).Candid := by
  have hstate : ((coalesce regions).run arena).state = arena := by rw [run_coalesce]
  rw [adopt, Action.run_bind]
  refine (coalesce_candid regions arena).andThen fun canonicalMap _ => ?_
  rw [hstate]
  exact (withhold_candid hwf canonicalMap).map fun _ => canonicalMap

/-- A platform's map is copied, or it is refused with an error as too long. -/
theorem load_candid {ρ : Type} [BootEntry ρ] (bootMap : List ρ) (slots : List Region) (state : σ) :
    ((MapBuffer.load bootMap slots).run state).Candid := by
  rw [MapBuffer.load]
  split
  · exact Report.candid_refuse (.bootMapTooLong bootMap.length slots.length) state
  · exact Report.candid_done.mpr (by simp [Event.severity])

namespace Boot

/-- Coalescing the map reports no error and is done. -/
theorem coalesce_candid (boot : Boot capacity) : (coalesce.run boot).Candid := by
  have hlog := Firmware.coalesce_candid boot.map.regions boot
  rw [Firmware.run_coalesce, Report.candid_done] at hlog
  rw [run_coalesce, Report.candid_done]
  exact hlog

/-- Withholding by the map is candid. -/
theorem withhold_candid {boot : Boot capacity} (hwf : boot.arena.claims.WellFormed) :
    (withhold.run boot).Candid := by
  rw [withhold, Action.run_bind, Action.run_get, Report.andThen_done, Report.after_nil, onArena]
  exact (Firmware.withhold_candid hwf boot.map.regions).onPart

/-- Withholding the boot loader's memory is candid. -/
theorem withholdLoader_candid {boot : Boot capacity} (hwf : boot.arena.claims.WellFormed) :
    (withholdLoader.run boot).Candid := by
  rw [withholdLoader, Action.run_bind, Action.run_get, Report.andThen_done, Report.after_nil,
    onArena]
  exact (forEach_withholdPiece_candid hwf (loaderPieces boot.map.regions)).onPart

/-- Adopting the map is candid. -/
theorem adopt_candid {boot : Boot capacity} (hwf : boot.arena.claims.WellFormed) :
    (adopt.run boot).Candid := by
  have hstate : (coalesce.run boot).state = { boot with map := boot.map.coalesced } := by
    rw [run_coalesce]
  rw [adopt, Action.run_bind]
  refine (coalesce_candid boot).andThen fun count _ => ?_
  have hwithhold : (withhold.run { boot with map := boot.map.coalesced }).Candid :=
    withhold_candid hwf
  rw [hstate]
  exact hwithhold.map fun _ => count

end Boot

end Firmware

namespace Operation

variable {capacity : Nat} {arena : Arena capacity}

/-- The extent that an operation claims at a fixed address, if it is such a claim. -/
def fixedExtent? : Operation → Option Extent
  | .claim address size _ .fixed => some ⟨address, size⟩
  | .request address size _ code =>
    if Placement.ofCode? code = some .fixed then some ⟨address, size⟩ else none
  | .claimFixed address size => some ⟨address, size⟩
  | _ => none

/-- A claim at a fixed address of an extent that is contested fails, changes nothing and reports
that the extent is claimed already, and nothing else. -/
theorem run_of_contests {operation : Operation} {extent : Extent}
    (hextent : operation.fixedExtent? = some extent) (h : arena.Contests extent) :
    operation.perform.run arena =
      ⟨.failed .outOfResources, arena, [.alreadyClaimed extent]⟩ := by
  cases operation with
  | claim address size alignment placement =>
    cases placement with
    | fixed =>
      obtain rfl := Option.some.inj hextent
      rw [perform, Action.run_map, Arena.run_claim_of_contests h, Report.andThen_failed]
    | _ => exact absurd hextent (by simp [fixedExtent?])
  | request address size alignment code =>
    by_cases hcode : Placement.ofCode? code = some .fixed
    · obtain rfl : (⟨address, size⟩ : Extent) = extent := by
        simpa [fixedExtent?, hcode] using hextent
      rw [perform, Action.run_map, Arena.request, Action.run_bind, Arena.placementOfCode, hcode,
        Action.run_pure, Report.andThen_done, Arena.run_claim_of_contests h, Report.after_nil,
        Report.andThen_failed]
    · exact absurd hextent (by simp [fixedExtent?, hcode])
  | claimFixed address size =>
    obtain rfl := Option.some.inj hextent
    rw [perform, Action.run_map, Arena.claimFixed, Arena.run_claim_of_contests h,
      Report.andThen_failed]
  | _ => exact absurd hextent (by simp [fixedExtent?])

/-- An operation is candid, unless it is a claim at a fixed address of an extent that is
contested. -/
theorem perform_candid (hwf : arena.claims.WellFormed) {operation : Operation}
    (hfree : ∀ extent ∈ operation.fixedExtent?, ¬arena.Contests extent) :
    (operation.perform.run arena).Candid := by
  cases operation with
  | insert extent => exact (Claims.add_candid extent arena.claims).onPart.map _
  | claim address size alignment placement =>
    refine (Arena.claim_candid hwf address size alignment fun hfixed => hfree _ ?_).map _
    rw [hfixed]
    rfl
  | request address size alignment code =>
    refine (Arena.request_candid hwf address size alignment fun hcode => hfree _ ?_).map _
    simp [fixedExtent?, hcode]
  | claimFixed address size =>
    exact (Arena.claim_candid hwf address size Alignment.any.bytes fun _ => hfree _ rfl).map _
  | reserve extent => exact (Arena.reserve_candid hwf extent).map _
  | selfCheck => exact (Arena.selfCheck_candid hwf).map _
  | list => exact (Arena.list_candid arena).map fun _ => Reply.nothing
  | withhold regions => exact (withhold_candid hwf regions).map _
  | withholdLoader regions =>
    exact (forEach_withholdPiece_candid hwf (loaderPieces regions)).map _
  | adopt regions => exact (adopt_candid hwf regions).map _

end Operation

namespace BootOperation

variable {capacity : Nat} {boot : Boot capacity}

/-- The extent that an operation claims at a fixed address, if it is such a claim. -/
def fixedExtent? : BootOperation → Option Extent
  | .ofArena operation => operation.fixedExtent?
  | _ => none

/-- An operation on a boot is candid, unless it is a claim at a fixed address of an extent that is
contested. -/
theorem perform_candid (hwf : boot.arena.claims.WellFormed) {operation : BootOperation}
    (hfree : ∀ extent ∈ operation.fixedExtent?, ¬boot.arena.Contests extent) :
    (operation.perform.run boot).Candid := by
  cases operation with
  | coalesce => exact (Boot.coalesce_candid boot).map _
  | audit => exact (audit_candid boot.map.regions boot).map _
  | withhold => exact (Boot.withhold_candid hwf).map _
  | withholdLoader => exact (Boot.withholdLoader_candid hwf).map _
  | adopt => exact (Boot.adopt_candid hwf).map _
  | byteCount usage => exact Report.candid_done.mpr (by simp)
  | ofArena operation => exact (operation.perform_candid hwf hfree).onPart

end BootOperation

/-- On every reachable arena, and with any memory map, an operation reports an error exactly when it
fails. The exception is a claim at a fixed address of an extent that lies inside the address space
and is claimed in part: all that it reports is a single record for debugging. What needs no arena is
candid too: finding a placement by its number, choosing a page size, adding to a claim table, and
auditing, coalescing and copying a memory map. -/
theorem errors_tell_failures {capacity : Nat} {arena : Arena capacity}
    (hreachable : arena.Reachable) :
    (∀ operation : Operation,
      ((∀ extent ∈ operation.fixedExtent?, ¬arena.Contests extent) →
        (operation.perform.run arena).Candid) ∧
      ∀ extent ∈ operation.fixedExtent?, arena.Contests extent →
        operation.perform.run arena = ⟨.failed .outOfResources, arena, [.alreadyClaimed extent]⟩ ∧
          (Event.alreadyClaimed extent).severity = .debug) ∧
    (∀ (map : MapBuffer) (operation : BootOperation),
      ((∀ extent ∈ operation.fixedExtent?, ¬arena.Contests extent) →
        (operation.perform.run (⟨map, arena⟩ : Boot capacity)).Candid) ∧
      ∀ extent ∈ operation.fixedExtent?, arena.Contests extent →
        operation.perform.run (⟨map, arena⟩ : Boot capacity) =
          ⟨.failed .outOfResources, ⟨map, arena⟩, [.alreadyClaimed extent]⟩) ∧
    (∀ (σ : Type) (state : σ),
      (∀ code, ((Arena.placementOfCode code).run state).Candid) ∧
      (∀ bytes watchful,
        ((Arena.ofPageBytes bytes watchful : Action σ (Arena capacity)).run state).Candid) ∧
      (∀ regions, ((audit regions).run state).Candid ∧ ((coalesce regions).run state).Candid) ∧
      ∀ (ρ : Type) (_ : BootEntry ρ) (bootMap : List ρ) (slots : List Region),
        ((MapBuffer.load bootMap slots).run state).Candid) ∧
    ∀ (claims : Claims capacity) (extent : Extent), ((Claims.add extent).run claims).Candid := by
  have hwf := hreachable.wellFormed
  refine ⟨fun operation => ⟨operation.perform_candid hwf, fun extent hextent hcontests => ?_⟩,
    fun map operation => ⟨fun hfree => operation.perform_candid hwf hfree, fun extent hextent hcontests => ?_⟩,
    fun σ state => ⟨fun code => Arena.placementOfCode_candid code state,
      fun bytes watchful => Arena.ofPageBytes_candid bytes watchful state,
      fun regions => ⟨audit_candid regions state, coalesce_candid regions state⟩,
      fun ρ _ bootMap slots => load_candid bootMap slots state⟩,
    fun claims extent => Claims.add_candid extent claims⟩
  · exact ⟨operation.run_of_contests hextent hcontests, rfl⟩
  · cases operation with
    | ofArena operation =>
      rw [BootOperation.perform, Boot.onArena, Action.run_onPart,
        operation.run_of_contests hextent hcontests]
    | _ => exact absurd hextent (by simp [BootOperation.fixedExtent?])

/-- A page is reserved. A fixed claim that runs into it is contested and reports a single record; one
that runs past the top of the address space is refused with an error; and a map whose regions
overlap is withheld with a warning and no error. -/
theorem errors_tell_failures_onePage :
    let arena := (.empty .ofPlatform false : Arena 4).afterRun [.reserve ⟨0x1800, 1⟩]
    let regions : List Region :=
      [⟨⟨0, 0x3000⟩, .available, 1⟩, ⟨⟨0x2000, 0x2000⟩, .reserved, 1⟩]
    ((Operation.claimFixed 0x1ff0 0x20).perform.run arena).log = [.alreadyClaimed ⟨0x1ff0, 0x20⟩] ∧
      ((Operation.claimFixed 0xfffffffffffffff0 0x20).perform.run arena).HasError ∧
      ((Operation.withhold regions).perform.run arena).log.head? =
        some (.found (.overlapsEarlier 1 ⟨⟨0x2000, 0x2000⟩, .reserved, 1⟩)) ∧
      ¬((Operation.withhold regions).perform.run arena).HasError := by
  intro arena regions
  have hclaims : arena.claims = ⟨[⟨0x1000, 0x1000⟩]⟩ := by decide +kernel
  have hreachable : arena.Reachable := (Arena.Reachable.start _ _).afterRun _
  have hlaw := (errors_tell_failures hreachable).1
  have hcontests : arena.Contests ⟨0x1ff0, 0x20⟩ :=
    Arena.contests_iff.mpr ⟨by decide, by rw [hclaims]; decide⟩
  refine ⟨by rw [((hlaw (.claimFixed 0x1ff0 0x20)).2 _ rfl hcontests).1], ?_,
    by decide +kernel, ?_⟩
  · -- An extent that runs past the top is not contested, so the failure comes with an error.
    refine ((hlaw (.claimFixed 0xfffffffffffffff0 0x20)).1 ?_).mpr ⟨.outOfResources, ?_⟩
    · rintro extent hextent ⟨hinside, -⟩
      obtain rfl := Option.some.inj hextent
      exact absurd hinside (by decide)
    · decide +kernel
  · intro herror
    obtain ⟨failure, hfailed⟩ :=
      ((hlaw (.withhold regions)).1 (by simp [Operation.fixedExtent?])).mp herror
    have hdone : ((Operation.withhold regions).perform.run arena).outcome = .done .nothing := by
      decide +kernel
    exact absurd (hdone.symm.trans hfailed) (by simp)

end PhysicalMemory
