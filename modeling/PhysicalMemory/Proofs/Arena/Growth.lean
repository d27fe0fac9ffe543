import PhysicalMemory.Proofs.Claims.FirstFit
import PhysicalMemory.Proofs.Claims.Form
import PhysicalMemory.Proofs.Claims.Room
import PhysicalMemory.Proofs.Pages

/-!
# How an arena grows

Claims are never given back, so all that an action does to the memory of an arena is to add bytes:
`Grows` says which, and that the claim table is still well formed. Inserting an extent, claiming
memory and reserving pages each claim all of their bytes when they are done and nothing when they
fail, and none of them halts (`ClaimsAtOnce`); a sequence of them may also have claimed a part when
it fails (`ClaimsWithin`). The self-check after a claim never sees a defect, for the table that it
looks at is well formed (`run_claim`).
-/

namespace PhysicalMemory.Arena

variable {capacity : Nat} {α β : Type} {arena grown last : Arena capacity} {added more : Set Nat}

/-- The arena `grown` is the arena with some bytes added to its claimed ones, in a well-formed
table. -/
structure Grows (arena grown : Arena capacity) (added : Set Nat) : Prop where
  /-- Pages stay as large as they are. -/
  page_eq : grown.page = arena.page
  /-- The claim table is well formed. -/
  wellFormed : grown.claims.WellFormed
  /-- A byte is claimed when it was before or is one of those added. -/
  mem_iff : ∀ x, x ∈ grown.claims ↔ x ∈ arena.claims ∨ x ∈ added

/-- An arena with a well-formed table grows by nothing. -/
theorem Grows.refl (h : arena.claims.WellFormed) : arena.Grows arena ∅ :=
  ⟨rfl, h, fun x => by simp⟩

/-- What is added in two parts is added. -/
theorem Grows.trans (first : arena.Grows grown added) (second : grown.Grows last more) :
    arena.Grows last (added ∪ more) := by
  refine ⟨second.page_eq.trans first.page_eq, second.wellFormed, fun x => ?_⟩
  rw [second.mem_iff, first.mem_iff, Set.mem_union, or_assoc]

/-- What is claimed stays claimed. -/
theorem Grows.mem_of_mem (h : arena.Grows grown added) {x : Nat} (hx : x ∈ arena.claims) :
    x ∈ grown.claims :=
  (h.mem_iff x).mpr (Or.inl hx)

/-- An arena that takes over the table an insertion leaves grows by the extent. -/
theorem Grows.of_insert {extent : Extent} {claims : Claims capacity}
    (hwf : arena.claims.WellFormed) (h : arena.claims.insert extent = .ok claims) :
    arena.Grows { arena with claims } (Set.Ico extent.start extent.stop) := by
  refine ⟨rfl, hwf.insert h, fun x => ?_⟩
  have hmem : x ∈ extent ↔ x ∈ Set.Ico extent.start extent.stop := by
    cases hempty : extent.isEmpty with
    | true =>
      have hsize := Extent.isEmpty_iff.mp hempty
      rw [Extent.mem_def, Set.mem_Ico, Extent.stop]
      omega
    | false => exact Extent.mem_iff_of_inside (Claims.insert_eq_ok hempty h).1
  show x ∈ claims ↔ _
  rw [hwf.mem_insert h, hmem]

/-- How an action ends that claims memory at once: it is done and has claimed the bytes that belong
to its value, or it fails and has left the arena alone. It does not halt. -/
inductive ClaimsAtOnce (arena : Arena capacity) (bytes : α → Set Nat) :
    Report (Arena capacity) α → Prop where
  /-- All bytes are claimed. -/
  | done {value : α} {grown : Arena capacity} {log : List Event} :
    arena.Grows grown (bytes value) → ClaimsAtOnce arena bytes ⟨.done value, grown, log⟩
  /-- Nothing has changed. -/
  | failed {failure : Failure} {log : List Event} :
    ClaimsAtOnce arena bytes ⟨.failed failure, arena, log⟩

/-- Events that came before do not change how an action ends. -/
theorem ClaimsAtOnce.after {bytes : α → Set Nat} {report : Report (Arena capacity) α}
    (h : ClaimsAtOnce arena bytes report) (events : List Event) :
    ClaimsAtOnce arena bytes (report.after events) := by
  cases h with
  | done hgrows => exact .done hgrows
  | failed => exact .failed

/-- A function of the value of an action does not change how the action ends. -/
theorem ClaimsAtOnce.map {bytes : α → Set Nat} {bytes' : β → Set Nat} {f : α → β}
    {report : Report (Arena capacity) α} (h : ClaimsAtOnce arena bytes report)
    (hbytes : ∀ value, bytes' (f value) = bytes value) :
    ClaimsAtOnce arena bytes' (report.andThen fun value => pure (f value)) := by
  cases h with
  | done hgrows => exact .done (hbytes _ ▸ hgrows)
  | failed => exact .failed

/-- An action that claims memory at once is done and the arena has grown, or it fails and the arena
is as it was. -/
theorem ClaimsAtOnce.cases {bytes : α → Set Nat} {report : Report (Arena capacity) α}
    (h : ClaimsAtOnce arena bytes report) :
    (∃ value, report.outcome = .done value ∧ arena.Grows report.state (bytes value)) ∨
      ∃ failure, report.outcome = .failed failure ∧ report.state = arena := by
  cases h with
  | done hgrows => exact Or.inl ⟨_, rfl, hgrows⟩
  | failed => exact Or.inr ⟨_, rfl, rfl⟩

/-- How an action ends that claims memory piece by piece: it is done and has claimed all of its
bytes, or it fails and has claimed some of them. It does not halt. -/
inductive ClaimsWithin (arena : Arena capacity) (bytes : Set Nat) :
    Report (Arena capacity) α → Prop where
  /-- All bytes are claimed. -/
  | done {value : α} {grown : Arena capacity} {log : List Event} :
    arena.Grows grown bytes → ClaimsWithin arena bytes ⟨.done value, grown, log⟩
  /-- The bytes of some pieces are claimed. -/
  | failed {failure : Failure} {part : Set Nat} {grown : Arena capacity} {log : List Event} :
    part ⊆ bytes → arena.Grows grown part → ClaimsWithin arena bytes ⟨.failed failure, grown, log⟩

/-- An action that fails and leaves the arena alone has claimed some bytes, namely none. -/
theorem ClaimsWithin.unchanged {bytes : Set Nat} {failure : Failure} {log : List Event}
    (hwf : arena.claims.WellFormed) :
    ClaimsWithin arena bytes (⟨.failed failure, arena, log⟩ : Report (Arena capacity) α) :=
  .failed (Set.empty_subset bytes) (.refl hwf)

/-- What an action claims after the arena has grown is claimed together with that growth. -/
theorem ClaimsWithin.of_grows {bytes : Set Nat} {report : Report (Arena capacity) α}
    (h : grown.ClaimsWithin bytes report) (hgrows : arena.Grows grown added) :
    arena.ClaimsWithin (added ∪ bytes) report := by
  cases h with
  | done hmore => exact .done (hgrows.trans hmore)
  | failed hpart hmore =>
    exact .failed (Set.union_subset_union_right added hpart) (hgrows.trans hmore)

/-- Events that came before do not change how an action ends. -/
theorem ClaimsWithin.after {bytes : Set Nat} {report : Report (Arena capacity) α}
    (h : ClaimsWithin arena bytes report) (events : List Event) :
    ClaimsWithin arena bytes (report.after events) := by
  cases h with
  | done hgrows => exact .done hgrows
  | failed hpart hgrows => exact .failed hpart hgrows

/-- An action that changes nothing after another does not change how that ends. -/
theorem ClaimsWithin.andThen {bytes : Set Nat} {report : Report (Arena capacity) α}
    (h : ClaimsWithin arena bytes report) {next : α → Action (Arena capacity) β}
    (hnext : ∀ value state, ∃ result log, (next value).run state = ⟨.done result, state, log⟩) :
    ClaimsWithin arena bytes (report.andThen next) := by
  cases h with
  | done hgrows =>
    obtain ⟨result, log, hrun⟩ := hnext _ _
    rw [Report.andThen_done, hrun]
    exact .done hgrows
  | failed hpart hgrows => exact .failed hpart hgrows

/-- However an action ends that claims memory piece by piece, it has claimed some of its bytes and no
others. -/
theorem ClaimsWithin.grows_within {bytes : Set Nat} {report : Report (Arena capacity) α}
    (h : ClaimsWithin arena bytes report) : ∃ part ⊆ bytes, arena.Grows report.state part := by
  cases h with
  | done hgrows => exact ⟨_, subset_rfl, hgrows⟩
  | failed hpart hgrows => exact ⟨_, hpart, hgrows⟩

/-- Whatever an action claims piece by piece, the arena grows. -/
theorem ClaimsWithin.grows {bytes : Set Nat} {report : Report (Arena capacity) α}
    (h : ClaimsWithin arena bytes report) : ∃ part, arena.Grows report.state part := by
  obtain ⟨part, -, hgrows⟩ := h.grows_within
  exact ⟨part, hgrows⟩

/-- An action that claims memory piece by piece has claimed all of its bytes when it is done. -/
theorem ClaimsWithin.grows_of_done {bytes : Set Nat} {report : Report (Arena capacity) α}
    {value : α} (h : ClaimsWithin arena bytes report) (hdone : report.outcome = .done value) :
    arena.Grows report.state bytes := by
  cases h with
  | done hgrows => exact hgrows
  | failed _ _ => exact absurd hdone (by simp)

/-- Inserting an extent claims its bytes at once. -/
theorem add_claimsAtOnce (extent : Extent) (hwf : arena.claims.WellFormed) :
    ClaimsAtOnce arena (fun _ => Set.Ico extent.start extent.stop)
      ((onClaims (Claims.add extent)).run arena) := by
  rw [onClaims, Action.run_onPart, Claims.run_add]
  cases h : arena.claims.insert extent with
  | ok claims => exact .done (.of_insert hwf h)
  | error refusal => exact .failed

/-- A self-check of a well-formed table changes nothing, finds nothing and does not halt. -/
theorem run_selfCheck_of_wellFormed (hwf : arena.claims.WellFormed) :
    selfCheck.run arena =
      ⟨.done (), arena, if arena.claims.isEmpty then [.nothingClaimed] else []⟩ := by
  rw [run_selfCheck, hwf.firstDefect_eq_none]
  split <;> simp [*]

/-- What the choice of an address for a claim promises. -/
structure Chosen (arena : Arena capacity) (address size : UInt64) (placement : Placement)
    (base : UInt64) : Prop where
  /-- A pinned claim is made at the given address. -/
  pinned : placement = .fixed ∨ placement = .forced → base = address
  /-- Unless the claim is forced, none of its bytes is claimed yet. -/
  unclaimed : placement ≠ .forced →
    ∀ x ∈ Set.Ico base.toNat (base.toNat + size.toNat), x ∉ arena.claims
  /-- A claim below 4 GiB ends there or below. -/
  below : placement = .below4GiB → base.toNat + size.toNat ≤ fourGiB

/-- The choice of a given address is that address, or it fails; either way it leaves the arena
alone. -/
theorem choosePinned_cases (extent : Extent) (placement : Placement) :
    (∃ log, (choosePinned extent placement).run arena = ⟨.done extent.base, arena, log⟩ ∧
      extent.stop ≤ addressSpace ∧
        (placement = .fixed → arena.claims.unclaimed extent = true)) ∨
    ∃ failure log, (choosePinned extent placement).run arena = ⟨.failed failure, arena, log⟩ := by
  rw [run_choosePinned]
  split
  · exact Or.inr ⟨_, _, rfl⟩
  · rename_i hpast
    rw [Extent.runsPastTop_iff, Nat.not_lt] at hpast
    split
    · exact Or.inr ⟨_, _, rfl⟩
    · rename_i hclaimed
      refine Or.inl ⟨_, rfl, hpast, fun hfixed => ?_⟩
      by_contra hfalse
      exact hclaimed ⟨hfixed, Bool.eq_false_iff.mpr hfalse⟩

/-- The choice of the lowest room finds some, or it fails; either way it leaves the arena alone. -/
theorem chooseLowest_cases (hwf : arena.claims.WellFormed) (size alignment : UInt64) (ceiling : Nat)
    (placement : Placement) :
    (∃ base log, (chooseLowest size alignment ceiling placement).run arena =
      ⟨.done base, arena, log⟩ ∧
        Claims.Wanted.Fits ⟨size, alignment, ceiling⟩ arena.claims.entries base) ∨
    ∃ failure log, (chooseLowest size alignment ceiling placement).run arena =
      ⟨.failed failure, arena, log⟩ := by
  rw [run_chooseLowest]
  split
  · exact Or.inr ⟨_, _, rfl⟩
  · rename_i halign
    obtain ⟨found, hfound, hfits⟩ := hwf.firstFit_ok ⟨size, alignment, ceiling⟩ halign
    rw [hfound]
    cases found with
    | none => exact Or.inr ⟨_, _, rfl⟩
    | some base => exact Or.inl ⟨base, _, rfl, hfits base rfl⟩

/-- The choice of an address keeps its promise, or it fails; either way it leaves the arena
alone. -/
theorem choose_cases (hwf : arena.claims.WellFormed) (address size alignment : UInt64)
    (placement : Placement) :
    (∃ base log, (choose address size alignment placement).run arena = ⟨.done base, arena, log⟩ ∧
      arena.Chosen address size placement base) ∨
    ∃ failure log, (choose address size alignment placement).run arena =
      ⟨.failed failure, arena, log⟩ := by
  cases placement with
  | fixed =>
    refine (choosePinned_cases ⟨address, size⟩ .fixed).imp_left ?_
    rintro ⟨log, hrun, hinside, hunclaimed⟩
    refine ⟨address, log, hrun, fun _ => rfl, fun _ x hx => ?_, by simp⟩
    exact Claims.unclaimed_iff.mp (hunclaimed rfl) x ((Extent.mem_iff_of_inside hinside).mpr hx)
  | forced =>
    refine (choosePinned_cases ⟨address, size⟩ .forced).imp_left ?_
    rintro ⟨log, hrun, -, -⟩
    exact ⟨address, log, hrun, fun _ => rfl, fun h => absurd rfl h, by simp⟩
  | below4GiB =>
    refine (chooseLowest_cases hwf size alignment fourGiB .below4GiB).imp_left ?_
    rintro ⟨base, log, hrun, hfits⟩
    refine ⟨base, log, hrun, by simp, fun _ x hx => ?_, fun _ => hfits.below⟩
    rintro ⟨entry, hentry, hmem⟩
    exact hfits.free x hx entry hentry hmem
  | anywhere =>
    refine (chooseLowest_cases hwf size alignment addressSpace .anywhere).imp_left ?_
    rintro ⟨base, log, hrun, hfits⟩
    refine ⟨base, log, hrun, by simp, fun _ x hx => ?_, by simp⟩
    rintro ⟨entry, hentry, hmem⟩
    exact hfits.free x hx entry hentry hmem

/-- A claim of some bytes in a well-formed table chooses an address, inserts the bytes there and
reports the claim: nobody can tell whether the self-check after it is made. -/
theorem run_claim (hwf : arena.claims.WellFormed) {address size alignment : UInt64}
    {placement : Placement} (hsize : size ≠ 0) :
    (claim address size alignment placement).run arena =
      (do
        let base ← choose address size alignment placement
        onClaims (Claims.add ⟨base, size⟩)
        Action.emit (.claimed ⟨base, size⟩ placement)
        pure base : Action (Arena capacity) UInt64).run arena := by
  rw [claim, if_neg hsize, Action.run_bind, Action.run_bind]
  rcases choose_cases hwf address size alignment placement with
    ⟨base, log, hrun, -⟩ | ⟨failure, log, hrun⟩
  · rw [hrun, Report.andThen_done, Report.andThen_done, Action.run_bind, Action.run_bind]
    congr 1
    rw [onClaims, Action.run_onPart, Claims.run_add]
    cases hinsert : arena.claims.insert ⟨base, size⟩ with
    | error refusal => rfl
    | ok grown =>
      -- The self-check finds a table that is well formed and not empty, and says nothing.
      have hwf' := hwf.insert hinsert
      have hne : grown.isEmpty = false := hwf.isEmpty_insert (by simpa [Extent.isEmpty]) hinsert
      cases arena.watchful with
      | false => simp
      | true => simp [run_selfCheck_of_wellFormed, hwf', hne]
  · rw [hrun, Report.andThen_failed, Report.andThen_failed]

/-- How a claim of some bytes ends: an address is chosen and the bytes there are inserted, or their
insertion is refused; or the choice fails, and the claim as it does. -/
theorem choice_cases (hwf : arena.claims.WellFormed) (address : UInt64) {size : UInt64}
    (alignment : UInt64) (placement : Placement) (hsize : size ≠ 0) :
    (∃ base claims log,
      ((choose address size alignment placement).run arena).outcome = .done base ∧
      arena.Chosen address size placement base ∧
      arena.claims.insert ⟨base, size⟩ = .ok claims ∧
      (claim address size alignment placement).run arena =
        ⟨.done base, { arena with claims }, log⟩) ∨
    (∃ base refusal log,
      ((choose address size alignment placement).run arena).outcome = .done base ∧
      arena.claims.insert ⟨base, size⟩ = .error refusal ∧
      (claim address size alignment placement).run arena =
        ⟨.failed .outOfResources, arena, log⟩) ∨
    ∃ failure log,
      ((choose address size alignment placement).run arena).outcome = .failed failure ∧
      (claim address size alignment placement).run arena = ⟨.failed failure, arena, log⟩ := by
  rw [run_claim hwf hsize, Action.run_bind]
  rcases choose_cases hwf address size alignment placement with
    ⟨base, log, hrun, hchosen⟩ | ⟨failure, log, hrun⟩
  · rw [hrun, Report.andThen_done, Action.run_bind, onClaims, Action.run_onPart]
    rcases Claims.add_cases ⟨base, size⟩ arena.claims with
      ⟨claims, joined, hinsert, hadd⟩ | ⟨refusal, refused, hinsert, hadd⟩
    · exact Or.inl ⟨base, claims, _, rfl, hchosen, hinsert, by rw [hadd]; rfl⟩
    · exact Or.inr (Or.inl ⟨base, refusal, _, rfl, hinsert, by rw [hadd]; rfl⟩)
  · rw [hrun, Report.andThen_failed]
    exact Or.inr (Or.inr ⟨failure, log, rfl, rfl⟩)

/-- A claim of some bytes is made at an address that was chosen for it, or it fails and leaves the
arena alone. -/
theorem claim_cases (hwf : arena.claims.WellFormed) (address : UInt64) {size : UInt64}
    (alignment : UInt64) (placement : Placement) (hsize : size ≠ 0) :
    (∃ base claims log, (claim address size alignment placement).run arena =
      ⟨.done base, { arena with claims }, log⟩ ∧
        arena.claims.insert ⟨base, size⟩ = .ok claims ∧ arena.Chosen address size placement base) ∨
    ∃ failure log, (claim address size alignment placement).run arena =
      ⟨.failed failure, arena, log⟩ := by
  rcases choice_cases hwf address alignment placement hsize with
    ⟨base, claims, log, -, hchosen, hinsert, hrun⟩ | ⟨base, refusal, log, -, -, hrun⟩ |
      ⟨failure, log, -, hrun⟩
  · exact Or.inl ⟨base, claims, log, hrun, hinsert, hchosen⟩
  · exact Or.inr ⟨.outOfResources, log, hrun⟩
  · exact Or.inr ⟨failure, log, hrun⟩

/-- A claim claims the bytes from its address on at once. -/
theorem claim_claimsAtOnce (hwf : arena.claims.WellFormed) (address size alignment : UInt64)
    (placement : Placement) :
    ClaimsAtOnce arena (fun base => Set.Ico base.toNat (base.toNat + size.toNat))
      ((claim address size alignment placement).run arena) := by
  by_cases hsize : size = 0
  · subst hsize
    rw [run_claim_zero]
    refine .done ?_
    simpa using Grows.refl hwf
  · rcases claim_cases hwf address alignment placement hsize with
      ⟨base, claims, log, hrun, hinsert, -⟩ | ⟨failure, log, hrun⟩
    · rw [hrun]
      exact .done (.of_insert hwf hinsert)
    · rw [hrun]
      exact .failed

/-- A forced claim of some bytes is what their insertion is: it is made at the given address, or it
fails for want of resources and leaves the arena alone. -/
theorem claim_forced_cases (hwf : arena.claims.WellFormed) (address : UInt64) {size : UInt64}
    (alignment : UInt64) (hsize : size ≠ 0) :
    (∃ claims log, arena.claims.insert ⟨address, size⟩ = .ok claims ∧
      (claim address size alignment .forced).run arena =
        ⟨.done address, { arena with claims }, log⟩) ∨
    ∃ refusal log, arena.claims.insert ⟨address, size⟩ = .error refusal ∧
      (claim address size alignment .forced).run arena =
        ⟨.failed .outOfResources, arena, log⟩ := by
  rw [run_claim hwf hsize, Action.run_bind, choose, run_choosePinned]
  by_cases hpast : (⟨address, size⟩ : Extent).runsPastTop = true
  · -- The insertion would be refused for the same reason.
    have hne : (⟨address, size⟩ : Extent).isEmpty = false := by simpa [Extent.isEmpty] using hsize
    refine Or.inr ⟨.insertPastTop ⟨address, size⟩, _, ?_, by rw [if_pos hpast]; rfl⟩
    simp [Claims.insert, hne, hpast]
  · rw [if_neg hpast, if_neg (by simp), Report.andThen_done, Action.run_bind, onClaims,
      Action.run_onPart]
    rcases Claims.add_cases ⟨address, size⟩ arena.claims with
      ⟨claims, joined, hinsert, hadd⟩ | ⟨refusal, refused, hinsert, hadd⟩
    · exact Or.inl ⟨claims, _, hinsert, by rw [hadd]; rfl⟩
    · exact Or.inr ⟨refusal, _, hinsert, by rw [hadd]; rfl⟩

/-- A reservation of some bytes inserts the pages around them, or it fails for want of resources and
leaves the arena alone: when the bytes run past the top, when the pages are the whole address space,
and when their insertion is refused. -/
theorem reserve_cases (hwf : arena.claims.WellFormed) {extent : Extent}
    (hne : extent.isEmpty = false) :
    (∃ pages claims log, extent.stop ≤ addressSpace ∧ arena.page.widen? extent = some pages ∧
      arena.claims.insert pages = .ok claims ∧
      (reserve extent).run arena = ⟨.done (), { arena with claims }, log⟩) ∨
    (∃ log, (reserve extent).run arena = ⟨.failed .outOfResources, arena, log⟩) ∧
      (extent.stop ≤ addressSpace → ∀ pages, arena.page.widen? extent = some pages →
        ∃ refusal, arena.claims.insert pages = .error refusal) := by
  rw [reserve, hne, if_neg (by simp), Action.run_ite]
  by_cases hpast : extent.runsPastTop = true
  · rw [if_pos hpast]
    refine Or.inr ⟨⟨_, rfl⟩, fun hinside => ?_⟩
    rw [Extent.runsPastTop_iff] at hpast
    omega
  rw [if_neg hpast]
  rw [Extent.runsPastTop_iff, Nat.not_lt] at hpast
  rw [Action.run_bind, Action.run_get, Report.andThen_done]
  cases hpages : arena.page.widen? extent with
  | none => exact Or.inr ⟨⟨_, rfl⟩, by simp⟩
  | some pages =>
    -- The pages have bytes, so the forced claim is made at the first of them.
    obtain ⟨hlt, -, -⟩ :=
      PageSize.widen?_eq_some (Extent.isEmpty_eq_false_iff.mp hne) hpast hpages
    have hsize : pages.length ≠ 0 := by
      simpa [Extent.isEmpty] using Extent.isEmpty_eq_false_iff.mpr hlt
    dsimp only
    rw [Action.run_bind]
    rcases claim_forced_cases hwf pages.base Alignment.any.bytes hsize with
      ⟨claims, log, hinsert, hrun⟩ | ⟨refusal, log, hinsert, hrun⟩
    · exact Or.inl ⟨pages, claims, _, hpast, rfl, hinsert, by rw [hrun]; rfl⟩
    · refine Or.inr ⟨⟨_, by rw [hrun]; rfl⟩, fun _ other hother => ⟨refusal, ?_⟩⟩
      rwa [← Option.some.inj hother]

/-- A reservation claims the pages around its extent at once. -/
theorem reserve_claimsAtOnce (hwf : arena.claims.WellFormed) (extent : Extent) :
    ClaimsAtOnce arena (fun _ => arena.page.around (Set.Ico extent.start extent.stop))
      ((reserve extent).run arena) := by
  cases hempty : extent.isEmpty with
  | true =>
    rw [reserve, if_pos hempty, Action.run_pure]
    refine .done ?_
    simpa [Extent.stop_eq_start_of_isEmpty hempty] using Grows.refl hwf
  | false =>
    rcases reserve_cases hwf hempty with
      ⟨pages, claims, log, hinside, hpages, hinsert, hrun⟩ | ⟨⟨log, hrun⟩, -⟩
    · obtain ⟨-, -, hbytes⟩ :=
        PageSize.widen?_eq_some (Extent.isEmpty_eq_false_iff.mp hempty) hinside hpages
      rw [hrun]
      refine .done ?_
      rw [← hbytes]
      exact .of_insert hwf hinsert
    · rw [hrun]
      exact .failed

end PhysicalMemory.Arena
