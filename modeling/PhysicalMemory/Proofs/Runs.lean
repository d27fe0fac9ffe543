import PhysicalMemory.Operation
import PhysicalMemory.Proofs.Firmware.Withholding

/-!
# Runs of an arena

Whatever is asked of an arena with a well-formed claim table, and however it ends, the arena grows
(`perform_grows`), so every reachable table is well formed and has no defect
(`wellFormed_afterRun`). An operation that asks for memory by itself claims all of its bytes when it
is done and nothing when it fails (`perform_claimsAtOnce`); hence after a run of such operations the
claimed bytes are exactly those that its operations claimed, one after the other
(`records_afterRun`).
-/

namespace PhysicalMemory

open Firmware

namespace Operation

variable {capacity : Nat} {arena : Arena capacity}

/-- The operation asks for memory by itself, and not through a memory map. -/
def isDirect : Operation → Bool
  | .withhold _ => false
  | .withholdLoader _ => false
  | .adopt _ => false
  | _ => true

/-- The bytes that an operation claims by itself, on an arena with pages of some size, when it ends
in some way: an extent that is inserted, the bytes from the address of a claim on, or all pages
around an extent that is reserved. -/
def claimedBytes (page : PageSize) : Operation → Outcome Reply → Set Nat
  | .insert extent, .done _ => Set.Ico extent.start extent.stop
  | .claim _ size _ _, .done (.address base) => Set.Ico base.toNat (base.toNat + size.toNat)
  | .request _ size _ _, .done (.address base) => Set.Ico base.toNat (base.toNat + size.toNat)
  | .claimFixed _ size, .done (.address base) => Set.Ico base.toNat (base.toNat + size.toNat)
  | .reserve extent, .done _ => page.around (Set.Ico extent.start extent.stop)
  | _, _ => ∅

/-- An operation that fails claims nothing by itself. -/
@[simp]
theorem claimedBytes_failed (page : PageSize) (operation : Operation) (failure : Failure) :
    operation.claimedBytes page (.failed failure) = ∅ := by
  cases operation <;> rfl

/-- An operation that asks for memory by itself claims its bytes at once. -/
theorem perform_claimsAtOnce (hwf : arena.claims.WellFormed) (operation : Operation)
    (hdirect : operation.isDirect = true) :
    arena.ClaimsAtOnce (fun reply => operation.claimedBytes arena.page (.done reply))
      (operation.perform.run arena) := by
  cases operation with
  | insert extent => exact (Arena.add_claimsAtOnce extent hwf).map fun _ => rfl
  | claim address size alignment placement =>
    exact (Arena.claim_claimsAtOnce hwf address size alignment placement).map fun _ => rfl
  | request address size alignment code =>
    rw [perform, Arena.request, Action.run_map, Action.run_bind, Arena.placementOfCode]
    cases Placement.ofCode? code with
    | none => exact .failed
    | some placement =>
      exact (Arena.claim_claimsAtOnce hwf address size alignment placement).map fun _ => rfl
  | claimFixed address size =>
    exact (Arena.claim_claimsAtOnce hwf address size Alignment.any.bytes .fixed).map fun _ => rfl
  | reserve extent => exact (Arena.reserve_claimsAtOnce hwf extent).map fun _ => rfl
  | selfCheck =>
    rw [perform, Action.run_bind, Arena.run_selfCheck_of_wellFormed hwf]
    exact .done (.refl hwf)
  | list =>
    rw [perform, Action.run_bind, Arena.run_list]
    exact .done (.refl hwf)
  | withhold regions => exact absurd hdirect (by simp [isDirect])
  | withholdLoader regions => exact absurd hdirect (by simp [isDirect])
  | adopt regions => exact absurd hdirect (by simp [isDirect])

/-- An operation that asks for memory by itself lets the arena grow by the bytes that it claims. -/
theorem perform_grows_claimedBytes (hwf : arena.claims.WellFormed) (operation : Operation)
    (hdirect : operation.isDirect = true) :
    arena.Grows (operation.perform.run arena).state
      (operation.claimedBytes arena.page (operation.perform.run arena).outcome) := by
  rcases (perform_claimsAtOnce hwf operation hdirect).cases with
    ⟨reply, hdone, hgrows⟩ | ⟨failure, hfailed, hsame⟩
  · rw [hdone]
    exact hgrows
  · rw [hfailed, hsame, claimedBytes_failed]
    exact .refl hwf

/-- The bytes that an operation claims by itself are claimed after it. -/
theorem mem_claims_of_mem_claimedBytes (hwf : arena.claims.WellFormed) (operation : Operation)
    {x : Nat} (hx : x ∈ operation.claimedBytes arena.page (operation.perform.run arena).outcome) :
    x ∈ (operation.perform.run arena).state.claims := by
  cases hdirect : operation.isDirect with
  | true => exact ((perform_grows_claimedBytes hwf operation hdirect).mem_iff x).mpr (Or.inr hx)
  | false =>
    -- What goes through a memory map claims nothing by itself.
    cases operation with
    | withhold regions => exact absurd hx (Set.notMem_empty x)
    | withholdLoader regions => exact absurd hx (Set.notMem_empty x)
    | adopt regions => exact absurd hx (Set.notMem_empty x)
    | _ => exact absurd hdirect (by simp [isDirect])

/-- A claim of some bytes that is done was made at an address that was chosen for it, and lies
inside the address space. -/
theorem chosen_of_claim_done (hwf : arena.claims.WellFormed) {address size alignment base : UInt64}
    {placement : Placement} (hsize : size ≠ 0)
    (hdone : ((claim address size alignment placement).perform.run arena).outcome =
      .done (.address base)) :
    arena.Chosen address size placement base ∧ base.toNat + size.toNat ≤ addressSpace := by
  rw [perform, Action.run_map] at hdone
  rcases Arena.claim_cases hwf address alignment placement hsize with
    ⟨chosen, claims, log, hrun, hinsert, hchosen⟩ | ⟨failure, log, hrun⟩
  · rw [hrun] at hdone
    obtain rfl : chosen = base := by simpa using hdone
    refine ⟨hchosen, (Claims.insert_eq_ok ?_ hinsert).1⟩
    simpa [Extent.isEmpty] using hsize
  · rw [hrun] at hdone
    exact absurd hdone (by simp)

/-- Whatever an operation is and however it ends, the arena grows. -/
theorem perform_grows (hwf : arena.claims.WellFormed) (operation : Operation) :
    ∃ part, arena.Grows (operation.perform.run arena).state part := by
  cases operation with
  | withhold regions =>
    exact ((withhold_claimsWithin hwf regions).andThen fun _ _ => ⟨_, _, rfl⟩).grows
  | withholdLoader regions =>
    exact ((withholdLoader_claimsWithin hwf regions).andThen fun _ _ => ⟨_, _, rfl⟩).grows
  | adopt regions =>
    exact ((adopt_claimsWithin hwf regions).andThen fun _ _ => ⟨_, _, rfl⟩).grows
  | _ => exact ⟨_, perform_grows_claimedBytes hwf _ rfl⟩

end Operation

namespace Arena

variable {capacity : Nat} {arena : Arena capacity}

/-- Every reachable claim table is well formed. -/
theorem Reachable.wellFormed (h : arena.Reachable) : arena.claims.WellFormed := by
  induction h with
  | start page watchful => exact Claims.wellFormed_empty
  | step operation _ ih =>
    obtain ⟨part, hgrows⟩ := operation.perform_grows ih
    exact hgrows.wellFormed

/-- An arena grows by a run. -/
theorem afterRun_grows (hwf : arena.claims.WellFormed) (operations : List Operation) :
    ∃ part, arena.Grows (arena.afterRun operations) part := by
  induction operations generalizing arena with
  | nil => exact ⟨∅, .refl hwf⟩
  | cons operation rest ih =>
    obtain ⟨added, hfirst⟩ := operation.perform_grows hwf
    obtain ⟨more, hrest⟩ := ih hfirst.wellFormed
    exact ⟨added ∪ more, hfirst.trans hrest⟩

/-- After any run from an empty arena, so after every step of one, the claim table is well formed
and a check of it finds no defect: there are no more entries than the table has room for, each holds
a byte and lies inside the address space, and each stops below the start of every entry after it. -/
theorem wellFormed_afterRun (page : PageSize) (watchful : Bool) (operations : List Operation) :
    ((empty page watchful : Arena capacity).afterRun operations).claims.WellFormed ∧
      ((empty page watchful : Arena capacity).afterRun operations).claims.firstDefect = none := by
  have hwf := ((Reachable.start page watchful : (empty page watchful : Arena capacity).Reachable
    ).afterRun operations).wellFormed
  exact ⟨hwf, hwf.firstDefect_eq_none⟩

/-- The bytes that the operations of a run claim by themselves, by how each of them ends. -/
def claimedIn (arena : Arena capacity) (operations : List Operation) : Set Nat :=
  {x | ∃ step ∈ operations.zip (arena.reports operations),
    x ∈ step.1.claimedBytes arena.page step.2.outcome}

/-- Operations that ask for memory by themselves let the arena grow by the bytes that they claim. -/
theorem afterRun_grows_claimedIn (hwf : arena.claims.WellFormed) (operations : List Operation)
    (hdirect : ∀ operation ∈ operations, operation.isDirect = true) :
    arena.Grows (arena.afterRun operations) (arena.claimedIn operations) := by
  induction operations generalizing arena with
  | nil =>
    have hnone : arena.claimedIn [] = ∅ := by simp [claimedIn]
    rw [hnone]
    exact .refl hwf
  | cons operation rest ih =>
    -- The first operation adds its bytes and the rest of the run adds theirs.
    have hfirst := operation.perform_grows_claimedBytes hwf (hdirect _ List.mem_cons_self)
    have hrest := ih hfirst.wellFormed fun o ho => hdirect o (List.mem_cons_of_mem _ ho)
    have hbytes : arena.claimedIn (operation :: rest) =
        operation.claimedBytes arena.page (operation.perform.run arena).outcome ∪
          (operation.perform.run arena).state.claimedIn rest := by
      ext x
      simp [claimedIn, reports, hfirst.page_eq]
    rw [hbytes]
    exact hfirst.trans hrest

/-- The claim table of an arena is a record of some bytes: it holds them and no other, counts them
right, and answers rightly whether an extent has none of them. -/
structure Records (arena : Arena capacity) (bytes : Set Nat) : Prop where
  /-- The claimed bytes are these bytes. -/
  mem_iff : ∀ x, x ∈ arena.claims ↔ x ∈ bytes
  /-- The byte count is their number. -/
  byteCount_eq : (arena.claims.byteCount : ℕ∞) = bytes.encard
  /-- An extent, as far as it lies in the address space, is unclaimed when it has none of them. -/
  unclaimed_iff : ∀ extent, arena.claims.unclaimed extent = true ↔ ∀ x ∈ extent, x ∉ bytes

/-- After any run of operations that ask for memory by themselves, the claim table records exactly
the bytes that the operations claimed. -/
theorem records_afterRun (page : PageSize) (watchful : Bool) (operations : List Operation)
    (hdirect : ∀ operation ∈ operations, operation.isDirect = true) :
    ((empty page watchful : Arena capacity).afterRun operations).Records
      ((empty page watchful : Arena capacity).claimedIn operations) := by
  have hgrows : (empty page watchful : Arena capacity).Grows _ _ :=
    afterRun_grows_claimedIn Claims.wellFormed_empty operations hdirect
  have hmem : ∀ x, x ∈ ((empty page watchful : Arena capacity).afterRun operations).claims ↔
      x ∈ (empty page watchful : Arena capacity).claimedIn operations := by
    intro x
    rw [hgrows.mem_iff]
    exact or_iff_right (Claims.not_mem_empty x)
  refine ⟨hmem, ?_, fun extent => ?_⟩
  · rw [← hgrows.wellFormed.encard_bytes]
    congr 1
    ext x
    exact hmem x
  · rw [Claims.unclaimed_iff]
    simp only [hmem]

/-- What a few operations claim: an insertion, a reservation that is widened to two pages, a claim
in the room below them, one of a byte that is taken, which fails, and a forced one that runs into
the insertion. -/
theorem encard_claimedIn_few :
    ((empty .ofPlatform false : Arena 4).claimedIn [.insert ⟨0x1000, 0x800⟩, .reserve ⟨0x2fff, 2⟩,
      .claim 0 0x10 0x1000 .anywhere, .claimFixed 0x1000 1,
      .claim 0x1400 0x800 0 .forced]).encard = 11280 := by
  have hcount : ((empty .ofPlatform false : Arena 4).afterRun [.insert ⟨0x1000, 0x800⟩,
      .reserve ⟨0x2fff, 2⟩, .claim 0 0x10 0x1000 .anywhere, .claimFixed 0x1000 1,
      .claim 0x1400 0x800 0 .forced]).claims.byteCount = 11280 := by
    decide
  rw [← (records_afterRun .ofPlatform false _ (by decide)).byteCount_eq, hcount]
  rfl

end Arena

end PhysicalMemory
