import PhysicalMemory.Proofs.Claims.Joining
import PhysicalMemory.Proofs.Claims.LowestRoom

/-!
# When a claim is made

A claim has a target: the address that the caller gives, or the lowest room below a ceiling. That
there is a target does not yet make the claim. A given address may be too high or, for a fixed
claim, already claimed; and wherever the target comes from, the table may have no slot for the
bytes, or they may be the last that are free. The first kind of obstacle stops the choice of the
address (`choose_done_iff`), the second the insertion after it (`claim_done_iff`); together they are
all there are, and each of them leaves the arena alone.
-/

namespace PhysicalMemory

/-- The placement leaves the address to a search. -/
def Placement.searches : Placement → Bool
  | .below4GiB => true
  | .fixed => false
  | .forced => false
  | .anywhere => true

namespace Arena

variable {capacity : Nat} {arena : Arena capacity} {address size alignment base : UInt64}
  {placement : Placement}

/-- The address is the target of a claim: the given one, or the lowest room for the bytes below
4 GiB or in the whole address space. -/
def IsTarget (arena : Arena capacity) (address size alignment : UInt64) :
    Placement → UInt64 → Prop
  | .fixed, base => base = address
  | .forced, base => base = address
  | .below4GiB, base =>
    IsLeast (Claims.Wanted.rooms ⟨size, alignment, fourGiB⟩ arena.claims) base.toNat
  | .anywhere, base =>
    IsLeast (Claims.Wanted.rooms ⟨size, alignment, addressSpace⟩ arena.claims) base.toNat

/-- What it takes to claim an extent with bytes, once it is the target. -/
structure Admits (arena : Arena capacity) (placement : Placement) (extent : Extent) : Prop where
  /-- The extent lies inside the address space. -/
  inside : extent.stop ≤ addressSpace
  /-- A fixed claim is of bytes that are not claimed yet. -/
  unclaimed : placement = .fixed → ∀ x ∈ extent, x ∉ arena.claims
  /-- The claim is not of all that is left. -/
  leavesFree : ∃ x < addressSpace, x ∉ arena.claims ∧ x ∉ extent
  /-- There is a slot for the extent. -/
  hasSlot : arena.claims.HasSlotFor extent

/-- The choice of a given address is done with that address, when the extent there lies inside the
address space and, for a fixed claim, none of it is claimed. -/
theorem choosePinned_done_iff :
    ((choosePinned ⟨address, size⟩ placement).run arena).outcome = .done base ↔
      base = address ∧ base.toNat + size.toNat ≤ addressSpace ∧
        (placement = .fixed → ∀ x ∈ (⟨base, size⟩ : Extent), x ∉ arena.claims) := by
  rw [run_choosePinned]
  by_cases hpast : (⟨address, size⟩ : Extent).runsPastTop = true
  · rw [if_pos hpast]
    rw [Extent.runsPastTop_iff, ← Nat.not_le] at hpast
    refine ⟨fun hdone => absurd hdone (by simp), ?_⟩
    rintro ⟨rfl, hinside, -⟩
    exact absurd hinside hpast
  · rw [if_neg hpast]
    rw [Extent.runsPastTop_iff, Nat.not_lt] at hpast
    by_cases hclaimed : placement = .fixed ∧ arena.claims.unclaimed ⟨address, size⟩ = false
    · rw [if_pos hclaimed]
      refine ⟨fun hdone => absurd hdone (by simp), ?_⟩
      rintro ⟨rfl, -, hfree⟩
      rw [Claims.unclaimed_iff.mpr (hfree hclaimed.1)] at hclaimed
      exact absurd hclaimed.2 (by simp)
    · rw [if_neg hclaimed]
      rw [not_and, Bool.not_eq_false] at hclaimed
      constructor
      · intro hdone
        obtain rfl := Outcome.done.inj hdone
        exact ⟨rfl, hpast, fun hfixed => Claims.unclaimed_iff.mp (hclaimed hfixed)⟩
      · rintro ⟨rfl, -, -⟩
        rfl

/-- The choice by a search is done with the lowest room. -/
theorem chooseLowest_done_iff {ceiling : Nat} (hwf : arena.claims.WellFormed) (hsize : size ≠ 0)
    (halign : alignment ≠ 0) :
    ((chooseLowest size alignment ceiling placement).run arena).outcome = .done base ↔
      IsLeast (Claims.Wanted.rooms ⟨size, alignment, ceiling⟩ arena.claims) base.toNat := by
  rw [run_chooseLowest, if_neg halign, ← hwf.firstFit_eq_some_iff hsize halign]
  obtain ⟨found, hfound, -⟩ := hwf.firstFit_ok ⟨size, alignment, ceiling⟩ halign
  rw [hfound]
  cases found <;> simp

/-- The choice of an address fails as invalid exactly when a search is to align by zero. -/
theorem choose_invalid_iff (hwf : arena.claims.WellFormed) :
    ((choose address size alignment placement).run arena).outcome = .failed .invalidParameter ↔
      placement.searches = true ∧ alignment = 0 := by
  -- A search that aligns by another number finds an address, or resources run out.
  have hlowest : ∀ ceiling p,
      ((chooseLowest size alignment ceiling p).run arena).outcome = .failed .invalidParameter ↔
        alignment = 0 := by
    intro ceiling p
    rw [run_chooseLowest]
    by_cases halign : alignment = 0
    · simp [halign]
    · obtain ⟨found, hfound, -⟩ := hwf.firstFit_ok ⟨size, alignment, ceiling⟩ halign
      rw [if_neg halign, hfound]
      cases found <;> simp [halign]
  have hpinned : ∀ p, ((choosePinned ⟨address, size⟩ p).run arena).outcome ≠
      .failed .invalidParameter := by
    intro p
    rw [run_choosePinned]
    split
    · simp
    · split <;> simp
  cases placement with
  | fixed => simpa [choose, Placement.searches] using hpinned .fixed
  | forced => simpa [choose, Placement.searches] using hpinned .forced
  | below4GiB => simpa [choose, Placement.searches] using hlowest fourGiB .below4GiB
  | anywhere => simpa [choose, Placement.searches] using hlowest addressSpace .anywhere

/-- The choice of an address is done with the target, when the extent there lies inside the address
space and, for a fixed claim, none of it is claimed. -/
theorem choose_done_iff (hwf : arena.claims.WellFormed) (hsize : size ≠ 0)
    (hvalid : ¬(placement.searches = true ∧ alignment = 0)) :
    ((choose address size alignment placement).run arena).outcome = .done base ↔
      arena.IsTarget address size alignment placement base ∧
        base.toNat + size.toNat ≤ addressSpace ∧
        (placement = .fixed → ∀ x ∈ (⟨base, size⟩ : Extent), x ∉ arena.claims) := by
  -- The bytes in a room end in the address space, and no claim by a search is fixed.
  have hlowest : ∀ ceiling p, alignment ≠ 0 → p ≠ .fixed →
      (((chooseLowest size alignment ceiling p).run arena).outcome = .done base ↔
        IsLeast (Claims.Wanted.rooms ⟨size, alignment, ceiling⟩ arena.claims) base.toNat ∧
          base.toNat + size.toNat ≤ addressSpace ∧
          (p = .fixed → ∀ x ∈ (⟨base, size⟩ : Extent), x ∉ arena.claims)) := by
    intro ceiling p halign hp
    rw [chooseLowest_done_iff hwf hsize halign]
    refine ⟨fun hleast => ⟨hleast, ?_, fun hfixed => absurd hfixed hp⟩, And.left⟩
    exact (Nat.le_min.mp hleast.1.2.1).2
  cases placement with
  | fixed => exact choosePinned_done_iff
  | forced => exact choosePinned_done_iff
  | below4GiB => exact hlowest fourGiB .below4GiB (fun hzero => hvalid ⟨rfl, hzero⟩) (by simp)
  | anywhere => exact hlowest addressSpace .anywhere (fun hzero => hvalid ⟨rfl, hzero⟩) (by simp)

/-- A claim of some bytes is done at an address exactly when that address is chosen and the bytes
there can be inserted. -/
theorem claim_done_iff (hwf : arena.claims.WellFormed) (hsize : size ≠ 0) :
    ((claim address size alignment placement).run arena).outcome = .done base ↔
      ((choose address size alignment placement).run arena).outcome = .done base ∧
        ∃ claims, arena.claims.insert ⟨base, size⟩ = .ok claims := by
  rcases choice_cases hwf address alignment placement hsize with
    ⟨other, claims, log, hchosen, -, hinsert, hrun⟩ |
      ⟨other, refusal, log, hchosen, hinsert, hrun⟩ | ⟨failure, log, hfailed, hrun⟩
  · rw [hchosen, hrun]
    refine ⟨fun hdone => ⟨hdone, claims, ?_⟩, And.left⟩
    rwa [← Outcome.done.inj hdone]
  · rw [hchosen, hrun]
    refine ⟨fun hdone => absurd hdone (by simp), ?_⟩
    rintro ⟨hbase, claims, hclaims⟩
    rw [← Outcome.done.inj hbase, hinsert] at hclaims
    exact absurd hclaims (by simp)
  · rw [hfailed, hrun]
    exact ⟨fun hdone => absurd hdone (by simp), fun h => absurd h.1 (by simp)⟩

/-- A claim of some bytes fails as invalid exactly when the choice of its address does. -/
theorem claim_invalid_iff (hwf : arena.claims.WellFormed) (hsize : size ≠ 0) :
    ((claim address size alignment placement).run arena).outcome = .failed .invalidParameter ↔
      ((choose address size alignment placement).run arena).outcome =
        .failed .invalidParameter := by
  rcases choice_cases hwf address alignment placement hsize with
    ⟨base, claims, log, hchosen, -, -, hrun⟩ | ⟨base, refusal, log, hchosen, -, hrun⟩ |
      ⟨failure, log, hfailed, hrun⟩
  · rw [hchosen, hrun]
  · rw [hchosen, hrun]
    simp
  · rw [hfailed, hrun]

/-- Once the address is chosen rightly, a claim is done exactly when its target admits it. -/
theorem claim_done_iff_admits (hwf : arena.claims.WellFormed) (hsize : size ≠ 0)
    (hvalid : ¬(placement.searches = true ∧ alignment = 0)) :
    ((claim address size alignment placement).run arena).outcome = .done base ↔
      arena.IsTarget address size alignment placement base ∧
        arena.Admits placement ⟨base, size⟩ := by
  have hne : (⟨base, size⟩ : Extent).isEmpty = false := by simpa [Extent.isEmpty] using hsize
  rw [claim_done_iff hwf hsize, choose_done_iff hwf hsize hvalid, hwf.exists_insert_iff hne]
  constructor
  · rintro ⟨⟨htarget, hinside, hunclaimed⟩, -, hfree, hslot⟩
    exact ⟨htarget, hinside, hunclaimed, hfree, hslot⟩
  · rintro ⟨htarget, hinside, hunclaimed, hfree, hslot⟩
    exact ⟨⟨htarget, hinside, hunclaimed⟩, hinside, hfree, hslot⟩

/-- A claim is exact. On a reachable arena, a claim of some bytes fails as invalid exactly when a
search is to align by zero. Otherwise it is done at an address exactly when that is its target and
the target admits it, and without such an address resources run out. When it is done, exactly the
bytes from its address on are added to the claimed ones, and when it is not, nothing has changed. -/
theorem claim_exact (hreachable : arena.Reachable) (address alignment : UInt64)
    (placement : Placement) (hsize : size ≠ 0) :
    (((claim address size alignment placement).run arena).outcome = .failed .invalidParameter ↔
      placement.searches = true ∧ alignment = 0) ∧
    (¬(placement.searches = true ∧ alignment = 0) →
      (∀ base, ((claim address size alignment placement).run arena).outcome = .done base ↔
        arena.IsTarget address size alignment placement base ∧
          arena.Admits placement ⟨base, size⟩) ∧
      ((∀ base, arena.IsTarget address size alignment placement base →
          ¬arena.Admits placement ⟨base, size⟩) →
        ((claim address size alignment placement).run arena).outcome =
          .failed .outOfResources)) ∧
    (∀ base, ((claim address size alignment placement).run arena).outcome = .done base →
      arena.Grows ((claim address size alignment placement).run arena).state
        (Set.Ico base.toNat (base.toNat + size.toNat))) ∧
    ((∀ base, ((claim address size alignment placement).run arena).outcome ≠ .done base) →
      ((claim address size alignment placement).run arena).state = arena) := by
  have hwf := hreachable.wellFormed
  have hinvalid : ((claim address size alignment placement).run arena).outcome =
      .failed .invalidParameter ↔ placement.searches = true ∧ alignment = 0 := by
    rw [claim_invalid_iff hwf hsize, choose_invalid_iff hwf]
  refine ⟨hinvalid, fun hvalid => ⟨fun base => claim_done_iff_admits hwf hsize hvalid,
    fun hnone => ?_⟩, ?_⟩
  · rcases (claim_claimsAtOnce hwf address size alignment placement).cases with
      ⟨base, hdone, -⟩ | ⟨failure, hfailed, -⟩
    · obtain ⟨htarget, hadmits⟩ := (claim_done_iff_admits hwf hsize hvalid).mp hdone
      exact absurd hadmits (hnone base htarget)
    · cases failure with
      | invalidParameter => exact absurd (hinvalid.mp hfailed) hvalid
      | outOfResources => exact hfailed
  · rcases (claim_claimsAtOnce hwf address size alignment placement).cases with
      ⟨base, hdone, hgrows⟩ | ⟨failure, hfailed, hsame⟩
    · refine ⟨fun other hother => ?_, fun hnot => absurd hdone (hnot base)⟩
      rwa [← Outcome.done.inj (hdone.symm.trans hother)]
    · exact ⟨fun other hother => absurd (hfailed.symm.trans hother) (by simp), fun _ => hsame⟩

/-- Two pages are claimed in a table with two slots. The lowest room for a page at a multiple of
three pages is the fourth page, which is not claimed because there is no slot for it; the page above
the second claim is claimed by force, for it touches that claim; and a search that is to align by
zero is refused as invalid. -/
theorem claim_when_full :
    let arena := (.empty .ofPlatform false : Arena 2).afterRun
      [.insert ⟨0, 0x1000⟩, .insert ⟨0x8000, 0x1000⟩]
    arena.IsTarget 0 0x1000 0x3000 .below4GiB 0x3000 ∧
    ¬arena.Admits .below4GiB ⟨0x3000, 0x1000⟩ ∧
    arena.Admits .forced ⟨0x9000, 0x1000⟩ ∧
    ((claim 0 0x1000 0 .anywhere).run arena).outcome = .failed .invalidParameter := by
  intro arena
  have hreachable : arena.Reachable := (Arena.Reachable.start _ _).afterRun _
  have hsize : (0x1000 : UInt64) ≠ 0 := by decide
  have htarget : arena.IsTarget 0 0x1000 0x3000 .below4GiB 0x3000 :=
    (hreachable.wellFormed.firstFit_eq_some_iff hsize (by decide)).mp (by decide +kernel)
  have hforced : ((claim 0x9000 0x1000 0 .forced).run arena).outcome = .done 0x9000 := by
    decide +kernel
  refine ⟨htarget, fun hadmits => ?_, ?_, ?_⟩
  · have hdone := ((claim_exact hreachable 0 0x3000 .below4GiB hsize).2.1 (by decide)).1 0x3000
    exact absurd (hdone.mpr ⟨htarget, hadmits⟩) (by decide +kernel)
  · have hdone := ((claim_exact hreachable 0x9000 0 .forced hsize).2.1 (by decide)).1 0x9000
    exact (hdone.mp hforced).2
  · exact (claim_exact hreachable 0 0 .anywhere hsize).1.mpr ⟨rfl, rfl⟩

end Arena

end PhysicalMemory
