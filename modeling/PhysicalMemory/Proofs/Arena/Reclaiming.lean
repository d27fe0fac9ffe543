import PhysicalMemory.Proofs.Firmware.CanonicalMaps
import PhysicalMemory.Proofs.Firmware.Merging

/-!
# Claiming what is claimed already

The bytes of an extent that are all claimed already are in one entry, whose slot is a slot for them,
and some byte is free beside them because one always is. So their insertion is done, and the table
that it leaves has the same bytes as before and hence is the same (`insert_eq_self`). A forced claim
and a reservation come to such an insertion, and withholding by a map to a sequence of them. What a
map does not grant stays claimed whatever else is claimed, so it can be withheld again at any time,
by the map or by its canonical form (`claimed_again`).
-/

namespace PhysicalMemory

open Firmware

namespace Claims

variable {capacity : Nat} {claims : Claims capacity} {extent : Extent}

/-- An extent whose bytes are all claimed lies inside the address space. -/
theorem stop_le_of_claimed (hclaimed : ∀ x ∈ Set.Ico extent.start extent.stop, x ∈ claims) :
    extent.stop ≤ addressSpace := by
  by_contra hpast
  -- Otherwise the position above the last address would be claimed.
  obtain ⟨entry, -, hmem⟩ :=
    hclaimed addressSpace ⟨Nat.le_of_lt extent.start_lt, Nat.not_le.mp hpast⟩
  exact Nat.lt_irrefl _ hmem.2.2

/-- Where the first byte of an extent is claimed, there is a slot for the extent. -/
theorem hasSlotFor_of_start_mem (hstart : extent.start ∈ claims) : claims.HasSlotFor extent := by
  obtain ⟨entry, hentry, hmem⟩ := hstart
  have hle := extent.start_le_stop
  rw [Extent.mem_def] at hmem
  exact Or.inr ⟨entry, hentry, Extent.meets_iff.mpr (by omega)⟩

/-- Inserting an extent with bytes that are all claimed already is done and changes nothing. -/
theorem WellFormed.insert_eq_self (hwf : claims.WellFormed) (hne : extent.isEmpty = false)
    (hclaimed : ∀ x ∈ Set.Ico extent.start extent.stop, x ∈ claims) :
    claims.insert extent = .ok claims := by
  have hinside := stop_le_of_claimed hclaimed
  have hmem : ∀ x ∈ extent, x ∈ claims :=
    fun x hx => hclaimed x ((Extent.mem_iff_of_inside hinside).mp hx)
  have hslot : claims.HasSlotFor extent :=
    hasSlotFor_of_start_mem (hclaimed _ ⟨le_refl _, Extent.isEmpty_eq_false_iff.mp hne⟩)
  obtain ⟨x, hx, hfree⟩ := hwf.exists_not_mem
  obtain ⟨grown, hinsert⟩ :=
    (hwf.exists_insert_iff hne).mpr ⟨hinside, ⟨x, hx, hfree, fun h => hfree (hmem x h)⟩, hslot⟩
  have hsame : grown = claims := (hwf.insert hinsert).ext hwf fun y => by
    rw [hwf.mem_insert hinsert]
    exact or_iff_left_of_imp (hmem y)
  rw [hinsert, hsame]

end Claims

namespace Arena

variable {capacity : Nat} {arena : Arena capacity} {address size : UInt64} {extent : Extent}

/-- A forced claim of some bytes that are all claimed already is made, and it changes nothing. -/
theorem run_claim_forced_of_claimed (hwf : arena.claims.WellFormed) (hsize : size ≠ 0)
    (hclaimed : ∀ x ∈ Set.Ico address.toNat (address.toNat + size.toNat), x ∈ arena.claims)
    (alignment : UInt64) :
    ∃ log, (claim address size alignment .forced).run arena = ⟨.done address, arena, log⟩ := by
  have hsame : arena.claims.insert ⟨address, size⟩ = .ok arena.claims :=
    hwf.insert_eq_self (by simpa [Extent.isEmpty] using hsize) hclaimed
  rcases claim_forced_cases hwf address alignment hsize with
    ⟨claims, log, hinsert, hrun⟩ | ⟨refusal, log, hinsert, -⟩
  · rw [hsame] at hinsert
    obtain rfl := Except.ok.inj hinsert
    exact ⟨log, hrun⟩
  · exact absurd (hsame.symm.trans hinsert) (by simp)

/-- A reservation leads nowhere else when the pages around its bytes are all claimed already. -/
theorem leads_reserve_of_claimed (hwf : arena.claims.WellFormed)
    (hclaimed : ∀ x ∈ arena.page.around (Set.Ico extent.start extent.stop), x ∈ arena.claims) :
    (reserve extent).Leads arena arena := by
  cases hempty : extent.isEmpty with
  | true => exact (leads_reserve_of_isEmpty hempty).mpr rfl
  | false =>
    have hlt := Extent.isEmpty_eq_false_iff.mp hempty
    have hinside : extent.stop ≤ addressSpace :=
      Claims.stop_le_of_claimed fun x hx => hclaimed x (arena.page.subset_around _ hx)
    -- A byte that is free is in none of the pages, so they are an extent.
    obtain ⟨x, hx, hfree⟩ := hwf.exists_not_mem
    obtain ⟨pages, hpages⟩ :=
      PageSize.exists_widen?_eq_some hlt hinside hx fun h => hfree (hclaimed x h)
    obtain ⟨hpagesLt, -, hbytes⟩ := PageSize.widen?_eq_some hlt hinside hpages
    have hsame : arena.claims.insert pages = .ok arena.claims :=
      hwf.insert_eq_self (Extent.isEmpty_eq_false_iff.mpr hpagesLt) (hbytes ▸ hclaimed)
    exact (leads_reserve_iff hwf hempty).mpr ⟨hinside, pages, arena.claims, hpages, hsame, rfl⟩

end Arena

namespace Firmware

variable {capacity : Nat} {arena next last : Arena capacity} {pieces others : List Withheld}
  {regions : List Region} {part : Set Nat}

/-- Withholding pieces leads nowhere else when the pages around their bytes are all claimed
already. -/
theorem withholds_of_claimed (hwf : arena.claims.WellFormed)
    (hclaimed : ∀ x ∈ arena.page.around (pieceBytes pieces), x ∈ arena.claims) :
    Withholds pieces arena arena := by
  induction pieces with
  | nil => exact withholds_nil.mpr rfl
  | cons piece rest ih =>
    rw [pieceBytes_cons, PageSize.around_union] at hclaimed
    exact withholds_cons.mpr ⟨arena,
      Arena.leads_reserve_of_claimed hwf fun x hx => hclaimed x (Or.inl hx),
      ih fun x hx => hclaimed x (Or.inr hx)⟩

/-- Pieces that have been withheld can be withheld again, or others that have none but their bytes,
after the arena has grown, and that leads nowhere else. -/
theorem Withholds.again (hwf : arena.claims.WellFormed) (h : Withholds pieces arena next)
    (hgrows : next.Grows last part) (hsub : pieceBytes others ⊆ pieceBytes pieces) :
    Withholds others last last := by
  have htotal := (h.grows hwf).trans hgrows
  refine withholds_of_claimed htotal.wellFormed fun x hx => (htotal.mem_iff x).mpr ?_
  rw [htotal.page_eq] at hx
  exact Or.inr (Or.inl (PageSize.around_mono hsub hx))

/-- When withholding by a map has been done, it leads nowhere else after the arena has grown, and
withholding by the canonical form of the map does not either. -/
theorem leads_withhold_again (hwf : arena.claims.WellFormed)
    (h : (withhold regions).Leads arena next) (hgrows : next.Grows last part) :
    (withhold regions).Leads last last ∧ (withhold (canonical regions)).Leads last last := by
  obtain ⟨husable, top, htop, hplan⟩ := leads_withhold_iff.mp h
  have hagain : (withhold regions).Leads last last :=
    leads_withhold_iff.mpr ⟨husable, top, htop, hplan.again hwf hgrows subset_rfl⟩
  exact ⟨hagain, leads_withhold_canonical hgrows.wellFormed hagain⟩

/-- The pieces of the boot loader in the canonical form of a map have no bytes but those in the
map. -/
theorem pieceBytes_loaderPieces_canonical (regions : List Region) :
    pieceBytes (loaderPieces (canonical regions)) ⊆ pieceBytes (loaderPieces regions) := by
  rintro x ⟨piece, hpiece, hx⟩
  obtain ⟨region, hregion, rfl⟩ := List.mem_map.mp hpiece
  rw [List.mem_filter, Bool.and_eq_true, beq_iff_eq] at hregion
  obtain ⟨hregion, husage, hne⟩ := hregion
  by_cases hpast : addressSpace < region.extent.stop
  · -- A region that runs past the top is one of the map.
    have hmap := (mem_canonical_iff_of_pastTop hpast).mp hregion
    exact ⟨_, List.mem_map.mpr ⟨region, by simp [hmap, husage, hne], rfl⟩, hx⟩
  · refine loaderBytes_subset ?_
    rw [← (sameBytes_canonical regions).loaderBytes_eq]
    exact ⟨region, hregion, husage, (Extent.mem_iff_of_inside (Nat.not_lt.mp hpast)).mpr hx⟩

end Firmware

namespace Operation

variable {capacity : Nat} {arena last : Arena capacity} {regions : List Region} {reply : Reply}
  {operation again : Operation} {part : Set Nat}

/-- The operation, by the canonical form of the map that it goes through. -/
def withCanonicalMap : Operation → Operation
  | .withhold regions => .withhold (canonical regions)
  | .withholdLoader regions => .withholdLoader (canonical regions)
  | .adopt regions => .adopt (canonical regions)
  | operation => operation

/-- An operation that withholds by a map is done where withholding by the map is. -/
theorem withhold_done_iff : ((withhold regions).perform.run arena).outcome = .done reply ∧
      ((withhold regions).perform.run arena).state = last ↔
    .nothing = reply ∧ (Firmware.withhold regions).Leads arena last :=
  Action.bind_pure_done_iff

/-- An operation that withholds the boot loader's memory is done where its pieces are withheld. -/
theorem withholdLoader_done_iff :
    ((withholdLoader regions).perform.run arena).outcome = .done reply ∧
      ((withholdLoader regions).perform.run arena).state = last ↔
    .nothing = reply ∧ Withholds (loaderPieces regions) arena last :=
  Action.bind_pure_done_iff

/-- An operation that adopts a map is done where withholding by its canonical form is. -/
theorem adopt_done_iff : ((adopt regions).perform.run arena).outcome = .done reply ∧
      ((adopt regions).perform.run arena).state = last ↔
    .map (canonical regions) = reply ∧
      (Firmware.withhold (canonical regions)).Leads arena last := by
  obtain ⟨events, hrun⟩ := run_adopt regions arena
  rw [perform, Action.run_map, hrun, Action.leads_iff]
  obtain ⟨outcome, state, log⟩ := (Firmware.withhold (canonical regions)).run arena
  cases outcome <;> simp

/-- When an operation that goes through a map has been done, it is done again after the arena has
grown, by the map or by its canonical form; the reply is the same, and the arena is left alone. -/
theorem perform_again (hwf : arena.claims.WellFormed) (hmap : operation.isDirect = false)
    (hagain : again = operation ∨ again = operation.withCanonicalMap)
    (hdone : (operation.perform.run arena).outcome = .done reply)
    (hgrows : (operation.perform.run arena).state.Grows last part) :
    (again.perform.run last).outcome = .done reply ∧ (again.perform.run last).state = last := by
  cases operation with
  | withhold regions =>
    obtain ⟨hreply, hleads⟩ := withhold_done_iff.mp ⟨hdone, rfl⟩
    obtain ⟨hsame, hcanonical⟩ := leads_withhold_again hwf hleads hgrows
    rcases hagain with rfl | rfl
    · exact withhold_done_iff.mpr ⟨hreply, hsame⟩
    · exact withhold_done_iff.mpr ⟨hreply, hcanonical⟩
  | withholdLoader regions =>
    obtain ⟨hreply, hpieces⟩ := withholdLoader_done_iff.mp ⟨hdone, rfl⟩
    rcases hagain with rfl | rfl
    · exact withholdLoader_done_iff.mpr ⟨hreply, hpieces.again hwf hgrows subset_rfl⟩
    · exact withholdLoader_done_iff.mpr
        ⟨hreply, hpieces.again hwf hgrows (pieceBytes_loaderPieces_canonical regions)⟩
  | adopt regions =>
    obtain ⟨hreply, hleads⟩ := adopt_done_iff.mp ⟨hdone, rfl⟩
    obtain ⟨hsame, -⟩ := leads_withhold_again hwf hleads hgrows
    rcases hagain with rfl | rfl
    · exact adopt_done_iff.mpr ⟨hreply, hsame⟩
    · refine adopt_done_iff.mpr ?_
      rw [canonical_canonical]
      exact ⟨hreply, hsame⟩
  | _ => exact absurd hmap (by simp [isDirect])

end Operation

namespace Arena

variable {capacity : Nat}

/-- Claiming again what is claimed already cannot fail and changes nothing, whether or not there is
a free slot. On a reachable arena, a forced claim of some bytes that are all claimed is made at its
address, and a reservation whose pages are all claimed is done, and both leave the arena alone. So
once an operation that goes through a memory map has been done, it is done again at any time in the
run that follows, by the map or by its canonical form; the reply is the same, and the arena is left
alone. -/
theorem claimed_again :
    (∀ arena : Arena capacity, arena.Reachable →
      (∀ address size alignment : UInt64, size ≠ 0 →
        (∀ x ∈ Set.Ico address.toNat (address.toNat + size.toNat), x ∈ arena.claims) →
        ((claim address size alignment .forced).run arena).outcome = .done address ∧
        ((claim address size alignment .forced).run arena).state = arena) ∧
      ∀ extent : Extent,
        (∀ x ∈ arena.page.around (Set.Ico extent.start extent.stop), x ∈ arena.claims) →
        ((reserve extent).run arena).outcome = .done () ∧
        ((reserve extent).run arena).state = arena) ∧
    ∀ (arena : Arena capacity) (operation again : Operation) (reply : Reply)
      (later : List Operation), arena.Reachable → operation.isDirect = false →
      (again = operation ∨ again = operation.withCanonicalMap) →
      (operation.perform.run arena).outcome = .done reply →
      let last := (operation.perform.run arena).state.afterRun later
      (again.perform.run last).outcome = .done reply ∧ (again.perform.run last).state = last := by
  refine ⟨fun arena hreachable => ⟨fun address size alignment hsize hclaimed => ?_,
    fun extent hclaimed => ?_⟩, ?_⟩
  · obtain ⟨log, hrun⟩ :=
      run_claim_forced_of_claimed hreachable.wellFormed hsize hclaimed alignment
    rw [hrun]
    exact ⟨rfl, rfl⟩
  · exact Action.leads_iff.mp (leads_reserve_of_claimed hreachable.wellFormed hclaimed)
  · intro arena operation again reply later hreachable hmap hagain hdone last
    obtain ⟨part, hgrows⟩ := afterRun_grows (hreachable.step operation).wellFormed later
    exact operation.perform_again hreachable.wellFormed hmap hagain hdone hgrows

/-- In a table whose only slot is taken by a page, bytes of the page can be claimed and reserved
again. What a map does not grant fills a table of two slots up to the top of memory; then one of the
entries grows, and a reservation finds no slot, but memory is withheld by the canonical form of the
map as it was before. -/
theorem claimed_again_in_full_tables :
    let page := (.empty .ofPlatform false : Arena 1).afterRun [.reserve ⟨0x1000, 1⟩]
    let regions : List Region := [⟨⟨0, 0x2000⟩, .available, 1⟩, ⟨⟨0x1000, 0x2000⟩, .available, 1⟩,
      ⟨⟨0x3000, 0x1000⟩, .reserved, 1⟩, ⟨⟨0x4000, 0x4000⟩, .available, 1⟩]
    let withheld := ((Operation.withhold regions).perform.run
      (.empty .ofPlatform false : Arena 2)).state.afterRun
        [.insert ⟨0x3800, 0x1000⟩, .reserve ⟨0x6000, 1⟩]
    ((claim 0x1fff 1 0 .forced).run page).outcome = .done 0x1fff ∧
    ((reserve ⟨0x1800, 0x800⟩).run page).state = page ∧
    withheld.claims = ⟨[⟨0x3000, 0x1800⟩, ⟨0x8000, 0xffffffffffff8000⟩]⟩ ∧
    ((Operation.withhold (canonical regions)).perform.run withheld).outcome = .done .nothing ∧
    ((Operation.withhold (canonical regions)).perform.run withheld).state = withheld := by
  intro page regions withheld
  have hreachable : page.Reachable := (Arena.Reachable.start _ _).afterRun _
  have hdone : ((Operation.withhold regions).perform.run
      (.empty .ofPlatform false : Arena 2)).outcome = .done .nothing := by
    decide +kernel
  have hfirst : floorTo PageSize.ofPlatform.bytes.toNat 0x1800 = 0x1000 := by decide +kernel
  have hlast : ceilingTo PageSize.ofPlatform.bytes.toNat 0x2000 = 0x2000 := by decide +kernel
  have hpages : page.page.around (Set.Ico 0x1800 0x2000) = Set.Ico 0x1000 0x2000 := by
    rw [PageSize.around_Ico _ (by decide)]
    exact congrArg₂ Set.Ico hfirst hlast
  have hclaims : page.claims = ⟨[⟨0x1000, 0x1000⟩]⟩ := by decide +kernel
  have hmem : ∀ x ∈ Set.Ico 0x1000 0x2000, x ∈ page.claims := by
    rintro x ⟨hstart, hstop⟩
    rw [hclaims]
    exact ⟨_, List.mem_cons_self, hstart, hstop, Nat.lt_trans hstop (by decide)⟩
  obtain ⟨hclaim, hreserve⟩ := claimed_again.1 page hreachable
  refine ⟨(hclaim 0x1fff 1 0 (by decide) fun x hx => hmem x ?_).1,
    (hreserve ⟨0x1800, 0x800⟩ fun x hx => hmem x (hpages ▸ hx)).2, by decide +kernel, ?_⟩
  · exact ⟨Nat.le_trans (by decide) hx.1, hx.2⟩
  · exact claimed_again.2 _ (.withhold regions) _ _ _ (.start _ _) rfl (Or.inr rfl) hdone

end Arena

end PhysicalMemory
