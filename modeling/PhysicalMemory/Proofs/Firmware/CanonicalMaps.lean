import PhysicalMemory.Proofs.Boot.Runs
import PhysicalMemory.Proofs.Checked.Firmware
import PhysicalMemory.Proofs.Firmware.Collapsing
import PhysicalMemory.Proofs.Firmware.Plans

/-!
# Maps in canonical form

A map in canonical form ascends, so sorting it moves nothing, and no two regions side by side could
be joined, so joining runs changes nothing: the canonical form is its own canonical form
(`canonical_canonical`). In the slots of a map this leaves every region where it is
(`coalesce_idempotent`). What coalescing does not remove is a region that runs past the top. It is
in the canonical form as it was in the map, whatever stands around it, and the audit of the
canonical form refuses it (`adopt_of_pastTop`).
-/

namespace PhysicalMemory.Firmware

variable {capacity : Nat} {σ : Type} {regions rest : List Region} {region : Region}

/-- Joining runs changes nothing when no two regions side by side could be joined. -/
theorem joinRuns_eq_self
    (hsettled : (region :: rest).IsChain fun region next => ¬region.Joinable next) :
    joinRuns region rest = region :: rest := by
  induction rest generalizing region with
  | nil => rfl
  | cons next rest ih =>
    obtain ⟨hnot, hrest⟩ := List.isChain_cons_cons.mp hsettled
    rw [joinRuns, join?_eq_none_iff.mpr hnot]
    exact congrArg (region :: ·) (ih hrest)

/-- The canonical form of a map is in order. -/
theorem ordered_canonical (regions : List Region) :
    ordered (canonical regions) = canonical regions :=
  ordered_eq_self (pairwise_canonical regions)

/-- The canonical form of a map is joined. -/
theorem joined_canonical (regions : List Region) :
    joined (canonical regions) = canonical regions := by
  have hsettled := isChain_canonical regions
  cases hmap : canonical regions with
  | nil => rfl
  | cons region rest => exact joinRuns_eq_self (hmap ▸ hsettled)

/-- The canonical form of a map is its own canonical form. -/
theorem canonical_canonical (regions : List Region) :
    canonical (canonical regions) = canonical regions := by
  rw [canonical, ordered_canonical, joined_canonical]

/-- A coalesced buffer is the canonical form of its map in front of some slots. -/
theorem MapBuffer.exists_coalesced_eq (buffer : MapBuffer) : ∃ spare, buffer.coalesced =
    ⟨canonical buffer.regions ++ spare, (canonical buffer.regions).length⟩ := by
  rw [coalesced, List.append_assoc]
  exact ⟨_, rfl⟩

/-- A coalesced buffer stays as it is when it is coalesced, also behind its map. -/
theorem MapBuffer.coalesced_coalesced (buffer : MapBuffer) :
    buffer.coalesced.coalesced = buffer.coalesced := by
  obtain ⟨spare, hbuffer⟩ := buffer.exists_coalesced_eq
  have hregions := buffer.regions_coalesced
  rw [hbuffer] at hregions ⊢
  rw [coalesced, hregions, ordered_canonical, joined_canonical]
  simp

/-- Coalescing a canonical form in place has no fault, moves nothing and leaves no slot over. -/
theorem coalesceInPlace_canonical (regions : List Region) :
    Checked.coalesceInPlace (canonical regions) =
      .ok (canonical regions, (canonical regions).length) := by
  obtain ⟨spare, hagain, hslots⟩ := Checked.coalesceInPlace_eq (canonical regions)
  rw [canonical_canonical] at hagain hslots
  have hspare : spare = [] := List.eq_nil_of_length_eq_zero (by omega)
  rw [hagain, hspare, List.append_nil]

/-- Coalescing a map that has been coalesced changes nothing, whatever the map was. It is done in
the slots of the map and counts those that hold the canonical form; done again in these, it counts
all of them and leaves each as it is. So the map that it gives is the one that it gives for that
map, and in a boot, coalescing a second time gives the same count and leaves every slot of the
buffer alone. -/
theorem coalesce_idempotent :
    (∀ (regions : List Region) (state : σ), ∃ slots count,
      Checked.coalesceInPlace regions = .ok (slots, count) ∧
      Checked.coalesceInPlace (slots.take count) = .ok (slots.take count, count) ∧
      ((coalesce regions).run state).outcome = .done (slots.take count) ∧
      ((coalesce (slots.take count)).run state).outcome = .done (slots.take count)) ∧
    ∀ boot : Boot capacity,
      (Boot.coalesce.run (Boot.coalesce.run boot).state).outcome =
        (Boot.coalesce.run boot).outcome ∧
      (Boot.coalesce.run (Boot.coalesce.run boot).state).state =
        (Boot.coalesce.run boot).state := by
  refine ⟨fun regions state => ?_, fun boot => ?_⟩
  · obtain ⟨spare, hslots, -⟩ := Checked.coalesceInPlace_eq regions
    refine ⟨_, _, hslots, ?_⟩
    rw [List.take_left, run_coalesce, run_coalesce, canonical_canonical]
    exact ⟨coalesceInPlace_canonical regions, rfl, rfl⟩
  · rw [Boot.run_coalesce, Boot.run_coalesce]
    dsimp only
    rw [MapBuffer.regions_coalesced, canonical_canonical, MapBuffer.coalesced_coalesced]
    exact ⟨rfl, rfl⟩

/-- A region that runs past the top is in the canonical form exactly when it is in the map. -/
theorem mem_canonical_iff_of_pastTop (hpast : addressSpace < region.extent.stop) :
    region ∈ canonical regions ↔ region ∈ regions := by
  rw [← List.count_pos_iff, count_canonical hpast, List.count_pos_iff]

/-- Withholding by a map with a region that runs past the top is refused as invalid, and it leaves
the arena alone. -/
theorem withhold_of_pastTop (hregion : region ∈ regions)
    (hpast : addressSpace < region.extent.stop) (arena : Arena capacity) :
    ∃ log, (withhold regions).run arena = ⟨.failed .invalidParameter, arena, log⟩ := by
  rcases withhold_cases arena regions with ⟨-, hrefused⟩ | ⟨husable, -⟩
  · exact hrefused
  · exact absurd hpast (Nat.not_lt.mpr (husable.inside region hregion))

/-- A region that runs past the top makes its map unfit for adoption, wherever it stands in the map
and whatever stands around it: adopting the map fails as invalid and leaves the arena alone, in any
state of the arena, and so does adopting it in a boot. -/
theorem adopt_of_pastTop (hregion : region ∈ regions)
    (hpast : addressSpace < region.extent.stop) :
    (∀ arena : Arena capacity,
      ((adopt regions).run arena).outcome = .failed .invalidParameter ∧
      ((adopt regions).run arena).state = arena) ∧
    ∀ boot : Boot capacity, boot.map.regions = regions →
      (Boot.adopt.run boot).outcome = .failed .invalidParameter ∧
      (Boot.adopt.run boot).state.arena = boot.arena := by
  have hcanonical := (mem_canonical_iff_of_pastTop hpast).mpr hregion
  refine ⟨fun arena => ?_, fun boot hboot => ?_⟩
  · obtain ⟨events, hadopt⟩ := run_adopt regions arena
    obtain ⟨log, hrefused⟩ := withhold_of_pastTop hcanonical hpast arena
    rw [hadopt, hrefused]
    exact ⟨rfl, rfl⟩
  · obtain ⟨events, hadopt⟩ := boot.run_adopt
    have hmap : boot.map.coalesced.regions = canonical regions := by
      rw [MapBuffer.regions_coalesced, hboot]
    obtain ⟨log, hrefused⟩ := withhold_of_pastTop (hmap ▸ hcanonical) hpast boot.arena
    rw [hadopt, Boot.withhold, Action.run_bind, Action.run_get, Report.andThen_done, Boot.onArena,
      Action.run_onPart, hrefused]
    exact ⟨rfl, rfl⟩

/-- The second of three regions of a kind overlaps the other two and runs past the top. The others
are not joined across it, and the map is refused in a boot that has claimed some memory already. -/
theorem adopt_pastTop_amongOverlapping :
    let regions : List Region := [⟨⟨0x2800, 0x1000⟩, .available, 1⟩,
      ⟨⟨0x2000, 0xfffffffffffff000⟩, .available, 1⟩, ⟨⟨0x1000, 0x2000⟩, .available, 1⟩]
    let arena := (.empty .ofPlatform false : Arena 2).afterRun [.insert ⟨0x2000, 0x800⟩]
    let boot : Boot 2 := ⟨.ofRegions regions, arena⟩
    ((adopt regions).run arena).outcome = .failed .invalidParameter ∧
    (Boot.adopt.run boot).outcome = .failed .invalidParameter ∧
    (Boot.adopt.run boot).state.arena.claims = ⟨[⟨0x2000, 0x800⟩]⟩ ∧
    (Boot.adopt.run boot).state.map.count = 3 := by
  intro regions arena boot
  obtain ⟨harena, hboot⟩ :=
    @adopt_of_pastTop 2 regions _ (List.mem_cons_of_mem _ List.mem_cons_self) (by decide)
  refine ⟨(harena arena).1, (hboot boot rfl).1, ?_, by decide +kernel⟩
  rw [(hboot boot rfl).2]
  decide +kernel

end PhysicalMemory.Firmware
