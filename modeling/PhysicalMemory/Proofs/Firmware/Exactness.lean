import PhysicalMemory.Proofs.Runs

/-!
# What withholding leaves free

Memory is withheld in whole pages, so a page that is granted in part is withheld with the rest of
it. Nothing else is: what withholding by a map leaves free are the bytes that were free before and
whose page the map grants to its last byte.
-/

namespace PhysicalMemory.Firmware

variable {capacity : Nat}

/-- When withholding by a map is done, the claimed bytes are those from before and all bytes whose
page holds a byte that no region covers or that a region covers which is neither usable memory nor
the boot loader's. Equivalently, a byte is free when it was free before and every byte of its page is
granted: a region of usable memory or of the boot loader's covers it and no region of another usage
does. -/
theorem mem_withhold_iff {arena : Arena capacity} (hreachable : arena.Reachable)
    (regions : List Region) (hdone : ((withhold regions).run arena).outcome = .done ()) (x : Nat) :
    (x ∈ ((withhold regions).run arena).state.claims ↔
      x ∈ arena.claims ∨ ∃ y < addressSpace, arena.page.index x = arena.page.index y ∧
        ((∀ region ∈ regions, y ∉ region.extent) ∨
          ∃ region ∈ regions,
            (region.usage ≠ .available ∧ region.usage ≠ .loader) ∧ y ∈ region.extent)) ∧
    (x < addressSpace → (x ∉ ((withhold regions).run arena).state.claims ↔
      x ∉ arena.claims ∧ ∀ y, arena.page.index x = arena.page.index y → Grants regions y)) := by
  have hgrows := (withhold_claimsWithin hreachable.wellFormed regions).grows_of_done hdone
  have hmem : x ∈ ((withhold regions).run arena).state.claims ↔
      x ∈ arena.claims ∨ ∃ y < addressSpace, arena.page.index x = arena.page.index y ∧
        ¬Grants regions y := by
    rw [hgrows.mem_iff]
    refine or_congr_right ⟨?_, ?_⟩
    · rintro ⟨y, ⟨hlt, hnot⟩, hpage⟩
      exact ⟨y, hlt, hpage, hnot⟩
    · rintro ⟨y, hlt, hpage, hnot⟩
      exact ⟨y, ⟨hlt, hnot⟩, hpage⟩
  refine ⟨by simp only [hmem, not_grants_iff], fun hlt => ?_⟩
  rw [hmem, not_or]
  refine and_congr_right fun _ => ⟨fun h y hpage => ?_, ?_⟩
  · by_contra hnot
    exact h ⟨y, arena.page.lt_addressSpace_of_index_eq hpage hlt, hpage, hnot⟩
  · rintro h ⟨y, -, hpage, hnot⟩
    exact hnot (h y hpage)

/-- On pages of 4 KiB, a reserved region of one byte withholds all of its page and not the page
before. -/
theorem mem_withhold_reservedByte :
    let regions : List Region := [⟨⟨0, 0x3000⟩, .available, 1⟩, ⟨⟨0x1800, 1⟩, .reserved, 1⟩]
    let claims := ((withhold regions).run (.empty .ofPlatform false : Arena 4)).state.claims
    0x1000 ∈ claims ∧ 0x0fff ∉ claims := by
  intro regions claims
  have hstart : (.empty .ofPlatform false : Arena 4).Reachable := .start _ _
  have hiff := mem_withhold_iff hstart regions (by decide)
  refine ⟨(hiff 0x1000).1.mpr (Or.inr ⟨0x1800, by decide, by decide, Or.inr ?_⟩), ?_⟩
  · exact ⟨_, List.mem_cons_of_mem _ List.mem_cons_self, by decide, by decide⟩
  · refine ((hiff 0x0fff).2 (by decide)).mpr ⟨Claims.not_mem_empty _, fun y hpage => ?_⟩
    have hlt : y < 0x1000 := by
      change 0xfff / 4096 = y / 4096 at hpage
      omega
    have havailable : y ∈ (⟨0, 0x3000⟩ : Extent) :=
      ⟨Nat.zero_le y, lt_trans hlt (by decide), lt_trans hlt (by decide)⟩
    have hreserved : y ∉ (⟨0x1800, 1⟩ : Extent) :=
      fun h => absurd h.1 (Nat.not_le.mpr (lt_trans hlt (by decide)))
    refine ⟨⟨_, List.mem_cons_self, by decide, havailable⟩, fun region hregion hmem => ?_⟩
    rcases List.mem_pair.mp hregion with rfl | rfl
    · exact Or.inl rfl
    · exact absurd hmem hreserved

end PhysicalMemory.Firmware
