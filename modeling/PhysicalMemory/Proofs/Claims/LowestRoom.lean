import Mathlib.Order.Bounds.Basic
import PhysicalMemory.Proofs.Claims.CanonicalForm
import PhysicalMemory.Proofs.Claims.FirstFit
import PhysicalMemory.Proofs.Runs

/-!
# What a search finds is the lowest room

A room for some bytes is an aligned position from which on none of them is claimed and all of them
end in time. In a well-formed table a room lies in one hole, for an entry that reached into it would
share a byte with it. The search tries one position in each hole, the lowest aligned one, and where
the bytes run out of the hole or past the ceiling from there, they do so from every higher one. So
what is found is at or below every room (`Wanted.exists_fitAround_le`). It is a room itself, hence
the lowest; and nothing is found only where there is no room.
-/

namespace PhysicalMemory.Claims

variable {capacity : Nat} {claims : Claims capacity} {wanted : Wanted} {address : UInt64}
  {start stop position : Nat}

/-- The positions where a table has room for the wanted bytes: multiples of the alignment from which
on the bytes end at or below the ceiling and in the address space, and none of them is claimed. -/
def Wanted.rooms (wanted : Wanted) (claims : Claims capacity) : Set Nat :=
  {position | wanted.alignment.toNat ∣ position ∧
    position + wanted.size.toNat ≤ min wanted.ceiling addressSpace ∧
    ∀ x ∈ Set.Ico position (position + wanted.size.toNat), x ∉ claims}

/-- Where the wanted bytes fit, there is room for them. -/
theorem Wanted.Fits.mem_rooms (h : wanted.Fits claims.entries address) :
    address.toNat ∈ wanted.rooms claims := by
  refine ⟨h.aligned, Nat.le_min.mpr ⟨h.below, h.inside⟩, fun x hx hclaimed => ?_⟩
  obtain ⟨entry, hentry, hmem⟩ := hclaimed
  exact h.free x hx entry hentry hmem

/-- Rounding up finds a multiple at or below each multiple that is an address and not below the
rounded one. -/
theorem exists_roundUp_le {alignment : UInt64} {multiple : Nat} (h : alignment ≠ 0)
    (hdvd : alignment.toNat ∣ multiple) (hle : address.toNat ≤ multiple)
    (hlt : multiple < addressSpace) :
    ∃ rounded, roundUp address alignment = .ok (some rounded) ∧ rounded.toNat ≤ multiple := by
  have hpos : 0 < alignment.toNat := UInt64.pos_iff_ne_zero.mpr h
  have hceiling := ceilingTo_le_of_dvd hpos hdvd hle
  have hinside : ceilingTo alignment.toNat address.toNat < addressSpace := by omega
  refine ⟨UInt64.ofNat (ceilingTo alignment.toNat address.toNat), ?_, ?_⟩
  · rw [roundUp, if_neg h]
    dsimp only
    rw [if_pos hinside]
  · rwa [UInt64.toNat_ofNat_of_lt' hinside]

/-- A search in a hole finds an address at or below each aligned position in the hole from which on
the wanted bytes end in the hole and at or below the ceiling. -/
theorem Wanted.exists_fitBetween_le (halign : wanted.alignment ≠ 0) (hsize : wanted.size ≠ 0)
    (hstop : stop ≤ addressSpace) (hdvd : wanted.alignment.toNat ∣ position)
    (hle : start ≤ position) (hend : position + wanted.size.toNat ≤ min stop wanted.ceiling) :
    ∃ address, wanted.fitBetween start stop = .ok (some address) ∧ address.toNat ≤ position := by
  have hpos : 0 < wanted.size.toNat := UInt64.pos_iff_ne_zero.mpr hsize
  have hstart : (UInt64.ofNat start).toNat ≤ position := by
    rwa [UInt64.toNat_ofNat_of_lt' (show start < addressSpace by omega)]
  obtain ⟨rounded, hrounded, hbelow⟩ := exists_roundUp_le halign hdvd hstart (by omega)
  -- From a lower position the bytes end no higher.
  have hfits : rounded.toNat + wanted.size.toNat ≤ min stop wanted.ceiling := by omega
  refine ⟨rounded, ?_, hbelow⟩
  rw [fitBetween, if_pos (by omega), hrounded]
  exact congrArg Except.ok (Option.filter_eq_some_iff.mpr ⟨rfl, decide_eq_true hfits⟩)

/-- An entry of a well-formed table lies below or above the bytes at a room. -/
theorem WellFormed.apart_of_mem_rooms (hwf : claims.WellFormed) (hsize : wanted.size ≠ 0)
    (hroom : position ∈ wanted.rooms claims) {entry : Extent} (hentry : entry ∈ claims.entries) :
    position + wanted.size.toNat ≤ entry.start ∨ entry.stop ≤ position := by
  have hpos : 0 < wanted.size.toNat := UInt64.pos_iff_ne_zero.mpr hsize
  have hne := hwf.nonempty entry hentry
  have hinside := hwf.inside entry hentry
  obtain ⟨-, -, hfree⟩ := hroom
  by_contra hnot
  rw [not_or, Nat.not_le, Nat.not_le] at hnot
  -- Otherwise the higher of the two starts is a byte of the entry and of the room.
  refine hfree (max position entry.start) ⟨by omega, by omega⟩ ⟨entry, hentry, ?_⟩
  rw [Extent.mem_iff_of_inside hinside]
  omega

/-- A search in the holes from a position on finds an address at or below each room that is not
below that position. -/
theorem Wanted.exists_fitAround_le {entries : List Extent} (halign : wanted.alignment ≠ 0)
    (hsize : wanted.size ≠ 0) (hwf : (⟨entries⟩ : Claims capacity).WellFormed)
    (hroom : position ∈ wanted.rooms (⟨entries⟩ : Claims capacity)) (hle : start ≤ position) :
    ∃ address, wanted.fitAround start entries = .ok (some address) ∧
      address.toNat ≤ position := by
  have hpos : 0 < wanted.size.toNat := UInt64.pos_iff_ne_zero.mpr hsize
  obtain ⟨hdvd, hend, hfree⟩ := hroom
  induction entries generalizing start with
  | nil =>
    -- Above all entries there is one hole, up to the top.
    exact exists_fitBetween_le halign hsize (le_refl _) hdvd hle (by rwa [min_comm])
  | cons entry rest ih =>
    have hne := hwf.nonempty entry List.mem_cons_self
    have hceiling : ¬wanted.ceiling ≤ start := by omega
    rw [fitAround, if_neg hceiling]
    rcases hwf.apart_of_mem_rooms hsize ⟨hdvd, hend, hfree⟩ List.mem_cons_self with
      hbelow | habove
    · -- The room is in the hole before the entry.
      obtain ⟨address, hfound, haddress⟩ :=
        exists_fitBetween_le halign hsize (le_of_lt entry.start_lt) hdvd hle (by omega)
      exact ⟨address, by rw [hfound]; rfl, haddress⟩
    · -- The room is above the entry, and so above all that the hole before the entry holds.
      obtain ⟨found, hfound, hfits⟩ := fitBetween_ok start halign (le_of_lt entry.start_lt)
      rw [hfound]
      cases found with
      | some address =>
        obtain ⟨-, -, hlow⟩ := hfits address rfl
        exact ⟨address, rfl, by omega⟩
      | none =>
        exact ih hwf.tail habove fun x hx hmem => hfree x hx (mem_cons.mpr (Or.inr hmem))

/-- A search in a well-formed table finds an address at or below each room. -/
theorem WellFormed.exists_firstFit_le (hwf : claims.WellFormed) (hsize : wanted.size ≠ 0)
    (halign : wanted.alignment ≠ 0) (hroom : position ∈ wanted.rooms claims) :
    ∃ address, claims.firstFit wanted = .ok (some address) ∧ address.toNat ≤ position :=
  Wanted.exists_fitAround_le halign hsize hwf hroom (Nat.zero_le position)

/-- A search in a well-formed table finds an address exactly when it is the lowest room. -/
theorem WellFormed.firstFit_eq_some_iff (hwf : claims.WellFormed) (hsize : wanted.size ≠ 0)
    (halign : wanted.alignment ≠ 0) :
    claims.firstFit wanted = .ok (some address) ↔ IsLeast (wanted.rooms claims) address.toNat := by
  obtain ⟨found, hfound, hfits⟩ := hwf.firstFit_ok wanted halign
  rw [hfound]
  constructor
  · intro hsome
    obtain rfl := Except.ok.inj hsome
    refine ⟨(hfits address rfl).mem_rooms, fun position hroom => ?_⟩
    obtain ⟨lowest, hlowest, hle⟩ := hwf.exists_firstFit_le hsize halign hroom
    obtain rfl : address = lowest := by simpa [hfound] using hlowest
    exact hle
  · rintro ⟨hroom, hleast⟩
    obtain ⟨lowest, hlowest, hle⟩ := hwf.exists_firstFit_le hsize halign hroom
    obtain rfl : found = some lowest := by simpa [hfound] using hlowest
    have hge := hleast (hfits lowest rfl).mem_rooms
    rw [UInt64.toNat_inj.mp (Nat.le_antisymm hle hge)]

/-- A search in a well-formed table finds nothing exactly when there is no room. -/
theorem WellFormed.firstFit_eq_none_iff (hwf : claims.WellFormed) (hsize : wanted.size ≠ 0)
    (halign : wanted.alignment ≠ 0) :
    claims.firstFit wanted = .ok none ↔ wanted.rooms claims = ∅ := by
  obtain ⟨found, hfound, hfits⟩ := hwf.firstFit_ok wanted halign
  rw [hfound, Set.eq_empty_iff_forall_notMem]
  constructor
  · intro hnone position hroom
    obtain ⟨lowest, hlowest, -⟩ := hwf.exists_firstFit_le hsize halign hroom
    rw [hfound, hnone] at hlowest
    exact absurd hlowest (by simp)
  · intro hempty
    cases found with
    | none => rfl
    | some address => exact absurd (hfits address rfl).mem_rooms (hempty _)

/-- A search is exact. In every reachable arena, for every number of bytes and every alignment other
than zero, whether a power of two or not, and for every ceiling, the search finds an address exactly
when it is the lowest room: the least multiple of the alignment from which on the bytes end at or
below the ceiling and in the address space and none of them is claimed. It finds nothing exactly
when there is no such position. -/
theorem firstFit_exact {arena : Arena capacity} (hreachable : arena.Reachable)
    {size alignment : UInt64} (hsize : size ≠ 0) (halign : alignment ≠ 0) (ceiling : Nat) :
    (∀ address, arena.claims.firstFit ⟨size, alignment, ceiling⟩ = .ok (some address) ↔
      IsLeast (Wanted.rooms ⟨size, alignment, ceiling⟩ arena.claims) address.toNat) ∧
    (arena.claims.firstFit ⟨size, alignment, ceiling⟩ = .ok none ↔
      Wanted.rooms ⟨size, alignment, ceiling⟩ arena.claims = ∅) :=
  ⟨fun _ => hreachable.wellFormed.firstFit_eq_some_iff hsize halign,
    hreachable.wellFormed.firstFit_eq_none_iff hsize halign⟩

/-- Between claims of the bytes below 16 and from 48 to 64, a hole of 32 bytes has no room for 28
bytes at a multiple of seven: 21 is one byte too high. Above the claims there is room at 70, unless
the ceiling is below 98. -/
theorem rooms_sevenfold :
    let arena := (.empty .ofPlatform false : Arena 2).afterRun [.insert ⟨0, 16⟩, .insert ⟨48, 16⟩]
    IsLeast (Wanted.rooms ⟨28, 7, 98⟩ arena.claims) 70 ∧
      Wanted.rooms ⟨28, 7, 97⟩ arena.claims = ∅ := by
  intro arena
  have hreachable : arena.Reachable := (Arena.Reachable.start _ _).afterRun _
  have hfound : arena.claims.firstFit ⟨28, 7, 98⟩ = .ok (some 70) := by decide +kernel
  have hnone : arena.claims.firstFit ⟨28, 7, 97⟩ = .ok none := by decide +kernel
  exact ⟨((firstFit_exact hreachable (by decide) (by decide) 98).1 70).mp hfound,
    (firstFit_exact hreachable (by decide) (by decide) 97).2.mp hnone⟩

end PhysicalMemory.Claims
