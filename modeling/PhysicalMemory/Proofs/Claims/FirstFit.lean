import PhysicalMemory.Claims.FirstFit
import PhysicalMemory.Proofs.Bytes

/-!
# What a search finds is free

A search looks at the holes of a table one after another. Whatever it finds in a hole stays inside
the hole, so in a well-formed table none of it is claimed (`WellFormed.firstFit_ok`). The search
halts only for an alignment of zero.
-/

namespace PhysicalMemory.Claims

variable {capacity : Nat} {claims : Claims capacity} {wanted : Wanted} {start stop : Nat}

/-- Rounding up to a multiple of an alignment other than zero does not halt, and finds a multiple at
or above the address. -/
theorem roundUp_ok {alignment : UInt64} (h : alignment ≠ 0) (address : UInt64) :
    ∃ rounded, roundUp address alignment = .ok rounded ∧ ∀ multiple ∈ rounded,
      alignment.toNat ∣ multiple.toNat ∧ address.toNat ≤ multiple.toNat := by
  have hpos : 0 < alignment.toNat := by
    have : alignment.toNat ≠ 0 := fun hzero => h (UInt64.toNat_inj.mp hzero)
    omega
  refine ⟨_, by rw [roundUp, if_neg h], fun multiple hmultiple => ?_⟩
  rw [Option.mem_def, Option.ite_none_right_eq_some] at hmultiple
  obtain ⟨hlt, hmultiple⟩ := hmultiple
  have hnat : multiple.toNat = ceilingTo alignment.toNat address.toNat := by
    rw [← Option.some.inj hmultiple]
    exact UInt64.toNat_ofNat_of_lt' hlt
  rw [hnat]
  exact ⟨dvd_ceilingTo _ _, le_ceilingTo hpos _⟩

/-- What a search finds at an address: it is aligned, ends at or below the ceiling and inside the
address space, and none of its bytes is in an entry. -/
structure Wanted.Fits (wanted : Wanted) (entries : List Extent) (address : UInt64) : Prop where
  /-- The address is a multiple of the alignment. -/
  aligned : wanted.alignment.toNat ∣ address.toNat
  /-- The bytes end at or below the ceiling. -/
  below : address.toNat + wanted.size.toNat ≤ wanted.ceiling
  /-- The bytes lie in the address space. -/
  inside : address.toNat + wanted.size.toNat ≤ addressSpace
  /-- No entry holds one of the bytes. -/
  free : ∀ x ∈ Set.Ico address.toNat (address.toNat + wanted.size.toNat),
    ∀ entry ∈ entries, x ∉ entry

/-- A search in a hole does not halt, and what it finds there lies in the hole. -/
theorem Wanted.fitBetween_ok (start : Nat) (h : wanted.alignment ≠ 0)
    (hstop : stop ≤ addressSpace) :
    ∃ found, wanted.fitBetween start stop = .ok found ∧ ∀ address ∈ found,
      wanted.alignment.toNat ∣ address.toNat ∧ start ≤ address.toNat ∧
        address.toNat + wanted.size.toNat ≤ min stop wanted.ceiling := by
  by_cases hlt : start < stop
  · obtain ⟨rounded, hrounded, hmultiple⟩ := roundUp_ok h (UInt64.ofNat start)
    have hstart : (UInt64.ofNat start).toNat = start :=
      UInt64.toNat_ofNat_of_lt' (show start < addressSpace by omega)
    refine ⟨_, by rw [fitBetween, if_pos hlt, hrounded]; rfl, fun address haddress => ?_⟩
    rw [Option.mem_def, Option.filter_eq_some_iff, decide_eq_true_eq] at haddress
    obtain ⟨hdvd, hle⟩ := hmultiple address haddress.1
    exact ⟨hdvd, by omega, haddress.2⟩
  · exact ⟨none, by rw [fitBetween, if_neg hlt]; rfl, by simp⟩

/-- A search in the holes around ascending entries does not halt, and what it finds fits. -/
theorem Wanted.fitAround_ok {entries : List Extent} (h : wanted.alignment ≠ 0)
    (hstart : ∀ entry ∈ entries, start ≤ entry.start)
    (hapart : entries.Pairwise fun earlier later => earlier.stop < later.start) :
    ∃ found, wanted.fitAround start entries = .ok found ∧ ∀ address ∈ found,
      start ≤ address.toNat ∧ wanted.Fits entries address := by
  induction entries generalizing start with
  | nil =>
    obtain ⟨found, hfound, hfits⟩ := fitBetween_ok start h (le_refl addressSpace)
    refine ⟨found, hfound, fun address haddress => ?_⟩
    obtain ⟨hdvd, hle, hend⟩ := hfits address haddress
    exact ⟨hle, hdvd, by omega, by omega, by simp⟩
  | cons entry rest ih =>
    obtain ⟨hbelow, hrest⟩ := List.pairwise_cons.mp hapart
    have hentry := hstart entry List.mem_cons_self
    have hle := entry.start_le_stop
    have hlt := entry.start_lt
    by_cases hceiling : wanted.ceiling ≤ start
    · -- The search ends at the ceiling.
      exact ⟨none, by rw [fitAround, if_pos hceiling]; rfl, by simp⟩
    obtain ⟨found, hfound, hfits⟩ := fitBetween_ok start h (le_of_lt hlt)
    rw [fitAround, if_neg hceiling, hfound]
    cases found with
    | some address =>
      refine ⟨some address, rfl, fun found hsome => ?_⟩
      obtain rfl := Option.mem_some.mp hsome
      obtain ⟨hdvd, hstart', hend⟩ := hfits address rfl
      refine ⟨hstart', hdvd, by omega, by omega, fun x hx e he => ?_⟩
      -- The hole ends at the first entry, and all others are above it.
      have : entry.start ≤ e.start := by
        rcases List.mem_cons.mp he with rfl | he
        · exact le_refl _
        · have := hbelow e he
          omega
      rw [Set.mem_Ico] at hx
      rw [Extent.mem_def]
      omega
    | none =>
      -- The hole has no room, so what is found lies above the first entry.
      obtain ⟨found, hfound, hfits⟩ := ih (fun e he => le_of_lt (hbelow e he)) hrest
      refine ⟨found, hfound, fun address haddress => ?_⟩
      obtain ⟨hstop, hfit⟩ := hfits address haddress
      refine ⟨by omega, hfit.aligned, hfit.below, hfit.inside, fun x hx e he => ?_⟩
      rcases List.mem_cons.mp he with rfl | he
      · rw [Set.mem_Ico] at hx
        rw [Extent.mem_def]
        omega
      · exact hfit.free x hx e he

/-- A search in a well-formed table does not halt, and what it finds fits. -/
theorem WellFormed.firstFit_ok (hwf : claims.WellFormed) (wanted : Wanted)
    (h : wanted.alignment ≠ 0) :
    ∃ found, claims.firstFit wanted = .ok found ∧
      ∀ address ∈ found, wanted.Fits claims.entries address := by
  obtain ⟨found, hfound, hfits⟩ :=
    Wanted.fitAround_ok h (fun entry _ => Nat.zero_le entry.start) hwf.apart
  exact ⟨found, hfound, fun address haddress => (hfits address haddress).2⟩

end PhysicalMemory.Claims
