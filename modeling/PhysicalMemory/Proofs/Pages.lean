import Mathlib.Order.Interval.Set.Nat
import PhysicalMemory.Arena.Reserve
import PhysicalMemory.Proofs.Bytes

/-!
# Widening to whole pages

A page is all positions with the same quotient by the page size. The pages around some bytes are the
pages that hold one of them. For an extent with bytes they run from the floor of its start to the
ceiling of its stop (`around_Ico`); because a page size divides the size of the address space, they
do not leave it, and they are what a reservation claims (`widen?_eq_some`).
-/

namespace PhysicalMemory.PageSize

variable {page : PageSize} {bytes : Set Nat} {x y : Nat}

/-- The number of the page that holds a position. -/
def index (page : PageSize) (x : Nat) : Nat := x / page.bytes.toNat

/-- The positions in all pages that hold one of some bytes. -/
def around (page : PageSize) (bytes : Set Nat) : Set Nat :=
  {x | ∃ y ∈ bytes, page.index x = page.index y}

/-- Bytes lie in the pages around them. -/
theorem subset_around (page : PageSize) (bytes : Set Nat) : bytes ⊆ page.around bytes :=
  fun x hx => ⟨x, hx, rfl⟩

/-- More bytes have more pages around them. -/
theorem around_mono {fewer more : Set Nat} (h : fewer ⊆ more) :
    page.around fewer ⊆ page.around more :=
  fun _ ⟨y, hy, hpage⟩ => ⟨y, h hy, hpage⟩

/-- No page is around no bytes. -/
@[simp]
theorem around_empty (page : PageSize) : page.around ∅ = ∅ := by
  simp [around]

/-- The pages around the bytes of two sets are the pages around either. -/
theorem around_union (page : PageSize) (a b : Set Nat) :
    page.around (a ∪ b) = page.around a ∪ page.around b := by
  ext x
  simp only [around, Set.mem_ofPred_eq, Set.mem_union, or_and_right, exists_or]

/-- A page size divides the size of the address space: both are powers of two. -/
theorem dvd_addressSpace (page : PageSize) : page.bytes.toNat ∣ addressSpace := by
  obtain ⟨exponent, h⟩ := page.isPowerOfTwo
  -- A page size is a 64-bit word, so its exponent is below that of the address space.
  have htop : addressSpace = 2 ^ 64 := rfl
  have hlt := toNat_lt_addressSpace page.bytes
  rw [h, htop] at hlt ⊢
  exact Nat.pow_dvd_pow 2 (le_of_lt ((Nat.pow_lt_pow_iff_right (by omega)).mp hlt))

/-- A page lies in the address space as a whole or not at all. -/
theorem lt_addressSpace_of_index_eq (page : PageSize) (h : page.index x = page.index y)
    (hlt : x < addressSpace) : y < addressSpace := by
  have hpos := page.bytes_pos
  obtain ⟨pages, hpages⟩ := page.dvd_addressSpace
  rw [Nat.mul_comm] at hpages
  unfold index at h
  -- Positions in the address space are those whose page is one of the first `pages`.
  rw [hpages, ← Nat.div_lt_iff_lt_mul hpos] at hlt ⊢
  omega

/-- The pages around the positions from a start to a stop above it run from the floor of the start
to the ceiling of the stop. -/
theorem around_Ico (page : PageSize) {start stop : Nat} (hlt : start < stop) :
    page.around (Set.Ico start stop) =
      Set.Ico (floorTo page.bytes.toNat start) (ceilingTo page.bytes.toNat stop) := by
  have hpos := page.bytes_pos
  ext x
  simp only [around, index, Set.mem_ofPred_eq, Set.mem_Ico]
  generalize page.bytes.toNat = size at *
  have hfloor := floorTo_le size start
  have hstep := lt_floorTo_add hpos start
  obtain ⟨last, hlast⟩ := dvd_ceilingTo size stop
  rw [Nat.mul_comm] at hlast
  have hceiling := le_ceilingTo hpos stop
  have hxdiv := Nat.div_mul_le_self x size
  constructor
  · rintro ⟨y, ⟨hstart, hstop⟩, hpage⟩
    -- The page of `x` holds a byte, so it is neither below the first page nor above the last.
    constructor
    · calc
        floorTo size start ≤ y / size * size :=
          Nat.mul_le_mul_right size (Nat.div_le_div_right hstart)
        _ = x / size * size := by rw [hpage]
        _ ≤ x := hxdiv
    · rw [hlast, ← Nat.div_lt_iff_lt_mul hpos, hpage, Nat.div_lt_iff_lt_mul hpos, ← hlast]
      omega
  · rintro ⟨hstart, hstop⟩
    -- The page of `x` holds the start, or it begins between the start and the stop.
    by_cases hpage : x / size = start / size
    · exact ⟨start, ⟨le_refl _, hlt⟩, hpage⟩
    · refine ⟨x / size * size, ⟨?_, ?_⟩, by rw [Nat.mul_div_cancel _ hpos]⟩
      · have hle : start / size ≤ x / size := by
          rw [Nat.le_div_iff_mul_le hpos]
          exact hstart
        have hnext : (start / size + 1) * size ≤ x / size * size :=
          Nat.mul_le_mul_right size (by omega)
        unfold floorTo at hstep
        rw [Nat.add_mul] at hnext
        omega
      · by_contra hge
        have := ceilingTo_le_of_dvd hpos (Nat.dvd_mul_left size (x / size)) (Nat.not_lt.mp hge)
        omega

/-- The pages around an extent run from the first of them to the last. -/
theorem widen?_start_stop {extent pages : Extent} (h : page.widen? extent = some pages) :
    pages.start = page.firstOf extent ∧ pages.stop = page.lastOf extent := by
  have hfloor := floorTo_le page.bytes.toNat extent.start
  have hceiling := le_ceilingTo page.bytes_pos extent.stop
  have hstart := extent.start_lt
  have hle := extent.start_le_stop
  unfold widen? firstOf lastOf at *
  split at h
  · rename_i hlt
    rw [← Option.some.inj h]
    exact Extent.between_start_stop (lt_of_le_of_lt hfloor hstart) (by omega) hlt
  · exact absurd h (by simp)

/-- The pages around an extent with bytes inside the address space are an extent inside the address
space. -/
theorem widen?_eq_some {extent pages : Extent} (hne : extent.start < extent.stop)
    (hinside : extent.stop ≤ addressSpace) (h : page.widen? extent = some pages) :
    pages.start < pages.stop ∧ pages.stop ≤ addressSpace ∧
      Set.Ico pages.start pages.stop = page.around (Set.Ico extent.start extent.stop) := by
  have hfloor := floorTo_le page.bytes.toNat extent.start
  have hceiling := le_ceilingTo page.bytes_pos extent.stop
  have htop := ceilingTo_le_of_dvd page.bytes_pos page.dvd_addressSpace hinside
  obtain ⟨hfirst, hlast⟩ := widen?_start_stop h
  unfold firstOf at hfirst
  unfold lastOf at hlast
  rw [hfirst, hlast, page.around_Ico hne]
  exact ⟨by omega, htop, rfl⟩

end PhysicalMemory.PageSize
