import Mathlib.Algebra.Order.Field.Rat
import Mathlib.Order.Bounds.Basic
import Mathlib.Tactic.Ring
import PhysicalMemory.Proofs.Checked.Texts

/-!
# Reading sizes

The number in the text of a size can be read as any decimal number can be, with or without places
behind a point. It is never more than the size is in its unit, and less than one hundredth below it;
it has no digit too many; and the unit is the largest that does not exceed the size (`size_exact`).
What decides all of it are the whole units and the hundredths (`hundredths_bounds`): the digits of the
places are those of the hundredths, less a zero at the end (`toList_places`).
-/

namespace PhysicalMemory.Text

open Numeral

/-- The number that a decimal numeral stands for: digits and, if there is a point, more digits behind
it. -/
def readDecimal? (text : List Char) : Option ℚ :=
  match text.dropWhile (· ≠ '.') with
  | [] => (read? 10 text).map fun whole => (whole : ℚ)
  | _ :: places => do
    let whole ← read? 10 (text.takeWhile (· ≠ '.'))
    let part ← read? 10 places
    return whole + part / 10 ^ places.length

/-- A decimal numeral as it should be: with two places at most, and none of its digits can be left
out. -/
structure Concise (text : List Char) : Prop where
  /-- Before the point, a zero in front is the only digit. -/
  eq_of_leadingZero : text.head? = some '0' → text.takeWhile (· ≠ '.') = ['0']
  /-- Behind the point there are two places at most. -/
  length_le : (text.dropWhile (· ≠ '.')).length ≤ 3
  /-- The last of the places is no zero. -/
  getLast?_ne_zero : '.' ∈ text → text.getLast? ≠ some '0'

/-- The digits of the places for some hundredths, less a zero at the end. -/
def placeDigits (hundredths : Nat) : List Nat :=
  if hundredths % 10 = 0 then [hundredths / 10] else [hundredths / 10, hundredths % 10]

/-- The places of a size are written as its hundredths are, behind a point, and not at all if there
are none. -/
theorem toList_places {s : Scaled} (h : s.hundredths < 100) : s.places.toList =
    if s.hundredths = 0 then []
    else '.' :: (placeDigits s.hundredths).map (digitChar .lower) := by
  unfold Scaled.places placeDigits
  by_cases hzero : s.hundredths = 0
  · simp [hzero]
  · rw [if_neg hzero, if_neg hzero]
    have hfirst : chars 10 .lower (s.hundredths / 10) = [digitChar .lower (s.hundredths / 10)] :=
      chars_of_lt .lower (by omega)
    by_cases htens : s.hundredths % 10 = 0
    · rw [if_pos htens, if_pos htens, String.toList_append, toList_decimal, hfirst]
      rfl
    · rw [if_neg htens, if_neg htens]
      by_cases hsmall : s.hundredths < 10
      · rw [if_pos hsmall, String.toList_append, toList_decimal, chars_of_lt .lower hsmall,
          Nat.div_eq_of_lt hsmall, Nat.mod_eq_of_lt hsmall]
        rfl
      · have hboth : chars 10 .lower s.hundredths =
            chars 10 .lower (s.hundredths / 10) ++ [digitChar .lower (s.hundredths % 10)] := by
          rw [chars, digits, dif_pos (by omega), List.map_append]
          rfl
        rw [if_neg hsmall, String.toList_append, toList_decimal, hboth, hfirst]
        rfl

/-- There is no point among the characters of a number. -/
theorem point_notMem_chars (n : Nat) : '.' ∉ chars 10 .lower n := by
  have hall : ∀ d ∈ List.range 10, digitChar .lower d ≠ '.' := by decide
  intro hmem
  obtain ⟨d, hd, hpoint⟩ := List.mem_map.mp hmem
  exact hall d (List.mem_range.mpr (digits_lt (by decide) n d hd)) hpoint

/-- The number in the text of a scaled size. -/
def Scaled.number (s : Scaled) : List Char := (decimal s.whole).toList ++ s.places.toList

/-- Before the point stand the whole units, and behind it the places. -/
theorem span_number {s : Scaled} (h : s.hundredths < 100) :
    s.number.takeWhile (· ≠ '.') = chars 10 .lower s.whole ∧
      s.number.dropWhile (· ≠ '.') = s.places.toList := by
  have hwhole : ∀ c ∈ chars 10 .lower s.whole, decide (c ≠ '.') = true := fun c hc =>
    decide_eq_true fun heq => point_notMem_chars s.whole (heq ▸ hc)
  have hplaces : s.places.toList = [] ∨ ∃ ds, s.places.toList = '.' :: ds := by
    rw [toList_places h]
    split
    · exact Or.inl rfl
    · exact Or.inr ⟨_, rfl⟩
  rw [Scaled.number, toList_decimal, List.takeWhile_append_of_pos hwhole,
    List.dropWhile_append_of_pos hwhole]
  rcases hplaces with hnil | ⟨ds, hcons⟩
  · rw [hnil]
    simp
  · rw [hcons]
    simp

/-- The digits of the places stand for the hundredths. -/
theorem ofDigits_placeDigits (hundredths : Nat) :
    ofDigits 10 (placeDigits hundredths) * 100 =
      hundredths * 10 ^ (placeDigits hundredths).length := by
  unfold placeDigits
  split
  · simp only [ofDigits, List.foldl_cons, List.foldl_nil, List.length_singleton]
    omega
  · simp only [ofDigits, List.foldl_cons, List.foldl_nil, List.length_cons, List.length_nil]
    omega

/-- There are places for any hundredths. -/
theorem placeDigits_ne_nil (hundredths : Nat) : placeDigits hundredths ≠ [] := by
  unfold placeDigits
  split <;> exact List.cons_ne_nil _ _

/-- The digits of the places are digits. -/
theorem placeDigits_lt {hundredths : Nat} (h : hundredths < 100) :
    ∀ d ∈ placeDigits hundredths, d < 10 := by
  unfold placeDigits
  split <;> simp only [List.mem_cons, List.not_mem_nil, or_false, forall_eq_or_imp, forall_eq] <;>
    omega

/-- The number of a scaled size is read as its hundredths all together, over one hundred. -/
theorem readDecimal?_number {s : Scaled} (h : s.hundredths < 100) :
    readDecimal? s.number = some (((s.whole * 100 + s.hundredths : ℕ) : ℚ) / 100) := by
  obtain ⟨htake, hdrop⟩ := span_number h
  have hwhole := read?_chars .lower (by decide : 2 ≤ 10) (by decide) s.whole
  rw [readDecimal?, hdrop, htake, toList_places h, hwhole]
  by_cases hzero : s.hundredths = 0
  · have hnumber : s.number = chars 10 .lower s.whole := by
      rw [Scaled.number, toList_decimal, toList_places h, if_pos hzero, List.append_nil]
    rw [if_pos hzero, hnumber, hwhole, hzero]
    simp
  · have hpart := read?_map .lower (by decide : 10 ≤ 16) (placeDigits_ne_nil s.hundredths)
      (placeDigits_lt h)
    have hvalue : ((ofDigits 10 (placeDigits s.hundredths) * 100 : ℕ) : ℚ) =
        ((s.hundredths * 10 ^ (placeDigits s.hundredths).length : ℕ) : ℚ) :=
      congrArg Nat.cast (ofDigits_placeDigits s.hundredths)
    have hpow : (10 : ℚ) ^ (placeDigits s.hundredths).length ≠ 0 := pow_ne_zero _ (by norm_num)
    rw [if_neg hzero]
    simp only [hpart, Option.bind_eq_bind, Option.bind_some, Option.pure_def, List.length_map]
    push_cast at hvalue ⊢
    rw [Option.some.injEq, eq_div_iff (by norm_num), add_mul, div_mul_eq_mul_div, hvalue,
      mul_div_cancel_right₀ _ hpow]

/-- A number has a point exactly when there are hundredths. -/
theorem point_mem_number_iff {s : Scaled} (h : s.hundredths < 100) :
    '.' ∈ s.number ↔ s.hundredths ≠ 0 := by
  have hwhole := point_notMem_chars s.whole
  rw [Scaled.number, toList_decimal, toList_places h, List.mem_append]
  by_cases hzero : s.hundredths = 0
  · simp [hzero, hwhole]
  · simp [hzero]

/-- The last of the places is no zero, unless there are no hundredths. -/
theorem getLast?_placeDigits {hundredths : Nat} (h : hundredths ≠ 0) :
    (placeDigits hundredths).getLast? ≠ some 0 := by
  unfold placeDigits
  split
  · simp only [List.getLast?_singleton, ne_eq, Option.some.injEq]
    omega
  · simpa using ‹_›

/-- The last character of a number with a point is no zero. -/
theorem getLast?_number {s : Scaled} (h : s.hundredths < 100) (hpoint : '.' ∈ s.number) :
    s.number.getLast? ≠ some '0' := by
  intro hlast
  have hsome := (point_mem_number_iff h).mp hpoint
  have hne := mt List.getLast?_eq_none_iff.mp (placeDigits_ne_nil s.hundredths)
  obtain ⟨d, hd⟩ := Option.ne_none_iff_exists'.mp hne
  rw [Scaled.number, toList_places h, if_neg hsome, List.getLast?_append, List.getLast?_cons,
    List.getLast?_map, hd] at hlast
  have hlt := placeDigits_lt h d (List.mem_of_getLast? hd)
  have hchar : digitChar .lower d = '0' := by simpa using hlast
  have hzero : d = 0 := eq_zero_of_digitChar (by omega) hchar
  exact getLast?_placeDigits hsome (hzero ▸ hd)

/-- The number of a scaled size is as it should be. -/
theorem concise_number {s : Scaled} (h : s.hundredths < 100) : Concise s.number := by
  obtain ⟨htake, hdrop⟩ := span_number h
  refine ⟨fun hzero => ?_, ?_, getLast?_number h⟩
  · rw [Scaled.number, toList_decimal,
      List.head?_append_of_ne_nil _ (by simp [chars, digits_ne_nil])] at hzero
    rw [htake, eq_zero_of_head?_chars (by decide) (by decide) hzero]
    exact chars_of_lt .lower (by decide)
  · rw [hdrop, toList_places h]
    unfold placeDigits
    split
    · exact Nat.zero_le _
    · split <;> simp

/-- There are fewer than one hundred hundredths beyond the whole units. -/
theorem hundredths_lt (bytes : Nat) : (scale bytes).hundredths < 100 := by
  have hpos := unitBytes_pos (unitExponent bytes largestUnit)
  refine Nat.div_lt_of_lt_mul ?_
  have := Nat.mod_lt bytes hpos
  omega

/-- The hundredths all together are the most that a number of bytes has in its unit. -/
theorem hundredths_bounds (bytes : Nat) :
    ((scale bytes).whole * 100 + (scale bytes).hundredths) * unitBytes (scale bytes).exponent ≤
        bytes * 100 ∧
      bytes * 100 < ((scale bytes).whole * 100 + (scale bytes).hundredths + 1) *
        unitBytes (scale bytes).exponent := by
  have hpos := unitBytes_pos (unitExponent bytes largestUnit)
  simp only [scale]
  generalize unitBytes (unitExponent bytes largestUnit) = unit at hpos ⊢
  have hwhole := Nat.div_add_mod bytes unit
  have hrest := Nat.div_add_mod (bytes % unit * 100) unit
  have hlt := Nat.mod_lt (bytes % unit * 100) hpos
  generalize bytes / unit = whole at hwhole ⊢
  generalize bytes % unit * 100 / unit = hundredths at hrest ⊢
  constructor
  · calc (whole * 100 + hundredths) * unit = unit * whole * 100 + unit * hundredths := by ring
      _ ≤ unit * whole * 100 + bytes % unit * 100 := by omega
      _ = bytes * 100 := by omega
  · calc bytes * 100 = unit * whole * 100 + bytes % unit * 100 := by omega
      _ < unit * whole * 100 + (unit * hundredths + unit) := by omega
      _ = (whole * 100 + hundredths + 1) * unit := by ring

/-- The names of the units, in ascending order. -/
theorem getElem?_unitNames {exponent : Nat} (h : exponent ≤ 6) :
    ["B", "KiB", "MiB", "GiB", "TiB", "PiB", "EiB"][exponent]? = some (unitName exponent) := by
  have hall : ∀ u ∈ List.range 7,
      ["B", "KiB", "MiB", "GiB", "TiB", "PiB", "EiB"][u]? = some (unitName u) := by decide
  exact hall exponent (List.mem_range.mpr (Nat.lt_succ_of_le h))

/-- The text of a size is a number and the name of a unit. Of the seven units the largest is taken
that does not exceed the size, and the number is the greatest multiple of one hundredth that the size
reaches in it. It is written with two places at most, with no zero at the end of them, and without a
point when there is nothing to write behind it. A machine writes the same text. -/
theorem size_exact (bytes : UInt64) :
    Checked.size bytes = .ok (size bytes.toNat) ∧
      ∃ (number : List Char) (value : ℚ) (exponent : ℕ) (unit : String),
        (size bytes.toNat).toList = number ++ unit.toList ∧
        ["B", "KiB", "MiB", "GiB", "TiB", "PiB", "EiB"][exponent]? = some unit ∧
        IsGreatest {u | u ≤ 6 ∧ (u = 0 ∨ 1024 ^ u ≤ bytes.toNat)} exponent ∧
        readDecimal? number = some value ∧
        value * 1024 ^ exponent ≤ bytes.toNat ∧
        (bytes.toNat : ℚ) < (value + 1 / 100) * 1024 ^ exponent ∧
        (∃ hundredths : ℕ, value * 100 = hundredths) ∧
        Concise number ∧
        ('.' ∉ number ↔ bytes.toNat % 1024 ^ exponent * 100 < 1024 ^ exponent) := by
  have hunit : ∀ u, unitBytes u = 1024 ^ u := fun u => by
    rw [Checked.unitBytes_eq, Nat.pow_mul]
  have hlt := hundredths_lt bytes.toNat
  obtain ⟨hlow, hhigh⟩ := hundredths_bounds bytes.toNat
  have hpoint : (scale bytes.toNat).hundredths = 0 ↔
      bytes.toNat % unitBytes (scale bytes.toNat).exponent * 100 <
        unitBytes (scale bytes.toNat).exponent :=
    Nat.div_eq_zero_iff_lt (unitBytes_pos _)
  rw [hunit] at hlow hhigh hpoint
  refine ⟨Checked.size_eq bytes, (scale bytes.toNat).number, _, (scale bytes.toNat).exponent,
    unitName (scale bytes.toNat).exponent, ?_, getElem?_unitNames (unitExponent_le _ _), ?_,
    readDecimal?_number hlt, ?_, ?_, ⟨_, div_mul_cancel₀ _ (by norm_num)⟩, concise_number hlt, ?_⟩
  · rw [size, Scaled.text, String.toList_append, String.toList_append]
    rfl
  · refine ⟨⟨unitExponent_le _ _, ?_⟩, fun u ⟨hu, hreached⟩ => ?_⟩
    · rw [← hunit]
      exact unitExponent_reached _ _
    · rcases hreached with rfl | hreached
      · exact Nat.zero_le _
      · rw [← hunit] at hreached
        exact le_unitExponent hu hreached
  · rw [div_mul_eq_mul_div, div_le_iff₀ (by norm_num)]
    exact_mod_cast hlow
  · rw [← add_div, div_mul_eq_mul_div, lt_div_iff₀ (by norm_num)]
    exact_mod_cast hhigh
  · rw [point_mem_number_iff hlt, not_not, hpoint]

/-- Five hundredths are written as such, and fifty as five tenths. -/
example : size 1076 = "1.05KiB" ∧ size 1536 = "1.5KiB" := by decide +kernel

end PhysicalMemory.Text
