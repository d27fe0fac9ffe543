import Mathlib.Algebra.Order.Ring.Nat
import Mathlib.Data.List.Basic
import PhysicalMemory.Text.Address

/-!
# Reading addresses

An address is a numeral with underscores between its digits. The underscores stand where they should
(`getElem?_grouped`, by position), and without them the digits are those of the numeral
(`filter_grouped`), so the text of an address can be read back (`readAddress?_address`).
-/

namespace PhysicalMemory

namespace Numeral

variable {base n : Nat}

/-- No number but zero has a zero in front. -/
theorem head?_digits_ne_zero (h : n ≠ 0) : (digits base n).head? ≠ some 0 := by
  fun_induction digits base n with
  | case1 n hbase ih =>
    have hquotient : n / base ≠ 0 := Nat.div_ne_zero_iff.mpr ⟨by omega, hbase.2⟩
    rw [List.head?_append_of_ne_nil _ (digits_ne_nil base _)]
    exact ih hquotient
  | case2 n hbase => simpa using h

/-- Each digit of a number is a remainder of a quotient. -/
theorem reverse_digits (hbase : 2 ≤ base) (n : Nat) : (digits base n).reverse =
    (List.range (digits base n).length).map fun position => n / base ^ position % base := by
  fun_induction digits base n with
  | case1 n h ih =>
    rw [List.reverse_append, ih, List.length_append, List.length_singleton, List.range_succ_eq_map]
    simp [Nat.div_div_eq_div_mul, Nat.pow_succ']
  | case2 n h =>
    have hlt : n < base := by omega
    simp [Nat.mod_eq_of_lt hlt]

/-- The hexadecimal digits of a number take four bits each. -/
theorem length_digits_sixteen (n : Nat) : (digits 16 n).length = n.log2 / 4 + 1 := by
  fun_induction digits 16 n with
  | case1 n h ih =>
    have hlog : n.log2 = (n / 16).log2 + 4 := by
      rw [Nat.log2_def, Nat.log2_def (n / 2), Nat.log2_def (n / 2 / 2), Nat.log2_def (n / 2 / 2 / 2)]
      simp only [Nat.div_div_eq_div_mul, Nat.reduceMul]
      rw [if_pos (by omega), if_pos (by omega), if_pos (by omega), if_pos (by omega)]
    rw [List.length_append, List.length_singleton, ih, hlog]
    omega
  | case2 n h =>
    have hlog : n.log2 < 4 := by
      rcases Nat.eq_zero_or_pos n with rfl | hpos
      · decide
      · exact (Nat.log2_lt (Nat.ne_of_gt hpos)).mpr (by omega)
    rw [List.length_singleton]
    omega

/-- The character zero is that of the digit zero. -/
theorem eq_zero_of_digitChar {letters : Letters} {d : Nat} (hd : d < 16)
    (h : digitChar letters d = '0') : d = 0 := by
  have hdigit := digitOfChar?_digitChar letters hd
  rw [h] at hdigit
  exact (Option.some.inj hdigit).symm

/-- A numeral with a zero in front is that of zero. -/
theorem eq_zero_of_head?_chars {letters : Letters} (h2 : 2 ≤ base) (h16 : base ≤ 16)
    (h : (chars base letters n).head? = some '0') : n = 0 := by
  rw [chars, List.head?_map, Option.map_eq_some_iff] at h
  obtain ⟨d, hd, hchar⟩ := h
  have hlt := digits_lt h2 n d (List.mem_of_mem_head? hd)
  obtain rfl := eq_zero_of_digitChar (by omega) hchar
  by_contra hne
  exact head?_digits_ne_zero hne hd

end Numeral

namespace Text

open Numeral

variable {ds : List Char}

/-- Among digits, most of them in groups of four already, one more digit comes behind an underscore
exactly when no group is left open. -/
theorem grouped_concat (ds : List Char) (d : Char) :
    grouped (ds ++ [d]) =
      grouped ds ++ if ds ≠ [] ∧ ds.length % 4 = 0 then ['_', d] else [d] := by
  fun_induction grouped ds with
  | case1 a b c d' e rest ih =>
    have hlength : (a :: b :: c :: d' :: e :: rest).length % 4 = (e :: rest).length % 4 := by
      simp only [List.length_cons]
      omega
    rw [hlength]
    simpa [grouped] using ih
  | case2 few h =>
    match few with
    | [] | [_] | [_, _] | [_, _, _] | [_, _, _, _] => simp [grouped]
    | a :: b :: c :: d :: e :: rest => exact absurd rfl (h a b c d e rest)

/-- Without the underscores, grouped digits are the digits. -/
theorem filter_grouped (h : '_' ∉ ds) : (grouped ds).filter (· ≠ '_') = ds := by
  fun_induction grouped ds with
  | case1 a b c d e rest ih =>
    simp only [List.mem_cons, not_or] at h
    obtain ⟨ha, hb, hc, hd, hrest⟩ := h
    have hrest := ih (by simpa using hrest)
    simpa [Ne.symm ha, Ne.symm hb, Ne.symm hc, Ne.symm hd] using hrest
  | case2 few _ =>
    refine List.filter_eq_self.mpr fun c hc => decide_eq_true ?_
    rintro rfl
    exact h hc

/-- The last of grouped digits is the last of the digits. -/
theorem getLast?_grouped (ds : List Char) : (grouped ds).getLast? = ds.getLast? := by
  rcases List.eq_nil_or_concat ds with rfl | ⟨front, d, rfl⟩
  · rfl
  · rw [List.concat_eq_append, grouped_concat]
    split <;> simp

/-- From the first on, every fifth of grouped digits is an underscore, and none of the others is. -/
theorem getElem?_grouped (h : '_' ∉ ds) {i : Nat} {c : Char} (hc : (grouped ds)[i]? = some c) :
    c = '_' ↔ i % 5 = 4 := by
  fun_induction grouped ds generalizing i with
  | case1 a b c' d e rest ih =>
    simp only [List.mem_cons, not_or] at h
    obtain ⟨ha, hb, hc', hd, hrest⟩ := h
    match i with
    | 0 | 1 | 2 | 3 | 4 =>
      obtain rfl := Option.some.inj hc
      simp [Ne.symm ha, Ne.symm hb, Ne.symm hc', Ne.symm hd]
    | i + 5 =>
      have hshift : (i + 5) % 5 = 4 ↔ i % 5 = 4 := by omega
      rw [hshift]
      exact ih (by simpa using hrest) hc
  | case2 few hfew =>
    have hlength : few.length ≤ 4 := by
      match few with
      | [] | [_] | [_, _] | [_, _, _] | [_, _, _, _] => simp
      | a :: b :: c :: d :: e :: rest => exact absurd rfl (hfew a b c d e rest)
    obtain ⟨hi, rfl⟩ := List.getElem?_eq_some_iff.mp hc
    have hdigit : few[i] ≠ '_' := fun heq => h (heq ▸ List.getElem_mem hi)
    simp only [hdigit, false_iff]
    omega

/-- The hexadecimal digits with capital letters. -/
def capitals : List Char :=
  ['0', '1', '2', '3', '4', '5', '6', '7', '8', '9', 'A', 'B', 'C', 'D', 'E', 'F']

/-- The characters of a number in hexadecimal with capital letters are such digits. -/
theorem mem_capitals_of_mem_chars {n : Nat} {c : Char} (hc : c ∈ chars 16 .upper n) :
    c ∈ capitals := by
  have hall : ∀ d ∈ List.range 16, digitChar .upper d ∈ capitals := by decide
  obtain ⟨d, hd, rfl⟩ := List.mem_map.mp hc
  exact hall d (List.mem_range.mpr (digits_lt (by decide) n d hd))

/-- There is no underscore in a number. -/
theorem underscore_notMem_chars (n : Nat) : '_' ∉ chars 16 .upper n := fun hmem =>
  absurd (mem_capitals_of_mem_chars hmem) (by decide)

/-- Without the underscores, the digits of an address are those of its number. -/
theorem filter_addressDigits (a : UInt64) :
    (addressDigits a).filter (· ≠ '_') = chars 16 .upper a.toNat := by
  have hnone : '_' ∉ (chars 16 .upper a.toNat).reverse := by
    simpa using underscore_notMem_chars a.toNat
  have hgroups := filter_grouped hnone
  rw [addressDigits, List.filter_reverse, hgroups, List.reverse_reverse]

/-- The first of the digits of an address is the first of its number. -/
theorem head?_addressDigits (a : UInt64) :
    (addressDigits a).head? = (chars 16 .upper a.toNat).head? := by
  rw [addressDigits, List.head?_reverse, getLast?_grouped, List.getLast?_reverse]

/-- Digits of an address as they should be: in groups of four, and none too many. -/
structure WellGrouped (text : List Char) : Prop where
  /-- A zero in front is the only digit. -/
  eq_of_leadingZero : text.head? = some '0' → text = ['0']
  /-- Digits stand before every underscore. -/
  head?_ne_underscore : text.head? ≠ some '_'
  /-- From the right, every fifth character is an underscore, and none of the others is. -/
  underscore_iff : ∀ (i : Nat) (c : Char), text.reverse[i]? = some c → (c = '_' ↔ i % 5 = 4)
  /-- Letters are capital. -/
  mem_capitals : ∀ c ∈ text, c ≠ '_' → c ∈ capitals

/-- The digits of an address are as they should be. -/
theorem wellGrouped_addressDigits (a : UInt64) : WellGrouped (addressDigits a) := by
  refine ⟨fun hzero => ?_, fun hunderscore => ?_, fun i c hc => ?_, fun c hc hne => ?_⟩
  · rw [head?_addressDigits] at hzero
    have ha := eq_zero_of_head?_chars (by decide) (by decide) hzero
    rw [addressDigits, ha, chars_of_lt .upper (by decide)]
    rfl
  · rw [head?_addressDigits] at hunderscore
    exact underscore_notMem_chars _ (List.mem_of_mem_head? hunderscore)
  · rw [addressDigits, List.reverse_reverse] at hc
    exact getElem?_grouped (by simpa using underscore_notMem_chars a.toNat) hc
  · have hmem : c ∈ (addressDigits a).filter (· ≠ '_') :=
      List.mem_filter.mpr ⟨hc, decide_eq_true hne⟩
    rw [filter_addressDigits] at hmem
    exact mem_capitals_of_mem_chars hmem

/-- The characters of an address. -/
theorem toList_address (a : UInt64) : (address a).toList = '0' :: 'x' :: addressDigits a := by
  simp only [address, String.toList_append, String.toList_ofList]
  rfl

/-- The address that a hexadecimal numeral after 0x stands for, wherever it has underscores. -/
def readAddress? (text : List Char) : Option UInt64 :=
  match text.filter (· ≠ '_') with
  | '0' :: 'x' :: ds => (Numeral.read? 16 ds).map UInt64.ofNat
  | _ => none

/-- Reading the text of an address gives the address back. -/
theorem readAddress?_address (a : UInt64) : readAddress? (address a).toList = some a := by
  have htext : (address a).toList.filter (· ≠ '_') = '0' :: 'x' :: chars 16 .upper a.toNat := by
    rw [toList_address, ← filter_addressDigits]
    rfl
  rw [readAddress?, htext]
  simp [read?_chars]

end Text

end PhysicalMemory
