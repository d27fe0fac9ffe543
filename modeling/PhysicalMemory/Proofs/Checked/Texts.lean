import PhysicalMemory.Proofs.Checked.Words
import PhysicalMemory.Proofs.Text.Addresses
import PhysicalMemory.Text.Extent

/-!
# Checked texts

A machine does not divide by a base to write a number. It counts the digits of an address by its
leading zeros and cuts each digit out of the word, from the first position down; it counts the unit of
a size up while a shift leaves anything of the size, and masks what is beyond whole units. No shift may
be by as many bits as there are, and the product with one hundred is a double word. The texts come out
as the library's, without a fault (`address_eq`, `size_eq`, `extent_eq`).
-/

namespace PhysicalMemory.Checked

/-- A word of some width, moved right by fewer bits than that. -/
def shiftRight (width word bits : Nat) : Except Fault Nat :=
  if bits < width then .ok (word >>> bits) else .error .overflow

/-- A word of some width, moved left by fewer bits than that. What is moved out is lost. -/
def shiftLeft (width word bits : Nat) : Except Fault Nat :=
  if bits < width then .ok ((word <<< bits) % 2 ^ width) else .error .overflow

/-- The product of two numbers as a double word. -/
def product (a b : Nat) : Except Fault Nat :=
  if a * b < 2 ^ 128 then .ok (a * b) else .error .overflow

/-- How many digits an address has: one for each four bits from its first one bit on, and one at
least. -/
def digitCount (address : UInt64) : Except Fault Nat := do
  let bits ← difference 64 address.toBitVec.clz.toNat
  return (max bits 1 + 3) / 4

/-- The digits of an address at the positions below a number, each with an underscore behind it if it
closes a group of four that more digits follow. -/
def digitsBelow (address : UInt64) : Nat → Except Fault (List Char)
  | 0 => .ok []
  | position + 1 => do
    let digit := (← shiftRight 64 address.toNat (position * 4)) &&& 15
    let rest ← digitsBelow address position
    if position ≠ 0 ∧ position % 4 = 0 then
      return Numeral.chars 16 .upper digit ++ '_' :: rest
    else return Numeral.chars 16 .upper digit ++ rest

/-- An address in grouped hexadecimal. -/
def address (address : UInt64) : Except Fault String := do
  return "0x" ++ String.ofList (← digitsBelow address (← digitCount address))

/-- The exponent of a unit, counted up while the next unit does not exceed the number of bytes and
there are more units. -/
def unitFrom (bytes : UInt64) (unit : Nat) : Nat → Except Fault Nat
  | 0 => .ok unit
  | more + 1 => do
    if (← shiftRight 64 bytes.toNat (10 * (unit + 1))) ≠ 0 then unitFrom bytes (unit + 1) more
    else return unit

/-- A number of bytes in its unit, cut off after two decimal places. -/
def scale (bytes : UInt64) : Except Fault Text.Scaled := do
  let unit ← unitFrom bytes 0 Text.largestUnit
  let whole ← shiftRight 64 bytes.toNat (10 * unit)
  let mask ← difference (← shiftLeft 64 1 (10 * unit)) 1
  let hundredths ← shiftRight 128 (← product (bytes.toNat &&& mask) 100) (10 * unit)
  return ⟨unit, whole, hundredths⟩

/-- A number of bytes in its unit, written out. The unit must be one of those with a name. -/
def size (bytes : UInt64) : Except Fault String := do
  let scaled ← scale bytes
  if scaled.exponent ≤ Text.largestUnit then return scaled.text else .error .outOfRange

/-- An extent by its first and last bytes and its size. -/
def extent (e : Extent) : Except Fault String := do
  if e.length = 0 then return (← address e.base) ++ " (0B)"
  else return (← address e.base) ++ "-" ++ (← address e.lastByte) ++ " (" ++ (← size e.length) ++ ")"

/-- A shift to the right by fewer bits than there are is a division. -/
theorem shiftRight_eq {width bits : Nat} (h : bits < width) (word : Nat) :
    shiftRight width word bits = .ok (word / 2 ^ bits) := by
  rw [shiftRight, if_pos h, Nat.shiftRight_eq_div_pow]

/-- One bit, moved left by fewer bits than there are, is a power of two. -/
theorem shiftLeft_one_eq {width bits : Nat} (h : bits < width) :
    shiftLeft width 1 bits = .ok (2 ^ bits) := by
  rw [shiftLeft, if_pos h, Nat.shiftLeft_eq, Nat.one_mul,
    Nat.mod_eq_of_lt (Nat.pow_lt_pow_right (by decide) h)]

/-- A product that is a double word has no fault. -/
theorem product_eq {a b : Nat} (h : a * b < 2 ^ 128) : product a b = .ok (a * b) := if_pos h

/-- The first one bit of a word other than zero stands behind its leading zeros. -/
theorem log2_toNat {word : UInt64} (h : word.toNat ≠ 0) :
    word.toBitVec.clz.toNat < 64 ∧ word.toNat.log2 = 63 - word.toBitVec.clz.toNat := by
  have hne : word.toBitVec ≠ 0#64 := fun heq => h (congrArg BitVec.toNat heq)
  have hclz : word.toBitVec.clz.toNat < 64 := BitVec.lt_def.mp (BitVec.clz_lt_iff_ne_zero.mpr hne)
  have hlow : 2 ^ (63 - word.toBitVec.clz.toNat) ≤ word.toNat :=
    BitVec.two_pow_sub_clz_le_toNat_of_ne_zero (by decide) hne
  have hhigh : word.toNat < 2 ^ (64 - word.toBitVec.clz.toNat) := BitVec.toNat_lt_two_pow_sub_clz
  have hnext : 64 - word.toBitVec.clz.toNat = 63 - word.toBitVec.clz.toNat + 1 := by omega
  rw [hnext] at hhigh
  exact ⟨hclz, (Nat.log2_eq_iff h).mpr ⟨hlow, hhigh⟩⟩

/-- Counting the leading zeros of an address gives as many digits as its numeral has. -/
theorem digitCount_eq (a : UInt64) :
    digitCount a = .ok (Numeral.digits 16 a.toNat).length := by
  have hle : a.toBitVec.clz.toNat ≤ 64 := BitVec.le_def.mp BitVec.clz_le
  rw [digitCount, difference_eq hle, ok_bind, pure_eq_ok, Numeral.length_digits_sixteen]
  by_cases hzero : a.toNat = 0
  · obtain rfl : a = 0 := UInt64.toNat_inj.mp hzero
    decide
  · obtain ⟨hclz, hlog⟩ := log2_toNat hzero
    rw [hlog, Except.ok.injEq]
    omega

/-- An address has no more than sixteen digits. -/
theorem length_digits_le (a : UInt64) : (Numeral.digits 16 a.toNat).length ≤ 16 := by
  rw [Numeral.length_digits_sixteen]
  by_cases hzero : a.toNat = 0
  · rw [hzero]
    decide
  · obtain ⟨-, hlog⟩ := log2_toNat hzero
    omega

/-- The digits of an address at the positions below a number are the remainders of its quotients. -/
theorem digitsBelow_eq (a : UInt64) {count : Nat} (h : count ≤ 16) :
    digitsBelow a count = .ok (Text.grouped ((List.range count).map fun position =>
      Numeral.digitChar .upper (a.toNat / 16 ^ position % 16))).reverse := by
  induction count with
  | zero => rfl
  | succ position ih =>
    have hdigit : (a.toNat / 2 ^ (position * 4)) &&& 15 = a.toNat / 16 ^ position % 16 := by
      rw [Nat.and_two_pow_sub_one_eq_mod _ 4, Nat.mul_comm, Nat.pow_mul]
    have hlt : a.toNat / 16 ^ position % 16 < 16 := Nat.mod_lt _ (by decide)
    rw [digitsBelow, shiftRight_eq (by omega), ok_bind, ih (by omega), ok_bind, hdigit,
      Numeral.chars_of_lt _ hlt, List.range_succ, List.map_append, List.map_singleton,
      Text.grouped_concat]
    by_cases hgroup : position ≠ 0 ∧ position % 4 = 0
    · simp [hgroup]
    · simp [hgroup]

/-- The text of an address is the library's. -/
theorem address_eq (a : UInt64) : address a = .ok (Text.address a) := by
  have hdigits : (Numeral.chars 16 .upper a.toNat).reverse =
      (List.range (Numeral.digits 16 a.toNat).length).map fun position =>
        Numeral.digitChar .upper (a.toNat / 16 ^ position % 16) := by
    rw [Numeral.chars, ← List.map_reverse, Numeral.reverse_digits (by decide), List.map_map]
    rfl
  rw [address, digitCount_eq, ok_bind, digitsBelow_eq a (length_digits_le a), ok_bind, ← hdigits]
  rfl

/-- A unit is a power of two. -/
theorem unitBytes_eq (unit : Nat) : Text.unitBytes unit = 2 ^ (10 * unit) := by
  induction unit with
  | zero => rfl
  | succ unit ih =>
    rw [Text.unitBytes, ih, Nat.mul_succ, Nat.pow_add]
    exact Nat.mul_comm _ _

/-- Counting units up from one that does not exceed the number of bytes gives the largest that does
not. -/
theorem unitFrom_eq (bytes : UInt64) {unit more : Nat} (hunits : unit + more ≤ Text.largestUnit)
    (hreached : unit = 0 ∨ Text.unitBytes unit ≤ bytes.toNat) :
    unitFrom bytes unit more = .ok (Text.unitExponent bytes.toNat (unit + more)) := by
  induction more generalizing unit with
  | zero => exact congrArg Except.ok (Text.unitExponent_eq (Nat.le_refl _) hreached (Or.inl rfl)).symm
  | succ more ih =>
    have hbits : 10 * (unit + 1) < 64 := by
      unfold Text.largestUnit at hunits
      omega
    rw [unitFrom, shiftRight_eq hbits, ok_bind, ← unitBytes_eq]
    by_cases hnext : Text.unitBytes (unit + 1) ≤ bytes.toNat
    · have hquotient : bytes.toNat / Text.unitBytes (unit + 1) ≠ 0 :=
        Nat.ne_of_gt (Nat.div_pos hnext (Text.unitBytes_pos _))
      have hmore : unit + (more + 1) = unit + 1 + more := by omega
      rw [if_pos hquotient, hmore]
      rw [hmore] at hunits
      exact ih hunits (Or.inr hnext)
    · have hlt := Nat.not_le.mp hnext
      rw [if_neg (not_not_intro (Nat.div_eq_of_lt hlt)),
        Text.unitExponent_eq (Nat.le_add_right _ _) hreached (Or.inr hlt)]
      rfl

/-- Scaling by shifts and a mask gives the whole units and the hundredths. -/
theorem scale_eq (bytes : UInt64) : scale bytes = .ok (Text.scale bytes.toNat) := by
  have hunit : Text.unitExponent bytes.toNat Text.largestUnit ≤ 6 := Text.unitExponent_le _ _
  rw [scale, unitFrom_eq bytes (Nat.zero_add _).le (Or.inl rfl), ok_bind, Nat.zero_add, Text.scale]
  generalize Text.unitExponent bytes.toNat Text.largestUnit = unit at hunit ⊢
  have hbits : 10 * unit < 64 := by omega
  have hpart : bytes.toNat % 2 ^ (10 * unit) * 100 < 2 ^ 128 := by
    have hlt : bytes.toNat < 2 ^ 64 := toNat_lt_addressSpace bytes
    have hle := Nat.mod_le bytes.toNat (2 ^ (10 * unit))
    omega
  rw [shiftRight_eq hbits, ok_bind, shiftLeft_one_eq hbits, ok_bind,
    difference_eq Nat.one_le_two_pow, ok_bind, Nat.and_two_pow_sub_one_eq_mod, product_eq hpart,
    ok_bind, shiftRight_eq (by omega), ok_bind, unitBytes_eq]
  rfl

/-- The text of a size is the library's. -/
theorem size_eq (bytes : UInt64) : size bytes = .ok (Text.size bytes.toNat) := by
  have hunit : (Text.scale bytes.toNat).exponent ≤ Text.largestUnit := Text.unitExponent_le _ _
  rw [size, scale_eq, ok_bind, if_pos hunit]
  rfl

/-- The text of an extent is the library's. -/
theorem extent_eq (e : Extent) : extent e = .ok (Text.extent e) := by
  have hempty : e.isEmpty = true ↔ e.length = 0 := by simp [Extent.isEmpty]
  rw [extent, Text.extent]
  by_cases h : e.length = 0
  · rw [if_pos h, if_pos (hempty.mpr h), address_eq]
    rfl
  · rw [if_neg h, if_neg (mt hempty.mp h), address_eq, address_eq, size_eq]
    rfl

end PhysicalMemory.Checked
