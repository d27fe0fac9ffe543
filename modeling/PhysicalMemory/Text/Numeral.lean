/-!
# Numerals

Numbers written in a base of at most sixteen, the most significant digit first and without a leading
zero, and the reading of them. Reading gives back the number that was written
(`ofDigits_digits`, `read?_chars`).
-/

namespace PhysicalMemory.Numeral

/-- The digits of a number in a base of at least two, most significant first; zero has one digit. -/
def digits (base n : Nat) : List Nat :=
  if _h : 2 ≤ base ∧ base ≤ n then digits base (n / base) ++ [n % base] else [n]
termination_by n
decreasing_by exact Nat.div_lt_self (by omega) (by omega)

/-- The number that digits stand for in a base, by Horner's rule. -/
def ofDigits (base : Nat) (ds : List Nat) : Nat := ds.foldl (fun n d => n * base + d) 0

/-- How the digits from ten on are written. -/
inductive Letters where
  /-- With small letters. -/
  | lower
  /-- With capital letters. -/
  | upper
deriving DecidableEq

/-- The character of a digit below sixteen. -/
def digitChar (letters : Letters) (d : Nat) : Char :=
  let c := Nat.digitChar d
  match letters with
  | .lower => c
  | .upper => c.toUpper

/-- The digit that a character stands for. -/
def digitOfChar? (c : Char) : Option Nat :=
  (List.range 16).find? fun d => digitChar .lower d == c || digitChar .upper d == c

/-- A character that is a digit of the base, as that digit. -/
def digitBelow? (base : Nat) (c : Char) : Option Nat := (digitOfChar? c).filter (· < base)

/-- The characters of a number in a base. -/
def chars (base : Nat) (letters : Letters) (n : Nat) : List Char :=
  (digits base n).map (digitChar letters)

/-- The number that a numeral in a base stands for, unless it is empty or has another character. -/
def read? (base : Nat) (cs : List Char) : Option Nat :=
  if cs.isEmpty then none
  else (cs.mapM (digitBelow? base)).map (ofDigits base)

/-- A number in decimal. -/
def decimal (n : Nat) : String := String.ofList (chars 10 .lower n)

/-- A number in hexadecimal with small letters, after `0x`. -/
def hexadecimal (n : Nat) : String := "0x" ++ String.ofList (chars 16 .lower n)

/-- One more digit is one more step of Horner's rule. -/
theorem ofDigits_append_singleton (base d : Nat) (ds : List Nat) :
    ofDigits base (ds ++ [d]) = ofDigits base ds * base + d := by
  simp [ofDigits]

/-- Reading the digits of a number gives the number back. -/
theorem ofDigits_digits (base n : Nat) : ofDigits base (digits base n) = n := by
  fun_induction digits base n with
  | case1 n h ih => rw [ofDigits_append_singleton, ih, Nat.mul_comm, Nat.div_add_mod]
  | case2 n h => simp [ofDigits]

/-- The digits of a number are digits of the base. -/
theorem digits_lt {base : Nat} (hbase : 2 ≤ base) (n : Nat) : ∀ d ∈ digits base n, d < base := by
  fun_induction digits base n with
  | case1 n h ih =>
    intro d hd
    rcases List.mem_append.mp hd with hd | hd
    · exact ih d hd
    · rw [List.mem_singleton.mp hd]
      exact Nat.mod_lt _ (by omega)
  | case2 n h => simp only [List.mem_singleton, forall_eq]; omega

/-- A number has at least one digit. -/
theorem digits_ne_nil (base n : Nat) : digits base n ≠ [] := by
  rw [digits]
  split <;> simp

/-- A digit of the base is the only one of its numeral. -/
theorem chars_of_lt (letters : Letters) {base n : Nat} (h : n < base) :
    chars base letters n = [digitChar letters n] := by
  rw [chars, digits, dif_neg (by omega)]
  rfl

/-- The characters of a number in decimal. -/
theorem toList_decimal (n : Nat) : (decimal n).toList = chars 10 .lower n := by
  rw [decimal, String.toList_ofList]

/-- The character of a digit stands for that digit. -/
theorem digitOfChar?_digitChar (letters : Letters) {d : Nat} (hd : d < 16) :
    digitOfChar? (digitChar letters d) = some d := by
  -- There are sixteen digits, so all of them can be tried.
  have hall : ∀ d ∈ List.range 16, digitOfChar? (digitChar .lower d) = some d ∧
      digitOfChar? (digitChar .upper d) = some d := by decide
  obtain ⟨hl, hu⟩ := hall d (List.mem_range.mpr hd)
  cases letters
  · exact hl
  · exact hu

/-- The characters of digits of the base are read one by one. -/
theorem mapM_digitBelow?_map (letters : Letters) {base : Nat} (h16 : base ≤ 16) {ds : List Nat}
    (hds : ∀ d ∈ ds, d < base) :
    (ds.map (digitChar letters)).mapM (digitBelow? base) = some ds := by
  induction ds with
  | nil => rfl
  | cons d ds ih =>
    have hd := hds d List.mem_cons_self
    have hchar : digitBelow? base (digitChar letters d) = some d := by
      simp [digitBelow?, digitOfChar?_digitChar letters (show d < 16 by omega), hd]
    rw [List.map_cons, List.mapM_cons, hchar, ih fun e he => hds e (List.mem_cons_of_mem _ he)]
    rfl

/-- Reading the characters of some digits gives the number that the digits stand for. -/
theorem read?_map (letters : Letters) {base : Nat} (h16 : base ≤ 16) {ds : List Nat} (hne : ds ≠ [])
    (hds : ∀ d ∈ ds, d < base) :
    read? base (ds.map (digitChar letters)) = some (ofDigits base ds) := by
  have hempty : (ds.map (digitChar letters)).isEmpty = false := by simp [hne]
  simp [read?, hempty, mapM_digitBelow?_map letters h16 hds]

/-- Reading what was written gives the number back. -/
theorem read?_chars (letters : Letters) {base : Nat} (h2 : 2 ≤ base) (h16 : base ≤ 16) (n : Nat) :
    read? base (chars base letters n) = some n := by
  rw [chars, read?_map letters h16 (digits_ne_nil base n) (digits_lt h2 n), ofDigits_digits]

end PhysicalMemory.Numeral
