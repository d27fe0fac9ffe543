import PhysicalMemory.Text.Numeral

/-!
# The text of a size

Sizes are written in the largest binary unit that does not exceed them, with at most two decimal
places, cut off and not rounded, and without trailing zeros, as in `1.5KiB`. A size is first scaled
to whole units and hundredths of the unit; `scale` holds all the arithmetic and the text only spells
its answer. The unit is the largest that does not exceed the size (`unitExponent_eq`).
-/

namespace PhysicalMemory.Text

/-- A size as a decimal number of a binary unit. -/
structure Scaled where
  /-- The unit is this power of 1024 bytes. -/
  exponent : Nat
  /-- The whole units. -/
  whole : Nat
  /-- The hundredths of a unit beyond the whole units. -/
  hundredths : Nat
deriving DecidableEq

/-- The number of bytes in a unit: 1024 to some power. -/
def unitBytes : Nat → Nat
  | 0 => 1
  | u + 1 => 1024 * unitBytes u

/-- The largest exponent, no greater than the given one, of a power of 1024 that does not exceed the
number of bytes, or zero. -/
def unitExponent (bytes : Nat) : Nat → Nat
  | 0 => 0
  | u + 1 => if unitBytes (u + 1) ≤ bytes then u + 1 else unitExponent bytes u

/-- The exponent of the largest unit that has a name. -/
def largestUnit : Nat := 6

/-- A number of bytes in its unit, cut off after two decimal places. -/
def scale (bytes : Nat) : Scaled :=
  let u := unitExponent bytes largestUnit
  ⟨u, bytes / unitBytes u, bytes % unitBytes u * 100 / unitBytes u⟩

/-- The name of a power of 1024 bytes. -/
def unitName : Nat → String
  | 0 => "B"
  | 1 => "KiB"
  | 2 => "MiB"
  | 3 => "GiB"
  | 4 => "TiB"
  | 5 => "PiB"
  | _ => "EiB"

/-- The decimal places of a scaled size with the point before them: as few as say it exactly. -/
def Scaled.places (s : Scaled) : String :=
  if s.hundredths = 0 then ""
  else if s.hundredths % 10 = 0 then "." ++ Numeral.decimal (s.hundredths / 10)
  else if s.hundredths < 10 then ".0" ++ Numeral.decimal s.hundredths
  else "." ++ Numeral.decimal s.hundredths

/-- A scaled size, written out. -/
def Scaled.text (s : Scaled) : String :=
  Numeral.decimal s.whole ++ s.places ++ unitName s.exponent

/-- A number of bytes in its unit, written out. -/
def size (bytes : Nat) : String := (scale bytes).text

/-- A unit has bytes. -/
theorem unitBytes_pos (u : Nat) : 0 < unitBytes u := by
  induction u with
  | zero => decide
  | succ u ih => exact Nat.mul_pos (by decide) ih

/-- A unit of a larger exponent is no smaller. -/
theorem unitBytes_le {u v : Nat} (h : u ≤ v) : unitBytes u ≤ unitBytes v := by
  induction h with
  | refl => exact Nat.le_refl _
  | step _ ih => exact Nat.le_trans ih (Nat.le_mul_of_pos_left _ (by decide))

/-- The exponent is one of those to choose from. -/
theorem unitExponent_le (bytes n : Nat) : unitExponent bytes n ≤ n := by
  induction n with
  | zero => exact Nat.le_refl _
  | succ n ih =>
    rw [unitExponent]
    split
    · exact Nat.le_refl _
    · omega

/-- The unit does not exceed the number of bytes, unless it is a single byte. -/
theorem unitExponent_reached (bytes n : Nat) :
    unitExponent bytes n = 0 ∨ unitBytes (unitExponent bytes n) ≤ bytes := by
  induction n with
  | zero => exact Or.inl rfl
  | succ n ih =>
    rw [unitExponent]
    split
    · exact Or.inr ‹_›
    · exact ih

/-- There is no larger unit that does not exceed the number of bytes. -/
theorem le_unitExponent {bytes n u : Nat} (hu : u ≤ n) (h : unitBytes u ≤ bytes) :
    u ≤ unitExponent bytes n := by
  induction n with
  | zero => exact hu
  | succ n ih =>
    rw [unitExponent]
    split
    · exact hu
    · rename_i hlarge
      rcases Nat.lt_or_eq_of_le hu with hlt | rfl
      · exact ih (Nat.le_of_lt_succ hlt)
      · exact absurd h hlarge

/-- The exponent is the one whose unit does not exceed the number of bytes, and the next unit does. -/
theorem unitExponent_eq {bytes n u : Nat} (hu : u ≤ n) (hreached : u = 0 ∨ unitBytes u ≤ bytes)
    (hnext : u = n ∨ bytes < unitBytes (u + 1)) : unitExponent bytes n = u := by
  apply Nat.le_antisymm
  · apply Nat.le_of_not_lt
    intro hlarger
    -- A larger unit would be no smaller than the next one, which is too large.
    rcases unitExponent_reached bytes n with hzero | hle
    · omega
    · have hunits := unitBytes_le hlarger
      have hn := unitExponent_le bytes n
      rcases hnext with rfl | hlt
      · omega
      · exact Nat.lt_irrefl _ (Nat.lt_of_lt_of_le hlt (Nat.le_trans hunits hle))
  · rcases hreached with rfl | hle
    · exact Nat.zero_le _
    · exact le_unitExponent hu hle

end PhysicalMemory.Text
