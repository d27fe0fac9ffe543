import PhysicalMemory.Text.Numeral

/-!
# The text of an address

Addresses are written in hexadecimal with capital letters after `0x`, with an underscore between
the groups of four digits counted from the right, as in `0x1_0000_0000`.
-/

namespace PhysicalMemory.Text

/-- Digits, least significant first, with an underscore after each group of four that more digits
follow. -/
def grouped : List Char → List Char
  | a :: b :: c :: d :: e :: rest => a :: b :: c :: d :: '_' :: grouped (e :: rest)
  | few => few

/-- The grouped hexadecimal digits of an address. -/
def addressDigits (address : UInt64) : List Char :=
  (grouped (Numeral.chars 16 .upper address.toNat).reverse).reverse

/-- An address in grouped hexadecimal. -/
def address (address : UInt64) : String := "0x" ++ String.ofList (addressDigits address)

end PhysicalMemory.Text
