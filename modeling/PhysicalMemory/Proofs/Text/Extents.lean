import PhysicalMemory.Proofs.Checked.Texts

/-!
# Reading extents

The text of an extent says its first and its last byte, and those two addresses determine it, whether
it ends in the address space, exactly at the top or beyond: the distance between them, counted around
the top, is one less than the length. The size behind them, which is cut off, is not needed. That an
extent is empty can be told by the hyphen that is missing. So the extent can be read back from its text
(`readExtent?_extent`), and no two extents have the same text (`texts_lossless`).
-/

namespace PhysicalMemory.Text

/-- Addresses end at a hyphen or at a space. -/
def inAddress (c : Char) : Bool := c ≠ '-' && c ≠ ' '

/-- The extent that a text stands for: an address alone if it is empty, and otherwise the addresses of
its first and its last byte with a hyphen between them. What follows is not read. -/
def readExtent? (text : List Char) : Option Extent := do
  let base ← readAddress? (text.takeWhile inAddress)
  match text.dropWhile inAddress with
  | '-' :: rest =>
    let last ← readAddress? (rest.takeWhile inAddress)
    return ⟨base, last - base + 1⟩
  | _ => return ⟨base, 0⟩

/-- There is neither a hyphen nor a space in an address. -/
theorem inAddress_of_mem_address {a : UInt64} {c : Char} (hc : c ∈ (address a).toList) :
    inAddress c = true := by
  have hall : capitals.all inAddress = true := by decide
  rw [toList_address, List.mem_cons, List.mem_cons] at hc
  rcases hc with rfl | rfl | hc
  · rfl
  · rfl
  · by_cases hunderscore : c = '_'
    · rw [hunderscore]
      rfl
    · exact List.all_eq_true.mp hall c ((wellGrouped_addressDigits a).mem_capitals c hc hunderscore)

/-- An address is read up to the hyphen or the space behind it. -/
theorem span_address (a : UInt64) {c : Char} (hc : inAddress c = false) (rest : List Char) :
    ((address a).toList ++ c :: rest).takeWhile inAddress = (address a).toList ∧
      ((address a).toList ++ c :: rest).dropWhile inAddress = c :: rest := by
  have hin : ∀ d ∈ (address a).toList, inAddress d = true := fun d => inAddress_of_mem_address
  rw [List.takeWhile_append_of_pos hin, List.dropWhile_append_of_pos hin,
    List.takeWhile_cons_of_neg (by simp [hc]), List.dropWhile_cons_of_neg (by simp [hc])]
  exact ⟨List.append_nil _, rfl⟩

/-- The distance between the first and the last byte is one less than the length. -/
theorem lastByte_sub_base (e : Extent) : e.lastByte - e.base + 1 = e.length := by
  unfold Extent.lastByte
  grind

/-- Reading the text of an extent gives the extent back. -/
theorem readExtent?_extent (e : Extent) : readExtent? (extent e).toList = some e := by
  cases hempty : e.isEmpty with
  | true =>
    have hlength : e.length = 0 := by simpa [Extent.isEmpty] using hempty
    have htext : (extent e).toList = (address e.base).toList ++ ' ' :: "(0B)".toList := by
      rw [extent, if_pos hempty, String.toList_append]
      rfl
    obtain ⟨htake, hdrop⟩ := span_address e.base (c := ' ') rfl "(0B)".toList
    rw [htext, readExtent?, htake, hdrop, readAddress?_address, ← hlength]
    rfl
  | false =>
    have htext : (extent e).toList = (address e.base).toList ++ '-' ::
        ((address e.lastByte).toList ++ ' ' :: ('(' :: (size e.size).toList ++ [')'])) := by
      rw [extent, if_neg (by simp [hempty])]
      simp only [String.toList_append, List.append_assoc]
      rfl
    obtain ⟨htake, hdrop⟩ := span_address e.base (c := '-') rfl
      ((address e.lastByte).toList ++ ' ' :: ('(' :: (size e.size).toList ++ [')']))
    obtain ⟨hlast, -⟩ := span_address e.lastByte (c := ' ') rfl
      ('(' :: (size e.size).toList ++ [')'])
    rw [htext, readExtent?, htake, hdrop, readAddress?_address]
    simp only [hlast, readAddress?_address, Option.bind_eq_bind, Option.bind_some,
      Option.pure_def, lastByte_sub_base]

/-- The last byte of an extent that runs past the top is counted from zero on. -/
example : extent ⟨0xFFFFFFFFFFFFF000, 0x2000⟩ = "0xFFFF_FFFF_FFFF_F000-0xFFF (8KiB)" := by
  decide +kernel

/-- The texts of addresses and extents lose nothing. Without the underscores, the text of an address is
its numeral; it has no leading zero, and the underscores stand between the groups of four digits from
the right. Each extent can be read back from its text, so that different extents have different texts.
A machine writes the same texts. -/
theorem texts_lossless :
    (∀ a : UInt64, Checked.address a = .ok (address a) ∧
      ∃ ds, (address a).toList = '0' :: 'x' :: ds ∧ WellGrouped ds ∧
        Numeral.read? 16 (ds.filter (· ≠ '_')) = some a.toNat) ∧
      (∀ e : Extent, Checked.extent e = .ok (extent e) ∧
        readExtent? (extent e).toList = some e) ∧
      Function.Injective extent := by
  refine ⟨fun a => ⟨Checked.address_eq a, addressDigits a, toList_address a,
    wellGrouped_addressDigits a, ?_⟩, fun e => ⟨Checked.extent_eq e, readExtent?_extent e⟩,
    fun e f heq => ?_⟩
  · rw [filter_addressDigits]
    exact Numeral.read?_chars .upper (by decide) (by decide) a.toNat
  · have hread := readExtent?_extent e
    rw [heq, readExtent?_extent f] at hread
    exact (Option.some.inj hread).symm

end PhysicalMemory.Text
