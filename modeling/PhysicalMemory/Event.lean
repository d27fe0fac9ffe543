import PhysicalMemory.Outcome
import PhysicalMemory.Placement
import PhysicalMemory.Firmware.Finding
import PhysicalMemory.Firmware.Withheld

/-!
# Events

Operations report what happens as events, and an event is written out only when somebody reads the
log. Each refusal of a request is a `Refusal`, which says why in full and tells the caller a
`Failure`. The severity of an event is a function of the event, so whether something went wrong can
be read off the log without its texts.
-/

namespace PhysicalMemory

/-- Why a request is refused. -/
inductive Refusal where
  /-- An extent to claim runs past the top of memory. -/
  | insertPastTop (extent : Extent)
  /-- A claim table has no room for another entry. -/
  | tableFull (capacity : Nat) (extent : Extent)
  /-- With this extent, the whole address space would be claimed. -/
  | insertWholeSpace (extent : Extent)
  /-- No placement has this number. -/
  | unknownPlacement (code : UInt32)
  /-- Pages cannot have this size. -/
  | badPageSize (bytes : UInt64)
  /-- A claim at a given address runs past the top of memory. -/
  | claimPastTop (placement : Placement) (extent : Extent)
  /-- A search was to find a multiple of zero. -/
  | zeroAlignment
  /-- A search found no room. -/
  | noRoom (size alignment : UInt64) (placement : Placement)
  /-- An extent to reserve runs past the top of memory. -/
  | reservePastTop (extent : Extent)
  /-- The pages of an extent to reserve are the whole address space. -/
  | reserveWholeSpace
  /-- A memory map describes no memory at all. -/
  | emptyMap
  /-- A platform's memory map has more entries than there are slots for them. -/
  | bootMapTooLong (entries slots : Nat)
deriving DecidableEq

namespace Refusal

/-- What a refusal tells the caller. -/
def failure : Refusal → Failure
  | .insertPastTop _ => .outOfResources
  | .tableFull _ _ => .outOfResources
  | .insertWholeSpace _ => .outOfResources
  | .unknownPlacement _ => .invalidParameter
  | .badPageSize _ => .invalidParameter
  | .claimPastTop _ _ => .outOfResources
  | .zeroAlignment => .invalidParameter
  | .noRoom _ _ _ => .outOfResources
  | .reservePastTop _ => .outOfResources
  | .reserveWholeSpace => .outOfResources
  | .emptyMap => .invalidParameter
  | .bootMapTooLong _ _ => .outOfResources

/-- A refusal in words. -/
def text : Refusal → String
  | .insertPastTop e =>
    Text.size e.size ++ " at " ++ Text.address e.base ++ " runs past the top of memory"
  | .tableFull capacity e =>
    "range table is full (" ++ Numeral.decimal capacity ++ " entries), cannot claim " ++
      Text.extent e
  | .insertWholeSpace e => "claiming " ++ Text.extent e ++ " would cover the whole address space"
  | .unknownPlacement code => "unknown allocation option " ++ Numeral.decimal code.toNat
  | .badPageSize bytes =>
    "page size " ++ Numeral.decimal bytes.toNat ++ " is not a power of two"
  | .claimPastTop p e =>
    p.text ++ " claim of " ++ Text.size e.size ++ " at " ++ Text.address e.base ++
      " runs past the top of memory"
  | .zeroAlignment => "zero alignment requested"
  | .noRoom size alignment p =>
    "no free memory for " ++ Text.size size.toNat ++ " aligned to " ++
      Numeral.decimal alignment.toNat ++ " (" ++ p.text ++ ")"
  | .reservePastTop e =>
    "reservation of " ++ Text.size e.size ++ " at " ++ Text.address e.base ++
      " runs past the top of memory"
  | .reserveWholeSpace => "cannot reserve the whole address space"
  | .emptyMap => "memory map describes no memory"
  | .bootMapTooLong entries slots =>
    "boot map has " ++ Numeral.decimal entries ++ " entries but only " ++
      Numeral.decimal slots ++ " fit"

end Refusal

/-- How serious an event is. -/
inductive Severity where
  /-- A request is refused, or a table lost its form. -/
  | error
  /-- Something is suspicious. -/
  | warn
  /-- A state is listed, or a request fails as it may. -/
  | debug
  /-- A step is taken. -/
  | trace
deriving DecidableEq

/-- The name of a severity. -/
def Severity.text : Severity → String
  | .error => "ERROR"
  | .warn => "WARN"
  | .debug => "DEBUG"
  | .trace => "TRACE"

/-- Something that an operation reports. -/
inductive Event where
  /-- A request is refused. -/
  | refused (refusal : Refusal)
  /-- A claim at a given address meets an earlier claim. -/
  | alreadyClaimed (extent : Extent)
  /-- A new claim joins several entries of the table into one. -/
  | joined (extent : Extent) (entries : Nat)
  /-- A claim is made. -/
  | claimed (extent : Extent) (placement : Placement)
  /-- A self-check finds nothing claimed. -/
  | nothingClaimed
  /-- A self-check finds a defect. -/
  | defective (defect : Defect)
  /-- A self-check halts the boot. -/
  | corrupted
  /-- The heading of a list of claims. -/
  | claimsHeading (entries capacity bytes : Nat)
  /-- An entry of a list of claims. -/
  | claimsEntry (index : Nat) (extent : Extent)
  /-- A memory map is coalesced. -/
  | coalesced (before after : Nat)
  /-- An audit of a memory map finds something. -/
  | found (finding : Firmware.Finding)
  /-- The heading of a list of a memory map. -/
  | mapHeading (entries : Nat)
  /-- An entry of a list of a memory map. -/
  | mapEntry (index : Nat) (region : Firmware.Region)
  /-- A piece of memory is about to be withheld. -/
  | withholding (piece : Firmware.Withheld)
  /-- All that a memory map does not grant is withheld. -/
  | withheld (entries bytes : Nat)
  /-- A platform's memory map is taken over. -/
  | copied (entries : Nat)
deriving DecidableEq

namespace Event

/-- How serious an event is. -/
def severity : Event → Severity
  | .refused _ => .error
  | .alreadyClaimed _ => .debug
  | .joined _ _ => .trace
  | .claimed _ _ => .trace
  | .nothingClaimed => .warn
  | .defective _ => .error
  | .corrupted => .error
  | .claimsHeading _ _ _ => .debug
  | .claimsEntry _ _ => .debug
  | .coalesced _ _ => .trace
  | .found finding => if finding.isFatal then .error else .warn
  | .mapHeading _ => .debug
  | .mapEntry _ _ => .debug
  | .withholding _ => .trace
  | .withheld _ _ => .debug
  | .copied _ => .trace

/-- The size of all claims in words; more than a 64-bit word can say is written as the greatest
word. -/
def claimedSize (bytes : Nat) : String := Text.size (min bytes (addressSpace - 1))

/-- An event in words. -/
def text : Event → String
  | .refused refusal => refusal.text
  | .alreadyClaimed e => Text.extent e ++ " is already claimed"
  | .joined e entries =>
    Text.extent e ++ " merges " ++ Numeral.decimal entries ++ " claimed ranges"
  | .claimed e p => "claimed " ++ Text.extent e ++ " (" ++ p.text ++ ")"
  | .nothingClaimed => "range table is empty"
  | .defective defect => defect.text
  | .corrupted => "range table is corrupted"
  | .claimsHeading entries capacity bytes =>
    "range table: " ++ Numeral.decimal entries ++ " of " ++ Numeral.decimal capacity ++
      " entries, " ++ claimedSize bytes ++ " claimed"
  | .claimsEntry index e => "  [" ++ Numeral.decimal index ++ "] " ++ Text.extent e
  | .coalesced before after =>
    "merged " ++ Numeral.decimal before ++ " memory map entries into " ++ Numeral.decimal after
  | .found finding => finding.text
  | .mapHeading entries => "memory map: " ++ Numeral.decimal entries ++ " entries"
  | .mapEntry index region =>
    "  [" ++ Numeral.decimal index ++ "] " ++ Text.extent region.extent ++ " " ++
      region.usage.text ++ " attributes " ++ Numeral.hexadecimal region.attributes.toNat
  | .withholding piece => piece.text
  | .withheld entries bytes =>
    "memory map blacklisted into " ++ Numeral.decimal entries ++ " ranges, " ++
      claimedSize bytes ++ " claimed"
  | .copied entries => "copied " ++ Numeral.decimal entries ++ " boot map entries"

/-- An event as a line of a log. -/
def line (event : Event) : String := event.severity.text ++ " " ++ event.text

end Event

end PhysicalMemory
