import PhysicalMemory.Claims.Insertion
import PhysicalMemory.Claims.FirstFit

/-!
# The arena

The arena is the physical address space of one boot, with the claims made on it so far and the page
in which reservations are made. A page size is a power of two by construction.
-/

namespace PhysicalMemory

/-- A size that pages can have. -/
@[ext]
structure PageSize where
  /-- The number of bytes in a page. -/
  bytes : UInt64
  /-- Pages are as large as a power of two. -/
  isPowerOfTwo : bytes.toNat.isPowerOfTwo

namespace PageSize

/-- The page size with a number of bytes, if that is a power of two. -/
def ofBytes? (bytes : UInt64) : Option PageSize :=
  if h : bytes.toNat.isPowerOfTwo then some ⟨bytes, h⟩ else none

/-- The page size of the platform. -/
def ofPlatform : PageSize := ⟨platformPage, 12, rfl⟩

/-- A page is not empty. -/
theorem bytes_pos (page : PageSize) : 0 < page.bytes.toNat :=
  Nat.pos_of_isPowerOfTwo page.isPowerOfTwo

/-- Exactly the powers of two are page sizes. -/
theorem ofBytes?_isSome_iff {bytes : UInt64} :
    (ofBytes? bytes).isSome ↔ bytes.toNat.isPowerOfTwo := by
  unfold ofBytes?
  split <;> simp [*]

end PageSize

/-- The physical address space with the claims made on it. -/
@[ext]
structure Arena (capacity : Nat) where
  /-- Reservations are made in whole pages of this size. -/
  page : PageSize
  /-- The claims are checked after every claim. -/
  watchful : Bool
  /-- The claims made so far. -/
  claims : Claims capacity

namespace Arena

variable {capacity : Nat} {α : Type}

/-- Nothing is claimed. -/
def empty (page : PageSize) (watchful : Bool) : Arena capacity := ⟨page, watchful, .empty⟩

/-- An arena without claims whose page has a number of bytes, which must be a power of two. -/
def ofPageBytes {σ : Type} (bytes : UInt64) (watchful : Bool) : Action σ (Arena capacity) :=
  match PageSize.ofBytes? bytes with
  | some page => pure (.empty page watchful)
  | none => Action.refuse (.badPageSize bytes)

/-- Runs an action on the claims of an arena. -/
def onClaims (action : Action (Claims capacity) α) : Action (Arena capacity) α :=
  action.onPart Arena.claims fun arena claims => { arena with claims }

end Arena

end PhysicalMemory
