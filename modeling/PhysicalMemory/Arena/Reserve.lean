import PhysicalMemory.Arena.Claim

/-!
# Reserving pages

A reservation takes all pages that meet an extent, claimed or not, and so keeps them from being
handed out. The pages may end at the top of the address space; they cannot be the whole of it.
-/

namespace PhysicalMemory

/-- The start of the first page that meets an extent. -/
def PageSize.firstOf (page : PageSize) (extent : Extent) : Nat :=
  floorTo page.bytes.toNat extent.start

/-- The stop of the last page that meets an extent. -/
def PageSize.lastOf (page : PageSize) (extent : Extent) : Nat :=
  ceilingTo page.bytes.toNat extent.stop

/-- The pages that meet an extent, unless they are the whole address space. -/
def PageSize.widen? (page : PageSize) (extent : Extent) : Option Extent :=
  if page.lastOf extent - page.firstOf extent < addressSpace then
    some (.between (page.firstOf extent) (page.lastOf extent))
  else none

namespace Arena

variable {capacity : Nat}

/-- Keeps all pages that meet an extent from being handed out. -/
def reserve (extent : Extent) : Action (Arena capacity) Unit :=
  if extent.isEmpty then pure ()
  else if extent.runsPastTop then Action.refuse (.reservePastTop extent)
  else do
    let arena ← get
    match arena.page.widen? extent with
    | none => Action.refuse .reserveWholeSpace
    | some pages => do
      let _ ← claim pages.base pages.length Alignment.any.bytes .forced
      pure ()

end Arena

end PhysicalMemory
