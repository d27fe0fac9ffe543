import PhysicalMemory.Proofs.Checked.Arena
import PhysicalMemory.Proofs.Checked.Sorting
import PhysicalMemory.Proofs.Firmware.Withholding

/-!
# Memory maps in slots

On a machine, a memory map is sorted and joined in the slots that it came in, and what has to be
withheld is worked out on words. Auditing a map, coalescing it and withholding by it then agree with
what the library does (`withhold_agrees`, `withholdLoader_agrees`, `adopt_agrees`): a gap begins below
a region and so at an address, and the memory above a map has a length because the map has a byte.
-/

namespace PhysicalMemory.Checked

open Firmware

variable {capacity : Nat} {σ τ : Type}

/-- The region before a position, if there is one. -/
def previous? (regions : List Region) (index : Nat) : Except Fault (Option Region) := do
  if 0 < index then return some (← slot regions (← difference index 1)) else return none

/-- What an audit finds in some of the regions of a map, from a position on, given the greatest stop
of the regions before them. -/
def findingsFrom (regions : List Region) (index covered : Nat) :
    List Region → Except Fault (List Finding)
  | [] => .ok []
  | region :: rest => do
    let place := placeFindings index (← previous? regions index) covered region
    let past ← runsPastTop region.extent
    let ending :=
      if past || (region.extent.endsAtTop && index + 1 != regions.length) then
        [.overflows index region]
      else []
    let later ← findingsFrom regions (index + 1) (max covered (← stop region.extent)) rest
    return place ++ ending ++ later

/-- What an audit finds in a memory map. -/
def findings (regions : List Region) : Except Fault (List Finding) := findingsFrom regions 0 0 regions

/-- Reports all findings, with the map when there are any, and fails when the map is unusable. -/
def audit (regions : List Region) : Checked σ Unit := do
  let found ← ofExcept (findings regions)
  ofAction do
    Action.emitAll (found.map Event.found)
    if !found.isEmpty then Firmware.list regions
    if found.any Finding.isFatal then Action.fail .invalidParameter

/-- The greatest stop of the regions that are not empty, if there are any. -/
def top? (regions : List Region) : Except Fault (Option Nat) := do
  let stops ← (regions.filter fun region => !region.extent.isEmpty).mapM fun region =>
    stop region.extent
  return stops.max?

/-- The memory from a position to the top of the address space. -/
def aboveTop (top : Nat) : Except Fault (List Withheld) := do
  if top < addressSpace then
    let base ← narrow top
    let length ← narrow (← difference addressSpace top)
    return [⟨⟨base, length⟩, .aboveMap⟩]
  else return []

/-- The gap between what is covered so far and the start of a region. -/
def gapBefore (covered : Nat) (region : Region) : Except Fault (List Withheld) := do
  if covered < region.extent.start then
    let base ← narrow covered
    let length ← narrow (← difference region.extent.start base.toNat)
    return [⟨⟨base, length⟩, .gap⟩]
  else return []

/-- The gaps between regions and the regions that are not granted, in ascending order, given what is
covered by the regions before them. -/
def sweep (covered : Nat) : List Region → Except Fault (List Withheld)
  | [] => .ok []
  | region :: rest => do
    if region.extent.isEmpty then sweep covered rest
    else
      let gap ← gapBefore covered region
      let later ← sweep (max covered (← stop region.extent)) rest
      return gap ++ ungranted region ++ later

/-- All that has to be withheld. It is worked out before any of it is, so that a fault in any piece
would show, even where a piece before it cannot be reserved. -/
def plan (top : Nat) (regions : List Region) : Except Fault (List Withheld) := do
  return (← aboveTop top) ++ (← sweep 0 regions)

/-- Reserves a piece of memory and reports it. -/
def withholdPiece (piece : Withheld) : Checked SlotArena Unit := do
  ofAction (Action.emit (.withholding piece))
  SlotArena.reserve piece.extent

/-- Withholds all that a memory map does not grant. -/
def withhold (regions : List Region) : Checked SlotArena Unit := do
  audit regions
  match ← ofExcept (top? regions) with
  | none => ofAction (Action.refuse .emptyMap)
  | some top => do
    let pieces ← ofExcept (plan top regions)
    forEach pieces withholdPiece
    let arena ← ofAction get
    let bytes ← ofExcept arena.table.byteCount
    ofAction (Action.emit (.withheld arena.table.count bytes))

/-- Withholds the memory of the boot loader. -/
def withholdLoader (regions : List Region) : Checked SlotArena Unit :=
  forEach (loaderPieces regions) withholdPiece

/-- The region joined with the next, when they can be joined. -/
def join? (region next : Region) : Except Fault (Option Region) := do
  if (← runsPastTop region.extent) || (← runsPastTop next.extent) then return none
  else if region.sameKind next && region.extent.meets next.extent then
    return (← hull? region.extent next.extent).map fun hull => { region with extent := hull }
  else return none

/-- Joins the region at an index with the last of those that are already joined, or puts it behind
them. -/
def joinAt (state : List Region × Nat) (index : Nat) : Except Fault (List Region × Nat) := do
  let next ← slot state.1 index
  let current ← slot state.1 state.2
  match ← join? current next with
  | some joined => return (← put state.1 state.2 joined, state.2)
  | none => return (← put state.1 (state.2 + 1) next, state.2 + 1)

/-- Brings a memory map into canonical form where it stands; the form takes as many slots as the
count says. -/
def coalesceInPlace (regions : List Region) : Except Fault (List Region × Nat) := do
  if regions.isEmpty then return (regions, 0)
  else
    let sorted ← sortInPlace Region.compareBases regions
    let joined ← (List.range' 1 (sorted.length - 1)).foldlM joinAt (sorted, 0)
    return (joined.1, joined.2 + 1)

/-- Reports the canonical form of a memory map. -/
def coalesce (regions : List Region) : Checked σ (List Region) := do
  let (slots, count) ← ofExcept (coalesceInPlace regions)
  ofAction (emitIf (regions.isEmpty = false) (.coalesced regions.length count))
  ofExcept (slice slots 0 count)

/-- Coalesces a memory map and withholds what it does not grant. -/
def adopt (regions : List Region) : Checked SlotArena (List Region) := do
  let canonicalMap ← coalesce regions
  withhold canonicalMap
  pure canonicalMap

/-- The region before a position is found without a fault. -/
theorem previous?_eq (front rest : List Region) :
    previous? (front ++ rest) front.length = .ok front.getLast? := by
  rcases List.eq_nil_or_concat front with rfl | ⟨earlier, before, rfl⟩
  · rfl
  · simp [previous?, difference_eq, slot]

/-- What an audit finds from a position on is found without a fault. -/
theorem findingsFrom_eq (front rest : List Region) (covered : Nat) :
    findingsFrom (front ++ rest) front.length covered rest =
      .ok (Firmware.findingsFrom front.length front.getLast? covered rest) := by
  induction rest generalizing front covered with
  | nil => rfl
  | cons region rest ih =>
    have hlast : (front.length + 1 != (front ++ region :: rest).length) = !rest.isEmpty := by
      rw [List.length_append, List.length_cons]
      cases rest <;> simp
    have hrest := ih (front ++ [region]) (max covered region.extent.stop)
    rw [List.append_assoc, List.singleton_append, List.length_append, List.length_singleton,
      List.getLast?_append] at hrest
    rw [findingsFrom, previous?_eq, ok_bind, runsPastTop_eq, ok_bind, stop_eq, ok_bind, hrest, ok_bind,
      hlast, Firmware.findingsFrom, stopFindings]
    rfl

/-- What an audit finds is found without a fault. -/
theorem findings_eq (regions : List Region) :
    findings regions = .ok (Firmware.findings regions) :=
  findingsFrom_eq [] regions 0

/-- An audit agrees with the library's. -/
theorem audit_agrees {R : τ → σ → Prop} {machine : τ} {state : σ} (h : R machine state)
    (regions : List Region) :
    Agrees R ((audit regions).run machine) ((Firmware.audit regions).run state) := by
  rw [audit, run_ofExcept_bind (findings_eq regions)]
  refine agrees_still h (run_audit regions machine) (run_audit regions state) fun reason => ?_
  split <;> simp

/-- The greatest stop is found without a fault. -/
theorem top?_eq (regions : List Region) : top? regions = .ok (Firmware.top? regions) := by
  have hstops : ∀ some : List Region, (some.mapM fun region => stop region.extent) =
      .ok (some.map fun region => region.extent.stop) := by
    intro some
    simp only [stop_eq]
    exact List.mapM_pure
  rw [top?, hstops, ok_bind]
  rfl

/-- The memory above a map that has a byte is found without a fault. -/
theorem aboveTop_eq {top : Nat} (h : 0 < top) : aboveTop top = .ok (Firmware.aboveTop top) := by
  rw [aboveTop, Firmware.aboveTop]
  split
  · rename_i htop
    rw [narrow_eq htop, ok_bind, difference_eq (Nat.le_of_lt htop), ok_bind,
      narrow_eq (by omega), ok_bind]
    rfl
  · rfl

/-- Above a map without a byte there would be more bytes than a word can count. -/
example : aboveTop 0 = .error .overflow := rfl

/-- The gap before a region is found without a fault. -/
theorem gapBefore_eq (covered : Nat) (region : Region) :
    gapBefore covered region = .ok (Firmware.gapBefore covered region) := by
  rw [gapBefore, Firmware.gapBefore]
  split
  · rename_i hgap
    have hstart := region.extent.start_lt
    have hbase : (UInt64.ofNat covered).toNat = covered :=
      UInt64.toNat_ofNat_of_lt' (show covered < addressSpace by omega)
    rw [narrow_eq (by omega), ok_bind, hbase, difference_eq (Nat.le_of_lt hgap), ok_bind,
      narrow_eq (by omega), ok_bind]
    rfl
  · rfl

/-- What has to be withheld below the top is found without a fault. -/
theorem sweep_eq (covered : Nat) (regions : List Region) :
    sweep covered regions = .ok (Firmware.sweep covered regions) := by
  induction regions generalizing covered with
  | nil => rfl
  | cons region rest ih =>
    rw [sweep, Firmware.sweep]
    split
    · exact ih covered
    · rw [gapBefore_eq, ok_bind, stop_eq, ok_bind, ih, ok_bind]
      rfl

/-- What has to be withheld is found without a fault. -/
theorem plan_eq {top : Nat} {regions : List Region} (h : Firmware.top? regions = some top) :
    plan top regions = .ok (Firmware.plan top regions) := by
  have hpos : 0 < top := by
    obtain ⟨⟨region, -, hne, rfl⟩, -⟩ := top?_eq_some_iff.mp h
    exact lt_of_le_of_lt (Nat.zero_le _) (Extent.isEmpty_eq_false_iff.mp hne)
  rw [plan, aboveTop_eq hpos, ok_bind, sweep_eq, ok_bind]
  rfl

/-- Joining two regions has no fault. -/
@[simp]
theorem join?_eq (region next : Region) : join? region next = .ok (region.join? next) := by
  simp only [join?, Region.join?, runsPastTop_eq, hull?_eq, ok_bind, pure_eq_ok]
  split
  · rfl
  · split <;> rfl

/-- Some regions are joined already, and the last of these is not done with; others are left over
behind them. The next region is joined with that last one and left over too, or it takes the place
behind it, which is its own when nothing is left over. -/
theorem joinAt_eq (front stale rest : List Region) (current next : Region) :
    ∃ left, left.length = stale.length ∧
      joinAt (front ++ current :: stale ++ next :: rest, front.length)
          (front.length + 1 + stale.length) =
        .ok (match current.join? next with
          | some joined => (front ++ joined :: (stale ++ [next]) ++ rest, front.length)
          | none => ((front ++ [current]) ++ next :: left ++ rest, front.length + 1)) := by
  obtain ⟨old, left, hleft⟩ := List.exists_cons_of_ne_nil
    (List.append_ne_nil_of_right_ne_nil stale (List.cons_ne_nil next []))
  have hnext : slot (front ++ current :: stale ++ next :: rest)
      (front.length + 1 + stale.length) = .ok next := by
    have hlength : front.length + 1 + stale.length = (front ++ current :: stale).length := by
      simp only [List.length_append, List.length_cons]
      omega
    rw [hlength]
    exact slot_append (front ++ current :: stale) next rest
  have hslots : front ++ current :: stale ++ next :: rest =
      front ++ current :: (stale ++ [next] ++ rest) := by
    simp
  refine ⟨left, by simpa using (congrArg List.length hleft).symm, ?_⟩
  rw [joinAt]
  dsimp only
  rw [hnext, ok_bind, hslots, slot_append, ok_bind, join?_eq, ok_bind]
  cases current.join? next with
  | some joined =>
    dsimp only
    rw [put_append]
    simp
  | none =>
    have hplace : front ++ current :: (stale ++ [next] ++ rest) =
        (front ++ [current]) ++ old :: (left ++ rest) := by
      rw [hleft]
      simp
    have hlength : front.length + 1 = (front ++ [current]).length := by simp
    dsimp only
    rw [hplace, hlength, put_append]
    simp

/-- Joining the regions behind those that are joined already has no fault, leaves their runs and fills
the same slots. -/
theorem foldlM_joinAt (rest front stale : List Region) (current : Region) :
    ∃ spare last, (List.range' (front.length + 1 + stale.length) rest.length).foldlM joinAt
        (front ++ current :: stale ++ rest, front.length) =
          .ok (front ++ joinRuns current rest ++ spare, last) ∧
      last + 1 = (front ++ joinRuns current rest).length ∧
      (joinRuns current rest).length + spare.length = 1 + stale.length + rest.length := by
  induction rest generalizing front stale current with
  | nil =>
    exact ⟨stale, front.length, by simp [joinRuns], by simp [joinRuns], by simp [joinRuns]⟩
  | cons next rest ih =>
    obtain ⟨left, hleft, hjoin⟩ := joinAt_eq front stale rest current next
    rw [List.length_cons, List.range'_succ, List.foldlM_cons, hjoin, ok_bind, joinRuns]
    cases current.join? next with
    | some joined =>
      obtain ⟨spare, last, hrest, hlast, hslots⟩ := ih front (stale ++ [next]) joined
      rw [List.length_append, List.length_singleton] at hslots
      rw [List.length_append, List.length_singleton, ← Nat.add_assoc] at hrest
      exact ⟨spare, last, hrest, hlast, hslots.trans (by omega)⟩
    | none =>
      obtain ⟨spare, last, hrest, hlast, hslots⟩ := ih (front ++ [current]) left next
      rw [List.length_append, List.length_singleton, hleft, Nat.add_right_comm] at hrest
      refine ⟨spare, last, by simpa using hrest, by simpa using hlast, ?_⟩
      rw [List.length_cons]
      omega

/-- Coalescing a map in place has no fault and leaves its canonical form in the first of its slots. -/
theorem coalesceInPlace_eq (regions : List Region) :
    ∃ spare, coalesceInPlace regions =
        .ok (canonical regions ++ spare, (canonical regions).length) ∧
      (canonical regions).length + spare.length = regions.length := by
  have hlength : (ordered regions).length = regions.length := Sorting.length_sortBy _ _
  rw [coalesceInPlace, canonical]
  cases hsorted : ordered regions with
  | nil =>
    obtain rfl : regions = [] := by simpa [hsorted] using hlength.symm
    exact ⟨[], rfl, rfl⟩
  | cons first rest =>
    obtain ⟨spare, last, hjoined, hlast, hslots⟩ := foldlM_joinAt rest [] [] first
    have hne : regions.isEmpty = false := by
      rw [List.isEmpty_eq_false_iff, ← List.length_pos_iff, ← hlength, hsorted]
      exact Nat.succ_pos _
    have hsort : Sorting.sortBy Region.compareBases regions = first :: rest := hsorted
    have hfold : (List.range' 1 ((first :: rest).length - 1)).foldlM joinAt (first :: rest, 0) =
        .ok (joinRuns first rest ++ spare, last) := hjoined
    refine ⟨spare, ?_, ?_⟩
    · rw [hne, if_neg (by simp), sortInPlace_eq, ok_bind, hsort, hfold, ok_bind, pure_eq_ok, joined]
      exact congrArg (fun count => Except.ok (joinRuns first rest ++ spare, count)) hlast
    · rw [joined, ← hlength, hsorted, hslots, List.length_nil, List.length_cons]
      omega

/-- Coalescing agrees with the library's. -/
theorem coalesce_agrees {R : τ → σ → Prop} {machine : τ} {state : σ} (h : R machine state)
    (regions : List Region) :
    Agrees R ((coalesce regions).run machine) ((Firmware.coalesce regions).run state) := by
  obtain ⟨spare, hmap, -⟩ := coalesceInPlace_eq regions
  have hslice := slice_front (canonical regions) spare
  rw [coalesce, run_ofExcept_bind hmap, run_coalesce]
  dsimp only
  rw [run_ofAction_bind (run_emitIf _ _ machine), run_ofExcept hslice]
  refine ⟨machine, ?_, h, by simp⟩
  cases regions.isEmpty <;> rfl

/-- Withholding a piece agrees with the library's. -/
theorem withholdPiece_agrees (piece : Withheld) (slotted : SlotArena) (arena : Arena capacity)
    (h : slotted.Holds arena) :
    Agrees SlotArena.Holds ((withholdPiece piece).run slotted)
      ((Firmware.withholdPiece piece).run arena) := by
  have hemit : Agrees SlotArena.Holds
      ((ofAction (Action.emit (.withholding piece))).run slotted)
      ((Action.emit (.withholding piece) : Action (Arena capacity) Unit).run arena) :=
    agrees_still h rfl rfl (by simp)
  exact hemit.bind fun _ left _ hleft => SlotArena.reserve_agrees hleft piece.extent

variable {slotted : SlotArena} {arena : Arena capacity}

/-- Withholding the boot loader's memory agrees with the library's. -/
theorem withholdLoader_agrees (h : slotted.Holds arena) (regions : List Region) :
    Agrees SlotArena.Holds ((withholdLoader regions).run slotted)
      ((Firmware.withholdLoader regions).run arena) :=
  agrees_forEach withholdPiece_agrees (loaderPieces regions) h

/-- Withholding by a map agrees with the library's. -/
theorem withhold_agrees (h : slotted.Holds arena) (regions : List Region) :
    Agrees SlotArena.Holds ((withhold regions).run slotted)
      ((Firmware.withhold regions).run arena) := by
  rw [withhold, Firmware.withhold]
  refine (audit_agrees h regions).bind fun _ left _ hleft => ?_
  rw [run_ofExcept_bind (top?_eq regions)]
  cases htop : Firmware.top? regions with
  | none => exact agrees_still hleft rfl rfl (by simp)
  | some top =>
    dsimp only
    rw [run_ofExcept_bind (plan_eq htop)]
    refine (agrees_forEach withholdPiece_agrees _ hleft).bind fun _ last _ hlast => ?_
    rw [run_get_bind, run_ofExcept_bind (hlast.table_holds.byteCount_eq hlast.wellFormed),
      hlast.table_holds.count_eq]
    exact agrees_still hlast rfl rfl (by simp)

/-- Adopting a map agrees with the library's. -/
theorem adopt_agrees (h : slotted.Holds arena) (regions : List Region) :
    Agrees SlotArena.Holds ((adopt regions).run slotted)
      ((Firmware.adopt regions).run arena) := by
  rw [adopt, Firmware.adopt]
  refine (coalesce_agrees h regions).bind fun canonicalMap left _ hleft => ?_
  exact (withhold_agrees hleft canonicalMap).bind fun _ last _ hlast =>
    agrees_pure hlast canonicalMap

end PhysicalMemory.Checked
