import PhysicalMemory.Proofs.Firmware.Plans
import PhysicalMemory.Proofs.Runs

/-!
# Regions without a byte

Firmware may report regions that are empty. What is withheld by a map does not depend on them: the
position that the map reaches up to and the sweep over its regions both pass them over, so a map with
empty regions put in (`Padded`) has the same plan. An audit looks at positions in the list, though,
and an empty region has one. Put in behind a last region that ends at the top (`Buries`), it is the
last itself, and the map is refused; that is the only case in which it matters
(`withhold_padded`).
-/

namespace PhysicalMemory.Firmware

variable {capacity : Nat} {map padded : List Region} {region : Region}

/-- An empty region does not reach the top of the address space. -/
theorem stop_lt_of_isEmpty (hempty : region.extent.isEmpty = true) :
    region.extent.stop < addressSpace := by
  rw [Extent.stop_eq_start_of_isEmpty hempty]
  exact region.extent.start_lt

/-- The second map is the first with empty regions put in, anywhere. -/
inductive Padded : List Region → List Region → Prop where
  /-- Nothing is put into the empty map. -/
  | nil : Padded [] []
  /-- A region of the map is kept. -/
  | keep {map padded : List Region} (region : Region) :
    Padded map padded → Padded (region :: map) (region :: padded)
  /-- An empty region is put in. -/
  | put {map padded : List Region} {region : Region} :
    region.extent.isEmpty = true → Padded map padded → Padded map (region :: padded)

/-- The last region of a map ends at the top of the address space, and the last of the padded map is
empty: it was put in behind that region. -/
def Buries (map padded : List Region) : Prop :=
  (∃ last ∈ map.getLast?, last.extent.stop = addressSpace) ∧
    ∃ last ∈ padded.getLast?, last.extent.isEmpty = true

/-- Nothing is buried in an empty map. -/
theorem not_buries_nil : ¬Buries [] padded := by
  simp [Buries]

/-- Nothing is buried where nothing is put in. -/
theorem not_buries_self : ¬Buries map map := by
  rintro ⟨⟨last, hlast, htop⟩, last', hlast', hempty⟩
  obtain rfl : last = last' := Option.some.inj (hlast.symm.trans hlast')
  exact Nat.ne_of_lt (stop_lt_of_isEmpty hempty) htop

/-- A region that is kept as the only one is buried when it ends at the top and others are put in
behind it. -/
theorem buries_singleton (hpadded : padded ≠ []) : Buries [region] (region :: padded) ↔
    region.extent.stop = addressSpace ∧ ∃ last ∈ padded.getLast?, last.extent.isEmpty = true := by
  obtain ⟨first, rest, rfl⟩ := List.exists_cons_of_ne_nil hpadded
  simp [Buries, List.getLast?_cons_cons]

/-- Whether a region is buried does not depend on what comes before it. -/
theorem buries_cons_cons (hmap : map ≠ []) (hpadded : padded ≠ []) :
    Buries (region :: map) (region :: padded) ↔ Buries map padded := by
  obtain ⟨first, rest, rfl⟩ := List.exists_cons_of_ne_nil hmap
  obtain ⟨first', rest', rfl⟩ := List.exists_cons_of_ne_nil hpadded
  simp [Buries, List.getLast?_cons_cons]

/-- Nor does it depend on an empty region that is put in before others. -/
theorem buries_cons (hpadded : padded ≠ []) :
    Buries map (region :: padded) ↔ Buries map padded := by
  obtain ⟨first, rest, rfl⟩ := List.exists_cons_of_ne_nil hpadded
  simp [Buries, List.getLast?_cons_cons]

/-- A map of empty regions is usable when it is in ascending order. -/
theorem usable_of_isEmpty (hempty : ∀ region ∈ map, region.extent.isEmpty = true)
    (hascending : map.Pairwise fun earlier later =>
      earlier.extent.start ≤ later.extent.start) : Usable map :=
  ⟨hascending, fun r hr => Nat.le_of_lt (stop_lt_of_isEmpty (hempty r hr)),
    fun r hr => Nat.ne_of_lt (stop_lt_of_isEmpty (hempty r (List.mem_of_mem_dropLast hr)))⟩

namespace Padded

/-- A padded map has regions when the map has. -/
theorem ne_nil (h : Padded map padded) (hmap : map ≠ []) : padded ≠ [] := by
  cases h with
  | nil => exact absurd rfl hmap
  | keep => exact List.cons_ne_nil _ _
  | put => exact List.cons_ne_nil _ _

/-- The regions of the map are in a padded map. -/
theorem mem (h : Padded map padded) (hregion : region ∈ map) : region ∈ padded := by
  induction h with
  | nil => exact hregion
  | keep _ _ ih =>
    rcases List.mem_cons.mp hregion with rfl | hrest
    · exact List.mem_cons_self
    · exact List.mem_cons_of_mem _ (ih hrest)
  | put _ _ ih => exact List.mem_cons_of_mem _ (ih hregion)

/-- All regions that are put into an empty map are empty. -/
theorem isEmpty_of_mem (h : Padded [] padded) (hregion : region ∈ padded) :
    region.extent.isEmpty = true := by
  generalize hmap : ([] : List Region) = map at h
  induction h with
  | nil => exact absurd hregion List.not_mem_nil
  | keep => exact absurd hmap (by simp)
  | put hempty _ ih =>
    rcases List.mem_cons.mp hregion with rfl | hrest
    · exact hempty
    · exact ih hrest hmap

/-- A padded map reaches up to the same position. -/
theorem top?_eq (h : Padded map padded) : top? padded = top? map := by
  have hfilter : (padded.filter fun region => !region.extent.isEmpty) =
      map.filter fun region => !region.extent.isEmpty := by
    induction h with
    | nil => rfl
    | keep region _ ih => simp only [List.filter_cons, ih]
    | put hempty _ ih => rw [List.filter_cons_of_neg (by simp [hempty]), ih]
  rw [top?, top?, hfilter]

/-- The sweep over a padded map makes the same pieces. -/
theorem sweep_eq (h : Padded map padded) (covered : Nat) :
    sweep covered padded = sweep covered map := by
  induction h generalizing covered with
  | nil => rfl
  | keep region _ ih => simp only [sweep, ih]
  | put hempty _ ih => rw [sweep_cons_of_isEmpty hempty, ih]

/-- The plan that follows from a padded map is the same. -/
theorem plan_eq (h : Padded map padded) (top : Nat) : plan top padded = plan top map := by
  rw [plan, plan, h.sweep_eq]

/-- A padded map in ascending order is usable exactly when the map is and no region is buried. -/
theorem usable_iff (h : Padded map padded)
    (hascending : padded.Pairwise fun earlier later =>
      earlier.extent.start ≤ later.extent.start) :
    Usable padded ↔ Usable map ∧ ¬Buries map padded := by
  induction h with
  | nil => exact (and_iff_left not_buries_nil).symm
  | @keep map padded region hrest ih =>
    obtain ⟨hfirst, hothers⟩ := List.pairwise_cons.mp hascending
    have hnext : ∀ next ∈ padded.head?, region.extent.start ≤ next.extent.start :=
      fun next hnext => hfirst next (List.mem_of_mem_head? hnext)
    have hmapNext : ∀ next ∈ map.head?, region.extent.start ≤ next.extent.start :=
      fun next hnext => hfirst next (hrest.mem (List.mem_of_mem_head? hnext))
    rw [usable_cons, usable_cons, ih hothers]
    rcases eq_or_ne map [] with rfl | hmap
    · -- Behind the only region that is kept, all regions are empty.
      have hnil : Usable [] := usable_of_isEmpty (by simp) .nil
      rcases eq_or_ne padded [] with rfl | hpadded
      · simp [hnil, not_buries_self]
      · have hlast : (padded.getLast hpadded).extent.isEmpty = true :=
          hrest.isEmpty_of_mem (List.getLast_mem hpadded)
        simpa [hnil, hpadded, not_buries_nil, buries_singleton hpadded,
          List.getLast?_eq_some_getLast hpadded, hlast] using fun _ _ => hnext
    · have hpadded := hrest.ne_nil hmap
      rw [buries_cons_cons hmap hpadded, List.isEmpty_eq_false_iff.mpr hmap,
        List.isEmpty_eq_false_iff.mpr hpadded]
      simp only [iff_true_intro hnext, iff_true_intro hmapNext, true_and, and_assoc]
  | @put map padded region hempty hrest ih =>
    obtain ⟨hfirst, hothers⟩ := List.pairwise_cons.mp hascending
    have hlt := stop_lt_of_isEmpty hempty
    have hcons : Usable (region :: padded) ↔ Usable padded := by
      rw [usable_cons]
      refine ⟨fun h => h.2.2, fun h => ⟨?_, ⟨Nat.le_of_lt hlt, fun _ => Nat.ne_of_lt hlt⟩, h⟩⟩
      exact fun next hnext => hfirst next (List.mem_of_mem_head? hnext)
    rw [hcons, ih hothers]
    cases hrest with
    | nil => simp [not_buries_nil]
    | keep kept hrest => rw [buries_cons (List.cons_ne_nil _ _)]
    | put hempty' hrest => rw [buries_cons (List.cons_ne_nil _ _)]

end Padded

/-- Withholding by a map and by the map with empty regions put in, both in ascending order, ends in
the same way and leaves the same arena; but when an empty region was put in behind a last region
that ends at the top, the padded map is refused as invalid and the arena left alone. -/
theorem withhold_padded (arena : Arena capacity) (hpadded : Padded map padded)
    (hascending : padded.Pairwise fun earlier later =>
      earlier.extent.start ≤ later.extent.start) :
    (¬Buries map padded →
      ((withhold padded).run arena).outcome = ((withhold map).run arena).outcome ∧
        ((withhold padded).run arena).state = ((withhold map).run arena).state) ∧
    (Buries map padded →
      ((withhold padded).run arena).outcome = .failed .invalidParameter ∧
        ((withhold padded).run arena).state = arena) := by
  have husable := hpadded.usable_iff hascending
  rcases withhold_cases arena padded with
    ⟨hnot, log, hrun⟩ | ⟨hpaddedUsable, top, htop, events, hrun⟩
  · refine ⟨fun hfree => ?_, fun _ => by rw [hrun]; exact ⟨rfl, rfl⟩⟩
    rcases withhold_cases arena map with ⟨-, log', hrun'⟩ | ⟨hmap, top, htop, -⟩
    · rw [hrun, hrun']
      exact ⟨rfl, rfl⟩
    · exact absurd ⟨husable.mpr ⟨hmap, hfree⟩, by rw [hpadded.top?_eq, htop]; rfl⟩ hnot
  · obtain ⟨hmap, hfree⟩ := husable.mp hpaddedUsable
    refine ⟨fun _ => ?_, fun hburies => absurd hburies hfree⟩
    rw [hpadded.top?_eq] at htop
    rcases withhold_cases arena map with ⟨hnot, -⟩ | ⟨-, top', htop', events', hrun'⟩
    · exact absurd ⟨hmap, by rw [htop]; rfl⟩ hnot
    · -- Both carry out the same plan, and only what the audits report is different.
      obtain rfl := Option.some.inj (htop'.symm.trans htop)
      rw [hrun, hrun', hpadded.plan_eq]
      exact ⟨rfl, rfl⟩

/-- Empty regions at the start of a map, between its regions, at the base of one and above all of
them change nothing; a single one behind a region that ends at the top makes the map be refused. -/
theorem withhold_padded_everywhere :
    let low : Region := ⟨⟨0, 0x3000⟩, .available, 1⟩
    let high : Region := ⟨⟨0x2000, 0x1000⟩, .reserved, 1⟩
    let tall : Region := ⟨⟨0x1000, 0xfffffffffffff000⟩, .available, 1⟩
    let emptyAt (base : UInt64) : Region := ⟨⟨base, 0⟩, .reserved, 0⟩
    let arena : Arena 4 := .empty .ofPlatform false
    let padded := [emptyAt 0, low, emptyAt 0x1000, high, emptyAt 0x2000, emptyAt 0x9000]
    (((withhold padded).run arena).outcome = .done () ∧
      ((withhold padded).run arena).state.claims.entries = [⟨0x2000, 0xffffffffffffe000⟩]) ∧
    ((withhold [tall, emptyAt 0x2000]).run arena).outcome = .failed .invalidParameter ∧
      ((withhold [tall, emptyAt 0x2000]).run arena).state = arena := by
  intro low high tall emptyAt arena padded
  have hempty : ∀ base, (emptyAt base).extent.isEmpty = true := fun _ => rfl
  have hpadded : Padded [low, high] padded :=
    .put (hempty _) (.keep _ (.put (hempty _) (.keep _ (.put (hempty _) (.put (hempty _) .nil)))))
  have hburied : Padded [tall] [tall, emptyAt 0x2000] := .keep _ (.put (hempty _) .nil)
  refine ⟨?_, (withhold_padded arena hburied (by decide)).2
    ⟨⟨tall, rfl, by decide⟩, emptyAt 0x2000, rfl, rfl⟩⟩
  obtain ⟨houtcome, hstate⟩ := (withhold_padded arena hpadded (by decide)).1 (by
    rintro ⟨⟨last, hlast, htop⟩, -⟩
    obtain rfl : high = last := Option.some.inj hlast
    exact absurd htop (by decide))
  rw [houtcome, hstate]
  exact ⟨by decide +kernel, by decide +kernel⟩

/-- Empty regions are not always ignored: behind a region that ends at the top of the address space,
one of another usage makes a map be refused that is accepted without it. The map of the two is in
canonical form, so it is refused as well when it is adopted. -/
theorem not_forall_withhold_padded :
    (¬∀ (capacity : Nat) (arena : Arena capacity) (map padded : List Region),
      arena.Reachable → Padded map padded →
      (padded.Pairwise fun earlier later => earlier.extent.start ≤ later.extent.start) →
        ((withhold padded).run arena).outcome = ((withhold map).run arena).outcome ∧
          ((withhold padded).run arena).state.claims =
            ((withhold map).run arena).state.claims) ∧
    let tall : Region := ⟨⟨0x1000, 0xfffffffffffff000⟩, .available, 1⟩
    let behind : Region := ⟨⟨0x2000, 0⟩, .reserved, 1⟩
    let arena : Arena 8 := .empty .ofPlatform false
    canonical [tall, behind] = [tall, behind] ∧
      ((adopt [tall]).run arena).outcome = .done [tall] ∧
      ((adopt [tall, behind]).run arena).outcome = .failed .invalidParameter := by
  let tall : Region := ⟨⟨0x1000, 0xfffffffffffff000⟩, .available, 1⟩
  let behind : Region := ⟨⟨0x2000, 0⟩, .reserved, 1⟩
  let arena : Arena 8 := .empty .ofPlatform false
  refine ⟨fun h => ?_, by decide +kernel, by decide +kernel, by decide +kernel⟩
  have hpadded : Padded [tall] [tall, behind] := .keep _ (.put rfl .nil)
  have hrefused : ((withhold [tall, behind]).run arena).outcome = .failed .invalidParameter := by
    decide +kernel
  have hdone : ((withhold [tall]).run arena).outcome = .done () := by
    decide +kernel
  have hsame := (h 8 arena _ _ (.start _ _) hpadded (by decide)).1
  exact absurd (hrefused.symm.trans (hsame.trans hdone)) (by simp)

end PhysicalMemory.Firmware
