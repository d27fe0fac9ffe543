import PhysicalMemory.Proofs.Checked.Words

/-!
# Checked slots

On a machine without a heap, records live in slots that are there from the start. A slot is named by
its position, records are moved by copying some slots over others, and a position without a slot is
a `Fault`. Sums of positions need no check of their own: each is used as a position right away, and
so it is no more than the number of slots. Moving records apart to put one between them has no fault
(`copyWithin_put`), and neither has moving one in front of those before it (`rotate_append`).
-/

namespace PhysicalMemory.Checked

variable {α : Type}

/-- The record in the slot at a position. -/
def slot (slots : List α) (position : Nat) : Except Fault α :=
  match slots[position]? with
  | some record => .ok record
  | none => .error .outOfRange

/-- The slots with a record put into the one at a position. -/
def put (slots : List α) (position : Nat) (record : α) : Except Fault (List α) :=
  if position < slots.length then .ok (slots.set position record) else .error .outOfRange

/-- The records in the slots from one position to another. -/
def slice (slots : List α) (first last : Nat) : Except Fault (List α) :=
  if first ≤ last ∧ last ≤ slots.length then .ok ((slots.take last).drop first)
  else .error .outOfRange

/-- The slots with the records from one position to another copied to the slots from a third on. -/
def copyWithin (slots : List α) (first last target : Nat) : Except Fault (List α) := do
  let records ← slice slots first last
  if target + records.length ≤ slots.length then
    return slots.take target ++ records ++ slots.drop (target + records.length)
  else .error .outOfRange

/-- The slots with the last record from one position to another moved in front of those before it. -/
def rotate (slots : List α) (first last : Nat) : Except Fault (List α) := do
  let records ← slice slots first last
  if records.isEmpty then .error .outOfRange
  else return slots.take first ++ records.rotateRight 1 ++ slots.drop last

/-- The slot behind some records holds the next one. -/
theorem slot_append (front : List α) (record : α) (back : List α) :
    slot (front ++ record :: back) front.length = .ok record := by
  simp [slot]

/-- A record takes the place of another. -/
theorem put_append (front : List α) (record new : α) (back : List α) :
    put (front ++ record :: back) front.length new = .ok (front ++ new :: back) := by
  simp [put]

/-- The slots between some others hold the records there. -/
theorem slice_append (front records back : List α) {first last : Nat}
    (hfirst : first = front.length) (hlast : last = front.length + records.length) :
    slice (front ++ records ++ back) first last = .ok records := by
  subst hfirst hlast
  rw [slice, if_pos (by simp only [List.length_append]; omega)]
  simp [List.take_append]

/-- The slots from the first on hold the records there. -/
theorem slice_front (records back : List α) :
    slice (records ++ back) 0 records.length = .ok records := by
  simpa using slice_append [] records back rfl (by simp)

/-- Some records are moved behind a position and a record is put there: it stands before them. -/
theorem copyWithin_put {slots records : List α} {first last position : Nat}
    (hrecords : slice slots first last = .ok records)
    (hroom : position + 1 + records.length ≤ slots.length) (record : α) :
    (do put (← copyWithin slots first last (position + 1)) position record) =
      .ok (slots.take position ++ record :: records ++
        slots.drop (position + 1 + records.length)) := by
  have hfront : (slots.take (position + 1)).take position = slots.take position := by
    rw [List.take_take, Nat.min_eq_left (Nat.le_succ position)]
  have hlength : (slots.take (position + 1)).length = position + 1 :=
    List.length_take_of_le (by omega)
  rw [copyWithin, hrecords, ok_bind, if_pos hroom, pure_eq_ok, ok_bind, put,
    if_pos (by simp only [List.length_append, hlength]; omega), List.append_assoc,
    List.set_append_left _ _ (by omega), List.set_eq_take_append_cons_drop, if_pos (by omega),
    hfront, List.drop_of_length_le hlength.le, List.append_assoc, List.append_assoc]
  rfl

/-- The last record moves in front of those before it. -/
theorem rotateRight_append_singleton (records : List α) (record : α) :
    (records ++ [record]).rotateRight 1 = record :: records := by
  cases records with
  | nil => rfl
  | cons first rest => simp [List.rotateRight]

/-- Between some others, the last record moves in front of those before it. -/
theorem rotate_append (front records : List α) (record : α) (back : List α) {first last : Nat}
    (hfirst : first = front.length) (hlast : last = front.length + (records.length + 1)) :
    rotate (front ++ (records ++ [record]) ++ back) first last =
      .ok (front ++ record :: records ++ back) := by
  have hlast' : last = front.length + (records ++ [record]).length := by simpa using hlast
  have hdrop : (front ++ (records ++ [record]) ++ back).drop last = back :=
    List.drop_left' (by simpa using hlast.symm)
  rw [rotate, slice_append _ _ _ hfirst hlast', ok_bind, if_neg (by simp),
    rotateRight_append_singleton, hdrop, List.append_assoc front, List.take_left' hfirst.symm]
  rfl

end PhysicalMemory.Checked
