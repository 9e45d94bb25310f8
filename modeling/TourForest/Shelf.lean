/-!
# Shelves

A `Shelf` holds arrays that wait to be used again, and gives them out in the order in which they
were put on it. It keeps the longest waiting ones in `front`, the next one first, and the others in
`back`, the latest one first, so that both ends are at hand. `toList` is the order in which the
arrays will be given out.
-/

namespace TourForest

/-- Arrays waiting in a row. -/
structure Shelf (α : Type) where
  front : List (Array α)
  back : List (Array α)

namespace Shelf

variable {α : Type}

/-- A shelf with nothing on it. -/
def empty : Shelf α := ⟨[], []⟩

/-- The arrays, the longest waiting first. -/
def toList (s : Shelf α) : List (Array α) := s.front ++ s.back.reverse

/-- The number of arrays. -/
def size (s : Shelf α) : Nat := s.front.length + s.back.length

/-- Puts an array behind all others. -/
def put (s : Shelf α) (a : Array α) : Shelf α := ⟨s.front, a :: s.back⟩

/-- Takes the longest waiting array. -/
def take? (s : Shelf α) : Option (Array α × Shelf α) :=
  match s.front with
  | a :: front => some (a, ⟨front, s.back⟩)
  | [] =>
    match s.back.reverse with
    | a :: front => some (a, ⟨front, []⟩)
    | [] => none

/-! ## The row after a change -/

@[simp] theorem toList_empty : (empty : Shelf α).toList = [] := rfl

@[simp] theorem toList_put (s : Shelf α) (a : Array α) : (s.put a).toList = s.toList ++ [a] := by
  simp [put, toList]

theorem length_toList (s : Shelf α) : s.toList.length = s.size := by
  simp [toList, size]

/-- The array that is taken was the first of the row. -/
theorem toList_of_take? {s t : Shelf α} {a : Array α} (h : s.take? = some (a, t)) :
    s.toList = a :: t.toList := by
  unfold take? at h
  unfold toList
  split at h
  next hf =>
    obtain ⟨rfl, rfl⟩ := Prod.mk.inj (Option.some.inj h)
    rw [hf, List.cons_append]
  next hf =>
    split at h
    next hb =>
      obtain ⟨rfl, rfl⟩ := Prod.mk.inj (Option.some.inj h)
      rw [hf, hb, List.reverse_nil, List.append_nil, List.nil_append]
    next => contradiction

/-- Nothing can be taken from an empty row only. -/
theorem take?_eq_none_iff {s : Shelf α} : s.take? = none ↔ s.toList = [] := by
  constructor
  · intro h
    unfold take? at h
    split at h
    next => contradiction
    next hf =>
      split at h
      next => contradiction
      next hb => rw [toList, hf, hb, List.nil_append]
  · intro h
    cases ht : s.take? with
    | none => rfl
    | some x => exact absurd (toList_of_take? ht ▸ h) (List.cons_ne_nil x.1 x.2.toList)

end Shelf

end TourForest
