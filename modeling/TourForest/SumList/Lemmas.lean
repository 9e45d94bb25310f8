import TourForest.SkipList.Lemmas
import TourForest.SumList.Basic

/-!
# Reading a list with sums after a change

Values, marks and links are kept apart: setting one of them is read back, and leaves the other two
as they were.
-/

namespace TourForest.SumList

variable (a : SumList) (u v k j : Nat) (value : Int) (mark : Option Nat)

@[simp] theorem list_setValue : (a.setValue u k value).list = a.list := rfl

@[simp] theorem list_setMark : (a.setMark u mark).list = a.list := rfl

@[simp] theorem list_detach : (a.detach u value).list = a.list.detach u := rfl

@[simp] theorem markAt_setValue : (a.setValue u k value).markAt v = a.markAt v := rfl

@[simp] theorem valueAt_setMark : (a.setMark u mark).valueAt v j = a.valueAt v j := rfl

theorem valueAt_setValue :
    (a.setValue u k value).valueAt v j =
      if v = u ∧ j = k ∧ k < a.depth u then value else a.valueAt v j := by
  unfold setValue valueAt depth
  dsimp only
  rw [Array.getElem?_modify]
  by_cases hv : u = v
  · subst hv
    cases a.sums[u]? with
    | none => simp
    | some x =>
      by_cases hj : k = j
      · subst hj
        by_cases hk : k < x.levels.size <;> simp [hk]
      · simp [hj, Ne.symm hj]
  · simp [hv, Ne.symm hv]

@[simp] theorem depth_setValue : (a.setValue u k value).depth v = a.depth v := by
  unfold setValue depth
  dsimp only
  rw [Array.getElem?_modify]
  split
  · cases a.sums[v]? <;> simp
  · rfl

@[simp] theorem depth_setMark : (a.setMark u mark).depth v = a.depth v := rfl

theorem markAt_setMark :
    (a.setMark u mark).markAt v = if v = u ∧ u < a.marks.size then mark else a.markAt v := by
  unfold setMark markAt
  dsimp only
  rw [Array.getD_eq_getD_getElem?, Array.getD_eq_getD_getElem?, Array.getElem?_setIfInBounds]
  by_cases hv : u = v
  · subst hv
    by_cases hu : u < a.marks.size <;> simp [hu]
  · simp [hv, Ne.symm hv]

theorem markAt_detach :
    (a.detach u value).markAt v = if v = u then none else a.markAt v := by
  unfold detach markAt
  dsimp only
  rw [Array.getD_eq_getD_getElem?, Array.getD_eq_getD_getElem?, Array.getElem?_setIfInBounds]
  by_cases hv : u = v
  · subst hv
    by_cases hu : u < a.marks.size <;> simp [hu]
  · simp [hv, Ne.symm hv]

theorem valueAt_detach :
    (a.detach u value).valueAt v j = if v = u ∧ j < a.depth u then value else a.valueAt v j := by
  unfold detach valueAt depth
  dsimp only
  rw [Array.getElem?_modify]
  by_cases hv : u = v
  · subst hv
    cases a.sums[u]? with
    | none => simp
    | some x => by_cases hj : j < x.levels.size <;> simp [hj]
  · simp [hv, Ne.symm hv]

end TourForest.SumList
