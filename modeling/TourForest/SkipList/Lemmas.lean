import TourForest.SkipList.Basic

/-!
# Reading a skip list after a change

How `size`, `height`, `nextAt` and `prevAt` read an arena after one link was set or one element was
detached. A link that is set is read back where the element reaches the level, all other links and
all heights are as before.
-/

namespace TourForest.SkipList

variable (s : SkipList) (u v k j : Nat) (x : Option Nat)

/-! ## Shape -/

@[simp] theorem size_modifyLinks (f : Links → Links) : (s.modifyLinks u k f).size = s.size := by
  simp [modifyLinks, size]

@[simp] theorem height_modifyLinks (f : Links → Links) :
    (s.modifyLinks u k f).height v = s.height v := by
  unfold modifyLinks height
  rw [Array.getElem?_modify]
  split
  · cases s.towers[v]? <;> simp [Tower.height]
  · rfl

@[simp] theorem size_setNext : (s.setNext u k x).size = s.size := size_modifyLinks ..

@[simp] theorem size_setPrev : (s.setPrev u k x).size = s.size := size_modifyLinks ..

@[simp] theorem height_setNext : (s.setNext u k x).height v = s.height v := height_modifyLinks ..

@[simp] theorem height_setPrev : (s.setPrev u k x).height v = s.height v := height_modifyLinks ..

@[simp] theorem size_detach : (s.detach u).size = s.size := by
  simp [detach, size]

@[simp] theorem height_detach : (s.detach u).height v = s.height v := by
  unfold detach height
  rw [Array.getElem?_modify]
  split
  · cases s.towers[v]? <;> simp [Tower.height]
  · rfl

/-- Only elements of the arena have levels. -/
theorem lt_size_of_height_pos {s : SkipList} {u : Nat} (h : 0 < s.height u) : u < s.size := by
  unfold height at h
  rcases hu : s.towers[u]? with _ | t
  · simp [hu] at h
  · exact (Array.getElem?_eq_some_iff.mp hu).1

/-! ## Links -/

/-- Above a tower there are no links. -/
theorem linksAt_of_height_le {s : SkipList} {u k : Nat} (h : s.height u ≤ k) :
    s.linksAt u k = .detached := by
  unfold linksAt
  unfold height at h
  cases hu : s.towers[u]? with
  | none => rfl
  | some t =>
    simp only [hu, Option.elim_some, Tower.height] at h
    simp [Array.getElem?_eq_none h]

theorem nextAt_of_height_le {s : SkipList} {u k : Nat} (h : s.height u ≤ k) :
    s.nextAt u k = none := by
  rw [nextAt, linksAt_of_height_le h]
  rfl

theorem prevAt_of_height_le {s : SkipList} {u k : Nat} (h : s.height u ≤ k) :
    s.prevAt u k = none := by
  rw [prevAt, linksAt_of_height_le h]
  rfl

theorem linksAt_modifyLinks (f : Links → Links) :
    (s.modifyLinks u k f).linksAt v j =
      if v = u ∧ j = k ∧ k < s.height u then f (s.linksAt u k) else s.linksAt v j := by
  unfold modifyLinks linksAt height
  rw [Array.getElem?_modify]
  by_cases hv : u = v
  · subst hv
    cases s.towers[u]? with
    | none => simp
    | some t =>
      by_cases hj : k = j
      · subst hj
        by_cases hk : k < t.levels.size <;> simp [Tower.height, hk, Array.getElem_modify_self]
      · simp [Tower.height, Array.getElem?_modify, hj, Ne.symm hj]
  · simp [hv, Ne.symm hv]

theorem nextAt_setNext :
    (s.setNext u k x).nextAt v j =
      if v = u ∧ j = k ∧ k < s.height u then x else s.nextAt v j := by
  simp only [nextAt, setNext, linksAt_modifyLinks]
  split <;> rfl

theorem prevAt_setPrev :
    (s.setPrev u k x).prevAt v j =
      if v = u ∧ j = k ∧ k < s.height u then x else s.prevAt v j := by
  simp only [prevAt, setPrev, linksAt_modifyLinks]
  split <;> rfl

@[simp] theorem prevAt_setNext : (s.setNext u k x).prevAt v j = s.prevAt v j := by
  simp only [prevAt, setNext, linksAt_modifyLinks]
  split
  · rename_i h
    rw [h.1, h.2.1]
  · rfl

@[simp] theorem nextAt_setPrev : (s.setPrev u k x).nextAt v j = s.nextAt v j := by
  simp only [nextAt, setPrev, linksAt_modifyLinks]
  split
  · rename_i h
    rw [h.1, h.2.1]
  · rfl

theorem linksAt_detach :
    (s.detach u).linksAt v j = if v = u then .detached else s.linksAt v j := by
  unfold detach linksAt
  rw [Array.getElem?_modify]
  by_cases hv : u = v
  · subst hv
    cases s.towers[u]? with
    | none => simp
    | some t => by_cases hj : j < t.levels.size <;> simp [hj]
  · simp [hv, Ne.symm hv]

theorem nextAt_detach :
    (s.detach u).nextAt v j = if v = u then none else s.nextAt v j := by
  simp only [nextAt, linksAt_detach]
  split <;> rfl

theorem prevAt_detach :
    (s.detach u).prevAt v j = if v = u then none else s.prevAt v j := by
  simp only [prevAt, linksAt_detach]
  split <;> rfl

/-! ## Checks -/

theorem check_of_lt {s : SkipList} {u : Nat} (h : u < s.size) : s.check u = .ok () := if_pos h

theorem check_of_size_le {s : SkipList} {u : Nat} (h : s.size ≤ u) :
    s.check u = .error (.outOfRange s.size (some u)) := if_neg (Nat.not_lt.mpr h)

end TourForest.SkipList
