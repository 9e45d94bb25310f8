import Mathlib.Order.Nat
import TourForest.Proofs.SkipList.Sequence

/-!
# Sewing sequences together and apart

A seam has two sides: two chains that are laid end to end, or one chain whose two ends meet in a
cycle (`Sewn`). On each level a seam consists of one pair of links, between the last element of the
left side and the first element of the right side on that level. `joinFrom` closes the seam level by
level and `splitFrom` opens it:

* `joinFrom_spec`: below the level reached the seam is closed, from there on it is still open;
* `splitFrom_spec`: below the level reached the seam is open, from there on it is still closed.
-/

namespace TourForest.SkipList

variable {s s' : SkipList}

/-- Where `left` and `right` are sewn together, `xs` comes about, closed or not. -/
inductive Sewn : (left right xs : List Nat) → (closed : Bool) → Prop
  | apart {left right : List Nat} : left.Disjoint right → Sewn left right (left ++ right) false
  | closing {xs : List Nat} : Sewn xs xs xs true

namespace Sewn

variable {left right xs : List Nat} {closed : Bool}

theorem onLevel (h : Sewn left right xs closed) (s : SkipList) (k : Nat) :
    Sewn (s.onLevel k left) (s.onLevel k right) (s.onLevel k xs) closed := by
  cases h with
  | apart hd =>
    rw [onLevel_append]
    exact .apart fun x hl hr => hd (mem_onLevel.mp hl).1 (mem_onLevel.mp hr).1
  | closing => exact .closing

theorem left_subset (h : Sewn left right xs closed) : left ⊆ xs := by
  cases h <;> simp

theorem right_subset (h : Sewn left right xs closed) : right ⊆ xs := by
  cases h <;> simp

theorem mem_iff (h : Sewn left right xs closed) {x : Nat} : x ∈ xs ↔ x ∈ left ∨ x ∈ right := by
  cases h <;> simp

theorem nodup_iff (h : Sewn left right xs closed) : xs.Nodup ↔ left.Nodup ∧ right.Nodup := by
  cases h with
  | apart hd => exact List.nodup_append'.trans ⟨fun h => ⟨h.1, h.2.1⟩, fun h => ⟨h.1, h.2, hd⟩⟩
  | closing => exact (and_self_iff).symm

/-! ## One level -/

section

variable {k l r : Nat}

/-- A seam with nothing on one side is neither open nor closed. -/
theorem strand_iff_of_nil (h : Sewn left right xs closed) (hn : left = [] ∨ right = []) :
    s.Strand k closed xs ↔ s.Strand k false left ∧ s.Strand k false right := by
  cases h with
  | apart => rcases hn with rfl | rfl <;> simp
  | closing =>
    rcases hn with rfl | rfl <;> simp

/-- Setting the links between the two sides closes the seam. -/
theorem connect (h : Sewn left right xs closed) (hl : left.getLast? = some l) (hr : right.head? = some r)
    (hn : xs.Nodup) (hk : ∀ x ∈ xs, k < s.height x) (hL : s.Strand k false left)
    (hR : s.Strand k false right) : (s.connect k l r).Strand k closed xs := by
  obtain ⟨as, rfl⟩ := List.getLast?_eq_some_iff.mp hl
  obtain ⟨bs, rfl⟩ := List.head?_eq_some_iff.mp hr
  obtain ⟨hnL, hnR⟩ := h.nodup_iff.mp hn
  have hla : l ∉ as := fun hm => (List.nodup_append'.mp hnL).2.2 hm (List.mem_singleton_self l)
  have hrb : r ∉ bs := (List.nodup_cons.mp hnR).1
  have hkl : k < s.height l := hk l (h.left_subset (by simp))
  have hkr : k < (s.setNext l k (some r)).height r := by
    rw [height_setNext]
    exact hk r (h.right_subset (by simp))
  have hprev : (s.setNext l k (some r)).prevAt r k = none := by
    rw [prevAt_setNext]
    exact Row.prev_head hR
  have hc : s.connect k l r = (s.setNext l k (some r)).setPrev r k (some l) := by
    rw [SkipList.connect, if_pos (by rw [hprev, Option.isNone_none])]
  rw [hc]
  generalize hx : as ++ [l] = left at *
  generalize hy : r :: bs = right at *
  cases h with
  | apart hd =>
    refine Row.append_iff.mpr ⟨?_, ?_⟩
    · subst hx hy
      have hra : r ∉ as ++ [l] := fun hm => hd hm List.mem_cons_self
      exact (Row.setNext_last hL hla hkl).setPrev_of_ne fun _ => hra
    · subst hx hy
      have hlr : l ∉ r :: bs := fun hm => hd (by simp) hm
      rw [List.getLast?_concat]
      exact (Row.setNext_of_ne hR fun _ => hlr).setPrev_head hrb hkr
  | closing =>
    rw [Strand.closed_iff, hl, hr]
    have hnext : (s.setNext l k (some r)).Row k none (r :: bs) (some r) := by
      rw [hy, ← hx]
      exact Row.setNext_last (hx ▸ hL) hla hkl
    rw [← hy]
    exact hnext.setPrev_head hrb hkr

/-- Across a closed seam the right side comes after the left one. -/
theorem next_eq (h : Sewn left right xs closed) (hl : left.getLast? = some l)
    (hs : s.Strand k closed xs) : s.nextAt l k = right.head? := by
  obtain ⟨as, rfl⟩ := List.getLast?_eq_some_iff.mp hl
  generalize hx : as ++ [l] = left at *
  cases h with
  | apart =>
    rw [← hx, Strand, List.append_assoc] at hs
    simpa using hs.next_eq
  | closing =>
    rw [← hx, Strand] at hs
    simpa [hx] using hs.next_eq

/-- Clearing the links between the two sides opens the seam. -/
theorem disconnect (h : Sewn left right xs closed) (hl : left.getLast? = some l)
    (hr : right.head? = some r) (hn : xs.Nodup) (hk : ∀ x ∈ xs, k < s.height x)
    (hs : s.Strand k closed xs) :
    ((s.setNext l k none).setPrev r k none).Strand k false left ∧
      ((s.setNext l k none).setPrev r k none).Strand k false right := by
  obtain ⟨as, rfl⟩ := List.getLast?_eq_some_iff.mp hl
  obtain ⟨bs, rfl⟩ := List.head?_eq_some_iff.mp hr
  obtain ⟨hnL, hnR⟩ := h.nodup_iff.mp hn
  have hla : l ∉ as := fun hm => (List.nodup_append'.mp hnL).2.2 hm (List.mem_singleton_self l)
  have hrb : r ∉ bs := (List.nodup_cons.mp hnR).1
  have hkl : k < s.height l := hk l (h.left_subset (by simp))
  have hkr : k < (s.setNext l k none).height r := by
    rw [height_setNext]
    exact hk r (h.right_subset (by simp))
  generalize hx : as ++ [l] = left at *
  generalize hy : r :: bs = right at *
  cases h with
  | apart hd =>
    obtain ⟨hL, hR⟩ := Row.append_iff.mp hs
    subst hx hy
    have hra : r ∉ as ++ [l] := fun hm => hd hm List.mem_cons_self
    have hlr : l ∉ r :: bs := fun hm => hd (by simp) hm
    exact ⟨(Row.setNext_last hL hla hkl).setPrev_of_ne fun _ => hra,
      (Row.setNext_of_ne hR fun _ => hlr).setPrev_head hrb hkr⟩
  | closing =>
    rw [Strand.closed_iff, hl, hr] at hs
    have hnext : (s.setNext l k none).Row k (some l) (r :: bs) none := by
      rw [hy, ← hx]
      rw [← hx] at hs
      exact hs.setNext_last hla hkl
    have hboth : ((s.setNext l k none).setPrev r k none).Row k none (r :: bs) none :=
      hnext.setPrev_head hrb hkr
    rw [hy] at hboth
    exact ⟨hboth, hboth⟩

end

end Sewn

/-! ## Other levels -/

section

variable {j k u : Nat} {v : Option Nat} {closed : Bool} {xs : List Nat}

theorem Strand.setNext_of_ne (h : s.Strand j closed xs) (hj : j ≠ k) :
    (s.setNext u k v).Strand j closed xs := Row.setNext_of_ne h fun e => absurd e.symm hj

theorem Strand.setPrev_of_ne (h : s.Strand j closed xs) (hj : j ≠ k) :
    (s.setPrev u k v).Strand j closed xs := Row.setPrev_of_ne h fun e => absurd e.symm hj

theorem Strand.connect_of_ne {l r : Nat} (h : s.Strand j closed xs) (hj : j ≠ k) :
    (s.connect k l r).Strand j closed xs := by
  unfold connect
  dsimp only
  split
  · exact (h.setNext_of_ne hj).setPrev_of_ne hj
  · exact h.setNext_of_ne hj

theorem altered_connect {l r : Nat} (hl : l ∈ xs) (hr : r ∈ xs) : s.Altered xs (s.connect k l r) := by
  unfold connect
  dsimp only
  split
  · exact ((Altered.refl s xs).setNext hl).setPrev hr
  · exact (Altered.refl s xs).setNext hl

end

/-! ## All levels -/

section

variable {left right xs : List Nat} {closed : Bool}

theorem height_lt_of_mem_onLevel {k : Nat} (hh : ∀ u, s.height u ≤ maxHeight) {u : Nat}
    (hu : u ∈ s.onLevel k xs) : k < maxHeight :=
  (mem_onLevel.mp hu).2.trans_le (hh u)

/-- Above a level that one side does not reach, a seam is neither open nor closed. -/
theorem Sewn.strand_iff_above (h : Sewn left right xs closed) {i j : Nat}
    (hi : s.onLevel i left = [] ∨ s.onLevel i right = []) (hj : i ≤ j) :
    s.Strand j closed (s.onLevel j xs) ↔
      s.Strand j false (s.onLevel j left) ∧ s.Strand j false (s.onLevel j right) :=
  (h.onLevel s j).strand_iff_of_nil (hi.imp (onLevel_eq_nil_of_le hj) (onLevel_eq_nil_of_le hj))

/-- Both climbs from a closed seam stay on their own side of it, even where it closes a cycle. -/
theorem Sewn.parents (h : Sewn left right xs closed) (hn : xs.Nodup) (hs : ∀ x ∈ xs, x < s.size) {k l r : Nat}
    (hx : s.Strand k closed (s.onLevel k xs)) (hl : (s.onLevel k left).getLast? = some l)
    (hr : (s.onLevel k right).head? = some r) :
    s.leftParent l k = .ok (s.onLevel (k + 1) left).getLast? ∧
      s.rightParent r k = .ok (s.onLevel (k + 1) right).head? := by
  obtain ⟨hnL, hnR⟩ := h.nodup_iff.mp hn
  cases h with
  | apart hd =>
    rw [Strand, onLevel_append, Row.append_iff] at hx
    exact ⟨leftParent_eq hx.1 hl (.inl rfl) hnL fun x hm => hs x (List.mem_append_left _ hm),
      rightParent_eq hx.2 hr (.inl rfl) hnR fun x hm => hs x (List.mem_append_right _ hm)⟩
  | closing => exact ⟨leftParent_eq hx hl (.inr hl) hn hs, rightParent_eq hx hr (.inr hr) hn hs⟩

/-- Closing a seam from level `k` on, where it is closed below that level. -/
theorem joinFrom_spec (h : Sewn left right xs closed) (hn : xs.Nodup) :
    ∀ (levels k l r : Nat) (s : SkipList), levels + k = maxHeight →
      (∀ u, s.height u ≤ maxHeight) → (∀ x ∈ xs, x < s.size) →
      (s.onLevel k left).getLast? = some l → (s.onLevel k right).head? = some r →
      (∀ j < k, s.Strand j closed (s.onLevel j xs)) →
      (∀ j, k ≤ j → s.Strand j false (s.onLevel j left) ∧ s.Strand j false (s.onLevel j right)) →
      ∃ s', s.joinFrom levels k l r = .ok s' ∧ s.Altered xs s' ∧
        ∀ j, s'.Strand j closed (s'.onLevel j xs) := by
  intro levels
  induction levels with
  | zero =>
    intro k l r s hk hh _ hl _ _ _
    have := height_lt_of_mem_onLevel hh (List.mem_of_getLast? hl)
    omega
  | succ levels ih =>
    intro k l r s hk hh hs hl hr hbelow habove
    obtain ⟨hL, hR⟩ := habove k le_rfl
    have hlm := mem_onLevel.mp (List.mem_of_getLast? hl)
    have hrm := mem_onLevel.mp (List.mem_of_head? hr)
    have hnext : s.nextAt l k = none := by
      obtain ⟨as, has⟩ := List.getLast?_eq_some_iff.mp hl
      exact Row.next_last (has ▸ hL : s.Row k none (as ++ [l]) none)
    have ha : s.Altered xs (s.connect k l r) :=
      altered_connect (h.left_subset hlm.1) (h.right_subset hrm.1)
    have hon (j : Nat) (ys : List Nat) : (s.connect k l r).onLevel j ys = s.onLevel j ys :=
      onLevel_congr ha.height
    have hclosed : (s.connect k l r).Strand k closed (s.onLevel k xs) :=
      (h.onLevel s k).connect hl hr (hn.filter _) (fun x hx => (mem_onLevel.mp hx).2) hL hR
    have hbelow' : ∀ j < k + 1, (s.connect k l r).Strand j closed (s.onLevel j xs) := by
      intro j hj
      rcases Nat.lt_succ_iff_lt_or_eq.mp hj with hj | rfl
      · exact (hbelow j hj).connect_of_ne (Nat.ne_of_lt hj)
      · exact hclosed
    have habove' : ∀ j, k + 1 ≤ j → (s.connect k l r).Strand j false (s.onLevel j left) ∧
        (s.connect k l r).Strand j false (s.onLevel j right) := fun j hj =>
      have hj' : j ≠ k := by omega
      ⟨(habove j (by omega)).1.connect_of_ne hj', (habove j (by omega)).2.connect_of_ne hj'⟩
    obtain ⟨hleft, hright⟩ := h.parents hn (fun x hx => ha.size ▸ hs x hx) ((hon k xs).symm ▸ hclosed)
      ((hon k left).symm ▸ hl) ((hon k right).symm ▸ hr)
    rw [hon] at hleft hright
    have hdone (hnil : s.onLevel (k + 1) left = [] ∨ s.onLevel (k + 1) right = []) (j : Nat) :
        (s.connect k l r).Strand j closed ((s.connect k l r).onLevel j xs) := by
      rw [hon]
      by_cases hj : j < k + 1
      · exact hbelow' j hj
      · rw [← hon, h.strand_iff_above (by rw [hon, hon]; exact hnil) (not_lt.mp hj), hon, hon]
        exact habove' j (not_lt.mp hj)
    rw [joinFrom, hnext]
    simp only [Option.isSome_none, Bool.false_eq_true, if_false]
    rw [hleft, hright]
    simp only [ok_bind]
    rcases hl' : (s.onLevel (k + 1) left).getLast? with _ | l'
    · exact ⟨_, rfl, ha, hdone (.inl (List.getLast?_eq_none_iff.mp hl'))⟩
    rcases hr' : (s.onLevel (k + 1) right).head? with _ | r'
    · exact ⟨_, rfl, ha, hdone (.inr (List.head?_eq_none_iff.mp hr'))⟩
    obtain ⟨s', hok, ha', hs'⟩ := ih (k + 1) l' r' (s.connect k l r) (by omega)
      (fun u => (ha.height u).trans_le (hh u)) (fun x hx => ha.size ▸ hs x hx)
      ((hon _ _).symm ▸ hl') ((hon _ _).symm ▸ hr') (fun j hj => (hon j xs).symm ▸ hbelow' j hj)
      (fun j hj => by rw [hon, hon]; exact habove' j hj)
    exact ⟨s', hok, ha.trans ha', hs'⟩

/-- Opening a seam from level `k` on, where it is open below that level. -/
theorem splitFrom_spec (h : Sewn left right xs closed) (hn : xs.Nodup) :
    ∀ (levels k u : Nat) (s : SkipList), levels + k = maxHeight →
      (∀ u, s.height u ≤ maxHeight) → (∀ x ∈ xs, x < s.size) →
      (s.onLevel k left).getLast? = some u →
      (∀ j < k, s.Strand j false (s.onLevel j left) ∧ s.Strand j false (s.onLevel j right)) →
      (∀ j, k ≤ j → s.Strand j closed (s.onLevel j xs)) →
      ∃ s', s.splitFrom levels k u = .ok s' ∧ s.Altered xs s' ∧
        ∀ j, s'.Strand j false (s'.onLevel j left) ∧ s'.Strand j false (s'.onLevel j right) := by
  intro levels
  induction levels with
  | zero =>
    intro k u s hk hh _ hu _ _
    have := height_lt_of_mem_onLevel hh (List.mem_of_getLast? hu)
    omega
  | succ levels ih =>
    intro k u s hk hh hs hu hbelow habove
    have hum := mem_onLevel.mp (List.mem_of_getLast? hu)
    have hnext := (h.onLevel s k).next_eq hu (habove k le_rfl)
    rw [splitFrom, hnext]
    rcases hr : (s.onLevel k right).head? with _ | v
    · refine ⟨s, rfl, .refl s xs, fun j => ?_⟩
      by_cases hj : j < k
      · exact hbelow j hj
      · exact (h.strand_iff_above (.inr (List.head?_eq_none_iff.mp hr)) (not_lt.mp hj)).mp (habove j (not_lt.mp hj))
    have hvm := mem_onLevel.mp (List.mem_of_head? hr)
    dsimp only
    generalize ht : (s.setNext u k none).setPrev v k none = t
    have ha : s.Altered xs t :=
      ht ▸ ((Altered.refl s xs).setNext (h.left_subset hum.1)).setPrev (h.right_subset hvm.1)
    have hon (j : Nat) (ys : List Nat) : t.onLevel j ys = s.onLevel j ys := onLevel_congr ha.height
    have hopen : t.Strand k false (s.onLevel k left) ∧ t.Strand k false (s.onLevel k right) :=
      ht ▸ (h.onLevel s k).disconnect hu hr (hn.filter _) (fun x hx => (mem_onLevel.mp hx).2)
        (habove k le_rfl)
    have hother {c : Bool} {ys : List Nat} (j : Nat) (hj : j ≠ k) (hy : s.Strand j c ys) :
        t.Strand j c ys := ht ▸ (hy.setNext_of_ne hj).setPrev_of_ne hj
    have hbelow' : ∀ j < k + 1,
        t.Strand j false (t.onLevel j left) ∧ t.Strand j false (t.onLevel j right) := by
      intro j hj
      rw [hon, hon]
      rcases Nat.lt_succ_iff_lt_or_eq.mp hj with hj | rfl
      · exact ⟨hother j (Nat.ne_of_lt hj) (hbelow j hj).1, hother j (Nat.ne_of_lt hj) (hbelow j hj).2⟩
      · exact hopen
    have habove' : ∀ j, k + 1 ≤ j → t.Strand j closed (t.onLevel j xs) := fun j hj =>
      hon j xs ▸ hother j (by omega) (habove j (by omega))
    have hleft : t.leftParent u k = .ok (t.onLevel (k + 1) left).getLast? :=
      leftParent_eq (hbelow' k (Nat.lt_succ_self k)).1 (hon k left ▸ hu) (.inl rfl)
        (h.nodup_iff.mp hn).1 fun x hx => ha.size ▸ hs x (h.left_subset hx)
    rw [hleft]
    simp only [ok_bind]
    rcases hl' : (t.onLevel (k + 1) left).getLast? with _ | u'
    · refine ⟨t, rfl, ha, fun j => ?_⟩
      by_cases hj : j < k + 1
      · exact hbelow' j hj
      · exact (h.strand_iff_above (.inl (List.getLast?_eq_none_iff.mp hl')) (not_lt.mp hj)).mp
          (habove' j (not_lt.mp hj))
    obtain ⟨s', hok, ha', hs'⟩ := ih (k + 1) u' t (by omega) (fun u => (ha.height u).trans_le (hh u))
      (fun x hx => ha.size ▸ hs x hx) hl' hbelow' habove'
    exact ⟨s', hok, ha.trans ha', hs'⟩

end

end TourForest.SkipList
