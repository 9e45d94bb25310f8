import Mathlib.Algebra.GroupWithZero.Nat
import Mathlib.Algebra.Order.BigOperators.Group.List
import Mathlib.Algebra.Order.Group.Nat
import Mathlib.Algebra.Ring.Int.Defs
import TourForest.Proofs.SkipList.Ancestor
import TourForest.SumList.Lemmas

/-!
# What the sums should be

The sum of an element on level `k` is right (`Summed`) if it is the total of the own values from the
element up to the next one that is taller than `k`. Totals of distinct elements never leave the range
of 32 bits while the absolute own values of all elements together stay in it (`Bounded`).

* `foldlM_blocks`: sums on one level add up to the sum on the next;
* `Sound`: all sums are right and no element is marked.
-/

namespace TourForest.SumList

variable {a a' a'' : SumList} {j k u v : Nat} {xs ys zs : List Nat} {o e : Option Nat}

@[simp] theorem height_setMark (m : Option Nat) : (a.setMark u m).height v = a.height v := rfl

/-! ## Totals -/

/-- The sum of the own values of `xs`. -/
def total (a : SumList) (xs : List Nat) : Int := (xs.map (a.valueAt · 0)).sum

/-- The sum of the absolute own values of `xs`. -/
def weight (a : SumList) (xs : List Nat) : Nat := (xs.map fun u => (a.valueAt u 0).natAbs).sum

/-- The absolute own values of all elements add up to a value of 32 bits. -/
def Bounded (a : SumList) : Prop := (a.weight (List.range a.size) : Int) ≤ maxValue

@[simp] theorem total_nil : a.total [] = 0 := rfl

@[simp] theorem total_cons : a.total (u :: xs) = a.valueAt u 0 + a.total xs := List.sum_cons

@[simp] theorem total_append : a.total (xs ++ ys) = a.total xs + a.total ys := by
  rw [total, List.map_append, List.sum_append, total, total]

theorem natAbs_total_le (a : SumList) (xs : List Nat) : (a.total xs).natAbs ≤ a.weight xs := by
  induction xs with
  | nil => exact Nat.le_refl 0
  | cons x xs ih =>
    rw [total_cons, weight, List.map_cons, List.sum_cons]
    exact (Int.natAbs_add_le _ _).trans (Nat.add_le_add_left ih _)

/-- Distinct elements weigh no more than all together. -/
theorem weight_le (hn : xs.Nodup) (hx : ∀ x ∈ xs, x < a.size) :
    a.weight xs ≤ a.weight (List.range a.size) := by
  obtain ⟨ys, hp, hs⟩ := List.subperm_of_subset hn fun x hm => List.mem_range.mpr (hx x hm)
  rw [weight, ← (hp.map _).sum_nat]
  exact (hs.map _).sum_le_sum fun _ _ => Nat.zero_le _

/-- Totals of distinct elements are values of 32 bits. -/
theorem Bounded.total_bounds (h : a.Bounded) (hn : xs.Nodup) (hx : ∀ x ∈ xs, x < a.size) :
    minValue ≤ a.total xs ∧ a.total xs ≤ maxValue := by
  have ht := natAbs_total_le a xs
  have hw := weight_le hn hx
  unfold Bounded at h
  simp only [minValue, maxValue] at h ⊢
  omega

/-- Totals of distinct elements add up. -/
theorem Bounded.addValues_total (h : a.Bounded) (hn : (xs ++ ys).Nodup)
    (hx : ∀ x ∈ xs ++ ys, x < a.size) : addValues (a.total xs) (a.total ys) = .ok (a.total (xs ++ ys)) := by
  have hb := h.total_bounds hn hx
  rw [total_append] at hb ⊢
  rw [addValues, if_pos hb]

/-! ## Right sums -/

/-- The sum of `u` on level `k` is the total of the own values from `u` up to the next taller element. -/
def Summed (a : SumList) (u k : Nat) : Prop :=
  ∃ xs e, a.list.Stretch k (a.list.nextAt u 0) xs e ∧ a.valueAt u k = a.total (u :: xs)

theorem Summed.eq_total (h : a.Summed u k) (hx : a.list.Stretch k (a.list.nextAt u 0) xs e) :
    a.valueAt u k = a.total (u :: xs) := by
  obtain ⟨ys, e', hy, hv⟩ := h
  rw [hv, (hy.unique hx).1]

/-- All parts of the list have the same shape. -/
structure Shaped (a : SumList) : Prop where
  woven : a.list.Woven
  depth : ∀ u, a.depth u = a.height u
  size_marks : a.marks.size = a.size

/-- All sums are right, and no element is marked. -/
structure Sound (a : SumList) : Prop extends Shaped a where
  unmarked : ∀ u, a.markAt u = none
  summed : ∀ u k, k < a.height u → a.Summed u k

/-- On level 0 an element skips nothing. -/
theorem Shaped.stretch_zero (h : a.Shaped) (u : Nat) :
    a.list.Stretch 0 (a.list.nextAt u 0) [] (a.list.nextAt u 0) := by
  cases hn : a.list.nextAt u 0 with
  | none => exact .ended
  | some v => exact .tall (h.woven.height_pos v (h.woven.next_lt_size hn))

theorem Shaped.summed_zero (h : a.Shaped) (u : Nat) : a.Summed u 0 :=
  ⟨[], _, h.stretch_zero u, by simp⟩

/-- Links lead to elements of the arena. -/
theorem Shaped.stretch_lt_size (hs : a.Shaped) (hu : u < a.size)
    (hx : a.list.Stretch k (a.list.nextAt u 0) xs e) : ∀ x ∈ u :: xs, x < a.size :=
  List.forall_mem_cons.mpr ⟨hu, hx.forall_mem (fun _ hv => hs.woven.next_lt_size hv)
    fun _ _ _ hv => hs.woven.next_lt_size hv⟩

/-- The sums on level `k` of what the level passes add up to the total of all there is in between. -/
theorem foldlM_blocks (hb : a.Bounded) (h : a.list.Blocks k o ys e)
    (hs : ∀ v ∈ a.list.onLevel k ys, a.Summed v k) (hn : (xs ++ ys).Nodup)
    (hx : ∀ x ∈ xs ++ ys, x < a.size) :
    (a.list.onLevel k ys).foldlM (fun sum v => addValues sum (a.valueAt v k)) (a.total xs) =
      .ok (a.total (xs ++ ys)) := by
  induction h generalizing xs with
  | done => simp
  | @block v ys zs e hv hy _ ih =>
    rw [hy.onLevel_block hv] at hs ⊢
    obtain ⟨hsv, hs⟩ := List.forall_mem_cons.mp hs
    have hsplit : xs ++ v :: (ys ++ zs) = (xs ++ v :: ys) ++ zs := by simp
    rw [hsplit] at hn hx ⊢
    rw [List.foldlM_cons, hsv.eq_total hy, hb.addValues_total (List.nodup_append.mp hn).1
      fun x hm => hx x (List.mem_append_left _ hm), ok_bind]
    exact ih hs hn hx

/-! ## Changes that keep links and own values -/

/-- The links and the own values of `a'` are those of `a`. -/
structure Alike (a a' : SumList) : Prop where
  list : a'.list = a.list
  own : ∀ u, a'.valueAt u 0 = a.valueAt u 0
  depth : ∀ u, a'.depth u = a.depth u
  size_marks : a'.marks.size = a.marks.size

namespace Alike

theorem refl (a : SumList) : a.Alike a := ⟨rfl, fun _ => rfl, fun _ => rfl, rfl⟩

theorem trans (h : a.Alike a') (h' : a'.Alike a'') : a.Alike a'' :=
  ⟨h'.list.trans h.list, fun u => (h'.own u).trans (h.own u), fun u => (h'.depth u).trans (h.depth u),
    h'.size_marks.trans h.size_marks⟩

theorem size (h : a.Alike a') : a'.size = a.size := congrArg SkipList.size h.list

theorem height (h : a.Alike a') (u : Nat) : a'.height u = a.height u := by
  rw [SumList.height, h.list, SumList.height]

theorem total (h : a.Alike a') (xs : List Nat) : a'.total xs = a.total xs :=
  congrArg List.sum (List.map_congr_left fun u _ => h.own u)

theorem weight (h : a.Alike a') (xs : List Nat) : a'.weight xs = a.weight xs :=
  congrArg List.sum (List.map_congr_left fun u _ => by rw [h.own])

theorem bounded (h : a.Alike a') (hb : a.Bounded) : a'.Bounded := by
  rw [Bounded, h.weight, h.size]
  exact hb

theorem shaped (h : a.Alike a') (hs : a.Shaped) : a'.Shaped :=
  ⟨h.list ▸ hs.woven, fun u => by rw [h.depth, hs.depth, h.height],
    by rw [h.size_marks, hs.size_marks, h.size]⟩

/-- A sum that has not changed is as right as it was. -/
theorem summed (h : a.Alike a') (hv : a'.valueAt u k = a.valueAt u k) (hs : a.Summed u k) :
    a'.Summed u k := by
  obtain ⟨xs, e, hx, hval⟩ := hs
  exact ⟨xs, e, h.list ▸ hx, by rw [hv, hval, h.total]⟩

theorem setMark (a : SumList) (u : Nat) (mark : Option Nat) : a.Alike (a.setMark u mark) :=
  ⟨rfl, fun _ => rfl, fun _ => rfl, by simp [SumList.setMark]⟩

theorem setValue (a : SumList) (u k : Nat) (value : Int) : a.Alike (a.setValue u (k + 1) value) := by
  refine ⟨rfl, fun v => ?_, fun v => depth_setValue .., rfl⟩
  rw [valueAt_setValue, if_neg (by simp)]

end Alike

/-! ## Changes of marks -/

/-- Only the marks of `a'` are other ones than those of `a`. -/
structure Remarked (a a' : SumList) : Prop extends Alike a a' where
  values : ∀ u k, a'.valueAt u k = a.valueAt u k

namespace Remarked

theorem refl (a : SumList) : a.Remarked a := ⟨Alike.refl a, fun _ _ => rfl⟩

theorem trans (h : a.Remarked a') (h' : a'.Remarked a'') : a.Remarked a'' :=
  ⟨h.toAlike.trans h'.toAlike, fun u k => (h'.values u k).trans (h.values u k)⟩

theorem setMark (a : SumList) (u : Nat) (mark : Option Nat) : a.Remarked (a.setMark u mark) :=
  ⟨Alike.setMark a u mark, fun _ _ => rfl⟩

theorem summed (h : a.Remarked a') (hs : a.Summed u k) : a'.Summed u k :=
  h.toAlike.summed (h.values u k) hs

end Remarked

theorem Shaped.markAt_setMark (h : a.Shaped) (hu : u < a.size) (mark : Option Nat) :
    (a.setMark u mark).markAt v = if v = u then mark else a.markAt v := by
  rw [SumList.markAt_setMark, h.size_marks]
  simp [hu]

/-! ## Changes of sums -/

/-- Setting a sum to the total it should be. All other sums are as right as they were. -/
theorem Shaped.summed_setValue (h : a.Shaped) (hk : k + 1 < a.height u)
    (hx : a.list.Stretch (k + 1) (a.list.nextAt u 0) xs e) :
    (a.setValue u (k + 1) (a.total (u :: xs))).Summed u (k + 1) ∧
      ∀ v j, a.Summed v j → (a.setValue u (k + 1) (a.total (u :: xs))).Summed v j := by
  have ha := Alike.setValue a u k (a.total (u :: xs))
  have hu : (a.setValue u (k + 1) (a.total (u :: xs))).Summed u (k + 1) := by
    refine ⟨xs, e, hx, ?_⟩
    rw [ha.total, valueAt_setValue, if_pos ⟨rfl, rfl, by rwa [h.depth]⟩]
  refine ⟨hu, fun v j hv => ?_⟩
  by_cases hvu : v = u ∧ j = k + 1
  · obtain ⟨rfl, rfl⟩ := hvu
    exact hu
  · refine ha.summed ?_ hv
    rw [valueAt_setValue, if_neg fun h => hvu ⟨h.1, h.2.1⟩]

end TourForest.SumList
