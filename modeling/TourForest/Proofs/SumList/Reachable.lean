import TourForest.Proofs.Pool
import TourForest.Proofs.SkipList.Listing
import TourForest.Proofs.SkipList.Reachable
import TourForest.Proofs.SumList.Batch
import TourForest.Proofs.SumList.Sum

/-!
# The law of sums

`Reachable` lists come from a new list by batches of joins, splits and changes of values, while the
absolute own values of all elements add up to a value of 32 bits. All their sums are right, and the sum
over a sequence is the total of its own values, from whichever element it is asked (`SumLaw`).
-/

namespace TourForest.SumList

variable {a : SumList}

/-- With the updates made, the absolute own values of all elements add up to a value of 32 bits. -/
def StaysBounded (a : SumList) (updates : List (Nat × Int)) : Prop :=
  (((List.range a.size).map fun u => (a.updatedValue updates u).natAbs).sum : Int) ≤ maxValue

/-- The lists that come about by batches of joins of last elements to first ones, of splits, and of
changes of values. -/
inductive Reachable : SumList → Prop
  | built {pools pools' : Pools} {r : Random} {len load : Nat} {value : Nat → Int} {a : SumList} :
      (build pools r len load value).outcome = .ok (a, pools') → a.Bounded → Reachable a
  | joined {a a' : SumList} {pairs : List (Nat × Nat)} : Reachable a → a.list.Meet pairs →
      a.joinAll (pairs.map SkipList.seam) = .ok a' → Reachable a'
  | split {a a' : SumList} {us : List Nat} {after : List (Option Nat)} : Reachable a →
      (∀ u ∈ us, u < a.size) → a.splitAll (us.map some) = .ok (after, a') → Reachable a'
  | updated {a a' : SumList} {updates : List (Nat × Int)} : Reachable a → (∀ x ∈ updates, x.1 < a.size) →
      a.StaysBounded updates → a.setValues updates = .ok a' → Reachable a'

/-- On each level of an element the sum is the total of its own value and those that its link on the
level skips; no element is marked; and the sum over a sequence is the total of the elements it lists. -/
structure SumLaw (a : SumList) : Prop where
  skips : ∀ u k, k < a.height u → ∃ xs,
    a.list.Stretch k (a.list.nextAt u 0) xs (a.list.nextAt u k) ∧ a.valueAt u k = a.total (u :: xs)
  unmarked : ∀ u, a.markAt u = none
  sum : ∀ u < a.size, ∃ xs, a.list.sequence u = .ok xs ∧ u ∈ xs ∧ a.sum u = .ok (a.total xs)

theorem Sound.sumLaw (h : a.Sound) (hb : a.Bounded) : a.SumLaw := by
  refine ⟨fun u k hk => ?_, h.unmarked, fun u hu => ?_⟩
  · obtain ⟨xs, hx⟩ := h.woven.stretch hk
    exact ⟨xs, hx, (h.summed u k hk).eq_total hx⟩
  · obtain ⟨closed, xs, hs, hux, hx, -⟩ := h.woven.sequence hu
    exact ⟨xs, hs, hux, h.sum_eq hb hx hux⟩

/-- Detached elements that carry one value on all levels have the right sums. -/
theorem Fresh.sound {value : Nat → Int} {heights : List Nat} (h : a.Fresh value heights)
    (hh : ∀ n ∈ heights, 0 < n ∧ n ≤ maxHeight) : a.Sound := by
  refine ⟨⟨h.detached.woven hh, h.depth_eq, h.size_marks⟩, h.markAt_eq, fun u k hk => ⟨[], none, ?_, ?_⟩⟩
  · rw [SkipList.nextAt, h.detached.linksAt_eq]
    exact .ended
  · rw [h.valueAt_eq hk, total_cons, h.valueAt_eq (Nat.zero_lt_of_lt hk), total_nil, Int.add_zero]

theorem Reachable.sound (h : a.Reachable) : a.Sound ∧ a.Bounded := by
  induction h with
  | built h hb => exact ⟨(fresh_of_build h).sound fun _ hn => drawnHeights_bounds hn, hb⟩
  | joined _ hm hjoin ih =>
    obtain ⟨a', hok, hr⟩ := ih.1.joinAll ih.2 hm
    rw [hjoin] at hok
    obtain rfl := Except.ok.inj hok
    exact ⟨hr.sound, hr.bounded ih.2⟩
  | split _ hu hsplit ih =>
    obtain ⟨a', hok, hr⟩ := ih.1.splitAll ih.2 hu
    rw [hsplit] at hok
    obtain ⟨-, rfl⟩ := Prod.mk.inj (Except.ok.inj hok)
    exact ⟨hr.sound, hr.bounded ih.2⟩
  | updated _ hu hb hset ih =>
    obtain ⟨a', hok, hs, hb', -⟩ := ih.1.setValues hu hb
    rw [hset] at hok
    obtain rfl := Except.ok.inj hok
    exact ⟨hs, hb'⟩

/-- The law of sums holds of every list that batches lead to, and of every list one batch further on.
Joins and splits change level 0 at their seams alone and no own value; updates change the own values
alone, and the last one of an element stays. -/
theorem sumLaw_of_reachable (h : a.Reachable) :
    a.SumLaw ∧
    (∀ pairs, a.list.Meet pairs →
      ∃ a', a.joinAll (pairs.map SkipList.seam) = .ok a' ∧ a'.SumLaw ∧ a'.size = a.size ∧
        (∀ u, a'.height u = a.height u) ∧ (∀ u, a'.valueAt u 0 = a.valueAt u 0) ∧
        ∀ u, a'.list.nextAt u 0 = (pairs.lookup u).or (a.list.nextAt u 0)) ∧
    (∀ us : List Nat, (∀ u ∈ us, u < a.size) →
      ∃ after a', a.splitAll (us.map some) = .ok (after, a') ∧ a'.SumLaw ∧ a'.size = a.size ∧
        (∀ u, a'.height u = a.height u) ∧ (∀ u, a'.valueAt u 0 = a.valueAt u 0) ∧
        ∀ w, a'.list.nextAt w 0 = if w ∈ us then none else a.list.nextAt w 0) ∧
    (∀ updates, (∀ x ∈ updates, x.1 < a.size) → a.StaysBounded updates →
      ∃ a', a.setValues updates = .ok a' ∧ a'.SumLaw ∧ a'.list = a.list ∧
        ∀ u < a.size, a'.valueAt u 0 = (latest updates u).getD (a.valueAt u 0)) := by
  obtain ⟨hs, hb⟩ := h.sound
  refine ⟨hs.sumLaw hb, fun pairs hm => ?_, fun us hu => ?_, fun updates hu hbu => ?_⟩
  · obtain ⟨a', hok, hr⟩ := hs.joinAll hb hm
    exact ⟨a', hok, hr.sound.sumLaw (hr.bounded hb), hr.size, hr.height, hr.own, hr.next⟩
  · obtain ⟨a', hok, hr⟩ := hs.splitAll hb hu
    exact ⟨_, a', hok, hr.sound.sumLaw (hr.bounded hb), hr.size, hr.height, hr.own, hr.next⟩
  · obtain ⟨a', hok, hs', hb', hlist, hown⟩ := hs.setValues hu hbu
    exact ⟨a', hok, hs'.sumLaw hb', hlist, hown⟩

/-- Two new elements of value 1 that are joined to a cycle. -/
theorem sumLaw_of_joined_cycle :
    ∃ a a' : SumList, a.Reachable ∧ a.joinAll ([(0, 1), (1, 0)].map SkipList.seam) = .ok a' ∧
      a'.Reachable ∧ a'.list.nextAt 0 0 = some 1 ∧ a'.list.nextAt 1 0 = some 0 ∧ a'.SumLaw := by
  obtain ⟨a, pools, ha, hf⟩ := outcome_build .empty ⟨0⟩ (fun _ => 1)
    (by decide : 2 * (SkipList.elementBytes + sumBytes + 0) ≤ largestBlock)
  have hsize : a.size = 2 := by rw [SumList.size, hf.detached.size_eq, length_drawnHeights]
  have hn (u : Nat) : a.list.nextAt u 0 = none := by rw [SkipList.nextAt, hf.detached.linksAt_eq, Links.detached]
  have hp (u : Nat) : a.list.prevAt u 0 = none := by rw [SkipList.prevAt, hf.detached.linksAt_eq, Links.detached]
  have hb : a.Bounded := by
    have hs : a.Sound := hf.sound fun _ hn => drawnHeights_bounds hn
    have hone (u : Nat) (hu : u < a.size) : a.valueAt u 0 = 1 := hf.valueAt_eq (hs.woven.height_pos u hu)
    have hw : a.weight (List.range 2) = 2 := by
      simp [weight, List.range_succ, hone 0 (by omega), hone 1 (by omega)]
    rw [Bounded, hsize, hw]
    decide
  have hr : a.Reachable := .built ha hb
  have hm : a.list.Meet [(0, 1), (1, 0)] := by
    have hlist : a.list.size = 2 := hsize
    refine ⟨by decide, by decide, ?_, ?_⟩ <;> simp [hlist, hn, hp]
  obtain ⟨a', hok, hlaw, -, -, -, hnext⟩ := (sumLaw_of_reachable hr).2.1 _ hm
  exact ⟨a, a', hr, hok, .joined hr hm hok, by rw [hnext]; rfl, by rw [hnext]; rfl, hlaw⟩

end TourForest.SumList
