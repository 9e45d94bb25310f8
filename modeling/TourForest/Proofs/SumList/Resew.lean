import TourForest.Proofs.SumList.Batch
import TourForest.Proofs.SumList.Layout

/-!
# From one order to another

Elements are put into a new order in three steps: the sequences are split behind some elements, those that stay
behind alone are reset, and the rest is joined along seams that make up a pattern for the new order.

* `resewn_of_ok`: if the steps answer, they lead to the new order, and elements that are apart from it keep their
  values; this needs no sum to be right;
* `Sound.resew`: if the sums are right and none can leave its range, the steps answer and keep them right.
-/

namespace TourForest.SumList

open SkipList (Alone Pattern SplitAt seam)

variable {a a' a₁ : SumList} {us gone : List Nat} {after : List (Option Nat)} {pairs : List (Nat × Nat)}
  {F : Nat → Nat → Prop} {x y k : Nat}

/-! ## Steps that answer -/

theorem not_involved_of_alone (hw : a.list.Woven) (h : a.list.Alone x) (hx : x ∉ us) :
    ¬ Involved a.list (us.map some) x := by
  rintro (hm | ⟨u, k, hl⟩)
  · obtain ⟨u, hu, he⟩ := List.mem_map.mp hm
    exact hx (Option.some.inj he ▸ hu)
  · obtain ⟨hn, hp⟩ := hw.not_linked_of_alone h u k
    exact hl.elim hn hp

/-- Splits that answer. -/
theorem splitAt_of_ok (hw : a.list.Woven) (hu : ∀ u ∈ us, u < a.size)
    (h : a.splitAll (us.map some) = .ok (after, a₁)) :
    after = a.list.answers us ∧ a₁.list.Woven ∧ a₁.size = a.size ∧ a.list.SplitAt us a₁.list := by
  obtain ⟨list, hlist, hw', hsize, -, hnext⟩ := hw.splitAll hu
  obtain ⟨rfl, rfl⟩ := Prod.mk.inj (Except.ok.inj ((batched_splitAll h).1.symm.trans hlist))
  exact ⟨rfl, hw', hsize, hnext⟩

theorem list_detachAll (a : SumList) (gone : List Nat) :
    (gone.foldl (fun a x => a.detach x 0) a).list = gone.foldl SkipList.detach a.list := by
  induction gone generalizing a with
  | nil => rfl
  | cons x gone ih => exact ih _

theorem valueAt_detachAll (a : SumList) (gone : List Nat) :
    (gone.foldl (fun a x => a.detach x 0) a).valueAt x k = if x ∈ gone then 0 else a.valueAt x k := by
  induction gone generalizing a with
  | nil => rfl
  | cons u gone ih =>
    have hfirst : (a.detach u 0).valueAt x k = if x = u then 0 else a.valueAt x k := by
      rw [valueAt_detach]
      by_cases hx : x = u
      · subst hx
        by_cases hk : k < a.depth x
        · simp [hk]
        · simp [hk, valueAt_of_depth_le (not_lt.mp hk)]
      · simp [hx]
    rw [List.foldl_cons, ih, hfirst]
    by_cases hx : x = u <;> simp [hx]

/-- What splits behind `us`, resets of `gone` and joins have led to is in the order `F`. Values change only above
level 0 and only of elements with a place in the old order or the new one, but for those that are reset. -/
structure Resewn (a a' : SumList) (F : Nat → Nat → Prop) (us gone : List Nat) : Prop where
  woven : a'.list.Woven
  layout : a'.layout = a.layout
  next_iff : ∀ x y, a'.list.nextAt x 0 = some y ↔ F x y
  own : ∀ x, a'.valueAt x 0 = if x ∈ gone then 0 else a.valueAt x 0
  apart : ∀ x, (∀ y, ¬ F x y ∧ ¬ F y x) → x ∈ gone ∨ x ∉ us ∧ a.list.Alone x →
    ∀ k, a'.valueAt x k = if x ∈ gone then 0 else a.valueAt x k

/-- Splits, resets and joins along a pattern lead to its order if they answer. -/
theorem resewn_of_ok (hw : a.list.Woven) (hp : a.list.Pattern F us pairs) (hgone : gone ⊆ us)
    (hbefore : ∀ x ∈ gone, ∀ y, a.list.nextAt y 0 = some x → y ∈ us)
    (hsplit : a.splitAll (us.map some) = .ok (after, a₁))
    (hjoin : (gone.foldl (fun a x => a.detach x 0) a₁).joinAll (pairs.map seam) = .ok a') :
    a.Resewn a' F us gone := by
  obtain ⟨-, hw₁, hsize₁, hnext₁⟩ := splitAt_of_ok hw hp.points_lt hsplit
  have halone : ∀ x ∈ gone, a₁.list.Alone x := fun x hx => hnext₁.alone hw₁ (.inl (hgone hx)) (hbefore x hx)
  have hlayout := layout_resew gone hsplit hjoin
  have hvalue₂ (x k : Nat) := valueAt_detachAll (x := x) (k := k) a₁ gone
  have hlist₂ := list_detachAll a₁ gone
  obtain ⟨hw₂, hsize₂, hnext₂⟩ := hw₁.detachAll halone
  generalize gone.foldl (fun a x => a.detach x 0) a₁ = a₂ at hjoin hvalue₂ hlist₂
  rw [← hlist₂] at hw₂ hsize₂ hnext₂
  have hsplit₂ : a.list.SplitAt us a₂.list := fun x => (hnext₂ x 0).trans (hnext₁ x)
  obtain ⟨hjoined, hb⟩ := batched_joinAll hjoin
  obtain ⟨list, hlist, hw', -, -, hnext⟩ := hw₂.joinAll (hp.meet hw₂ (hsize₂.trans hsize₁) hsplit₂)
  obtain rfl : a'.list = list := Except.ok.inj (hjoined.symm.trans hlist)
  have hb₁ := (batched_splitAll hsplit).2
  have hnext' (x y : Nat) : a'.list.nextAt x 0 = some y ↔ F x y := by
    rw [hnext, hsplit₂]
    exact hp.next_iff
  refine ⟨hw', hlayout, hnext', fun x => by rw [hb.own, hvalue₂, hb₁.own], fun x hF hx k => ?_⟩
  have hleft : x ∉ pairs.map Prod.fst := fun hm => by
    obtain ⟨p, hp', rfl⟩ := List.mem_map.mp hm
    exact (hF p.2).1 (hp.seams p hp').1
  have hx' : a'.list.Alone x := by
    constructor
    · exact Option.eq_none_iff_forall_ne_some.mpr fun y hy => (hF y).1 ((hnext' x y).mp hy)
    · exact Option.eq_none_iff_forall_ne_some.mpr fun y hy => (hF y).2 ((hnext' y x).mp (hw'.next_iff_prev.mpr hy))
  have hmap : (pairs.map seam).map Prod.fst = (pairs.map Prod.fst).map some := by
    rw [List.map_map, List.map_map]
    rfl
  rw [hb.spared x (hmap ▸ not_involved_of_alone hw' hx' hleft), hvalue₂]
  split
  · rfl
  · next hm =>
    obtain ⟨hu, hal⟩ := hx.resolve_left hm
    have hal₁ : a₁.list.Alone x := hnext₁.alone hw₁ (.inr hal.next) fun y hy => by
      rw [hw.next_iff_prev, hal.prev] at hy
      cases hy
    exact hb₁.spared x (not_involved_of_alone hw₁ hal₁ hu) k

/-! ## Sums that stay right -/

/-- Elements that are alone and have value 0 are reset to what they are. -/
theorem Sound.detachAll (h : a.Sound) (gone : List Nat)
    (hgone : ∀ x ∈ gone, x < a.size ∧ a.list.Alone x ∧ a.valueAt x 0 = 0) :
    a.Relinked (gone.foldl (fun a x => a.detach x 0) a) (a.list.nextAt · 0) := by
  induction gone generalizing a with
  | nil => exact .refl h
  | cons x gone ih =>
    obtain ⟨⟨hx, hal, hv⟩, hgone⟩ := List.forall_mem_cons.mp hgone
    obtain ⟨hsound, hsize, hheight, hnext, hown⟩ := h.detach hx hal 0
    have hprev (u : Nat) : (a.detach x 0).list.prevAt u 0 = a.list.prevAt u 0 :=
      h.woven.prev_congr hsound.woven hheight (fun u => hnext u 0) u 0
    have hown' (u : Nat) : (a.detach x 0).valueAt u 0 = a.valueAt u 0 := by
      rw [hown]
      split
      · next hu => rw [hu, hv]
      · rfl
    have hr := ih hsound fun y hy => by
      obtain ⟨hy, hal, hv⟩ := hgone y hy
      exact ⟨hy.trans_eq hsize.symm, ⟨(hnext y 0).trans hal.next, (hprev y).trans hal.prev⟩, (hown' y).trans hv⟩
    have hr₁ : a.Relinked (a.detach x 0) (a.list.nextAt · 0) := ⟨hsound, hsize, hheight, hown', fun u => hnext u 0⟩
    exact (hr₁.trans hr).congr fun u => hnext u 0

/-- Splits, resets and joins along a pattern answer if no sum can leave its range. -/
theorem Sound.resew (h : a.Sound) (hb : a.Bounded) (hp : a.list.Pattern F us pairs)
    (hgone : ∀ x ∈ gone, x ∈ us ∧ a.valueAt x 0 = 0)
    (hbefore : ∀ x ∈ gone, ∀ y, a.list.nextAt y 0 = some x → y ∈ us) :
    ∃ after a₁ a', a.splitAll (us.map some) = .ok (after, a₁) ∧
      (gone.foldl (fun a x => a.detach x 0) a₁).joinAll (pairs.map seam) = .ok a' ∧ a'.Sound := by
  obtain ⟨a₁, hsplit, hr₁⟩ := h.splitAll hb hp.points_lt
  have hr₂ := hr₁.sound.detachAll gone fun x hx => by
    obtain ⟨hu, hv⟩ := hgone x hx
    have hsplitAt : a.list.SplitAt us a₁.list := hr₁.next
    exact ⟨(hp.points_lt x hu).trans_eq hr₁.size.symm, hsplitAt.alone hr₁.sound.woven (.inl hu) (hbefore x hx),
      (hr₁.own x).trans hv⟩
  have hr₁₂ := hr₁.trans hr₂
  obtain ⟨a', hjoin, hr₃⟩ := hr₂.sound.joinAll (hr₁₂.bounded hb)
    (hp.meet hr₂.sound.woven hr₁₂.size fun x => (hr₂.next x).trans (hr₁.next x))
  exact ⟨_, a₁, a', hsplit, hjoin, hr₃.sound⟩

/-- Splits and joins along a pattern answer, where nothing stays behind. -/
theorem Sound.splice (h : a.Sound) (hb : a.Bounded) (hp : a.list.Pattern F us pairs) :
    ∃ after a₁ a', a.splitAll (us.map some) = .ok (after, a₁) ∧ a₁.joinAll (pairs.map seam) = .ok a' ∧ a'.Sound :=
  h.resew hb hp (List.forall_mem_nil _) (List.forall_mem_nil _)

end TourForest.SumList
