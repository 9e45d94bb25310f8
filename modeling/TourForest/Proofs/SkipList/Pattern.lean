import TourForest.Proofs.SkipList.Batch

/-!
# Patterns of seams

Elements are put into a new order by splitting behind some of them and joining along seams. A `Pattern` says
when the seams and what is left of the old links make up the new order.

* `Woven.links_of_alone`, `Woven.detach`: elements that are alone, on all levels;
* `Pattern.meet`: once the sequences are split, the seams can be closed;
* `Pattern.next_iff`: then they are in the new order.
-/

namespace TourForest.SkipList

variable {s s' : SkipList} {k u v x y : Nat}

/-! ## Elements that are alone -/

/-- Nothing is behind `u` on level 0, and nothing before it. -/
structure Alone (s : SkipList) (u : Nat) : Prop where
  next : s.nextAt u 0 = none
  prev : s.prevAt u 0 = none

namespace Woven

/-- An element without neighbours on level 0 has none on any level. -/
theorem links_of_alone (hs : s.Woven) (h : s.Alone u) (k : Nat) : s.nextAt u k = none ∧ s.prevAt u k = none := by
  by_cases hk : k < s.height u
  · have hu := lt_size_of_height_pos (Nat.zero_lt_of_lt hk)
    obtain ⟨c, xs, hux, hx⟩ := hs.covered u hu
    obtain ⟨rfl, hlast⟩ := hx.of_next_eq_none hs hux h.next
    obtain ⟨-, hhead⟩ := hx.of_prev_eq_none hs hux h.prev
    obtain ⟨as, has⟩ := List.getLast?_eq_some_iff.mp hlast
    obtain ⟨bs, hbs⟩ := List.head?_eq_some_iff.mp hhead
    have hrow : s.Row k none (s.onLevel k xs) none := hx.strand k
    constructor
    · rw [has, onLevel_append, onLevel_cons, if_pos hk, onLevel_nil] at hrow
      exact hrow.next_last
    · rw [hbs, onLevel_cons, if_pos hk] at hrow
      exact hrow.prev_head
  · exact ⟨nextAt_of_height_le (not_lt.mp hk), prevAt_of_height_le (not_lt.mp hk)⟩

/-- No link leads to an element without neighbours. -/
theorem not_linked_of_alone (hs : s.Woven) (h : s.Alone u) (v k : Nat) :
    s.nextAt v k ≠ some u ∧ s.prevAt v k ≠ some u := by
  obtain ⟨hn, hp⟩ := hs.links_of_alone h k
  constructor
  · intro hv
    rw [hs.next_iff_prev, hp] at hv
    cases hv
  · intro hv
    rw [← hs.next_iff_prev, hn] at hv
    cases hv

/-- Detaching an element that is alone changes no link. -/
theorem links_detach (hs : s.Woven) (h : s.Alone u) (v k : Nat) :
    (s.detach u).nextAt v k = s.nextAt v k ∧ (s.detach u).prevAt v k = s.prevAt v k := by
  rw [nextAt_detach, prevAt_detach]
  split
  · next hv =>
    obtain ⟨hn, hp⟩ := hs.links_of_alone h k
    rw [hv, hn, hp]
    exact ⟨rfl, rfl⟩
  · exact ⟨rfl, rfl⟩

theorem detach (hs : s.Woven) (h : s.Alone u) : (s.detach u).Woven := by
  have hl := hs.links_detach h
  have ha : s.Altered [] (s.detach u) :=
    ⟨size_detach .., fun _ => height_detach .., fun v _ k => (hl v k).1, fun v _ k => (hl v k).2⟩
  exact hs.of_altered ha (fun _ ys _ => .inl (List.disjoint_nil_right ys)) (by simp)

/-- Detaching elements that are alone changes no link. -/
theorem detachAll (hs : s.Woven) {gone : List Nat} (h : ∀ x ∈ gone, s.Alone x) :
    (gone.foldl SkipList.detach s).Woven ∧ (gone.foldl SkipList.detach s).size = s.size ∧
      ∀ v k, (gone.foldl SkipList.detach s).nextAt v k = s.nextAt v k := by
  induction gone generalizing s with
  | nil => exact ⟨hs, rfl, fun _ _ => rfl⟩
  | cons x gone ih =>
    obtain ⟨hx, h⟩ := List.forall_mem_cons.mp h
    have hl := hs.links_detach hx
    obtain ⟨hw, hsize, hnext⟩ := ih (hs.detach hx) fun y hy =>
      ⟨(hl y 0).1.trans (h y hy).next, (hl y 0).2.trans (h y hy).prev⟩
    exact ⟨hw, hsize.trans (size_detach ..), fun v k => (hnext v k).trans (hl v k).1⟩

end Woven

/-! ## Patterns -/

variable {us : List Nat} {pairs : List (Nat × Nat)} {F : Nat → Nat → Prop}

/-- Split behind `us` and joined along `pairs`, the elements are in the order `F`. -/
structure Pattern (s : SkipList) (F : Nat → Nat → Prop) (us : List Nat) (pairs : List (Nat × Nat)) : Prop where
  unique : ∀ x y z, F x y → F x z → y = z
  inj : ∀ x y z, F x z → F y z → x = y
  points_lt : ∀ u ∈ us, u < s.size
  lefts_nodup : (pairs.map Prod.fst).Nodup
  seams : ∀ p ∈ pairs, F p.1 p.2 ∧ p.1 < s.size ∧ p.2 < s.size
  freed : ∀ p ∈ pairs, p.1 ∈ us ∨ s.nextAt p.1 0 = none
  kept : ∀ x y, x ∉ us → s.nextAt x 0 = some y → F x y
  covered : ∀ x y, F x y → (x, y) ∈ pairs ∨ x ∉ us ∧ s.nextAt x 0 = some y

/-- Level 0 of `s'` is that of `s`, split behind `us`. -/
def SplitAt (s : SkipList) (us : List Nat) (s' : SkipList) : Prop :=
  ∀ x, s'.nextAt x 0 = if x ∈ us then none else s.nextAt x 0

/-- Splits leave an element alone if they take away what is behind it and what is before it. -/
theorem SplitAt.alone (h : s.SplitAt us s') (hs' : s'.Woven) (hu : x ∈ us ∨ s.nextAt x 0 = none)
    (hp : ∀ y, s.nextAt y 0 = some x → y ∈ us) : s'.Alone x where
  next := by
    rw [h]
    split
    · rfl
    · next hx => exact hu.resolve_left hx
  prev := by
    refine Option.eq_none_iff_forall_ne_some.mpr fun y hy => ?_
    have hy' := hs'.next_iff_prev.mpr hy
    rw [h] at hy'
    split at hy'
    · cases hy'
    · next hyu => exact hyu (hp y hy')

namespace Pattern

theorem rights_nodup (hp : s.Pattern F us pairs) : (pairs.map Prod.snd).Nodup := by
  refine hp.lefts_nodup.of_map.map_on fun p hm q hm' heq => Prod.ext ?_ heq
  have hF := (hp.seams q hm').1
  rw [← heq] at hF
  exact hp.inj _ _ _ (hp.seams p hm).1 hF

theorem order_of_lookup (hp : s.Pattern F us pairs) (hl : pairs.lookup x = some y) : F x y :=
  (hp.seams (x, y) ((lookup_eq_some_iff hp.lefts_nodup).mp hl)).1

/-- Once the sequences are split, the seams can be closed. -/
theorem meet (hp : s.Pattern F us pairs) (hs' : s'.Woven) (hsize : s'.size = s.size) (hnext : s.SplitAt us s') :
    s'.Meet pairs where
  lefts_nodup := hp.lefts_nodup
  rights_nodup := hp.rights_nodup
  left p hm := by
    refine ⟨(hp.seams p hm).2.1.trans_eq hsize.symm, (hnext _).trans ?_⟩
    split
    · rfl
    · next hu => exact (hp.freed p hm).resolve_left hu
  right p hm := by
    refine ⟨(hp.seams p hm).2.2.trans_eq hsize.symm, Option.eq_none_iff_forall_ne_some.mpr fun y hy => ?_⟩
    have hy' := hs'.next_iff_prev.mpr hy
    rw [hnext] at hy'
    split at hy'
    · cases hy'
    · next hu =>
      -- What was before a right end and is still there would be its left end.
      obtain rfl := hp.inj y p.1 p.2 (hp.kept y p.2 hu hy') (hp.seams p hm).1
      rw [(hp.freed p hm).resolve_left hu] at hy'
      cases hy'

theorem next_iff (hp : s.Pattern F us pairs) :
    (pairs.lookup x).or (if x ∈ us then none else s.nextAt x 0) = some y ↔ F x y := by
  constructor
  · intro h
    rcases hl : pairs.lookup x with _ | z
    · rw [hl, Option.none_or] at h
      split at h
      · cases h
      · next hu => exact hp.kept x y hu h
    · rw [hl, Option.some_or, Option.some.injEq] at h
      exact h ▸ hp.order_of_lookup hl
  · intro h
    rcases hp.covered x y h with hm | ⟨hu, hn⟩
    · rw [(lookup_eq_some_iff hp.lefts_nodup).mpr hm, Option.some_or]
    · rcases hl : pairs.lookup x with _ | z
      · rw [Option.none_or, if_neg hu, hn]
      · rw [Option.some_or, hp.unique x z y (hp.order_of_lookup hl) h]

end Pattern

end TourForest.SkipList
