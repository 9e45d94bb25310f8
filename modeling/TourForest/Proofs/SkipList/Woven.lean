import TourForest.Proofs.SkipList.Splice

/-!
# Arenas of sequences

An arena is `Woven` if each of its elements belongs to a sequence that is linked on all levels.
Joins of a last element to a first one and splits behind any element keep it so, and change level 0
in one place only:

* `Woven.join`: `l` is followed by `r`, and nothing else changes on level 0;
* `Woven.split`: `u` is followed by nothing, and nothing else changes on level 0.
-/

namespace TourForest.SkipList

variable {s s' : SkipList}

/-- Each element belongs to a sequence. -/
structure Woven (s : SkipList) : Prop where
  height_pos : ∀ u < s.size, 0 < s.height u
  height_le : ∀ u, s.height u ≤ maxHeight
  covered : ∀ u < s.size, ∃ closed xs, u ∈ xs ∧ s.IsSequence closed xs

/-! ## One sequence -/

/-- What holds of one place of a trail, and goes on with each step, holds of all later places. -/
theorem Trail.forall_mem {step : Nat → Option Nat} {P : Nat → Prop} {x : Nat} {xs : List Nat}
    {e : Option Nat} (h : Trail step (x :: xs) e) (hx : P x)
    (hP : ∀ y z, P y → step y = some z → P z) : ∀ y ∈ x :: xs, P y := by
  induction xs generalizing x with
  | nil => simpa using hx
  | cons z zs ih =>
    have hz : P z := hP x z hx (by simpa using h.1)
    intro y hy
    rcases List.mem_cons.mp hy with rfl | hy
    · exact hx
    · exact ih h.2 hz y hy

/-- What holds of one element of a row, and goes over to the neighbours, holds of all. -/
theorem Row.forall_mem {k : Nat} {p q : Option Nat} {xs : List Nat} {P : Nat → Prop} {z : Nat}
    (h : s.Row k p xs q) (hz : z ∈ xs) (hP : P z)
    (hn : ∀ x y, P x → s.nextAt x k = some y → P y)
    (hp : ∀ x y, P x → s.prevAt x k = some y → P y) : ∀ x ∈ xs, P x := by
  obtain ⟨as, bs, rfl⟩ := List.append_of_mem hz
  have hf := (Trail.append_iff.mp h.forth).2
  have hb := h.back
  rw [List.reverse_append, List.reverse_cons, List.append_assoc, List.singleton_append,
    Trail.append_iff] at hb
  intro x hx
  rcases List.mem_append.mp hx with hx | hx
  · exact hb.2.forall_mem hP hp x (List.mem_cons_of_mem _ (List.mem_reverse.mpr hx))
  · exact hf.forall_mem hP hn x hx

namespace IsSequence

variable {closed closed' : Bool} {xs ys : List Nat} {x y l r u : Nat}

/-- Level 0 has all elements. -/
theorem onLevel_zero (h : s.IsSequence closed xs) (hs : s.Woven) : s.onLevel 0 xs = xs :=
  List.filter_eq_self.mpr fun x hx => by simpa using hs.height_pos x (h.lt_size x hx)

theorem strand_zero (h : s.IsSequence closed xs) (hs : s.Woven) : s.Strand 0 closed xs := by
  have := h.strand 0
  rwa [h.onLevel_zero hs] at this

/-- Two sequences with a common element have all elements in common. -/
theorem subset_of_mem (h : s.IsSequence closed xs) (h' : s.IsSequence closed' ys) (hs : s.Woven)
    (hx : x ∈ xs) (hy : x ∈ ys) : xs ⊆ ys := fun z hz =>
  Row.forall_mem (P := (· ∈ ys)) (h.strand_zero hs) hx hy
    (fun _ _ ha hab => ((h'.strand_zero hs).prev_of_next ha hab).1)
    (fun _ _ ha hab => ((h'.strand_zero hs).next_of_prev ha hab).1) z hz

/-- The sequence of an element without a successor is a chain that ends with it. -/
theorem of_next_eq_none (h : s.IsSequence closed xs) (hs : s.Woven) (hl : l ∈ xs)
    (hn : s.nextAt l 0 = none) : closed = false ∧ xs.getLast? = some l := by
  obtain ⟨as, bs, rfl⟩ := List.append_of_mem hl
  have hq := Row.next_eq (h.strand_zero hs)
  rw [hn, eq_comm, Option.or_eq_none_iff] at hq
  obtain ⟨hb, hq⟩ := hq
  obtain rfl := List.head?_eq_none_iff.mp hb
  refine ⟨?_, by simp⟩
  cases closed with
  | false => rfl
  | true => simp at hq

/-- The sequence of an element without a predecessor is a chain that begins with it. -/
theorem of_prev_eq_none (h : s.IsSequence closed xs) (hs : s.Woven) (hr : r ∈ xs)
    (hp : s.prevAt r 0 = none) : closed = false ∧ xs.head? = some r := by
  obtain ⟨as, bs, rfl⟩ := List.append_of_mem hr
  have hq := Row.prev_eq (h.strand_zero hs)
  rw [hp, eq_comm, Option.or_eq_none_iff] at hq
  obtain ⟨ha, hq⟩ := hq
  obtain rfl := List.getLast?_eq_none_iff.mp ha
  refine ⟨?_, by simp⟩
  cases closed with
  | false => rfl
  | true => simp at hq

end IsSequence

namespace Woven

variable {l r u k : Nat}

/-! ## Keeping an arena woven -/

/-- An operation that makes sequences of the elements it changes keeps an arena woven. -/
theorem of_altered (hs : s.Woven) {xs : List Nat} (ha : s.Altered xs s')
    (hd : ∀ (c : Bool) (ys : List Nat), s.IsSequence c ys → ys.Disjoint xs ∨ ys ⊆ xs)
    (hx : ∀ x ∈ xs, ∃ c ys, x ∈ ys ∧ s'.IsSequence c ys) : s'.Woven := by
  refine ⟨fun u hu => ?_, fun u => ?_, fun u hu => ?_⟩
  · rw [ha.height]
    exact hs.height_pos u (ha.size ▸ hu)
  · rw [ha.height]
    exact hs.height_le u
  · obtain ⟨c, ys, hu, hys⟩ := hs.covered u (ha.size ▸ hu)
    rcases hd c ys hys with hd | hsub
    · exact ⟨c, ys, hu, hys.of_altered ha hd⟩
    · exact hx u (hsub hu)

/-- Sequences that are not the same have no element in common. -/
theorem disjoint_or_subset (hs : s.Woven) {c closed : Bool} {xs ys : List Nat}
    (hx : s.IsSequence c xs) (hy : s.IsSequence closed ys) : ys.Disjoint xs ∨ ys ⊆ xs := by
  by_cases h : ∃ z ∈ ys, z ∈ xs
  · obtain ⟨z, hzy, hzx⟩ := h
    exact .inr (hy.subset_of_mem hx hs hzy hzx)
  · exact .inl fun z hzy hzx => h ⟨z, hzy, hzx⟩

/-! ## Joins -/

/-- Closing a seam from level `k` on leaves the levels below `k` alone. -/
theorem nextAt_joinFrom {j : Nat} : ∀ (levels k l r : Nat) {s s' : SkipList},
    s.joinFrom levels k l r = .ok s' → j < k → s'.nextAt u j = s.nextAt u j := by
  intro levels
  induction levels with
  | zero =>
    rintro k l r s s' h -
    cases h
    rfl
  | succ levels ih =>
    intro k l r s s' h hj
    have hc : (s.connect k l r).nextAt u j = s.nextAt u j := by
      have hne : j ≠ k := Nat.ne_of_lt hj
      unfold connect
      dsimp only
      split <;> simp [nextAt_setNext, hne]
    rw [joinFrom] at h
    split at h
    · cases h
      rfl
    · obtain ⟨left, -, h⟩ := bind_eq_ok.mp h
      obtain ⟨right, -, h⟩ := bind_eq_ok.mp h
      split at h
      · rw [ih _ _ _ h (Nat.lt_succ_of_lt hj), hc]
      · cases h
        exact hc

theorem nextAt_connect (h : k < s.height l) :
    (s.connect k l r).nextAt u k = if u = l then some r else s.nextAt u k := by
  unfold connect
  dsimp only
  split <;> simp [nextAt_setNext, h]

/-- Closing the seam between two chains, or between the ends of one. -/
theorem join_of_sewn (hs : s.Woven) {left right xs : List Nat} {closed : Bool}
    (h : Sewn left right xs closed) (hL : s.IsSequence false left) (hR : s.IsSequence false right)
    (hl : left.getLast? = some l) (hr : right.head? = some r) :
    ∃ s', s.joinFrom maxHeight 0 l r = .ok s' ∧ s'.Woven ∧ s.Altered xs s' ∧
      ∀ u, s'.nextAt u 0 = if u = l then some r else s.nextAt u 0 := by
  have hn : xs.Nodup := h.nodup_iff.mpr ⟨hL.nodup, hR.nodup⟩
  have hx : ∀ x ∈ xs, x < s.size := fun x hx => (h.mem_iff.mp hx).elim (hL.lt_size x) (hR.lt_size x)
  have hlt : l < s.size := hL.lt_size l (List.mem_of_getLast? hl)
  obtain ⟨s', hok, ha, hs'⟩ := joinFrom_spec h hn maxHeight 0 l r s rfl hs.height_le hx
    ((hL.onLevel_zero hs).symm ▸ hl) ((hR.onLevel_zero hs).symm ▸ hr)
    (fun j hj => absurd hj (Nat.not_lt_zero j)) fun j _ => ⟨hL.strand j, hR.strand j⟩
  refine ⟨s', hok, hs.of_altered ha (fun c ys hy => ?_) fun x hxs =>
    ⟨closed, xs, hxs, hn, fun x hx' => ha.size ▸ hx x hx', hs'⟩, ha, fun u => ?_⟩
  · rcases hs.disjoint_or_subset hL hy with hdL | hsub
    · rcases hs.disjoint_or_subset hR hy with hdR | hsub
      · exact .inl fun z hz hzx => (h.mem_iff.mp hzx).elim (hdL hz) (hdR hz)
      · exact .inr fun z hz => h.right_subset (hsub hz)
    · exact .inr fun z hz => h.left_subset (hsub hz)
  · rw [show maxHeight = 31 + 1 from rfl, joinFrom] at hok
    have hnl : s.nextAt l 0 = none := by
      obtain ⟨as, rfl⟩ := List.getLast?_eq_some_iff.mp hl
      exact Row.next_last (hL.strand_zero hs)
    rw [hnl] at hok
    simp only [Option.isSome_none, Bool.false_eq_true, if_false] at hok
    obtain ⟨left', -, hok⟩ := bind_eq_ok.mp hok
    obtain ⟨right', -, hok⟩ := bind_eq_ok.mp hok
    rw [← nextAt_connect (hs.height_pos l hlt)]
    split at hok
    · exact nextAt_joinFrom _ _ _ _ hok Nat.one_pos
    · cases hok
      rfl

/-- A join of a last element to a first one. -/
theorem join (hs : s.Woven) (hl : l < s.size) (hr : r < s.size) (hln : s.nextAt l 0 = none)
    (hrp : s.prevAt r 0 = none) :
    ∃ s', s.join (some l) (some r) = .ok s' ∧ s'.Woven ∧ s'.size = s.size ∧
      (∀ u, s'.height u = s.height u) ∧
      ∀ u, s'.nextAt u 0 = if u = l then some r else s.nextAt u 0 := by
  obtain ⟨c, left, hlL, hL⟩ := hs.covered l hl
  obtain ⟨rfl, hlast⟩ := hL.of_next_eq_none hs hlL hln
  have hgo {right xs : List Nat} {closed : Bool} (h : Sewn left right xs closed)
      (hR : s.IsSequence false right) (hhead : right.head? = some r) :
      ∃ s', s.join (some l) (some r) = .ok s' ∧ s'.Woven ∧ s'.size = s.size ∧
        (∀ u, s'.height u = s.height u) ∧
        ∀ u, s'.nextAt u 0 = if u = l then some r else s.nextAt u 0 := by
    obtain ⟨s', hok, hw, ha, hnext⟩ := hs.join_of_sewn h hL hR hlast hhead
    refine ⟨s', ?_, hw, ha.size, ha.height, hnext⟩
    simp [SkipList.join, check_of_lt hl, check_of_lt hr, hln, hok]
  by_cases hrL : r ∈ left
  · exact hgo .closing hL (hL.of_prev_eq_none hs hrL hrp).2
  · obtain ⟨c, right, hrR, hR⟩ := hs.covered r hr
    obtain ⟨rfl, hhead⟩ := hR.of_prev_eq_none hs hrR hrp
    refine hgo (.apart fun z hzl hzr => hrL ?_) hR hhead
    exact hR.subset_of_mem hL hs hzr hzl hrR

/-! ## Splits -/

/-- Opening a seam from level `k` on leaves the levels below `k` alone. -/
theorem nextAt_splitFrom {j w : Nat} : ∀ (levels k u : Nat) {s s' : SkipList},
    s.splitFrom levels k u = .ok s' → j < k → s'.nextAt w j = s.nextAt w j := by
  intro levels
  induction levels with
  | zero =>
    rintro k u s s' h -
    cases h
    rfl
  | succ levels ih =>
    intro k u s s' h hj
    have hne : j ≠ k := Nat.ne_of_lt hj
    rw [splitFrom] at h
    split at h
    · cases h
      rfl
    · obtain ⟨left, -, h⟩ := bind_eq_ok.mp h
      split at h
      · rw [ih _ _ h (Nat.lt_succ_of_lt hj)]
        simp [nextAt_setNext, hne]
      · cases h
        simp [nextAt_setNext, hne]

/-- Opening the seam behind an element. -/
theorem split_of_sewn (hs : s.Woven) {left right xs : List Nat} {closed : Bool}
    (h : Sewn left right xs closed) (hx : s.IsSequence closed xs) (hu : left.getLast? = some u) :
    ∃ s', s.splitFrom maxHeight 0 u = .ok s' ∧ s'.Woven ∧ s.Altered xs s' ∧
      ∀ w, s'.nextAt w 0 = if w = u then none else s.nextAt w 0 := by
  have hlt : u < s.size := hx.lt_size u (h.left_subset (List.mem_of_getLast? hu))
  obtain ⟨hnL, hnR⟩ := h.nodup_iff.mp hx.nodup
  have hzero : s.onLevel 0 left = left := List.filter_eq_self.mpr fun x hxl => by
    simpa using hs.height_pos x (hx.lt_size x (h.left_subset hxl))
  obtain ⟨s', hok, ha, hs'⟩ := splitFrom_spec h hx.nodup maxHeight 0 u s rfl hs.height_le hx.lt_size
    (hzero.symm ▸ hu) (fun j hj => absurd hj (Nat.not_lt_zero j)) fun j _ => hx.strand j
  refine ⟨s', hok, hs.of_altered ha (fun c ys hy => hs.disjoint_or_subset hx hy) fun x hxs => ?_, ha,
    fun w => ?_⟩
  · rcases h.mem_iff.mp hxs with hm | hm
    · exact ⟨false, left, hm, hnL, fun y hy => ha.size ▸ hx.lt_size y (h.left_subset hy), fun k => (hs' k).1⟩
    · exact ⟨false, right, hm, hnR, fun y hy => ha.size ▸ hx.lt_size y (h.right_subset hy), fun k => (hs' k).2⟩
  · rw [show maxHeight = 31 + 1 from rfl, splitFrom] at hok
    have hpos := hs.height_pos u hlt
    split at hok
    · next hn =>
      cases hok
      split <;> simp_all
    · obtain ⟨left', -, hok⟩ := bind_eq_ok.mp hok
      split at hok
      · rw [nextAt_splitFrom _ _ _ hok Nat.one_pos]
        simp [nextAt_setNext, hpos]
      · cases hok
        simp [nextAt_setNext, hpos]

/-- A split behind any element. -/
theorem split (hs : s.Woven) (hu : u < s.size) :
    ∃ s', s.split (some u) = .ok (s.nextAt u 0, s') ∧ s'.Woven ∧ s'.size = s.size ∧
      (∀ w, s'.height w = s.height w) ∧
      ∀ w, s'.nextAt w 0 = if w = u then none else s.nextAt w 0 := by
  obtain ⟨c, xs, hux, hx⟩ := hs.covered u hu
  obtain ⟨as, bs, rfl⟩ := List.append_of_mem hux
  have hgo {left right ys : List Nat} {closed : Bool} (h : Sewn left right ys closed)
      (hy : s.IsSequence closed ys) (hlast : left.getLast? = some u) :
      ∃ s', s.split (some u) = .ok (s.nextAt u 0, s') ∧ s'.Woven ∧ s'.size = s.size ∧
        (∀ w, s'.height w = s.height w) ∧
        ∀ w, s'.nextAt w 0 = if w = u then none else s.nextAt w 0 := by
    obtain ⟨s', hok, hw, ha, hnext⟩ := hs.split_of_sewn h hy hlast
    refine ⟨s', ?_, hw, ha.size, ha.height, hnext⟩
    simp [SkipList.split, check_of_lt hu, hok]
  rw [List.append_cons] at hx
  cases c with
  | false =>
    exact hgo (.apart (List.nodup_append'.mp hx.nodup).2.2) hx (List.getLast?_concat)
  | true =>
    exact hgo .closing hx.rotate (by simp)

end Woven

end TourForest.SkipList
