import TourForest.Proofs.SkipList.Reachable

/-!
# The law of levels makes sequences

The law of levels says of each link where it leads. In an arena, where links cannot go on for ever without coming
back, it follows that each element is on a chain or a cycle, and that the higher levels pass the taller elements of
the same chain or cycle: the arena is woven (`LevelLaw.woven`).
-/

namespace TourForest.SkipList

variable {s : SkipList} {k u v w f : Nat} {o e : Option Nat} {xs zs : List Nat}

theorem Trail.step_last {step : Nat → Option Nat} {x l : Nat} (h : Trail step (x :: xs) e)
    (hl : (x :: xs).getLast? = some l) : step l = e := by
  obtain ⟨ys, hys⟩ := List.getLast?_eq_some_iff.mp hl
  rw [hys] at h
  exact h.step_eq

/-- Steps back go along a trail as steps forth do. -/
theorem Trail.reverse {step back : Nat → Option Nat} (hb : ∀ u v, step u = some v ↔ back v = some u)
    (h : Trail step xs e) (ho : ∀ x ∈ xs.head?, back x = o) : Trail back xs.reverse o := by
  induction xs generalizing o with
  | nil => trivial
  | cons x xs ih =>
    rw [List.reverse_cons, append_iff]
    refine ⟨ih h.2 fun y hy => (hb x y).mp ?_, ho x rfl, trivial⟩
    rw [show step x = _ from h.1, hy, Option.some_or]

/-- Where steps lead from distinct places to distinct places below `n`, a trail can be followed up to its end, or
back to where it begins. -/
theorem Trail.exists_closed {step : Nat → Option Nat} {n : Nat} (hlt : ∀ u v, step u = some v → v < n)
    (hinj : ∀ u v w, step u = some w → step v = some w → u = v) (ht : Trail step (u :: xs) e)
    (hn : (u :: xs).Nodup) (hx : ∀ x ∈ u :: xs, x < n) :
    ∃ ys e, Trail step (u :: ys) e ∧ (u :: ys).Nodup ∧ (∀ x ∈ u :: ys, x < n) ∧ (e = none ∨ e = some u) := by
  induction hm : n - (u :: xs).length using Nat.strong_induction_on generalizing xs e with
  | _ m ih =>
    cases e with
    | none => exact ⟨xs, none, ht, hn, hx, .inl rfl⟩
    | some z =>
      by_cases hzu : z = u
      · exact ⟨xs, some z, ht, hn, hx, .inr (congrArg some hzu)⟩
      obtain ⟨l, hl⟩ : ∃ l, (u :: xs).getLast? = some l := ⟨_, List.getLast?_eq_some_getLast (by simp)⟩
      have hlz : step l = some z := ht.step_last hl
      -- A place that was passed before comes behind one that is not the last.
      have hnew : z ∉ u :: xs := by
        intro hmem
        obtain ⟨as, bs, rfl⟩ := List.append_of_mem ((List.mem_cons.mp hmem).resolve_left hzu)
        rw [← List.cons_append] at ht hn hl
        obtain ⟨l', hl'⟩ : ∃ l', (u :: as).getLast? = some l' := ⟨_, List.getLast?_eq_some_getLast (by simp)⟩
        have hl'z : step l' = some z := (append_iff.mp ht).1.step_last hl'
        obtain rfl := hinj l l' z hlz hl'z
        rw [List.getLast?_append_of_ne_nil _ (by simp)] at hl
        exact (List.nodup_append'.mp hn).2.2 (List.mem_of_getLast? hl') (List.mem_of_getLast? hl)
      have hn' : (u :: (xs ++ [z])).Nodup := by
        rw [← List.cons_append]
        exact List.nodup_append'.mpr ⟨hn, List.nodup_singleton z, by simpa using hnew⟩
      have hx' : ∀ x ∈ u :: (xs ++ [z]), x < n := by
        rw [← List.cons_append]
        exact List.forall_mem_append.mpr ⟨hx, by simpa using hlt l z hlz⟩
      have hlen := (List.subperm_of_subset hn' fun x hm => List.mem_range.mpr (hx' x hm)).length_le
      refine ih (n - (u :: (xs ++ [z])).length) ?_ (e := step z) ?_ hn' hx' rfl
      · simp only [List.length_cons, List.length_append, List.length_range, List.length_nil] at hlen hm ⊢
        omega
      · rw [← List.cons_append, append_iff]
        exact ⟨ht, by simp⟩

namespace LevelLaw

variable (h : s.LevelLaw)
include h

theorem lt_size (hn : s.nextAt u k = some v) : v < s.size :=
  lt_size_of_height_pos (Nat.zero_lt_of_lt (Woven.lt_height_of_prev ((h.inverse k u v).mp hn)))

theorem next_inj (hu : s.nextAt u k = some w) (hv : s.nextAt v k = some w) : u = v :=
  Option.some.inj (((h.inverse k u w).mp hu).symm.trans ((h.inverse k v w).mp hv))

/-- Along the elements of level `k` on a trail of level 0, level `k` is a trail as well. -/
theorem trail_onLevel (ht : Trail (s.nextAt · 0) xs e) (he : ∀ x ∈ e, k < s.height x) :
    Trail (s.nextAt · k) (s.onLevel k xs) e := by
  induction xs with
  | nil => trivial
  | cons x xs ih =>
    rw [onLevel_cons]
    split
    · next hx =>
      obtain ⟨ys, hy⟩ := h.skips k x hx
      obtain ⟨ys', zs, rfl, hy', hz⟩ := stretch_of_trail (k := k) ht.2 he
      rw [← show s.nextAt x 0 = _ from ht.1] at hy'
      refine ⟨?_, ih ht.2⟩
      rw [← hz]
      exact (hy.unique hy').2
    · exact ih ht.2

/-- Nothing before a stretch is outside a sequence in which the stretch ends. -/
theorem mem_of_stretch {closed : Bool} (hrow : s.Strand 0 closed xs) (hz : s.Stretch k o zs (some f)) (hf : f ∈ xs) :
    ∃ v ∈ xs, o = some v := by
  generalize he : some f = e at hz
  induction hz with
  | ended => cases he
  | tall =>
    cases he
    exact ⟨f, hf, rfl⟩
  | low _ _ ih =>
    obtain ⟨w, hw, hvw⟩ := ih he
    exact ⟨_, (hrow.next_of_prev hw ((h.inverse 0 _ w).mp hvw)).1, rfl⟩

/-- A chain of level 0 is one on all levels. -/
theorem strand_of_open (hrow : s.Strand 0 false xs) (hn : xs.Nodup) : s.Strand k false (s.onLevel k xs) := by
  have ht : Trail (s.nextAt · k) (s.onLevel k xs) none := h.trail_onLevel hrow.forth (by simp)
  refine ⟨ht, ht.reverse (h.inverse k) fun f hf => Option.eq_none_iff_forall_ne_some.mpr fun w hw => ?_⟩
  -- What links to the first element of the level would be on the chain before it.
  have hwf := (h.inverse k w f).mpr hw
  have hwk := Woven.lt_height_of_next hwf
  obtain ⟨zs, hz⟩ := h.skips k w hwk
  rw [hwf] at hz
  obtain ⟨v, hv, hwv⟩ := h.mem_of_stretch hrow hz (mem_onLevel.mp (List.mem_of_mem_head? hf)).1
  have hwx : w ∈ s.onLevel k xs := mem_onLevel.mpr ⟨(hrow.next_of_prev hv ((h.inverse 0 w v).mp hwv)).1, hwk⟩
  obtain ⟨as, bs, hsplit⟩ := List.append_of_mem hwx
  have hnk : (as ++ w :: bs).Nodup := hsplit ▸ hn.filter _
  rw [hsplit] at ht hf
  have hb : bs.head? = some f := by simpa [hwf] using ht.step_eq.symm
  rw [List.append_cons, List.nodup_append'] at hnk
  refine hnk.2.2 ?_ (List.mem_of_mem_head? hb)
  rw [List.append_cons, List.head?_append] at hf
  cases as with
  | nil => simpa using hf.symm
  | cons a as => simpa using Or.inl hf.symm

/-- A cycle of level 0 is one on all levels. -/
theorem strand_of_closed (hrow : s.Strand 0 true xs) : s.Strand k true (s.onLevel k xs) := by
  rcases hxk : s.onLevel k xs with _ | ⟨v, vs⟩
  · exact Strand.nil
  -- The cycle is listed from the first element of the level on.
  obtain ⟨as, bs, rfl, has, hv, hbs⟩ := List.filter_eq_cons_iff.mp hxk
  have hvk : k < s.height v := by simpa using hv
  have hnil : s.onLevel k as = [] := List.filter_eq_nil_iff.mpr has
  have hlevel : s.onLevel k (v :: bs ++ as) = v :: vs := by
    rw [onLevel_append, hnil, List.append_nil, onLevel_cons, if_pos hvk, onLevel, hbs]
  have ht : Trail (s.nextAt · k) (v :: vs) (some v) := by
    rw [← hlevel]
    exact h.trail_onLevel hrow.rotate.forth (by simpa using hvk)
  refine ⟨ht, ht.reverse (h.inverse k) fun x hx => ?_⟩
  obtain rfl : v = x := by simpa using hx
  obtain ⟨l, hl⟩ : ∃ l, (v :: vs).getLast? = some l := ⟨_, List.getLast?_eq_some_getLast (by simp)⟩
  rw [cond_true, hl]
  exact (h.inverse k l v).mp (ht.step_last hl)

/-- Where level 0 is a chain or a cycle, so are all levels. -/
theorem isSequence {closed : Bool} (hrow : s.Strand 0 closed xs) (hn : xs.Nodup) (hx : ∀ x ∈ xs, x < s.size) :
    s.IsSequence closed xs := by
  refine ⟨hn, hx, fun k => ?_⟩
  cases closed with
  | false => exact h.strand_of_open hrow hn
  | true => exact h.strand_of_closed hrow

/-- From an element with nothing before it on, level 0 is a chain. -/
theorem exists_chain (hf : f < s.size) (hprev : s.prevAt f 0 = none) :
    ∃ ys, s.Strand 0 false (f :: ys) ∧ (f :: ys).Nodup ∧ ∀ x ∈ f :: ys, x < s.size := by
  have hforth : Trail (s.nextAt · 0) [f] (s.nextAt f 0) := ⟨rfl, trivial⟩
  obtain ⟨ys, e, hys, hn, hx, he⟩ := hforth.exists_closed (fun _ _ => h.lt_size) (fun _ _ _ => h.next_inj)
    (List.nodup_singleton f) (by simpa using hf)
  obtain ⟨l, hl⟩ : ∃ l, (f :: ys).getLast? = some l := ⟨_, List.getLast?_eq_some_getLast (by simp)⟩
  obtain rfl : e = none := he.resolve_right fun he => by
    rw [(h.inverse 0 l f).mp ((hys.step_last hl).trans he)] at hprev
    cases hprev
  exact ⟨ys, ⟨hys, hys.reverse (h.inverse 0) (by simpa using hprev)⟩, hn, hx⟩

/-- Each element is on a chain or a cycle of level 0: the way back from it ends at the first element of a chain, from
where the way forth passes it, or comes around to it. -/
theorem exists_strand (hu : u < s.size) :
    ∃ closed xs, u ∈ xs ∧ s.Strand 0 closed xs ∧ xs.Nodup ∧ ∀ x ∈ xs, x < s.size := by
  have hinverse (v w : Nat) : s.prevAt v 0 = some w ↔ s.nextAt w 0 = some v := (h.inverse 0 w v).symm
  have hback : Trail (s.prevAt · 0) [u] (s.prevAt u 0) := ⟨rfl, trivial⟩
  have hlt (v w : Nat) (hvw : s.prevAt v 0 = some w) : w < s.size :=
    lt_size_of_height_pos (Nat.zero_lt_of_lt (Woven.lt_height_of_next ((hinverse v w).mp hvw)))
  have hinj (v w x : Nat) (hv : s.prevAt v 0 = some x) (hw : s.prevAt w 0 = some x) : v = w :=
    Option.some.inj (((hinverse v x).mp hv).symm.trans ((hinverse w x).mp hw))
  obtain ⟨zs, e, hzs, hn, hx, he⟩ := hback.exists_closed hlt hinj (List.nodup_singleton u) (by simpa using hu)
  obtain ⟨first, hfirst⟩ : ∃ l, (u :: zs).getLast? = some l := ⟨_, List.getLast?_eq_some_getLast (by simp)⟩
  have hend : s.prevAt first 0 = e := hzs.step_last hfirst
  rcases he with rfl | rfl
  · obtain ⟨ys, hrow, hn', hx'⟩ := h.exists_chain (hx first (List.mem_of_getLast? hfirst)) hend
    refine ⟨false, _, ?_, hrow, hn', hx'⟩
    have hway : Trail (s.nextAt · 0) (u :: zs).reverse (s.nextAt u 0) := hzs.reverse hinverse (by simp)
    obtain ⟨rest, hrest⟩ : ∃ rest, (u :: zs).reverse = first :: rest :=
      List.head?_eq_some_iff.mp (by rw [List.head?_reverse, hfirst])
    rw [hrest] at hway
    exact hway.forall_mem (P := (· ∈ first :: ys)) List.mem_cons_self
      (fun y z hy hyz => (hrow.prev_of_next hy hyz).1) u (hrest ▸ List.mem_reverse.mpr List.mem_cons_self)
  · refine ⟨true, (u :: zs).reverse, List.mem_reverse.mpr List.mem_cons_self, ⟨?_, ?_⟩, List.nodup_reverse.mpr hn,
      fun x hm => hx x (List.mem_reverse.mp hm)⟩
    · rw [cond_true, List.head?_reverse, hfirst]
      exact hzs.reverse hinverse (by simpa using (hinverse first u).mp hend)
    · rw [cond_true, List.reverse_reverse, List.getLast?_reverse]
      exact hzs

/-- The law of levels makes an arena woven. -/
theorem woven (hpos : ∀ u < s.size, 0 < s.height u) (hle : ∀ u, s.height u ≤ maxHeight) : s.Woven := by
  refine ⟨hpos, hle, fun u hu => ?_⟩
  obtain ⟨closed, xs, hux, hrow, hn, hx⟩ := h.exists_strand hu
  exact ⟨closed, xs, hux, h.isSequence hrow hn hx⟩

end LevelLaw

end TourForest.SkipList
