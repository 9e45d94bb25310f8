import TourForest.Proofs.SumList.Claim

/-!
# Repair

While a batch is being repaired, each sum is right or out of date by a mark (`Pending`). Refreshing an
element on a level settles it: its sums up to that level are right, and none of its descendants is
marked any more (`Settled`). Both orders of going through a run come to that.

* `refreshInOrder_spec`, `refresh_spec`: a refresh settles an element;
* `repair_spec`: a repair makes all sums right, if the wrong ones belong to ancestors of what changed.
-/

namespace TourForest.SumList

variable {a a' a'' : SumList} {j k m u v p cutoff : Nat} {us xs ys zs : List Nat} {o e : Option Nat}

/-! ## Runs -/

/-- Along a level up to a taller element. -/
theorem runFrom_blocks (h : a.list.Blocks k o zs e) (hz : ∀ z ∈ zs, a.height z ≤ k + 1)
    (he : ∀ x ∈ e, k + 1 < a.height x) {steps : Nat} (hl : (a.list.onLevel k zs).length < steps) :
    a.runFrom k steps o = ⟨a.list.onLevel k zs, true⟩ := by
  induction h generalizing steps with
  | @done e =>
    obtain ⟨steps, rfl⟩ := Nat.exists_eq_add_one_of_ne_zero (Nat.ne_zero_of_lt hl)
    cases e with
    | none => rfl
    | some x => rw [runFrom, if_pos (he x rfl), SkipList.onLevel_nil]
  | @block v ys zs e hv hy _ ih =>
    obtain ⟨steps, rfl⟩ := Nat.exists_eq_add_one_of_ne_zero (Nat.ne_zero_of_lt hl)
    obtain ⟨hvk, hz⟩ := List.forall_mem_cons.mp hz
    rw [hy.onLevel_block hv] at hl ⊢
    rw [runFrom, if_neg (not_lt.mpr hvk),
      ih (fun z hm => hz z (List.mem_append_right _ hm)) he (by simpa using hl)]

/-- What an element skips on level `k + 1` is what it skips on level `k`, and then the blocks of its
run. -/
theorem Shaped.run_blocks (hs : a.Shaped) (hk : k + 1 < a.height u)
    (hx : a.list.Stretch (k + 1) (a.list.nextAt u 0) xs e) :
    ∃ ys zs, xs = ys ++ zs ∧ a.list.Stretch k (a.list.nextAt u 0) ys (a.list.nextAt u k) ∧
      a.list.Blocks k (a.list.nextAt u k) zs e ∧ a.list.onLevel k xs = a.list.onLevel k zs := by
  obtain ⟨ys, hy⟩ := hs.woven.stretch (Nat.lt_of_succ_lt hk)
  obtain ⟨zs, rfl, hz⟩ := hy.split hx (Nat.le_succ k)
  obtain ⟨ho, ht⟩ := hz.trail
  refine ⟨ys, zs, rfl, hy, ?_, by rw [SkipList.onLevel_append, hy.onLevel_eq_nil, List.nil_append]⟩
  rw [ho]
  refine hs.woven.blocks ht (fun x hxe => Nat.lt_of_succ_lt (hx.lt_height x hxe)) fun z hzh => ?_
  rw [hzh, Option.some_or] at ho
  exact SkipList.Woven.lt_height_of_prev (hs.woven.next_iff_prev.mp ho)

/-- The run of an element ends, and consists of what it skips on the next level. -/
theorem Shaped.run_eq (hs : a.Shaped) (hk : k + 1 < a.height u)
    (hx : a.list.Stretch (k + 1) (a.list.nextAt u 0) xs e) :
    a.run u k = ⟨a.list.onLevel k xs, true⟩ := by
  obtain ⟨ys, zs, rfl, -, hb, hl⟩ := hs.run_blocks hk hx
  obtain ⟨hn, hlt⟩ := hs.woven.stretch_nodup hk hx
  rw [run, hl]
  refine runFrom_blocks hb (fun z hz => hx.height_le z (List.mem_append_right _ hz)) hx.lt_height ?_
  have hlen := SkipList.length_le_size hn hlt
  have hfil : (a.list.onLevel k zs).length ≤ zs.length := List.length_filter_le ..
  rw [List.length_cons, List.length_append] at hlen
  exact Nat.lt_of_le_of_lt hfil (by unfold SumList.size; omega)

/-! ## Settling an element -/

/-- Each sum that is not right is out of date by a mark. -/
structure Pending (a : SumList) : Prop extends Shaped a where
  bounded : a.Bounded
  climbed : a.Climbed none
  summed : ∀ u k, k < a.height u → a.Summed u k ∨ ∃ m ≤ k, a.markAt u = some m

/-- The sums of `u` up to level `k` are right, and none of its descendants is marked. -/
structure Settled (a : SumList) (k u : Nat) : Prop where
  summed : ∀ j ≤ k, a.Summed u j
  below : ∀ x ≠ u, a.list.Ancestor k x u → a.markAt x = none
  top : a.height u = k + 1 → a.markAt u = none

/-- Marks have been taken off, and right sums are still right. -/
structure Refreshed (a a' : SumList) : Prop extends Alike a a' where
  cleared : ∀ x, a.markAt x = none → a'.markAt x = none
  summed : ∀ x k, a.Summed x k → a'.Summed x k

namespace Refreshed

theorem refl (a : SumList) : a.Refreshed a := ⟨.refl a, fun _ => id, fun _ _ => id⟩

theorem trans (h : a.Refreshed a') (h' : a'.Refreshed a'') : a.Refreshed a'' :=
  ⟨h.toAlike.trans h'.toAlike, fun x hx => h'.cleared x (h.cleared x hx),
    fun x k hx => h'.summed x k (h.summed x k hx)⟩

theorem settled (h : a.Refreshed a') (hu : a.Settled k u) : a'.Settled k u :=
  ⟨fun j hj => h.summed u j (hu.summed j hj), fun x hx hxu => h.cleared x (hu.below x hx (h.list ▸ hxu)),
    fun ht => h.cleared u (hu.top (h.height u ▸ ht))⟩

end Refreshed

/-- What is not out of date is settled. -/
theorem Pending.settled (h : a.Pending) (hk : k < a.height u) (ho : a.outdated u (k + 1) = false) :
    a.Settled k u := by
  have hmark (m : Nat) (hm : a.markAt u = some m) : k < m := by
    rw [outdated, hm, Option.any_some, decide_eq_false_iff_not] at ho
    omega
  refine ⟨fun j hj => ?_, fun x hx hxu => ?_, fun ht => ?_⟩
  · obtain hs | ⟨m, hm, hu⟩ := h.summed u j (hj.trans_lt hk)
    · exact hs
    · exact absurd (hmark m hu) (not_lt.mpr (hm.trans hj))
  · rcases hm : a.markAt x with _ | m
    · rfl
    · have hxk : a.height x ≤ k := by
        cases hxu with
        | here => exact absurd rfl hx
        | left hle => exact hle
      obtain ⟨n, hn, hu⟩ :=
        h.climbed.mark_le hm ((Nat.le_of_lt (h.climbed.lt_height x m hm)).trans hxk) hxu
      exact absurd (hmark n hu) (not_lt.mpr hn)
  · rcases hm : a.markAt u with _ | m
    · rfl
    · have := h.climbed.lt_height u m hm
      have := hmark m hm
      omega

/-- The mark of an element comes off with its highest level. -/
theorem Pending.settle (h : a.Pending) (hk : k < a.height u) (hs : ∀ j ≤ k, a.Summed u j)
    (hb : ∀ x ≠ u, a.list.Ancestor k x u → a.markAt x = none) :
    (if a.height u = k + 1 then a.setMark u none else a).Pending ∧
      a.Refreshed (if a.height u = k + 1 then a.setMark u none else a) ∧
      (if a.height u = k + 1 then a.setMark u none else a).Settled k u := by
  have hu : u < a.size := SkipList.lt_size_of_height_pos (Nat.zero_lt_of_lt hk)
  by_cases ht : a.height u = k + 1
  · rw [if_pos ht]
    have hmark (v : Nat) := h.markAt_setMark hu none (v := v)
    have hr := Remarked.setMark a u none
    have hclear (x : Nat) (hx : a.markAt x = none) : (a.setMark u none).markAt x = none := by
      rw [hmark, hx, ite_self]
    have hkept (x m : Nat) (hx : (a.setMark u none).markAt x = some m) : x ≠ u ∧ a.markAt x = some m := by
      rw [hmark] at hx
      split at hx
      · cases hx
      · next hxu => exact ⟨hxu, hx⟩
    refine ⟨⟨hr.shaped h.toShaped, hr.bounded h.bounded, ⟨fun x m hx => ?_, fun x m p hx hxp => ?_⟩,
      fun x j hj => ?_⟩, ⟨hr.toAlike, hclear, fun x j => hr.summed⟩,
      fun j hj => hr.summed (hs j hj), fun x hx hxu => hclear x (hb x hx hxu), fun _ => by rw [hmark, if_pos rfl]⟩
    · exact h.climbed.lt_height x m (hkept x m hx).2
    · obtain ⟨hxu, hxm⟩ := hkept x m hx
      have hxp : a.list.Ancestor (a.height x) x p := hxp
      obtain hc | ⟨n, hn, hp⟩ := h.climbed.parent x m p hxm hxp
      · cases hc
      · refine .inr ⟨n, hn, ?_⟩
        rw [hmark, if_neg, hp]
        rintro rfl
        -- A marked descendant would have been left behind.
        have hlt : a.height x < a.height p := hxp.lt_height
        have hnone := hb x hxu (hxp.mono (by omega : a.height x ≤ k) hk)
        rw [hnone] at hxm
        cases hxm
    · by_cases hxu : x = u
      · subst hxu
        have hj : j < a.height x := hj
        exact .inl (hr.summed (hs j (by omega)))
      · obtain hx | ⟨m, hm, hx⟩ := h.summed x j hj
        · exact .inl (hr.summed hx)
        · exact .inr ⟨m, hm, by rw [hmark, if_neg hxu, hx]⟩
  · rw [if_neg ht]
    exact ⟨h, .refl a, hs, hb, fun h => absurd h ht⟩

/-- Adding up the run of an element settles it one level higher. -/
theorem recompute_spec (h : a.Pending) (hk : k + 1 < a.height u)
    (hx : a.list.Stretch (k + 1) (a.list.nextAt u 0) xs e) (hu : a.Settled k u)
    (hr : ∀ v ∈ a.list.onLevel k xs, a.Settled k v) :
    ∃ a', a.recompute u k (a.list.onLevel k xs) = .ok a' ∧ a'.Pending ∧ a.Refreshed a' ∧
      a'.Settled (k + 1) u := by
  obtain ⟨ys, zs, rfl, hy, hb, hl⟩ := h.run_blocks hk hx
  obtain ⟨hn, hlt⟩ := h.woven.stretch_nodup hk hx
  have hsum : (a.list.onLevel k zs).foldlM (fun sum v => addValues sum (a.valueAt v k)) (a.valueAt u k) =
      .ok (a.total (u :: (ys ++ zs))) := by
    rw [(hu.summed k le_rfl).eq_total hy]
    exact foldlM_blocks h.bounded hb (fun v hv => (hr v (hl ▸ hv)).summed k le_rfl) hn hlt
  -- With the sum set, the element is settled but for its mark.
  obtain ⟨hsummed, hkept⟩ := h.summed_setValue hk hx
  generalize hset : a.setValue u (k + 1) (a.total (u :: (ys ++ zs))) = b at hsummed hkept
  have hab : a.Alike b := hset ▸ Alike.setValue ..
  have hmark (x : Nat) : b.markAt x = a.markAt x := hset ▸ rfl
  have hb : b.Pending := by
    refine ⟨hab.shaped h.toShaped, hab.bounded h.bounded, ⟨fun x m hm => ?_, fun x m p hm hp => ?_⟩,
      fun x j hj => ?_⟩
    · rw [hab.height]
      exact h.climbed.lt_height x m (hmark x ▸ hm)
    · rw [hab.height, hmark]
      rw [hab.height, hab.list] at hp
      exact h.climbed.parent x m p (hmark x ▸ hm) hp
    · rw [hmark]
      rw [hab.height] at hj
      exact (h.summed x j hj).imp_left (hkept x j)
  have hbr : a.Refreshed b := ⟨hab, fun x hm => (hmark x).trans hm, hkept⟩
  have hsummed' (j : Nat) (hj : j ≤ k + 1) : b.Summed u j := by
    rcases Nat.le_succ_iff.mp hj with hj | rfl
    · exact hkept u j (hu.summed j hj)
    · exact hsummed
  have hbelow (x : Nat) (hxu : x ≠ u) (hxp : b.list.Ancestor (k + 1) x u) : b.markAt x = none := by
    -- A descendant is one of `u` or of an element of its run on the level below.
    rw [hab.list] at hxp
    rw [hmark]
    obtain ⟨p, hxp', hpu⟩ := hxp.factor (Nat.le_succ k)
    by_cases hpu' : p = u
    · exact hu.below x hxu (hpu' ▸ hxp')
    · have hm : p ∈ ys ++ zs := (List.mem_cons.mp (hpu.mem_of_stretch hx)).resolve_left hpu'
      have hp := hr p (SkipList.mem_onLevel.mpr ⟨hm, hxp'.lt_height⟩)
      by_cases hxp'' : x = p
      · subst hxp''
        exact hp.top (Nat.le_antisymm (hx.height_le x hm) hxp'.lt_height)
      · exact hp.below x hxp'' hxp'
  obtain ⟨hp, hr', hset'⟩ := hb.settle (hab.height u ▸ hk) hsummed' hbelow
  refine ⟨_, ?_, hp, hbr.trans hr', hset'⟩
  rw [recompute, hl, hsum, ok_bind, hset]
  simp only [pure_eq_ok]

/-! ## Refreshing -/

/-- The steps of a refresh in order, one after the other. -/
theorem refreshInOrder_succ (k : Nat) (a : SumList) (u : Nat) :
    refreshInOrder (k + 1) a u =
      (if (a.markAt u).all (· < k + 1) then refreshInOrder k a u else pure a).bind fun b =>
        ((b.run u k).elements.foldlM
          (fun (b : SumList) v => if b.outdated v (k + 1) then refreshInOrder k b v else pure b) b).bind fun c =>
        (b.run u k).finished.bind (c.recompute u k) := by
  rw [refreshInOrder]
  split <;> rfl

/-- A refresh in order settles an element. -/
theorem refreshInOrder_spec : ∀ (k : Nat) (a : SumList) (u : Nat), a.Pending → k < a.height u →
    ∃ a', refreshInOrder k a u = .ok a' ∧ a'.Pending ∧ a.Refreshed a' ∧ a'.Settled k u := by
  intro k
  induction k with
  | zero =>
    intro a u h hk
    refine ⟨_, rfl, h.settle hk (fun j hj => ?_) fun x hx hxu => ?_⟩
    · rw [Nat.le_zero.mp hj]
      exact h.summed_zero u
    · rcases List.mem_cons.mp (hxu.mem_of_stretch (h.stretch_zero u)) with rfl | hm
      · exact absurd rfl hx
      · cases hm
  | succ k ih =>
    intro a u h hk
    have hk' := Nat.lt_of_succ_lt hk
    obtain ⟨xs, hx⟩ := h.woven.stretch hk
    have hfirst : ∃ b, (if (a.markAt u).all (· < k + 1) then refreshInOrder k a u else pure a) = .ok b ∧
        b.Pending ∧ a.Refreshed b ∧ b.Settled k u := by
      split
      · exact ih a u h hk'
      · next hm =>
        refine ⟨a, rfl, h, .refl a, h.settled hk' ?_⟩
        rw [outdated]
        cases hu : a.markAt u with
        | none => rfl
        | some m => simpa [hu] using hm
    obtain ⟨b, hb, hbp, hab, hbu⟩ := hfirst
    have hstep (c : SumList) (hc : c.Pending ∧ b.Refreshed c) (v : Nat) (hv : v ∈ b.list.onLevel k xs) :
        ∃ d, (if c.outdated v (k + 1) then refreshInOrder k c v else pure c) = .ok d ∧
          (d.Pending ∧ b.Refreshed d) ∧ c.Refreshed d ∧ d.Settled k v := by
      have hvk : k < c.height v := hc.2.height v ▸ (SkipList.mem_onLevel.mp hv).2
      split
      · obtain ⟨d, hd, hdp, hcd, hset⟩ := ih c v hc.1 hvk
        exact ⟨d, hd, ⟨hdp, hc.2.trans hcd⟩, hcd, hset⟩
      · next ho => exact ⟨c, rfl, hc, .refl c, hc.1.settled hvk (by simpa using ho)⟩
    obtain ⟨c, hc, ⟨hcp, -⟩, hbc, hset⟩ := foldlM_each (R := Refreshed) (Q := fun a v => a.Settled k v)
      Refreshed.refl (fun _ _ _ => Refreshed.trans) (fun _ _ _ hv hr => hr.settled hv) hstep
      ⟨hbp, .refl b⟩
    have hac := hab.trans hbc
    obtain ⟨a', ha', hp, hr, hs⟩ := recompute_spec hcp (hac.height u ▸ hk) (hac.list ▸ hx)
      (hbc.settled hbu) fun v hv => hset v (hbc.list ▸ hv)
    refine ⟨a', ?_, hp, hac.trans hr, hs⟩
    have hrun := hbp.run_eq (hab.height u ▸ hk) (hab.list ▸ hx)
    rw [refreshInOrder_succ, hb, Except.bind, hrun]
    simp only [hc, Except.bind, Run.finished, if_true]
    rw [← hbc.list, ha']

/-- A refresh settles an element, whatever the cutoff and the schedule. -/
theorem refresh_spec (cutoff : Nat) (schedule : Schedule) : ∀ (k : Nat) (a : SumList) (u : Nat), a.Pending →
    k < a.height u → ∃ a', refresh cutoff schedule k a u = .ok a' ∧ a'.Pending ∧ a.Refreshed a' ∧ a'.Settled k u := by
  intro k
  induction k with
  | zero => exact refreshInOrder_spec 0
  | succ k ih =>
    intro a u h hk
    rw [refresh]
    split
    · exact refreshInOrder_spec (k + 1) a u h hk
    · have hk' := Nat.lt_of_succ_lt hk
      obtain ⟨xs, hx⟩ := h.woven.stretch hk
      have hall (v : Nat) (hv : v ∈ u :: a.list.onLevel k xs) : k < a.height v := by
        rcases List.mem_cons.mp hv with rfl | hv
        · exact hk'
        · exact (SkipList.mem_onLevel.mp hv).2
      have hstep (c : SumList) (hc : c.Pending ∧ a.Refreshed c) (v : Nat)
          (hv : v ∈ schedule.order ((u :: a.list.onLevel k xs).filter (a.outdated · (k + 1)))) :
          ∃ d, refresh cutoff schedule k c v = .ok d ∧
            (d.Pending ∧ a.Refreshed d) ∧ c.Refreshed d ∧ d.Settled k v := by
        have hv := (List.mem_filter.mp ((schedule.perm _).mem_iff.mp hv)).1
        obtain ⟨d, hd, hdp, hcd, hset⟩ := ih c v hc.1 (hc.2.height v ▸ hall v hv)
        exact ⟨d, hd, ⟨hdp, hc.2.trans hcd⟩, hcd, hset⟩
      obtain ⟨c, hc, ⟨hcp, -⟩, hac, hset⟩ := foldlM_each (R := Refreshed) (Q := fun a v => a.Settled k v)
        Refreshed.refl (fun _ _ _ => Refreshed.trans) (fun _ _ _ hv hr => hr.settled hv) hstep
        ⟨h, .refl a⟩
      have hset' (v : Nat) (hv : v ∈ u :: a.list.onLevel k xs) : c.Settled k v := by
        by_cases ho : a.outdated v (k + 1)
        · exact hset v ((schedule.perm _).mem_iff.mpr (List.mem_filter.mpr ⟨hv, ho⟩))
        · exact hac.settled (h.settled (hall v hv) (by simpa using ho))
      obtain ⟨a', ha', hp, hr, hs⟩ := recompute_spec hcp (hac.height u ▸ hk) (hac.list ▸ hx)
        (hset' u List.mem_cons_self) fun v hv => hset' v (List.mem_cons_of_mem _ (hac.list ▸ hv))
      refine ⟨a', ?_, hp, hac.trans hr, hs⟩
      rw [h.run_eq hk hx]
      simp only [Run.finished, if_true, ok_bind, hc]
      rw [← hac.list, ha']

/-! ## Repairing a batch -/

/-- Only the sums of ancestors of what changed are wrong. -/
structure Stale (a : SumList) (us : List Nat) : Prop extends Shaped a where
  bounded : a.Bounded
  unmarked : ∀ u, a.markAt u = none
  summed : ∀ u k, k < a.height u → a.Summed u k ∨ ∃ v ∈ us, a.list.Ancestor k v u

theorem Stale.mono {vs : List Nat} (h : a.Stale us) (hsub : ∀ u ∈ us, u ∈ vs) : a.Stale vs :=
  ⟨h.toShaped, h.bounded, h.unmarked, fun u k hk => (h.summed u k hk).imp_right fun ⟨v, hv, hvu⟩ => ⟨v, hsub v hv, hvu⟩⟩

/-- Repairing a batch makes all sums right. -/
theorem repair_spec (h : a.Stale us) (hus : ∀ u ∈ us, u < a.size) :
    ∃ a', a.repair (us.map some) = .ok a' ∧ a'.Sound ∧ a.Alike a' := by
  have hmark (x m : Nat) : ¬ a.markAt x = some m := by simp [h.unmarked]
  obtain ⟨tops, b, hb, hr, hc, ht, -, hus⟩ := claimAll_spec h.toShaped
    ⟨fun x m hx => absurd hx (hmark x m), fun x m _ hx => absurd hx (hmark x m)⟩
    (⟨fun x m hx => absurd hx (hmark x m), by simp⟩ : a.Claimed []) hus
  rw [List.append_nil] at ht
  have hbs := hr.shaped h.toShaped
  have hbp : b.Pending := by
    refine ⟨hbs, hr.bounded h.bounded, hc, fun x j hj => ?_⟩
    obtain hs | ⟨v, hv, hvx⟩ := h.summed x j (hr.height x ▸ hj)
    · exact .inl (hr.summed hs)
    · exact .inr (hc.mark_le (hus v hv) (Nat.zero_le j) (hr.list ▸ hvx))
  have hstep (c : SumList) (hc : c.Pending ∧ b.Refreshed c) (t : Nat) (htop : t ∈ tops) :
      ∃ d, refresh inOrderLevels .lastFirst (c.height t - 1) c t = .ok d ∧
        (d.Pending ∧ b.Refreshed d) ∧ c.Refreshed d ∧ d.Settled (b.height t - 1) t := by
    have hpos := ht.height_pos t htop
    obtain ⟨d, hd, hdp, hcd, hset⟩ := refresh_spec inOrderLevels .lastFirst (c.height t - 1) c t hc.1
      (Nat.sub_one_lt (by rw [hc.2.height]; omega))
    exact ⟨d, hd, ⟨hdp, hc.2.trans hcd⟩, hcd, hc.2.height t ▸ hset⟩
  obtain ⟨a', ha', ⟨hp, -⟩, hba, hset⟩ := foldlM_each (R := Refreshed)
    (Q := fun a t => a.Settled (b.height t - 1) t) Refreshed.refl (fun _ _ _ => Refreshed.trans)
    (fun _ _ _ hv hr => hr.settled hv) hstep ⟨hbp, .refl b⟩
  have hunmarked (x : Nat) : a'.markAt x = none := by
    rcases hm : b.markAt x with _ | m
    · exact hba.cleared x hm
    · obtain ⟨t, htop, hxt⟩ := ht.exists_top hbs hc hm
      have htset := hset t htop
      by_cases hxt' : x = t
      · subst hxt'
        have hpos := ht.height_pos x htop
        exact htset.top (by rw [hba.height]; omega)
      · exact htset.below x hxt' (hba.list ▸ hxt)
  refine ⟨a', ?_, ⟨hp.toShaped, hunmarked, fun u k hk => ?_⟩, hr.toAlike.trans hba.toAlike⟩
  · rw [repair, hb, ok_bind]
    exact ha'
  · exact (hp.summed u k hk).resolve_right fun ⟨m, _, hm⟩ => by simp [hunmarked] at hm

end TourForest.SumList
