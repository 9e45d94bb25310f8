import TourForest.Proofs.SumList.Total
import TourForest.SumList.Repair

/-!
# Claiming ancestors

A claim marks an element and its ancestors. Between claims the ancestor of a marked element is marked
as well, with a level that is no higher than the one on which it is an ancestor (`Climbed`), so that a
claim may stop where it comes to a mark.

* `claimAll_spec`: all claimed elements are marked from level 0 on, and the tops are found;
* `Climbed.mark_le`: all ancestors of a marked element are marked;
* `Claimed.exists_top`: each marked element has a top for an ancestor.
-/

namespace TourForest.SumList

variable {a a' a'' : SumList} {j k m u v p : Nat} {us tops tops' : List Nat} {pending : Option (Nat × Nat)}

/-! ## Marks -/

/-- The parent of a marked element is marked, except for a `pending` one with its level. -/
structure Climbed (a : SumList) (pending : Option (Nat × Nat)) : Prop where
  lt_height : ∀ x m, a.markAt x = some m → m < a.height x
  parent : ∀ x m p, a.markAt x = some m → a.list.Ancestor (a.height x) x p →
    pending = some (a.height x, p) ∨ ∃ n ≤ a.height x, a.markAt p = some n

/-- All ancestors of a marked element are marked, no higher than where they are ancestors. -/
theorem Climbed.mark_le (h : a.Climbed none) (hu : a.markAt u = some m) (hm : m ≤ j)
    (hp : a.list.Ancestor j u p) : ∃ n ≤ j, a.markAt p = some n := by
  induction hd : j + 1 - a.height u using Nat.strong_induction_on generalizing u m with
  | _ d ih =>
    by_cases hj : j < a.height u
    · cases hp with
      | here => exact ⟨m, hm, hu⟩
      | left hle => exact absurd hj (not_lt.mpr hle)
    · obtain ⟨q, hq, hqp⟩ := hp.factor (not_lt.mp hj)
      obtain hc | ⟨n, hn, hqm⟩ := h.parent u m q hu hq
      · cases hc
      · have hlt : a.height u < a.height q := hq.lt_height
        exact ih (j + 1 - a.height q) (by omega) hqm (hn.trans (not_lt.mp hj)) hqp rfl

/-- The marked elements without a parent are tops. -/
structure Claimed (a : SumList) (tops : List Nat) : Prop where
  top : ∀ x m, a.markAt x = some m → (∃ p, a.list.Ancestor (a.height x) x p) ∨ x ∈ tops
  height_pos : ∀ x ∈ tops, 0 < a.height x

theorem Claimed.mono (h : a.Claimed tops) (hs : ∀ x, x ∈ tops ↔ x ∈ tops') : a.Claimed tops' :=
  ⟨fun x m hx => (h.top x m hx).imp_right (hs x).mp, fun x hx => h.height_pos x ((hs x).mpr hx)⟩

/-- Each marked element has a top for an ancestor on the highest level of the top. -/
theorem Claimed.exists_top (h : a.Claimed tops) (hs : a.Shaped) (hc : a.Climbed none)
    (hu : a.markAt u = some m) : ∃ t ∈ tops, a.list.Ancestor (a.height t - 1) u t := by
  induction hd : maxHeight - a.height u using Nat.strong_induction_on generalizing u m with
  | _ d ih =>
    have hlt := hc.lt_height u m hu
    rcases h.top u m hu with ⟨p, hp⟩ | ht
    · obtain hc' | ⟨n, -, hpm⟩ := hc.parent u m p hu hp
      · cases hc'
      · have hup : a.height u < a.height p := hp.lt_height
        have hle : a.height p ≤ maxHeight := hs.woven.height_le p
        obtain ⟨t, ht, hpt⟩ := ih (maxHeight - a.height p) (by omega) hpm rfl
        refine ⟨t, ht, hp.trans hpt ?_⟩
        cases hpt with
        | here => exact Nat.le_sub_one_of_lt hup
        | left hle' => exact (Nat.le_of_lt hup).trans hle'
    · exact ⟨u, ht, .here (Nat.sub_one_lt (Nat.ne_zero_of_lt hlt))⟩

/-! ## Claims -/

/-- A mark that is set on the level that is pending. -/
theorem Climbed.setMark (h : a.Climbed (some (k, u))) (hs : a.Shaped) (hk : k < a.height u)
    (hm : m ≤ k) (hle : ∀ n, a.markAt u = some n → m ≤ n)
    (hp : a.markAt u = none → ∀ p, a.list.Ancestor (a.height u) u p → pending = some (a.height u, p)) :
    (a.setMark u (some m)).Climbed pending := by
  have hu : u < a.size := SkipList.lt_size_of_height_pos (Nat.zero_lt_of_lt hk)
  have hmark (v : Nat) := hs.markAt_setMark hu (some m) (v := v)
  refine ⟨fun x n hx => ?_, fun x n p hx hxp => ?_⟩
  · rw [hmark] at hx
    split at hx
    · next hxu =>
      cases hx
      subst hxu
      exact hm.trans_lt hk
    · exact h.lt_height x n hx
  · rw [hmark] at hx ⊢
    -- The parent of `x` was marked before, or is `u`.
    have hold {n : Nat} (hx : a.markAt x = some n) :
        ∃ n ≤ a.height x, (if p = u then some m else a.markAt p) = some n := by
      rcases h.parent x n p hx hxp with hc | ⟨n', hn', hpm⟩
      · obtain ⟨rfl, rfl⟩ := Prod.mk.inj (Option.some.inj hc)
        exact ⟨m, hm, if_pos rfl⟩
      · by_cases hpu : p = u
        · subst hpu
          exact ⟨m, (hle n' hpm).trans hn', if_pos rfl⟩
        · exact ⟨n', hn', by rw [if_neg hpu, hpm]⟩
    by_cases hxu : x = u
    · subst hxu
      rcases hx' : a.markAt x with _ | n'
      · exact .inl (hp hx' p hxp)
      · exact .inr (hold hx')
    · rw [if_neg hxu] at hx
      exact .inr (hold hx)

/-- Marks are set or lowered. -/
def Lowered (a a' : SumList) : Prop := ∀ x m, a.markAt x = some m → ∃ n ≤ m, a'.markAt x = some n

theorem Lowered.setMark (hs : a.Shaped) (hu : u < a.size) (hle : ∀ n, a.markAt u = some n → m ≤ n) :
    a.Lowered (a.setMark u (some m)) := by
  intro x n hx
  rw [hs.markAt_setMark hu]
  by_cases hxu : x = u
  · subst hxu
    exact ⟨m, hle n hx, if_pos rfl⟩
  · exact ⟨n, Nat.le_refl n, by rw [if_neg hxu, hx]⟩

theorem Lowered.trans (h : a.Lowered a') (h' : a'.Lowered a'') : a.Lowered a'' := fun x m hx =>
  have ⟨n, hn, hx'⟩ := h x m hx
  have ⟨n', hn', hx''⟩ := h' x n hx'
  ⟨n', hn'.trans hn, hx''⟩

/-- A claim that has come to `u` on level `k`. -/
theorem claimFrom_spec : ∀ (steps k u : Nat) {a : SumList} {tops : List Nat}, a.Shaped →
    a.Climbed (some (k, u)) → a.Claimed tops → k < a.height u → maxHeight < steps + k →
    ∃ top a', a.claimFrom steps k u = .ok (top, a') ∧ a.Remarked a' ∧ a'.Climbed none ∧
      a'.Claimed (top.toList ++ tops) ∧ a.Lowered a' ∧ ∃ m ≤ k, a'.markAt u = some m := by
  intro steps
  induction steps with
  | zero =>
    intro k u a tops hs _ _ hk hsteps
    have hle : a.height u ≤ maxHeight := hs.woven.height_le u
    omega
  | succ steps ih =>
    intro k u a tops hs hc ht hk hsteps
    have hpos := Nat.zero_lt_of_lt hk
    have hu : u < a.size := SkipList.lt_size_of_height_pos hpos
    have hr (m : Nat) := Remarked.setMark a u (some m)
    have hmark (m v : Nat) := hs.markAt_setMark hu (some m) (v := v)
    rw [claimFrom]
    rcases hum : a.markAt u with _ | m
    · -- `u` has no mark yet, so the climb goes on.
      have hnone (n : Nat) (h : a.markAt u = some n) : k ≤ n := by simp [hum] at h
      have hpos' : a.height u - 1 < a.height u := Nat.sub_one_lt_of_lt hpos
      have hheight : a.height u - 1 + 1 = a.height u := Nat.sub_one_add_one_eq_of_pos hpos
      obtain ⟨o, ho, hop⟩ := hs.woven.leftParent hpos'
      rw [hheight] at hop
      have hl := Lowered.setMark hs hu hnone
      have ht' (x n : Nat) (hx : (a.setMark u (some k)).markAt x = some n) :
          x = u ∨ (∃ p, a.list.Ancestor (a.height x) x p) ∨ x ∈ tops := by
        rw [hmark] at hx
        by_cases hxu : x = u
        · exact .inl hxu
        · rw [if_neg hxu] at hx
          exact .inr (ht.top x n hx)
      simp only [list_setMark, height_setMark, ho, ok_bind]
      rcases o with _ | p
      · have hno (p : Nat) : ¬ a.list.Ancestor (a.height u) u p := fun h => nomatch (hop p).mpr h
        refine ⟨some u, _, rfl, hr k, hc.setMark hs hk le_rfl hnone fun _ p hp => absurd hp (hno p),
          ⟨fun x n hx => ?_, ?_⟩, hl, k, le_rfl, by rw [hmark, if_pos rfl]⟩
        · rcases ht' x n hx with rfl | h | h
          · exact .inr (by simp)
          · exact .inl h
          · exact .inr (by simp [h])
        · simpa using ⟨hpos, ht.height_pos⟩
      · have hp : a.list.Ancestor (a.height u) u p := (hop p).mp rfl
        have hc' : (a.setMark u (some k)).Climbed (some (a.height u, p)) :=
          hc.setMark hs hk le_rfl hnone fun _ q hq => by rw [hp.unique hs.woven hq]
        have hcl : (a.setMark u (some k)).Claimed tops := by
          refine ⟨fun x n hx => ?_, ht.height_pos⟩
          rcases ht' x n hx with rfl | h
          · exact .inl ⟨p, hp⟩
          · exact h
        obtain ⟨top, a', ha', hr', hc', ht', hl', -⟩ :=
          ih (a.height u) p ((hr k).toAlike.shaped hs) hc' hcl hp.lt_height (by omega)
        obtain ⟨m, hm, hum'⟩ := hl' u k (by rw [hmark, if_pos rfl])
        exact ⟨top, a', ha', (hr k).trans hr', hc', ht', hl.trans hl', m, hm, hum'⟩
    · -- The mark of `u` says that its ancestors are claimed.
      have hmin (n : Nat) (h : a.markAt u = some n) : min m k ≤ n := by
        obtain rfl := Option.some.inj (hum.symm.trans h)
        exact min_le_left m k
      refine ⟨none, _, rfl, hr _, hc.setMark hs hk (min_le_right m k) hmin fun h => by simp [hum] at h,
        ⟨fun x n hx => ?_, by simpa using ht.height_pos⟩, Lowered.setMark hs hu hmin, min m k,
        min_le_right m k, by rw [hmark, if_pos rfl]⟩
      rw [hmark] at hx
      rw [height_setMark]
      by_cases hxu : x = u
      · subst hxu
        simpa using ht.top x m hum
      · rw [if_neg hxu] at hx
        simpa using ht.top x n hx

/-- Claims of several elements. -/
theorem claimAll_spec (hs : a.Shaped) (hc : a.Climbed none) (ht : a.Claimed tops)
    (hu : ∀ u ∈ us, u < a.size) :
    ∃ tops' a', a.claimAll (us.map some) = .ok (tops', a') ∧ a.Remarked a' ∧ a'.Climbed none ∧
      a'.Claimed (tops' ++ tops) ∧ a.Lowered a' ∧ ∀ u ∈ us, a'.markAt u = some 0 := by
  induction us generalizing a tops with
  | nil =>
    exact ⟨[], a, rfl, .refl a, hc, ht, fun _ m hx => ⟨m, le_rfl, hx⟩, by simp⟩
  | cons u us ih =>
    obtain ⟨hus, hu⟩ := List.forall_mem_cons.mp hu
    have hc0 : a.Climbed (some (0, u)) := ⟨hc.lt_height, fun x m p hx hp =>
      (hc.parent x m p hx hp).imp_left fun h => nomatch h⟩
    obtain ⟨top, b, hb, hr, hcb, htb, hl, m, hm, hum⟩ := claimFrom_spec (maxHeight + 1) 0 u hs hc0 ht
      (hs.woven.height_pos u hus) (Nat.lt_succ_self _)
    obtain ⟨tops', a', ha', hr', hc', ht', hl', hus'⟩ :=
      ih (hr.toAlike.shaped hs) hcb htb fun v hv => hr.toAlike.size ▸ hu v hv
    refine ⟨top.toList ++ tops', a', ?_, hr.trans hr', hc', ht'.mono fun x => ?_, hl.trans hl', ?_⟩
    · rw [List.map_cons, claimAll, claim, SkipList.check_of_lt hus, ok_bind, hb, ok_bind]
      simp only [ha', ok_bind, pure_eq_ok]
    · simp only [List.mem_append]
      tauto
    · refine List.forall_mem_cons.mpr ⟨?_, hus'⟩
      obtain ⟨n, hn, hu'⟩ := hl' u m hum
      rw [hu', Nat.le_zero.mp (hn.trans hm)]

end TourForest.SumList
