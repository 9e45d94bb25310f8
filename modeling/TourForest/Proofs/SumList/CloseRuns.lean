import TourForest.Proofs.SumList.Total
import TourForest.SumList.Batch

/-!
# After a split

A split takes the ends of the runs away that go over it. Walking from the split point to the left and
up meets the ancestors of the split point in turn, each with the total of all there is from it to the
end of the sequence, which is the sum that it should have.

* `leftward_finish`: on each level the walk stops at the next ancestor, or at the end of the level;
* `closeRuns_spec`: afterwards the sums of all ancestors are right;
* `closeAll_spec`: several splits are made good one after the other.
-/

namespace TourForest.SumList

variable {a a' a'' : SumList} {j k u v c : Nat} {us xs zs : List Nat}

/-- The sum of an element is right where its run ends before another element. -/
def EndedRight (a : SumList) : Prop := ∀ u k v, a.list.nextAt u k = some v → a.Summed u k

/-- What a walk to the left from `c` on level `k` comes to: the next ancestor, with the total from there
on, or nothing. -/
structure Climb (a : SumList) (k c : Nat) (place : Option Nat) (sum : Int) : Prop where
  tall : ∀ v, place = some v → k + 1 < a.height v ∧
    ∃ zs, a.list.Stretch (k + 1) (a.list.nextAt v 0) zs none ∧ sum = a.total (v :: zs)
  ancestor : ∀ j x, k < j → a.list.Ancestor j c x → ∃ v, place = some v ∧ a.list.Ancestor j v x

/-- A walk to the left stops. -/
theorem advance_leftward (hs : a.Shaped) (hb : a.Bounded) (he : a.EndedRight) :
    ∀ (strides c : Nat) {zs : List Nat}, k < a.height c →
      a.list.Stretch (k + 1) (a.list.nextAt c 0) zs none → a.size + 2 ≤ strides + (c :: zs).length →
      ∃ place sum, (a.leftward k).advance strides (some c) (a.total (c :: zs)) = .ok ⟨place, sum, true⟩ ∧
        a.Climb k c place sum := by
  intro strides
  induction strides with
  | zero =>
    intro c zs hk hz hl
    have hc : c < a.size := SkipList.lt_size_of_height_pos (Nat.zero_lt_of_lt hk)
    have hlen : (c :: zs).length ≤ a.size :=
      SkipList.length_le_size hz.nodup_cons (hs.stretch_lt_size hc hz)
    omega
  | succ strides ih =>
    intro c zs hk hz hl
    have hc : c < a.size := SkipList.lt_size_of_height_pos (Nat.zero_lt_of_lt hk)
    have hlen : (c :: zs).length ≤ a.size :=
      SkipList.length_le_size hz.nodup_cons (hs.stretch_lt_size hc hz)
    rw [Walk.advance]
    by_cases ht : k + 1 < a.height c
    · refine ⟨some c, a.total (c :: zs), by simp [leftward, ht], ?_, fun j x _ hx => ⟨c, rfl, hx⟩⟩
      rintro v ⟨rfl⟩
      exact ⟨ht, zs, hz, rfl⟩
    · have hck := not_lt.mp ht
      rcases hp : a.list.prevAt c k with _ | b
      · -- The level ends, so nothing taller comes before.
        obtain ⟨strides, rfl⟩ := Nat.exists_eq_add_one_of_ne_zero (by omega : strides ≠ 0)
        have hadd : addValues (a.total (c :: zs)) 0 = .ok (a.total (c :: zs)) := by
          rw [addValues, Int.add_zero, if_pos (hb.total_bounds hz.nodup_cons (hs.stretch_lt_size hc hz))]
        refine ⟨none, a.total (c :: zs), ?_, by simp, fun j x hj hx => ?_⟩
        · simp only [leftward, ht, if_false, hp, valueOf, Option.elim_none, ok_bind, hadd, Walk.advance]
          rfl
        · obtain ⟨v, hv, -⟩ := hs.woven.before_of_ancestor hx hk (hck.trans hj)
          rw [hs.woven.next_iff_prev, hp] at hv
          cases hv
      · have hbc := hs.woven.next_iff_prev.mpr hp
        have hbk := SkipList.Woven.lt_height_of_next hbc
        obtain ⟨ys, hy⟩ := hs.woven.stretch hbk
        rw [hbc] at hy
        have hz' := hy.append (Nat.le_succ k) hck hz
        have hperm : (c :: zs ++ b :: ys).Perm (b :: (ys ++ c :: zs)) := List.perm_append_comm
        have hlt' := hs.stretch_lt_size (SkipList.lt_size_of_height_pos (Nat.zero_lt_of_lt hbk)) hz'
        have hadd : addValues (a.total (c :: zs)) (a.valueAt b k) = .ok (a.total (b :: (ys ++ c :: zs))) := by
          rw [(he b k c hbc).eq_total hy, hb.addValues_total (hperm.nodup_iff.mpr hz'.nodup_cons)
            fun x hx => hlt' x (hperm.mem_iff.mp hx)]
          simp only [total_append, total_cons, Except.ok.injEq]
          omega
        obtain ⟨place, sum, hgo, htall, hanc⟩ := ih b hbk hz' (by
          simp only [List.length_cons, List.length_append] at hl ⊢
          omega)
        refine ⟨place, sum, ?_, htall, fun j x hj hx => ?_⟩
        · simp only [leftward, ht, if_false, hp, valueOf, Option.elim_some, ok_bind, hadd]
          exact hgo
        · obtain ⟨v, hv, hvx⟩ := hs.woven.before_of_ancestor hx hk (hck.trans hj)
          exact hanc j x hj (hs.woven.next_inj hv hbc ▸ hvx)

theorem leftward_finish (hs : a.Shaped) (hb : a.Bounded) (he : a.EndedRight) (hk : k < a.height u)
    (hx : a.list.Stretch k (a.list.nextAt u 0) xs none) :
    ∃ place sum, (a.leftward k).finish (a.size + 1) (some u) (a.total (u :: xs)) = .ok (place, sum) ∧
      a.Climb k u place sum := by
  obtain ⟨place, sum, hgo, hc⟩ := advance_leftward hs hb he (a.size + 1) u hk (hx.of_none (Nat.le_succ k))
    (by simp only [List.length_cons]; omega)
  exact ⟨place, sum, by rw [Walk.finish, hgo]; rfl, hc⟩

/-- Sums have been put right, and nothing else has changed. -/
structure Corrected (a a' : SumList) : Prop extends Alike a a' where
  marks : ∀ u, a'.markAt u = a.markAt u
  summed : ∀ u k, a.Summed u k → a'.Summed u k

theorem Corrected.refl (a : SumList) : a.Corrected a := ⟨.refl a, fun _ => rfl, fun _ _ => id⟩

theorem Corrected.trans (h : a.Corrected a') (h' : a'.Corrected a'') : a.Corrected a'' :=
  ⟨h.toAlike.trans h'.toAlike, fun u => (h'.marks u).trans (h.marks u),
    fun u k hu => h'.summed u k (h.summed u k hu)⟩

/-- A climb from `u` on level `k` puts the sums of all ancestors on higher levels right. -/
theorem closeRunsFrom_spec : ∀ (levels k u : Nat) {a : SumList} {xs : List Nat}, a.Shaped → a.Bounded →
    a.EndedRight → k < a.height u → a.list.Stretch k (a.list.nextAt u 0) xs none → maxHeight ≤ levels + k →
    ∃ a', a.closeRunsFrom levels k u (a.total (u :: xs)) = .ok a' ∧ a.Corrected a' ∧
      ∀ j x, k < j → a.list.Ancestor j u x → a'.Summed x j := by
  intro levels
  induction levels with
  | zero =>
    intro k u a xs hs _ _ hk _ hl
    have hle : a.height u ≤ maxHeight := hs.woven.height_le u
    omega
  | succ levels ih =>
    intro k u a xs hs hb he hk hx hl
    obtain ⟨place, sum, hgo, htall, hanc⟩ := leftward_finish hs hb he hk hx
    rw [closeRunsFrom, hgo, ok_bind]
    cases place with
    | none =>
      refine ⟨a, rfl, .refl a, fun j x hj hx => ?_⟩
      obtain ⟨v, hv, -⟩ := hanc j x hj hx
      cases hv
    | some v =>
      obtain ⟨hvk, zs, hz, rfl⟩ := htall v rfl
      obtain ⟨hsummed, hkept⟩ := hs.summed_setValue hvk hz
      have hset := Alike.setValue a v k (a.total (v :: zs))
      generalize hbeq : a.setValue v (k + 1) (a.total (v :: zs)) = b at hsummed hkept hset
      have hcor : a.Corrected b := ⟨hset, fun _ => hbeq ▸ rfl, hkept⟩
      obtain ⟨a', ha', hcor', hsum'⟩ := ih (k + 1) v (hset.shaped hs) (hset.bounded hb)
        (fun u j w h => hkept u j (he u j w (hset.list ▸ h))) (hset.height v ▸ hvk) (hset.list ▸ hz)
        (by omega)
      rw [hset.total] at ha'
      refine ⟨a', by simpa only [hbeq] using ha', hcor.trans hcor', fun j x hj hx => ?_⟩
      obtain ⟨w, hw, hwx⟩ := hanc j x hj hx
      cases hw
      rcases Nat.eq_or_lt_of_le (Nat.succ_le_of_lt hj) with rfl | hj
      · obtain rfl := hwx.unique hs.woven (.here hvk)
        exact hcor'.summed _ _ hsummed
      · exact hsum' j x hj (hset.list ▸ hwx)

/-- All sums with a run that ends at `u` are put right. -/
theorem closeRuns_spec (hs : a.Shaped) (hb : a.Bounded) (he : a.EndedRight) (hu : u < a.size)
    (hn : a.list.nextAt u 0 = none) :
    ∃ a', a.closeRuns u = .ok a' ∧ a.Corrected a' ∧ ∀ j x, a.list.Ancestor j u x → a'.Summed x j := by
  have hx : a.list.Stretch 0 (a.list.nextAt u 0) [] none := hn ▸ hs.stretch_zero u
  obtain ⟨a', ha', hc, hsum⟩ :=
    closeRunsFrom_spec maxHeight 0 u hs hb he (hs.woven.height_pos u hu) hx le_rfl
  refine ⟨a', by simpa [closeRuns] using ha', hc, fun j x hx => ?_⟩
  rcases Nat.eq_zero_or_pos j with rfl | hj
  · exact (hc.shaped hs).summed_zero x
  · exact hsum j x hj hx

/-! ## Several splits -/

/-- Sums that are not right have runs that end at one of `us` without a mark. -/
structure Open (a : SumList) (us : List Nat) : Prop extends Shaped a where
  bounded : a.Bounded
  next : ∀ u ∈ us, u < a.size ∧ a.list.nextAt u 0 = none
  marked : ∀ u, u ∉ us → a.markAt u = none
  summed : ∀ u k, k < a.height u → a.Summed u k ∨ ∃ v ∈ us, a.markAt v = none ∧ a.list.Ancestor k v u

/-- A run that ends before another element does not end at a split. -/
theorem Open.endedRight (h : a.Open us) : a.EndedRight := by
  intro u k v hv
  have hk := SkipList.Woven.lt_height_of_next hv
  obtain hs | ⟨w, hw, -, hwu⟩ := h.summed u k hk
  · exact hs
  · obtain ⟨xs, hx⟩ := h.woven.stretch hk
    have hm := hwu.mem_of_stretch hx
    rw [hv] at hx
    have hnone := (h.next w hw).2
    rcases List.mem_cons.mp hm with rfl | hm
    · exact absurd hnone hx.next_ne_none.1
    · exact absurd hnone (hx.next_ne_none.2 w hm)

/-- The sums are put right once for each split point. -/
theorem closeRunsOnce_spec (h : a.Open us) (hu : u ∈ us) :
    ∃ a', a.closeRunsOnce (some u) = .ok a' ∧ a'.Open us ∧ a.Alike a' ∧
      (∀ v, a.markAt v ≠ none → a'.markAt v ≠ none) ∧ a'.markAt u ≠ none := by
  obtain ⟨hlt, hn⟩ := h.next u hu
  rw [closeRunsOnce, SkipList.check_of_lt hlt, ok_bind]
  rcases hm : a.markAt u with _ | m
  · have hr := Remarked.setMark a u (some 0)
    have hmark (v : Nat) := h.markAt_setMark hlt (some 0) (v := v)
    have hs := hr.shaped h.toShaped
    obtain ⟨a', ha', hc, hsum⟩ := closeRuns_spec hs (hr.bounded h.bounded)
      (fun v k w hv => hr.summed (h.endedRight v k w hv)) hlt hn
    have hal := hr.toAlike.trans hc.toAlike
    refine ⟨a', ha', ⟨hal.shaped h.toShaped, hal.bounded h.bounded, ?_, fun v hv => ?_, fun v k hk => ?_⟩, hal,
      fun v hv => ?_, by rw [hc.marks, hmark, if_pos rfl]; simp⟩
    · intro v hv
      rw [hal.size, hal.list]
      exact h.next v hv
    · have hne : v ≠ u := fun e => hv (e ▸ hu)
      rw [hc.marks, hmark, if_neg hne, h.marked v hv]
    · rw [hal.height] at hk
      obtain hs | ⟨w, hw, hwm, hwv⟩ := h.summed v k hk
      · exact .inl (hc.summed v k (hr.summed hs))
      · by_cases hwu : w = u
        · subst hwu
          exact .inl (hsum k v hwv)
        · exact .inr ⟨w, hw, by rw [hc.marks, hmark, if_neg hwu, hwm], hal.list ▸ hwv⟩
    · rw [hc.marks, hmark]
      split
      · simp
      · exact hv
  · exact ⟨a, rfl, h, .refl a, fun _ => id, by rw [hm]; simp⟩

end TourForest.SumList
