import TourForest.Proofs.SumList.OneByOne

/-!
# Splits that are taken back

A batch of splits answers with what was behind each of its points. The pairs of a point and its answer
(`opened`) are the links that have gone from level 0, each of them once, however often its point was given
(`Woven.opened_answers`). They can be joined again in any order (`Woven.meet_opened`), and level 0 is then what it was.

Splits and joins bring links and sums of the higher levels up to date in different ways, and neither is followed
here: with the layout given, level 0 and the own values decide about them (`Relinked.eq`).
-/

namespace TourForest

namespace SkipList

variable {s s' : SkipList} {u v : Nat} {us : List Nat}

/-- The points of a batch of splits, each with its answer, where there is one. -/
def opened (us : List Nat) (after : List (Option Nat)) : List (Nat × Nat) :=
  (us.zip after).filterMap fun (u, after) => after.map (u, ·)

theorem opened_cons (u : Nat) (us : List Nat) (o : Option Nat) (after : List (Option Nat)) :
    opened (u :: us) (o :: after) = (o.map (u, ·)).toList ++ opened us after := by
  cases o <;> simp [opened]

namespace Woven

/-- The links that go are those from the points to what is behind them, and each goes once. -/
theorem opened_answers (hs : s.Woven) (hu : ∀ u ∈ us, u < s.size) :
    (∀ u v, (u, v) ∈ opened us (s.answers us) ↔ u ∈ us ∧ s.nextAt u 0 = some v) ∧
      ((opened us (s.answers us)).map Prod.fst).Nodup := by
  induction us generalizing s with
  | nil => simp [opened]
  | cons w us ih =>
    obtain ⟨hw, hu⟩ := List.forall_mem_cons.mp hu
    obtain ⟨t, -, ht, hsize, -, hnext⟩ := hs.split hw
    obtain ⟨hmem, hnodup⟩ := ih ht fun u hm => hsize ▸ hu u hm
    rw [answers_cons hnext, opened_cons]
    refine ⟨fun u v => ?_, ?_⟩
    · rw [List.mem_append, hmem, hnext, List.mem_cons]
      by_cases huw : u = w
      · subst huw
        simp
      · simp [huw, Ne.symm huw]
    · -- Nothing is behind `w` any more, so it is not among the later ones.
      have hout : w ∉ (opened us (t.answers us)).map Prod.fst := by
        intro hm
        obtain ⟨⟨u, v⟩, huv, rfl⟩ := List.mem_map.mp hm
        have hv := ((hmem u v).mp huv).2
        simp [hnext] at hv
      cases s.nextAt w 0 with
      | none => exact hnodup
      | some v => exact List.nodup_cons.mpr ⟨hout, hnodup⟩

/-- The links that have gone can be put back. -/
theorem meet_opened (hs : s.Woven) (hs' : s'.Woven) (hsize : s'.size = s.size) (hu : ∀ u ∈ us, u < s.size)
    (hnext : ∀ w, s'.nextAt w 0 = if w ∈ us then none else s.nextAt w 0) :
    s'.Meet (opened us (s.answers us)) := by
  obtain ⟨hmem, hnodup⟩ := hs.opened_answers hu
  refine ⟨hnodup, ?_, ?_, ?_⟩
  · refine hnodup.of_map.map_on ?_
    rintro ⟨u, v⟩ hm ⟨u', v'⟩ hm' (rfl : v = v')
    rw [hs.next_inj ((hmem u v).mp hm).2 ((hmem u' v).mp hm').2]
  · rintro ⟨u, v⟩ hm
    obtain ⟨hm, -⟩ := (hmem u v).mp hm
    exact ⟨hsize ▸ hu u hm, by rw [hnext, if_pos hm]⟩
  · rintro ⟨u, v⟩ hm
    obtain ⟨hm, hv⟩ := (hmem u v).mp hm
    refine ⟨hsize ▸ hs.next_lt_size hv, Option.eq_none_iff_forall_ne_some.mpr fun w hw => ?_⟩
    -- Only `u` was before `v`.
    rw [← hs'.next_iff_prev, hnext] at hw
    split at hw
    · cases hw
    · next hwu => exact hwu (hs.next_inj hw hv ▸ hm)

theorem lookup_opened (hs : s.Woven) (hu : ∀ u ∈ us, u < s.size) :
    (opened us (s.answers us)).lookup u = if u ∈ us then s.nextAt u 0 else none := by
  obtain ⟨hmem, hnodup⟩ := hs.opened_answers hu
  refine Option.ext fun v => ?_
  rw [lookup_eq_some_iff hnodup, hmem]
  by_cases hm : u ∈ us <;> simp [hm]

end Woven

end SkipList

namespace SumList

variable {a : SumList} {us : List Nat}

/-- On every list that batches lead to, a batch of splits is taken back by a batch of joins of its points to their
answers, in any order: all links, sums and marks are what they were. Points may be given more than once. -/
theorem rejoin_of_reachable (h : a.Reachable) (hu : ∀ u ∈ us, u < a.size) :
    ∃ after b, a.splitAll (us.map some) = .ok (after, b) ∧ after.length = us.length ∧
      ∀ pairs : List (Nat × Nat), pairs.Perm (SkipList.opened us after) →
        b.joinAll (pairs.map SkipList.seam) = .ok a := by
  obtain ⟨hs, hb⟩ := h.sound
  obtain ⟨b, hsplit, hr⟩ := hs.splitAll hb hu
  have hm : b.list.Meet (SkipList.opened us (a.list.answers us)) :=
    hs.woven.meet_opened hr.sound.woven hr.size hu hr.next
  refine ⟨_, b, hsplit, by rw [SkipList.answers, List.length_mapIdx], fun pairs hp => ?_⟩
  obtain ⟨c, hjoin, hr'⟩ := hr.sound.joinAll (hr.bounded hb) (hm.perm hp)
  have hback : a.Relinked c (a.list.nextAt · 0) := (hr.trans hr').congr fun u => by
    rw [SkipList.lookup_perm hp hm.lefts_nodup, hs.woven.lookup_opened hu, hr.next]
    by_cases hm : u ∈ us <;> simp [hm]
  rw [hjoin, (Relinked.refl hs).eq hback ((layout_joinAll hjoin).trans (layout_splitAll hsplit))]

/-- A cycle of three elements is split in two places, one of them given twice, and closed again. -/
theorem rejoin_of_cycle :
    ∃ a b : SumList, a.Reachable ∧ a.list.nextAt 2 0 = some 0 ∧
      a.splitAll ([2, 0, 2].map some) = .ok ([some 0, some 1, none], b) ∧ b.list.nextAt 2 0 = none ∧
      b.joinAll ([(0, 1), (2, 0)].map SkipList.seam) = .ok a := by
  obtain ⟨a, hr, hsize, hnext, -⟩ := exists_cycle_of_ones
  have hu : ∀ u ∈ [2, 0, 2], u < a.size := by simp [hsize]
  obtain ⟨after, b, hsplit, -, hjoin⟩ := rejoin_of_reachable hr hu
  obtain ⟨c, hsplit', hc⟩ := hr.sound.1.splitAll hr.sound.2 hu
  obtain ⟨rfl, rfl⟩ := Prod.mk.inj (Except.ok.inj (hsplit.symm.trans hsplit'))
  have hafter : a.list.answers [2, 0, 2] = [some 0, some 1, none] := by
    simp [SkipList.answers, hnext 0 (by decide), hnext 2 (by decide)]
  rw [hafter] at hsplit hjoin
  exact ⟨a, b, hr, hnext 2 (by decide), hsplit, hc.next 2, hjoin _ (by decide)⟩

end SumList

end TourForest
