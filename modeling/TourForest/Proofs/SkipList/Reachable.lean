import TourForest.Proofs.Pool
import TourForest.Proofs.SkipList.Stretch

/-!
# The law of levels

`Reachable` lists come from a new list, of any length and with any heights, by joins of a last element
to a first one and by splits. They are woven (`Reachable.woven`), so on each of their levels an
element is linked, forth and back, with the next one that reaches the level (`LevelLaw`).
-/

namespace TourForest.SkipList

variable {s : SkipList}

/-- The lists that come about by joins of a last element to a first one and by splits. -/
inductive Reachable : SkipList → Prop
  | built {links links' : Pool Links} {r : Random} {len load : Nat} {s : SkipList} :
      (build links r len load).outcome = .ok (s, links') → Reachable s
  | joined {s s' : SkipList} {l r : Nat} : Reachable s → l < s.size → r < s.size →
      s.nextAt l 0 = none → s.prevAt r 0 = none → s.join (some l) (some r) = .ok s' → Reachable s'
  | split {s s' : SkipList} {u : Nat} {after : Option Nat} : Reachable s → u < s.size →
      s.split (some u) = .ok (after, s') → Reachable s'

/-- Links forth and back are inverse to each other on each level, and the link of an element on level
`k` goes over the elements that are no taller than `k` to the next one along level 0 that is taller,
or nowhere if there is none. -/
structure LevelLaw (s : SkipList) : Prop where
  inverse : ∀ k u v, s.nextAt u k = some v ↔ s.prevAt v k = some u
  skips : ∀ k u, k < s.height u → ∃ xs, s.Stretch k (s.nextAt u 0) xs (s.nextAt u k)

theorem Woven.levelLaw (hs : s.Woven) : s.LevelLaw :=
  ⟨fun _ _ _ => hs.next_iff_prev, fun _ _ hk => hs.stretch hk⟩

/-- Detached elements are sequences of one element each. -/
theorem AllDetached.woven {heights : List Nat} (h : s.AllDetached heights)
    (hh : ∀ n ∈ heights, 0 < n ∧ n ≤ maxHeight) : s.Woven := by
  have hheight (u : Nat) : s.height u = 0 ∨ s.height u ∈ heights := by
    rw [h.height_eq]
    rcases hu : heights[u]? with _ | n
    · exact .inl rfl
    · exact .inr (List.mem_of_getElem? hu)
  refine ⟨fun u hu => ?_, fun u => ?_, fun u hu => ⟨false, [u], List.mem_singleton_self u, ?_⟩⟩
  · rw [h.height_eq, List.getElem?_eq_getElem (h.size_eq ▸ hu)]
    exact (hh _ (List.getElem_mem _)).1
  · rcases hheight u with h0 | hm
    · exact h0 ▸ Nat.zero_le _
    · exact (hh _ hm).2
  · refine ⟨List.nodup_singleton u, by simpa using hu, fun k => ?_⟩
    rw [onLevel_cons]
    split
    · exact Row.singleton_iff.mpr ⟨by simp [nextAt, h.linksAt_eq, Links.detached],
        by simp [prevAt, h.linksAt_eq, Links.detached]⟩
    · exact Strand.nil

theorem Reachable.woven (h : s.Reachable) : s.Woven := by
  induction h with
  | built h => exact (allDetached_of_build h).woven fun _ hn => drawnHeights_bounds hn
  | joined _ hl hr hln hrp hjoin ih =>
    obtain ⟨s', hok, hw, -⟩ := ih.join hl hr hln hrp
    rw [hjoin] at hok
    exact (Except.ok.inj hok) ▸ hw
  | split _ hu hsplit ih =>
    obtain ⟨s', hok, hw, -⟩ := ih.split hu
    rw [hsplit] at hok
    exact (Prod.mk.inj (Except.ok.inj hok)).2 ▸ hw

/-- A split behind the last element of a sequence changes nothing. -/
theorem split_of_next_eq_none {u : Nat} (hu : u < s.size) (hn : s.nextAt u 0 = none) :
    s.split (some u) = .ok (none, s) := by
  simp [split, check_of_lt hu, hn, show maxHeight = 31 + 1 from rfl, splitFrom]

/-- The law of levels holds of every list that joins and splits lead to, and of every list one join or
split further on, where level 0 has changed at the seam alone. The links of all levels depend on
nothing but level 0 and the heights. -/
theorem levelLaw_of_reachable (h : s.Reachable) :
    s.LevelLaw ∧
    (∀ l r, l < s.size → r < s.size → s.nextAt l 0 = none → s.prevAt r 0 = none →
      ∃ s', s.join (some l) (some r) = .ok s' ∧ s'.LevelLaw ∧ s'.size = s.size ∧
        (∀ u, s'.height u = s.height u) ∧
        ∀ u, s'.nextAt u 0 = if u = l then some r else s.nextAt u 0) ∧
    (∀ u, u < s.size →
      ∃ s', s.split (some u) = .ok (s.nextAt u 0, s') ∧ s'.LevelLaw ∧ s'.size = s.size ∧
        (∀ w, s'.height w = s.height w) ∧
        (∀ w, s'.nextAt w 0 = if w = u then none else s.nextAt w 0) ∧
        (s.nextAt u 0 = none → s' = s)) ∧
    (∀ t : SkipList, t.Reachable → t.size = s.size → (∀ u, t.height u = s.height u) →
      (∀ u, t.nextAt u 0 = s.nextAt u 0) →
      ∀ u k, t.nextAt u k = s.nextAt u k ∧ t.prevAt u k = s.prevAt u k) := by
  have hs := h.woven
  refine ⟨hs.levelLaw, fun l r hl hr hln hrp => ?_, fun u hu => ?_, fun t ht _ hh hn u k => ?_⟩
  · obtain ⟨s', hok, hw, hsize, hheight, hnext⟩ := hs.join hl hr hln hrp
    exact ⟨s', hok, hw.levelLaw, hsize, hheight, hnext⟩
  · obtain ⟨s', hok, hw, hsize, hheight, hnext⟩ := hs.split hu
    refine ⟨s', hok, hw.levelLaw, hsize, hheight, hnext, fun hn => ?_⟩
    rw [split_of_next_eq_none hu hn] at hok
    exact (Prod.mk.inj (Except.ok.inj hok)).2.symm
  · exact ⟨hs.next_congr ht.woven hh hn u k, hs.prev_congr ht.woven hh hn u k⟩

/-- Two new elements, of which the first has been joined to the second. -/
theorem levelLaw_of_joined_pair :
    ∃ s s' : SkipList, s.Reachable ∧ s.join (some 0) (some 1) = .ok s' ∧ s'.Reachable ∧
      s'.nextAt 0 0 = some 1 ∧ s'.LevelLaw := by
  obtain ⟨s, links, hs, hd⟩ :=
    outcome_build .empty ⟨0⟩ (by decide : 2 * (elementBytes + 0) ≤ largestBlock)
  have hr : s.Reachable := .built hs
  have hsize : s.size = 2 := by rw [hd.size_eq, length_drawnHeights]
  have hn : s.nextAt 0 0 = none := by rw [nextAt, hd.linksAt_eq, Links.detached]
  have hp : s.prevAt 1 0 = none := by rw [prevAt, hd.linksAt_eq, Links.detached]
  obtain ⟨s', hok, hlaw, -, -, hnext⟩ :=
    (levelLaw_of_reachable hr).2.1 0 1 (by omega) (by omega) hn hp
  exact ⟨s, s', hr, hok, .joined hr (by omega) (by omega) hn hp hok, by rw [hnext, if_pos rfl], hlaw⟩

end TourForest.SkipList
