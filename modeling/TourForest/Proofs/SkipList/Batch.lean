import TourForest.Proofs.SkipList.Stretch

/-!
# Several joins and splits

A batch of seams closes each of them, in whatever order they come (`Woven.joinAll`), and a batch of
splits opens level 0 behind each of its elements (`Woven.splitAll`).
-/

namespace TourForest.SkipList

variable {s s' : SkipList}

/-- The first element of each of the pairs ends a sequence, the second one begins a sequence, and no
sequence is to be joined to two others on the same side. -/
structure Meet (s : SkipList) (pairs : List (Nat × Nat)) : Prop where
  lefts_nodup : (pairs.map Prod.fst).Nodup
  rights_nodup : (pairs.map Prod.snd).Nodup
  left : ∀ p ∈ pairs, p.1 < s.size ∧ s.nextAt p.1 0 = none
  right : ∀ p ∈ pairs, p.2 < s.size ∧ s.prevAt p.2 0 = none

/-- The seam between two elements. -/
def seam (p : Nat × Nat) : Seam := (some p.1, some p.2)

/-- What splits behind the elements `us`, one after the other, answer: the element that is after each of
them when it is met first, and nothing from then on. -/
def answers (s : SkipList) (us : List Nat) : List (Option Nat) :=
  us.mapIdx fun i u => if u ∈ us.take i then none else s.nextAt u 0

section

variable {pairs : List (Nat × Nat)} {us : List Nat} {u l r : Nat}

theorem answers_cons (hnext : ∀ w, s'.nextAt w 0 = if w = u then none else s.nextAt w 0) :
    s.answers (u :: us) = s.nextAt u 0 :: s'.answers us := by
  rw [answers, answers, List.mapIdx_cons, List.take_zero, if_neg List.not_mem_nil, List.cons_inj_right]
  refine List.mapIdx_eq_mapIdx_iff.mpr fun i hi => ?_
  rw [List.take_succ_cons, hnext]
  by_cases hw : us[i] = u <;> simp [hw]

/-- Behind distinct elements, each split answers with what was there. -/
theorem answers_of_nodup (hn : us.Nodup) : s.answers us = us.map (s.nextAt · 0) := by
  refine List.ext_getElem (by simp [answers]) fun i hi _ => ?_
  have hi : i < us.length := by simpa [answers] using hi
  have hnew : us[i] ∉ us.take i := by
    intro hm
    obtain ⟨j, hj, he⟩ := List.mem_take_iff_getElem.mp hm
    have hij : j = i := hn.getElem_inj_iff.mp he
    omega
  simp only [answers, List.getElem_mapIdx, List.getElem_map]
  rw [if_neg hnew]

theorem lookup_eq_some_iff (hn : (pairs.map Prod.fst).Nodup) : pairs.lookup l = some r ↔ (l, r) ∈ pairs := by
  rw [List.lookup_eq_some_iff]
  constructor
  · rintro ⟨as, bs, rfl, -⟩
    exact List.mem_append_right _ List.mem_cons_self
  · intro hm
    obtain ⟨as, bs, rfl⟩ := List.append_of_mem hm
    refine ⟨as, bs, rfl, fun p hp => bne_iff_ne.mpr fun he => ?_⟩
    rw [List.map_append, List.map_cons] at hn
    exact (List.nodup_append'.mp hn).2.2 (List.mem_map_of_mem hp) (he ▸ List.mem_cons_self)

theorem lookup_eq_none (h : u ∉ pairs.map Prod.fst) : pairs.lookup u = none := by
  rw [List.lookup_eq_none_iff]
  intro p hp
  simpa using fun he : u = p.1 => h (List.mem_map.mpr ⟨p, hp, he.symm⟩)

/-- Where no two pairs begin with one element, lookups do not depend on the order of the pairs. -/
theorem lookup_perm {pairs' : List (Nat × Nat)} (hp : pairs'.Perm pairs) (hn : (pairs.map Prod.fst).Nodup) :
    pairs'.lookup l = pairs.lookup l := by
  have hn' : (pairs'.map Prod.fst).Nodup := (hp.map _).nodup_iff.mpr hn
  refine Option.ext fun r => ?_
  rw [lookup_eq_some_iff hn, lookup_eq_some_iff hn', hp.mem_iff]

theorem Meet.lefts_lt (hm : s.Meet pairs) : ∀ u ∈ pairs.map Prod.fst, u < s.size := by
  intro u hu
  obtain ⟨p, hp, rfl⟩ := List.mem_map.mp hu
  exact (hm.left p hp).1

/-- The pairs may come in any order. -/
theorem Meet.perm {pairs' : List (Nat × Nat)} (hm : s.Meet pairs) (hp : pairs'.Perm pairs) : s.Meet pairs' where
  lefts_nodup := (hp.map _).nodup_iff.mpr hm.lefts_nodup
  rights_nodup := (hp.map _).nodup_iff.mpr hm.rights_nodup
  left p hm' := hm.left p (hp.mem_iff.mp hm')
  right p hm' := hm.right p (hp.mem_iff.mp hm')

/-- Each of the pairs can be joined alone. -/
theorem Meet.head {p : Nat × Nat} (hm : s.Meet (p :: pairs)) : s.Meet [p] where
  lefts_nodup := List.nodup_singleton _
  rights_nodup := List.nodup_singleton _
  left := List.forall_mem_singleton.mpr (hm.left p List.mem_cons_self)
  right := List.forall_mem_singleton.mpr (hm.right p List.mem_cons_self)

/-- Where no other pair begins with the element that the first pair begins with, it does not matter which of
them is looked up first. -/
theorem lookup_cons_or (hl : l ∉ pairs.map Prod.fst) (o : Option Nat) :
    (((l, r) :: pairs).lookup u).or o = (pairs.lookup u).or (if u = l then some r else o) := by
  rw [List.lookup_cons]
  by_cases hu : u = l
  · subst hu
    simp [lookup_eq_none hl]
  · simp [hu, beq_eq_false_iff_ne.mpr hu]

/-- After a join along one pair, the other pairs can still be joined. -/
theorem Meet.tail (hm : s.Meet ((l, r) :: pairs)) (hs : s.Woven) (hs' : s'.Woven) (hsize : s'.size = s.size)
    (hnext : ∀ u, s'.nextAt u 0 = if u = l then some r else s.nextAt u 0) : s'.Meet pairs := by
  obtain ⟨hl, hlefts⟩ := List.nodup_cons.mp hm.lefts_nodup
  obtain ⟨hr, hrights⟩ := List.nodup_cons.mp hm.rights_nodup
  obtain ⟨-, hleft⟩ := List.forall_mem_cons.mp hm.left
  obtain ⟨-, hright⟩ := List.forall_mem_cons.mp hm.right
  refine ⟨hlefts, hrights, fun q hq => ⟨hsize ▸ (hleft q hq).1, ?_⟩,
    fun q hq => ⟨hsize ▸ (hright q hq).1, ?_⟩⟩
  · have hne : q.1 ≠ l := fun h => hl (List.mem_map.mpr ⟨q, hq, h⟩)
    rw [hnext, if_neg hne]
    exact (hleft q hq).2
  · -- No other right side has got a predecessor.
    rw [Option.eq_none_iff_forall_ne_some]
    intro u hu
    rw [← hs'.next_iff_prev, hnext] at hu
    split at hu
    · exact hr (List.mem_map.mpr ⟨q, hq, (Option.some_inj.mp hu).symm⟩)
    · rw [hs.next_iff_prev, (hright q hq).2] at hu
      cases hu

end

namespace Woven

variable {pairs : List (Nat × Nat)} {us : List Nat}

/-- Several joins of last elements to first ones. -/
theorem joinAll (hs : s.Woven) (hm : s.Meet pairs) :
    ∃ s', s.joinAll (pairs.map seam) = .ok s' ∧ s'.Woven ∧ s'.size = s.size ∧
      (∀ u, s'.height u = s.height u) ∧
      ∀ u, s'.nextAt u 0 = (pairs.lookup u).or (s.nextAt u 0) := by
  induction pairs generalizing s with
  | nil => exact ⟨s, rfl, hs, rfl, fun _ => rfl, fun _ => rfl⟩
  | cons p pairs ih =>
    obtain ⟨l, r⟩ := p
    obtain ⟨hls, hln⟩ := hm.left (l, r) List.mem_cons_self
    obtain ⟨hrs, hrp⟩ := hm.right (l, r) List.mem_cons_self
    obtain ⟨t, ht, htw, hsize, hheight, hnext⟩ := hs.join hls hrs hln hrp
    obtain ⟨s', hs', hw', hsize', hheight', hnext'⟩ := ih htw (hm.tail hs htw hsize hnext)
    refine ⟨s', ?_, hw', hsize'.trans hsize, fun u => (hheight' u).trans (hheight u), fun u => ?_⟩
    · rw [List.map_cons, seam, SkipList.joinAll, ht, ok_bind, hs']
    · rw [hnext', hnext, lookup_cons_or (List.nodup_cons.mp hm.lefts_nodup).1]

/-- Several splits behind any elements. -/
theorem splitAll (hs : s.Woven) (hu : ∀ u ∈ us, u < s.size) :
    ∃ s', s.splitAll (us.map some) = .ok (s.answers us, s') ∧ s'.Woven ∧ s'.size = s.size ∧
      (∀ w, s'.height w = s.height w) ∧
      ∀ w, s'.nextAt w 0 = if w ∈ us then none else s.nextAt w 0 := by
  induction us generalizing s with
  | nil => exact ⟨s, rfl, hs, rfl, fun _ => rfl, by simp⟩
  | cons u us ih =>
    obtain ⟨hu, hus⟩ := List.forall_mem_cons.mp hu
    obtain ⟨t, ht, htw, hsize, hheight, hnext⟩ := hs.split hu
    obtain ⟨s', hs', hw', hsize', hheight', hnext'⟩ := ih htw fun w hw => hsize ▸ hus w hw
    refine ⟨s', ?_, hw', hsize'.trans hsize, fun w => (hheight' w).trans (hheight w), fun w => ?_⟩
    · rw [answers_cons hnext]
      simp [SkipList.splitAll, ht, hs']
    · rw [hnext', hnext]
      by_cases hw : w = u <;> simp [hw]

end Woven

end TourForest.SkipList
