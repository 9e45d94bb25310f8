import TourForest.Proofs.SumList.Orders

/-!
# One part of a batch after the other

What a batch does may as well be done one part after the other, and in any order: joins along one pair
after the other (`joinEach`), splits behind one element after the other (`splitEach`), and new values for one
element after the other (`setEach`).

A batch repairs its sums over a list that the single steps never come to, so the two ways are not compared
step by step. Both are brought down to what they do to level 0 and to the own values (`Sound.joinEach`,
`Sound.splitEach`, `Sound.setEach`), where the order does not show, and with the layout given, that decides
about all links, sums and marks (`Relinked.eq`, `Sound.eq_of_own`).
-/

namespace TourForest.SumList

variable {a a' b c : SumList} {us : List Nat} {pairs : List (Nat × Nat)} {updates : List (Nat × Int)} {u : Nat}

/-- Joins along one pair after the other. -/
def joinEach (a : SumList) (pairs : List (Nat × Nat)) : Except Fault SumList :=
  pairs.foldlM (fun a p => a.join (some p.1) (some p.2)) a

/-- Splits behind one element after the other, with all answers. -/
def splitEach (a : SumList) : List Nat → Except Fault (List (Option Nat) × SumList)
  | [] => .ok ([], a)
  | u :: us => do
    let (after, a) ← a.split (some u)
    let (others, a) ← splitEach a us
    return (after :: others, a)

/-- New values for one element after the other. -/
def setEach (a : SumList) (updates : List (Nat × Int)) : Except Fault SumList :=
  updates.foldlM (fun a x => a.setValues [x]) a

/-! ## Joins -/

/-- Links on level 0 decide about what becomes of a list. -/
theorem Relinked.eq {next : Nat → Option Nat} (h : a.Relinked b next) (h' : a.Relinked c next)
    (hlayout : c.layout = b.layout) : c = b :=
  h.sound.eq_of_layout h'.sound hlayout (fun u => (h'.next u).trans (h.next u).symm)
    fun u => (h'.own u).trans (h.own u).symm

theorem Sound.joinEach (h : a.Sound) (hb : a.Bounded) (hm : a.list.Meet pairs) :
    ∃ a', a.joinEach pairs = .ok a' ∧ a'.layout = a.layout ∧
      a.Relinked a' fun u => (pairs.lookup u).or (a.list.nextAt u 0) := by
  induction pairs generalizing a with
  | nil => exact ⟨a, rfl, rfl, .refl h⟩
  | cons p pairs ih =>
    obtain ⟨l, r⟩ := p
    obtain ⟨b, hjoin, hr⟩ := h.joinAll hb hm.head
    have hnext (u : Nat) : b.list.nextAt u 0 = if u = l then some r else a.list.nextAt u 0 := by
      rw [hr.next, SkipList.lookup_cons_or List.not_mem_nil, List.lookup_nil, Option.none_or]
    obtain ⟨a', hok, hlayout, hr'⟩ :=
      ih hr.sound (hr.bounded hb) (hm.tail h.woven hr.sound.woven hr.size hnext)
    refine ⟨a', ?_, hlayout.trans (layout_joinAll hjoin), (hr.trans hr').congr fun u => ?_⟩
    · rw [SumList.joinEach, List.foldlM_cons, SumList.join]
      exact bind_eq_ok.mpr ⟨b, hjoin, hok⟩
    · rw [hnext, SkipList.lookup_cons_or (List.nodup_cons.mp hm.lefts_nodup).1]

/-! ## Splits -/

/-- One split. -/
theorem Sound.split (h : a.Sound) (hb : a.Bounded) (hu : u < a.size) :
    ∃ a', a.split (some u) = .ok (a.list.nextAt u 0, a') ∧ a'.layout = a.layout ∧
      a.Relinked a' fun w => if w = u then none else a.list.nextAt w 0 := by
  obtain ⟨a', hok, hr⟩ := h.splitAll hb (List.forall_mem_singleton.mpr hu)
  rw [SkipList.answers_of_nodup (List.nodup_singleton u)] at hok
  refine ⟨a', ?_, layout_splitAll hok, hr.congr fun w => by simp⟩
  rw [SumList.split]
  exact bind_eq_ok.mpr ⟨_, hok, rfl⟩

theorem Sound.splitEach (h : a.Sound) (hb : a.Bounded) (hu : ∀ u ∈ us, u < a.size) :
    ∃ a', a.splitEach us = .ok (a.list.answers us, a') ∧ a'.layout = a.layout ∧
      a.Relinked a' fun w => if w ∈ us then none else a.list.nextAt w 0 := by
  induction us generalizing a with
  | nil => exact ⟨a, rfl, rfl, (Relinked.refl h).congr fun w => by simp⟩
  | cons u us ih =>
    obtain ⟨hlt, hu⟩ := List.forall_mem_cons.mp hu
    obtain ⟨b, hsplit, hlayout, hr⟩ := h.split hb hlt
    obtain ⟨a', hok, hlayout', hr'⟩ := ih hr.sound (hr.bounded hb) fun w hw => (hu w hw).trans_eq hr.size.symm
    refine ⟨a', ?_, hlayout'.trans hlayout, (hr.trans hr').congr fun w => ?_⟩
    · rw [SkipList.answers_cons hr.next]
      exact bind_eq_ok.mpr ⟨_, hsplit, bind_eq_ok.mpr ⟨_, hok, rfl⟩⟩
    · rw [hr.next]
      by_cases hw : w = u <;> simp [hw]

/-! ## New values -/

/-- The larger of the absolute own values that an element has before and after updates. -/
def peak (a : SumList) (updates : List (Nat × Int)) (u : Nat) : Nat :=
  max (a.valueAt u 0).natAbs (a.updatedValue updates u).natAbs

/-- The larger of the absolute own values before and after updates add up to a value of 32 bits. -/
def PeaksBounded (a : SumList) (updates : List (Nat × Int)) : Prop :=
  (((List.range a.size).map (a.peak updates)).sum : Int) ≤ maxValue

/-- What is nowhere larger than the peaks stays bounded. -/
theorem PeaksBounded.mono (h : a.PeaksBounded updates) {f : Nat → Nat} (hf : ∀ u, f u ≤ a.peak updates u) :
    (((List.range a.size).map f).sum : Int) ≤ maxValue := by
  have hsum : ((List.range a.size).map f).sum ≤ ((List.range a.size).map (a.peak updates)).sum :=
    List.sum_le_sum fun u _ => hf u
  unfold PeaksBounded at h
  omega

theorem PeaksBounded.stays (h : a.PeaksBounded updates) : a.StaysBounded updates := h.mono fun _ => le_max_right ..

theorem latest_eq_some_iff (hn : (updates.map Prod.fst).Nodup) {v : Int} :
    latest updates u = some v ↔ (u, v) ∈ updates := by
  induction updates with
  | nil => simp [latest]
  | cons x updates ih =>
    obtain ⟨w, v'⟩ := x
    obtain ⟨hw, hn⟩ := List.nodup_cons.mp hn
    rw [latest_cons, List.mem_cons, Prod.mk.injEq]
    by_cases hwu : w = u
    · subst hwu
      have hout : (w, v) ∉ updates := fun hm => hw (List.mem_map.mpr ⟨_, hm, rfl⟩)
      simp [latest_eq_none hw, hout, eq_comm]
    · simp [ih hn, hwu, Ne.symm hwu]

/-- The order of updates of distinct elements does not matter. -/
theorem updatedValue_perm {updates' : List (Nat × Int)} (hp : updates'.Perm updates)
    (hn : (updates.map Prod.fst).Nodup) : a.updatedValue updates' u = a.updatedValue updates u := by
  have hn' : (updates'.map Prod.fst).Nodup := (hp.map _).nodup_iff.mpr hn
  have hlatest : latest updates' u = latest updates u := Option.ext fun v => by
    rw [latest_eq_some_iff hn, latest_eq_some_iff hn', hp.mem_iff]
  rw [updatedValue, hlatest, updatedValue]

theorem PeaksBounded.perm {updates' : List (Nat × Int)} (h : a.PeaksBounded updates) (hp : updates'.Perm updates)
    (hn : (updates.map Prod.fst).Nodup) : a.PeaksBounded updates' := h.mono fun u => by
  rw [peak, updatedValue_perm hp hn, peak]

theorem updatedValue_singleton (x : Nat × Int) :
    a.updatedValue [x] u = if x.1 = u then x.2 else a.valueAt u 0 := by
  rw [updatedValue, latest_cons, show latest [] u = none from rfl, Option.none_or]
  split <;> rfl

/-- The first update, and then the others. -/
theorem updatedValue_cons (x : Nat × Int) (updates : List (Nat × Int)) :
    a.updatedValue (x :: updates) u = (latest updates u).getD (a.updatedValue [x] u) := by
  rw [updatedValue, updatedValue_singleton, latest_cons]
  cases latest updates u with
  | none => split <;> rfl
  | some v => rfl

theorem Sound.setEach (h : a.Sound) (hu : ∀ x ∈ updates, x.1 < a.size) (hn : (updates.map Prod.fst).Nodup)
    (hb : a.PeaksBounded updates) :
    ∃ a', a.setEach updates = .ok a' ∧ a'.Sound ∧ a'.list = a.list ∧ a'.layout = a.layout ∧
      ∀ u < a.size, a'.valueAt u 0 = a.updatedValue updates u := by
  induction updates generalizing a with
  | nil => exact ⟨a, rfl, h, rfl, rfl, fun u _ => rfl⟩
  | cons x updates ih =>
    obtain ⟨hlt, hu⟩ := List.forall_mem_cons.mp hu
    obtain ⟨hx, hn⟩ := List.nodup_cons.mp hn
    -- On the way an element has its old value or its last one.
    have hway (u : Nat) : a.updatedValue [x] u = a.valueAt u 0 ∨
        a.updatedValue [x] u = a.updatedValue (x :: updates) u := by
      by_cases hxu : x.1 = u
      · right
        rw [updatedValue_cons x updates, latest_eq_none (hxu ▸ hx), Option.getD_none]
      · left
        rw [updatedValue_singleton, if_neg hxu]
    have hpeak (u : Nat) : (a.updatedValue [x] u).natAbs ≤ a.peak (x :: updates) u := by
      rcases hway u with he | he
      · exact he ▸ le_max_left ..
      · exact he ▸ le_max_right ..
    obtain ⟨b, hset, hsound, -, hlist, hown⟩ :=
      h.setValues (List.forall_mem_singleton.mpr hlt) (hb.mono hpeak)
    have hsize : b.size = a.size := congrArg SkipList.size hlist
    have hrest (u : Nat) (hm : u < a.size) : b.updatedValue updates u = a.updatedValue (x :: updates) u := by
      rw [updatedValue_cons, updatedValue, hown u hm]
    have hb' : b.PeaksBounded updates := by
      have hle (u : Nat) (hm : u < a.size) : b.peak updates u ≤ a.peak (x :: updates) u := by
        rw [peak, hrest u hm, hown u hm]
        exact max_le (hpeak u) (le_max_right ..)
      have hsum := List.sum_le_sum fun u hm => hle u (List.mem_range.mp hm)
      unfold PeaksBounded at hb ⊢
      rw [hsize]
      omega
    obtain ⟨a', hok, hsound', hlist', hlayout', hown'⟩ :=
      ih hsound (fun y hy => (hu y hy).trans_eq hsize.symm) hn hb'
    refine ⟨a', ?_, hsound', hlist'.trans hlist, hlayout'.trans (layout_setValues hset), fun u hm => ?_⟩
    · rw [SumList.setEach, List.foldlM_cons]
      exact bind_eq_ok.mpr ⟨b, hset, hok⟩
    · rw [hown' u (hm.trans_eq hsize.symm), hrest u hm]

/-- Elements outside the arena have no value. -/
theorem Shaped.valueAt_of_size_le (h : a.Shaped) (hu : a.size ≤ u) (k : Nat) : a.valueAt u k = 0 := by
  have hheight : a.height u = 0 := by
    by_contra hpos
    have hlt : u < a.size := SkipList.lt_size_of_height_pos (Nat.pos_of_ne_zero hpos)
    omega
  exact valueAt_of_depth_le (by rw [h.depth, hheight]; exact Nat.zero_le k)

/-- With the links given, the own values decide about all sums. -/
theorem Sound.eq_of_own (h : a.Sound) (h' : a'.Sound) (hlayout : a'.layout = a.layout) (hlist : a'.list = a.list)
    (hown : ∀ u < a.size, a'.valueAt u 0 = a.valueAt u 0) : a' = a := by
  refine h.eq_of_layout h' hlayout (fun u => by rw [hlist]) fun u => ?_
  rcases Nat.lt_or_ge u a.size with hu | hu
  · exact hown u hu
  · have hsize : a'.size = a.size := congrArg SkipList.size hlist
    rw [h.valueAt_of_size_le hu, h'.valueAt_of_size_le (hsize ▸ hu)]

/-! ## Batches -/

/-- Joins lead to the same list in all turns, and one after the other in any order. -/
theorem Sound.joins_agree (h : a.Sound) (hb : a.Bounded) (hm : a.list.Meet pairs) :
    ∃ a', a.joinAll (pairs.map SkipList.seam) = .ok a' ∧
      (∀ links sums : Turns pairs.length, a.joinAllIn links sums (pairs.map SkipList.seam) = .ok a') ∧
      ∀ pairs' : List (Nat × Nat), pairs'.Perm pairs → a.joinEach pairs' = .ok a' := by
  obtain ⟨a', hok, hr⟩ := h.joinAll hb hm
  have hlayout : a'.layout = a.layout := layout_joinAll hok
  refine ⟨a', hok, fun links sums => ?_, fun pairs' hp => ?_⟩
  · obtain ⟨c, hok', hlayout', hr'⟩ := h.joinAllIn hb hm links sums rfl
    rw [hok', hr.eq hr' (hlayout'.trans hlayout.symm)]
  · obtain ⟨c, hok', hlayout', hr'⟩ := h.joinEach hb (hm.perm hp)
    rw [hok', hr.eq (hr'.congr fun u => by rw [SkipList.lookup_perm hp hm.lefts_nodup])
      (hlayout'.trans hlayout.symm)]

/-- Splits lead to the same list in all turns, and one after the other in any order. Their answers are those that
the links give as the splits have their turns. -/
theorem Sound.splits_agree (h : a.Sound) (hb : a.Bounded) (hu : ∀ u ∈ us, u < a.size) :
    ∃ a', a.splitAll (us.map some) = .ok (a.list.answers us, a') ∧
      (∀ links sums : Turns us.length,
        a.splitAllIn links sums (us.map some) = .ok (links.restore (a.list.answers (links.arrange us)), a')) ∧
      ∀ us' : List Nat, (∀ u, u ∈ us' ↔ u ∈ us) → a.splitEach us' = .ok (a.list.answers us', a') := by
  obtain ⟨a', hok, hr⟩ := h.splitAll hb hu
  have hlayout : a'.layout = a.layout := layout_splitAll hok
  refine ⟨a', hok, fun links sums => ?_, fun us' hmem => ?_⟩
  · obtain ⟨c, hok', hlayout', hr'⟩ := h.splitAllIn hb hu links sums rfl
    rw [hok', hr.eq hr' (hlayout'.trans hlayout.symm)]
  · obtain ⟨c, hok', hlayout', hr'⟩ := h.splitEach hb fun u hm => hu u ((hmem u).mp hm)
    rw [hok', hr.eq (hr'.congr fun u => by simp only [hmem]) (hlayout'.trans hlayout.symm)]

/-- New values of distinct elements lead to the same list in all turns, and one after the other in any order. -/
theorem Sound.updates_agree (h : a.Sound) (hu : ∀ x ∈ updates, x.1 < a.size) (hn : (updates.map Prod.fst).Nodup)
    (hpeaks : a.PeaksBounded updates) :
    ∃ a', a.setValues updates = .ok a' ∧
      (∀ values sums : Turns updates.length, a.setValuesIn values sums updates = .ok a') ∧
      ∀ updates' : List (Nat × Int), updates'.Perm updates → a.setEach updates' = .ok a' := by
  obtain ⟨a', hok, hsound, -, hlist, hown⟩ := h.setValues hu hpeaks.stays
  have hlayout : a'.layout = a.layout := layout_setValues hok
  have hsize : a'.size = a.size := congrArg SkipList.size hlist
  have heq {c : SumList} {updates' : List (Nat × Int)} (hp : updates'.Perm updates) (hc : c.Sound)
      (hlist' : c.list = a.list) (hlayout' : c.layout = a.layout)
      (hown' : ∀ u < a.size, c.valueAt u 0 = a.updatedValue updates' u) : c = a' := by
    refine hsound.eq_of_own hc (hlayout'.trans hlayout.symm) (hlist'.trans hlist.symm) fun u hm => ?_
    have hm : u < a.size := hm.trans_eq hsize
    rw [hown u hm, hown' u hm, updatedValue_perm hp hn]
  refine ⟨a', hok, fun values sums => ?_, fun updates' hp => ?_⟩
  · have hp : (values.arrange updates).Perm updates := values.arrange_perm rfl
    obtain ⟨c, hok', hc, hlist', hlayout', hown'⟩ := h.setValuesIn hu values sums rfl (hpeaks.perm hp hn).stays
    rw [hok', heq hp hc hlist' hlayout' hown']
  · obtain ⟨c, hok', hc, hlist', hlayout', hown'⟩ :=
      h.setEach (fun x hx => hu x (hp.mem_iff.mp hx)) ((hp.map _).nodup_iff.mpr hn) (hpeaks.perm hp hn)
    rw [hok', heq hp hc hlist' hlayout' hown']

/-- The split whose turn is first answers with what was after its element. -/
theorem answer_startingWith (s : SkipList) {i : Nat} (hi : i < us.length) :
    ((Turns.startingWith hi).restore (s.answers ((Turns.startingWith hi).arrange us)))[i]? =
      some (s.nextAt us[i] 0) := by
  rw [s.getElem?_restore_answers _ rfl (List.getElem?_eq_getElem hi), Turns.turn_startingWith]
  simp

/-- On every list that batches lead to, a batch does what its parts do one after the other in any order, in whatever
turns it runs its entries, and the lists that come about are the same in all links, sums and marks.

Splits may be given more than once. Just one of those behind an element answers with what was after it, and the
others with nothing; it is the one whose turn is first, any of them may be it, and in the order of the list it is
the first one. -/
theorem batch_eq_each_of_reachable (h : a.Reachable) :
    (∀ pairs, a.list.Meet pairs →
      ∃ a', a.joinAll (pairs.map SkipList.seam) = .ok a' ∧
        (∀ links sums : Turns pairs.length, a.joinAllIn links sums (pairs.map SkipList.seam) = .ok a') ∧
        ∀ pairs' : List (Nat × Nat), pairs'.Perm pairs → a.joinEach pairs' = .ok a') ∧
    (∀ us : List Nat, (∀ u ∈ us, u < a.size) →
      ∃ after a', a.splitAll (us.map some) = .ok (after, a') ∧ after.length = us.length ∧
        (∀ i (hi : i < us.length), after[i]? = some (if us[i] ∈ us.take i then none else a.list.nextAt us[i] 0)) ∧
        a.splitEach us = .ok (after, a') ∧
        (∀ links sums : Turns us.length, ∃ after', a.splitAllIn links sums (us.map some) = .ok (after', a') ∧
          after'.length = us.length ∧
          ∀ u ∈ us, ∃ i, us[i]? = some u ∧ after'[i]? = some (a.list.nextAt u 0) ∧
            ∀ j, j ≠ i → us[j]? = some u → links.turn i < links.turn j ∧ after'[j]? = some none) ∧
        (∀ i (hi : i < us.length), ∃ links : Turns us.length, ∀ sums : Turns us.length,
          ∃ after', a.splitAllIn links sums (us.map some) = .ok (after', a') ∧
            after'[i]? = some (a.list.nextAt us[i] 0)) ∧
        ∀ us' : List Nat, (∀ u, u ∈ us' ↔ u ∈ us) → ∃ after', a.splitEach us' = .ok (after', a')) ∧
    (∀ updates, (∀ x ∈ updates, x.1 < a.size) → (updates.map Prod.fst).Nodup → a.PeaksBounded updates →
      ∃ a', a.setValues updates = .ok a' ∧
        (∀ values sums : Turns updates.length, a.setValuesIn values sums updates = .ok a') ∧
        ∀ updates' : List (Nat × Int), updates'.Perm updates → a.setEach updates' = .ok a') := by
  obtain ⟨hs, hb⟩ := h.sound
  refine ⟨fun pairs hm => hs.joins_agree hb hm, fun us hu => ?_,
    fun updates hu hn hpeaks => hs.updates_agree hu hn hpeaks⟩
  obtain ⟨a', hok, hturns, heach⟩ := hs.splits_agree hb hu
  refine ⟨_, a', hok, ?_, fun i hi => ?_, heach us fun _ => Iff.rfl, fun links sums => ?_, fun i hi => ?_,
    fun us' hmem => ⟨_, heach us' hmem⟩⟩
  · rw [SkipList.answers, List.length_mapIdx]
  · rw [SkipList.answers, List.getElem?_mapIdx, List.getElem?_eq_getElem hi, Option.map_some]
  · exact ⟨_, hturns links sums, links.length_restore, fun u hm => a.list.exists_answer links rfl hm⟩
  · exact ⟨.startingWith hi, fun sums => ⟨_, hturns _ sums, answer_startingWith a.list hi⟩⟩

/-- Elements of value 1 that are all detached. -/
theorem exists_ones {len : Nat} (hlen : len * (SkipList.elementBytes + sumBytes + 0) ≤ largestBlock)
    (hmax : (len : Int) ≤ maxValue) :
    ∃ a : SumList, a.Reachable ∧ a.size = len ∧ (∀ u, a.list.nextAt u 0 = none) ∧
      (∀ u, a.list.prevAt u 0 = none) ∧ ∀ u < len, a.valueAt u 0 = 1 := by
  obtain ⟨a, pools, ha, hf⟩ := outcome_build .empty ⟨0⟩ (fun _ => 1) hlen
  have hsize : a.size = len := by rw [SumList.size, hf.detached.size_eq, length_drawnHeights]
  have hs : a.Sound := hf.sound fun _ hn => drawnHeights_bounds hn
  have hone (u : Nat) (hu : u < len) : a.valueAt u 0 = 1 :=
    hf.valueAt_eq (hs.woven.height_pos u (hu.trans_eq hsize.symm))
  have hb : a.Bounded := by
    have hw : a.weight (List.range len) = len := by
      rw [weight, List.map_congr_left fun u hu => by rw [hone u (List.mem_range.mp hu)]]
      simp
    rw [Bounded, hsize, hw]
    exact hmax
  refine ⟨a, .built ha hb, hsize, fun u => ?_, fun u => ?_, hone⟩
  · rw [SkipList.nextAt, hf.detached.linksAt_eq, Links.detached]
  · rw [SkipList.prevAt, hf.detached.linksAt_eq, Links.detached]

/-- Three elements of value 1 that are joined to a cycle. -/
theorem exists_cycle_of_ones :
    ∃ a : SumList, a.Reachable ∧ a.size = 3 ∧ (∀ u < 3, a.list.nextAt u 0 = some ((u + 1) % 3)) ∧
      ∀ u < 3, a.valueAt u 0 = 1 := by
  obtain ⟨b, hr, hsize, hn, hp, hone⟩ := exists_ones (by decide : 3 * (SkipList.elementBytes + sumBytes + 0) ≤ _)
    (by decide)
  have hm : b.list.Meet [(0, 1), (1, 2), (2, 0)] := by
    have hlist : b.list.size = 3 := hsize
    refine ⟨by decide, by decide, ?_, ?_⟩ <;> simp [hlist, hn, hp]
  obtain ⟨a, hok, ha⟩ := hr.sound.1.joinAll hr.sound.2 hm
  refine ⟨a, .joined hr hm hok, ha.size.trans hsize, fun u hu => ?_, fun u hu => (ha.own u).trans (hone u hu)⟩
  rw [ha.next]
  obtain rfl | rfl | rfl : u = 0 ∨ u = 1 ∨ u = 2 := by omega
  all_goals rfl

/-- Three elements of value 1 are joined to a cycle, which is split, and get other values. Of the two splits behind
element 0, the later one of the list has its turn first. -/
theorem batch_eq_each_of_cycle :
    ∃ a a' : SumList, a.Reachable ∧ a'.Reachable ∧
      a.joinAll ([(0, 1), (1, 2), (2, 0)].map SkipList.seam) = .ok a' ∧
      a.joinEach [(2, 0), (0, 1), (1, 2)] = .ok a' ∧
      (∃ b after, a'.splitAll ([0, 2, 0].map some) = .ok ([some 1, some 0, none], b) ∧
        a'.splitAllIn ⟨[2, 0, 1], by decide⟩ (.inOrder 3) ([0, 2, 0].map some) = .ok ([none, some 0, some 1], b) ∧
        a'.splitEach [2, 2, 2, 0] = .ok (after, b)) ∧
      ∃ c, a'.setValues [(0, 5), (2, -7)] = .ok c ∧ a'.setEach [(2, -7), (0, 5)] = .ok c := by
  obtain ⟨a, hr, hsize, hn, hp, hone⟩ := exists_ones (by decide : 3 * (SkipList.elementBytes + sumBytes + 0) ≤ _)
    (by decide)
  have hm : a.list.Meet [(0, 1), (1, 2), (2, 0)] := by
    have hlist : a.list.size = 3 := hsize
    refine ⟨by decide, by decide, ?_, ?_⟩ <;> simp [hlist, hn, hp]
  obtain ⟨a', hok, -, heach⟩ := (batch_eq_each_of_reachable hr).1 _ hm
  have hr' : a'.Reachable := .joined hr hm hok
  obtain ⟨c, hok', hc⟩ := hr.sound.1.joinAll hr.sound.2 hm
  obtain rfl : a' = c := Except.ok.inj (hok.symm.trans hok')
  have hsize' : a'.size = 3 := hc.size.trans hsize
  have h0 : a'.list.nextAt 0 0 = some 1 := hc.next 0
  have h2 : a'.list.nextAt 2 0 = some 0 := hc.next 2
  obtain ⟨-, hsplits, hupdates⟩ := batch_eq_each_of_reachable hr'
  obtain ⟨after, b, hsplit, hlen, hafter, -, hturns, -, hothers⟩ := hsplits [0, 2, 0] (by simp [hsize'])
  obtain ⟨after', hsplit'⟩ := hothers [2, 2, 2, 0] (by simp)
  have hanswers : after = [some 1, some 0, none] := by
    obtain ⟨x, y, z, rfl⟩ := List.length_eq_three.mp hlen
    simpa [h0, h2] using And.intro (hafter 0 (by decide)) (And.intro (hafter 1 (by decide)) (hafter 2 (by decide)))
  obtain ⟨answers, hin, hlen', hwinner⟩ := hturns ⟨[2, 0, 1], by decide⟩ (.inOrder 3)
  have hanswers' : answers = [none, some 0, some 1] := by
    have hfirst : (⟨[2, 0, 1], by decide⟩ : Turns 3).turn 2 = 0 := rfl
    obtain ⟨i, hi, hi0, hothers⟩ := hwinner 0 (by simp)
    obtain rfl : i = 2 := by
      by_contra hne
      have hlt := (hothers 2 (Ne.symm hne) rfl).1
      omega
    obtain ⟨j, hj, hj2, -⟩ := hwinner 2 (by simp)
    obtain rfl : j = 1 := by
      match j with
      | 1 => rfl
      | 0 | 2 | k + 3 => simp at hj
    obtain ⟨x, y, z, rfl⟩ := List.length_eq_three.mp hlen'
    simpa [h0, h2] using And.intro (hothers 0 (by decide) rfl).2 (And.intro hj2 hi0)
  have hpeaks : a'.PeaksBounded [(0, 5), (2, -7)] := by
    have hown (u : Nat) (hu : u < 3) : a'.valueAt u 0 = 1 := (hc.own u).trans (hone u hu)
    simp [PeaksBounded, hsize', List.range_succ, peak, updatedValue, latest, hown, maxValue]
  obtain ⟨d, hset, -, hset'⟩ := hupdates _ (by simp [hsize']) (by decide) hpeaks
  exact ⟨a, a', hr, hr', hok, heach _ (by decide), ⟨b, after', hanswers ▸ hsplit, hanswers' ▸ hin, hsplit'⟩, d, hset,
    hset' _ (by decide)⟩

/-- Two splits behind element 0 of a cycle, the second of which has its turn first: what was after the element is
not the answer to the first one. -/
theorem splitAllIn_of_later_first :
    ∃ a a' : SumList, a.Reachable ∧ a.list.nextAt 0 0 = some 1 ∧
      a.splitAllIn ⟨[1, 0], by decide⟩ (.inOrder 2) ([0, 0].map some) = .ok ([none, some 1], a') ∧
      ([none, some 1] : List (Option Nat))[0]? ≠ some (a.list.nextAt 0 0) := by
  obtain ⟨a, hr, hsize, hnext, -⟩ := exists_cycle_of_ones
  have h0 : a.list.nextAt 0 0 = some 1 := hnext 0 (by decide)
  have hu : ∀ u ∈ [0, 0], u < a.size := by simp [hsize]
  obtain ⟨a', hok, -⟩ := hr.sound.1.splitAllIn hr.sound.2 hu ⟨[1, 0], by decide⟩ (.inOrder 2) rfl
  have hanswers : (⟨[1, 0], by decide⟩ : Turns 2).restore (a.list.answers [0, 0]) = [none, some 1] := by
    simp [Turns.restore, Turns.turn, SkipList.answers, List.range_succ, h0]
  exact ⟨a, a', hr, h0, hanswers ▸ hok, by simp [h0]⟩

end TourForest.SumList
