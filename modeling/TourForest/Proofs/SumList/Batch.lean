import TourForest.Proofs.SkipList.Pattern
import TourForest.Proofs.SumList.CloseRuns
import TourForest.Proofs.SumList.Refresh

/-!
# Batches keep sums right

A batch changes links or own values, and with them the runs that ancestors of the changed elements
have (`Stretch.unchanged_or_ancestor`). What it does about them makes all sums right again.

* `Sound.joinAll`, `Sound.splitAll`: the links change as they do without sums, the own values do not;
* `Sound.setValues`: the own values change, and the last one given to an element stays;
* `Sound.detach`: an element that is alone may get another value without any repair.
-/

namespace TourForest

/-- What an element skips is what it skipped before, or the element is an ancestor of a changed one. -/
theorem SkipList.Stretch.unchanged_or_ancestor {s s' : SkipList} {k v p : Nat} {o e : Option Nat}
    {us xs : List Nat} (h : s.Stretch k o xs e) (hv : s.nextAt v 0 = o)
    (hh : ∀ u, s'.height u = s.height u) (hn : ∀ u ∉ us, s'.nextAt u 0 = s.nextAt u 0)
    (hp : s'.Ancestor k v p) :
    (s'.Stretch k (s'.nextAt v 0) xs e ∧ ∀ x ∈ v :: xs, x ∉ us) ∨ ∃ u ∈ us, s'.Ancestor k u p := by
  by_cases hvu : v ∈ us
  · exact .inr ⟨v, hvu, hp⟩
  · have hnext := (hn v hvu).trans hv
    rw [hnext]
    induction h generalizing v with
    | ended => exact .inl ⟨.ended, by simpa using hvu⟩
    | tall hw => exact .inl ⟨.tall (by rwa [hh]), by simpa using hvu⟩
    | @low w xs e hw _ ih =>
      have hw' : s'.height w ≤ k := by rwa [hh]
      have hpw := hp.left hw' hnext
      by_cases hwu : w ∈ us
      · exact .inr ⟨w, hwu, hpw⟩
      · refine (ih rfl hpw hwu (hn w hwu)).imp_left fun ⟨hx, hd⟩ => ?_
        rw [← hn w hwu] at hx
        exact ⟨.low hw' hx, List.forall_mem_cons.mpr ⟨hvu, hd⟩⟩

namespace SumList

variable {a a' : SumList} {k u v : Nat} {us : List Nat} {pairs : List (Nat × Nat)}
  {updates : List (Nat × Int)}

theorem total_congr {xs : List Nat} (h : ∀ x ∈ xs, a'.valueAt x 0 = a.valueAt x 0) :
    a'.total xs = a.total xs := congrArg List.sum (List.map_congr_left h)

/-- Heights and own values of `a'` are those of `a`, all sums are right, and the successor of each
element is the one that `next` says. -/
structure Relinked (a a' : SumList) (next : Nat → Option Nat) : Prop where
  sound : a'.Sound
  size : a'.size = a.size
  height : ∀ u, a'.height u = a.height u
  own : ∀ u, a'.valueAt u 0 = a.valueAt u 0
  next : ∀ u, a'.list.nextAt u 0 = next u

namespace Relinked

variable {a'' : SumList} {next next' : Nat → Option Nat}

theorem refl (h : a.Sound) : a.Relinked a (a.list.nextAt · 0) := ⟨h, rfl, fun _ => rfl, fun _ => rfl, fun _ => rfl⟩

theorem trans (h : a.Relinked a' next) (h' : a'.Relinked a'' next') : a.Relinked a'' next' :=
  ⟨h'.sound, h'.size.trans h.size, fun u => (h'.height u).trans (h.height u), fun u => (h'.own u).trans (h.own u),
    h'.next⟩

theorem congr (h : a.Relinked a' next) (hn : ∀ u, next u = next' u) : a.Relinked a' next' :=
  ⟨h.sound, h.size, h.height, h.own, fun u => (h.next u).trans (hn u)⟩

theorem bounded (h : a.Relinked a' next) (hb : a.Bounded) : a'.Bounded := by
  unfold Bounded weight at hb ⊢
  simp only [h.size, h.own]
  exact hb

end Relinked

/-- The list with other links, before its sums are brought up to date. -/
def withList (a : SumList) (list : SkipList) : SumList := { a with list }

/-- With other links the sums of some ancestors are wrong. -/
theorem Sound.stale_withList (h : a.Sound) (hb : a.Bounded) {list : SkipList} (hw : list.Woven)
    (hsize : list.size = a.size) (hheight : ∀ u, list.height u = a.height u)
    (hnext : ∀ u ∉ us, list.nextAt u 0 = a.list.nextAt u 0) : (a.withList list).Stale us := by
  refine ⟨⟨hw, fun u => (h.depth u).trans (hheight u).symm, h.size_marks.trans hsize.symm⟩, ?_, h.unmarked,
    fun u k hk => ?_⟩
  · unfold Bounded at hb ⊢
    rw [show (a.withList list).size = a.size from hsize]
    exact hb
  · obtain ⟨xs, e, hx, hv⟩ := h.summed u k (hk.trans_eq (hheight u))
    exact (hx.unchanged_or_ancestor rfl hheight hnext (.here hk)).imp_left fun ⟨hx', _⟩ => ⟨xs, e, hx', hv⟩

/-- With other links, a repair makes all sums right if it starts from every element whose successor has
changed. -/
theorem Sound.repair_withList (h : a.Sound) (hb : a.Bounded) {list : SkipList} (hw : list.Woven)
    (hsize : list.size = a.size) (hheight : ∀ u, list.height u = a.height u)
    (hnext : ∀ u ∉ us, list.nextAt u 0 = a.list.nextAt u 0) (hus : ∀ u ∈ us, u < a.size) :
    ∃ a', (a.withList list).repair (us.map some) = .ok a' ∧ a.Relinked a' (list.nextAt · 0) := by
  obtain ⟨a', ha', hsound, hal⟩ := repair_spec (h.stale_withList hb hw hsize hheight hnext) fun u hu =>
    (hus u hu).trans_eq hsize.symm
  exact ⟨a', ha', hsound, hal.size.trans hsize, fun u => (hal.height u).trans (hheight u), hal.own,
    fun u => congrArg (SkipList.nextAt · u 0) hal.list⟩

/-! ## Joins -/

/-- Several joins of last elements to first ones. -/
theorem Sound.joinAll (h : a.Sound) (hb : a.Bounded) (hm : a.list.Meet pairs) :
    ∃ a', a.joinAll (pairs.map SkipList.seam) = .ok a' ∧
      a.Relinked a' fun u => (pairs.lookup u).or (a.list.nextAt u 0) := by
  obtain ⟨list, hlist, hw, hsize, hheight, hnext⟩ := h.woven.joinAll hm
  have hkept (u : Nat) (hu : u ∉ pairs.map Prod.fst) : list.nextAt u 0 = a.list.nextAt u 0 := by
    rw [hnext, SkipList.lookup_eq_none hu, Option.none_or]
  obtain ⟨a', ha', hr⟩ := h.repair_withList hb hw hsize hheight hkept hm.lefts_lt
  refine ⟨a', ?_, hr.congr hnext⟩
  rw [List.map_map] at ha'
  rw [SumList.joinAll, hlist, ok_bind, List.map_map]
  exact ha'

/-! ## Splits -/

/-- Taking marks off. -/
theorem foldl_setMark_none (hs : a.Shaped) (hu : ∀ u ∈ us, u < a.size) :
    a.Remarked ((us.map some).foldl (fun a u => u.elim a (a.setMark · none)) a) ∧
      ∀ v, ((us.map some).foldl (fun a u => u.elim a (a.setMark · none)) a).markAt v =
        if v ∈ us then none else a.markAt v := by
  induction us generalizing a with
  | nil => exact ⟨.refl a, fun v => by simp⟩
  | cons u us ih =>
    obtain ⟨hlt, hu⟩ := List.forall_mem_cons.mp hu
    have hr := Remarked.setMark a u none
    obtain ⟨hr', hm⟩ := ih (hr.shaped hs) hu
    refine ⟨hr.trans hr', fun v => ?_⟩
    refine (hm v).trans ?_
    rw [hs.markAt_setMark hlt]
    by_cases hv : v = u <;> simp [hv]

/-- The links behind the elements `us` have been cut. The walks from them to the left and up may come in any
order, from some elements more often than from others; afterwards all sums are right. -/
theorem Sound.closeAll (h : a.Sound) (hb : a.Bounded) {list : SkipList} (hw : list.Woven)
    (hsize : list.size = a.size) (hheight : ∀ u, list.height u = a.height u)
    (hnext : ∀ w, list.nextAt w 0 = if w ∈ us then none else a.list.nextAt w 0) (hu : ∀ u ∈ us, u < a.size)
    {walks : List Nat} (hwalks : ∀ u, u ∈ walks ↔ u ∈ us) :
    ∃ c, (walks.map some).foldlM closeRunsOnce (a.withList list) = .ok c ∧
      a.Relinked ((us.map some).foldl (fun a u => u.elim a (a.setMark · none)) c)
        fun w => if w ∈ us then none else a.list.nextAt w 0 := by
  have hstale : (a.withList list).Stale us :=
    h.stale_withList hb hw hsize hheight fun u hu => by rw [hnext, if_neg hu]
  have hopen : (a.withList list).Open us :=
    ⟨hstale.toShaped, hstale.bounded, fun u hm => ⟨(hu u hm).trans_eq hsize.symm, (hnext u).trans (if_pos hm)⟩,
      fun u _ => h.unmarked u,
      fun u k hk => (hstale.summed u k hk).imp_right fun ⟨v, hv, hvu⟩ => ⟨v, hv, h.unmarked v, hvu⟩⟩
  have hwalk (c : SumList) (hc : c.Open us ∧ (a.withList list).Alike c) (x : Option Nat)
      (hx : x ∈ walks.map some) :
      ∃ d, c.closeRunsOnce x = .ok d ∧ (d.Open us ∧ (a.withList list).Alike d) ∧
        (∀ v, c.markAt v ≠ none → d.markAt v ≠ none) ∧ ∀ v ∈ x, d.markAt v ≠ none := by
    obtain ⟨v, hv, rfl⟩ := List.mem_map.mp hx
    obtain ⟨d, hd, hdo, hcd, hR, hQ⟩ := closeRunsOnce_spec hc.1 ((hwalks v).mp hv)
    exact ⟨d, hd, ⟨hdo, hc.2.trans hcd⟩, hR, by simpa using hQ⟩
  obtain ⟨c, hc, ⟨hopen', hal⟩, -, hmarked⟩ := foldlM_each
    (P := fun c => c.Open us ∧ (a.withList list).Alike c)
    (R := fun c d => ∀ v, c.markAt v ≠ none → d.markAt v ≠ none)
    (Q := fun c u => ∀ v ∈ u, c.markAt v ≠ none) (fun _ _ => id) (fun _ _ _ h h' v hv => h' v (h v hv))
    (fun _ _ _ hQ hR v hv => hR v (hQ v hv)) hwalk ⟨hopen, .refl _⟩
  obtain ⟨hr, hclear⟩ := foldl_setMark_none hopen'.toShaped fun u hm => (hopen'.next u hm).1
  have hal' := hal.trans hr.toAlike
  refine ⟨c, hc, ⟨hal'.shaped hstale.toShaped, fun v => ?_, fun v k hk => hr.summed ?_⟩,
    hal'.size.trans hsize, fun v => (hal'.height v).trans (hheight v), hal'.own, fun w => ?_⟩
  · rw [hclear]
    split
    · rfl
    · next hv => exact hopen'.marked v hv
  · rw [hr.height] at hk
    exact (hopen'.summed v k hk).resolve_right fun ⟨w, hw, hwm, _⟩ =>
      hmarked (some w) (List.mem_map_of_mem ((hwalks w).mpr hw)) w rfl hwm
  · rw [hal'.list]
    exact hnext w

/-- Several splits behind any elements. -/
theorem Sound.splitAll (h : a.Sound) (hb : a.Bounded) (hu : ∀ u ∈ us, u < a.size) :
    ∃ a', a.splitAll (us.map some) = .ok (a.list.answers us, a') ∧
      a.Relinked a' fun w => if w ∈ us then none else a.list.nextAt w 0 := by
  obtain ⟨list, hlist, hw, hsize, hheight, hnext⟩ := h.woven.splitAll hu
  obtain ⟨c, hc, hr⟩ := h.closeAll hb hw hsize hheight hnext hu fun _ => Iff.rfl
  refine ⟨_, ?_, hr⟩
  rw [SumList.splitAll, hlist, ok_bind]
  exact bind_eq_ok.mpr ⟨c, hc, rfl⟩

/-! ## New values -/

/-- The value that the last update of an element gives it. -/
def latest (updates : List (Nat × Int)) (u : Nat) : Option Int :=
  (updates.reverse.find? (·.1 == u)).map Prod.snd

theorem latest_cons (x : Nat × Int) (u : Nat) :
    latest (x :: updates) u = (latest updates u).or (if x.1 = u then some x.2 else none) := by
  rw [latest, latest, List.reverse_cons, List.find?_append]
  by_cases hx : x.1 = u
  · cases updates.reverse.find? (·.1 == u) <;> simp [hx]
  · cases updates.reverse.find? (·.1 == u) <;> simp [hx]

theorem latest_eq_none (h : u ∉ updates.map Prod.fst) : latest updates u = none := by
  rw [latest, Option.map_eq_none_iff, List.find?_eq_none]
  intro x hx
  simpa using fun hxu : x.1 = u => h (List.mem_map.mpr ⟨x, List.mem_reverse.mp hx, hxu⟩)

/-- The list with new own values, before its sums are brought up to date. -/
def assign (a : SumList) (updates : List (Nat × Int)) : SumList :=
  updates.foldl (fun a x => a.setValue x.1 0 x.2) a

/-- Assigning values changes nothing but the own values. -/
structure Assigned (a a' : SumList) (updates : List (Nat × Int)) : Prop where
  list : a'.list = a.list
  depth : ∀ u, a'.depth u = a.depth u
  marks : a'.marks = a.marks
  own : ∀ u < a.size, a'.valueAt u 0 = (latest updates u).getD (a.valueAt u 0)
  sums : ∀ u k, a'.valueAt u (k + 1) = a.valueAt u (k + 1)

theorem Shaped.assigned (hs : a.Shaped) (updates : List (Nat × Int)) :
    a.Assigned (a.assign updates) updates := by
  induction updates generalizing a with
  | nil => exact ⟨rfl, fun _ => rfl, rfl, fun _ _ => rfl, fun _ _ => rfl⟩
  | cons x updates ih =>
    have hs' : (a.setValue x.1 0 x.2).Shaped :=
      ⟨hs.woven, fun u => (depth_setValue ..).trans (hs.depth u), hs.size_marks⟩
    obtain ⟨hlist, hdepth, hmarks, hown, hsums⟩ := ih hs'
    refine ⟨hlist, fun u => (hdepth u).trans (depth_setValue ..), hmarks, fun u hu => ?_, fun u k => ?_⟩
    · have hpos : 0 < a.depth u := hs.depth u ▸ hs.woven.height_pos u hu
      refine (hown u hu).trans ?_
      rw [latest_cons, valueAt_setValue]
      by_cases hx : x.1 = u
      · subst hx
        cases latest updates x.1 <;> simp [hpos]
      · cases latest updates u <;> simp [hx, Ne.symm hx]
    · refine (hsums u k).trans ?_
      rw [valueAt_setValue, if_neg (by simp)]

theorem foldlM_setValue (hu : ∀ x ∈ updates, x.1 < a.size) :
    updates.foldlM (fun (a : SumList) (x : Nat × Int) => do
      a.list.check x.1
      return a.setValue x.1 0 x.2) a = .ok (a.assign updates) := by
  induction updates generalizing a with
  | nil => rfl
  | cons x updates ih =>
    obtain ⟨hx, hu⟩ := List.forall_mem_cons.mp hu
    rw [List.foldlM_cons, SkipList.check_of_lt hx]
    exact ih hu

/-- The own value of an element after updates. -/
def updatedValue (a : SumList) (updates : List (Nat × Int)) (u : Nat) : Int :=
  (latest updates u).getD (a.valueAt u 0)

/-- With new own values the sums of some ancestors are wrong. -/
theorem Sound.stale_assign (h : a.Sound)
    (hb : (((List.range a.size).map fun u => (a.updatedValue updates u).natAbs).sum : Int) ≤ maxValue) :
    (a.assign updates).Stale (updates.map Prod.fst) := by
  obtain ⟨hlist, hdepth, hmarks, hown, hsums⟩ := h.toShaped.assigned updates
  generalize a.assign updates = b at hlist hdepth hmarks hown hsums
  have hsize : b.size = a.size := congrArg SkipList.size hlist
  have hheight (u : Nat) : b.height u = a.height u := congrArg (SkipList.height · u) hlist
  have hs : b.Shaped :=
    ⟨hlist ▸ h.woven, fun u => by rw [hdepth, h.depth, hheight], by rw [hmarks, h.size_marks, hsize]⟩
  have hbb : b.Bounded := by
    unfold Bounded weight
    rw [hsize, List.map_congr_left fun u hm => by rw [hown u (List.mem_range.mp hm)]]
    exact hb
  refine ⟨hs, hbb, fun u => by rw [markAt, hmarks]; exact h.unmarked u, fun u k hk => ?_⟩
  rw [hheight] at hk
  cases k with
  | zero => exact .inl (hs.summed_zero u)
  | succ k =>
    obtain ⟨xs, e, hx, hv⟩ := h.summed u (k + 1) hk
    obtain ⟨-, hlt⟩ := h.woven.stretch_nodup hk hx
    rw [hlist]
    refine (hx.unchanged_or_ancestor rfl (fun _ => rfl) (fun _ _ => rfl) (.here hk)).imp_left
      fun ⟨_, hd⟩ => ⟨xs, e, hlist ▸ hx, ?_⟩
    rw [hsums, hv, total_congr fun x hm => by rw [hown x (hlt x hm), latest_eq_none (hd x hm), Option.getD_none]]

/-- After new own values, a repair that starts from the updated elements, in whatever order, makes all sums
right. -/
theorem Sound.repair_assign (h : a.Sound) (hu : ∀ x ∈ updates, x.1 < a.size)
    (hb : (((List.range a.size).map fun u => (a.updatedValue updates u).natAbs).sum : Int) ≤ maxValue)
    (hus : ∀ u, u ∈ us ↔ u ∈ updates.map Prod.fst) :
    ∃ a', (a.assign updates).repair (us.map some) = .ok a' ∧ a'.Sound ∧ a'.Bounded ∧ a'.list = a.list ∧
      ∀ u < a.size, a'.valueAt u 0 = a.updatedValue updates u := by
  obtain ⟨hlist, -, -, hown, -⟩ := h.toShaped.assigned updates
  have hstale : (a.assign updates).Stale us := (h.stale_assign hb).mono fun u => (hus u).mpr
  obtain ⟨a', ha', hsound, hal⟩ := repair_spec hstale fun u hm => by
    obtain ⟨x, hx, rfl⟩ := List.mem_map.mp ((hus u).mp hm)
    exact (hu x hx).trans_eq (congrArg SkipList.size hlist).symm
  exact ⟨a', ha', hsound, hal.bounded hstale.bounded, hal.list.trans hlist,
    fun u hm => (hal.own u).trans (hown u hm)⟩

/-- New own values, of which the last one given to an element stays. -/
theorem Sound.setValues (h : a.Sound) (hu : ∀ x ∈ updates, x.1 < a.size)
    (hb : (((List.range a.size).map fun u => (a.updatedValue updates u).natAbs).sum : Int) ≤ maxValue) :
    ∃ a', a.setValues updates = .ok a' ∧ a'.Sound ∧ a'.Bounded ∧ a'.list = a.list ∧
      ∀ u < a.size, a'.valueAt u 0 = a.updatedValue updates u := by
  obtain ⟨a', ha', hr⟩ := h.repair_assign hu hb fun _ => Iff.rfl
  refine ⟨a', ?_, hr⟩
  rw [SumList.setValues, foldlM_setValue hu, ok_bind]
  rwa [List.map_map] at ha'

/-! ## Taking an element out -/

theorem depth_detach (value : Int) : (a.detach u value).depth v = a.depth v := by
  unfold SumList.detach depth
  dsimp only
  rw [Array.getElem?_modify]
  split
  · cases a.sums[v]? <;> simp
  · rfl

/-- A stretch does not pass an element that nothing is before. -/
theorem not_mem_of_prev_eq_none {s : SkipList} (hs : s.Woven) {xs : List Nat} {e : Option Nat}
    (hx : s.Stretch k (s.nextAt v 0) xs e) (hp : s.prevAt u 0 = none) : u ∉ xs := by
  intro hm
  obtain ⟨w, hw⟩ := hx.forall_mem (P := fun x => ∃ w, s.nextAt w 0 = some x) (fun x hx => ⟨v, hx⟩)
    (fun x y _ hxy => ⟨x, hxy⟩) u hm
  rw [hs.next_iff_prev, hp] at hw
  cases hw

theorem Shaped.valueAt_detach (h : a.Shaped) (value : Int) (hk : k < a.height v) :
    (a.detach u value).valueAt v k = if v = u then value else a.valueAt v k := by
  rw [SumList.valueAt_detach]
  by_cases hv : v = u
  · subst hv
    simp [h.depth, hk]
  · simp [hv]

/-- The sums stay right when an element that is alone gets another value on all levels. -/
theorem Sound.summed_detach (h : a.Sound) (hu : a.list.Alone u) (value : Int) (hk : k < a.height v) :
    (a.detach u value).Summed v k := by
  obtain ⟨xs, e, hx, hv⟩ := h.summed v k hk
  have hnext (w : Nat) := (h.woven.links_detach hu w 0).1
  have hx' : (a.detach u value).list.Stretch k ((a.detach u value).list.nextAt v 0) xs e := by
    rw [list_detach, hnext]
    exact hx.congr (fun _ => SkipList.height_detach ..) hnext
  refine ⟨xs, e, hx', ?_⟩
  rw [h.valueAt_detach value hk]
  by_cases hvu : v = u
  · subst hvu
    rw [hu.next] at hx
    cases hx
    rw [if_pos rfl, total_cons, total_nil, h.valueAt_detach value (Nat.zero_lt_of_lt hk), if_pos rfl, Int.add_zero]
  · have hux : u ∉ xs := not_mem_of_prev_eq_none h.woven hx hu.prev
    obtain ⟨-, hlt⟩ := h.woven.stretch_nodup hk hx
    rw [if_neg hvu, hv]
    refine (total_congr fun x hm => ?_).symm
    rw [h.valueAt_detach value (h.woven.height_pos x (hlt x hm)), if_neg]
    rintro rfl
    exact (List.mem_cons.mp hm).elim (fun he => hvu he.symm) hux

/-- An element that is alone may be detached once more, with another value. -/
theorem Sound.detach (h : a.Sound) (hu : u < a.size) (hal : a.list.Alone u) (value : Int) :
    (a.detach u value).Sound ∧ (a.detach u value).size = a.size ∧
      (∀ v, (a.detach u value).height v = a.height v) ∧
      (∀ v k, (a.detach u value).list.nextAt v k = a.list.nextAt v k) ∧
      ∀ v, (a.detach u value).valueAt v 0 = if v = u then value else a.valueAt v 0 := by
  have hsize : (a.detach u value).size = a.size := SkipList.size_detach ..
  have hheight (v : Nat) : (a.detach u value).height v = a.height v := SkipList.height_detach ..
  refine ⟨⟨⟨h.woven.detach hal, fun v => by rw [depth_detach, h.depth, hheight], ?_⟩, fun v => ?_,
    fun v k hk => h.summed_detach hal value (hheight v ▸ hk)⟩, hsize, hheight,
    fun v k => (h.woven.links_detach hal v k).1, fun v => ?_⟩
  · rw [hsize, ← h.size_marks]
    exact Array.size_setIfInBounds
  · rw [markAt_detach, h.unmarked, ite_self]
  · by_cases hv : v < a.size
    · exact h.valueAt_detach value (h.woven.height_pos v hv)
    · have hne : v ≠ u := fun e => hv (e ▸ hu)
      rw [SumList.valueAt_detach, if_neg hne, if_neg fun h => hne h.1]

end SumList

end TourForest
