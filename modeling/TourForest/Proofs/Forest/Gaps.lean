import TourForest.Forest.Cut
import TourForest.Proofs.Forest.Prune
import TourForest.Proofs.SkipList.Stretch

/-!
# Closing gaps

When elements are marked as doomed, the walk from the first of some in a row steps from each to the next one
in the ring of their vertex, up to the first one that stays. So the seams that close the gaps of all doomed
elements are the gaps of the smaller rotation, each once.
-/

namespace TourForest.Forest

variable {g : Forest} {rot : Nat → List Nat} {E E' : Finset (Sym2 Nat)} {gone : List Nat} {r v x : Nat}

/-! ## Walks -/

/-- The walk from `x` goes on behind the twin of each doomed element, and after so many steps it is at `r`, which
is not doomed. -/
inductive Crosses (g : Forest) : (steps x r : Nat) → Prop
  | arrived {r : Nat} : g.isDoomed (some r) = .ok false → Crosses g 0 r r
  | onward {steps x y z r : Nat} : g.isDoomed (some x) = .ok true → g.twin x = .ok y →
      g.tours.list.nextAt y 0 = some z → Crosses g steps z r → Crosses g (steps + 1) x r

namespace Crosses

variable {k k' steps r' : Nat}

theorem unique (h : g.Crosses k x r) (h' : g.Crosses k' x r') : k = k' ∧ r = r' := by
  induction h generalizing k' with
  | arrived hr =>
    cases h' with
    | arrived => exact ⟨rfl, rfl⟩
    | onward hx => cases hr.symm.trans hx
  | onward hx hy hz _ ih =>
    cases h' with
    | arrived hr => cases hx.symm.trans hr
    | onward _ hy' hz' h' =>
      obtain rfl := Except.ok.inj (hy.symm.trans hy')
      obtain rfl := Option.some.inj (hz.symm.trans hz')
      exact (ih h').imp (congrArg (· + 1)) id

theorem not_doomed (h : g.Crosses k x r) : g.isDoomed (some r) = .ok false := by
  induction h with
  | arrived hr => exact hr
  | onward _ _ _ _ ih => exact ih

/-- One step more than the walk takes is enough to find where it ends. -/
theorem survivor_eq (h : g.Crosses k x r) (hk : k < steps) : g.survivor steps (some x) = .ok (some r) := by
  obtain ⟨steps, rfl⟩ := Nat.exists_eq_add_one_of_ne_zero (Nat.ne_zero_of_lt hk)
  induction h generalizing steps with
  | arrived hr =>
    rw [survivor, hr, ok_bind]
    rfl
  | @onward k x y z r hx hy hz _ ih =>
    have hsize : y < g.tours.list.size :=
      SkipList.lt_size_of_height_pos (Nat.zero_lt_of_lt (SkipList.Woven.lt_height_of_next hz))
    obtain ⟨steps, rfl⟩ := Nat.exists_eq_add_one_of_ne_zero (show steps ≠ 0 by omega)
    rw [survivor, hx, ok_bind, if_pos rfl, hy, ok_bind, SkipList.successor, SkipList.check_of_lt hsize]
    show g.survivor (steps + 1) (g.tours.list.nextAt y 0) = _
    rw [hz]
    exact ih steps (by omega)

end Crosses

/-! ## Marks -/

/-- The tours are those of a rotation, and the elements in `gone` are marked as doomed. -/
structure Marked (g : Forest) (rot : Nat → List Nat) (gone : List Nat) : Prop where
  few : g.vertices < 2 ^ 32
  size : g.tours.size = arenaSize g.vertices
  woven : g.tours.list.Woven
  next_iff : ∀ x y, g.tours.list.nextAt x 0 = some y ↔ Follows g.vertices rot x y
  doomed : ∀ x < arenaSize g.vertices, g.isDoomed (some x) = .ok (decide (x ∈ gone))

namespace Marked

theorem check (hm : g.Marked rot gone) (hx : x < arenaSize g.vertices) : g.tours.list.check x = .ok () :=
  if_pos (hx.trans_eq hm.size.symm)

theorem successor_eq (hm : g.Marked rot gone) (hx : x < arenaSize g.vertices) :
    g.tours.list.successor x = .ok (g.tours.list.nextAt x 0) := by
  rw [SkipList.successor, hm.check hx]
  rfl

theorem predecessor_eq (hm : g.Marked rot gone) (hx : x < arenaSize g.vertices) :
    g.tours.list.predecessor x = .ok (g.tours.list.prevAt x 0) := by
  rw [SkipList.predecessor, hm.check hx]
  rfl

/-- Behind the mate of an element is what comes after the element in its ring. -/
theorem next_mate (hm : g.Marked rot gone) (hv : v < g.vertices) {y : Nat} {t : List Nat}
    (hi : x :: y :: t <:+: ring rot v) : g.tours.list.nextAt (mate g.vertices x) 0 = some y :=
  (hm.next_iff _ y).mpr (follows_of_adjacent hv (by rwa [mate_mate]))

variable (h : Rotation g.vertices E rot) (hg : Prunes g.vertices rot gone)
include h hg

theorem twin_eq (hm : g.Marked rot gone) (hx : x ∈ gone) : g.twin x = .ok (mate g.vertices x) := by
  obtain ⟨hle, hlt⟩ := hg.range h hx
  have hfew := hm.few
  apply TourForest.twin_eq hle
  unfold arenaSize at hlt
  unfold maxWord
  omega

/-- The walk from the first of some doomed elements in a row takes a step for each other one, up to what comes
after the last. -/
theorem crosses (hm : g.Marked rot gone) (hv : v < g.vertices) (hr : r ∉ gone) :
    ∀ (ds : List Nat) {d : Nat}, (∀ x ∈ ds, x ∈ gone) → d :: (ds ++ [r]) <:+: ring rot v →
      ∃ first, g.tours.list.nextAt (mate g.vertices d) 0 = some first ∧ g.Crosses ds.length first r := by
  intro ds
  induction ds with
  | nil =>
    intro d _ hi
    have hlt := h.lt_of_ring hv (hi.subset (by simp : r ∈ d :: ([] ++ [r])))
    exact ⟨r, hm.next_mate hv hi, .arrived (by rw [hm.doomed r hlt, decide_eq_false hr])⟩
  | cons d' ds ih =>
    intro d hds hi
    obtain ⟨hd', hds⟩ := List.forall_mem_cons.mp hds
    rw [List.cons_append] at hi
    obtain ⟨first, hfirst, hwalk⟩ := ih hds ((List.suffix_cons d _).isInfix.trans hi)
    refine ⟨d', hm.next_mate hv hi, .onward ?_ (hm.twin_eq h hg hd') hfirst hwalk⟩
    rw [hm.doomed d' (hg.range h hd').2, decide_eq_true hd']

/-- A row of doomed elements is shorter than the arena. -/
theorem length_lt (hm : g.Marked rot gone) (hv : v < g.vertices) {l d : Nat} {ds : List Nat}
    (hds : ∀ x ∈ ds, x ∈ gone) (hi : l :: d :: (ds ++ [r]) <:+: ring rot v) : ds.length < g.tours.size + 1 := by
  have hnodup : ds.Nodup := (h.nodup_run hv hi).of_cons.of_cons
  have hrange : ds ⊆ List.range (arenaSize g.vertices) := fun x hx => List.mem_range.mpr (hg.range h (hds x hx)).2
  have hle := (List.subperm_of_subset hnodup hrange).length_le
  rw [List.length_range, ← hm.size] at hle
  omega

/-- The walk from a doomed element comes to the first element behind it in its ring that stays. -/
theorem exists_crossing (hm : g.Marked rot gone) {d : Nat} (hd : d ∈ gone) :
    ∃ v < g.vertices, ∃ l ds r first, (∀ x ∈ ds, x ∈ gone) ∧ r ∉ gone ∧
      mate g.vertices l :: d :: (ds ++ [r]) <:+: ring rot v ∧
      g.tours.list.nextAt (mate g.vertices d) 0 = some first ∧ g.Crosses ds.length first r := by
  obtain ⟨v, hv, l, ds, r, hds, hr, hi⟩ := hg.exists_run h hd
  obtain ⟨first, hfirst, hwalk⟩ := hm.crosses h hg hv hr ds hds ((List.suffix_cons _ _).isInfix.trans hi)
  exact ⟨v, hv, l, ds, r, first, hds, hr, hi, hfirst, hwalk⟩

/-- A gap begins before a doomed element, and the walk from the element comes to its end. -/
theorem gap_iff (hm : g.Marked rot gone) (h' : Rotation g.vertices E' (prune gone rot)) {d : Nat} (hd : d ∈ gone)
    {q : Nat × Nat} (hl : Follows g.vertices rot q.1 d) :
    Gap g.vertices rot gone q ↔ q.1 ∉ gone ∧
      ∃ k first, g.tours.list.nextAt (mate g.vertices d) 0 = some first ∧ g.Crosses k first q.2 := by
  obtain ⟨v, hv, l, ds, r, first, hds, hr, hi, hfirst, hwalk⟩ := hm.exists_crossing h hg hd
  obtain rfl := h.follows_inj hl (follows_of_adjacent hv hi)
  have hgap (hlg : q.1 ∉ gone) : Gap g.vertices rot gone (q.1, r) :=
    ⟨fun hm => hlg (hg.mate_mem_iff.mp hm), hr, v, hv, d, ds, List.forall_mem_cons.mpr ⟨hd, hds⟩, hi⟩
  constructor
  · intro hq
    have hlg : q.1 ∉ gone := fun hm => hq.1 (hg.mated q.1 hm)
    obtain rfl := h'.follows_unique ((hgap hlg).follows h hg) (hq.follows h hg)
    exact ⟨hlg, _, first, hfirst, hwalk⟩
  · rintro ⟨hlg, k, first', hfirst', hwalk'⟩
    obtain rfl := Option.some.inj (hfirst.symm.trans hfirst')
    obtain ⟨-, rfl⟩ := hwalk.unique hwalk'
    exact hgap hlg

/-- The seam for a doomed element closes the gap that begins with it, if there is one. -/
theorem exists_closing (hm : g.Marked rot gone) (h' : Rotation g.vertices E' (prune gone rot)) {d : Nat}
    (hd : d ∈ gone) :
    ∃ c : Option (Nat × Nat), g.closing d (mate g.vertices d) = .ok (c.map SkipList.seam) ∧
      ∀ q, c = some q ↔ Gap g.vertices rot gone q ∧ Follows g.vertices rot q.1 d := by
  obtain ⟨v, hv, l, ds, r, first, hds, hr, hi, hfirst, hwalk⟩ := hm.exists_crossing h hg hd
  have hld : Follows g.vertices rot l d := follows_of_adjacent hv hi
  have hl := (h.lt_of_follows hld).1
  have hpred : g.tours.list.predecessor d = .ok (some l) := by
    rw [hm.predecessor_eq (hg.range h hd).2, hm.woven.next_iff_prev.mp ((hm.next_iff l d).mpr hld)]
  rw [closing, hpred, ok_bind, hm.doomed l hl, ok_bind]
  by_cases hlg : l ∈ gone
  · refine ⟨none, by rw [if_pos (by simpa using hlg)]; rfl, fun q => ⟨nofun, fun ⟨hq, hf⟩ => ?_⟩⟩
    exact absurd (hg.mated q.1 (h.follows_inj hf hld ▸ hlg)) hq.1
  · have hsurv := hwalk.survivor_eq (hm.length_lt h hg hv hds hi)
    refine ⟨some (l, r), ?_, fun q => ?_⟩
    · rw [if_neg (by simpa using hlg), hm.successor_eq (hg.range h (hg.mated d hd)).2, ok_bind, hfirst, hsurv]
      rfl
    · rw [Option.some.injEq]
      constructor
      · rintro rfl
        exact ⟨(hm.gap_iff h hg h' hd hld).mpr ⟨hlg, _, first, hfirst, hwalk⟩, hld⟩
      · intro ⟨hq, hf⟩
        obtain ⟨-, k, first', hfirst', hwalk'⟩ := (hm.gap_iff h hg h' hd hf).mp hq
        obtain rfl := Option.some.inj (hfirst.symm.trans hfirst')
        exact Prod.ext (h.follows_inj hld hf) (hwalk.unique hwalk').2

/-- The seams for all doomed elements close all gaps, each once. -/
theorem closings_eq (hm : g.Marked rot gone) (h' : Rotation g.vertices E' (prune gone rot)) {xs : List Nat}
    (hxs : ∀ x, x ∈ members g.vertices xs ↔ x ∈ gone) (hn : (members g.vertices xs).Nodup) :
    ∃ pairs : List (Nat × Nat),
      g.closings (xs.map fun x => (x, mate g.vertices x)) = .ok (pairs.map SkipList.seam) ∧
      (pairs.map Prod.fst).Nodup ∧ ∀ q, q ∈ pairs ↔ Gap g.vertices rot gone q := by
  choose! c hc hq using fun d => hm.exists_closing h hg h' (d := d)
  refine ⟨(members g.vertices xs).filterMap c, ?_, ?_, fun q => ?_⟩
  · have hall : ∀ x ∈ members g.vertices xs, x ∈ gone := fun x => (hxs x).mp
    clear hxs hn
    induction xs with
    | nil => rfl
    | cons x xs ih =>
      simp only [members, List.flatMap_cons, List.forall_mem_append, List.forall_mem_cons] at hall
      obtain ⟨⟨hx, hm, -⟩, hxs⟩ := hall
      have hsecond := hc _ hm
      rw [mate_mate] at hsecond
      rw [List.map_cons, closings, hc x hx, ok_bind, hsecond, ok_bind, ih hxs, ok_bind]
      refine congrArg Except.ok ?_
      rcases hx : c x with _ | q <;> rcases hy : c (mate g.vertices x) with _ | q' <;> simp [members, hx, hy]
  · rw [List.map_filterMap]
    refine List.pairwise_filterMap.mpr (hn.imp_of_mem fun {d d'} hd hd' hne l hl l' hl' heq => hne ?_)
    obtain ⟨q, hcq, rfl⟩ := Option.map_eq_some_iff.mp hl
    obtain ⟨q', hcq', rfl⟩ := Option.map_eq_some_iff.mp hl'
    have hf := ((hq d ((hxs d).mp hd) q).mp hcq).2
    have hf' := ((hq d' ((hxs d').mp hd') q').mp hcq').2
    exact h.follows_unique hf (heq ▸ hf')
  · rw [List.mem_filterMap]
    constructor
    · rintro ⟨d, hd, he⟩
      exact ((hq d ((hxs d).mp hd) q).mp he).1
    · intro hgap
      obtain ⟨v, hv, d, ds, hds, hi⟩ := hgap.2.2
      have hd := hds d List.mem_cons_self
      exact ⟨d, (hxs d).mpr hd, (hq d hd q).mpr ⟨hgap, follows_of_adjacent hv hi⟩⟩

end Marked

end TourForest.Forest
