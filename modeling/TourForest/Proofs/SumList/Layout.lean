import TourForest.Proofs.SkipList.Layout
import TourForest.Proofs.SumList.Refresh
import TourForest.SumList.Batch

/-!
# The layout of a list with sums

The layout of a list with sums is all of it but its links, values and marks. No operation that answers changes it.
With the layout given, a list whose sums are right is made up of the links and the values of level 0
(`Sound.eq_of_layout`), whatever batches have led to it.

Nor does an operation that answers change the own values, or any value of an element that it neither starts from nor
can get to along links (`Repaired`, `Batched`). Nothing is said here about the sums, which need not be right.
-/

namespace TourForest

/-! ## Places of a walk and of a climb -/

namespace Walk

variable {P : Type} {w : Walk P} {I : P → Prop}

/-- A walk comes to places of its kind only, and stops where its stride says so. -/
theorem advance_place (hI : ∀ p value q, I p → w.stride p = .ok (.go value q) → I q) :
    ∀ {strides : Nat} {place : P} {sum : Int} {r : Progress P}, I place → w.advance strides place sum = .ok r →
      I r.place ∧ (r.stopped = true → w.stride r.place = .ok .stop) := by
  intro strides
  induction strides with
  | zero =>
    intro place sum r hp hok
    cases hok
    exact ⟨hp, by simp⟩
  | succ strides ih =>
    intro place sum r hp hok
    rw [advance] at hok
    obtain ⟨stride, hs, hok⟩ := bind_eq_ok.mp hok
    rcases stride with stop | ⟨value, q⟩
    · cases hok
      exact ⟨hp, fun _ => hs⟩
    · obtain ⟨sum', -, hok⟩ := bind_eq_ok.mp hok
      exact ih (hI place value q hp hs) hok

/-- Where a walk ends it stops. -/
theorem finish_place [DecidableEq P] (hI : ∀ p value q, I p → w.stride p = .ok (.go value q) → I q) {places : Nat}
    {start p : P} {sum sum' : Int} (hs : I start) (hok : w.finish places start sum = .ok (p, sum')) :
    I p ∧ w.stride p = .ok .stop := by
  obtain ⟨r, hr, hok⟩ := bind_eq_ok.mp hok
  obtain ⟨hp, hstop⟩ := advance_place hI hs hr
  split at hok
  · next h =>
    cases hok
    exact ⟨hp, hstop h⟩
  · obtain ⟨stride, hs, hok⟩ := bind_eq_ok.mp hok
    rcases stride with stop | ⟨value, q⟩
    · cases hok
      exact ⟨hp, hs⟩
    · obtain ⟨sum₁, -, hok⟩ := bind_eq_ok.mp hok
      obtain ⟨again, -, hok⟩ := bind_eq_ok.mp hok
      split at hok <;> cases hok

end Walk

namespace SkipList

variable {s : SkipList} {P : Nat → Prop} {u : Nat}

/-- All links lead to elements of `P`. -/
def LinksInto (s : SkipList) (P : Nat → Prop) : Prop :=
  ∀ u k v, s.nextAt u k = some v ∨ s.prevAt u k = some v → P v

/-- A climb within `P` stays there. -/
theorem mem_of_climb {step : Nat → Option Nat} {start k v : Nat} (hstep : ∀ w v, step w = some v → P v) :
    ∀ {steps cur : Nat}, P cur → s.climb step start k steps cur = .ok (some v) → P v := by
  intro steps
  induction steps with
  | zero => exact fun _ h => by cases h
  | succ steps ih =>
    intro cur hcur h
    rw [climb] at h
    split at h
    · cases h
      exact hcur
    · split at h
      · cases h
      · next w hw =>
        split at h
        · cases h
        · exact ih (hstep cur w hw) h

end SkipList

namespace SumList

variable {a a' : SumList} {u : Nat}

/-- The layout of the arena, the numbers of values of all elements with what is left of the arrays that hold them,
and the number of marks. -/
def layout (a : SumList) : Array (Nat × Array Links) × Array (Nat × Array Int) × Nat :=
  (a.list.layout, a.sums.map fun x => (x.levels.size, x.slack), a.marks.size)

theorem layout_list (h : a'.layout = a.layout) : a'.list.layout = a.list.layout := congrArg Prod.fst h

theorem layout_withList {list : SkipList} (h : list.layout = a.list.layout) :
    ({ a with list } : SumList).layout = a.layout := by
  rw [layout, h, layout]

/-! ## Equal lists -/

/-- A list is made up of its layout, its links, its values and its marks. -/
theorem eq_of_values (h : a'.layout = a.layout) (hlist : a'.list = a.list)
    (hvalue : ∀ u k, a'.valueAt u k = a.valueAt u k) (hmark : ∀ u, a'.markAt u = a.markAt u) : a' = a := by
  obtain ⟨list', sums', marks'⟩ := a'
  obtain ⟨list, sums, marks⟩ := a
  obtain rfl : list' = list := hlist
  have hsums := congrArg (·.2.1) h
  have hsize : sums'.size = sums.size := by
    simpa [layout] using congrArg Array.size hsums
  have hmarks : marks' = marks := array_eq_of_getD (congrArg (·.2.2) h) fun u => by
    rw [← Array.getD_eq_getD_getElem?, ← Array.getD_eq_getD_getElem?]
    exact hmark u
  subst hmarks
  refine congrArg (SumList.mk list' · marks') (Array.ext hsize fun u hu' hu => ?_)
  have hv := hvalue u
  unfold valueAt at hv
  simp only [Array.getElem?_eq_getElem hu, Array.getElem?_eq_getElem hu', Option.bind_some] at hv
  have ht := congrArg (·[u]?) hsums
  simp only [layout, Array.getElem?_map, Array.getElem?_eq_getElem hu, Array.getElem?_eq_getElem hu',
    Option.map_some, Option.some.injEq, Prod.mk.injEq] at ht
  generalize sums[u] = x at hv ht
  generalize sums'[u] = x' at hv ht
  obtain ⟨levels', slack'⟩ := x'
  obtain ⟨levels, slack⟩ := x
  exact congrArg₂ Sums.mk (array_eq_of_getD ht.1 hv) ht.2

/-- Above a tower there are no values. -/
theorem valueAt_of_depth_le {k : Nat} (h : a.depth u ≤ k) : a.valueAt u k = 0 := by
  unfold valueAt
  unfold depth at h
  cases hu : a.sums[u]? with
  | none => rfl
  | some x =>
    simp only [hu, Option.elim_some] at h
    simp [Array.getElem?_eq_none h]

/-- The layout and level 0 decide about all links and all sums. -/
theorem Sound.eq_of_layout (h : a.Sound) (h' : a'.Sound) (hlayout : a'.layout = a.layout)
    (hnext : ∀ u, a'.list.nextAt u 0 = a.list.nextAt u 0) (hown : ∀ u, a'.valueAt u 0 = a.valueAt u 0) : a' = a := by
  have hlist : a'.list = a.list := h.woven.eq_of_layout h'.woven (layout_list hlayout) hnext
  have hheight (u : Nat) : a'.height u = a.height u := by rw [height, hlist, height]
  refine eq_of_values hlayout hlist (fun u k => ?_) fun u => (h'.unmarked u).trans (h.unmarked u).symm
  rcases Nat.lt_or_ge k (a.height u) with hk | hk
  · obtain ⟨xs, e, hx, hv⟩ := h.summed u k hk
    rw [hv, (h'.summed u k (hk.trans_eq (hheight u).symm)).eq_total (hlist ▸ hx)]
    exact congrArg List.sum (List.map_congr_left fun v _ => hown v)
  · rw [valueAt_of_depth_le ((h.depth u).trans_le hk), valueAt_of_depth_le]
    exact (h'.depth u).trans_le ((hheight u).trans_le hk)

/-! ## Changing values, marks and links -/

@[simp] theorem layout_setValue (a : SumList) (u k : Nat) (value : Int) : (a.setValue u k value).layout = a.layout := by
  rw [layout, setValue, map_modify_of_eq fun x => by rw [Array.size_setIfInBounds]]
  rfl

@[simp] theorem layout_setMark (a : SumList) (u : Nat) (mark : Option Nat) : (a.setMark u mark).layout = a.layout := by
  rw [layout, setMark, Array.size_setIfInBounds]
  rfl

@[simp] theorem layout_detach (a : SumList) (u : Nat) (value : Int) : (a.detach u value).layout = a.layout := by
  rw [layout, detach, SkipList.layout_detach, Array.size_setIfInBounds,
    map_modify_of_eq fun x => by rw [Array.size_map]]
  rfl

theorem layout_foldl_detach (xs : List Nat) (a : SumList) :
    (xs.foldl (fun a x => a.detach x 0) a).layout = a.layout := by
  induction xs generalizing a with
  | nil => rfl
  | cons x xs ih => rw [List.foldl_cons, ih, layout_detach]

/-! ## Repairs -/

/-- Repairs have led from `a` to `a'`. They change no links, and values only above level 0 and only of elements of
`P`. -/
structure Repaired (P : Nat → Prop) (a a' : SumList) : Prop where
  list : a'.list = a.list
  layout : a'.layout = a.layout
  own : ∀ x, a'.valueAt x 0 = a.valueAt x 0
  spared : ∀ x, ¬ P x → ∀ k, a'.valueAt x k = a.valueAt x k

namespace Repaired

variable {a'' : SumList} {P : Nat → Prop}

theorem refl (a : SumList) : Repaired P a a := ⟨rfl, rfl, fun _ => rfl, fun _ _ _ => rfl⟩

theorem trans (h : Repaired P a a') (h' : Repaired P a' a'') : Repaired P a a'' where
  list := h'.list.trans h.list
  layout := h'.layout.trans h.layout
  own x := (h'.own x).trans (h.own x)
  spared x hx k := (h'.spared x hx k).trans (h.spared x hx k)

theorem setMark (a : SumList) (u : Nat) (mark : Option Nat) : Repaired P a (a.setMark u mark) :=
  ⟨rfl, layout_setMark .., fun _ => rfl, fun _ _ _ => rfl⟩

theorem setValue (hu : P u) (a : SumList) (k : Nat) (value : Int) : Repaired P a (a.setValue u (k + 1) value) where
  list := rfl
  layout := layout_setValue ..
  own x := by rw [valueAt_setValue, if_neg (by simp)]
  spared x hx j := by
    rw [valueAt_setValue, if_neg]
    rintro ⟨rfl, -⟩
    exact hx hu

/-- Taking marks off. -/
theorem unmarkAll (a : SumList) (us : List (Option Nat)) :
    Repaired P a (us.foldl (fun a u => u.elim a (a.setMark · none)) a) := by
  induction us generalizing a with
  | nil => exact .refl a
  | cons u us ih =>
    refine trans ?_ (ih _)
    cases u with
    | none => exact .refl a
    | some u => exact .setMark a u none

/-- A loop of repairs. -/
theorem foldlM {α : Type} {f : SumList → α → Except Fault SumList} {xs : List α}
    (hf : ∀ b, Repaired P a b → ∀ x ∈ xs, ∀ c, f b x = .ok c → Repaired P b c) (h : xs.foldlM f a = .ok a') :
    Repaired P a a' := by
  suffices hall : ∀ {xs : List α} {b : SumList}, Repaired P a b →
      (∀ b, Repaired P a b → ∀ x ∈ xs, ∀ c, f b x = .ok c → Repaired P b c) → xs.foldlM f b = .ok a' →
      Repaired P a a' from hall (.refl a) hf h
  intro xs
  induction xs with
  | nil =>
    intro b hb _ h
    cases h
    exact hb
  | cons x xs ih =>
    intro b hb hf h
    rw [List.foldlM_cons] at h
    obtain ⟨c, hc, h⟩ := bind_eq_ok.mp h
    exact ih (hb.trans (hf b hb x List.mem_cons_self c hc)) (fun b hb y hy => hf b hb y (List.mem_cons_of_mem _ hy)) h

end Repaired

section

variable {P : Nat → Prop}

theorem repaired_closeRunsFrom : ∀ (levels k u : Nat) (sum : Int) {a a' : SumList}, a.list.LinksInto P → P u →
    a.closeRunsFrom levels k u sum = .ok a' → Repaired P a a' := by
  intro levels
  induction levels with
  | zero =>
    intro k u sum a a' _ _ h
    cases h
    exact .refl a
  | succ levels ih =>
    intro k u sum a a' hP hu h
    rw [closeRunsFrom] at h
    obtain ⟨⟨v, sum'⟩, hwalk, h⟩ := bind_eq_ok.mp h
    cases v with
    | none =>
      cases h
      exact .refl a
    | some v =>
      have hv : P v := by
        refine (Walk.finish_place (I := fun o => ∀ v, o = some v → P v) (fun p value q hp hgo v hq => ?_)
          (fun v hv => Option.some.inj hv ▸ hu) hwalk).1 v rfl
        rcases p with _ | w
        · cases hgo
        · simp only [leftward, Except.ok.injEq] at hgo
          split at hgo
          · cases hgo
          · cases hgo
            exact hP w k v (.inr hq)
      exact (Repaired.setValue hv a k sum').trans (ih _ _ _ (list_setValue a v (k + 1) sum' ▸ hP) hv h)

theorem repaired_closeRunsOnce {u : Option Nat} (hP : a.list.LinksInto P) (hu : ∀ v ∈ u, P v)
    (h : a.closeRunsOnce u = .ok a') : Repaired P a a' := by
  unfold closeRunsOnce at h
  split at h
  · cases h
  · next v =>
    obtain ⟨-, -, h⟩ := bind_eq_ok.mp h
    split at h
    · exact (Repaired.setMark a v (some 0)).trans (repaired_closeRunsFrom _ _ _ _ hP (hu v rfl) h)
    · cases h
      exact .refl a

theorem repaired_claimFrom : ∀ (steps k u : Nat) {a a' : SumList} {top : Option Nat}, a.list.LinksInto P → P u →
    a.claimFrom steps k u = .ok (top, a') → Repaired P a a' ∧ ∀ t ∈ top, P t := by
  intro steps
  induction steps with
  | zero =>
    intro k u a a' top _ _ h
    cases h
  | succ steps ih =>
    intro k u a a' top hP hu h
    rw [claimFrom] at h
    split at h
    · cases h
      exact ⟨.setMark .., by simp⟩
    · obtain ⟨parent, hparent, h⟩ := bind_eq_ok.mp h
      split at h
      · cases h
        exact ⟨.setMark .., by simpa using hu⟩
      · next hfree p =>
        have hp : P p := SkipList.mem_of_climb (fun w v hv => hP w _ v (.inr hv)) hu hparent
        have hP' : (a.setMark u (some k)).list.LinksInto P := hP
        obtain ⟨hr, ht⟩ := ih _ _ hP' hp h
        exact ⟨(Repaired.setMark ..).trans hr, ht⟩

theorem repaired_claimAll {us : List (Option Nat)} {tops : List Nat} (hP : a.list.LinksInto P)
    (hus : ∀ u ∈ us, ∀ v ∈ u, P v) (h : a.claimAll us = .ok (tops, a')) : Repaired P a a' ∧ ∀ t ∈ tops, P t := by
  induction us generalizing a tops with
  | nil =>
    cases h
    exact ⟨.refl _, by simp⟩
  | cons u us ih =>
    obtain ⟨hu, hus⟩ := List.forall_mem_cons.mp hus
    obtain ⟨⟨top, b⟩, hb, h⟩ := bind_eq_ok.mp h
    obtain ⟨⟨tops', b'⟩, hb', h⟩ := bind_eq_ok.mp h
    cases h
    have hfirst : Repaired P a b ∧ ∀ t ∈ top, P t := by
      cases u with
      | none => cases hb
      | some u =>
        obtain ⟨-, -, hb⟩ := bind_eq_ok.mp hb
        exact repaired_claimFrom _ _ _ hP (hu u rfl) hb
    obtain ⟨hr, ht⟩ := ih (hfirst.1.list ▸ hP) hus hb'
    refine ⟨hfirst.1.trans hr, fun t hm => (List.mem_append.mp hm).elim (fun hm => ?_) (ht t)⟩
    exact hfirst.2 t (Option.mem_toList.mp hm)

theorem repaired_recompute {k : Nat} {run : List Nat} (hu : P u) (h : a.recompute u k run = .ok a') :
    Repaired P a a' := by
  obtain ⟨sum, -, h⟩ := bind_eq_ok.mp h
  cases h
  have hset : Repaired P a (a.setValue u (k + 1) sum) := .setValue hu a k sum
  split
  · exact hset.trans (.setMark ..)
  · exact hset

/-- The elements of a run are behind others. -/
theorem mem_of_run {k v : Nat} (hP : a.list.LinksInto P) (hv : v ∈ (a.run u k).elements) : P v := by
  suffices hall : ∀ {steps : Nat} {cur : Option Nat}, (∀ w ∈ cur, P w) → v ∈ (a.runFrom k steps cur).elements → P v from
    hall (fun w hw => hP u k w (.inl hw)) hv
  intro steps
  induction steps with
  | zero =>
    intro cur _ hv
    cases cur <;> cases hv
  | succ steps ih =>
    intro cur hcur hv
    cases cur with
    | none => cases hv
    | some w =>
      rw [runFrom] at hv
      split at hv
      · cases hv
      · rcases List.mem_cons.mp hv with rfl | hv
        · exact hcur v rfl
        · exact ih (fun x hx => hP w k x (.inl hx)) hv

theorem elements_of_finished {r : Run} {run : List Nat} (h : r.finished = .ok run) : run = r.elements := by
  unfold Run.finished at h
  split at h
  · exact (Except.ok.inj h).symm
  · cases h

theorem repaired_refreshInOrder : ∀ (k : Nat) {a a' : SumList} {u : Nat}, a.list.LinksInto P → P u →
    refreshInOrder k a u = .ok a' → Repaired P a a' := by
  intro k
  induction k with
  | zero =>
    intro a a' u _ _ h
    rw [refreshInOrder] at h
    cases h
    split
    · exact .setMark ..
    · exact .refl a
  | succ k ih =>
    intro a a' u hP hu h
    rw [refreshInOrder_succ] at h
    obtain ⟨b, hb, h⟩ := bind_eq_ok.mp h
    obtain ⟨c, hc, h⟩ := bind_eq_ok.mp h
    obtain ⟨run, -, h⟩ := bind_eq_ok.mp h
    have hab : Repaired P a b := by
      split at hb
      · exact ih hP hu hb
      · cases hb
        exact .refl a
    have hPb : b.list.LinksInto P := hab.list ▸ hP
    have hbc : Repaired P b c := .foldlM (fun d hbd v hv d' hd => by
      split at hd
      · exact ih (hbd.list ▸ hPb) (mem_of_run hPb hv) hd
      · cases hd
        exact .refl d) hc
    exact hab.trans (hbc.trans (repaired_recompute hu h))

theorem repaired_refresh (cutoff : Nat) (schedule : Schedule) : ∀ (k : Nat) {a a' : SumList} {u : Nat},
    a.list.LinksInto P → P u → refresh cutoff schedule k a u = .ok a' → Repaired P a a' := by
  intro k
  induction k with
  | zero => exact repaired_refreshInOrder 0
  | succ k ih =>
    intro a a' u hP hu h
    rw [refresh] at h
    split at h
    · exact repaired_refreshInOrder _ hP hu h
    · obtain ⟨run, hrun, h⟩ := bind_eq_ok.mp h
      obtain rfl := elements_of_finished hrun
      obtain ⟨b, hb, h⟩ := bind_eq_ok.mp h
      have hab : Repaired P a b := .foldlM (fun c hac v hv d hd => by
        have hv := List.mem_of_mem_filter ((schedule.perm _).mem_iff.mp hv)
        refine ih (hac.list ▸ hP) ?_ hd
        rcases List.mem_cons.mp hv with rfl | hv
        · exact hu
        · exact mem_of_run hP hv) hb
      exact hab.trans (repaired_recompute hu h)

theorem repaired_repair {changed : List (Option Nat)} (hP : a.list.LinksInto P) (hc : ∀ u ∈ changed, ∀ v ∈ u, P v)
    (h : a.repair changed = .ok a') : Repaired P a a' := by
  obtain ⟨⟨tops, b⟩, hb, h⟩ := bind_eq_ok.mp h
  obtain ⟨hab, htops⟩ := repaired_claimAll hP hc hb
  have hP' : b.list.LinksInto P := hab.list ▸ hP
  exact hab.trans (.foldlM (fun c hbc t ht d hd =>
    repaired_refresh _ _ _ (hbc.list ▸ hP') (htops t ht) hd) h)

theorem layout_repair {changed : List (Option Nat)} (h : a.repair changed = .ok a') : a'.layout = a.layout :=
  (repaired_repair (P := fun _ => True) (fun _ _ _ _ => trivial) (fun _ _ _ _ => trivial) h).layout

theorem layout_unmarkAll (a : SumList) (us : List (Option Nat)) :
    (us.foldl (fun a u => u.elim a (a.setMark · none)) a).layout = a.layout :=
  (Repaired.unmarkAll (P := fun _ => True) a us).layout

theorem layout_closeRunsOnce {u : Option Nat} (h : a.closeRunsOnce u = .ok a') : a'.layout = a.layout :=
  (repaired_closeRunsOnce (P := fun _ => True) (fun _ _ _ _ => trivial) (fun _ _ => trivial) h).layout

theorem layout_claimFrom {steps k u : Nat} {top : Option Nat} (h : a.claimFrom steps k u = .ok (top, a')) :
    a'.layout = a.layout :=
  (repaired_claimFrom (P := fun _ => True) steps k u (fun _ _ _ _ => trivial) trivial h).1.layout

theorem layout_claimAll {us : List (Option Nat)} {tops : List Nat} (h : a.claimAll us = .ok (tops, a')) :
    a'.layout = a.layout :=
  (repaired_claimAll (P := fun _ => True) (fun _ _ _ _ => trivial) (fun _ _ _ _ => trivial) h).1.layout

theorem layout_refreshInOrder {k u : Nat} (h : refreshInOrder k a u = .ok a') : a'.layout = a.layout :=
  (repaired_refreshInOrder (P := fun _ => True) k (fun _ _ _ _ => trivial) trivial h).layout

theorem layout_refresh {cutoff k u : Nat} {schedule : Schedule} (h : refresh cutoff schedule k a u = .ok a') :
    a'.layout = a.layout :=
  (repaired_refresh (P := fun _ => True) cutoff schedule k (fun _ _ _ _ => trivial) trivial h).layout

end

/-! ## Batches -/

/-- Element `x` is one of `us`, or a link leads to it. -/
def Involved (s : SkipList) (us : List (Option Nat)) (x : Nat) : Prop :=
  some x ∈ us ∨ ∃ u k, s.nextAt u k = some x ∨ s.prevAt u k = some x

/-- A batch that has changed the links at `us` has led from `a` to `a'`. It changes values only above level 0 and only
of elements that are involved. -/
structure Batched (a a' : SumList) (us : List (Option Nat)) : Prop where
  layout : a'.layout = a.layout
  own : ∀ x, a'.valueAt x 0 = a.valueAt x 0
  spared : ∀ x, ¬ Involved a'.list us x → ∀ k, a'.valueAt x k = a.valueAt x k

theorem Repaired.batched {list : SkipList} {us : List (Option Nat)} (hl : list.layout = a.list.layout)
    (h : Repaired (Involved list us) { a with list } a') : a'.list = list ∧ a.Batched a' us :=
  have hlist : a'.list = list := h.list
  ⟨hlist, h.layout.trans (layout_withList hl), h.own, fun x hx => h.spared x (hlist ▸ hx)⟩

/-- A batch of joins does to the links what it does without sums. -/
theorem batched_joinAll {seams : List Seam} (h : a.joinAll seams = .ok a') :
    a.list.joinAll seams = .ok a'.list ∧ a.Batched a' (seams.map Prod.fst) := by
  obtain ⟨list, hlist, h⟩ := bind_eq_ok.mp h
  have hr := repaired_repair (P := Involved list (seams.map Prod.fst)) (fun u k _ hv => .inr ⟨u, k, hv⟩)
    (fun u hu v hv => .inl (Option.mem_def.mp hv ▸ hu)) h
  obtain ⟨rfl, hb⟩ := hr.batched (SkipList.layout_joinAll hlist)
  exact ⟨hlist, hb⟩

/-- A batch of splits does to the links what it does without sums, and has the same answers. -/
theorem batched_splitAll {points after : List (Option Nat)} (h : a.splitAll points = .ok (after, a')) :
    a.list.splitAll points = .ok (after, a'.list) ∧ a.Batched a' points := by
  obtain ⟨⟨after', list⟩, hlist, h⟩ := bind_eq_ok.mp h
  obtain ⟨b, hb, h⟩ := bind_eq_ok.mp h
  cases h
  have hP : list.LinksInto (Involved list points) := fun u k _ hv => .inr ⟨u, k, hv⟩
  have hclose : Repaired (Involved list points) { a with list } b := .foldlM (fun c hc u hu d hd =>
    repaired_closeRunsOnce (hc.list ▸ hP) (fun v hv => .inl (Option.mem_def.mp hv ▸ hu)) hd) hb
  obtain ⟨he, hbatch⟩ := (hclose.trans (.unmarkAll b points)).batched (SkipList.layout_splitAll hlist)
  exact ⟨he.symm ▸ hlist, hbatch⟩

theorem layout_joinAll {seams : List Seam} (h : a.joinAll seams = .ok a') : a'.layout = a.layout :=
  (batched_joinAll h).2.layout

theorem layout_splitAll {points after : List (Option Nat)} (h : a.splitAll points = .ok (after, a')) :
    a'.layout = a.layout :=
  (batched_splitAll h).2.layout

theorem length_splitAll {points after : List (Option Nat)} (h : a.splitAll points = .ok (after, a')) :
    after.length = points.length :=
  SkipList.length_splitAll (batched_splitAll h).1

theorem layout_setValues {updates : List (Nat × Int)} (h : a.setValues updates = .ok a') : a'.layout = a.layout := by
  obtain ⟨b, hb, h⟩ := bind_eq_ok.mp h
  refine (layout_repair h).trans (foldlM_keeps (fun c x _ d hd => ?_) hb)
  obtain ⟨-, -, hd⟩ := bind_eq_ok.mp hd
  cases hd
  exact layout_setValue ..

/-- Splits, resets and joins. -/
theorem layout_resew (gone : List Nat) {points after : List (Option Nat)} {seams : List Seam} {a₁ : SumList}
    (hsplit : a.splitAll points = .ok (after, a₁))
    (hjoin : (gone.foldl (fun a x => a.detach x 0) a₁).joinAll seams = .ok a') : a'.layout = a.layout := by
  rw [layout_joinAll hjoin, layout_foldl_detach, layout_splitAll hsplit]

end SumList

end TourForest
