import Mathlib.Data.Set.Lattice
import TourForest.Proofs.SumList.Layout
import TourForest.Proofs.SumList.Logged

/-!
# What a pass leaves behind

The marks of a list tell which values are out of date (`Due`), and so what they will be (`renewed`). In whichever order
places are visited, a list is determined by those that have been done (`Done`): their values are the renewed ones, and
all others are the old ones.

* `area_succ`: what is out of date below an element is so below its run, but for one place;
* `Midway.state_eq`: the places that have been done determine the list.
-/

namespace TourForest.SumList

variable {a a' b : SumList} {B : Set (Nat × Nat)} {M : Set Nat} {c c' : Logged} {j k m u v : Nat} {o : Option Nat}

/-! ## Runs -/

theorem runFrom_congr (h : a'.list = a.list) (steps : Nat) : a'.runFrom k steps o = a.runFrom k steps o := by
  induction steps generalizing o with
  | zero => cases o <;> rfl
  | succ steps ih =>
    cases o with
    | none => rfl
    | some v => rw [runFrom, runFrom, SumList.height, h, ih]; rfl

/-- A run depends on the links alone. -/
theorem run_congr (h : a'.list = a.list) (u k : Nat) : a'.run u k = a.run u k := by
  rw [run, run, runFrom_congr h, SumList.size, h, SumList.size]

/-- The run of an element on one level, with that element. -/
def fullRun (b : SumList) (u k : Nat) : List Nat := u :: (b.run u k).elements

namespace Shaped

variable (hs : b.Shaped)
include hs

theorem finished_run (hk : k + 1 < b.height u) : (b.run u k).finished = .ok (b.run u k).elements := by
  obtain ⟨xs, hx⟩ := hs.woven.stretch hk
  rw [hs.run_eq hk hx]
  rfl

theorem mem_fullRun (hk : k + 1 < b.height u) : v ∈ b.fullRun u k ↔ k < b.height v ∧ b.list.Ancestor (k + 1) v u := by
  obtain ⟨xs, hx⟩ := hs.woven.stretch hk
  rw [SkipList.Woven.ancestor_iff hk hx, fullRun, hs.run_eq hk hx]
  simp only [List.mem_cons, SkipList.mem_onLevel]
  constructor
  · rintro (rfl | ⟨hv, hvk⟩)
    · exact ⟨Nat.lt_of_succ_lt hk, .inl rfl⟩
    · exact ⟨hvk, .inr hv⟩
  · rintro ⟨hvk, hv⟩
    exact hv.imp_right fun hv => ⟨hv, hvk⟩

theorem nodup_fullRun (hk : k + 1 < b.height u) : (b.fullRun u k).Nodup := by
  obtain ⟨xs, hx⟩ := hs.woven.stretch hk
  have hn := (hs.woven.stretch_nodup hk hx).1.filter fun v => k < b.height v
  rw [List.filter_cons_of_pos (by simpa using Nat.lt_of_succ_lt hk)] at hn
  rw [fullRun, hs.run_eq hk hx]
  exact hn

end Shaped

/-! ## What is out of date -/

/-- Element `u` reaches level `k`, and its mark says that its value there is out of date. -/
def Due (b : SumList) (u k : Nat) : Prop := k < b.height u ∧ ∃ m ≤ k, b.markAt u = some m

theorem outdated_iff : b.outdated u (k + 1) ↔ ∃ m ≤ k, b.markAt u = some m := by
  simp only [outdated, Option.any_eq_true, decide_eq_true_eq, Nat.lt_succ_iff, and_comm]

instance (b : SumList) (u k : Nat) : Decidable (b.Due u k) :=
  decidable_of_iff (k < b.height u ∧ b.outdated u (k + 1)) (and_congr_right' outdated_iff)

theorem outdated_iff_due (hk : k < b.height u) : b.outdated u (k + 1) ↔ b.Due u k :=
  outdated_iff.trans (and_iff_right hk).symm

/-- The highest value of a marked element is out of date. -/
theorem Climbed.due_top (hc : b.Climbed none) (hm : b.markAt u = some m) : b.Due u (b.height u - 1) := by
  have hlt := hc.lt_height u m hm
  exact ⟨Nat.sub_one_lt_of_lt hlt, m, Nat.le_sub_one_of_lt hlt, hm⟩

/-- The value of `u` on level `k` once all that is out of date has been recomputed. -/
def renewed (b : SumList) : (k u : Nat) → Int
  | 0, u => b.valueAt u 0
  | k + 1, u => if b.Due u (k + 1) then ((b.fullRun u k).map (b.renewed k)).sum else b.valueAt u (k + 1)

/-- The renewed values of a run, added up as values of 32 bits. -/
def gathered (b : SumList) (k u : Nat) : Except Fault Int :=
  (b.run u k).elements.foldlM (fun sum v => addValues sum (b.renewed k v)) (b.renewed k u)

theorem renewed_of_not_due (h : ¬ b.Due u k) : b.renewed k u = b.valueAt u k := by
  cases k with
  | zero => rfl
  | succ k => rw [renewed, if_neg h]

/-- Values of 32 bits add up to their sum, or leave the range. -/
theorem foldlM_addValues (f : Nat → Int) (vs : List Nat) (sum : Int) :
    vs.foldlM (fun sum v => addValues sum (f v)) sum = .ok (sum + (vs.map f).sum) ∨
      vs.foldlM (fun sum v => addValues sum (f v)) sum = .error .addOverflow := by
  induction vs generalizing sum with
  | nil => simp
  | cons v vs ih =>
    rw [List.foldlM_cons, addValues]
    split
    · rw [ok_bind, List.map_cons, List.sum_cons, ← Int.add_assoc]
      exact ih (sum + f v)
    · exact .inr rfl

theorem gathered_cases (h : b.Due u (k + 1)) :
    b.gathered k u = .ok (b.renewed (k + 1) u) ∨ b.gathered k u = .error .addOverflow := by
  rw [renewed, if_pos h, fullRun, List.map_cons, List.sum_cons]
  exact foldlM_addValues ..

/-! ## Areas -/

/-- The elements that have `u` for an ancestor on level `k`. -/
def below (b : SumList) (k u : Nat) : Set Nat := {x | b.list.Ancestor k x u}

/-- The places up to level `k` that are out of date on elements below `u`. -/
def area (b : SumList) (k u : Nat) : Set (Nat × Nat) := {q | b.Due q.1 q.2 ∧ q.2 ≤ k ∧ q.1 ∈ b.below k u}

theorem self_mem_below (hk : k < b.height u) : u ∈ b.below k u := .here hk

theorem area_zero (h : b.Due u 0) : b.area 0 u = {(u, 0)} := by
  ext ⟨x, i⟩
  constructor
  · rintro ⟨hx, hi, hxu⟩
    obtain rfl := Nat.le_zero.mp hi
    cases hxu with
    | here => rfl
    | left hle => exact absurd hx.1 (not_lt.mpr hle)
  · rintro ⟨⟩
    exact ⟨h, le_rfl, .here h.1⟩

theorem notMem_below (hs : b.Shaped) (h : u ≠ v) : ∀ x ∈ b.below k u, x ∉ b.below k v :=
  fun _ hu hv => h (SkipList.Ancestor.unique hs.woven hu hv)

/-- What is below an element of a run is below the element whose run it is. -/
theorem below_subset (hs : b.Shaped) (hk : k + 1 < b.height u) (hv : v ∈ b.fullRun u k) :
    b.below k v ⊆ b.below (k + 1) u :=
  fun _ hx => SkipList.Ancestor.trans hx ((hs.mem_fullRun hk).mp hv).2 (Nat.le_succ k)

/-- Nothing is out of date below an element that is not. -/
theorem area_eq_empty (hc : b.Climbed none) (hk : k < b.height u) (h : ¬ b.Due u k) : b.area k u = ∅ := by
  refine Set.eq_empty_of_forall_notMem fun ⟨x, i⟩ ⟨⟨_, m, hm, hx⟩, hi, hxu⟩ => h ⟨hk, ?_⟩
  exact hc.mark_le hx (hm.trans hi) hxu

/-- The places below an element are those below its run, and one more. -/
theorem area_succ (hs : b.Shaped) (h : b.Due u (k + 1)) :
    b.area (k + 1) u = (⋃ v ∈ b.fullRun u k, b.area k v) ∪ {(u, k + 1)} := by
  ext ⟨x, i⟩
  simp only [Set.mem_union, Set.mem_iUnion, Set.mem_singleton_iff, Prod.mk.injEq, exists_prop]
  constructor
  · rintro ⟨hx, hi, hxu⟩
    rcases Nat.le_succ_iff.mp hi with hi | rfl
    · obtain ⟨p, hxp, hpu⟩ := SkipList.Ancestor.factor hxu (Nat.le_succ k)
      exact .inl ⟨p, (hs.mem_fullRun h.1).mpr ⟨hxp.lt_height, hpu⟩, hx, hi, hxp⟩
    · cases hxu with
      | here => exact .inr ⟨rfl, rfl⟩
      | left hle => exact absurd hx.1 (not_lt.mpr hle)
  · rintro (⟨v, hv, hx, hi, hxv⟩ | ⟨rfl, rfl⟩)
    · exact ⟨hx, Nat.le_succ_of_le hi, below_subset hs h.1 hv hxv⟩
    · exact ⟨h, le_rfl, .here h.1⟩

/-! ## What has been done -/

/-- In the middle of a pass the values at the places `B`, which were out of date, are the renewed ones, the marks of the
elements `M` are off, and all else is as in `b`. The log has the places above level 0, each once. -/
structure Midway (b : SumList) (B : Set (Nat × Nat)) (M : Set Nat) (c : Logged) : Prop where
  alike : b.Alike c.state
  layout : c.state.layout = b.layout
  due : ∀ q ∈ B, b.Due q.1 q.2
  gathered : ∀ u k, (u, k + 1) ∈ B → b.gathered k u = .ok (b.renewed (k + 1) u)
  renewed : ∀ q ∈ B, c.state.valueAt q.1 q.2 = b.renewed q.2 q.1
  kept : ∀ q ∉ B, c.state.valueAt q.1 q.2 = b.valueAt q.1 q.2
  cleared : ∀ u ∈ M, c.state.markAt u = none
  marked : ∀ u ∉ M, c.state.markAt u = b.markAt u
  nodup : c.places.Nodup
  mem_places : ∀ q, q ∈ c.places ↔ q ∈ B ∧ 0 < q.2

/-- The places `B` have been done: the marks that are off are those of the elements done up to their highest levels. -/
def Done (b : SumList) (B : Set (Nat × Nat)) (c : Logged) : Prop := b.Midway B {u | (u, b.height u - 1) ∈ B} c

namespace Midway

theorem start (b : SumList) : b.Midway ∅ ∅ ⟨b, []⟩ where
  alike := .refl b
  layout := rfl
  due := by simp
  gathered := by simp
  renewed := by simp
  kept _ _ := rfl
  cleared := by simp
  marked _ _ := rfl
  nodup := List.nodup_nil
  mem_places := by simp

/-- What is new determines the list. -/
theorem state_eq (h : b.Midway B M c) (h' : b.Midway B M c') : c'.state = c.state := by
  have hlist : c'.state.list = c.state.list := h'.alike.list.trans h.alike.list.symm
  refine eq_of_values (h'.layout.trans h.layout.symm) hlist (fun u k => ?_) fun u => ?_
  · by_cases hq : (u, k) ∈ B
    · rw [h'.renewed _ hq, h.renewed _ hq]
    · rw [h'.kept _ hq, h.kept _ hq]
  · by_cases hu : u ∈ M
    · rw [h'.cleared u hu, h.cleared u hu]
    · rw [h'.marked u hu, h.marked u hu]

theorem valueAt_eq (h : b.Midway B M c) (hv : b.Due v k → (v, k) ∈ B) : c.state.valueAt v k = b.renewed k v := by
  by_cases hq : (v, k) ∈ B
  · exact h.renewed _ hq
  · rw [h.kept _ hq, renewed_of_not_due (mt hv hq)]

/-- On level 0 nothing is recomputed. -/
theorem insert_zero (h : b.Midway B M c) (hu : b.Due u 0) : b.Midway (insert (u, 0) B) M c := by
  refine { h with
    due := Set.forall_mem_insert.mpr ⟨hu, h.due⟩
    gathered := fun x k hq => h.gathered x k (hq.resolve_left (by simp))
    renewed := Set.forall_mem_insert.mpr ⟨?_, h.renewed⟩
    kept := fun q hq => h.kept q fun hm => hq (Set.mem_insert_of_mem _ hm)
    mem_places := fun q => (h.mem_places q).trans ?_ }
  · exact h.alike.own u
  · rw [Set.mem_insert_iff]
    refine and_congr_left fun hq => (or_iff_right ?_).symm
    rintro rfl
    exact absurd hq (Nat.lt_irrefl 0)

/-- A sum is set. -/
theorem insert_succ (hs : b.Shaped) (h : b.Midway B M c) (hu : b.Due u (k + 1)) (hnew : (u, k + 1) ∉ B)
    (hg : b.gathered k u = .ok (b.renewed (k + 1) u)) :
    b.Midway (insert (u, k + 1) B) M
      ⟨c.state.setValue u (k + 1) (b.renewed (k + 1) u), (u, k + 1) :: c.places⟩ := by
  have hvalue (q : Nat × Nat) : (c.state.setValue u (k + 1) (b.renewed (k + 1) u)).valueAt q.1 q.2 =
      if q = (u, k + 1) then b.renewed (k + 1) u else c.state.valueAt q.1 q.2 := by
    rw [valueAt_setValue, h.alike.depth, hs.depth]
    simp [Prod.ext_iff, hu.1]
  refine { alike := h.alike.trans (.setValue ..)
           layout := (layout_setValue ..).trans h.layout
           due := Set.forall_mem_insert.mpr ⟨hu, h.due⟩
           gathered := fun x j hq => ?_
           renewed := fun q hq => ?_
           kept := fun q hq => ?_
           cleared := h.cleared
           marked := h.marked
           nodup := List.nodup_cons.mpr ⟨fun hm => hnew ((h.mem_places _).mp hm).1, h.nodup⟩
           mem_places := fun q => ?_ }
  · rcases hq with hq | hq
    · obtain ⟨rfl, hj⟩ := Prod.mk.inj hq
      obtain rfl := Nat.succ.inj hj
      exact hg
    · exact h.gathered x j hq
  · rw [hvalue]
    split
    · next he => rw [he]
    · next hne => exact h.renewed q (hq.resolve_left hne)
  · rw [Set.mem_insert_iff, not_or] at hq
    rw [hvalue, if_neg hq.1, h.kept q hq.2]
  · rw [List.mem_cons, h.mem_places, Set.mem_insert_iff, or_and_right]
    refine or_congr_left (and_iff_left_of_imp ?_).symm
    rintro rfl
    exact Nat.succ_pos k

/-- A mark is taken off. -/
theorem setMark (hs : b.Shaped) (h : b.Midway B M c) (hu : u < b.size) :
    b.Midway B (insert u M) ⟨c.state.setMark u none, c.places⟩ := by
  have hmark (x : Nat) : (c.state.setMark u none).markAt x = if x = u then none else c.state.markAt x :=
    (h.alike.shaped hs).markAt_setMark (hu.trans_eq h.alike.size.symm) none
  refine { h with
    alike := h.alike.trans (.setMark ..)
    layout := (layout_setMark ..).trans h.layout
    cleared := fun x hx => ?_
    marked := fun x hx => ?_ }
  · rw [hmark]
    split
    · rfl
    · next hne => exact h.cleared x (hx.resolve_left hne)
  · rw [Set.mem_insert_iff, not_or] at hx
    rw [hmark, if_neg hx.1, h.marked x hx.2]

end Midway

namespace Done

/-- A place is done once the mark is off where it has to be. -/
theorem of_midway (hs : b.Shaped) (hu : b.Due u j) (h : b.Midway (insert (u, j) B) {u | (u, b.height u - 1) ∈ B} c) :
    b.Done (insert (u, j) B) ⟨if c.state.height u = j + 1 then c.state.setMark u none else c.state, c.places⟩ := by
  have hj := hu.1
  rw [Done, h.alike.height]
  split
  · next htop =>
    convert h.setMark hs (SkipList.lt_size_of_height_pos (Nat.zero_lt_of_lt hj)) using 1
    ext x
    simp only [Set.mem_insert_iff, Set.mem_ofPred_eq, Prod.mk.injEq]
    refine or_congr_left (and_iff_left_of_imp ?_)
    rintro rfl
    omega
  · next htop =>
    convert h using 1
    ext x
    simp only [Set.mem_insert_iff, Set.mem_ofPred_eq, Prod.mk.injEq]
    refine or_iff_right ?_
    rintro ⟨rfl, he⟩
    omega

end Done

end TourForest.SumList
