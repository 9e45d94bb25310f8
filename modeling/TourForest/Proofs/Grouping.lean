import Mathlib.Data.List.Nodup
import Mathlib.Data.List.Perm.Basic
import TourForest.Grouping
import TourForest.Proofs.Outcome

/-!
# Groups that partition the indices

Where the groups of any two indices are the same or have no index in common, going through the indices lists
each group once, under its least index (`Partition.groups_eq`). The indices that were listed before are always
whole groups, so that an index that is not listed yet begins a new one.
-/

namespace TourForest

/-! ## Flags -/

theorem getD_foldl_set (b : Bool) (xs : List Nat) (d : Array Bool) (i : Nat) :
    (xs.foldl (fun d x => d.setIfInBounds x b) d).getD i false =
      if i ∈ xs ∧ i < d.size then b else d.getD i false := by
  induction xs generalizing d with
  | nil => simp
  | cons x xs ih =>
    rw [List.foldl_cons, ih, Array.size_setIfInBounds, Array.getD_eq_getD_getElem?, Array.getElem?_setIfInBounds,
      Array.getD_eq_getD_getElem?]
    by_cases hi : i < d.size <;> by_cases hm : i ∈ xs <;> by_cases hx : x = i <;> simp [hi, hm, hx, @eq_comm _ i x]

theorem size_foldl_set (b : Bool) (xs : List Nat) (d : Array Bool) :
    (xs.foldl (fun d x => d.setIfInBounds x b) d).size = d.size := by
  induction xs generalizing d with
  | nil => rfl
  | cons x xs ih => rw [List.foldl_cons, ih, Array.size_setIfInBounds]

/-! ## Groups -/

/-- The indices below `n` fall into groups, and `group` lists the group of each of them. -/
structure Partition (n : Nat) (group : Nat → Except Fault (List Nat)) (members : Nat → List Nat) : Prop where
  group_eq : ∀ u < n, group u = .ok (members u)
  nodup : ∀ u < n, (members u).Nodup
  self : ∀ u < n, u ∈ members u
  lt : ∀ u < n, ∀ v ∈ members u, v < n
  same : ∀ u < n, ∀ v ∈ members u, ∀ w, w ∈ members v ↔ w ∈ members u

namespace Partition

variable {n u v : Nat} {group : Nat → Except Fault (List Nat)} {members : Nat → List Nat} {listed : Array Bool}
  {rest : List Nat}

theorem mem_comm (h : Partition n group members) (hu : u < n) (hv : v ∈ members u) : u ∈ members v :=
  (h.same u hu v hv u).mpr (h.self u hu)

/-- What was listed are whole groups, and what is not listed is still to come. -/
structure Listed (n : Nat) (members : Nat → List Nat) (listed : Array Bool) (rest : List Nat) : Prop where
  size : listed.size = n
  whole : ∀ u < n, ∀ v ∈ members u, listed.getD v false = listed.getD u false
  ahead : ∀ u < n, listed.getD u false = false → u ∈ rest

/-- An index that is listed is passed over. -/
theorem Listed.skip (h : Listed n members listed (u :: rest)) (hu : listed.getD u false = true) :
    Listed n members listed rest := by
  refine ⟨h.size, h.whole, fun v hv hfree => ?_⟩
  rcases List.mem_cons.mp (h.ahead v hv hfree) with rfl | hm
  · rw [hu] at hfree
    cases hfree
  · exact hm

/-- An index that is not listed adds its group. -/
theorem Listed.add (h : Partition n group members) (hl : Listed n members listed (u :: rest)) (hu : u < n) :
    Listed n members ((members u).foldl (fun d x => d.setIfInBounds x true) listed) rest := by
  have hget (v : Nat) : ((members u).foldl (fun d x => d.setIfInBounds x true) listed).getD v false =
      if v ∈ members u then true else listed.getD v false := by
    rw [getD_foldl_set, hl.size]
    by_cases hm : v ∈ members u
    · rw [if_pos ⟨hm, h.lt u hu v hm⟩, if_pos hm]
    · rw [if_neg fun hand => hm hand.1, if_neg hm]
  refine ⟨(size_foldl_set ..).trans hl.size, fun v hv w hw => ?_, fun v hv hfree => ?_⟩
  · -- Two indices of one group are both in the new group, or neither of them is.
    have hboth : w ∈ members u ↔ v ∈ members u := by
      constructor
      · exact fun hwu => (h.same u hu w hwu v).mp (h.mem_comm hv hw)
      · exact fun hvu => (h.same u hu v hvu w).mp hw
    simp only [hget, hboth, hl.whole v hv w hw]
  · rw [hget] at hfree
    have hm : v ∉ members u := fun hm => by simp [hm] at hfree
    rw [if_neg hm] at hfree
    exact (List.mem_cons.mp (hl.ahead v hv hfree)).resolve_left fun he => hm (he ▸ h.self u hu)

/-- Going on through what is left lists the groups of what is not listed yet, each once. -/
theorem groupsFrom_eq (h : Partition n group members) (hrest : rest.Pairwise (· < ·)) (hlt : ∀ u ∈ rest, u < n)
    (hl : Listed n members listed rest) :
    ∃ branches, groupsFrom group listed rest = .ok branches ∧ (branches.map Prod.fst).Sublist rest ∧
      (∀ b ∈ branches, b.1 < n ∧ b.2 = members b.1 ∧ ∀ v ∈ b.2, b.1 ≤ v) ∧
      (branches.flatMap Prod.snd).Nodup ∧
      ∀ v, v ∈ branches.flatMap Prod.snd ↔ v < n ∧ listed.getD v false = false := by
  induction rest generalizing listed with
  | nil =>
    refine ⟨[], rfl, List.nil_sublist _, by simp, List.nodup_nil, fun v => ?_⟩
    simp only [List.flatMap_nil, List.not_mem_nil, false_iff, not_and]
    exact fun hv hfree => List.not_mem_nil (hl.ahead v hv hfree)
  | cons u rest ih =>
    obtain ⟨hle, hrest⟩ := List.pairwise_cons.mp hrest
    obtain ⟨hu, hlt⟩ := List.forall_mem_cons.mp hlt
    rw [groupsFrom]
    by_cases hul : listed.getD u false = true
    · obtain ⟨branches, hok, hsub, hb, hn, hmem⟩ := ih hrest hlt (hl.skip hul)
      exact ⟨branches, by rw [if_pos hul, hok], hsub.trans (List.sublist_cons_self u rest), hb, hn, hmem⟩
    · obtain ⟨branches, hok, hsub, hb, hn, hmem⟩ := ih hrest hlt (hl.add h hu)
      have hfree : listed.getD u false = false := Bool.not_eq_true _ ▸ hul
      have hnew (v : Nat) (hv : v ∈ members u) : listed.getD v false = false := (hl.whole u hu v hv).trans hfree
      have hmem' (v : Nat) : v ∈ branches.flatMap Prod.snd ↔ v < n ∧ v ∉ members u ∧ listed.getD v false = false := by
        rw [hmem, getD_foldl_set, hl.size]
        refine and_congr_right fun hv => ?_
        by_cases hm : v ∈ members u <;> simp [hm, hv]
      refine ⟨(u, members u) :: branches, ?_, ?_, List.forall_mem_cons.mpr ⟨⟨hu, rfl, fun v hv => ?_⟩, hb⟩, ?_,
        fun v => ?_⟩
      · rw [if_neg hul, h.group_eq u hu, ok_bind]
        show (groupsFrom group ((members u).foldl (fun d x => d.setIfInBounds x true) listed) rest >>= fun more =>
          pure ((u, members u) :: more)) = _
        rw [hok, ok_bind]
        rfl
      · exact hsub.cons_cons u
      · -- An index before `u` that is in its group would have been listed with it.
        rcases List.mem_cons.mp (hl.ahead v (h.lt u hu v hv) (hnew v hv)) with rfl | hm
        · exact Nat.le_refl v
        · exact Nat.le_of_lt (hle v hm)
      · rw [List.flatMap_cons, List.nodup_append']
        exact ⟨h.nodup u hu, hn, fun v hv hm => ((hmem' v).mp hm).2.1 hv⟩
      · rw [List.flatMap_cons, List.mem_append, hmem']
        constructor
        · rintro (hv | ⟨hv, -, hfree⟩)
          · exact ⟨h.lt u hu v hv, hnew v hv⟩
          · exact ⟨hv, hfree⟩
        · rintro ⟨hv, hfree⟩
          by_cases hm : v ∈ members u
          · exact .inl hm
          · exact .inr ⟨hv, hm, hfree⟩

/-- Each index is listed once, with its group under the least index of the group. -/
theorem groups_eq (h : Partition n group members) :
    ∃ branches, groups n group = .ok branches ∧ (branches.flatMap Prod.snd).Perm (List.range n) ∧
      (branches.map Prod.fst).Pairwise (· < ·) ∧
      ∀ b ∈ branches, b.1 < n ∧ b.2 = members b.1 ∧ ∀ v ∈ b.2, b.1 ≤ v := by
  have hget (v : Nat) : (Array.replicate n false).getD v false = false := by
    rw [Array.getD_eq_getD_getElem?, Array.getElem?_replicate]
    split <;> rfl
  have hl : Listed n members (Array.replicate n false) (List.range n) :=
    ⟨Array.size_replicate, fun u _ v _ => (hget v).trans (hget u).symm, fun u hu _ => List.mem_range.mpr hu⟩
  have hsorted : (List.range n).Pairwise (· < ·) := List.pairwise_lt_range
  obtain ⟨branches, hok, hsub, hb, hn, hmem⟩ := h.groupsFrom_eq hsorted (fun u => List.mem_range.mp) hl
  refine ⟨branches, hok, (List.perm_ext_iff_of_nodup hn List.nodup_range).mpr fun v => ?_, hsorted.sublist hsub, hb⟩
  rw [hmem, hget, List.mem_range]
  simp

end Partition

end TourForest
