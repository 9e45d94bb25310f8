import TourForest.Proofs.Forest.Ledger
import TourForest.Proofs.SkipList.Listing
import TourForest.Proofs.SumList.Resew
import TourForest.Proofs.SumList.Sum

/-!
# Forests that refine graphs

The tours of a forest are those of a rotation of its graph (`Toured`), if the links of level 0 are those of the
rotation, its books are in order, and all elements have the values they are meant to have on level 0. This says what
the trees are, and nothing about the sums above level 0.

* `Toured.tour`: the tour of a vertex is a cycle through the rings of all vertices of its tree;
* `Toured.connected_eq`, `Toured.treeVertices`: what a tree is;
* `Toured.resewn`: tours that are sewn into those of another rotation.

If in addition there are so few vertices that no sum can leave its range, and all sums are right, the forest refines
the graph (`Refines`), which tells how large the trees are (`Refines.treeSize`).
-/

namespace TourForest.Forest

open SkipList (IsSequence)

/-- The tours of a forest are those of a rotation of the graph with edges `E`. -/
structure Toured (f : Forest) (rot : Nat → List Nat) (E : Finset (Sym2 Nat)) : Prop
    extends Ledger f.vertices f.edges f.freePairs rot E where
  acyclic : (graph E).IsAcyclic
  woven : f.tours.list.Woven
  size : f.tours.size = arenaSize f.vertices
  own : ∀ x, f.tours.valueAt x 0 = if x < f.vertices then 1 else 0
  next_iff : ∀ x y, f.tours.list.nextAt x 0 = some y ↔ Follows f.vertices rot x y
  doomed : f.doomed = Array.replicate (arenaSize f.vertices) false
  /-- The elements of free pairs have no value on any level. -/
  blank : ∀ p ∈ f.freePairs, ∀ x, x = f.vertices + 2 * p ∨ x = f.vertices + 2 * p + 1 →
    ∀ k, f.tours.valueAt x k = 0

/-- A forest that is toured and has its sums right, none of which can leave its range. -/
structure Refines (f : Forest) (rot : Nat → List Nat) (E : Finset (Sym2 Nat)) : Prop extends Toured f rot E where
  small : f.vertices < 2 ^ 31
  sound : f.tours.Sound

/-- A list of elements has as many vertices as its elements have values. -/
theorem total_eq {a : SumList} {n : Nat} (ha : ∀ x, a.valueAt x 0 = if x < n then 1 else 0) (xs : List Nat) :
    a.total xs = (xs.filter (· < n)).length ∧ a.weight xs = (xs.filter (· < n)).length := by
  induction xs with
  | nil => exact ⟨rfl, rfl⟩
  | cons x xs ih =>
    obtain ⟨ht, hw⟩ := ih
    rw [SumList.total_cons, ht, show a.weight (x :: xs) = (a.valueAt x 0).natAbs + a.weight xs from
      List.sum_cons, hw, ha]
    by_cases hx : x < n
    · simp [hx, Nat.add_comm]
    · simp [hx]

theorem bounded_of_own {a : SumList} {n : Nat} (hn : n < 2 ^ 31)
    (ha : ∀ x, a.valueAt x 0 = if x < n then 1 else 0) : a.Bounded := by
  have hsub : (List.range a.size).filter (· < n) ⊆ List.range n := fun x hx =>
    List.mem_range.mpr (by simpa using (List.mem_filter.mp hx).2)
  have hle := (List.subperm_of_subset (List.nodup_range.filter _) hsub).length_le
  rw [List.length_range] at hle
  unfold SumList.Bounded maxValue
  rw [(total_eq ha _).2]
  omega

namespace Toured

variable {f : Forest} {rot : Nat → List Nat} {E : Finset (Sym2 Nat)} {u v w x y : Nat}

theorem lt_size (h : f.Toured rot E) (hv : v < f.vertices) : v < f.tours.list.size := by
  have := h.size
  unfold SumList.size arenaSize at this
  omega

/-- An element with no place on a tour is alone. -/
theorem alone (h : f.Toured rot E) (hx : ∀ y, ¬ Follows f.vertices rot x y ∧ ¬ Follows f.vertices rot y x) :
    f.tours.list.Alone x where
  next := Option.eq_none_iff_forall_ne_some.mpr fun y hy => (hx y).1 ((h.next_iff x y).mp hy)
  prev := Option.eq_none_iff_forall_ne_some.mpr fun y hy => (hx y).2 ((h.next_iff y x).mp (h.woven.next_iff_prev.mpr hy))

/-- Something is behind an element with a place on a tour. -/
theorem exists_next_of_ring (h : f.Toured rot E) (hv : v < f.vertices) (hx : x ∈ ring rot v) :
    ∃ y, f.tours.list.nextAt x 0 = some y := by
  obtain ⟨y, hy⟩ := h.rotation.exists_follows hv hx
  exact ⟨y, (h.next_iff x y).mpr hy⟩

theorem exists_next (h : f.Toured rot E) (hv : v < f.vertices) : ∃ c, f.tours.list.nextAt v 0 = some c :=
  h.exists_next_of_ring hv (mem_ring.mpr (.inl rfl))

/-- Tours that have been sewn into those of another rotation, with books to go with them. Splits are behind elements
that have a place on a tour, and what becomes free was free before or has been reset. -/
theorem resewn (h : f.Toured rot E) {E' : Finset (Sym2 Nat)} {rot' : Nat → List Nat} {edges : EdgeIndex}
    {rest us gone : List Nat} {tours : SumList} (h' : Ledger f.vertices edges rest rot' E')
    (hac : (graph E').IsAcyclic) (hr : f.tours.Resewn tours (Follows f.vertices rot') us gone)
    (hus : ∀ u ∈ us, ∃ y, f.tours.list.nextAt u 0 = some y) (hgone : ∀ x ∈ gone, f.vertices ≤ x)
    (hrest : ∀ p ∈ rest, p ∈ f.freePairs ∨ f.vertices + 2 * p ∈ gone ∧ f.vertices + 2 * p + 1 ∈ gone) :
    ({ f with edges, tours, freePairs := rest } : Forest).Toured rot' E' where
  toLedger := h'
  acyclic := hac
  woven := hr.woven
  size := (SkipList.size_of_layout (SumList.layout_list hr.layout)).trans h.size
  own x := by
    rw [hr.own, h.own]
    split
    · next hx => rw [if_neg (not_lt.mpr (hgone x hx))]
    · rfl
  next_iff := hr.next_iff
  doomed := h.doomed
  blank p hp x hx k := by
    by_cases hm : x ∈ gone
    · rw [hr.apart x (h'.free_apart hp hx) (.inl hm), if_pos hm]
    · have hfree : p ∈ f.freePairs := (hrest p hp).resolve_right fun hg => hx.elim (fun he => hm (he ▸ hg.1))
        fun he => hm (he ▸ hg.2)
      have hal := h.alone (h.free_apart hfree hx)
      have hxu : x ∉ us := fun hu => by
        obtain ⟨y, hy⟩ := hus x hu
        rw [hal.next] at hy
        cases hy
      rw [hr.apart x (h'.free_apart hp hx) (.inr ⟨hxu, hal⟩), if_neg hm, h.blank p hfree x hx]

/-! ## Tours -/

theorem vertex_mem_ring (h : f.Toured rot E) (hv : v < f.vertices) : v ∈ ring rot w ↔ v = w := by
  rw [mem_ring]
  exact ⟨fun hm => hm.resolve_right fun hm => absurd (h.rotation.range w v hm).2.1 (by omega), .inl⟩

/-- The tour of a vertex is a cycle through the rings of all vertices of its tree. -/
theorem tour (h : f.Toured rot E) (hv : v < f.vertices) :
    ∃ xs, f.tours.list.sequence v = .ok xs ∧ f.tours.list.IsSequence true xs ∧ xs.head? = some v ∧
      ∀ x, x ∈ xs ↔ ∃ w < f.vertices, (graph E).Reachable v w ∧ x ∈ ring rot w := by
  have hw := h.woven
  obtain ⟨closed, xs, hxs, hvx, hseq, hhead⟩ := hw.sequence (h.lt_size hv)
  have hstrand := hseq.strand_zero hw
  have hself : ∃ w < f.vertices, (graph E).Reachable v w ∧ v ∈ ring rot w :=
    ⟨v, hv, .rfl, mem_ring.mpr (.inl rfl)⟩
  have hsub : ∀ x ∈ xs, ∃ w < f.vertices, (graph E).Reachable v w ∧ x ∈ ring rot w := by
    refine SkipList.Row.forall_mem hstrand hvx hself (fun x y hx hxy => ?_) fun x y hx hxy => ?_
    · obtain ⟨w, hw, hr, hx⟩ := hx
      have hfol := (h.next_iff x y).mp hxy
      obtain ⟨w', hw', -, hy⟩ := Rotation.follows_mem hfol
      rcases h.rotation.adj_of_follows hw hw' hx hy hfol with ⟨rfl, -⟩ | hl
      · exact ⟨w, hw, hr, hy⟩
      · exact ⟨w', hw', hr.trans (h.rotation.adj_iff.mpr ⟨x, hl⟩).reachable, hy⟩
    · obtain ⟨w, hw', hr, hx⟩ := hx
      have hfol := (h.next_iff y x).mp (hw.next_iff_prev.mpr hxy)
      obtain ⟨u, hu, hm, -⟩ := Rotation.follows_mem hfol
      obtain ⟨w', hw'', hy⟩ := h.rotation.exists_ring_mate_iff.mp ⟨u, hu, hm⟩
      rcases h.rotation.adj_of_follows hw'' hw' hy hx hfol with ⟨rfl, -⟩ | hl
      · exact ⟨w', hw'', hr, hy⟩
      · exact ⟨w', hw'', hr.trans (h.rotation.adj_iff.mpr ⟨y, hl⟩).symm.reachable, hy⟩
  have hsup : ∀ x, (∃ w < f.vertices, (graph E).Reachable v w ∧ x ∈ ring rot w) → x ∈ xs := by
    rintro x ⟨w, -, hr, hx⟩
    exact h.rotation.spread (fun y z hy hyz => (hstrand.prev_of_next hy ((h.next_iff y z).mpr hyz)).1) h.acyclic
      hv hvx hr x hx
  -- Something is behind every element of the tour, so that it has no end.
  have hclosed : closed = true := by
    by_contra hopen
    rw [Bool.not_eq_true] at hopen
    subst hopen
    obtain ⟨ys, l, rfl⟩ := List.eq_nil_or_concat xs |>.resolve_left (List.ne_nil_of_mem hvx)
    rw [List.concat_eq_append] at hsub hstrand
    obtain ⟨w, hw', -, hl⟩ := hsub l (by simp)
    obtain ⟨y, hy⟩ := h.rotation.exists_follows hw' hl
    have hnone : f.tours.list.nextAt l 0 = none := SkipList.Row.next_last hstrand
    rw [(h.next_iff l y).mpr hy] at hnone
    cases hnone
  exact ⟨xs, hxs, hclosed ▸ hseq, hhead hclosed, fun x => ⟨hsub x, hsup x⟩⟩

/-- The vertices on the tour of a vertex are those of its tree. -/
theorem vertex_mem_tour (h : f.Toured rot E) (hw : w < f.vertices) {xs : List Nat}
    (hxs : ∀ x, x ∈ xs ↔ ∃ w < f.vertices, (graph E).Reachable v w ∧ x ∈ ring rot w) :
    w ∈ xs ↔ (graph E).Reachable v w := by
  rw [hxs]
  constructor
  · rintro ⟨u, -, hr, hu⟩
    exact (h.vertex_mem_ring hw).mp hu ▸ hr
  · exact fun hr => ⟨w, hw, hr, mem_ring.mpr (.inl rfl)⟩

open Classical in
theorem connected_eq (h : f.Toured rot E) (hu : u < f.vertices) (hv : v < f.vertices) :
    f.connected u v = .ok (decide ((graph E).Reachable u v)) := by
  obtain ⟨xs, -, hseq, hhead, hxs⟩ := h.tour hu
  rw [connected, h.woven.sameSequence hseq (List.mem_of_head? hhead) (h.lt_size hv)]
  exact congrArg _ (decide_eq_decide.mpr (h.vertex_mem_tour hv hxs))

theorem treeVertices (h : f.Toured rot E) (hv : v < f.vertices) :
    ∃ vs, f.treeVertices v = .ok vs ∧ vs.Nodup ∧ vs.head? = some v ∧ ∀ w, w ∈ vs ↔ (graph E).Reachable v w := by
  obtain ⟨xs, hxs, hseq, hhead, hmem⟩ := h.tour hv
  refine ⟨xs.filter (· < f.vertices), ?_, hseq.nodup.filter _, ?_, fun w => ?_⟩
  · rw [Forest.treeVertices, hxs]
    rfl
  · obtain ⟨ys, rfl⟩ := List.head?_eq_some_iff.mp hhead
    simp [hv]
  · rw [List.mem_filter, decide_eq_true_eq]
    constructor
    · exact fun ⟨hm, hw⟩ => (h.vertex_mem_tour hw hmem).mp hm
    · intro hr
      have hw := h.rotation.lt_of_reachable hv hr
      exact ⟨(h.vertex_mem_tour hw hmem).mpr hr, hw⟩

end Toured

namespace Refines

variable {f : Forest} {rot : Nat → List Nat} {E : Finset (Sym2 Nat)} {v : Nat}

theorem bounded (h : f.Refines rot E) : f.tours.Bounded := bounded_of_own h.small h.own

/-- The sum over the tour of a vertex is the number of vertices in its tree. -/
theorem treeSize (h : f.Refines rot E) (hv : v < f.vertices) :
    ∃ vs, f.treeVertices v = .ok vs ∧ f.treeSize v = .ok vs.length := by
  obtain ⟨xs, hxs, hseq, hhead, -⟩ := h.tour hv
  refine ⟨xs.filter (· < f.vertices), ?_, ?_⟩
  · rw [Forest.treeVertices, hxs]
    rfl
  · rw [Forest.treeSize, h.sound.sum_eq h.bounded hseq (List.mem_of_head? hhead), ok_bind, (total_eq h.own xs).1]
    rfl

end Refines

end TourForest.Forest
