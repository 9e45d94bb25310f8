import TourForest.Proofs.Forest.OneByOne
import TourForest.Proofs.Forest.TourLaw
import TourForest.Proofs.SumList.Frame

/-!
# Splicing tours

An edge between two trees puts the tour of one tree between the other tour's first vertex and what is behind it
(`Spliced`). An edge that goes leaves the two parts of its tour, between its elements, as tours (`Severed`). Both are
read off the rotations before and after: they say which successors change, and all of these belong to the tours of the
two trees or to the elements of the edge. Everything else stays as it is on all levels (`Sound.sameOff`).
-/

namespace TourForest

/-- A closed trail is inserted into another one, between two new elements. -/
theorem SkipList.Trail.insert {step step' : Nat → Option Nat} {u v x y : Nat} {A B : List Nat}
    (hu : Trail step (u :: A) (some u)) (hv : Trail step (v :: B) (some v)) (hux : step' u = some x)
    (hxv : step' x = step v) (hvy : step' v = some y) (hyu : step' y = step u) (hA : ∀ a ∈ A, step' a = step a)
    (hB : ∀ b ∈ B, step' b = step b) : Trail step' ([u, x] ++ B ++ [v, y] ++ A) (some u) := by
  have hA' : Trail step' A (some u) := hu.2.congr hA
  have hB' : Trail step' B (some v) := hv.2.congr hB
  have hfirst : Trail step' [u, x] (B.head?.or (some v)) := ⟨hux, hxv.trans hv.1, trivial⟩
  have hsecond : Trail step' [v, y] (A.head?.or (some u)) := ⟨hvy, hyu.trans hu.1, trivial⟩
  exact append_iff.mpr ⟨append_iff.mpr ⟨append_iff.mpr ⟨hfirst, hB'⟩, hsecond⟩, hA'⟩

namespace Forest

open SkipList (Trail)

variable {n : Nat} {settings : Settings} {f f' : Forest} {rot rot' : Nat → List Nat} {E E' : Finset (Sym2 Nat)}
  {u v x y p : Nat} {S T gone : List Nat}

/-- The elements `u` and `v` begin the tours of two trees, which an edge with elements `uv` and `vu` makes one. -/
structure Spliced (f f' : Forest) (u v uv vu : Nat) (A B : List Nat) : Prop where
  left : f.tours.list.sequence u = .ok (u :: A)
  right : f.tours.list.sequence v = .ok (v :: B)
  found : f'.edges.find? u v = .ok (some uv)
  found_back : f'.edges.find? v u = .ok (some vu)
  /-- On all levels the tours are one, in which that of `v` comes behind `u`. -/
  cycle : f'.tours.list.IsSequence true ([u, uv] ++ B ++ [v, vu] ++ A)
  tour : f'.tours.list.sequence u = .ok ([u, uv] ++ B ++ [v, vu] ++ A)
  /-- Off the two trees and the new elements, all links and values stay. -/
  frame : f.tours.SameOff f'.tours ((u :: A) ++ (v :: B) ++ [uv, vu])

/-- The elements `uv` and `vu` are those of an edge whose tour falls into two, `S` with `v` and `T` with `u`. -/
structure Severed (f f' : Forest) (u v uv vu : Nat) (S T : List Nat) : Prop where
  found : f.edges.find? u v = .ok (some uv)
  twin : f.twin uv = .ok vu
  tour : f.tours.list.sequence uv = .ok ((uv :: S) ++ (vu :: T))
  /-- Each end of the edge is on the part that follows what leads to it. -/
  mem : v ∈ S ∧ u ∈ T
  disjoint : S.Disjoint T
  cycles : f'.tours.list.IsSequence true S ∧ f'.tours.list.IsSequence true T
  listed : (∀ x ∈ S.head?, f'.tours.list.sequence x = .ok S) ∧ ∀ x ∈ T.head?, f'.tours.list.sequence x = .ok T
  alone : ∀ x ∈ [uv, vu], f'.tours.list.sequence x = .ok [x] ∧
    (∀ k, f'.tours.list.nextAt x k = none ∧ f'.tours.list.prevAt x k = none) ∧
    ∀ k < f'.tours.height x, f'.tours.valueAt x k = 0
  frame : f.tours.SameOff f'.tours ((uv :: S) ++ (vu :: T))

namespace Refines

/-- The successors after a change say how the rotation then goes on. -/
theorem next_iff_of_setup (h' : f'.Refines rot' E') (hs : f.SameSetup f') :
    f'.tours.list.nextAt x 0 = some y ↔ Follows f.vertices rot' x y := by
  rw [h'.next_iff, hs.vertices]

/-- Off elements that no sequence leaves or enters, tours with the same successors are the same. -/
theorem sameOff (h : f.Refines rot E) (h' : f'.Refines rot' E') (hs : f.SameSetup f') {X : List Nat}
    (hX : f.tours.list.Encloses X) (hX' : f'.tours.list.Encloses X)
    (hnext : ∀ x ∉ X, f'.tours.list.nextAt x 0 = f.tours.list.nextAt x 0) : f.tours.SameOff f'.tours X :=
  h.sound.sameOff h'.sound hs.layout hX hX' hnext fun x => by rw [h'.own, h.own, hs.vertices]

/-- An element of a free pair is off all other sequences. -/
theorem encloses_free (h : f.Refines rot E) (hp : p ∈ f.freePairs)
    (hx : x = f.vertices + 2 * p ∨ x = f.vertices + 2 * p + 1) : f.tours.list.Encloses [x] := by
  obtain ⟨hn, hp'⟩ := (h.free hp hx).2.1 0
  exact h.sound.woven.encloses_of_alone (h.lt_size_of_free hp hx) hn hp'

/-- The tours of two trees have no element in common, and none with a free pair. -/
theorem exists_tours_apart (h : f.Refines rot E) (hp : p ∈ f.freePairs) (hu : u < f.vertices) (hv : v < f.vertices)
    (hr : ¬ (graph E).Reachable u v) :
    ∃ A B, f.tours.list.sequence u = .ok (u :: A) ∧ f.tours.list.IsSequence true (u :: A) ∧
      f.tours.list.sequence v = .ok (v :: B) ∧ f.tours.list.IsSequence true (v :: B) ∧
      ((u :: A) ++ (v :: B) ++ [f.vertices + 2 * p, f.vertices + 2 * p + 1]).Nodup := by
  obtain ⟨xs, htour, hcycle, hhead, hmem⟩ := h.tour hu
  obtain ⟨A, rfl⟩ := List.head?_eq_some_iff.mp hhead
  obtain ⟨ys, htour', hcycle', hhead', hmem'⟩ := h.tour hv
  obtain ⟨B, rfl⟩ := List.head?_eq_some_iff.mp hhead'
  have hdisj : (v :: B).Disjoint (u :: A) := (h.sound.woven.disjoint_or_subset hcycle hcycle').resolve_right
    fun hsub => hr ((h.vertex_mem_tour hv hmem).mp (hsub List.mem_cons_self))
  have hfree {w : Nat} {zs : List Nat} (hzs : ∀ x, x ∈ zs ↔ ∃ z < f.vertices, (graph E).Reachable w z ∧ x ∈ ring rot z)
      {x : Nat} (hx : x ∈ [f.vertices + 2 * p, f.vertices + 2 * p + 1]) : x ∉ zs := fun hm => by
    obtain ⟨z, hz, -, hring⟩ := (hzs x).mp hm
    exact h.free_not_mem_ring hp (by simpa using hx) hz hring
  refine ⟨A, B, htour, hcycle, htour', hcycle', List.nodup_append'.mpr
    ⟨List.nodup_append'.mpr ⟨hcycle.nodup, hcycle'.nodup, hdisj.symm⟩, by simp, fun x hx hnew => ?_⟩⟩
  exact (List.mem_append.mp hx).elim (hfree hmem hnew) (hfree hmem' hnew)

/-! ## An edge comes in -/

section

variable (h : f.Refines rot E) (hf : Fits f.vertices E rot [((u, v), p)])
  (h' : f'.Refines (graft f.vertices [((u, v), p)] rot) E') (hs : f.SameSetup f')
include h hf h' hs

/-- Behind the ends of a new edge are its elements, and behind these is what was behind the ends, crosswise. -/
theorem next_link : f'.tours.list.nextAt u 0 = some (f.vertices + 2 * p) ∧
    f'.tours.list.nextAt (f.vertices + 2 * p) 0 = f.tours.list.nextAt v 0 ∧
    f'.tours.list.nextAt v 0 = some (f.vertices + 2 * p + 1) ∧
    f'.tours.list.nextAt (f.vertices + 2 * p + 1) 0 = f.tours.list.nextAt u 0 ∧
    ∀ x ∉ [u, v, f.vertices + 2 * p, f.vertices + 2 * p + 1],
      f'.tours.list.nextAt x 0 = f.tours.list.nextAt x 0 := by
  obtain ⟨hu, hv⟩ := hf.ends_lt ((u, v), p) (List.mem_singleton_self _)
  have huv : u ≠ v := hf.loopless ((u, v), p) (List.mem_singleton_self _)
  obtain ⟨cu, hcu⟩ := h.exists_next hu
  obtain ⟨cv, hcv⟩ := h.exists_next hv
  have hp := h.pattern_link hf hcu hcv
  have hseam (x y : Nat) (hq : (x, y) ∈ [(u, f.vertices + 2 * p), (f.vertices + 2 * p, cv),
      (v, f.vertices + 2 * p + 1), (f.vertices + 2 * p + 1, cu)]) : f'.tours.list.nextAt x 0 = some y :=
    (h'.next_iff_of_setup hs).mpr (hp.seams (x, y) hq).1
  refine ⟨hseam u _ (by simp), (hseam _ cv (by simp)).trans hcv.symm, hseam v _ (by simp),
    (hseam _ cu (by simp)).trans hcu.symm, fun x hx => Option.ext fun y => ?_⟩
  have hnone : List.lookup x [(u, f.vertices + 2 * p), (f.vertices + 2 * p, cv), (v, f.vertices + 2 * p + 1),
      (f.vertices + 2 * p + 1, cu)] = none := List.lookup_eq_none_iff.mpr (by simp_all)
  rw [h'.next_iff_of_setup hs, ← hp.next_iff, hnone, Option.none_or, if_neg fun hm => hx (by simp_all)]

/-- The tours of two trees become one, which goes around the second one behind the first vertex. -/
theorem spliced (hp : p ∈ f.freePairs) (hr : ¬ (graph E).Reachable u v) :
    ∃ A B, f.Spliced f' u v (f.vertices + 2 * p) (f.vertices + 2 * p + 1) A B := by
  obtain ⟨hu, hv⟩ : u < f.vertices ∧ v < f.vertices := hf.ends_lt ((u, v), p) (List.mem_singleton_self _)
  have hw := h.sound.woven
  have hw' := h'.sound.woven
  obtain ⟨A, B, htour, hcycle, htour', hcycle', hn⟩ := h.exists_tours_apart hp hu hv hr
  obtain ⟨hfirst, hskip, hsecond, hback, hoff⟩ := h.next_link hf h' hs
  have hkept : ∀ x ∈ A ++ B, f'.tours.list.nextAt x 0 = f.tours.list.nextAt x 0 := fun x hx => hoff x fun hm => by
    have hperm : ((u :: A) ++ (v :: B) ++ [f.vertices + 2 * p, f.vertices + 2 * p + 1]).Perm
        ((A ++ B) ++ [u, v, f.vertices + 2 * p, f.vertices + 2 * p + 1]) :=
      List.perm_iff_count.mpr fun y => by simp only [List.count_cons, List.count_append]; omega
    exact (List.nodup_append'.mp (hperm.nodup_iff.mp hn)).2.2 hx hm
  have htrail : Trail (f'.tours.list.nextAt · 0) ([u, f.vertices + 2 * p] ++ B ++ [v, f.vertices + 2 * p + 1] ++ A)
      (some u) :=
    (hcycle.strand_zero hw).forth.insert (hcycle'.strand_zero hw).forth hfirst hskip hsecond hback
      (fun a ha => hkept a (List.mem_append_left _ ha)) fun b hb => hkept b (List.mem_append_right _ hb)
  have hperm : ((u :: A) ++ (v :: B) ++ [f.vertices + 2 * p, f.vertices + 2 * p + 1]).Perm
      ([u, f.vertices + 2 * p] ++ B ++ [v, f.vertices + 2 * p + 1] ++ A) :=
    List.perm_iff_count.mpr fun y => by simp only [List.count_cons, List.count_append, List.count_nil]; omega
  have hcycle₁ : f'.tours.list.IsSequence true
      ([u, f.vertices + 2 * p] ++ B ++ [v, f.vertices + 2 * p + 1] ++ A) :=
    hw'.isSequence_of_trail (h'.lt_size (hs.vertices.symm ▸ hu)) htrail
      (List.nodup_cons.mp (hperm.nodup_iff.mp hn)).1 nofun
  have hl : Leads f'.vertices (graft f.vertices [((u, v), p)] rot) u v (f.vertices + 2 * p) := by
    rw [hs.vertices]
    exact (Rotation.leads_graft_one hf h.rotation).mpr (.inr (.inl ⟨rfl, rfl, rfl⟩))
  have hmate : mate f'.vertices (f.vertices + 2 * p) = f.vertices + 2 * p + 1 := by rw [hs.vertices, mate_even]
  have hX : f.tours.list.Encloses ((u :: A) ++ (v :: B) ++ [f.vertices + 2 * p, f.vertices + 2 * p + 1]) :=
    ((hcycle.encloses hw).append (hcycle'.encloses hw)).append
      ((h.encloses_free hp (.inl rfl)).append (h.encloses_free hp (.inr rfl)))
  refine ⟨A, B, htour, htour', h'.indexes.find?_eq h'.directed hl,
    hmate ▸ h'.indexes.find?_eq h'.directed (Rotation.leads_mate hl), hcycle₁, hw'.sequence_of_closed hcycle₁,
    h.sameOff h' hs hX ((hcycle₁.encloses hw').congr fun x => hperm.mem_iff.symm) fun x hx => hoff x fun hm => hx ?_⟩
  simp only [List.mem_cons, List.mem_append, List.not_mem_nil, or_false] at hm ⊢
  tauto

end

/-! ## An edge goes -/

theorem not_mem_of_between (hn : ((x :: S) ++ (mate n x :: T)).Nodup)
    (hgone : ∀ y, y ∈ gone ↔ y = x ∨ y = mate n x) (hy : y ∈ S) : y ∉ gone := fun hm => by
  obtain ⟨hnS, -, hdisj⟩ := List.nodup_append'.mp hn
  rcases (hgone y).mp hm with rfl | rfl
  · exact (List.nodup_cons.mp hnS).1 hy
  · exact hdisj (List.mem_cons_of_mem _ hy) List.mem_cons_self

section

variable (h : f.Refines rot E) (hl : Leads f.vertices rot u v x) (hg : Prunes f.vertices rot gone)
  (hgone : ∀ y, y ∈ gone ↔ y = x ∨ y = mate f.vertices x)
  (hcycle : f.tours.list.IsSequence true ((x :: S) ++ (mate f.vertices x :: T)))
include h hl hg hgone hcycle

/-- Something is between the two elements of an edge. When they go, there is a gap from its last element to its first
one. -/
theorem exists_between : ∃ as l r, S = as ++ [l] ∧ S.head? = some r ∧
    Trail (f.tours.list.nextAt · 0) S (some (mate f.vertices x)) ∧ Follows f.vertices rot x r ∧
    Gap f.vertices rot gone (l, r) := by
  have hforth : Trail (f.tours.list.nextAt · 0) ((x :: S) ++ (mate f.vertices x :: T)) (some x) :=
    (hcycle.strand_zero h.sound.woven).forth
  have hgap {l r : Nat} (hlast : Follows f.vertices rot l (mate f.vertices x)) (hfirst : Follows f.vertices rot x r) :
      Gap f.vertices rot gone (l, r) := (hg.gap_iff h.rotation hl hgone).mpr (.inr ⟨hlast, hfirst⟩)
  obtain ⟨hx, hbetween⟩ := (Trail.append_iff.mp hforth).1
  rcases List.eq_nil_or_concat S with rfl | ⟨as, l, rfl⟩
  · have hfirst : Follows f.vertices rot x (mate f.vertices x) := (h.next_iff _ _).mp hx
    exact absurd ((hgone _).mpr (.inr rfl)) (hgap hfirst hfirst).2.1
  · rw [List.concat_eq_append] at hx hbetween ⊢
    obtain ⟨r, hr⟩ : ∃ r, (as ++ [l]).head? = some r := by cases as <;> simp
    have hlast : Follows f.vertices rot l (mate f.vertices x) :=
      (h.next_iff _ _).mp (Trail.append_iff.mp hbetween).2.1
    have hfirst : Follows f.vertices rot x r := (h.next_iff _ _).mp (hx.trans (by rw [hr, Option.some_or]))
    exact ⟨as, l, r, rfl, hr, hbetween, hfirst, hgap hlast hfirst⟩

variable (h' : f'.Refines (prune gone rot) E') (hs : f.SameSetup f')
include h' hs

/-- What is between the two elements of an edge becomes a cycle of its own, with the end of the first element. -/
theorem cycle_between : v ∈ S ∧ f'.tours.list.IsSequence true S := by
  obtain ⟨as, l, r, rfl, hr, hbetween, hfirst, hgap⟩ := h.exists_between hl hg hgone hcycle
  have hstays {y : Nat} (hy : y ∈ as ++ [l]) : y ∉ gone := not_mem_of_between hcycle.nodup hgone hy
  have hcycle' : f'.tours.list.IsSequence true (as ++ [l]) := by
    refine h'.sound.woven.isSequence_of_row hbetween (hcycle.nodup.sublist ?_) (fun y hy => ?_)
      (fun y hy z hz hyz => ?_) ?_
    · exact (List.sublist_cons_self x _).trans (List.sublist_append_left _ _)
    · rw [SkipList.size_of_layout (SumList.layout_list hs.layout)]
      exact hcycle.lt_size y (List.mem_append_left _ (List.mem_cons_of_mem _ hy))
    · have hyz' := (h.next_iff y z).mp hyz
      have hnext : ∀ d ∈ gone, ¬ Follows f.vertices rot y d := fun d hd hyd =>
        hstays hz (h.rotation.follows_unique hyd hyz' ▸ hd)
      have hy : y ∉ gone := hstays (List.mem_append_left _ hy)
      exact (h'.next_iff_of_setup hs).mpr ((hg.follows_prune_iff h.rotation hy hnext).mpr hyz')
    · rw [hr]
      exact (h'.next_iff_of_setup hs).mpr (hgap.follows h.rotation hg)
  refine ⟨?_, hcycle'⟩
  -- The first one between them leaves the end of the edge, and the tour of the end passes it.
  obtain ⟨hv, -⟩ := h.rotation.range v _ hl.2
  obtain ⟨w, hw, hmw, hrw⟩ := Rotation.follows_mem hfirst
  obtain rfl := h.rotation.ring_unique hw hv hmw (mem_ring.mpr (.inr hl.2))
  have hrS : r ∈ as ++ [l] := List.mem_of_head? hr
  have hring : r ∈ ring (prune gone rot) w := by
    rw [Prunes.ring_eq h.rotation hg hv]
    exact List.mem_filter.mpr ⟨hrw, by simpa using hstays hrS⟩
  have hv' : w < f'.vertices := hs.vertices.symm ▸ hv
  obtain ⟨zs, -, htour, hhead, hmem⟩ := h'.tour hv'
  have hrz : r ∈ zs := (hmem r).mpr ⟨w, hv', .rfl, hring⟩
  exact htour.subset_of_mem hcycle' h'.sound.woven hrz hrS (List.mem_of_head? hhead)

end

/-- The tour of an edge begins with either of its elements. -/
theorem exists_tour_of_edge (h : f.Refines rot E) (hl : Leads f.vertices rot u v x) : ∃ S T,
    f.tours.list.IsSequence true ((x :: S) ++ (mate f.vertices x :: T)) := by
  obtain ⟨hu, hle, -⟩ := h.rotation.range u x hl.1
  obtain ⟨hv, -⟩ := h.rotation.range v _ hl.2
  obtain ⟨xs, -, hcycle, -, hmem⟩ := h.tour hu
  have hx : x ∈ xs := (hmem x).mpr ⟨u, hu, .rfl, mem_ring.mpr (.inr hl.1)⟩
  have hadj : (graph E).Adj u v := h.rotation.adj_iff.mpr ⟨x, hl⟩
  have hm : mate f.vertices x ∈ xs := (hmem _).mpr ⟨v, hv, hadj.reachable, mem_ring.mpr (.inr hl.2)⟩
  obtain ⟨as, bs, rfl⟩ := List.append_of_mem hx
  have hm' : mate f.vertices x ∈ bs ++ as := by
    have hne := mate_ne hle
    simp only [List.mem_append, List.mem_cons] at hm ⊢
    tauto
  obtain ⟨S, T, hst⟩ := List.append_of_mem hm'
  have hrot := hcycle.rotate
  rw [List.cons_append, hst] at hrot
  exact ⟨S, T, hrot⟩

/-- Where the elements that go belong to whole sequences, the successors of all others stay. -/
theorem next_prune (h : f.Refines rot E) (hg : Prunes f.vertices rot gone) (h' : f'.Refines (prune gone rot) E')
    (hs : f.SameSetup f') {X : List Nat} (hX : f.tours.list.Encloses X) (hgone : gone ⊆ X) :
    ∀ y ∉ X, f'.tours.list.nextAt y 0 = f.tours.list.nextAt y 0 := fun y hy => Option.ext fun z => by
  rw [h'.next_iff_of_setup hs, h.next_iff]
  refine hg.follows_prune_iff h.rotation (fun hm => hy (hgone hm)) fun d hd hyd => hy ?_
  exact (hX.mem_iff h.sound.woven ((h.next_iff y d).mpr hyd)).mpr (hgone hd)

/-- The tour of an edge that goes falls into two. -/
theorem severed (h : f.Refines rot E) (hE : s(u, v) ∈ E) (hw : f.Without rot E [(u, v)] f') (hs' : f'.tours.Sound) :
    ∃ uv vu S T, f.Severed f' u v uv vu S T := by
  have hc : Strikes E [(u, v)] := ⟨by simpa using hE, by simp⟩
  have hg := h.rotation.prunes hc
  have h' := hw.refines h hs'
  have hs := hw.setup
  obtain ⟨x, hl⟩ := (h.rotation.edge_iff u v).mp hE
  obtain ⟨-, -, -, hle, hlt⟩ := h.directed.range u v x hl
  obtain ⟨hstruck, hfreed⟩ := h.rotation.struck_singleton hl
  have hgone (y : Nat) : y ∈ struck f.vertices rot [(u, v)] ↔ y = x ∨ y = mate f.vertices x := by simp [hstruck]
  obtain ⟨S, T, hcycle⟩ := h.exists_tour_of_edge hl
  obtain ⟨hvS, hS⟩ := h.cycle_between hl hg hgone hcycle h' hs
  have hcycle' : f.tours.list.IsSequence true
      ((mate f.vertices x :: T) ++ (mate f.vertices (mate f.vertices x) :: S)) := by
    rw [mate_mate]
    exact hcycle.rotate
  obtain ⟨huT, hT⟩ := h.cycle_between (Rotation.leads_mate hl) hg (fun y => by rw [hgone, mate_mate, or_comm]) hcycle'
    h' hs
  have hp : (x - f.vertices) / 2 ∈ f'.freePairs := hw.free.mem_iff.mpr (by simp [hfreed])
  have hpair {y : Nat} (hy : y ∈ [x, mate f.vertices x]) :
      y = f'.vertices + 2 * ((x - f.vertices) / 2) ∨ y = f'.vertices + 2 * ((x - f.vertices) / 2) + 1 :=
    hs.vertices.symm ▸ eq_even_or_odd_of_mem hle hy
  have hX := hcycle.encloses h.sound.woven
  have hX' : f'.tours.list.Encloses ((x :: S) ++ (mate f.vertices x :: T)) := by
    have hmate : mate f.vertices x ∈ [x, mate f.vertices x] := by simp
    have halone := (h'.encloses_free hp (hpair List.mem_cons_self)).append (h'.encloses_free hp (hpair hmate))
    refine (((hS.encloses h'.sound.woven).append (hT.encloses h'.sound.woven)).append halone).congr fun y => ?_
    simp only [List.mem_append, List.mem_cons, List.not_mem_nil, or_false]
    tauto
  have hsub : struck f.vertices rot [(u, v)] ⊆ (x :: S) ++ (mate f.vertices x :: T) := by simp [hstruck]
  refine ⟨x, mate f.vertices x, S, T, h.indexes.find?_eq h.directed hl, TourForest.twin_eq hle hlt,
    h.sound.woven.sequence_of_closed hcycle, ⟨hvS, huT⟩, ?_, ⟨hS, hT⟩, ⟨?_, ?_⟩, fun y hy => h'.free hp (hpair hy),
    h.sameOff h' hs hX hX' (h.next_prune hg h' hs hX hsub)⟩
  · have hdisj : (x :: S).Disjoint (mate f.vertices x :: T) := (List.nodup_append'.mp hcycle.nodup).2.2
    exact (List.disjoint_cons_left.mp (List.disjoint_cons_right.mp hdisj).2).2
  · exact fun y hy => h'.sound.woven.sequence_of_head hS hy
  · exact fun y hy => h'.sound.woven.sequence_of_head hT hy

end Refines

/-- Along a run, an edge between two trees takes the first free pair and puts the tour of its second vertex into that
of its first one, and an edge that goes leaves the two parts of its tour, and its elements alone. All other tours stay
as they are. -/
theorem splices_of_run (hn : n < 2 ^ 31) (hf : Run n settings f E) :
    (∀ u < n, ∀ v < n, ¬ (graph E).Reachable u v → ∃ p rest f' A B, f.freePairs = p :: rest ∧
      (f.link u v).outcome = .ok (.ok (), f') ∧ f'.freePairs = rest ∧
      f.Spliced f' u v (n + 2 * p) (n + 2 * p + 1) A B) ∧
    ∀ u v, s(u, v) ∈ E → ∃ f' uv vu S T, (f.cut u v).outcome = .ok f' ∧ f.Severed f' u v uv vu S T := by
  obtain ⟨rfl, -, rot, h⟩ := hf.refines hn
  refine ⟨fun u hu v hv hr => ?_, fun u v hE => ?_⟩
  · rcases h.outcome_link hu hv with ⟨hnil, -⟩ | ⟨-, hr', -⟩ | ⟨p, rest, f', hfree, -, hok, h', hrest, hs⟩
    · exact absurd hnil (h.exists_free hu hv hr)
    · exact absurd hr' hr
    · have hp : p ∈ f.freePairs := hfree ▸ List.mem_cons_self
      obtain ⟨huv, hE⟩ := new_of_not_reachable hr
      obtain ⟨A, B, hspliced⟩ := h.spliced (h.fits_one hp hu hv huv hE) h' hs hp hr
      exact ⟨p, rest, f', A, B, hfree, hok, hrest, hspliced⟩
  · obtain ⟨f', hok, hw, hs⟩ := h.outcome_cut hE
    obtain ⟨uv, vu, S, T, hsevered⟩ := h.severed hE hw hs
    exact ⟨f', uv, vu, S, T, hok, hsevered⟩

/-- To the tour of a first edge a vertex is added at its end, and out of it the edge is taken again. -/
theorem splices_of_first_edge : ∃ f : Forest, Run 3 {} f {s(0, 1)} ∧
    (∃ p rest f' A B, f.freePairs = p :: rest ∧ (f.link 1 2).outcome = .ok (.ok (), f') ∧ f'.freePairs = rest ∧
      f.Spliced f' 1 2 (3 + 2 * p) (3 + 2 * p + 1) A B) ∧
    ∃ f' uv vu S T, (f.cut 0 1).outcome = .ok f' ∧ f.Severed f' 0 1 uv vu S T := by
  obtain ⟨f, hf⟩ := exists_run_of_first_edge {}
  obtain ⟨hlink, hcut⟩ := splices_of_run (by decide) hf
  obtain ⟨-, -, hg⟩ := grows_cons.mp grows_path
  exact ⟨f, hf, hlink 1 (by decide) 2 (by decide) hg.not_reachable, hcut 0 1 (by decide)⟩

end Forest

end TourForest
