import TourForest.Proofs.Forest.Gaps
import TourForest.Proofs.Forest.Link
import TourForest.Proofs.Grouping

/-!
# Removing edges

Edges that are removed go from the rings of their ends, and each leaves its pair on the stack of free pairs.
What is left (`Without`) depends neither on the order in which edges go nor on how they are named. The steps split
the tours behind the elements that go and what is before them, and then close the gaps (`Closes`).

* `Toured.unlink`, `Toured.cutEach`, `Toured.cutTogether`: what is left if the operation answers, whatever the number of
  vertices;
* `Refines.unlink`, `Refines.outcome_cutEach`, `Refines.cutTogether`: the operation answers.
-/

namespace TourForest.Forest

variable {f f' : Forest} {rot : Nat → List Nat} {E : Finset (Sym2 Nat)} {cuts : List (Nat × Nat)} {c : Nat × Nat}
  {u v x : Nat}

/-! ## Marks -/

/-- Marks are set in the array of marks. -/
theorem foldl_setDoomed (b : Bool) (xs : List Nat) (f : Forest) :
    xs.foldl (fun f x => f.setDoomed x b) f =
      { f with doomed := xs.foldl (fun d x => d.setIfInBounds x b) f.doomed } := by
  induction xs generalizing f with
  | nil => rfl
  | cons x xs ih => rw [List.foldl_cons, ih, List.foldl_cons]; rfl

/-- Taking marks back leaves none, if there were none before. -/
theorem unmark (xs : List Nat) (n : Nat) :
    xs.foldl (fun d x => d.setIfInBounds x false)
        (xs.foldl (fun d x => d.setIfInBounds x true) (Array.replicate n false)) = Array.replicate n false := by
  refine Array.ext (by rw [size_foldl_set, size_foldl_set]) fun i hi _ => ?_
  rw [size_foldl_set, size_foldl_set, Array.size_replicate] at hi
  rw [Array.getElem_eq_getD false, getD_foldl_set, getD_foldl_set, size_foldl_set, Array.getElem_replicate]
  by_cases hm : i ∈ xs <;> simp [hm, hi]

/-- Splits behind `us` and seams along `pairs` take out the edges of a batch: the tours are split behind the elements
that go and behind what is before them, and each gap is closed once. -/
structure Closes (f : Forest) (rot : Nat → List Nat) (cuts : List (Nat × Nat)) (us : List Nat)
    (pairs : List (Nat × Nat)) : Prop where
  points : ∀ u, u ∈ us ↔ u ∈ struck f.vertices rot cuts ∨
    ∃ d ∈ struck f.vertices rot cuts, f.tours.list.nextAt u 0 = some d
  lefts_nodup : (pairs.map Prod.fst).Nodup
  gaps : ∀ q, q ∈ pairs ↔ Gap f.vertices rot (struck f.vertices rot cuts) q

/-- The forest without the edges of a batch, in whatever order they went. -/
structure Without (f : Forest) (rot : Nat → List Nat) (E : Finset (Sym2 Nat)) (cuts : List (Nat × Nat))
    (f' : Forest) : Prop where
  toured : f'.Toured (prune (struck f.vertices rot cuts) rot) (E \ edgeSet cuts)
  free : f'.freePairs.Perm (freed f.vertices rot cuts ++ f.freePairs)
  setup : f.SameSetup f'

namespace Toured

/-- With marks at some elements, the walk over doomed elements can begin. -/
theorem marked (h : f.Toured rot E) (gone : List Nat) :
    (gone.foldl (fun f x => f.setDoomed x true) f).Marked rot gone := by
  rw [foldl_setDoomed, h.doomed]
  refine ⟨h.few, h.size, h.woven, h.next_iff, fun x hx => ?_⟩
  have hcheck : f.tours.list.check x = .ok () := if_pos (hx.trans_eq h.size.symm)
  rw [isDoomed, hcheck, ok_bind, getD_foldl_set]
  by_cases hm : x ∈ gone <;> simp [hm, hx]

/-! ## Edges that go -/

variable (h : f.Toured rot E) (hc : Strikes E cuts) {us : List Nat} {pairs : List (Nat × Nat)}
include h hc

theorem pattern_cuts (hcl : f.Closes rot cuts us pairs) :
    f.tours.list.Pattern (Follows f.vertices (prune (struck f.vertices rot cuts) rot)) us pairs :=
  (h.rotation.prunes hc).pattern h.rotation (h.rotation.strike hc) h.size h.next_iff hcl.points hcl.lefts_nodup
    hcl.gaps

/-- Once all gaps are closed, the tours are those without the edges of a batch. -/
theorem without (hcl : f.Closes rot cuts us pairs) {after : List (Option Nat)} {tours₁ tours : SumList}
    (hsplit : f.tours.splitAll (us.map some) = .ok (after, tours₁))
    (hjoin : ((struck f.vertices rot cuts).foldl (fun a x => a.detach x 0) tours₁).joinAll
      (pairs.map SkipList.seam) = .ok tours)
    {edges : EdgeIndex}
    (hi : edges.Indexes f.vertices (Leads f.vertices (prune (struck f.vertices rot cuts) rot))) {ps : List Nat}
    (hps : ps.Perm (freed f.vertices rot cuts)) :
    f.Without rot E cuts { f with edges, tours, freePairs := ps ++ f.freePairs } := by
  have hg := h.rotation.prunes hc
  have hresewn := SumList.resewn_of_ok h.woven (h.pattern_cuts hc hcl) (fun x hx => (hcl.points x).mpr (.inl hx))
    (fun x hx y hy => (hcl.points y).mpr (.inr ⟨x, hx, hy⟩)) hsplit hjoin
  refine ⟨h.resewn (h.toLedger.pruned hc hi hps) ?_ hresewn (fun u hu => ?_)
    (fun x hx => (hg.range h.rotation hx).1) fun p hp => ?_, hps.append_right _, rfl, rfl, hresewn.layout⟩
  · exact h.acyclic.anti (SimpleGraph.fromEdgeSet_mono (Finset.coe_subset.mpr Finset.sdiff_subset))
  · rcases (hcl.points u).mp hu with hu | ⟨d, -, hd⟩
    · obtain ⟨v, hv⟩ := hg.live u hu
      exact h.exists_next_of_ring (h.rotation.range v u hv).1 (mem_ring.mpr (.inr hv))
    · exact ⟨d, hd⟩
  · refine (List.mem_append.mp hp).symm.imp_right fun hp => ?_
    have hm := (h.rotation.mem_freed hc).mp (hps.mem_iff.mp hp)
    exact ⟨hm, mate_even f.vertices p ▸ hg.mated _ hm⟩

end Toured

/-- The steps of a batch answer if the sums allow it. -/
theorem Refines.resew (h : f.Refines rot E) (hc : Strikes E cuts) {us : List Nat} {pairs : List (Nat × Nat)}
    (hcl : f.Closes rot cuts us pairs) :
    ∃ after tours₁ tours, f.tours.splitAll (us.map some) = .ok (after, tours₁) ∧
      ((struck f.vertices rot cuts).foldl (fun a x => a.detach x 0) tours₁).joinAll (pairs.map SkipList.seam) =
        .ok tours ∧ tours.Sound := by
  refine h.sound.resew h.bounded (h.pattern_cuts hc hcl) (fun x hx => ⟨(hcl.points x).mpr (.inl hx), ?_⟩)
    fun x hx y hy => (hcl.points y).mpr (.inr ⟨x, hx, hy⟩)
  rw [h.own, if_neg (not_lt.mpr ((h.rotation.prunes hc).range h.rotation hx).1)]

/-! ## One edge -/

/-- The steps of taking out an edge, when all of them succeed. -/
theorem unlink_eq {uv vu p : Nat} {b : Bool} {edges : EdgeIndex} {uPrev vPrev vNext uNext : Option Nat}
    {after : List (Option Nat)} {tours₁ tours : SumList} (helem : f.edgeElements u v = .ok (uv, vu))
    (hedges : f.edges.erase u v = .ok (b, edges)) (huPrev : f.tours.list.predecessor uv = .ok uPrev)
    (hvPrev : f.tours.list.predecessor vu = .ok vPrev) (hvNext : f.tours.list.successor uv = .ok vNext)
    (huNext : f.tours.list.successor vu = .ok uNext)
    (hsplit : f.tours.splitAll [some uv, some vu, uPrev, vPrev] = .ok (after, tours₁))
    (hjoin : ((tours₁.detach uv 0).detach vu 0).joinAll [(uPrev, uNext), (vPrev, vNext)] = .ok tours)
    (hpair : pairOf f.vertices uv = .ok p) :
    f.unlink u v = .ok { f with edges, tours, freePairs := p :: f.freePairs } := by
  simp only [unlink, helem, hedges, huPrev, hvPrev, hvNext, huNext, hsplit, hjoin, hpair, ok_bind]
  rfl

namespace Toured

theorem predecessor_eq (h : f.Toured rot E) {y : Nat} (hxy : Follows f.vertices rot x y) :
    f.tours.list.predecessor y = .ok (some x) := by
  rw [← h.woven.next_iff_prev.mp ((h.next_iff x y).mpr hxy)]
  exact (h.marked []).predecessor_eq (h.rotation.lt_of_follows hxy).2

theorem successor_eq (h : f.Toured rot E) {y : Nat} (hxy : Follows f.vertices rot x y) :
    f.tours.list.successor x = .ok (some y) := by
  rw [← (h.next_iff x y).mpr hxy]
  exact (h.marked []).successor_eq (h.rotation.lt_of_follows hxy).1

/-- One edge takes away its two elements. What is before and behind them closes crosswise. -/
theorem exists_closes_one (h : f.Toured rot E) (hl : Leads f.vertices rot u v x) :
    ∃ uPrev vPrev uNext vNext, Follows f.vertices rot uPrev x ∧ Follows f.vertices rot vPrev (mate f.vertices x) ∧
      Follows f.vertices rot (mate f.vertices x) uNext ∧ Follows f.vertices rot x vNext ∧
      f.Closes rot [(u, v)] [x, mate f.vertices x, uPrev, vPrev] [(uPrev, uNext), (vPrev, vNext)] := by
  have hu := (h.rotation.range u x hl.1).1
  have hv := (h.rotation.range v _ hl.2).1
  obtain ⟨uPrev, huPrev⟩ := Rotation.exists_follows_left hu (mem_ring.mpr (.inr hl.1))
  obtain ⟨vPrev, hvPrev⟩ := Rotation.exists_follows_left hv (mem_ring.mpr (.inr hl.2))
  obtain ⟨uNext, huNext⟩ := h.rotation.exists_follows hv (mem_ring.mpr (.inr hl.2))
  obtain ⟨vNext, hvNext⟩ := h.rotation.exists_follows hu (mem_ring.mpr (.inr hl.1))
  have hc : Strikes E [(u, v)] := ⟨by simpa using (h.rotation.edge_iff u v).mpr ⟨x, hl⟩, by simp⟩
  have hstruck := (h.rotation.struck_singleton hl).1
  refine ⟨uPrev, vPrev, uNext, vNext, huPrev, hvPrev, huNext, hvNext, fun w => ?_, ?_, fun q => ?_⟩
  · simp [hstruck, h.next_iff, h.rotation.follows_left_iff huPrev, h.rotation.follows_left_iff hvPrev, or_assoc]
  · have hne : uPrev ≠ vPrev := fun he =>
      mate_ne (h.rotation.range _ _ hl.1).2.1 (h.rotation.follows_unique (he ▸ hvPrev) huPrev)
    simpa using hne
  · rw [(h.rotation.prunes hc).gap_iff h.rotation hl (by simp [hstruck]), h.rotation.follows_left_iff huPrev,
      h.rotation.follows_left_iff hvPrev, h.rotation.follows_right_iff huNext, h.rotation.follows_right_iff hvNext]
    simp [Prod.ext_iff]

/-- An edge that has been taken out is gone. -/
theorem unlink (h : f.Toured rot E) (hE : s(u, v) ∈ E) (hok : f.unlink u v = .ok f') :
    f.Without rot E [(u, v)] f' := by
  have hc : Strikes E [(u, v)] := ⟨by simpa using hE, by simp⟩
  have hl : Leads f.vertices rot u v (element f.vertices rot (u, v)) := h.rotation.leads_element hE
  obtain ⟨edges, hedges, hi⟩ := h.erased hc
  obtain ⟨⟨b, edges⟩, herase, he⟩ := bind_eq_ok.mp hedges
  obtain rfl : edges = _ := Except.ok.inj he
  have helem := h.edgeElements_eq (c := (u, v)) hE
  obtain ⟨x, hx⟩ : ∃ x, element f.vertices rot (u, v) = x := ⟨_, rfl⟩
  rw [hx] at hl helem
  obtain ⟨hstruck, hfreed⟩ := h.rotation.struck_singleton hl
  obtain ⟨uPrev, vPrev, uNext, vNext, huPrev, hvPrev, huNext, hvNext, hcl⟩ := h.exists_closes_one hl
  simp only [Forest.unlink, helem, herase, h.predecessor_eq huPrev, h.predecessor_eq hvPrev, h.successor_eq hvNext,
    h.successor_eq huNext, pairOf_eq (h.rotation.range _ _ hl.1).2.1, ok_bind] at hok
  obtain ⟨⟨after, tours₁⟩, hsplit, hok⟩ := bind_eq_ok.mp hok
  obtain ⟨tours, hjoin, hok⟩ := bind_eq_ok.mp hok
  cases hok
  exact h.without hc hcl hsplit (hstruck.symm ▸ hjoin) hi (.of_eq hfreed.symm)

end Toured

namespace Without

/-- With sums that are right, what is left refines the smaller graph. -/
theorem refines (hw : f.Without rot E cuts f') (h : f.Refines rot E) (hs : f'.tours.Sound) :
    f'.Refines (prune (struck f.vertices rot cuts) rot) (E \ edgeSet cuts) :=
  ⟨hw.toured, hw.setup.vertices ▸ h.small, hs⟩

theorem nil (h : f.Toured rot E) : f.Without rot E [] f := by
  refine ⟨?_, .refl _, .refl f⟩
  have hrot : prune (struck f.vertices rot []) rot = rot := by
    funext v
    simp [prune, struck, members]
  rw [hrot, edgeSet_nil, Finset.sdiff_empty]
  exact h

theorem append {f'' : Forest} {cuts' : List (Nat × Nat)} (h : Rotation f.vertices E rot) (hc : Strikes E cuts)
    (hc' : Strikes (E \ edgeSet cuts) cuts') (hw : f.Without rot E cuts f')
    (hw' : f'.Without (prune (struck f.vertices rot cuts) rot) (E \ edgeSet cuts) cuts' f'') :
    f.Without rot E (cuts ++ cuts') f'' := by
  obtain ⟨ht, hfree, hsetup⟩ := hw'
  rw [hw.setup.vertices, prune_struck_append h hc hc', sdiff_sdiff_left,
    Finset.sup_eq_union, ← edgeSet_append] at ht
  rw [hw.setup.vertices, freed_prune h hc hc'] at hfree
  refine ⟨ht, hfree.trans ((hw.free.append_left _).trans ?_), hw.setup.trans hsetup⟩
  rw [freed, freed, freed, List.map_append, List.append_assoc]
  exact List.perm_append_comm_assoc ..

/-- What is left does not depend on how the edges are named. -/
theorem congr {cuts' : List (Nat × Nat)} (h : Rotation f.vertices E rot) (hc : Strikes E cuts)
    (hc' : Strikes E cuts') (he : edgeSet cuts = edgeSet cuts') (hw : f.Without rot E cuts f') :
    f.Without rot E cuts' f' := by
  obtain ⟨ht, hfree, hsetup⟩ := hw
  rw [he, prune_congr fun x => h.struck_congr hc hc' he] at ht
  exact ⟨ht, hfree.trans ((h.freed_perm hc hc' he).append_right _), hsetup⟩

end Without

namespace Toured

/-- What removing one edge comes to. -/
theorem outcome_cut (h : f.Toured rot E) (hu : u < f.vertices) (hv : v < f.vertices) :
    (f.cut u v).outcome = if s(u, v) ∈ E then f.unlink u v else .error (.missingEdge u v) := by
  rw [cut, Traced.outcome_bind, Traced.outcome_liftM, hasEdge, h.contains_eq hu hv, ok_bind]
  by_cases hE : s(u, v) ∈ E <;> simp [hE]

/-- An edge that has been removed was there. -/
theorem cut (h : f.Toured rot E) (hu : u < f.vertices) (hv : v < f.vertices)
    (hok : (f.cut u v).outcome = .ok f') : s(u, v) ∈ E ∧ f.Without rot E [(u, v)] f' := by
  rw [h.outcome_cut hu hv] at hok
  split at hok
  · next hE => exact ⟨hE, h.unlink hE hok⟩
  · cases hok

/-- Edges that have been removed one after the other are gone. -/
theorem cutEach : ∀ (cuts : List (Nat × Nat)) {f : Forest} {rot : Nat → List Nat} {E : Finset (Sym2 Nat)},
    f.Toured rot E → Strikes E cuts → (f.cutEach cuts).outcome = .ok f' → f.Without rot E cuts f' := by
  intro cuts
  induction cuts with
  | nil =>
    intro f rot E h _ hok
    cases hok
    exact .nil h
  | cons c cuts ih =>
    obtain ⟨u, v⟩ := c
    intro f rot E h hc hok
    obtain ⟨hcut, hrest⟩ : Strikes E [(u, v)] ∧ Strikes (E \ edgeSet [(u, v)]) cuts := strikes_append.mp hc
    obtain ⟨hu, hv, -⟩ := h.lt_of_mem (hc.present _ List.mem_cons_self)
    rw [Forest.cutEach, Traced.outcome_bind] at hok
    obtain ⟨f₁, hok₁, hok⟩ := bind_eq_ok.mp hok
    have hw₁ := (h.cut hu hv hok₁).2
    exact hw₁.append h.rotation hcut hrest (ih hw₁.toured hrest hok)

end Toured

namespace Refines

/-- An edge that is there is taken out. -/
theorem unlink (h : f.Refines rot E) (hE : s(u, v) ∈ E) :
    ∃ f', f.unlink u v = .ok f' ∧ f.Without rot E [(u, v)] f' ∧ f'.tours.Sound := by
  have hc : Strikes E [(u, v)] := ⟨by simpa using hE, by simp⟩
  have hl : Leads f.vertices rot u v (element f.vertices rot (u, v)) := h.rotation.leads_element hE
  obtain ⟨edges, hedges, -⟩ := h.erased hc
  obtain ⟨⟨b, edges⟩, herase, -⟩ := bind_eq_ok.mp hedges
  have helem := h.edgeElements_eq (c := (u, v)) hE
  obtain ⟨x, hx⟩ : ∃ x, element f.vertices rot (u, v) = x := ⟨_, rfl⟩
  rw [hx] at hl helem
  obtain ⟨uPrev, vPrev, uNext, vNext, huPrev, hvPrev, huNext, hvNext, hcl⟩ := h.exists_closes_one hl
  obtain ⟨after, tours₁, tours, hsplit, hjoin, hsound⟩ := h.resew hc hcl
  rw [(h.rotation.struck_singleton hl).1] at hjoin
  have hok := unlink_eq helem herase (h.predecessor_eq huPrev) (h.predecessor_eq hvPrev) (h.successor_eq hvNext)
    (h.successor_eq huNext) hsplit hjoin (pairOf_eq (h.rotation.range _ _ hl.1).2.1)
  exact ⟨_, hok, h.toToured.unlink hE hok, hsound⟩

/-- An edge that is there is removed. -/
theorem outcome_cut (h : f.Refines rot E) (hE : s(u, v) ∈ E) :
    ∃ f', (f.cut u v).outcome = .ok f' ∧ f.Without rot E [(u, v)] f' ∧ f'.tours.Sound := by
  obtain ⟨hu, hv, -⟩ := h.lt_of_mem hE
  rw [h.toToured.outcome_cut hu hv, if_pos hE]
  exact h.unlink hE

/-- Edges are removed one after the other. -/
theorem outcome_cutEach : ∀ (cuts : List (Nat × Nat)) {f : Forest} {rot : Nat → List Nat} {E : Finset (Sym2 Nat)},
    f.Refines rot E → Strikes E cuts →
    ∃ f', (f.cutEach cuts).outcome = .ok f' ∧ f.Without rot E cuts f' ∧ f'.tours.Sound := by
  intro cuts
  induction cuts with
  | nil => exact fun {f rot E} h _ => ⟨f, rfl, .nil h.toToured, h.sound⟩
  | cons c cuts ih =>
    obtain ⟨u, v⟩ := c
    intro f rot E h hc
    obtain ⟨-, hrest⟩ : Strikes E [(u, v)] ∧ Strikes (E \ edgeSet [(u, v)]) cuts := strikes_append.mp hc
    obtain ⟨f₁, hok₁, hw₁, hs₁⟩ := h.outcome_cut (hc.present _ List.mem_cons_self)
    obtain ⟨f', hok', -, hs'⟩ := ih (hw₁.refines h hs₁) hrest
    have hok : (f.cutEach ((u, v) :: cuts)).outcome = .ok f' := by
      rw [cutEach, Traced.outcome_bind, hok₁, ok_bind, hok']
    exact ⟨f', hok, h.toToured.cutEach _ hc hok, hs'⟩

end Refines

/-! ## Several edges at once -/

/-- The steps of taking out several edges, when all of them succeed. -/
theorem cutTogether_eq {elements : List (Nat × Nat)} {gone : List Nat} {seams : List Seam} {doomed : Array Bool}
    {points after : List (Option Nat)} {tours₁ tours : SumList} {edges : EdgeIndex} {pairs : List Nat}
    (helem : (cuts.mapM fun c => f.edgeElements c.1 c.2) = .ok elements)
    (hgone : (elements.flatMap fun e => [e.1, e.2]) = gone)
    (hdoomed : gone.foldl (fun d x => d.setIfInBounds x true) f.doomed = doomed)
    (hseams : ({ f with doomed } : Forest).closings elements = .ok seams)
    (hpoints : f.splitPoints elements = points) (hsplit : f.tours.splitAll points = .ok (after, tours₁))
    (hjoin : (gone.foldl (fun a x => a.detach x 0) tours₁).joinAll seams = .ok tours)
    (hedges : eraseEdges f.edges cuts = .ok edges)
    (hpairs : (elements.mapM fun e => pairOf f.vertices e.1) = .ok pairs) :
    f.cutTogether cuts = .ok { f with
      tours
      edges
      doomed := gone.foldl (fun d x => d.setIfInBounds x false) doomed
      freePairs := pairs.reverse ++ f.freePairs } := by
  have hpoints' : ({ f with doomed } : Forest).splitPoints elements = points := hpoints
  simp only [cutTogether, helem, hgone, foldl_setDoomed, hdoomed, hseams, hpoints', hsplit, hjoin, hedges, hpairs,
    ok_bind]
  rfl

/-- The elements of the edges of a batch, each with its mate, are those that go. -/
theorem flatMap_struck (n : Nat) (rot : Nat → List Nat) (cuts : List (Nat × Nat)) :
    ((cuts.map (element n rot)).map fun x => (x, mate n x)).flatMap (fun e => [e.1, e.2]) = struck n rot cuts :=
  List.flatMap_map ..

/-- The points behind which the tours are split are the doomed elements and what is before one of them. -/
theorem exists_splitPoints (f : Forest) (xs : List Nat) :
    ∃ us : List Nat, f.splitPoints (xs.map fun x => (x, mate f.vertices x)) = us.map some ∧
      ∀ u, u ∈ us ↔ u ∈ members f.vertices xs ∨ ∃ d ∈ members f.vertices xs, f.tours.list.prevAt d 0 = some u := by
  have hfilter (os : List (Option Nat)) : os.filter Option.isSome = (os.filterMap id).map some := by
    induction os with
    | nil => rfl
    | cons o os ih => cases o <;> simp [ih]
  refine ⟨_, hfilter _, fun u => ?_⟩
  simp only [List.mem_filterMap, List.flatMap_map, List.mem_flatMap, mem_members, id_eq, exists_eq_right,
    List.mem_cons, List.not_mem_nil, or_false, Option.some.injEq]
  constructor
  · rintro ⟨x, hx, rfl | rfl | hu | hu⟩
    · exact .inl ⟨u, hx, .inl rfl⟩
    · exact .inl ⟨x, hx, .inr rfl⟩
    · exact .inr ⟨x, ⟨x, hx, .inl rfl⟩, hu.symm⟩
    · exact .inr ⟨_, ⟨x, hx, .inr rfl⟩, hu.symm⟩
  · rintro (⟨x, hx, hu⟩ | ⟨d, ⟨x, hx, rfl | rfl⟩, hu⟩)
    · exact ⟨x, hx, hu.elim .inl fun hu => .inr (.inl hu)⟩
    · exact ⟨d, hx, .inr (.inr (.inl hu.symm))⟩
    · exact ⟨x, hx, .inr (.inr (.inr hu.symm))⟩

/-- The seams for the elements of a batch close all gaps, behind the points at which it splits. -/
theorem Toured.exists_closes (h : f.Toured rot E) (hc : Strikes E cuts) :
    ∃ us pairs, f.Closes rot cuts us pairs ∧
      f.splitPoints ((cuts.map (element f.vertices rot)).map fun x => (x, mate f.vertices x)) = us.map some ∧
      ({ f with doomed := (struck f.vertices rot cuts).foldl (fun d x => d.setIfInBounds x true) f.doomed } :
        Forest).closings ((cuts.map (element f.vertices rot)).map fun x => (x, mate f.vertices x)) =
          .ok (pairs.map SkipList.seam) := by
  have hm := h.marked (struck f.vertices rot cuts)
  rw [foldl_setDoomed] at hm
  obtain ⟨pairs, hseams, hn, hgaps⟩ := Marked.closings_eq
    (g := { f with doomed := (struck f.vertices rot cuts).foldl (fun d x => d.setIfInBounds x true) f.doomed })
    h.rotation (h.rotation.prunes hc) hm (h.rotation.strike hc) (fun _ => .rfl) (h.rotation.nodup_struck hc)
  obtain ⟨us, hpoints, hus⟩ := f.exists_splitPoints (cuts.map (element f.vertices rot))
  refine ⟨us, pairs, ⟨fun u => ?_, hn, hgaps⟩, hpoints, hseams⟩
  rw [hus]
  exact or_congr_right (exists_congr fun d => and_congr_right fun _ => h.woven.next_iff_prev.symm)

/-- Edges that have been removed all at once are gone. -/
theorem Toured.cutTogether (h : f.Toured rot E) (hc : Strikes E cuts) (hok : f.cutTogether cuts = .ok f') :
    f.Without rot E cuts f' ∧ f'.randomness = f.randomness := by
  obtain ⟨us, pairs, hcl, hpoints, hseams⟩ := h.exists_closes hc
  obtain ⟨edges, hedges, hi⟩ := h.erased hc
  have hpoints' : ({ f with doomed := (struck f.vertices rot cuts).foldl (fun d x => d.setIfInBounds x true) f.doomed } :
      Forest).splitPoints ((cuts.map (element f.vertices rot)).map fun x => (x, mate f.vertices x)) = us.map some :=
    hpoints
  simp only [Forest.cutTogether, h.mapM_edgeElements hc, flatMap_struck, foldl_setDoomed, hseams, hpoints', hedges,
    h.mapM_pairOf hc, ok_bind] at hok
  obtain ⟨⟨after, tours₁⟩, hsplit, hok⟩ := bind_eq_ok.mp hok
  obtain ⟨tours, hjoin, hok⟩ := bind_eq_ok.mp hok
  cases hok
  have hw := h.without hc hcl hsplit hjoin hi (List.reverse_perm (freed f.vertices rot cuts))
  have hmarks : (struck f.vertices rot cuts).foldl (fun d x => d.setIfInBounds x false)
      ((struck f.vertices rot cuts).foldl (fun d x => d.setIfInBounds x true) f.doomed) = f.doomed := by
    rw [h.doomed, unmark]
  rw [hmarks]
  exact ⟨hw, rfl⟩

/-- Edges that are there are removed all at once. -/
theorem Refines.cutTogether (h : f.Refines rot E) (hc : Strikes E cuts) :
    ∃ f', f.cutTogether cuts = .ok f' ∧ f.Without rot E cuts f' ∧ f'.randomness = f.randomness ∧ f'.tours.Sound := by
  obtain ⟨us, pairs, hcl, hpoints, hseams⟩ := h.exists_closes hc
  obtain ⟨after, tours₁, tours, hsplit, hjoin, hsound⟩ := h.resew hc hcl
  obtain ⟨edges, hedges, -⟩ := h.erased hc
  have hok := cutTogether_eq (h.mapM_edgeElements hc) (flatMap_struck ..) rfl hseams hpoints hsplit hjoin hedges (h.mapM_pairOf hc)
  obtain ⟨hw, hrandom⟩ := h.toToured.cutTogether hc hok
  exact ⟨_, hok, hw, hrandom, hsound⟩

end TourForest.Forest
