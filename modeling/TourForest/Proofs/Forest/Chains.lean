import Mathlib.Data.Finset.Sort
import Mathlib.Data.List.SplitBy
import TourForest.Forest.Link
import TourForest.Proofs.Forest.Graft

/-!
# Chains of new elements

The seams of new edges, vertex by vertex: from the vertex to the first new element, from the mate of each
new element to the next one, and from the mate of the last one to what was behind the vertex.

* `Fits.pattern_of_perm`: in any order, they are the seams of the larger rotation;
* `bySource_eq`: sorting the departures groups them by the vertices that they leave;
* `Sorting.shuffled`: each group has the new elements at its vertex, in the order that the sorting leaves them in;
* `chains_eq`: the chains of all groups are these seams.
-/

namespace TourForest

variable {n : Nat} {rot : Nat → List Nat} {E : Finset (Sym2 Nat)} {links : List ((Nat × Nat) × Nat)}
  {l r v w x y : Nat} {es us : List Nat} {q : Nat × Nat}

/-- The seams that sew elements in between `l` and `r`. -/
def chainPairs (n l r : Nat) : List Nat → List (Nat × Nat)
  | [] => [(l, r)]
  | e :: es => (l, e) :: chainPairs n (mate n e) r es

theorem mem_chainPairs : q ∈ chainPairs n l r es ↔ [mate n q.1, q.2] <:+: mate n l :: (es ++ [r]) := by
  have hcons (a b : Nat) (t : List Nat) : [mate n q.1, q.2] <:+: mate n a :: b :: t ↔
      q = (a, b) ∨ [mate n q.1, q.2] <:+: b :: t := by
    rw [List.infix_cons_iff, List.cons_prefix_cons, List.cons_prefix_cons, (mate_injective n).eq_iff, Prod.ext_iff]
    simp
  induction es generalizing l with
  | nil =>
    rw [chainPairs, List.nil_append, hcons, List.mem_singleton]
    refine ⟨.inl, fun h => h.resolve_right fun hi => ?_⟩
    have := hi.length_le
    simp at this
  | cons e es ih =>
    rw [chainPairs, List.mem_cons, List.cons_append, hcons]
    refine or_congr_right ((ih (l := mate n e)).trans ?_)
    rw [mate_mate]

theorem lefts_chainPairs : (chainPairs n l r es).map Prod.fst = l :: es.map (mate n) := by
  induction es generalizing l with
  | nil => rfl
  | cons e es ih => rw [chainPairs, List.map_cons, ih, List.map_cons]

/-- The seams of new edges, in any order, make a pattern for the larger rotation. -/
theorem Fits.pattern_of_perm (h : Rotation n E rot) (hf : Fits n E rot links) {news : Nat → List Nat}
    (hs : Shuffled n links news) {s : SkipList} (hsize : s.size = Forest.arenaSize n)
    (hnext : ∀ x y, s.nextAt x 0 = some y ↔ Follows n rot x y) (hus : us.Nodup)
    (hmem : ∀ v, v ∈ us ↔ news v ≠ []) {c : Nat → Nat} (hc : ∀ v ∈ us, s.nextAt v 0 = some (c v))
    {pairs : List (Nat × Nat)} (hpairs : pairs.Perm (us.flatMap fun v => chainPairs n v (c v) (news v))) :
    s.Pattern (Follows n (sewIn news rot)) us pairs := by
  have hlt {v : Nat} (hv : v ∈ us) : v < n := hf.lt_of_newAt (hs.ne_nil_iff.mp ((hmem v).mp hv))
  have hg := h.sewIn hf hs
  have hnodup (v : Nat) : (news v).Nodup := (List.nodup_append.mp (hg.nodup v)).1
  refine hf.pattern h hs hsize hnext hmem ?_ fun q => ?_
  · -- The left ends are the vertices and the mates of all new elements.
    rw [(hpairs.map Prod.fst).nodup_iff, List.map_flatMap, List.nodup_flatMap]
    refine ⟨fun v hv => ?_, hus.imp_of_mem fun {v w} hv hw hne => ?_⟩
    · rw [lefts_chainPairs, List.nodup_cons]
      refine ⟨fun hm => ?_, (hnodup v).map (mate_injective n)⟩
      obtain ⟨e, he, heq⟩ := List.mem_map.mp hm
      have := le_mate (hf.not_mem_rot h (hs.mem_iff.mp he) v).1
      have := hlt hv
      omega
    · intro x hx hx'
      simp only [lefts_chainPairs] at hx hx'
      have hring {u : Nat} (hu : u ∈ us) (hx : x ∈ u :: (news u).map (mate n)) : mate n x ∈ ring (sewIn news rot) u := by
        rcases List.mem_cons.mp hx with rfl | hx
        · rw [mate_of_lt (hlt hu)]
          exact mem_ring.mpr (.inl rfl)
        · obtain ⟨e, he, rfl⟩ := List.mem_map.mp hx
          rw [mate_mate]
          exact mem_ring.mpr (.inr (mem_sewIn.mpr (.inl he)))
      exact hne (hg.ring_unique (hlt hv) (hlt hw) (hring hv hx) (hring hw hx'))
  · rw [hpairs.mem_iff, List.mem_flatMap]
    constructor
    · rintro ⟨v, hv, hq⟩
      rw [mem_chainPairs, mate_of_lt (hlt hv)] at hq
      exact ⟨v, c v, (hmem v).mp hv, hc v hv, hq⟩
    · rintro ⟨v, r, hne, hr, hq⟩
      have hv := (hmem v).mpr hne
      obtain rfl : c v = r := Option.some.inj ((hc v hv).symm.trans hr)
      exact ⟨v, hv, by rw [mem_chainPairs, mate_of_lt (hlt hv)]; exact hq⟩

namespace Forest

/-! ## Departures by source -/

variable {ds : List Departure} {σ : Sorting}

/-- The departures from vertex `v`. -/
def fromSource (ds : List Departure) (v : Nat) : List Departure := ds.filter (·.source = v)

/-- The sources of departures in order. -/
def sources (ds : List Departure) : List Nat := (ds.map (·.source)).toFinset.sort (· ≤ ·)

theorem mem_sources : v ∈ sources ds ↔ fromSource ds v ≠ [] := by
  rw [sources, Finset.mem_sort, List.mem_toFinset, List.mem_map, fromSource, Ne, List.filter_eq_nil_iff]
  simp

theorem nodup_sources (ds : List Departure) : (sources ds).Nodup := Finset.sort_nodup ..

theorem sources_perm {ds' : List Departure} (hp : ds'.Perm ds) : sources ds' = sources ds := by
  rw [sources, List.toFinset_eq_of_perm _ _ (hp.map _), sources]

/-- A list in order is the list of its parts with equal sources, if these come in order. -/
theorem eq_flatten_fromSource (hs : ds.Pairwise (·.source ≤ ·.source)) (hu : us.Pairwise (· < ·))
    (hd : ∀ d ∈ ds, d.source ∈ us) : ds = us.flatMap (fromSource ds) := by
  induction us generalizing ds with
  | nil => exact List.eq_nil_iff_forall_not_mem.mpr fun d hm => absurd (hd d hm) List.not_mem_nil
  | cons u us ih =>
    obtain ⟨hlt, hu⟩ := List.pairwise_cons.mp hu
    -- The departures from `u` come first, and taking them away changes no other part.
    have hsplit : ∀ {ds : List Departure}, ds.Pairwise (·.source ≤ ·.source) → (∀ d ∈ ds, u ≤ d.source) →
        ds = fromSource ds u ++ ds.filter (·.source ≠ u) := by
      intro ds hs hle
      induction ds with
      | nil => rfl
      | cons d ds ih =>
        obtain ⟨hd, hs⟩ := List.pairwise_cons.mp hs
        obtain ⟨hdu, hle⟩ := List.forall_mem_cons.mp hle
        by_cases he : d.source = u
        · have := ih hs hle
          simpa [fromSource, he] using this
        · have hne : ∀ d' ∈ ds, d'.source ≠ u := fun d' hm => by
            have := hd d' hm
            omega
          have hnil : fromSource ds u = [] := List.filter_eq_nil_iff.mpr fun d' hm => by simpa using hne d' hm
          have hall : ds.filter (·.source ≠ u) = ds :=
            List.filter_eq_self.mpr fun d' hm => by simpa using hne d' hm
          rw [fromSource, List.filter_cons_of_neg (by simpa using he), ← fromSource, hnil,
            List.filter_cons_of_pos (by simpa using he), hall, List.nil_append]
    have hle : ∀ d ∈ ds, u ≤ d.source := fun d hm => by
      rcases List.mem_cons.mp (hd d hm) with he | hm
      · exact he.ge
      · exact (hlt _ hm).le
    have hrest := ih (hs.filter (·.source ≠ u)) hu fun d hm => by
      obtain ⟨hm, hne⟩ := List.mem_filter.mp hm
      exact (List.mem_cons.mp (hd d hm)).resolve_left (by simpa using hne)
    have hpart : us.flatMap (fromSource (ds.filter (·.source ≠ u))) = us.flatMap (fromSource ds) := by
      refine List.flatMap_congr fun v hv => ?_
      rw [fromSource, fromSource, List.filter_filter]
      refine List.filter_congr fun d _ => ?_
      have := hlt v hv
      by_cases he : d.source = v
      · simp [he, this.ne']
      · simp [he]
    rw [List.flatMap_cons, ← hpart, ← hrest]
    exact hsplit hs hle

/-- Departures are grouped by their sources, in order. -/
theorem bySource_eq (σ : Sorting) (ds : List Departure) :
    bySource σ ds = (sources ds).map (fromSource (σ.sort ds)) := by
  rw [← sources_perm (σ.perm ds)]
  have hsorted := σ.sorted ds
  rw [bySource]
  generalize σ.sort ds = ds at hsorted ⊢
  have hlt : (sources ds).Pairwise (· < ·) := (Finset.sortedLT_sort _).pairwise
  have hflat := eq_flatten_fromSource hsorted hlt fun d hd => by
    rw [sources, Finset.mem_sort, List.mem_toFinset]
    exact List.mem_map_of_mem hd
  have hsource {v : Nat} {d : Departure} (hd : d ∈ fromSource ds v) : d.source = v := by
    simpa using (List.mem_filter.mp hd).2
  refine List.splitBy_eq_iff.mpr ⟨hflat, ?_, fun m hm => ?_, ?_⟩
  · intro hm
    obtain ⟨v, hv, hnil⟩ := List.mem_map.mp hm
    exact mem_sources.mp hv hnil
  · obtain ⟨v, -, rfl⟩ := List.mem_map.mp hm
    refine List.Pairwise.isChain (List.pairwise_of_forall_mem_list fun d hd d' hd' => ?_)
    rw [hsource hd, hsource hd', beq_self_eq_true]
  · refine List.Pairwise.isChain (List.pairwise_map.mpr (hlt.imp_of_mem fun {v w} hv hw hvw => ?_))
    refine ⟨mem_sources.mp hv, mem_sources.mp hw, ?_⟩
    rw [hsource (List.getLast_mem _), hsource (List.head_mem _), beq_eq_false_iff_ne]
    exact hvw.ne

/-- In order of the vertices, there are departures from a vertex where there were some before. -/
theorem mem_sources_iff_sort : v ∈ sources ds ↔ fromSource (σ.sort ds) v ≠ [] := by
  rw [← sources_perm (σ.perm ds), mem_sources]

/-- The heads of the groups have the sources. -/
theorem heads_bySource (σ : Sorting) (ds : List Departure) :
    (bySource σ ds).map (fun ds => ds.head?.map (·.source)) = (sources ds).map some := by
  rw [bySource_eq, List.map_map]
  refine List.map_congr_left fun v hv => ?_
  obtain ⟨d, t, hd⟩ := List.exists_cons_of_ne_nil (mem_sources_iff_sort.mp hv)
  have hm : d ∈ fromSource (σ.sort ds) v := hd ▸ List.mem_cons_self
  rw [Function.comp_apply, hd]
  exact congrArg some (by simpa using (List.mem_filter.mp hm).2)

/-- A stable sorting keeps the order of the departures from a vertex. -/
theorem fromSource_stable (ds : List Departure) (v : Nat) : fromSource (Sorting.stable.sort ds) v = fromSource ds v := by
  have hpair : (fromSource ds v).Pairwise fun d d' => decide (d.source ≤ d'.source) := by
    refine List.pairwise_of_forall_mem_list fun d hd d' hd' => ?_
    have h := (List.mem_filter.mp hd).2
    have h' := (List.mem_filter.mp hd').2
    simp only [decide_eq_true_eq] at h h' ⊢
    omega
  have hsub : (fromSource ds v).Sublist (Sorting.stable.sort ds) :=
    List.sublist_mergeSort (by simp; omega) (by simp; omega) hpair List.filter_sublist
  have hsub' : (fromSource ds v).Sublist (fromSource (Sorting.stable.sort ds) v) := by
    have := hsub.filter (·.source = v)
    simpa only [fromSource, List.filter_filter, Bool.and_self] using this
  refine (hsub'.eq_of_length ?_).symm
  exact ((Sorting.stable.perm ds).filter _).length_eq.symm

/-- The departures from a vertex are its new elements. -/
theorem elements_fromSource (hne : ∀ l ∈ links, l.1.1 ≠ l.1.2) :
    (fromSource (departures n links) v).map (·.element) = newAt n links v := by
  rw [fromSource, departures, List.filter_flatMap, List.map_flatMap, newAt]
  refine List.flatMap_congr fun l hl => ?_
  have := hne l hl
  rw [leaving]
  by_cases hu : v = l.1.1
  · simp [hu, this.symm, elementsOfPair]
  · by_cases hw : v = l.1.2
    · simp [hw, this, this.symm, elementsOfPair]
    · simp [hu, hw, Ne.symm hu, Ne.symm hw, elementsOfPair]

theorem mem_sources_departures (hne : ∀ l ∈ links, l.1.1 ≠ l.1.2) :
    v ∈ sources (departures n links) ↔ newAt n links v ≠ [] := by
  rw [mem_sources, ← elements_fromSource hne, Ne, Ne, List.map_eq_nil_iff]

/-- The elements by which new edges leave vertex `w`, as a sorting leaves them. -/
def Sorting.newAt (σ : Sorting) (n : Nat) (links : List ((Nat × Nat) × Nat)) (w : Nat) : List Nat :=
  (fromSource (σ.sort (departures n links)) w).map (·.element)

theorem Sorting.shuffled (σ : Sorting) (hne : ∀ l ∈ links, l.1.1 ≠ l.1.2) : Shuffled n links (σ.newAt n links) := by
  intro w
  rw [← elements_fromSource hne]
  exact ((σ.perm _).filter _).map _

/-- A stable sorting leaves the new elements at a vertex in the order of the batch. -/
theorem Sorting.newAt_stable (hne : ∀ l ∈ links, l.1.1 ≠ l.1.2) : Sorting.stable.newAt n links = TourForest.newAt n links := by
  funext w
  rw [← elements_fromSource hne]
  exact congrArg (List.map _) (fromSource_stable _ w)

/-! ## Chains -/

theorem chain_eq (he : ∀ e ∈ es, n ≤ e ∧ e < maxWord) :
    chain n l (some r) es = .ok ((chainPairs n l r es).map SkipList.seam) := by
  induction es generalizing l with
  | nil => rfl
  | cons e es ih =>
    obtain ⟨⟨hle, hlt⟩, hes⟩ := List.forall_mem_cons.mp he
    rw [chain, twin_eq hle hlt, ok_bind, ih hes]
    rfl

/-- The chains of all groups are the seams of the new elements. -/
theorem chains_eq {c : Nat → Nat} (hu : ∀ v ∈ us, fromSource ds v ≠ [])
    (he : ∀ d ∈ ds, n ≤ d.element ∧ d.element < maxWord) :
    chains n (us.map fun v => (fromSource ds v, some (c v))) = .ok
      ((us.flatMap fun v => chainPairs n v (c v) ((fromSource ds v).map (·.element))).map SkipList.seam) := by
  induction us with
  | nil => rfl
  | cons u us ih =>
    obtain ⟨hne, hu⟩ := List.forall_mem_cons.mp hu
    obtain ⟨d, t, hd⟩ := List.exists_cons_of_ne_nil hne
    have hsource : d.source = u := by
      have hm : d ∈ fromSource ds u := hd ▸ List.mem_cons_self
      simpa using (List.mem_filter.mp hm).2
    have helem : ∀ e ∈ (d :: t).map (·.element), n ≤ e ∧ e < maxWord := by
      intro e hm
      obtain ⟨d', hd', rfl⟩ := List.mem_map.mp hm
      rw [← hd] at hd'
      exact he d' (List.mem_filter.mp hd').1
    rw [List.map_cons, hd, chains, hsource, chain_eq helem, ok_bind, ih hu, ok_bind, List.flatMap_cons, hd,
      List.map_append]
    rfl

end Forest

end TourForest
