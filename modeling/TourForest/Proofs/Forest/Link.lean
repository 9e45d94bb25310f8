import TourForest.Proofs.Forest.Chains
import TourForest.Proofs.Forest.Enter
import TourForest.Proofs.Forest.Refines

/-!
# Adding edges

An edge that is added goes first into the rings of its ends. A batch that is done all at once leaves the
rotation with all its edges sewn in, at each vertex in the order in which its departures have been sorted; one
edge at a time, the last edge comes first. Both need the new graph to be a forest, for which there are always
enough free pairs.

* `Toured.attach`, `Toured.linkEach`, `Toured.linkTogether`: what has been done if the operation answers, whatever the
  number of vertices;
* `Refines.attach`, `Refines.linkEach`, `Refines.linkTogether`: the operation answers.
-/

namespace TourForest.Forest

variable {f f' : Forest} {rot : Nat → List Nat} {E : Finset (Sym2 Nat)} {links : List ((Nat × Nat) × Nat)}
  {u v p : Nat} {rest : List Nat} {r : Except Refusal Unit} {σ : Sorting}

/-- A graph without cycles has fewer edges than vertices. -/
theorem card_le_of_isAcyclic {n : Nat} (hE : ∀ u v, s(u, v) ∈ E → u < n ∧ v < n ∧ u ≠ v)
    (hac : (graph E).IsAcyclic) : E.card ≤ n - 1 := by
  classical
  rcases n with _ | n
  · have hnil : E = ∅ := Finset.eq_empty_of_forall_notMem fun d => by
      induction d with
      | _ u v => exact fun hd => absurd (hE u v hd).1 (Nat.not_lt_zero u)
    simp [hnil]
  · -- Some spanning tree of all vertices has these edges and more.
    obtain ⟨T, hle, -, hT⟩ := (SimpleGraph.connected_top : (⊤ : SimpleGraph (Fin (n + 1))).Connected)
      |>.exists_isTree_le_of_le_of_isAcyclic le_top (hac.of_comap Fin.valEmbedding)
    have hcard := hT.card_edgeFinset
    rw [Fintype.card_fin, Nat.add_right_cancel_iff] at hcard
    have hsub : E ⊆ T.edgeFinset.image (Sym2.map Fin.val) := fun d => by
      induction d with
      | _ u v =>
        intro hd
        obtain ⟨hu, hv, hne⟩ := hE u v hd
        have hadj : T.Adj ⟨u, hu⟩ ⟨v, hv⟩ := hle (SimpleGraph.fromEdgeSet_adj _ |>.mpr ⟨hd, hne⟩)
        exact Finset.mem_image.mpr ⟨s(⟨u, hu⟩, ⟨v, hv⟩), SimpleGraph.mem_edgeFinset.mpr hadj, rfl⟩
    calc E.card ≤ (T.edgeFinset.image (Sym2.map Fin.val)).card := Finset.card_le_card hsub
      _ ≤ T.edgeFinset.card := Finset.card_image_le
      _ = n + 1 - 1 := hcard

theorem graph_insert (E : Finset (Sym2 Nat)) (u v : Nat) :
    graph (insert s(u, v) E) = graph E ⊔ SimpleGraph.edge u v := by
  ext a b
  simp only [graph, SimpleGraph.fromEdgeSet_adj, SimpleGraph.sup_adj, SimpleGraph.edge_adj, Finset.mem_coe,
    Finset.mem_insert, Sym2.eq_iff]
  tauto

/-- New edges that leave a forest when they are added to the edges `E`. -/
structure Grows (E : Finset (Sym2 Nat)) (links : List (Nat × Nat)) : Prop where
  loopless : ∀ l ∈ links, l.1 ≠ l.2
  new : ∀ l ∈ links, s(l.1, l.2) ∉ E
  nodup : (links.map fun l => s(l.1, l.2)).Nodup
  acyclic : (graph (E ∪ edgeSet links)).IsAcyclic

/-- An edge between two trees is new. -/
theorem new_of_not_reachable (hr : ¬ (graph E).Reachable u v) : u ≠ v ∧ s(u, v) ∉ E := by
  have huv : u ≠ v := fun he => hr (he ▸ .rfl)
  exact ⟨huv, fun hE => hr (adj_of_mem hE huv).reachable⟩

theorem grows_singleton (hac : (graph E).IsAcyclic) (hr : ¬ (graph E).Reachable u v) : Grows E [(u, v)] := by
  obtain ⟨huv, hE⟩ := new_of_not_reachable hr
  refine ⟨by simpa using huv, by simpa using hE, by simp, ?_⟩
  rw [edgeSet_cons, edgeSet_nil, Finset.union_insert, Finset.union_empty, graph_insert]
  exact hac.sup_edge_of_not_reachable hr

/-- There are enough free pairs for a batch that leaves a forest. -/
theorem Ledger.length_le_of_grows {n : Nat} {edges : EdgeIndex} {free : List Nat} (h : Ledger n edges free rot E)
    {links : List (Nat × Nat)} (hlt : ∀ l ∈ links, l.1 < n ∧ l.2 < n) (hg : Grows E links) :
    links.length ≤ free.length := by
  have hcard : (E ∪ edgeSet links).card ≤ n - 1 := by
    refine card_le_of_isAcyclic (fun a b hab => ?_) hg.acyclic
    rcases Finset.mem_union.mp hab with hE | hab
    · exact h.lt_of_mem hE
    · obtain ⟨l, hl, heq⟩ := mem_edgeSet.mp hab
      obtain ⟨hu, hv⟩ := hlt l hl
      rcases Sym2.eq_iff.mp heq with ⟨rfl, rfl⟩ | ⟨rfl, rfl⟩
      · exact ⟨hu, hv, hg.loopless l hl⟩
      · exact ⟨hv, hu, (hg.loopless l hl).symm⟩
  rw [card_union_edgeSet hg.nodup hg.new] at hcard
  have := h.free_length
  omega

/-- The steps of adding an edge, when all of them succeed. -/
theorem attach_eq {edges : EdgeIndex} {b : Bool} {tours₁ tours : SumList} {uNext vNext : Option Nat}
    (hedges : f.edges.insert u v (f.vertices + 2 * p) = .ok (.ok b, edges))
    (hsplit : f.tours.splitAll [some u, some v] = .ok ([uNext, vNext], tours₁))
    (hjoin : tours₁.joinAll [(some u, some (f.vertices + 2 * p)), (some (f.vertices + 2 * p), vNext),
      (some v, some (f.vertices + 2 * p + 1)), (some (f.vertices + 2 * p + 1), uNext)] = .ok tours) :
    f.attach u v p = .ok (.ok (), { f with edges, tours }) := by
  simp only [attach, elementsOfPair, hedges, ok_bind, hsplit]
  exact bind_eq_ok.mpr ⟨tours, hjoin, rfl⟩

/-- What stays as it is when edges come and go. -/
structure SameSetup (f f' : Forest) : Prop where
  vertices : f'.vertices = f.vertices
  settings : f'.settings = f.settings
  layout : f'.tours.layout = f.tours.layout

theorem SameSetup.refl (f : Forest) : f.SameSetup f := ⟨rfl, rfl, rfl⟩

theorem SameSetup.trans {f'' : Forest} (h : f.SameSetup f') (h' : f'.SameSetup f'') : f.SameSetup f'' :=
  ⟨h'.vertices.trans h.vertices, h'.settings.trans h.settings, h'.layout.trans h.layout⟩

namespace Toured

/-- The forest with new edges is toured along the larger rotation, in whatever order the new edges come at each
vertex. -/
theorem grafted (h : f.Toured rot E) {news : Nat → List Nat} (hf : Fits f.vertices E rot links)
    (hs : Shuffled f.vertices links news) (hac : (graph (E ∪ edgeSet (links.map Prod.fst))).IsAcyclic)
    (hfree : (links.map Prod.snd ++ rest).Perm f.freePairs) {edges : EdgeIndex} {tours : SumList} {us : List Nat}
    (hi : edges.Indexes f.vertices (Leads f.vertices (graft f.vertices links rot))) (hus : ∀ u ∈ us, u < f.vertices)
    (hr : f.tours.Resewn tours (Follows f.vertices (sewIn news rot)) us []) :
    ({ f with edges, tours, freePairs := rest } : Forest).Toured (sewIn news rot)
      (E ∪ edgeSet (links.map Prod.fst)) :=
  h.resewn ((h.toLedger.grafted hf hfree hi).perm (hs.sewIn_perm rot)) hac hr (fun u hu => h.exists_next (hus u hu))
    (by simp) fun _ hp => .inl (hfree.subset (List.mem_append_right _ hp))

/-! ## One edge -/

/-- The seams of one new edge are a pattern for the larger rotation. -/
theorem pattern_link (h : f.Toured rot E) (hf : Fits f.vertices E rot [((u, v), p)]) {cu cv : Nat}
    (hcu : f.tours.list.nextAt u 0 = some cu) (hcv : f.tours.list.nextAt v 0 = some cv) :
    f.tours.list.Pattern (Follows f.vertices (graft f.vertices [((u, v), p)] rot)) [u, v]
      [(u, f.vertices + 2 * p), (f.vertices + 2 * p, cv), (v, f.vertices + 2 * p + 1),
        (f.vertices + 2 * p + 1, cu)] := by
  have huv : u ≠ v := hf.loopless ((u, v), p) (List.mem_singleton_self _)
  refine hf.pattern_of_perm h.rotation (.refl _ _) h.size h.next_iff (by simpa using huv) (fun w => ?_)
    (c := fun w => if w = u then cu else cv) (by simp [hcu, hcv, huv.symm]) ?_
  · by_cases hwu : w = u
    · simp [newAt, leaving, hwu]
    · by_cases hwv : w = v <;> simp [newAt, leaving, hwu, hwv, huv.symm]
  · -- Apart from the first, the seams are those of the two chains backwards.
    have hrev := List.reverse_perm [(f.vertices + 2 * p + 1, cu), (v, f.vertices + 2 * p + 1),
      (f.vertices + 2 * p, cv)]
    simpa [newAt, leaving, huv.symm, chainPairs] using hrev

/-- An edge between two trees, with the first free pair, is added if the sums allow it. -/
theorem attach (h : f.Toured rot E) (hfree : f.freePairs = p :: rest) (hu : u < f.vertices) (hv : v < f.vertices)
    (hr : ¬ (graph E).Reachable u v) (hok : ({ f with freePairs := rest } : Forest).attach u v p = .ok (r, f')) :
    r = .ok () ∧ f'.Toured (graft f.vertices [((u, v), p)] rot) (insert s(u, v) E) ∧ f'.freePairs = rest ∧
      f.SameSetup f' := by
  have hp : p ∈ f.freePairs := hfree ▸ List.mem_cons_self
  obtain ⟨huv, hE⟩ := new_of_not_reachable hr
  have hf := h.fits_one hp hu hv huv hE
  obtain ⟨edges, hedges, hi⟩ := h.insert_eq hp hf
  obtain ⟨cu, hcu⟩ := h.exists_next hu
  obtain ⟨cv, hcv⟩ := h.exists_next hv
  have hpattern := h.pattern_link hf hcu hcv
  simp only [Forest.attach, elementsOfPair, hedges, ok_bind] at hok
  obtain ⟨⟨after, tours₁⟩, hsplit, hok⟩ := bind_eq_ok.mp hok
  obtain ⟨tours, hjoin, hok⟩ := bind_eq_ok.mp hok
  cases hok
  obtain ⟨rfl, -⟩ := SumList.splitAt_of_ok h.woven hpattern.points_lt hsplit
  rw [SkipList.answers_of_nodup (by simpa using huv), List.map_cons, List.map_singleton, hcu, hcv] at hjoin
  have hresewn := SumList.resewn_of_ok h.woven hpattern (List.nil_subset _) (by simp) hsplit hjoin
  have hac := (grows_singleton h.acyclic hr).acyclic
  have ht : ({ f with edges, tours, freePairs := rest } : Forest).Toured (graft f.vertices [((u, v), p)] rot) _ :=
    h.grafted hf (.refl _ _) hac (by rw [hfree]; rfl) hi (by simp [hu, hv]) hresewn
  exact ⟨rfl, by simpa using ht, rfl, rfl, rfl, hresewn.layout⟩

end Toured

namespace Refines

/-- An edge between two trees, with the first free pair, is added. -/
theorem attach (h : f.Refines rot E) (hfree : f.freePairs = p :: rest) (hu : u < f.vertices) (hv : v < f.vertices)
    (hr : ¬ (graph E).Reachable u v) :
    ∃ f', ({ f with freePairs := rest } : Forest).attach u v p = .ok (.ok (), f') ∧
      f'.Refines (graft f.vertices [((u, v), p)] rot) (insert s(u, v) E) ∧ f'.freePairs = rest ∧
      f.SameSetup f' := by
  have hp : p ∈ f.freePairs := hfree ▸ List.mem_cons_self
  obtain ⟨huv, hE⟩ := new_of_not_reachable hr
  have hf := h.fits_one hp hu hv huv hE
  obtain ⟨edges, hedges, -⟩ := h.insert_eq hp hf
  obtain ⟨cu, hcu⟩ := h.exists_next hu
  obtain ⟨cv, hcv⟩ := h.exists_next hv
  have hpattern := h.pattern_link hf hcu hcv
  obtain ⟨after, tours₁, tours, hsplit, hjoin, hsound⟩ := h.sound.splice h.bounded hpattern
  obtain ⟨rfl, -⟩ := SumList.splitAt_of_ok h.woven hpattern.points_lt hsplit
  simp only [SkipList.answers_of_nodup (show [u, v].Nodup by simpa using huv), List.map_cons, List.map_nil, hcu, hcv]
    at hsplit
  have hok := attach_eq (f := { f with freePairs := rest }) hedges hsplit hjoin
  obtain ⟨-, ht, hrest, hsame⟩ := h.toToured.attach hfree hu hv hr hok
  exact ⟨_, hok, ⟨ht, h.small, hsound⟩, hrest, hsame⟩

end Refines

theorem outcome_link_of_nil (hfree : f.freePairs = []) :
    (f.link u v).outcome = .ok (.error (.noFreePairs 1 0), f) := by
  rw [link]
  simp only [hfree]
  rfl

theorem outcome_link_of_cons (hfree : f.freePairs = p :: rest) :
    (f.link u v).outcome = f.connected u v >>= fun c =>
      if c then .error (.closesCycle u v) else ({ f with freePairs := rest } : Forest).attach u v p := by
  rw [link]
  simp only [hfree, Traced.outcome_bind, Traced.outcome_liftM]
  refine bind_congr fun c => ?_
  cases c <;> simp

namespace Toured

/-- There is a free pair for an edge between two trees. -/
theorem exists_free (h : f.Toured rot E) (hu : u < f.vertices) (hv : v < f.vertices)
    (hr : ¬ (graph E).Reachable u v) : f.freePairs ≠ [] := by
  have := h.length_le_of_grows (by simpa using ⟨hu, hv⟩) (grows_singleton h.acyclic hr)
  exact List.ne_nil_of_length_pos this

open Classical in
/-- What adding one edge comes to. -/
theorem outcome_link (h : f.Toured rot E) (hu : u < f.vertices) (hv : v < f.vertices) :
    (f.freePairs = [] ∧ (f.link u v).outcome = .ok (.error (.noFreePairs 1 0), f)) ∨
    (f.freePairs ≠ [] ∧ (graph E).Reachable u v ∧ (f.link u v).outcome = .error (.closesCycle u v)) ∨
    ∃ p rest, f.freePairs = p :: rest ∧ ¬ (graph E).Reachable u v ∧
      (f.link u v).outcome = ({ f with freePairs := rest } : Forest).attach u v p := by
  rcases hfree : f.freePairs with _ | ⟨p, rest⟩
  · exact .inl ⟨rfl, outcome_link_of_nil hfree⟩
  · rw [outcome_link_of_cons hfree, h.connected_eq hu hv, ok_bind]
    by_cases hr : (graph E).Reachable u v
    · exact .inr (.inl ⟨List.cons_ne_nil _ _, hr, by rw [if_pos (by simpa using hr)]⟩)
    · exact .inr (.inr ⟨p, rest, rfl, hr, by rw [if_neg (by simpa using hr)]⟩)

/-- An edge that has come in joins two trees, under the first free pair. It is refused if there is none. -/
theorem link (h : f.Toured rot E) (hu : u < f.vertices) (hv : v < f.vertices)
    (hok : (f.link u v).outcome = .ok (r, f')) :
    (f.freePairs = [] ∧ r = .error (.noFreePairs 1 0) ∧ f' = f) ∨
    ∃ p rest, f.freePairs = p :: rest ∧ ¬ (graph E).Reachable u v ∧ r = .ok () ∧
      f'.Toured (graft f.vertices [((u, v), p)] rot) (insert s(u, v) E) ∧ f'.freePairs = rest ∧ f.SameSetup f' := by
  rcases h.outcome_link hu hv with ⟨hnil, hout⟩ | ⟨-, -, hout⟩ | ⟨p, rest, hfree, hr, hout⟩ <;> rw [hout] at hok
  · cases hok
    exact .inl ⟨hnil, rfl, rfl⟩
  · cases hok
  · exact .inr ⟨p, rest, hfree, hr, h.attach hfree hu hv hr hok⟩

end Toured

/-- What adding one edge comes to. -/
theorem Refines.outcome_link (h : f.Refines rot E) (hu : u < f.vertices) (hv : v < f.vertices) :
    (f.freePairs = [] ∧ (f.link u v).outcome = .ok (.error (.noFreePairs 1 0), f)) ∨
    (f.freePairs ≠ [] ∧ (graph E).Reachable u v ∧ (f.link u v).outcome = .error (.closesCycle u v)) ∨
    ∃ p rest f', f.freePairs = p :: rest ∧ ¬ (graph E).Reachable u v ∧ (f.link u v).outcome = .ok (.ok (), f') ∧
      f'.Refines (graft f.vertices [((u, v), p)] rot) (insert s(u, v) E) ∧ f'.freePairs = rest ∧
      f.SameSetup f' := by
  refine (h.toToured.outcome_link hu hv).imp_right (.imp_right fun ⟨p, rest, hfree, hr, hout⟩ => ?_)
  obtain ⟨f', hok, href⟩ := h.attach hfree hu hv hr
  exact ⟨p, rest, f', hfree, hr, hout.trans hok, href⟩

/-! ## One edge after the other -/

theorem grows_cons {links : List (Nat × Nat)} : Grows E ((u, v) :: links) ↔
    u ≠ v ∧ s(u, v) ∉ E ∧ Grows (insert s(u, v) E) links := by
  have hunion : E ∪ edgeSet ((u, v) :: links) = insert s(u, v) E ∪ edgeSet links := by
    rw [edgeSet_cons, Finset.union_insert, Finset.insert_union]
  constructor
  · rintro ⟨hl, hn, hd, ha⟩
    obtain ⟨huv, hl⟩ := List.forall_mem_cons.mp hl
    obtain ⟨hE, hn⟩ := List.forall_mem_cons.mp hn
    obtain ⟨hnot, hd⟩ := List.nodup_cons.mp hd
    refine ⟨huv, hE, hl, fun l hm hmem => ?_, hd, hunion ▸ ha⟩
    rcases Finset.mem_insert.mp hmem with he | hmem
    · exact hnot (List.mem_map.mpr ⟨l, hm, he⟩)
    · exact hn l hm hmem
  · rintro ⟨huv, hE, hl, hn, hd, ha⟩
    refine ⟨List.forall_mem_cons.mpr ⟨huv, hl⟩, List.forall_mem_cons.mpr ⟨hE, fun l hm hmem => ?_⟩,
      List.nodup_cons.mpr ⟨fun hm => ?_, hd⟩, hunion ▸ ha⟩
    · exact hn l hm (Finset.mem_insert_of_mem hmem)
    · obtain ⟨l, hm, he⟩ := List.mem_map.mp hm
      exact hn l hm (he ▸ Finset.mem_insert_self _ _)

/-- The ends of an edge that can be added to a forest are in different trees. -/
theorem Grows.not_reachable {links : List (Nat × Nat)} (h : Grows E ((u, v) :: links)) :
    ¬ (graph E).Reachable u v := by
  obtain ⟨huv, hE, hg⟩ := grows_cons.mp h
  have hsub : (graph (insert s(u, v) E)).IsAcyclic := by
    refine hg.acyclic.anti (SimpleGraph.fromEdgeSet_mono ?_)
    exact Finset.coe_subset.mpr Finset.subset_union_left
  rw [graph_insert, SimpleGraph.isAcyclic_sup_fromEdgeSet_iff] at hsub
  intro hr
  rcases hsub.2 hr with he | hadj
  · exact huv he
  · exact hE (SimpleGraph.fromEdgeSet_adj _ |>.mp hadj).1

namespace Toured

/-- Edges that have come in one after the other lead to the larger forest, under the first free pairs. -/
theorem linkEach : ∀ (links : List (Nat × Nat)) {f : Forest} {rot : Nat → List Nat} {E : Finset (Sym2 Nat)},
    f.Toured rot E → (∀ l ∈ links, l.1 < f.vertices ∧ l.2 < f.vertices) → links.length ≤ f.freePairs.length →
    (f.linkEach links).outcome = .ok (r, f') →
    r = .ok () ∧ Grows E links ∧
      f'.Toured (graft f.vertices (links.zip (f.freePairs.take links.length)).reverse rot) (E ∪ edgeSet links) ∧
      f'.freePairs = f.freePairs.drop links.length ∧ f.SameSetup f' := by
  intro links
  induction links with
  | nil =>
    intro f rot E h _ _ hok
    cases hok
    exact ⟨rfl, ⟨by simp, by simp, by simp, by simpa using h.acyclic⟩, by simpa [graft_nil] using h, rfl, .refl _⟩
  | cons l links ih =>
    obtain ⟨u, v⟩ := l
    intro f rot E h hlt hk hok
    obtain ⟨⟨hu, hv⟩, hlt⟩ := List.forall_mem_cons.mp hlt
    rw [Forest.linkEach, Traced.outcome_bind] at hok
    obtain ⟨⟨r₁, f₁⟩, hok₁, hok⟩ := bind_eq_ok.mp hok
    rcases h.link hu hv hok₁ with ⟨hnil, -⟩ | ⟨p, rest, hfree, hr, rfl, h₁, hfree₁, hsame₁⟩
    · simp [hnil] at hk
    · obtain ⟨huv, hE⟩ := new_of_not_reachable hr
      rw [hfree, List.length_cons, List.length_cons, Nat.add_le_add_iff_right, ← hfree₁] at hk
      obtain ⟨hr', hg, h', hfree', hsame'⟩ := ih h₁ (hsame₁.vertices ▸ hlt) hk hok
      refine ⟨hr', grows_cons.mpr ⟨huv, hE, hg⟩, ?_, ?_, hsame₁.trans hsame'⟩
      · rw [hfree, List.length_cons, List.take_succ_cons, List.zip_cons_cons, List.reverse_cons, graft_append,
          edgeSet_cons, Finset.union_insert, ← Finset.insert_union, ← hfree₁, ← hsame₁.vertices]
        exact hsame₁.vertices ▸ h'
      · rw [hfree', hfree₁, hfree]
        rfl

end Toured

/-- Adding edges one after the other either leads to the larger forest or to a fault. -/
theorem Refines.outcome_linkEach : ∀ (links : List (Nat × Nat)) {f : Forest} {rot : Nat → List Nat}
    {E : Finset (Sym2 Nat)}, f.Refines rot E → (∀ l ∈ links, l.1 < f.vertices ∧ l.2 < f.vertices) →
    links.length ≤ f.freePairs.length →
    (¬ Grows E links ∧ ∃ fault, (f.linkEach links).outcome = .error fault) ∨
    (Grows E links ∧ ∃ f', (f.linkEach links).outcome = .ok (.ok (), f') ∧
      f'.Refines (graft f.vertices (links.zip (f.freePairs.take links.length)).reverse rot) (E ∪ edgeSet links) ∧
      f'.freePairs = f.freePairs.drop links.length ∧ f.SameSetup f') := by
  intro links f rot E h hlt hk
  -- That the sums stay right goes from step to step; everything else is known of every answer.
  have hstep : (¬ Grows E links ∧ ∃ fault, (f.linkEach links).outcome = .error fault) ∨
      ∃ f', (f.linkEach links).outcome = .ok (.ok (), f') ∧ f'.tours.Sound := by
    induction links generalizing f rot E with
    | nil => exact .inr ⟨f, rfl, h.sound⟩
    | cons l links ih =>
      obtain ⟨u, v⟩ := l
      obtain ⟨⟨hu, hv⟩, hlt⟩ := List.forall_mem_cons.mp hlt
      rw [linkEach, Traced.outcome_bind]
      rcases h.outcome_link hu hv with ⟨hnil, -⟩ | ⟨-, hr, hout⟩ | ⟨p, rest, f₁, hfree, -, hout, h₁, hfree₁, hsame₁⟩
      · simp [hnil] at hk
      · rw [hout]
        exact .inl ⟨fun hg => hg.not_reachable hr, _, rfl⟩
      · rw [hfree, List.length_cons, List.length_cons, Nat.add_le_add_iff_right, ← hfree₁] at hk
        rw [hout, ok_bind]
        exact (ih h₁ (hsame₁.vertices ▸ hlt) hk).imp_left (.imp_left fun hng hg => hng (grows_cons.mp hg).2.2)
  refine hstep.imp_right ?_
  rintro ⟨f', hok, hsound⟩
  obtain ⟨-, hg, h', hfree', hsame⟩ := h.toToured.linkEach links hlt hk hok
  exact ⟨hg, f', hok, ⟨h', hsame.vertices ▸ h.small, hsound⟩, hfree', hsame⟩

/-! ## All at once -/

/-- The steps of adding several edges at once, when all of them succeed. -/
theorem linkTogether_eq {links : List (Nat × Nat)} {paired : List ((Nat × Nat) × Nat)}
    (hpaired : links.zip (f.freePairs.take links.length).reverse = paired) {edges : EdgeIndex}
    {after : List (Option Nat)} {seams : List Seam} {tours₁ tours : SumList}
    (henter : enter f.vertices f.edges paired = .ok (.ok (), edges))
    (hsplit : f.tours.splitAll ((bySource σ (departures f.vertices paired)).map fun ds => ds.head?.map (·.source)) =
      .ok (after, tours₁))
    (hchains : chains f.vertices ((bySource σ (departures f.vertices paired)).zip after) = .ok seams)
    (hjoin : tours₁.joinAll seams = .ok tours) :
    f.linkTogether σ links =
      .ok (.ok (), { f with edges, freePairs := f.freePairs.drop links.length, tours }) := by
  simp only [linkTogether, hpaired, henter, ok_bind, hsplit, hchains, hjoin]
  rfl

theorem linkTogether_fault {links : List (Nat × Nat)} {fault : Fault}
    (henter : enter f.vertices f.edges (links.zip (f.freePairs.take links.length).reverse) = .error fault) :
    f.linkTogether σ links = .error fault := by
  simp only [linkTogether, henter]
  rfl

theorem fits_of_grows {n : Nat} {paired : List ((Nat × Nat) × Nat)} (hs : Supplied n rot paired)
    {links : List (Nat × Nat)} (hfst : paired.map Prod.fst = links) (hg : Grows E links) :
    Fits n E rot paired := by
  subst hfst
  refine ⟨hs, fun l hl => hg.loopless _ (List.mem_map_of_mem hl), fun l hl => hg.new _ (List.mem_map_of_mem hl),
    ?_⟩
  have := hg.nodup
  rwa [List.map_map] at this

theorem grows_of_fits {n : Nat} {paired : List ((Nat × Nat) × Nat)} (hf : Fits n E rot paired)
    {links : List (Nat × Nat)} (hfst : paired.map Prod.fst = links)
    (hac : (graph (E ∪ edgeSet links)).IsAcyclic) : Grows E links := by
  subst hfst
  refine ⟨List.forall_mem_map.mpr hf.loopless, List.forall_mem_map.mpr hf.new, ?_, hac⟩
  rw [List.map_map]
  exact hf.edges_nodup

/-- The seams of new edges, vertex by vertex. -/
def linkSeams (f : Forest) (σ : Sorting) (links : List ((Nat × Nat) × Nat)) : List (Nat × Nat) :=
  (sources (departures f.vertices links)).flatMap fun v =>
    chainPairs f.vertices v ((f.tours.list.nextAt v 0).getD 0) (σ.newAt f.vertices links v)

namespace Toured

/-- What is behind the vertices at which edges are new. -/
theorem next_of_mem_sources (h : f.Toured rot E) (hf : Fits f.vertices E rot links)
    (hv : v ∈ sources (departures f.vertices links)) :
    v < f.vertices ∧ f.tours.list.nextAt v 0 = some ((f.tours.list.nextAt v 0).getD 0) := by
  have hlt : v < f.vertices := hf.lt_of_newAt ((mem_sources_departures hf.loopless).mp hv)
  obtain ⟨c, hc⟩ := h.exists_next hlt
  rw [hc]
  exact ⟨hlt, rfl⟩

/-- The seams of new edges are a pattern for the larger rotation. -/
theorem pattern_links (h : f.Toured rot E) (hf : Fits f.vertices E rot links) (σ : Sorting) :
    f.tours.list.Pattern (Follows f.vertices (sewIn (σ.newAt f.vertices links) rot))
      (sources (departures f.vertices links)) (f.linkSeams σ links) := by
  have hs := σ.shuffled (n := f.vertices) hf.loopless
  exact hf.pattern_of_perm h.rotation hs h.size h.next_iff (nodup_sources _)
    (fun v => (mem_sources_departures hf.loopless).trans hs.ne_nil_iff.symm)
    (fun v hv => (h.next_of_mem_sources hf hv).2) (.refl _)

/-- They are made from the answers of the splits. -/
theorem chains_links (h : f.Toured rot E) (hf : Fits f.vertices E rot links) (σ : Sorting) :
    chains f.vertices ((bySource σ (departures f.vertices links)).zip
      (f.tours.list.answers (sources (departures f.vertices links)))) = .ok ((f.linkSeams σ links).map SkipList.seam) := by
  rw [SkipList.answers_of_nodup (nodup_sources _), bySource_eq, List.zip_map']
  have hzip : ((sources (departures f.vertices links)).map fun v =>
        (fromSource (σ.sort (departures f.vertices links)) v, f.tours.list.nextAt v 0)) =
      (sources (departures f.vertices links)).map fun v =>
        (fromSource (σ.sort (departures f.vertices links)) v, some ((f.tours.list.nextAt v 0).getD 0)) :=
    List.map_congr_left fun v hv => Prod.ext rfl (h.next_of_mem_sources hf hv).2
  rw [hzip, chains_eq (fun v => mem_sources_iff_sort.mp) fun d hd => ?_]
  · rfl
  · -- New elements are in the range of the arena.
    have hnew : d.element ∈ newAt f.vertices links d.source := by
      rw [← elements_fromSource hf.loopless]
      exact List.mem_map_of_mem (List.mem_filter.mpr ⟨(σ.perm _).mem_iff.mp hd, by simp⟩)
    have hmax := ((h.rotation.graft hf).range d.source _ (mem_graft.mpr (.inl hnew))).2.2
    have hfew := h.few
    refine ⟨(hf.not_mem_rot h.rotation hnew 0).1, ?_⟩
    unfold arenaSize at hmax
    unfold maxWord
    omega

/-- Edges that have come in all at once lead to the larger forest, if that is one. -/
theorem linkTogether (h : f.Toured rot E) {links : List (Nat × Nat)}
    (hlt : ∀ l ∈ links, l.1 < f.vertices ∧ l.2 < f.vertices) (hk : links.length ≤ f.freePairs.length)
    (hok : f.linkTogether σ links = .ok (r, f')) :
    r = .ok () ∧ f'.freePairs = f.freePairs.drop links.length ∧ f.SameSetup f' ∧
      ((graph (E ∪ edgeSet links)).IsAcyclic → Grows E links ∧
        f'.Toured (sewIn (σ.newAt f.vertices (links.zip (f.freePairs.take links.length).reverse)) rot)
          (E ∪ edgeSet links)) := by
  obtain ⟨paired, hpaired, hfst, hfree, -, henter⟩ := h.entered hlt hk
  simp only [Forest.linkTogether, hpaired] at hok ⊢
  rcases henter with ⟨hf, edges, henter, hi⟩ | ⟨hf, fault, henter⟩
  · simp only [henter, ok_bind, heads_bySource] at hok
    obtain ⟨⟨after, tours₁⟩, hsplit, hok⟩ := bind_eq_ok.mp hok
    have hpattern := h.pattern_links hf σ
    obtain ⟨rfl, -⟩ := SumList.splitAt_of_ok h.woven hpattern.points_lt hsplit
    simp only [h.chains_links hf σ, ok_bind] at hok
    obtain ⟨tours, hjoin, hok⟩ := bind_eq_ok.mp hok
    cases hok
    have hresewn := SumList.resewn_of_ok h.woven hpattern (List.nil_subset _) (by simp) hsplit hjoin
    refine ⟨rfl, rfl, ⟨rfl, rfl, hresewn.layout⟩, fun hac => ⟨grows_of_fits hf hfst hac, ?_⟩⟩
    rw [← hfst] at hac ⊢
    exact h.grafted hf (σ.shuffled hf.loopless) hac (hfst ▸ hfree) hi
      (fun v hv => (h.next_of_mem_sources hf hv).1) hresewn
  · rw [henter] at hok
    cases hok

end Toured

namespace Refines

/-- Adding several edges at once is done, or leads to a fault. If the new graph has no cycles, it is done if
and only if the edges are new, different and no loops. -/
theorem outcome_linkTogether (h : f.Refines rot E) (σ : Sorting) {links : List (Nat × Nat)}
    (hlt : ∀ l ∈ links, l.1 < f.vertices ∧ l.2 < f.vertices) (hk : links.length ≤ f.freePairs.length) :
    (¬ Grows E links ∧ ∃ fault, f.linkTogether σ links = .error fault) ∨
    ∃ f', f.linkTogether σ links = .ok (.ok (), f') ∧ f'.freePairs = f.freePairs.drop links.length ∧
      f.SameSetup f' ∧ ((graph (E ∪ edgeSet links)).IsAcyclic → Grows E links ∧
        f'.Refines (sewIn (σ.newAt f.vertices (links.zip (f.freePairs.take links.length).reverse)) rot)
          (E ∪ edgeSet links)) := by
  obtain ⟨paired, hpaired, hfst, -, hs, henter⟩ := h.entered hlt hk
  rcases henter with ⟨hf, edges, henter, -⟩ | ⟨hf, fault, henter⟩
  · obtain ⟨after, tours₁, tours, hsplit, hjoin, hsound⟩ := h.sound.splice h.bounded (h.pattern_links hf σ)
    obtain ⟨rfl, -⟩ := SumList.splitAt_of_ok h.woven (h.pattern_links hf σ).points_lt hsplit
    have hok := linkTogether_eq hpaired henter ((heads_bySource σ _).symm ▸ hsplit) (h.chains_links hf σ) hjoin
    obtain ⟨-, hfree, hsame, hgrown⟩ := h.toToured.linkTogether hlt hk hok
    exact .inr ⟨_, hok, hfree, hsame, fun hac => ⟨(hgrown hac).1, (hgrown hac).2, h.small, hsound⟩⟩
  · exact .inl ⟨fun hg => hf (fits_of_grows hs hfst hg), fault, linkTogether_fault (hpaired ▸ henter)⟩

end Refines

/-! ## Batches -/

/-- A batch that needs more pairs than there are is refused, and nothing changes. -/
theorem outcome_linkAll_of_lt {links : List (Nat × Nat)} (hk : f.freePairs.length < links.length) :
    (f.linkAll σ links).outcome = .ok (.error (.noFreePairs links.length f.freePairs.length), f) := by
  simp only [linkAll, shortage?, if_pos hk]
  rfl

theorem outcome_linkAll_of_le {links : List (Nat × Nat)} (hk : links.length ≤ f.freePairs.length) :
    (f.linkAll σ links).outcome = if links.length ≤ f.settings.oneByOneLimit then (f.linkEach links).outcome
      else f.linkTogether σ links := by
  simp only [linkAll, shortage?, if_neg (not_lt.mpr hk)]
  split <;> simp

/-- A batch that has come in leads to the larger forest, if that is one. -/
theorem Toured.linkAll (h : f.Toured rot E) {links : List (Nat × Nat)}
    (hlt : ∀ l ∈ links, l.1 < f.vertices ∧ l.2 < f.vertices) (hk : links.length ≤ f.freePairs.length)
    (hok : (f.linkAll σ links).outcome = .ok (r, f')) :
    r = .ok () ∧ f'.freePairs = f.freePairs.drop links.length ∧ f.SameSetup f' ∧
      ((graph (E ∪ edgeSet links)).IsAcyclic → Grows E links ∧ ∃ rot', f'.Toured rot' (E ∪ edgeSet links)) := by
  rw [outcome_linkAll_of_le hk] at hok
  split at hok
  · obtain ⟨hr, hg, h', hfree, hsame⟩ := h.linkEach links hlt hk hok
    exact ⟨hr, hfree, hsame, fun _ => ⟨hg, _, h'⟩⟩
  · obtain ⟨hr, hfree, hsame, hgrown⟩ := h.linkTogether hlt hk hok
    exact ⟨hr, hfree, hsame, fun hac => ⟨(hgrown hac).1, _, (hgrown hac).2⟩⟩

/-- A batch for which there are pairs is done, or leads to a fault. If the new graph has no cycles, it is
done if and only if its edges are new, different and no loops. -/
theorem Refines.outcome_linkAll (h : f.Refines rot E) (σ : Sorting) {links : List (Nat × Nat)}
    (hlt : ∀ l ∈ links, l.1 < f.vertices ∧ l.2 < f.vertices) (hk : links.length ≤ f.freePairs.length) :
    (¬ Grows E links ∧ ∃ fault, (f.linkAll σ links).outcome = .error fault) ∨
    ∃ f', (f.linkAll σ links).outcome = .ok (.ok (), f') ∧ f'.freePairs = f.freePairs.drop links.length ∧
      f.SameSetup f' ∧ ((graph (E ∪ edgeSet links)).IsAcyclic →
        Grows E links ∧ ∃ rot', f'.Refines rot' (E ∪ edgeSet links)) := by
  rw [outcome_linkAll_of_le hk]
  split
  · rcases h.outcome_linkEach links hlt hk with hf | ⟨hg, f', hout, href, hfree, hsame⟩
    · exact .inl hf
    · exact .inr ⟨f', hout, hfree, hsame, fun _ => ⟨hg, _, href⟩⟩
  · rcases h.outcome_linkTogether σ hlt hk with hf | ⟨f', hout, hfree, hsame, href⟩
    · exact .inl hf
    · exact .inr ⟨f', hout, hfree, hsame, fun hac => ⟨(href hac).1, _, (href hac).2⟩⟩

end TourForest.Forest
