import TourForest.Proofs.Forest.Build
import TourForest.Proofs.Forest.Rounds

/-!
# Runs

A `Run` leads from a new forest to others by adding and removing edges. The edges of a graph without cycles
change along with it: what is added has to leave no cycle, and what is removed in a batch has to be there,
each edge once. Each batch may be sorted in its own way.

* `Run.toured`: each forest of a run is toured along its graph, whatever the number of vertices;
* `Run.refines`: if its sums have the room, it refines its graph, so that it gives the `Answers` of the graph and goes
  on wherever the graph does (`Progress`).
-/

namespace TourForest.Forest

variable {n : Nat} {settings : Settings} {f : Forest} {rot : Nat → List Nat} {E : Finset (Sym2 Nat)} {u v : Nat}

/-- The forests of `n` vertices that come about by adding and removing edges, with the edges of their graphs. -/
inductive Run (n : Nat) (settings : Settings) : Forest → Finset (Sym2 Nat) → Prop
  | built {pools pools' : Pools} {f : Forest} : (build pools n settings).outcome = .ok (f, pools') →
      Run n settings f ∅
  | linked {f f' : Forest} {E : Finset (Sym2 Nat)} {u v : Nat} : Run n settings f E → u < n → v < n →
      (f.link u v).outcome = .ok (.ok (), f') → Run n settings f' (insert s(u, v) E)
  | linkRefused {f f' : Forest} {E : Finset (Sym2 Nat)} {u v : Nat} {r : Refusal} : Run n settings f E → u < n →
      v < n → (f.link u v).outcome = .ok (.error r, f') → Run n settings f' E
  | linkedAll {f f' : Forest} {E : Finset (Sym2 Nat)} {links : List (Nat × Nat)} {σ : Sorting} :
      Run n settings f E → (∀ l ∈ links, l.1 < n ∧ l.2 < n) → (f.linkAll σ links).outcome = .ok (.ok (), f') →
      (graph (E ∪ edgeSet links)).IsAcyclic → Run n settings f' (E ∪ edgeSet links)
  | linkAllRefused {f f' : Forest} {E : Finset (Sym2 Nat)} {links : List (Nat × Nat)} {σ : Sorting}
      {r : Refusal} : Run n settings f E → (∀ l ∈ links, l.1 < n ∧ l.2 < n) → (f.linkAll σ links).outcome = .ok (.error r, f') →
      Run n settings f' E
  | cut {f f' : Forest} {E : Finset (Sym2 Nat)} {u v : Nat} : Run n settings f E → u < n → v < n →
      (f.cut u v).outcome = .ok f' → Run n settings f' (E.erase s(u, v))
  | cutAll {f f' : Forest} {E : Finset (Sym2 Nat)} {cuts : List (Nat × Nat)} : Run n settings f E →
      Strikes E cuts → (f.cutAll cuts).outcome = .ok f' → Run n settings f' (E \ edgeSet cuts)

/-- Each forest of a run is toured along its graph. -/
theorem Run.toured (h : Run n settings f E) : f.vertices = n ∧ f.settings = settings ∧ ∃ rot, f.Toured rot E := by
  induction h with
  | @built pools pools' f hbuild =>
    obtain ⟨hv, hs, ht⟩ := toured_of_build hbuild
    exact ⟨hv, hs, _, ht⟩
  | @linked f f' E u v _ hu hv hlink ih =>
    obtain ⟨rfl, hs, rot, ht⟩ := ih
    rcases ht.link hu hv hlink with ⟨-, hr, -⟩ | ⟨p, rest, -, -, -, ht', -, hsame⟩
    · cases hr
    · exact ⟨hsame.vertices, hsame.settings.trans hs, _, ht'⟩
  | @linkRefused f f' E u v r _ hu hv hlink ih =>
    obtain ⟨rfl, hs, rot, ht⟩ := ih
    rcases ht.link hu hv hlink with ⟨-, -, rfl⟩ | ⟨p, rest, -, -, hr, -⟩
    · exact ⟨rfl, hs, rot, ht⟩
    · cases hr
  | @linkedAll f f' E links σ _ hlt hlink hac ih =>
    obtain ⟨rfl, hs, rot, ht⟩ := ih
    rcases Nat.lt_or_ge f.freePairs.length links.length with hk | hk
    · cases hlink.symm.trans (outcome_linkAll_of_lt hk)
    · obtain ⟨-, -, hsame, hgrown⟩ := ht.linkAll hlt hk hlink
      exact ⟨hsame.vertices, hsame.settings.trans hs, (hgrown hac).2⟩
  | @linkAllRefused f f' E links σ r _ hlt hlink ih =>
    obtain ⟨rfl, hs, rot, ht⟩ := ih
    rcases Nat.lt_or_ge f.freePairs.length links.length with hk | hk
    · cases hlink.symm.trans (outcome_linkAll_of_lt hk)
      exact ⟨rfl, hs, rot, ht⟩
    · cases (ht.linkAll hlt hk hlink).1
  | @cut f f' E u v _ hu hv hcut ih =>
    obtain ⟨rfl, hs, rot, ht⟩ := ih
    obtain ⟨-, hw⟩ := ht.cut hu hv hcut
    have ht' := hw.toured
    rw [edgeSet_cons, edgeSet_nil, insert_empty_eq, Finset.sdiff_singleton_eq_erase] at ht'
    exact ⟨hw.setup.vertices, hw.setup.settings.trans hs, _, ht'⟩
  | @cutAll f f' E cuts _ hc hcut ih =>
    obtain ⟨rfl, hs, rot, ht⟩ := ih
    have hw := ht.cutAll hc hcut
    exact ⟨hw.setup.vertices, hw.setup.settings.trans hs, _, hw.toured⟩

/-- Along a run, sums that have the room stay right. -/
theorem Run.sound (hn : n < 2 ^ 31) (h : Run n settings f E) : f.tours.Sound := by
  induction h with
  | @built pools pools' f hbuild =>
    obtain ⟨f', pools'', hok, hr, -⟩ := outcome_build pools hn settings
    cases hbuild.symm.trans hok
    exact hr.sound
  | @linked f f' E u v h hu hv hlink ih =>
    obtain ⟨rfl, -, rot, ht⟩ := h.toured
    rcases Refines.outcome_link ⟨ht, hn, ih⟩ hu hv with ⟨-, hok⟩ | ⟨-, -, hok⟩ | ⟨p, rest, f₁, -, -, hok, hr₁, -⟩ <;>
      cases hlink.symm.trans hok
    exact hr₁.sound
  | @linkRefused f f' E u v r h hu hv hlink ih =>
    obtain ⟨rfl, -, rot, ht⟩ := h.toured
    rcases Refines.outcome_link ⟨ht, hn, ih⟩ hu hv with ⟨-, hok⟩ | ⟨-, -, hok⟩ | ⟨p, rest, f₁, -, -, hok, -⟩ <;>
      cases hlink.symm.trans hok
    exact ih
  | @linkedAll f f' E links σ h hlt hlink hac ih =>
    obtain ⟨rfl, -, rot, ht⟩ := h.toured
    rcases Nat.lt_or_ge f.freePairs.length links.length with hk | hk
    · cases hlink.symm.trans (outcome_linkAll_of_lt hk)
    · rcases Refines.outcome_linkAll ⟨ht, hn, ih⟩ σ hlt hk with ⟨-, fault, hok⟩ | ⟨f₁, hok, -, -, hgrown⟩ <;>
        cases hlink.symm.trans hok
      obtain ⟨-, rot', hr⟩ := hgrown hac
      exact hr.sound
  | @linkAllRefused f f' E links σ r h hlt hlink ih =>
    obtain ⟨rfl, -, rot, ht⟩ := h.toured
    rcases Nat.lt_or_ge f.freePairs.length links.length with hk | hk
    · cases hlink.symm.trans (outcome_linkAll_of_lt hk)
      exact ih
    · cases (ht.linkAll hlt hk hlink).1
  | @cut f f' E u v h hu hv hcut ih =>
    obtain ⟨rfl, -, rot, ht⟩ := h.toured
    obtain ⟨f₁, hok, -, hs⟩ := Refines.outcome_cut ⟨ht, hn, ih⟩ (ht.cut hu hv hcut).1
    cases hcut.symm.trans hok
    exact hs
  | @cutAll f f' E cuts h hc hcut ih =>
    obtain ⟨rfl, -, rot, ht⟩ := h.toured
    rcases Refines.outcome_cutAll ⟨ht, hn, ih⟩ hc with ⟨hok, -⟩ | ⟨f₁, hok, -, hs, -⟩ <;> cases hcut.symm.trans hok
    exact hs

/-- Each forest of a run refines its graph, if its sums have the room. -/
theorem Run.refines (hn : n < 2 ^ 31) (h : Run n settings f E) : f.vertices = n ∧ f.settings = settings ∧
    ∃ rot, f.Refines rot E := by
  obtain ⟨rfl, hs, rot, ht⟩ := h.toured
  exact ⟨rfl, hs, rot, ht, hn, h.sound hn⟩

/-! ## Answers -/

open Classical in
/-- The vertices of the tree of `v`. -/
noncomputable def tree (n : Nat) (E : Finset (Sym2 Nat)) (v : Nat) : Finset Nat :=
  (Finset.range n).filter ((graph E).Reachable v)

open Classical in
/-- The forest gives the answers of the graph with edges `E`. -/
structure Answers (f : Forest) (E : Finset (Sym2 Nat)) : Prop where
  connected : ∀ u < f.vertices, ∀ v < f.vertices, f.connected u v = .ok (decide ((graph E).Reachable u v))
  connectedAll : ∀ queries : List (Nat × Nat), (∀ q ∈ queries, q.1 < f.vertices ∧ q.2 < f.vertices) →
    f.connectedAll queries = .ok (queries.map fun q => decide ((graph E).Reachable q.1 q.2))
  treeSize : ∀ v < f.vertices, f.treeSize v = .ok (tree f.vertices E v).card
  treeVertices : ∀ v < f.vertices, ∃ vs, f.treeVertices v = .ok vs ∧ vs.Nodup ∧ vs.head? = some v ∧
    vs.toFinset = tree f.vertices E v
  hasEdge : ∀ u < f.vertices, ∀ v < f.vertices, f.hasEdge u v = .ok (decide (s(u, v) ∈ E))
  edges_nodup : f.edges.edges.Nodup
  mem_edges : ∀ u v, (u, v) ∈ f.edges.edges ↔ u < v ∧ s(u, v) ∈ E
  edgeCount : f.edgeCount = E.card

/-- Adding edges that leave a forest succeeds, in whatever way a batch is sorted. So does removing edges that are there,
for a batch if its rounds end. -/
structure Progress (f : Forest) (E : Finset (Sym2 Nat)) : Prop where
  link : ∀ u < f.vertices, ∀ v < f.vertices, ¬ (graph E).Reachable u v →
    ∃ f', (f.link u v).outcome = .ok (.ok (), f')
  linkAll : ∀ (σ : Sorting) (links : List (Nat × Nat)), (∀ l ∈ links, l.1 < f.vertices ∧ l.2 < f.vertices) →
    Grows E links → ∃ f', (f.linkAll σ links).outcome = .ok (.ok (), f')
  cut : ∀ u v, s(u, v) ∈ E → ∃ f', (f.cut u v).outcome = .ok f'
  cutAll : ∀ cuts, Strikes E cuts → RoundsEnd f.settings f.randomness cuts →
    ∃ f', (f.cutAll cuts).outcome = .ok f'

namespace Refines

open Classical in
theorem toFinset_eq_tree (h : f.Refines rot E) (hv : v < f.vertices) {vs : List Nat}
    (hmem : ∀ w, w ∈ vs ↔ (graph E).Reachable v w) : vs.toFinset = tree f.vertices E v := by
  ext w
  rw [List.mem_toFinset, hmem, tree, Finset.mem_filter, Finset.mem_range]
  exact ⟨fun hr => ⟨h.rotation.lt_of_reachable hv hr, hr⟩, And.right⟩

theorem answers (h : f.Refines rot E) : f.Answers E where
  connected u hu v hv := h.connected_eq hu hv
  connectedAll queries hq := mapM_ok fun q hm => h.connected_eq (hq q hm).1 (hq q hm).2
  treeSize v hv := by
    obtain ⟨vs, hok, hn, -, hmem⟩ := h.treeVertices hv
    obtain ⟨vs', hok', hsize⟩ := h.treeSize hv
    obtain rfl := Except.ok.inj (hok.symm.trans hok')
    rw [hsize, ← h.toFinset_eq_tree hv hmem, List.toFinset_card_of_nodup hn]
  treeVertices v hv := by
    obtain ⟨vs, hok, hn, hhead, hmem⟩ := h.treeVertices hv
    exact ⟨vs, hok, hn, hhead, h.toFinset_eq_tree hv hmem⟩
  hasEdge u hu v hv := h.contains_eq hu hv
  edges_nodup := h.indexes.nodup_edges h.directed
  mem_edges u v := h.toLedger.mem_edges
  edgeCount := h.size_eq

theorem progress (h : f.Refines rot E) : f.Progress E where
  link u hu v hv hr := by
    rcases h.outcome_link hu hv with ⟨hnil, -⟩ | ⟨-, hr', -⟩ | ⟨p, rest, f', -, -, hok, -⟩
    · exact absurd hnil (h.exists_free hu hv hr)
    · exact absurd hr' hr
    · exact ⟨f', hok⟩
  linkAll σ links hlt hg := by
    rcases h.outcome_linkAll σ hlt (h.length_le_of_grows hlt hg) with ⟨hng, -⟩ | ⟨f', hok, -⟩
    · exact absurd hg hng
    · exact ⟨f', hok⟩
  cut u v hE := (h.outcome_cut hE).imp fun _ hw => hw.1
  cutAll cuts hc hend := by
    rcases h.outcome_cutAll hc with ⟨-, hnever⟩ | ⟨f', hok, -⟩
    · exact absurd hend hnever
    · exact ⟨f', hok⟩

end Refines

/-- A forest can be built, and along all runs it gives the answers of its graph, which has no cycles and no
edges but between its vertices. Whatever leaves such a graph is done. -/
theorem answers_of_run (hn : n < 2 ^ 31) (settings : Settings) :
    (∀ pools, ∃ f pools', (build pools n settings).outcome = .ok (f, pools')) ∧
    ∀ f E, Run n settings f E → f.vertices = n ∧ (graph E).IsAcyclic ∧
      (∀ u v, s(u, v) ∈ E → u < n ∧ v < n ∧ u ≠ v) ∧ f.Answers E ∧ f.Progress E := by
  refine ⟨fun pools => ?_, fun f E h => ?_⟩
  · obtain ⟨f, pools', hok, -⟩ := outcome_build pools hn settings
    exact ⟨f, pools', hok⟩
  · obtain ⟨rfl, -, rot, hr⟩ := h.refines hn
    exact ⟨rfl, hr.acyclic, fun u v => hr.lt_of_mem, hr.answers, hr.progress⟩

/-- An edge between two vertices comes in a batch and goes again. -/
theorem answers_of_one_edge : ∃ f₀ f₁ f₂ : Forest, ∃ pools,
    (build .empty 2 ⟨7, 0, 2⟩).outcome = .ok (f₀, pools) ∧ (f₀.linkAll .stable [(0, 1)]).outcome = .ok (.ok (), f₁) ∧
      (f₁.cut 1 0).outcome = .ok f₂ ∧ f₀.connected 0 1 = .ok false ∧ f₁.connected 0 1 = .ok true ∧
      f₁.hasEdge 1 0 = .ok true ∧ f₁.edgeCount = 1 ∧ f₂.connected 0 1 = .ok false ∧ f₂.edgeCount = 0 := by
  classical
  obtain ⟨hbuild, hrun⟩ := answers_of_run (n := 2) (by decide) ⟨7, 0, 2⟩
  obtain ⟨f₀, pools, hok₀⟩ := hbuild .empty
  have hr₀ : Run 2 ⟨7, 0, 2⟩ f₀ ∅ := .built hok₀
  obtain ⟨hv₀, hac, -, ha₀, hp₀⟩ := hrun f₀ ∅ hr₀
  have hsep : ¬ (graph ∅).Reachable 0 1 := not_reachable_empty (by decide)
  have hg : Grows ∅ [(0, 1)] := grows_singleton hac hsep
  obtain ⟨f₁, hok₁⟩ := hp₀.linkAll .stable [(0, 1)] (by simp [hv₀]) hg
  have hr₁ : Run 2 ⟨7, 0, 2⟩ f₁ (∅ ∪ edgeSet [(0, 1)]) := .linkedAll hr₀ (by simp) hok₁ hg.acyclic
  obtain ⟨hv₁, -, -, ha₁, hp₁⟩ := hrun f₁ _ hr₁
  have hE : s(1, 0) ∈ ∅ ∪ edgeSet [(0, 1)] := by decide
  obtain ⟨f₂, hok₂⟩ := hp₁.cut 1 0 hE
  obtain ⟨hv₂, -, -, ha₂, -⟩ := hrun f₂ _ (.cut hr₁ (by decide) (by decide) hok₂)
  have hempty : (∅ ∪ edgeSet [(0, 1)]).erase s(1, 0) = ∅ := by decide
  rw [hempty] at ha₂
  have hadj : (graph (∅ ∪ edgeSet [(0, 1)])).Reachable 0 1 := by
    apply SimpleGraph.Adj.reachable
    exact SimpleGraph.fromEdgeSet_adj _ |>.mpr ⟨by decide, by decide⟩
  refine ⟨f₀, f₁, f₂, pools, hok₀, hok₁, hok₂, ?_, ?_, ?_, ?_, ?_, ?_⟩
  · rw [ha₀.connected 0 (by omega) 1 (by omega), decide_eq_false hsep]
  · rw [ha₁.connected 0 (by omega) 1 (by omega), decide_eq_true hadj]
  · rw [ha₁.hasEdge 1 (by omega) 0 (by omega), decide_eq_true hE]
  · rw [ha₁.edgeCount]
    rfl
  · rw [ha₂.connected 0 (by omega) 1 (by omega), decide_eq_false hsep]
  · rw [ha₂.edgeCount]
    rfl

end TourForest.Forest
