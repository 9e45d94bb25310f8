import TourForest.Proofs.Forest.Agrees
import TourForest.Proofs.Forest.PoolLaw

/-!
# Batches and single edges

A batch that is done all at once, or in rounds, leaves the forest that its edges leave one by one:

* `linkAll_agrees`: edges that come in at once are in the order in which they come in one by one from last to first;
* `cutAll_agrees`: edges may go in any order and in any rounds, and it does not matter how they are named.

In both, what is left refines a graph through one rotation, whichever way was taken (`Refines.agrees`).
-/

namespace TourForest.Forest

variable {n : Nat} {settings : Settings} {f f' g g' : Forest} {rot : Nat → List Nat} {E : Finset (Sym2 Nat)}
  {links links' cuts : List (Nat × Nat)}

/-! ## Edges that come in -/

theorem Grows.perm (hg : Grows E links) (hp : links.Perm links') : Grows E links' :=
  ⟨fun l hl => hg.loopless l (hp.mem_iff.mpr hl), fun l hl => hg.new l (hp.mem_iff.mpr hl),
    (hp.map _).nodup_iff.mp hg.nodup, edgeSet_perm hp ▸ hg.acyclic⟩

/-- Edges from last to first take the same pairs as all at once. -/
theorem zip_reverse_take {pairs : List Nat} (hk : links.length ≤ pairs.length) :
    (links.reverse.zip (pairs.take links.length)).reverse = links.zip (pairs.take links.length).reverse := by
  rw [List.zip_eq_zipWith, List.zip_eq_zipWith, List.reverse_zipWith, List.reverse_reverse]
  rw [List.length_reverse, List.length_take, min_eq_left hk]

/-- A batch of edges that is sorted stably and done all at once leaves the forest that its edges leave one by one, from
last to first. It gives the answers of the larger graph. -/
theorem linkAll_agrees (hn : n < 2 ^ 31) (h : Run n settings f E) (hlt : ∀ l ∈ links, l.1 < n ∧ l.2 < n)
    (hg : Grows E links) (hlong : settings.oneByOneLimit < links.length) :
    ∃ g g', (f.linkAll .stable links).outcome = .ok (.ok (), g) ∧ (f.linkEach links.reverse).outcome = .ok (.ok (), g') ∧
      g.Agrees g' ∧ g'.freePairs = g.freePairs ∧ g.Answers (E ∪ edgeSet links) := by
  obtain ⟨rfl, rfl, rot, hr⟩ := h.refines hn
  have hp := List.reverse_perm links
  have hk := hr.length_le_of_grows hlt hg
  have hlt' : ∀ l ∈ links.reverse, l.1 < f.vertices ∧ l.2 < f.vertices := fun l hl => hlt l (hp.mem_iff.mp hl)
  obtain ⟨g, hok, hfree, hsame, href⟩ := (hr.outcome_linkTogether .stable hlt hk).resolve_left fun hf => hf.1 hg
  have hloopless : ∀ l ∈ links.zip (f.freePairs.take links.length).reverse, l.1.1 ≠ l.1.2 :=
    fun l hl => hg.loopless l.1 (List.of_mem_zip hl).1
  rw [Sorting.newAt_stable hloopless] at href
  obtain ⟨-, g', hok', href', hfree', hsame'⟩ :=
    (hr.outcome_linkEach links.reverse hlt' (hp.length_eq.trans_le hk)).resolve_left fun hf => hf.1 (hg.perm hp.symm)
  rw [List.length_reverse] at hfree' href'
  rw [zip_reverse_take hk, edgeSet_perm hp] at href'
  refine ⟨g, g', ?_, hok', ?_, hfree'.trans hfree.symm, (href hg.acyclic).2.answers⟩
  · rw [outcome_linkAll_of_le hk, if_neg (not_le.mpr hlong), hok]
  · exact (href hg.acyclic).2.agrees href' (hsame'.vertices.trans hsame.vertices.symm)
      (hsame'.layout.trans hsame.layout.symm)

/-- The edges of a path of three vertices can be added to no edges. -/
theorem grows_path : Grows ∅ [(0, 1), (1, 2)] := by
  have hsep : ¬ (graph (insert s(0, 1) ∅)).Reachable 1 2 := by
    intro hr
    obtain ⟨p⟩ := hr.symm
    cases p with
    | cons hadj _ => simp [graph] at hadj
  have hfirst := grows_singleton isAcyclic_empty (not_reachable_empty Nat.zero_ne_one)
  exact grows_cons.mpr ⟨by decide, by simp, grows_singleton hfirst.acyclic hsep⟩

/-- The first edge of the path can be added to a new forest. -/
theorem exists_run_of_first_edge (settings : Settings) : ∃ f, Run 3 settings f {s(0, 1)} := by
  obtain ⟨f₀, pools, hok₀, hr₀, hv₀, -⟩ := outcome_build (n := 3) .empty (by decide) settings
  obtain ⟨f, hok⟩ := hr₀.progress.link 0 (by omega) 1 (by omega) (not_reachable_empty Nat.zero_ne_one)
  exact ⟨f, .linked (.built hok₀) (by decide) (by decide) hok⟩

/-- The two edges of a path come in at once and one by one. -/
theorem linkAll_agrees_on_path : ∃ f g g', Run 3 ⟨7, 0, 2⟩ f ∅ ∧
    (f.linkAll .stable [(0, 1), (1, 2)]).outcome = .ok (.ok (), g) ∧
    (f.linkEach [(1, 2), (0, 1)]).outcome = .ok (.ok (), g') ∧ g.Agrees g' ∧ g'.freePairs = g.freePairs ∧
    g.connected 0 2 = .ok true := by
  classical
  obtain ⟨f, pools, hok, -⟩ := outcome_build (n := 3) .empty (by decide) ⟨7, 0, 2⟩
  have hf : Run 3 ⟨7, 0, 2⟩ f ∅ := .built hok
  obtain ⟨g, g', hg, hg', hagrees, hfree, ha⟩ := linkAll_agrees (by decide) hf (by decide) grows_path (by decide)
  obtain ⟨hv, -⟩ := (Run.linkedAll hf (by decide) hg grows_path.acyclic).refines (by decide)
  have hreach : (graph (∅ ∪ edgeSet [(0, 1), (1, 2)])).Reachable 0 2 := by
    have h₁ : (graph (∅ ∪ edgeSet [(0, 1), (1, 2)])).Adj 0 1 := adj_of_mem (by decide) (by decide)
    have h₂ : (graph (∅ ∪ edgeSet [(0, 1), (1, 2)])).Adj 1 2 := adj_of_mem (by decide) (by decide)
    exact h₁.reachable.trans h₂.reachable
  refine ⟨f, g, g', hf, hg, hg', hagrees, hfree, ?_⟩
  rw [ha.connected 0 (by omega) 2 (by omega), decide_eq_true hreach]

/-! ## Edges that go out -/

/-- What is left without the edges of a batch does not depend on how the batch was done, once the sums are right. -/
theorem Without.agrees (hr : f.Refines rot E) (hr' : f'.Refines rot E) (hw : f.Without rot E cuts g)
    (hs : g.tours.Sound) (hw' : f'.Without rot E cuts g') (hs' : g'.tours.Sound) (hv : f'.vertices = f.vertices)
    (hlayout : f'.tours.layout = f.tours.layout) : g.Agrees g' := by
  have href := hw'.refines hr' hs'
  rw [hv] at href
  exact (hw.refines hr hs).agrees href (hw'.setup.vertices.trans (hv.trans hw.setup.vertices.symm))
    (hw'.setup.layout.trans (hlayout.trans hw.setup.layout.symm))

/-- The pairs of edges that go are those of the elements that the index has for them. -/
theorem Ledger.carries_freed (h : Ledger f.vertices f.edges f.freePairs rot E) (hc : Strikes E cuts) :
    List.Forall₂ f.Carries cuts (freed f.vertices rot cuts) := by
  rw [freed, List.forall₂_map_right_iff]
  refine List.forall₂_same.mpr fun c hm => ?_
  have hl := h.rotation.leads_element (hc.present c hm)
  exact ⟨_, h.indexes.find?_eq h.directed hl, pairOf_eq (h.rotation.range _ _ hl.1).2.1⟩

/-- Edges that are removed one by one leave their pairs and a forest with the answers of the smaller graph. The same
forest comes of removing them in any other order, from any other ends, or in a batch, if its rounds end. -/
theorem cutAll_agrees (hn : n < 2 ^ 31) (h : Run n settings f E) (hc : Strikes E cuts) :
    ∃ g pairs, (f.cutEach cuts).outcome = .ok g ∧ List.Forall₂ f.Carries cuts pairs ∧
      (pairs ++ f.freePairs).Nodup ∧ g.freePairs.Perm (pairs ++ f.freePairs) ∧ g.Answers (E \ edgeSet cuts) ∧
      ∀ (r : Random) (settings' : Settings) (cuts' : List (Nat × Nat)),
        (cuts.map fun c => s(c.1, c.2)).Perm (cuts'.map fun c => s(c.1, c.2)) →
        (∃ g', (({ f with randomness := r, settings := settings' } : Forest).cutEach cuts').outcome = .ok g' ∧
          g.Agrees g') ∧
        (RoundsEnd settings' r cuts' →
          ∃ g', (({ f with randomness := r, settings := settings' } : Forest).cutAll cuts').outcome = .ok g' ∧
            g.Agrees g') := by
  obtain ⟨rfl, -, rot, hr⟩ := h.refines hn
  obtain ⟨g, hok, hw, hs⟩ := hr.outcome_cutEach cuts hc
  have href := hw.refines hr hs
  refine ⟨g, freed f.vertices rot cuts, hok, hr.carries_freed hc, hw.free.nodup_iff.mp href.free_nodup, hw.free,
    href.answers, fun r settings' cuts' hp => ?_⟩
  have hc' := hc.congr hp
  have hr' := hr.reseeded r settings'
  -- However it was done, the batch is one of the edges in `cuts`.
  have hsame {g' : Forest}
      (hw' : ({ f with randomness := r, settings := settings' } : Forest).Without rot E cuts' g')
      (hs' : g'.tours.Sound) : g.Agrees g' :=
    hw.agrees hr hr' hs (hw'.congr hr'.rotation hc' hc (edgeSet_congr hp).symm) hs' rfl rfl
  constructor
  · obtain ⟨g', hok', hw', hs'⟩ := hr'.outcome_cutEach cuts' hc'
    exact ⟨g', hok', hsame hw' hs'⟩
  · intro hend
    obtain ⟨g', hok', hw', hs', -⟩ := (hr'.outcome_cutAll hc').resolve_left fun hf => hf.2 hend
    exact ⟨g', hok', hsame hw' hs'⟩

/-- Both edges of a path go, one by one, and in two rounds in another order from the other ends. -/
theorem cutAll_agrees_on_path : ∃ f g g' pairs, Run 3 ⟨7, 0, 2⟩ f (edgeSet [(0, 1), (1, 2)]) ∧
    (f.cutEach [(0, 1), (1, 2)]).outcome = .ok g ∧
    (({ f with randomness := ⟨1⟩, settings := ⟨7, 0, 2⟩ } : Forest).cutAll [(2, 1), (1, 0)]).outcome = .ok g' ∧
    g.Agrees g' ∧ List.Forall₂ f.Carries [(0, 1), (1, 2)] pairs ∧ g.freePairs.Perm (pairs ++ f.freePairs) := by
  obtain ⟨f₀, pools, hok₀, hr₀, hv₀, -⟩ := outcome_build (n := 3) .empty (by decide) ⟨7, 0, 2⟩
  obtain ⟨f, hok⟩ := hr₀.progress.linkAll .stable [(0, 1), (1, 2)] (by simp [hv₀]) grows_path
  have hf : Run 3 ⟨7, 0, 2⟩ f (∅ ∪ edgeSet [(0, 1), (1, 2)]) :=
    .linkedAll (.built hok₀) (by decide) hok grows_path.acyclic
  rw [Finset.empty_union] at hf
  have hc : Strikes (edgeSet [(0, 1), (1, 2)]) [(0, 1), (1, 2)] := ⟨by decide, by decide⟩
  obtain ⟨g, pairs, hg, hpairs, -, hfree, -, hall⟩ := cutAll_agrees (by decide) hf hc
  -- The first round postpones the second of the two cuts, and the second round does it.
  have hend : RoundsEnd ⟨7, 0, 2⟩ ⟨1⟩ [(2, 1), (1, 0)] := ⟨2, by decide +kernel⟩
  obtain ⟨g', hg', hagrees⟩ := (hall ⟨1⟩ ⟨7, 0, 2⟩ [(2, 1), (1, 0)] (by decide)).2 hend
  exact ⟨f, g, g', pairs, hf, hg, hg', hagrees, hpairs, hfree⟩

end TourForest.Forest
