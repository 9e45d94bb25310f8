import TourForest.Proofs.Forest.OneByOne

/-!
# Adding edges and removing them again

Edges that have just come in go without a trace. A batch of edges leaves its elements first in the rings of their
ends, sorted in some way, and its removal drops just these (`Rotation.prune_sewIn`), however it is ordered and
whichever ends it names.
Level 0 of the tours is back where it was then, and with it all the rest (`Refines.agrees`).
-/

namespace TourForest

variable {n : Nat} {rot : Nat → List Nat} {E : Finset (Sym2 Nat)} {links : List ((Nat × Nat) × Nat)}
  {cuts : List (Nat × Nat)}

/-- The edges of a batch that is added are different and there afterwards. -/
theorem Fits.strikes (hf : Fits n E rot links) : Strikes (E ∪ edgeSet (links.map Prod.fst)) (links.map Prod.fst) where
  present c hm := Finset.mem_union_right _ (mem_edgeSet.mpr ⟨c, hm, rfl⟩)
  nodup := by
    rw [List.map_map]
    exact hf.edges_nodup

/-- The edges of a batch that is added are not there before. -/
theorem Fits.disjoint (hf : Fits n E rot links) : Disjoint E (edgeSet (links.map Prod.fst)) :=
  disjoint_edgeSet fun c hm => by
    obtain ⟨l, hl, rfl⟩ := List.mem_map.mp hm
    exact hf.new l hl

/-- Without the edges that have come in, a rotation is what it was. -/
theorem Rotation.prune_sewIn {news : Nat → List Nat} (h : Rotation n E rot) (hf : Fits n E rot links)
    (hs : Shuffled n links news) (hc : Strikes (E ∪ edgeSet (links.map Prod.fst)) cuts)
    (he : edgeSet cuts = edgeSet (links.map Prod.fst)) :
    TourForest.prune (struck n (TourForest.sewIn news rot) cuts) (TourForest.sewIn news rot) = rot := by
  have hg := h.sewIn hf hs
  funext v
  have hgone : ∀ x ∈ news v, x ∈ struck n (TourForest.sewIn news rot) cuts := by
    intro x hx
    obtain ⟨w, -, hw⟩ := hg.mated v x (mem_sewIn.mpr (.inl hx))
    have hl : Leads n (TourForest.sewIn news rot) v w x := ⟨mem_sewIn.mpr (.inl hx), hw⟩
    rw [hg.mem_struck_iff hc hl, he, mem_edgeSet]
    rw [leads_perm (hs.sewIn_perm rot)] at hl
    rcases (h.leads_graft hf).mp hl with hold | ⟨l, hm, ⟨rfl, rfl, -⟩ | ⟨rfl, rfl, -⟩⟩
    · exact absurd hold.1 (hf.not_mem_rot h (hs.mem_iff.mp hx) v).2
    · exact ⟨l.1, List.mem_map_of_mem hm, rfl⟩
    · exact ⟨l.1, List.mem_map_of_mem hm, Sym2.eq_swap⟩
  have hkept : ∀ x ∈ rot v, x ∉ struck n (TourForest.sewIn news rot) cuts := by
    intro x hx hm
    obtain ⟨w, -, hw⟩ := h.mated v x hx
    have hl : Leads n (TourForest.sewIn news rot) v w x := ⟨mem_sewIn.mpr (.inr hx), mem_sewIn.mpr (.inr hw)⟩
    have hE : s(v, w) ∈ E := (h.edge_iff v w).mpr ⟨x, hx, hw⟩
    rw [hg.mem_struck_iff hc hl, he] at hm
    exact Finset.disjoint_left.mp hf.disjoint hE hm
  rw [TourForest.prune, TourForest.sewIn, List.filter_append, List.filter_eq_nil_iff.mpr (by simpa using hgone),
    List.filter_eq_self.mpr (by simpa using hkept), List.nil_append]

namespace Forest

variable {n : Nat} {settings : Settings} {f : Forest} {rot : Nat → List Nat} {E : Finset (Sym2 Nat)}
  {links : List (Nat × Nat)}

/-- A batch that leaves a forest comes in, all at once or one by one, in some order and under some pairs. -/
theorem Refines.outcome_linkAll_of_grows (hr : f.Refines rot E) (σ : Sorting)
    (hlt : ∀ l ∈ links, l.1 < f.vertices ∧ l.2 < f.vertices) (hg : Grows E links) :
    ∃ g paired news, (f.linkAll σ links).outcome = .ok (.ok (), g) ∧ Fits f.vertices E rot paired ∧
      (paired.map Prod.fst).Perm links ∧ Shuffled f.vertices paired news ∧
      g.Refines (sewIn news rot) (E ∪ edgeSet links) ∧ f.SameSetup g := by
  have hk := hr.length_le_of_grows hlt hg
  have hpool : (f.freePairs.take links.length).Nodup := hr.free_nodup.sublist (List.take_sublist ..)
  have hlen : (f.freePairs.take links.length).length = links.length := by rw [List.length_take, min_eq_left hk]
  -- The pairs of both ways, for the edges in the order in which the batch names them, or the other way round.
  have hfits {ls : List (Nat × Nat)} (hp : ls.Perm links) :
      Fits f.vertices E rot (ls.zip (f.freePairs.take links.length).reverse) ∧
        ((ls.zip (f.freePairs.take links.length).reverse).map Prod.fst).Perm links := by
    have hrev : (f.freePairs.take links.length).reverse.length = ls.length := by
      rw [List.length_reverse, hlen, hp.length_eq]
    have hfst : (ls.zip (f.freePairs.take links.length).reverse).map Prod.fst = ls := List.map_fst_zip hrev.ge
    have hs := hr.supplied (fun l hl => hlt l (hp.mem_iff.mp hl)) hrev.le (List.nodup_reverse.mpr hpool)
      fun p hp => List.mem_of_mem_take (List.mem_reverse.mp hp)
    exact ⟨fits_of_grows hs hfst (hg.perm hp.symm), hfst.symm ▸ hp⟩
  rw [outcome_linkAll_of_le hk]
  split
  · obtain ⟨-, g, hok, href, -, hsame⟩ := (hr.outcome_linkEach links hlt hk).resolve_left fun hf => hf.1 hg
    have hk' : links.reverse.length ≤ f.freePairs.length := List.length_reverse.trans_le hk
    have hzip := zip_reverse_take hk'
    rw [List.reverse_reverse, List.length_reverse] at hzip
    rw [hzip] at href
    obtain ⟨hf, hp⟩ := hfits (List.reverse_perm links)
    exact ⟨g, _, _, hok, hf, hp, .refl _ _, href, hsame⟩
  · obtain ⟨g, hok, -, hsame, href⟩ := (hr.outcome_linkTogether σ hlt hk).resolve_left fun hf => hf.1 hg
    obtain ⟨hf, hp⟩ := hfits (.refl links)
    exact ⟨g, _, _, hok, hf, hp, σ.shuffled hf.loopless, (href hg.acyclic).2, hsame⟩

/-- Adding a batch of edges that leaves a forest, and then removing its edges, leaves the forest that was there: the
same tours with all links, values and marks, the same elements for the same edges, and the same free pairs. The
batches may be done all at once, sorted in any way, or one by one, with any generators for which the rounds end, and the
edges may go in any order and be named from either end. -/
theorem cutAll_undoes_linkAll (hn : n < 2 ^ 31) (hf : Run n settings f E) (hlt : ∀ l ∈ links, l.1 < n ∧ l.2 < n)
    (hg : Grows E links) (σ : Sorting) (r : Random) (s : Settings) :
    ∃ g, (({ f with randomness := r, settings := s } : Forest).linkAll σ links).outcome = .ok (.ok (), g) ∧
      g.vertices = n ∧ g.Answers (E ∪ edgeSet links) ∧
      ∀ (r' : Random) (s' : Settings) (cuts : List (Nat × Nat)),
        (links.map fun l => s(l.1, l.2)).Perm (cuts.map fun c => s(c.1, c.2)) → RoundsEnd s' r' cuts →
        ∃ h, (({ g with randomness := r', settings := s' } : Forest).cutAll cuts).outcome = .ok h ∧ f.Agrees h := by
  obtain ⟨rfl, -, rot, hr⟩ := hf.refines hn
  obtain ⟨g, paired, news, hok, hfits, hpaired, hshuffled, href, hsame⟩ :=
    (hr.reseeded r s).outcome_linkAll_of_grows σ hlt hg
  refine ⟨g, hok, hsame.vertices, href.answers, fun r' s' cuts hp hend => ?_⟩
  have hc := hfits.strikes.congr ((hpaired.map _).trans hp)
  have he : edgeSet cuts = edgeSet (paired.map Prod.fst) := (edgeSet_congr ((hpaired.map _).trans hp)).symm
  rw [← edgeSet_perm hpaired] at href
  have href' := href.reseeded r' s'
  obtain ⟨h, hok', hw, hs, -⟩ := (href'.outcome_cutAll hc).resolve_left fun hf => hf.2 hend
  have hback := hw.refines href' hs
  rw [show ({ g with randomness := r', settings := s' } : Forest).vertices = f.vertices from hsame.vertices,
    hr.rotation.prune_sewIn hfits hshuffled hc he, he, Finset.union_sdiff_cancel_right hfits.disjoint] at hback
  refine ⟨h, hok', hr.agrees hback ?_ ?_⟩
  · exact hw.setup.vertices.trans hsame.vertices
  · exact hw.setup.layout.trans hsame.layout

/-- To a first edge, a second one is added all at once, and then it is removed in rounds, from its other end. -/
theorem cutAll_undoes_linkAll_on_path : ∃ f g h, Run 3 ⟨7, 0, 2⟩ f {s(0, 1)} ∧
    (({ f with randomness := ⟨5⟩, settings := ⟨7, 0, 2⟩ } : Forest).linkAll .stable [(1, 2)]).outcome = .ok (.ok (), g) ∧
    g.connected 0 2 = .ok true ∧
    (({ g with randomness := ⟨1⟩, settings := ⟨7, 0, 2⟩ } : Forest).cutAll [(2, 1)]).outcome = .ok h ∧
    f.Agrees h := by
  classical
  obtain ⟨f, hf⟩ := exists_run_of_first_edge ⟨7, 0, 2⟩
  obtain ⟨-, -, hg⟩ := grows_cons.mp grows_path
  obtain ⟨g, hlink, hv, ha, hall⟩ := cutAll_undoes_linkAll (by decide) hf (by decide) hg .stable ⟨5⟩ ⟨7, 0, 2⟩
  have hend : RoundsEnd ⟨7, 0, 2⟩ ⟨1⟩ [(2, 1)] := ⟨2, by decide +kernel⟩
  obtain ⟨h, hcut, hagrees⟩ := hall ⟨1⟩ ⟨7, 0, 2⟩ [(2, 1)] (by decide) hend
  have hreach : (graph ({s(0, 1)} ∪ edgeSet [(1, 2)])).Reachable 0 2 := by
    have h₁ : (graph ({s(0, 1)} ∪ edgeSet [(1, 2)])).Adj 0 1 := adj_of_mem (by decide) (by decide)
    have h₂ : (graph ({s(0, 1)} ∪ edgeSet [(1, 2)])).Adj 1 2 := adj_of_mem (by decide) (by decide)
    exact h₁.reachable.trans h₂.reachable
  refine ⟨f, g, h, hf, hlink, ?_, hcut, hagrees⟩
  rw [ha.connected 0 (by omega) 2 (by omega), decide_eq_true hreach]

end Forest

end TourForest
