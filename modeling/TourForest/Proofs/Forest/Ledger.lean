import TourForest.Forest.Cut
import TourForest.Proofs.Forest.Enter
import TourForest.Proofs.Forest.Prune

/-!
# The books of a forest

A forest enters its edges into an index, under elements whose pairs it takes from a stack of free pairs. The
books are in order (`Ledger`) if some rotation of the graph has exactly the elements in the index, and all other
pairs are free. They say nothing about the tours.

* `Ledger.contains_eq`, `Ledger.mem_edges`, `Ledger.size_eq`: which edges there are;
* `Ledger.insert_eq`, `Ledger.entered`, `Ledger.grafted`: edges come in and take free pairs;
* `Ledger.erased`, `Ledger.pruned`: edges go out and leave their pairs.
-/

namespace TourForest.Forest

variable {n p u v : Nat} {rot : Nat → List Nat} {E : Finset (Sym2 Nat)} {edges edges' : EdgeIndex}
  {free rest : List Nat} {links : List ((Nat × Nat) × Nat)} {cuts : List (Nat × Nat)}

theorem card_union_edgeSet {es : List (Nat × Nat)} (hd : (es.map fun e => s(e.1, e.2)).Nodup)
    (hn : ∀ e ∈ es, s(e.1, e.2) ∉ E) : (E ∪ edgeSet es).card = E.card + es.length := by
  have hcard : (edgeSet es).card = es.length :=
    (List.toFinset_card_of_nodup hd).trans (List.length_map _)
  rw [Finset.card_union_of_disjoint (disjoint_edgeSet hn), hcard]

/-- The index holds the elements of a rotation of the graph with edges `E`, and all other pairs are free. -/
structure Ledger (n : Nat) (edges : EdgeIndex) (free : List Nat) (rot : Nat → List Nat)
    (E : Finset (Sym2 Nat)) : Prop where
  few : n < 2 ^ 32
  rotation : Rotation n E rot
  indexes : edges.Indexes n (Leads n rot)
  free_nodup : free.Nodup
  mem_free : ∀ p, p ∈ free ↔ p < n - 1 ∧ ∀ v, n + 2 * p ∉ rot v
  free_length : free.length + E.card = n - 1

namespace Ledger

variable (h : Ledger n edges free rot E)
include h

theorem directed : EdgeIndex.Directed n (Leads n rot) := h.rotation.directed h.few

theorem lt_of_mem (hE : s(u, v) ∈ E) : u < n ∧ v < n ∧ u ≠ v := by
  obtain ⟨x, hx⟩ := (h.rotation.edge_iff u v).mp hE
  obtain ⟨hu, hv, hne, -⟩ := h.directed.range u v x hx
  exact ⟨hu, hv, hne⟩

/-- The books do not say in which order the elements that leave a vertex come. -/
theorem perm {rot' : Nat → List Nat} (hp : ∀ v, (rot' v).Perm (rot v)) : Ledger n edges free rot' E where
  few := h.few
  rotation := h.rotation.perm hp
  indexes := Rotation.leads_perm hp ▸ h.indexes
  free_nodup := h.free_nodup
  mem_free p := by simp only [(hp _).mem_iff, h.mem_free]
  free_length := h.free_length

/-- The elements of a free pair are in no ring. -/
theorem free_not_mem_ring {x : Nat} (hp : p ∈ free) (hx : x = n + 2 * p ∨ x = n + 2 * p + 1) (hv : v < n) :
    x ∉ ring rot v := by
  obtain ⟨-, hunused⟩ := (h.mem_free p).mp hp
  intro hm
  rcases mem_ring.mp hm with rfl | hm
  · omega
  · rcases hx with rfl | rfl
    · exact hunused v hm
    · exact h.rotation.unused_mate hunused v hm

/-- The elements of a free pair are on no tour. -/
theorem free_apart {x : Nat} (hp : p ∈ free) (hx : x = n + 2 * p ∨ x = n + 2 * p + 1) :
    ∀ y, ¬ Follows n rot x y ∧ ¬ Follows n rot y x :=
  h.rotation.apart fun _ hv => h.free_not_mem_ring hp hx hv

/-! ## Edges -/

theorem contains_eq (hu : u < n) (hv : v < n) : edges.contains u v = .ok (decide (s(u, v) ∈ E)) := by
  by_cases he : s(u, v) ∈ E
  · obtain ⟨x, hx⟩ := (h.rotation.edge_iff u v).mp he
    rw [h.indexes.contains_eq_true h.directed hx, decide_eq_true he]
  · have hnone (x : Nat) (hx : Leads n rot u v x) : False := he ((h.rotation.edge_iff u v).mpr ⟨x, hx⟩)
    rw [h.indexes.contains_eq_false h.directed hu hv hnone, decide_eq_false he]

/-- The index finds an element for an edge if it leads along the edge. -/
theorem find?_iff {x : Nat} (hE : s(u, v) ∈ E) : edges.find? u v = .ok (some x) ↔ Leads n rot u v x := by
  refine ⟨fun hx => ?_, h.indexes.find?_eq h.directed⟩
  obtain ⟨y, hy⟩ := (h.rotation.edge_iff u v).mp hE
  rw [h.indexes.find?_eq h.directed hy, Except.ok.injEq, Option.some.injEq] at hx
  exact hx ▸ hy

theorem mem_edges : (u, v) ∈ edges.edges ↔ u < v ∧ s(u, v) ∈ E := by
  rw [h.indexes.mem_edges h.directed, h.rotation.edge_iff]

theorem size_eq : edges.size = E.card := by
  have hinj : (edges.edges.map fun e => s(e.1, e.2)).Nodup := by
    apply (h.indexes.nodup_edges h.directed).map_on
    rintro ⟨a, b⟩ he ⟨c, d⟩ he' heq
    have hab := (h.mem_edges.mp he).1
    have hcd := (h.mem_edges.mp he').1
    rcases Sym2.eq_iff.mp heq with ⟨rfl, rfl⟩ | ⟨rfl, rfl⟩
    · rfl
    · omega
  have hE : E = edgeSet edges.edges := by
    ext d
    induction d with
    | _ a b =>
      rw [mem_edgeSet]
      constructor
      · intro hd
        rcases Nat.lt_or_gt_of_ne (h.lt_of_mem hd).2.2 with hab | hba
        · exact ⟨(a, b), h.mem_edges.mpr ⟨hab, hd⟩, rfl⟩
        · exact ⟨(b, a), h.mem_edges.mpr ⟨hba, Sym2.eq_swap ▸ hd⟩, Sym2.eq_swap⟩
      · rintro ⟨⟨c, d⟩, he, heq⟩
        exact heq ▸ (h.mem_edges.mp he).2
  rw [hE, edgeSet, List.toFinset_card_of_nodup hinj, List.length_map, h.indexes.length_edges]

/-! ## Edges that come in -/

/-- Free pairs are there for a batch. -/
theorem supplied {links : List (Nat × Nat)} (hlt : ∀ l ∈ links, l.1 < n ∧ l.2 < n) {ps : List Nat}
    (hlen : ps.length ≤ links.length) (hps : ps.Nodup) (hsub : ps ⊆ free) : Supplied n rot (links.zip ps) := by
  have hmem {l : (Nat × Nat) × Nat} (hl : l ∈ links.zip ps) := (h.mem_free l.2).mp (hsub (List.of_mem_zip hl).2)
  refine ⟨fun l hl => hlt l.1 (List.of_mem_zip hl).1, fun l hl => (hmem hl).1, fun l hl => (hmem hl).2, ?_⟩
  rw [List.map_snd_zip hlen]
  exact hps

/-- A new edge fits with any free pair. -/
theorem fits_one (hp : p ∈ free) (hu : u < n) (hv : v < n) (huv : u ≠ v) (hE : s(u, v) ∉ E) :
    Fits n E rot [((u, v), p)] := by
  obtain ⟨hp, hunused⟩ := (h.mem_free p).mp hp
  exact ⟨⟨by simp [hu, hv], by simpa using hp, by simpa using hunused, by simp⟩, by simpa using huv,
    by simpa using hE, by simp⟩

/-- A new edge goes in under a free pair. -/
theorem insert_eq (hp : p ∈ free) (hf : Fits n E rot [((u, v), p)]) :
    ∃ edges', edges.insert u v (n + 2 * p) = .ok (.ok true, edges') ∧
      edges'.Indexes n (Leads n (graft n [((u, v), p)] rot)) := by
  have hE : s(u, v) ∉ E := hf.new ((u, v), p) (by simp)
  have hpos := List.length_pos_of_mem hp
  have hroom : edges.size < edges.table.capacity := by
    have hcard := h.size_eq
    have hlen := h.free_length
    exact lt_of_le_of_lt (by omega) h.indexes.room
  obtain ⟨edges', hok, hi, -⟩ := h.indexes.insert_new (x := n + 2 * p) h.directed
    ((h.rotation.graft hf).directed h.few) (fun _ _ _ => h.rotation.leads_graft_one hf)
    (fun y hy => hE ((h.rotation.edge_iff u v).mpr ⟨y, hy⟩)) hroom
  exact ⟨edges', hok, hi⟩

/-- The pairs for a batch are taken from the stack, and its edges are entered if they fit. -/
theorem entered {links : List (Nat × Nat)} (hlt : ∀ l ∈ links, l.1 < n ∧ l.2 < n) (hk : links.length ≤ free.length) :
    ∃ paired, links.zip (free.take links.length).reverse = paired ∧ paired.map Prod.fst = links ∧
      (paired.map Prod.snd ++ free.drop links.length).Perm free ∧ Supplied n rot paired ∧
      ((Fits n E rot paired ∧ ∃ edges', enter n edges paired = .ok (.ok (), edges') ∧
          edges'.Indexes n (Leads n (graft n paired rot))) ∨
        (¬ Fits n E rot paired ∧ ∃ fault, enter n edges paired = .error fault)) := by
  have hlen : (free.take links.length).reverse.length = links.length := by
    rw [List.length_reverse, List.length_take, min_eq_left hk]
  have hs : Supplied n rot (links.zip (free.take links.length).reverse) :=
    h.supplied hlt hlen.le (List.nodup_reverse.mpr (h.free_nodup.sublist (List.take_sublist ..)))
      fun p hp => List.mem_of_mem_take (List.mem_reverse.mp hp)
  have hempty : Fits n E rot [] := ⟨hs.sublist (List.nil_sublist _), by simp, by simp, by simp⟩
  refine ⟨_, rfl, List.map_fst_zip hlen.ge, ?_, hs, ?_⟩
  · rw [List.map_snd_zip hlen.le]
    refine ((List.reverse_perm _).append_right _).trans ?_
    rw [List.take_append_drop]
  · have hroom : edges.size + (links.zip (free.take links.length).reverse).length ≤ n - 1 := by
      rw [List.length_zip, hlen, min_self, h.size_eq]
      have := h.free_length
      omega
    exact enter_spec h.rotation h.few _ [] hs hempty h.indexes hroom

/-- The books with new edges. -/
theorem grafted (hf : Fits n E rot links) (hfree : (links.map Prod.snd ++ rest).Perm free)
    (hi : edges'.Indexes n (Leads n (graft n links rot))) :
    Ledger n edges' rest (graft n links rot) (E ∪ edgeSet (links.map Prod.fst)) := by
  have hnodup := hfree.nodup_iff.mpr h.free_nodup
  refine ⟨h.few, h.rotation.graft hf, hi, (List.nodup_append.mp hnodup).2.1, fun q => ?_, ?_⟩
  · have hmem := hfree.mem_iff (a := q)
    rw [List.mem_append, h.mem_free] at hmem
    have hnew : q ∈ links.map Prod.snd ↔ ∃ w, n + 2 * q ∈ newAt n links w := by
      simp only [mem_newAt, List.mem_map]
      constructor
      · rintro ⟨l, hl, rfl⟩
        exact ⟨l.1.1, l, hl, (mem_leaving (hf.loopless l hl)).mpr (.inl ⟨rfl, rfl⟩)⟩
      · rintro ⟨w, l, hl, hx⟩
        refine ⟨l, hl, ?_⟩
        rcases (mem_leaving (hf.loopless l hl)).mp hx with ⟨-, he⟩ | ⟨-, he⟩ <;> omega
    simp only [mem_graft, not_or, forall_and]
    constructor
    · intro hq
      obtain ⟨hlt, hunused⟩ := hmem.mp (.inr hq)
      refine ⟨hlt, fun w hw => ?_, hunused⟩
      exact (List.nodup_append.mp hnodup).2.2 q (hnew.mpr ⟨w, hw⟩) q hq rfl
    · rintro ⟨hlt, hw, hunused⟩
      refine (hmem.mpr ⟨hlt, hunused⟩).resolve_left fun hm => ?_
      obtain ⟨w, hx⟩ := hnew.mp hm
      exact hw w hx
  · have := h.free_length
    rw [← hfree.length_eq, List.length_append, List.length_map] at this
    rw [card_union_edgeSet (by rw [List.map_map]; exact hf.edges_nodup) (List.forall_mem_map.mpr hf.new),
      List.length_map]
    omega

end Ledger

/-! ## Edges that go out -/

/-- Striking several edges out of the index. -/
theorem eraseEdges_spec {n : Nat} : ∀ {cuts : List (Nat × Nat)} {R : Nat → Nat → Nat → Prop} {e : EdgeIndex},
    EdgeIndex.Directed n R → e.Indexes n R → (∀ c ∈ cuts, ∃ x, R c.1 c.2 x) →
    (cuts.map fun c => s(c.1, c.2)).Nodup →
    ∃ e', eraseEdges e cuts = .ok e' ∧ e'.Indexes n fun a b y => R a b y ∧ s(a, b) ∉ edgeSet cuts := by
  intro cuts
  induction cuts with
  | nil => exact fun {R e} _ hi _ _ => ⟨e, rfl, by simpa using hi⟩
  | cons c cuts ih =>
    intro R e hR hi hc hn
    obtain ⟨u, v⟩ := c
    obtain ⟨⟨x, hx⟩, hc⟩ := List.forall_mem_cons.mp hc
    obtain ⟨hnot, hn⟩ := List.nodup_cons.mp hn
    have hdel (a b y : Nat) : R a b y ∧ s(a, b) ≠ s(u, v) ↔
        R a b y ∧ ¬ (a = u ∧ b = v) ∧ ¬ (a = v ∧ b = u) := by
      rw [Ne, Sym2.eq_iff, not_or]
    obtain ⟨e₁, he₁, hi₁, -⟩ := hi.erase hR hdel hx
    have hR₁ : EdgeIndex.Directed n fun a b y => R a b y ∧ s(a, b) ≠ s(u, v) :=
      ⟨hR.few, fun a b y hy => hR.range a b y hy.1, fun a b y hy => ⟨hR.mated a b y hy.1, Sym2.eq_swap ▸ hy.2⟩,
        fun a b y z hy hz => hR.unique a b y z hy.1 hz.1⟩
    obtain ⟨e', he', hi'⟩ := ih hR₁ hi₁ (fun d hd => (hc d hd).imp fun y hy =>
      ⟨hy, fun he => hnot (List.mem_map.mpr ⟨d, hd, he⟩)⟩) hn
    refine ⟨e', by rw [eraseEdges, he₁, ok_bind, he'], ?_⟩
    simpa only [edgeSet_cons, Finset.mem_insert, not_or, and_assoc] using hi'

namespace Ledger

theorem edgeElements_eq {f : Forest} (h : Ledger f.vertices f.edges free rot E) {c : Nat × Nat}
    (hE : s(c.1, c.2) ∈ E) :
    f.edgeElements c.1 c.2 =
      .ok (element f.vertices rot c, mate f.vertices (element f.vertices rot c)) := by
  have hl := h.rotation.leads_element hE
  obtain ⟨-, -, -, hle, hlt⟩ := h.directed.range _ _ _ hl
  rw [edgeElements, h.indexes.find?_eq h.directed hl, ok_bind]
  show (f.twin _ >>= _) = _
  rw [twin, TourForest.twin_eq hle hlt]
  rfl

/-- The elements of the edges of a batch. -/
theorem mapM_edgeElements {f : Forest} (h : Ledger f.vertices f.edges free rot E) (hc : Strikes E cuts) :
    (cuts.mapM fun c => f.edgeElements c.1 c.2) =
      .ok ((cuts.map (element f.vertices rot)).map fun x => (x, mate f.vertices x)) := by
  rw [List.map_map]
  exact mapM_ok fun c hm => h.edgeElements_eq (hc.present c hm)

variable (h : Ledger n edges free rot E) (hc : Strikes E cuts)
include h hc

/-- The pairs of the edges of a batch. -/
theorem mapM_pairOf : (((cuts.map (element n rot)).map fun x => (x, mate n x)).mapM fun e => pairOf n e.1) =
    .ok (freed n rot cuts) := by
  rw [mapM_ok (g := fun e => (e.1 - n) / 2), List.map_map, List.map_map]
  · rfl
  · rw [List.map_map]
    exact List.forall_mem_map.mpr fun c hm =>
      pairOf_eq (h.rotation.range _ _ (h.rotation.leads_element (hc.present c hm)).1).2.1

/-- The index without the edges of a batch. -/
theorem erased : ∃ edges', eraseEdges edges cuts = .ok edges' ∧
    edges'.Indexes n (Leads n (prune (struck n rot cuts) rot)) := by
  obtain ⟨edges', hedges, hi⟩ := eraseEdges_spec h.directed h.indexes
    (fun c hm => ⟨_, h.rotation.leads_element (hc.present c hm)⟩) hc.nodup
  refine ⟨edges', hedges, ?_⟩
  have heq : Leads n (prune (struck n rot cuts) rot) = fun a b y => Leads n rot a b y ∧ s(a, b) ∉ edgeSet cuts := by
    funext a b y
    rw [(h.rotation.prunes hc).leads_iff]
    exact propext (and_congr_right fun hy => not_congr (h.rotation.mem_struck_iff hc hy))
  rwa [heq]

/-- The books without the edges of a batch. -/
theorem pruned {pairs : List Nat} (hi : edges'.Indexes n (Leads n (prune (struck n rot cuts) rot)))
    (hpairs : pairs.Perm (freed n rot cuts)) :
    Ledger n edges' (pairs ++ free) (prune (struck n rot cuts) rot) (E \ edgeSet cuts) := by
  have hg := h.rotation.prunes hc
  have hmem (q : Nat) : q ∈ pairs ↔ n + 2 * q ∈ struck n rot cuts :=
    hpairs.mem_iff.trans (h.rotation.mem_freed hc)
  have hfree := h.free_length
  refine ⟨h.few, h.rotation.strike hc, hi, ?_, fun q => ?_, ?_⟩
  · refine List.nodup_append.mpr ⟨hpairs.nodup_iff.mpr (h.rotation.nodup_freed hc), h.free_nodup, ?_⟩
    rintro q hq _ hq' rfl
    obtain ⟨v, hv⟩ := hg.live _ ((hmem q).mp hq)
    exact ((h.mem_free q).mp hq').2 v hv
  · simp only [List.mem_append, hmem, h.mem_free, mem_prune, not_and_not_right]
    constructor
    · rintro (hq | ⟨hlt, hq⟩)
      · have := (hg.range h.rotation hq).2
        unfold arenaSize at this
        exact ⟨by omega, fun _ _ => hq⟩
      · exact ⟨hlt, fun v hv => absurd hv (hq v)⟩
    · rintro ⟨hlt, hq⟩
      by_cases hm : n + 2 * q ∈ struck n rot cuts
      · exact .inl hm
      · exact .inr ⟨hlt, fun v hv => hm (hq v hv)⟩
  · rw [List.length_append, hpairs.length_eq, freed, List.length_map]
    have := hc.card
    omega

end Ledger

end TourForest.Forest
