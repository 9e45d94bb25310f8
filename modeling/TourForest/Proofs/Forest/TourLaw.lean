import TourForest.Proofs.Forest.Run

/-!
# The law of tours

Along every run, the tour of a vertex is a cycle through the vertices of its tree and the elements of both
directions of the edges between them, and each element ends where the next one begins (`TourLaw`). The
elements of free pairs are alone, and no element is marked. None of this needs the sums, and it holds for any number of
vertices.
-/

namespace TourForest.Forest

variable {n : Nat} {settings : Settings} {f : Forest} {rot : Nat → List Nat} {E : Finset (Sym2 Nat)}
  {t h t' h' p x y v : Nat}

/-- Element `x` goes from tail `t` to head `h`: a vertex goes to itself, and the element of an edge goes along
the edge. -/
def Goes (f : Forest) (E : Finset (Sym2 Nat)) (x t h : Nat) : Prop :=
  x < f.vertices ∧ t = x ∧ h = x ∨ s(t, h) ∈ E ∧ f.edges.find? t h = .ok (some x)

/-- The tours are closed walks around the trees of the graph with edges `E`. -/
structure TourLaw (f : Forest) (E : Finset (Sym2 Nat)) : Prop where
  /-- A sequence with a vertex is a cycle. -/
  cycle : ∀ x < f.tours.size, ∀ xs, f.tours.list.sequence x = .ok xs → (∃ v ∈ xs, v < f.vertices) →
    f.tours.list.IsSequence true xs
  /-- The cycle of a vertex has each element of its tree once. -/
  tour : ∀ v < f.vertices, ∃ xs, f.tours.list.sequence v = .ok xs ∧ f.tours.list.IsSequence true xs ∧ xs.Nodup ∧
    xs.head? = some v ∧ ∀ x, x ∈ xs ↔ ∃ t h, f.Goes E x t h ∧ (graph E).Reachable v t
  /-- Each direction of an edge has an element, of value 0. -/
  found : ∀ t h, s(t, h) ∈ E → ∃ x, f.edges.find? t h = .ok (some x) ∧ f.vertices ≤ x ∧ f.tours.valueAt x 0 = 0
  /-- An element has one tail and one head. -/
  ends : ∀ x t h t' h', f.Goes E x t h → f.Goes E x t' h' → t = t' ∧ h = h'
  /-- The head of an element is the tail of the next one. -/
  closed : ∀ x y, f.tours.list.nextAt x 0 = some y → ∃ t h h', f.Goes E x t h ∧ f.Goes E y h h'
  /-- An element of a free pair is alone. -/
  free : ∀ p ∈ f.freePairs, ∀ x ∈ [f.vertices + 2 * p, f.vertices + 2 * p + 1],
    f.tours.list.sequence x = .ok [x] ∧
      (∀ k, f.tours.list.nextAt x k = none ∧ f.tours.list.prevAt x k = none) ∧
      ∀ k < f.tours.height x, f.tours.valueAt x k = 0
  vertex : ∀ v < f.vertices, f.tours.valueAt v 0 = 1
  unmarked : ∀ x < f.tours.size, f.isDoomed (some x) = .ok false

namespace Toured

theorem goes_iff (hr : f.Toured rot E) :
    f.Goes E x t h ↔ x < f.vertices ∧ t = x ∧ h = x ∨ Leads f.vertices rot t h x := by
  refine or_congr_right ⟨fun ⟨hE, hx⟩ => (hr.toLedger.find?_iff hE).mp hx, fun hl => ?_⟩
  have hE : s(t, h) ∈ E := (hr.rotation.edge_iff t h).mpr ⟨x, hl⟩
  exact ⟨hE, (hr.toLedger.find?_iff hE).mpr hl⟩

/-- The elements in the ring of a vertex are those that leave it. -/
theorem mem_ring_iff (hr : f.Toured rot E) (ht : t < f.vertices) : x ∈ ring rot t ↔ ∃ h, f.Goes E x t h := by
  simp only [hr.goes_iff]
  constructor
  · intro hx
    rcases mem_ring.mp hx with rfl | hx
    · exact ⟨x, .inl ⟨ht, rfl, rfl⟩⟩
    · obtain ⟨h, -, hm⟩ := hr.rotation.mated t x hx
      exact ⟨h, .inr ⟨hx, hm⟩⟩
  · rintro ⟨h, ⟨-, rfl, -⟩ | hl⟩
    · exact mem_ring.mpr (.inl rfl)
    · exact mem_ring.mpr (.inr hl.1)

theorem lt_of_goes (hr : f.Toured rot E) (hx : f.Goes E x t h) : t < f.vertices := by
  rcases hr.goes_iff.mp hx with ⟨hlt, rfl, -⟩ | hl
  · exact hlt
  · exact (hr.rotation.range t x hl.1).1

theorem goes_unique (hr : f.Toured rot E) (hx : f.Goes E x t h) (hx' : f.Goes E x t' h') : t = t' ∧ h = h' := by
  rcases hr.goes_iff.mp hx with ⟨hlt, rfl, rfl⟩ | hl <;> rcases hr.goes_iff.mp hx' with ⟨hlt', rfl, rfl⟩ | hl'
  · exact ⟨rfl, rfl⟩
  · exact absurd (hr.rotation.range _ _ hl'.1).2.1 (by omega)
  · exact absurd (hr.rotation.range _ _ hl.1).2.1 (by omega)
  · exact hr.rotation.leads_inj hl hl'

/-- The head of an element is the tail of the next one. -/
theorem goes_next (hr : f.Toured rot E) (hxy : f.tours.list.nextAt x 0 = some y) :
    ∃ t h h', f.Goes E x t h ∧ f.Goes E y h h' := by
  have hf := (hr.next_iff x y).mp hxy
  obtain ⟨v, hv, hm, hy⟩ := Rotation.follows_mem hf
  obtain ⟨u, hu, hx⟩ := hr.rotation.exists_ring_mate_iff.mp ⟨v, hv, hm⟩
  obtain ⟨h', hy'⟩ := (hr.mem_ring_iff hv).mp hy
  rcases hr.rotation.adj_of_follows hu hv hx hy hf with ⟨rfl, rfl⟩ | hl
  · exact ⟨x, x, h', .inl ⟨hu, rfl, rfl⟩, hy'⟩
  · exact ⟨u, v, h', hr.goes_iff.mpr (.inr hl), hy'⟩

/-- A sequence with a vertex is a cycle. -/
theorem cycle (hr : f.Toured rot E) (hx : x < f.tours.size) {xs : List Nat}
    (hxs : f.tours.list.sequence x = .ok xs) (hv : v < f.vertices) (hvx : v ∈ xs) : f.tours.list.IsSequence true xs := by
  have hw := hr.woven
  obtain ⟨closed, ys, hys, -, hseq, -⟩ := hw.sequence hx
  obtain rfl := Except.ok.inj (hxs.symm.trans hys)
  obtain ⟨zs, -, hseq', hhead, -⟩ := hr.tour hv
  have hsub := hseq.subset_of_mem hseq' hw hvx (List.mem_of_head? hhead)
  cases closed with
  | true => exact hseq
  | false =>
    obtain ⟨ys, l, rfl⟩ := (List.eq_nil_or_concat xs).resolve_left (List.ne_nil_of_mem hvx)
    rw [List.concat_eq_append] at hseq hsub
    have hnone : f.tours.list.nextAt l 0 = none := SkipList.Row.next_last (hseq.strand_zero hw)
    exact absurd (hseq'.of_next_eq_none hw (hsub (by simp)) hnone).1 (by decide)

theorem lt_size_of_free (hr : f.Toured rot E) (hp : p ∈ f.freePairs)
    (hx : x = f.vertices + 2 * p ∨ x = f.vertices + 2 * p + 1) : x < f.tours.list.size := by
  have hsize : f.tours.list.size = arenaSize f.vertices := hr.size
  have := ((hr.mem_free p).mp hp).1
  unfold arenaSize at hsize
  omega

/-- Nothing is linked to an element of a free pair on any level, and its values are all 0. -/
theorem free (hr : f.Toured rot E) (hp : p ∈ f.freePairs)
    (hx : x = f.vertices + 2 * p ∨ x = f.vertices + 2 * p + 1) :
    f.tours.list.sequence x = .ok [x] ∧
      (∀ k, f.tours.list.nextAt x k = none ∧ f.tours.list.prevAt x k = none) ∧
      ∀ k < f.tours.height x, f.tours.valueAt x k = 0 := by
  have hal := hr.alone (hr.free_apart hp hx)
  exact ⟨hr.woven.sequence_of_alone (hr.lt_size_of_free hp hx) hal.next hal.prev, hr.woven.links_of_alone hal,
    fun k _ => hr.blank p hp x hx k⟩

theorem tourLaw (hr : f.Toured rot E) : f.TourLaw E where
  cycle x hx xs hxs := fun ⟨_, hvx, hv⟩ => hr.cycle hx hxs hv hvx
  tour v hv := by
    obtain ⟨xs, hok, hseq, hhead, hmem⟩ := hr.tour hv
    refine ⟨xs, hok, hseq, hseq.nodup, hhead, fun x => (hmem x).trans ?_⟩
    constructor
    · rintro ⟨w, hw, hreach, hx⟩
      obtain ⟨h, hx⟩ := (hr.mem_ring_iff hw).mp hx
      exact ⟨w, h, hx, hreach⟩
    · rintro ⟨t, h, hx, hreach⟩
      have ht := hr.lt_of_goes hx
      exact ⟨t, ht, hreach, (hr.mem_ring_iff ht).mpr ⟨h, hx⟩⟩
  found t h hE := by
    obtain ⟨x, hx⟩ := (hr.rotation.edge_iff t h).mp hE
    have hle := (hr.rotation.range t x hx.1).2.1
    exact ⟨x, hr.indexes.find?_eq hr.directed hx, hle, by rw [hr.own, if_neg (not_lt.mpr hle)]⟩
  ends x t h t' h' := hr.goes_unique
  closed x y := hr.goes_next
  free p hp x hx := hr.free hp (by simpa using hx)
  vertex v hv := by rw [hr.own, if_pos hv]
  unmarked x hx := by simpa using (hr.marked []).doomed x (hx.trans_eq hr.size)

end Toured

/-- The law of tours holds along all runs, for any number of vertices. -/
theorem tourLaw_of_run (hf : Run n settings f E) : f.vertices = n ∧ f.TourLaw E := by
  obtain ⟨hv, -, rot, hr⟩ := hf.toured
  exact ⟨hv, hr.tourLaw⟩

/-- The tour of two vertices that have been linked. -/
theorem tourLaw_of_linked_pair : ∃ f : Forest, ∃ xs x y, Run 2 {} f {s(0, 1)} ∧ f.TourLaw {s(0, 1)} ∧
    f.tours.list.sequence 0 = .ok xs ∧ f.edges.find? 0 1 = .ok (some x) ∧ f.edges.find? 1 0 = .ok (some y) ∧
      1 ∈ xs ∧ x ∈ xs ∧ y ∈ xs := by
  obtain ⟨f₀, pools, hok₀, hr₀, hv₀, -⟩ := outcome_build (n := 2) .empty (by decide) {}
  have hsep : ¬ (graph ∅).Reachable 0 1 := not_reachable_empty (by decide)
  obtain ⟨f, hok⟩ := hr₀.progress.link 0 (by omega) 1 (by omega) hsep
  have hf : Run 2 {} f {s(0, 1)} := .linked (.built hok₀) (by decide) (by decide) hok
  obtain ⟨hv, hlaw⟩ := tourLaw_of_run hf
  obtain ⟨xs, hxs, -, -, -, hmem⟩ := hlaw.tour 0 (by omega)
  have hE : s(0, 1) ∈ ({s(0, 1)} : Finset (Sym2 Nat)) := by decide
  have hE' : s(1, 0) ∈ ({s(0, 1)} : Finset (Sym2 Nat)) := by decide
  obtain ⟨x, hx, -⟩ := hlaw.found 0 1 hE
  obtain ⟨y, hy, -⟩ := hlaw.found 1 0 hE'
  have hreach : (graph {s(0, 1)}).Reachable 0 1 := by
    apply SimpleGraph.Adj.reachable
    exact SimpleGraph.fromEdgeSet_adj _ |>.mpr ⟨by decide, by decide⟩
  refine ⟨f, xs, x, y, hf, hlaw, hxs, hx, hy, (hmem 1).mpr ⟨1, 1, .inl ⟨by omega, rfl, rfl⟩, hreach⟩, ?_, ?_⟩
  · exact (hmem x).mpr ⟨0, 1, .inr ⟨hE, hx⟩, .rfl⟩
  · exact (hmem y).mpr ⟨1, 0, .inr ⟨hE', hy⟩, hreach⟩

end TourForest.Forest
