import TourForest.Proofs.Forest.Orderly

/-!
# The law of pairs

Each pair of elements is free or belongs to one edge, and the index gives the two elements of the pair to the two
directions of that edge. No pair gets lost and none is handed out twice, however edges come and go.
-/

namespace TourForest.Forest

variable {n p u v x y : Nat} {settings : Settings} {f : Forest} {rot : Nat → List Nat} {E : Finset (Sym2 Nat)}

/-- The index has an element of pair `p` for edge `e`. -/
def Carries (f : Forest) (e : Nat × Nat) (p : Nat) : Prop :=
  ∃ x, f.edges.find? e.1 e.2 = .ok (some x) ∧ pairOf f.vertices x = .ok p

/-- Element `x` belongs to one of the directions of edge `e`. -/
def Serves (f : Forest) (e : Nat × Nat) (x : Nat) : Prop :=
  f.edges.find? e.1 e.2 = .ok (some x) ∨ f.edges.find? e.2 e.1 = .ok (some x)

/-- The elements of pair `p` are those of the two directions between `u` and `v`, and each other's twins. -/
def Mated (f : Forest) (u v p : Nat) : Prop :=
  ∃ x y, f.edges.find? u v = .ok (some x) ∧ f.edges.find? v u = .ok (some y) ∧
    f.twin x = .ok y ∧ f.twin y = .ok x ∧ pairOf f.vertices x = .ok p ∧ pairOf f.vertices y = .ok p ∧
    (elementsOfPair f.vertices p = (x, y) ∨ elementsOfPair f.vertices p = (y, x))

/-- The edges of a forest and its free pairs share out all pairs. -/
structure PoolLaw (f : Forest) (E : Finset (Sym2 Nat)) : Prop where
  mem_edges : ∀ u v, (u, v) ∈ f.edges.edges ↔ u < v ∧ s(u, v) ∈ E
  free_nodup : f.freePairs.Nodup
  free_lt : ∀ p ∈ f.freePairs, p < f.vertices - 1
  /-- A free pair belongs to no edge. -/
  free : ∀ p ∈ f.freePairs, ∀ e ∈ f.edges.edges, ¬ f.Carries e p
  /-- Any other pair belongs to one edge. -/
  used : ∀ p < f.vertices - 1, p ∉ f.freePairs → ∃! e, e ∈ f.edges.edges ∧ f.Carries e p
  count : f.edgeCount + f.freePairs.length = f.vertices - 1
  twins : ∀ u v, s(u, v) ∈ E → ∃ p < f.vertices - 1, f.Mated u v p
  disjoint : ∀ e ∈ f.edges.edges, ∀ e' ∈ f.edges.edges, ∀ x, f.Serves e x → f.Serves e' x → e = e'

namespace Ledger

variable (h : Ledger f.vertices f.edges f.freePairs rot E)
include h

theorem carries_iff (hE : s(u, v) ∈ E) :
    f.Carries (u, v) p ↔ ∃ x, Leads f.vertices rot u v x ∧ (x = f.vertices + 2 * p ∨ x = f.vertices + 2 * p + 1) := by
  refine exists_congr fun x => (and_congr_left' (h.find?_iff hE)).trans (and_congr_right fun hx => ?_)
  have hle := (h.rotation.range u x hx.1).2.1
  rw [pairOf_eq hle, Except.ok.injEq]
  omega

/-- An element of a pair that is not free goes along an edge. -/
theorem exists_leads (hp : p < f.vertices - 1) (hfree : p ∉ f.freePairs) :
    ∃ u v, Leads f.vertices rot u v (f.vertices + 2 * p) := by
  rw [h.mem_free, not_and, not_forall] at hfree
  obtain ⟨u, hu⟩ := hfree hp
  rw [not_not] at hu
  obtain ⟨v, -, hv⟩ := h.rotation.mated u _ hu
  exact ⟨u, v, hu, hv⟩

/-- A pair goes with one edge at most. -/
theorem ends_of_carries {a b : Nat} (hx : Leads f.vertices rot u v (f.vertices + 2 * p)) (hab : s(a, b) ∈ E)
    (hc : f.Carries (a, b) p) : s(a, b) = s(u, v) := by
  obtain ⟨y, hy, rfl | rfl⟩ := (h.carries_iff hab).mp hc
  · obtain ⟨rfl, rfl⟩ := h.rotation.leads_inj hy hx
    rfl
  · have hy' := Rotation.leads_mate hy
    rw [mate_odd] at hy'
    obtain ⟨rfl, rfl⟩ := h.rotation.leads_inj hy' hx
    exact Sym2.eq_swap

theorem mated (hE : s(u, v) ∈ E) : ∃ p < f.vertices - 1, f.Mated u v p := by
  obtain ⟨x, hx⟩ := (h.rotation.edge_iff u v).mp hE
  have hm := Rotation.leads_mate hx
  obtain ⟨-, hle, hlt⟩ := h.rotation.range u x hx.1
  obtain ⟨-, -, -, -, hw⟩ := h.directed.range u v x hx
  obtain ⟨-, -, -, hle', hw'⟩ := h.directed.range v u _ hm
  have htwin := twin_eq hle hw
  have htwin' := twin_eq hle' hw'
  rw [mate_mate] at htwin'
  refine ⟨(x - f.vertices) / 2, by unfold arenaSize at hlt; omega, x, mate f.vertices x,
    h.indexes.find?_eq h.directed hx, h.indexes.find?_eq h.directed hm, htwin, htwin', pairOf_eq hle,
    by rw [pairOf_eq hle', pair_mate hle], ?_⟩
  rw [elementsOfPair]
  generalize hp : (x - f.vertices) / 2 = p
  have hcases := eq_even_or_odd hle
  rw [hp] at hcases
  rcases hcases with rfl | rfl
  · exact .inl (by rw [mate_even])
  · exact .inr (by rw [mate_odd])

theorem leads_of_serves (hE : s(u, v) ∈ E) (hs : f.Serves (u, v) x) :
    Leads f.vertices rot u v x ∨ Leads f.vertices rot v u x :=
  hs.imp (h.find?_iff hE).mp (h.find?_iff (Sym2.eq_swap ▸ hE)).mp

/-- A pair that is not free goes with one edge. -/
theorem existsUnique_carries (hp : p < f.vertices - 1) (hfree : p ∉ f.freePairs) :
    ∃! e, e ∈ f.edges.edges ∧ f.Carries e p := by
  obtain ⟨u, v, hx⟩ := h.exists_leads hp hfree
  have hE : s(u, v) ∈ E := (h.rotation.edge_iff u v).mpr ⟨_, hx⟩
  have hm := Rotation.leads_mate hx
  rw [mate_even] at hm
  -- The index lists the edge with its smaller end first.
  obtain ⟨a, b, hab, heq, hc⟩ : ∃ a b, a < b ∧ s(a, b) = s(u, v) ∧ f.Carries (a, b) p := by
    rcases Nat.lt_or_gt_of_ne (h.rotation.ne_of_leads hx) with huv | hvu
    · exact ⟨u, v, huv, rfl, (h.carries_iff hE).mpr ⟨_, hx, .inl rfl⟩⟩
    · exact ⟨v, u, hvu, Sym2.eq_swap, (h.carries_iff (Sym2.eq_swap ▸ hE)).mpr ⟨_, hm, .inr rfl⟩⟩
  refine ⟨(a, b), ⟨h.mem_edges.mpr ⟨hab, heq ▸ hE⟩, hc⟩, ?_⟩
  rintro ⟨a', b'⟩ ⟨he', hc'⟩
  obtain ⟨hab', hE'⟩ := h.mem_edges.mp he'
  have heq' := (h.ends_of_carries hx hE' hc').trans heq.symm
  rcases Sym2.eq_iff.mp heq' with ⟨rfl, rfl⟩ | ⟨rfl, rfl⟩
  · rfl
  · omega

/-- An element belongs to one edge at most. -/
theorem serves_inj {e e' : Nat × Nat} (he : e ∈ f.edges.edges) (he' : e' ∈ f.edges.edges) (hs : f.Serves e x)
    (hs' : f.Serves e' x) : e = e' := by
  obtain ⟨a, b⟩ := e
  obtain ⟨a', b'⟩ := e'
  obtain ⟨hab, hE⟩ := h.mem_edges.mp he
  obtain ⟨hab', hE'⟩ := h.mem_edges.mp he'
  rcases h.leads_of_serves hE hs with hx | hx <;> rcases h.leads_of_serves hE' hs' with hx' | hx' <;>
    obtain ⟨rfl, rfl⟩ := h.rotation.leads_inj hx hx'
  · rfl
  · omega
  · omega
  · rfl

theorem poolLaw : f.PoolLaw E where
  mem_edges u v := h.mem_edges
  free_nodup := h.free_nodup
  free_lt p hp := ((h.mem_free p).mp hp).1
  free := by
    rintro p hp ⟨u, v⟩ he hc
    obtain ⟨-, hunused⟩ := (h.mem_free p).mp hp
    obtain ⟨x, hx, rfl | rfl⟩ := (h.carries_iff (h.mem_edges.mp he).2).mp hc
    · exact hunused u hx.1
    · exact h.rotation.unused_mate hunused u hx.1
  used p hp hfree := h.existsUnique_carries hp hfree
  count := by
    have := h.free_length
    rw [edgeCount, h.size_eq]
    omega
  twins u v hE := h.mated hE
  disjoint _ he _ he' _ hs hs' := h.serves_inj he he' hs hs'

end Ledger

/-- The law of pairs holds along all orderly runs, for any number of vertices. -/
theorem poolLaw_of_run (h : OrderlyRun n settings f E) : f.vertices = n ∧ f.PoolLaw E := by
  obtain ⟨hv, rot, ht⟩ := h.toured
  exact ⟨hv, ht.poolLaw⟩

/-- The only pair of a forest of two vertices is in use once they are linked. -/
theorem poolLaw_of_one_edge : ∃ f, OrderlyRun 2 {} f {s(0, 1)} ∧ f.PoolLaw {s(0, 1)} ∧ f.freePairs = [] ∧
    f.Carries (0, 1) 0 := by
  obtain ⟨f₀, pools, hok₀, hr₀, hv₀, -⟩ := outcome_build (n := 2) .empty (by decide) {}
  have hsep : ¬ (graph ∅).Reachable 0 1 := not_reachable_empty (by decide)
  obtain ⟨f, hok⟩ := hr₀.progress.link 0 (by omega) 1 (by omega) hsep
  have hf : OrderlyRun 2 {} f {s(0, 1)} := .linked (.built hok₀) (by decide) (by decide) hsep hok
  obtain ⟨hv, hlaw⟩ := poolLaw_of_run hf
  obtain ⟨-, rot, ht⟩ := hf.toured
  have hfree : f.freePairs = [] := by
    have hlen := ht.free_length
    rw [hv, Finset.card_singleton] at hlen
    exact List.eq_nil_of_length_eq_zero (by omega)
  obtain ⟨⟨a, b⟩, ⟨hm, hc⟩, -⟩ := hlaw.used 0 (by omega) (by simp [hfree])
  obtain ⟨hab, hE⟩ := (hlaw.mem_edges a b).mp hm
  refine ⟨f, hf, hlaw, hfree, ?_⟩
  rcases Sym2.eq_iff.mp (Finset.mem_singleton.mp hE) with ⟨rfl, rfl⟩ | ⟨rfl, rfl⟩
  · exact hc
  · omega

end TourForest.Forest
