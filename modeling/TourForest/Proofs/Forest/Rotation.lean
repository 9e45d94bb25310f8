import Mathlib.Combinatorics.SimpleGraph.Acyclic
import TourForest.Forest.Basic
import TourForest.Proofs.EdgeIndex

/-!
# Rotations

A `Rotation` of a graph lists, for each vertex, the elements of the directions that leave it. It says how
to tour the graph: whoever comes to a vertex by an element leaves it by the one after the mate of that
element in the ring of the vertex, which is the vertex itself and then the elements that leave it.

* `Rotation.perm`: in each ring the elements may come in any order;
* `Rotation.follows_unique`, `Rotation.follows_inj`: each element has one before and one after it;
* `Rotation.adj_of_follows`: a tour stays in one tree;
* `Rotation.spread`: in a graph without cycles, the tour from a vertex comes to all of its tree.
-/

namespace TourForest

/-! ## Neighbours in lists -/

section

variable {a b c e : Nat} {xs ys : List Nat} {P R : Nat → Prop}

theorem mem_tail_of_adjacent (h : [a, b] <:+: xs) : b ∈ xs.tail := by
  obtain ⟨s, t, rfl⟩ := h
  cases s <;> simp

theorem mem_left_of_adjacent (h : [a, b] <:+: xs ++ [e]) : a ∈ xs := by
  simpa using mem_tail_of_adjacent (List.reverse_infix.mpr h)

theorem mem_of_adjacent (h : [a, b] <:+: xs) : a ∈ xs ∧ b ∈ xs :=
  ⟨h.subset List.mem_cons_self, h.subset (List.mem_cons_of_mem _ List.mem_cons_self)⟩

/-- An element that occurs once is behind one element. -/
theorem infix_inj (hn : xs.tail.Nodup) (h : [a, c] <:+: xs) (h' : [b, c] <:+: xs) : a = b := by
  induction xs with
  | nil => simp at h
  | cons x xs ih =>
    have hcons {d : Nat} (hd : [d, c] <:+: x :: xs) : d = x ∧ xs.head? = some c ∨ [d, c] <:+: xs := by
      rcases List.infix_cons_iff.mp hd with ⟨t, ht⟩ | hd
      · rw [List.cons_append, List.cons_append, List.cons.injEq] at ht
        exact .inl ⟨ht.1, by rw [← ht.2]; rfl⟩
      · exact .inr hd
    have habs {d : Nat} (hd : [d, c] <:+: xs) (hh : xs.head? = some c) : False := by
      obtain ⟨t, rfl⟩ := List.head?_eq_some_iff.mp hh
      exact (List.nodup_cons.mp hn).1 (mem_tail_of_adjacent hd)
    rcases hcons h with ⟨ha, hh⟩ | h <;> rcases hcons h' with ⟨hb, hh'⟩ | h'
    · exact ha.trans hb.symm
    · exact (habs h' hh).elim
    · exact (habs h hh').elim
    · exact ih (hn.sublist (List.tail_sublist _)) h h'

/-- An element that occurs once is before one element. -/
theorem infix_unique (hn : xs.Nodup) (h : [a, b] <:+: xs ++ [e]) (h' : [a, c] <:+: xs ++ [e]) : b = c :=
  infix_inj (c := a) (by simpa using hn) (List.reverse_infix.mpr h) (List.reverse_infix.mpr h')

theorem exists_infix_right (h : a ∈ xs) : ∃ b, [a, b] <:+: xs ++ [e] := by
  obtain ⟨s, t, rfl⟩ := List.append_of_mem h
  rcases t with _ | ⟨b, t⟩
  · exact ⟨e, s, [], by simp⟩
  · exact ⟨b, s, t ++ [e], by simp⟩

theorem exists_infix_left (h : b ∈ xs) : ∃ a, [a, b] <:+: e :: xs := by
  obtain ⟨a, ha⟩ := exists_infix_right (e := e) (List.mem_reverse.mpr h)
  refine ⟨a, List.reverse_infix.mp ?_⟩
  simpa using ha

/-- What goes from each element to the next one goes from one element to all after it. -/
theorem forall_of_adjacent (hs : ∀ a b, [a, b] <:+: xs → R a → P b) (hP : ∀ a, P a → R a) :
    ∀ {s t : List Nat} {a : Nat}, xs = s ++ a :: t → R a → ∀ b ∈ t, P b := by
  intro s t
  induction t generalizing s with
  | nil => simp
  | cons b t ih =>
    intro a hx ha
    have hb := hs a b ⟨s, t, by simp [hx]⟩ ha
    exact List.forall_mem_cons.mpr ⟨hb, ih (s := s ++ [a]) (by simp [hx]) (hP b hb)⟩

end

/-! ## Rotations -/

variable {n : Nat} {rot : Nat → List Nat} {E : Finset (Sym2 Nat)} {u v w x y z : Nat}

/-- The graph with edges `E`. -/
def graph (E : Finset (Sym2 Nat)) : SimpleGraph Nat := SimpleGraph.fromEdgeSet (E : Set (Sym2 Nat))

theorem graph_empty : graph ∅ = ⊥ := by
  rw [graph, Finset.coe_empty, SimpleGraph.fromEdgeSet_empty]

theorem adj_of_mem (hE : s(u, v) ∈ E) (huv : u ≠ v) : (graph E).Adj u v :=
  SimpleGraph.fromEdgeSet_adj _ |>.mpr ⟨hE, huv⟩

theorem isAcyclic_empty : (graph ∅).IsAcyclic := graph_empty ▸ SimpleGraph.isAcyclic_bot

theorem not_reachable_empty (huv : u ≠ v) : ¬ (graph ∅).Reachable u v := by
  rwa [graph_empty, SimpleGraph.reachable_bot]

/-- The edges between the pairs of a list. -/
def edgeSet (pairs : List (Nat × Nat)) : Finset (Sym2 Nat) := (pairs.map fun e => s(e.1, e.2)).toFinset

@[simp] theorem edgeSet_nil : edgeSet [] = ∅ := rfl

@[simp] theorem edgeSet_cons (e : Nat × Nat) (pairs : List (Nat × Nat)) :
    edgeSet (e :: pairs) = insert s(e.1, e.2) (edgeSet pairs) := by
  simp [edgeSet]

theorem edgeSet_append (pairs pairs' : List (Nat × Nat)) :
    edgeSet (pairs ++ pairs') = edgeSet pairs ∪ edgeSet pairs' := by
  rw [edgeSet, List.map_append, List.toFinset_append]
  rfl

theorem edgeSet_congr {pairs pairs' : List (Nat × Nat)}
    (hp : (pairs.map fun e => s(e.1, e.2)).Perm (pairs'.map fun e => s(e.1, e.2))) : edgeSet pairs = edgeSet pairs' :=
  List.toFinset_eq_of_perm _ _ hp

theorem edgeSet_perm {pairs pairs' : List (Nat × Nat)} (hp : pairs.Perm pairs') : edgeSet pairs = edgeSet pairs' :=
  edgeSet_congr (hp.map _)

theorem mem_edgeSet {pairs : List (Nat × Nat)} {d : Sym2 Nat} :
    d ∈ edgeSet pairs ↔ ∃ e ∈ pairs, s(e.1, e.2) = d := by
  simp [edgeSet]

theorem disjoint_edgeSet {pairs : List (Nat × Nat)} (hn : ∀ e ∈ pairs, s(e.1, e.2) ∉ E) :
    Disjoint E (edgeSet pairs) := by
  refine Finset.disjoint_right.mpr fun d hd hE => ?_
  obtain ⟨e, he, rfl⟩ := mem_edgeSet.mp hd
  exact hn e he hE

/-- The ring of a vertex, back to the vertex. -/
def ring (rot : Nat → List Nat) (v : Nat) : List Nat := v :: (rot v ++ [v])

/-- Element `x` goes from `u` to `v`. -/
def Leads (n : Nat) (rot : Nat → List Nat) (u v x : Nat) : Prop := x ∈ rot u ∧ mate n x ∈ rot v

/-- The tour has `y` behind `x`. -/
def Follows (n : Nat) (rot : Nat → List Nat) (x y : Nat) : Prop := ∃ v < n, [mate n x, y] <:+: ring rot v

/-- The elements of the edges `E` between vertices below `n`, by the vertex that they leave. -/
structure Rotation (n : Nat) (E : Finset (Sym2 Nat)) (rot : Nat → List Nat) : Prop where
  nodup : ∀ v, (rot v).Nodup
  range : ∀ v, ∀ x ∈ rot v, v < n ∧ n ≤ x ∧ x < Forest.arenaSize n
  home : ∀ u v x, x ∈ rot u → x ∈ rot v → u = v
  mated : ∀ u x, x ∈ rot u → ∃ v, v ≠ u ∧ mate n x ∈ rot v
  simple : ∀ u v x y, Leads n rot u v x → Leads n rot u v y → x = y
  edge_iff : ∀ u v, s(u, v) ∈ E ↔ ∃ x, Leads n rot u v x

theorem mem_ring : x ∈ ring rot v ↔ x = v ∨ x ∈ rot v := by
  simp only [ring, List.mem_cons, List.mem_append, List.not_mem_nil, or_false]
  tauto

theorem ring_eq (rot : Nat → List Nat) (v : Nat) : ring rot v = (v :: rot v) ++ [v] := rfl

/-- The ring of a vertex ends at the vertex. -/
theorem mem_of_ring_eq {d : Nat} {s t : List Nat} (hv : v < n) (hd : n ≤ d) (hst : s ++ d :: t = ring rot v) :
    v ∈ t := by
  have hlast := congrArg List.getLast? hst
  rw [ring_eq, List.getLast?_concat] at hlast
  rcases List.eq_nil_or_concat t with rfl | ⟨t, l, rfl⟩
  · rw [List.getLast?_concat, Option.some.injEq] at hlast
    omega
  · rw [List.concat_eq_append, ← List.cons_append, ← List.append_assoc, List.getLast?_concat,
      Option.some.injEq] at hlast
    simp [hlast]

namespace Rotation

theorem ne_of_leads (h : Rotation n E rot) (hx : Leads n rot u v x) : u ≠ v := by
  obtain ⟨w, hw, hm⟩ := h.mated u x hx.1
  rw [h.home v w _ hx.2 hm]
  exact hw.symm

theorem leads_mate (hx : Leads n rot u v x) : Leads n rot v u (mate n x) :=
  ⟨hx.2, by rw [mate_mate]; exact hx.1⟩

/-- In which order the elements that leave a vertex come does not show in where they lead. -/
theorem leads_perm {rot' : Nat → List Nat} (hp : ∀ v, (rot' v).Perm (rot v)) : Leads n rot' = Leads n rot := by
  funext u v x
  rw [Leads, (hp u).mem_iff, (hp v).mem_iff, Leads]

/-- The elements that leave a vertex may come in any order. -/
theorem perm {rot' : Nat → List Nat} (h : Rotation n E rot) (hp : ∀ v, (rot' v).Perm (rot v)) : Rotation n E rot' where
  nodup v := (hp v).nodup_iff.mpr (h.nodup v)
  range v x hx := h.range v x ((hp v).mem_iff.mp hx)
  home u v x hu hv := h.home u v x ((hp u).mem_iff.mp hu) ((hp v).mem_iff.mp hv)
  mated u x hx := by
    obtain ⟨v, hv, hm⟩ := h.mated u x ((hp u).mem_iff.mp hx)
    exact ⟨v, hv, (hp v).mem_iff.mpr hm⟩
  simple := by
    rw [leads_perm hp]
    exact h.simple
  edge_iff := by
    rw [leads_perm hp]
    exact h.edge_iff

/-- As a relation, a rotation gives one element for each direction of each edge. -/
theorem directed (h : Rotation n E rot) (hn : n < 2 ^ 32) : EdgeIndex.Directed n (Leads n rot) where
  few := hn
  range u v x hx := by
    obtain ⟨hu, hle, hlt⟩ := h.range u x hx.1
    obtain ⟨hv, -⟩ := h.range v _ hx.2
    refine ⟨hu, hv, h.ne_of_leads hx, hle, ?_⟩
    unfold Forest.arenaSize at hlt
    unfold maxWord
    omega
  mated _ _ _ := leads_mate
  unique := h.simple

theorem adj_iff (h : Rotation n E rot) : (graph E).Adj u v ↔ ∃ x, Leads n rot u v x := by
  rw [graph, SimpleGraph.fromEdgeSet_adj, Finset.mem_coe, h.edge_iff]
  exact ⟨fun hx => hx.1, fun ⟨x, hx⟩ => ⟨⟨x, hx⟩, h.ne_of_leads hx⟩⟩

theorem lt_of_adj (h : Rotation n E rot) (hv : (graph E).Adj u v) : v < n := by
  obtain ⟨x, hx⟩ := h.adj_iff.mp hv
  exact (h.range v _ hx.2).1

theorem lt_of_reachable (h : Rotation n E rot) (hu : u < n) (hv : (graph E).Reachable u v) : v < n := by
  obtain ⟨p⟩ := hv
  induction p with
  | nil => exact hu
  | cons hadj _ ih => exact ih (h.lt_of_adj hadj)

/-! ## The tour -/

theorem nodup_ring (h : Rotation n E rot) (hv : v < n) : (v :: rot v).Nodup :=
  List.nodup_cons.mpr ⟨fun hm => absurd (h.range v v hm).2.1 (by omega), h.nodup v⟩

/-- An element is in one ring only. -/
theorem ring_unique (h : Rotation n E rot) (hu : u < n) (hv : v < n) (hx : x ∈ ring rot u)
    (hy : x ∈ ring rot v) : u = v := by
  rcases mem_ring.mp hx with rfl | hx <;> rcases mem_ring.mp hy with rfl | hy
  · rfl
  · exact absurd (h.range v x hy).2.1 (by omega)
  · exact absurd (h.range u x hx).2.1 (by omega)
  · exact h.home u v x hx hy

theorem follows_mem (hxy : Follows n rot x y) :
    ∃ v < n, mate n x ∈ ring rot v ∧ y ∈ ring rot v := by
  obtain ⟨v, hv, hi⟩ := hxy
  exact ⟨v, hv, mem_of_adjacent hi⟩

theorem follows_unique (h : Rotation n E rot) (hy : Follows n rot x y) (hz : Follows n rot x z) : y = z := by
  obtain ⟨v, hv, hi⟩ := hy
  obtain ⟨w, hw, hi'⟩ := hz
  obtain rfl := h.ring_unique hv hw (mem_of_adjacent hi).1 (mem_of_adjacent hi').1
  exact infix_unique (h.nodup_ring hv) hi hi'

theorem follows_inj (h : Rotation n E rot) (hx : Follows n rot x z) (hy : Follows n rot y z) : x = y := by
  obtain ⟨v, hv, hi⟩ := hx
  obtain ⟨w, hw, hi'⟩ := hy
  obtain rfl := h.ring_unique hv hw (mem_of_adjacent hi).2 (mem_of_adjacent hi').2
  refine mate_injective n (infix_inj ?_ hi hi')
  exact (List.perm_append_singleton v (rot v)).nodup_iff.mpr (h.nodup_ring hv)

theorem follows_left_iff (h : Rotation n E rot) (hxy : Follows n rot x y) : Follows n rot z y ↔ z = x :=
  ⟨fun hz => h.follows_inj hz hxy, fun hz => hz ▸ hxy⟩

theorem follows_right_iff (h : Rotation n E rot) (hxy : Follows n rot x y) : Follows n rot x z ↔ z = y :=
  ⟨fun hz => h.follows_unique hz hxy, fun hz => hz ▸ hxy⟩

/-- The elements on tours are the vertices and those in the rotation. -/
theorem exists_ring_mate_iff (h : Rotation n E rot) :
    (∃ v < n, mate n x ∈ ring rot v) ↔ ∃ v < n, x ∈ ring rot v := by
  have key {x : Nat} (hx : ∃ v < n, x ∈ ring rot v) : ∃ v < n, mate n x ∈ ring rot v := by
    obtain ⟨v, hv, hx⟩ := hx
    rcases mem_ring.mp hx with rfl | hx
    · exact ⟨x, hv, by rw [mate_of_lt hv]; exact mem_ring.mpr (.inl rfl)⟩
    · obtain ⟨w, -, hm⟩ := h.mated v x hx
      exact ⟨w, (h.range w _ hm).1, mem_ring.mpr (.inr hm)⟩
  refine ⟨fun hx => ?_, key⟩
  have := key hx
  rwa [mate_mate] at this

theorem exists_follows (h : Rotation n E rot) (hv : v < n) (hx : x ∈ ring rot v) : ∃ y, Follows n rot x y := by
  obtain ⟨w, hw, hm⟩ := h.exists_ring_mate_iff.mpr ⟨v, hv, hx⟩
  have hm' : mate n x ∈ w :: rot w := List.mem_cons.mpr (mem_ring.mp hm)
  obtain ⟨y, hy⟩ := exists_infix_right (e := w) hm'
  exact ⟨y, w, hw, hy⟩

theorem exists_follows_left (hv : v < n) (hx : x ∈ ring rot v) : ∃ y, Follows n rot y x := by
  have hx' : x ∈ rot v ++ [v] := by
    simpa [or_comm] using mem_ring.mp hx
  obtain ⟨y, hy⟩ := exists_infix_left (e := v) hx'
  exact ⟨mate n y, v, hv, by rw [mate_mate]; exact hy⟩

theorem lt_of_ring (h : Rotation n E rot) (hv : v < n) (hx : x ∈ ring rot v) :
    x < Forest.arenaSize n := by
  rcases mem_ring.mp hx with rfl | hx
  · unfold Forest.arenaSize
    omega
  · exact (h.range v x hx).2.2

theorem lt_of_follows (h : Rotation n E rot) (hxy : Follows n rot x y) :
    x < Forest.arenaSize n ∧ y < Forest.arenaSize n := by
  obtain ⟨v, hv, hm, hy⟩ := follows_mem hxy
  obtain ⟨w, hw, hx⟩ := h.exists_ring_mate_iff.mp ⟨v, hv, hm⟩
  exact ⟨h.lt_of_ring hw hx, h.lt_of_ring hv hy⟩

/-- An element in no ring has no place on a tour. -/
theorem apart (h : Rotation n E rot) (hx : ∀ v < n, x ∉ ring rot v) (y : Nat) :
    ¬ Follows n rot x y ∧ ¬ Follows n rot y x := by
  constructor
  · intro hxy
    obtain ⟨v, hv, hm, -⟩ := follows_mem hxy
    obtain ⟨w, hw, hm⟩ := h.exists_ring_mate_iff.mp ⟨v, hv, hm⟩
    exact hx w hw hm
  · intro hyx
    obtain ⟨v, hv, -, hm⟩ := follows_mem hyx
    exact hx v hv hm

/-- Where an element goes to is where the one behind it leaves. -/
theorem adj_of_follows (h : Rotation n E rot) (hu : u < n) (hv : v < n) (hx : x ∈ ring rot u)
    (hy : y ∈ ring rot v) (hxy : Follows n rot x y) : u = v ∧ x = v ∨ Leads n rot u v x := by
  obtain ⟨w, hw, hm, hy'⟩ := follows_mem hxy
  obtain rfl := h.ring_unique hw hv hy' hy
  rcases mem_ring.mp hx with rfl | hx
  · rw [mate_of_lt hu] at hm
    obtain rfl := h.ring_unique hu hw (mem_ring.mpr (.inl rfl)) hm
    exact .inl ⟨rfl, rfl⟩
  · rcases mem_ring.mp hm with hm | hm
    · exact absurd (le_mate (h.range u x hx).2.1) (by omega)
    · exact .inr ⟨hx, hm⟩

/-! ## The tour of a tree -/

section

variable {P : Nat → Prop} (hP : ∀ x y, P x → Follows n rot x y → P y)
include hP

/-- Once the tour has come to `z` by some element and gets back from all others that leave `z`, it
passes the whole ring of `z`. -/
theorem around (hz : z < n) {stop : Nat} (hs : stop ∈ ring rot z) (hstart : P (mate n stop))
    (hback : ∀ x ∈ rot z, x ≠ stop → P x → P (mate n x)) : ∀ x ∈ ring rot z, P x := by
  have hstep (a b : Nat) (hi : [a, b] <:+: ring rot z) (ha : a = stop ∨ P a) : P b := by
    have hm : P (mate n a) := by
      by_cases hstop : a = stop
      · exact hstop ▸ hstart
      · rcases mem_ring.mp (mem_of_adjacent hi).1 with rfl | hmem
        · rw [mate_of_lt hz]
          exact ha.resolve_left hstop
        · exact hback a hmem hstop (ha.resolve_left hstop)
    exact hP _ b hm ⟨z, hz, by rw [mate_mate]; exact hi⟩
  have hor (a : Nat) (ha : P a) : a = stop ∨ P a := .inr ha
  -- From the start on to the end of the ring, which is `z`, and then once around.
  have hPz : P z := by
    have hs' : stop ∈ z :: rot z := List.mem_cons.mpr (mem_ring.mp hs)
    obtain ⟨s, t, hst⟩ := List.append_of_mem hs'
    refine forall_of_adjacent hstep hor (s := s) (t := t ++ [z]) (a := stop) ?_ (.inl rfl) z (by simp)
    rw [ring_eq, hst, List.append_assoc, List.cons_append]
  have hall := forall_of_adjacent hstep hor (s := []) (t := rot z ++ [z]) rfl (hor z hPz)
  exact fun x hx => List.forall_mem_cons.mpr ⟨hPz, hall⟩ x hx

variable (h : Rotation n E rot) (hac : (graph E).IsAcyclic)
include h hac

/-- The tour that leaves for `z` passes its ring: it gets back from everything that lies behind. The
induction is on how much longer a path can be. -/
theorem behind : ∀ (m : Nat) {a w z : Nat} (p : (graph E).Walk a w) (hadj : (graph E).Adj w z),
    (p.concat hadj).IsPath → a < n → n ≤ p.length + 1 + m → ∀ y, Leads n rot w z y → P y →
    ∀ x ∈ ring rot z, P x := by
  intro m
  induction m with
  | zero =>
    intro a w z p hadj hp ha hm
    -- All vertices of a path are different and below `n`.
    have hsub : (p.concat hadj).support ⊆ List.range n := fun x hx =>
      List.mem_range.mpr (h.lt_of_reachable ha ((p.concat hadj).takeUntil x hx).reachable)
    have := (List.subperm_of_subset hp.support_nodup hsub).length_le
    rw [SimpleGraph.Walk.length_support, SimpleGraph.Walk.length_concat, List.length_range] at this
    omega
  | succ m ih =>
    intro a w z p hadj hp ha hm y hy hPy
    refine around hP (h.range z _ hy.2).1 (mem_ring.mpr (.inr hy.2)) (by rwa [mate_mate]) ?_
    intro x hx hne hPx
    obtain ⟨v, -, hmem⟩ := h.mated z x hx
    have hlead : Leads n rot z v x := ⟨hx, hmem⟩
    have hadj' : (graph E).Adj z v := h.adj_iff.mpr ⟨x, hlead⟩
    have hv : v ∉ (p.concat hadj).support := by
      intro hv
      have := hac.eq_penultimate_of_adj_end hp hadj' hv
      rw [SimpleGraph.Walk.penultimate_concat] at this
      subst this
      exact hne (h.simple z v x _ hlead (leads_mate hy))
    refine ih (p.concat hadj) hadj' (hp.concat hv hadj') ha ?_ x hlead hPx _ (mem_ring.mpr (.inr hmem))
    rw [SimpleGraph.Walk.length_concat]
    omega

/-- The tour from a vertex passes the rings of all vertices of its tree. -/
theorem spread (hu : u < n) (hPu : P u) (hv : (graph E).Reachable u v) : ∀ x ∈ ring rot v, P x := by
  have hout {u w y : Nat} (hy : Leads n rot u w y) (hPy : P y) : ∀ x ∈ ring rot w, P x := by
    have hadj : (graph E).Adj u w := h.adj_iff.mpr ⟨y, hy⟩
    refine h.behind hP hac n (SimpleGraph.Walk.nil : (graph E).Walk u u) hadj ?_ (h.range u y hy.1).1 (by omega)
      y hy hPy
    exact SimpleGraph.Walk.IsPath.nil.concat (by simpa using hadj.ne') hadj
  have hring {u : Nat} (hu : u < n) (hPu : P u) : ∀ x ∈ ring rot u, P x := by
    refine around hP hu (mem_ring.mpr (.inl rfl)) (by rwa [mate_of_lt hu]) fun x hx _ hPx => ?_
    obtain ⟨w, -, hm⟩ := h.mated u x hx
    exact hout ⟨hx, hm⟩ hPx _ (mem_ring.mpr (.inr hm))
  obtain ⟨p⟩ := hv
  induction p with
  | nil => exact hring hu hPu
  | cons hadj _ ih =>
    obtain ⟨y, hy⟩ := h.adj_iff.mp hadj
    exact ih (h.range _ _ hy.2).1 (hout hy (hring hu hPu y (mem_ring.mpr (.inr hy.1))) _ (mem_ring.mpr (.inl rfl)))

end

end Rotation

end TourForest
