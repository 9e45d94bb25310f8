import TourForest.Proofs.Forest.Rotation
import TourForest.Proofs.SkipList.Pattern

/-!
# Rotations with more edges

New edges come first in the rings of their ends, in the order of the batch (`graft`) or in any other one at
each end (`sewIn`). The tours of the new rotation are the old ones split behind the ends, with the new elements
sewn in.

* `Rotation.graft`, `Rotation.sewIn`: new edges with unused pairs make a rotation of the larger graph;
* `Fits.pattern`: the seams of the new elements are a pattern for it.
-/

namespace TourForest

variable {n : Nat} {rot : Nat → List Nat} {E : Finset (Sym2 Nat)} {links : List ((Nat × Nat) × Nat)}
  {u v w p x y : Nat}

/-- The elements by which a new edge with a pair leaves vertex `w`. -/
def leaving (n : Nat) (link : (Nat × Nat) × Nat) (w : Nat) : List Nat :=
  if w = link.1.1 then [n + 2 * link.2] else if w = link.1.2 then [n + 2 * link.2 + 1] else []

/-- The elements by which new edges leave vertex `w`. -/
def newAt (n : Nat) (links : List ((Nat × Nat) × Nat)) (w : Nat) : List Nat :=
  links.flatMap (leaving n · w)

/-- The rotation with new edges. -/
def graft (n : Nat) (links : List ((Nat × Nat) × Nat)) (rot : Nat → List Nat) (w : Nat) : List Nat :=
  newAt n links w ++ rot w

/-- The rotation with new elements `news w` at each vertex `w`. -/
def sewIn (news rot : Nat → List Nat) (w : Nat) : List Nat := news w ++ rot w

/-- The elements by which new edges leave each vertex, in some order. -/
def Shuffled (n : Nat) (links : List ((Nat × Nat) × Nat)) (news : Nat → List Nat) : Prop :=
  ∀ w, (news w).Perm (newAt n links w)

theorem graft_nil (n : Nat) (rot : Nat → List Nat) : graft n [] rot = rot := rfl

theorem graft_cons (n : Nat) (link : (Nat × Nat) × Nat) (links : List ((Nat × Nat) × Nat))
    (rot : Nat → List Nat) : graft n (link :: links) rot = graft n [link] (graft n links rot) := by
  funext w
  simp [graft, newAt]

theorem mem_leaving {link : (Nat × Nat) × Nat} (hne : link.1.1 ≠ link.1.2) :
    x ∈ leaving n link w ↔
      w = link.1.1 ∧ x = n + 2 * link.2 ∨ w = link.1.2 ∧ x = n + 2 * link.2 + 1 := by
  rw [leaving]
  split
  · next hw => simp [hw, hne]
  · next hw =>
    split
    · next hw' => simp [hw', hne.symm]
    · next hw' => simp [hw, hw']

theorem mem_newAt : x ∈ newAt n links w ↔ ∃ l ∈ links, x ∈ leaving n l w := List.mem_flatMap

theorem mem_graft : x ∈ graft n links rot w ↔ x ∈ newAt n links w ∨ x ∈ rot w := List.mem_append

/-! ## New edges -/

/-- Different pairs that are not in use, for edges between vertices below `n`. -/
structure Supplied (n : Nat) (rot : Nat → List Nat) (links : List ((Nat × Nat) × Nat)) : Prop where
  ends_lt : ∀ l ∈ links, l.1.1 < n ∧ l.1.2 < n
  pairs_lt : ∀ l ∈ links, l.2 < n - 1
  unused : ∀ l ∈ links, ∀ w, n + 2 * l.2 ∉ rot w
  pairs_nodup : (links.map Prod.snd).Nodup

/-- New edges with pairs that are not in use. -/
structure Fits (n : Nat) (E : Finset (Sym2 Nat)) (rot : Nat → List Nat)
    (links : List ((Nat × Nat) × Nat)) : Prop extends Supplied n rot links where
  loopless : ∀ l ∈ links, l.1.1 ≠ l.1.2
  new : ∀ l ∈ links, s(l.1.1, l.1.2) ∉ E
  edges_nodup : (links.map fun l => s(l.1.1, l.1.2)).Nodup

theorem Supplied.sublist {links' : List ((Nat × Nat) × Nat)} (h : Supplied n rot links)
    (hs : links'.Sublist links) : Supplied n rot links' where
  ends_lt l hl := h.ends_lt l (hs.subset hl)
  pairs_lt l hl := h.pairs_lt l (hs.subset hl)
  unused l hl := h.unused l (hs.subset hl)
  pairs_nodup := h.pairs_nodup.sublist (hs.map _)

namespace Fits

theorem sublist {links' : List ((Nat × Nat) × Nat)} (hf : Fits n E rot links) (hs : links'.Sublist links) :
    Fits n E rot links' where
  toSupplied := hf.toSupplied.sublist hs
  loopless l hl := hf.loopless l (hs.subset hl)
  new l hl := hf.new l (hs.subset hl)
  edges_nodup := hf.edges_nodup.sublist (hs.map _)

theorem tail {link : (Nat × Nat) × Nat} (hf : Fits n E rot (link :: links)) : Fits n E rot links :=
  hf.sublist (List.sublist_cons_self ..)

/-- The first of several new edges is new once the others are there. -/
theorem head {link : (Nat × Nat) × Nat} (hf : Fits n E rot (link :: links)) :
    Fits n (E ∪ edgeSet (links.map Prod.fst)) (graft n links rot) [link] where
  ends_lt l hl := hf.ends_lt l (List.mem_cons.mpr (.inl (List.mem_singleton.mp hl)))
  pairs_lt l hl := hf.pairs_lt l (List.mem_cons.mpr (.inl (List.mem_singleton.mp hl)))
  unused l hl w := by
    obtain rfl := List.mem_singleton.mp hl
    rw [mem_graft, mem_newAt, not_or]
    refine ⟨?_, hf.unused l List.mem_cons_self w⟩
    rintro ⟨l', hl', hx⟩
    rw [mem_leaving (hf.tail.loopless l' hl')] at hx
    have hne : l.2 ≠ l'.2 := fun he =>
      (List.nodup_cons.mp hf.pairs_nodup).1 (List.mem_map.mpr ⟨l', hl', he.symm⟩)
    omega
  pairs_nodup := by simp
  loopless l hl := hf.loopless l (List.mem_cons.mpr (.inl (List.mem_singleton.mp hl)))
  new l hl := by
    obtain rfl := List.mem_singleton.mp hl
    rw [Finset.mem_union, mem_edgeSet, not_or]
    refine ⟨hf.new l List.mem_cons_self, ?_⟩
    rintro ⟨e, he, heq⟩
    obtain ⟨l', hl', rfl⟩ := List.mem_map.mp he
    exact (List.nodup_cons.mp hf.edges_nodup).1 (List.mem_map.mpr ⟨l', hl', heq⟩)
  edges_nodup := by simp

end Fits

namespace Rotation

theorem unused_mate (h : Rotation n E rot) (hp : ∀ w, n + 2 * p ∉ rot w) (w : Nat) : n + 2 * p + 1 ∉ rot w := by
  intro hm
  obtain ⟨v, -, hv⟩ := h.mated w _ hm
  rw [mate_odd] at hv
  exact hp v hv

section

variable {link : (Nat × Nat) × Nat} (hf : Fits n E rot [link])
include hf

theorem mem_graft_one :
    x ∈ graft n [link] rot w ↔ x ∈ rot w ∨ (w = link.1.1 ∧ x = n + 2 * link.2) ∨
      (w = link.1.2 ∧ x = n + 2 * link.2 + 1) := by
  rw [mem_graft, mem_newAt]
  simp only [List.mem_singleton, exists_eq_left, mem_leaving (hf.loopless link (by simp))]
  tauto

variable (h : Rotation n E rot)
include h

theorem leads_graft_one :
    Leads n (graft n [link] rot) u v y ↔ Leads n rot u v y ∨
      (u = link.1.1 ∧ v = link.1.2 ∧ y = n + 2 * link.2) ∨
      (u = link.1.2 ∧ v = link.1.1 ∧ y = mate n (n + 2 * link.2)) := by
  have hu := hf.unused link (by simp)
  have hu' := h.unused_mate hu
  rw [Leads, mem_graft_one hf, mem_graft_one hf, Leads, mate_even, mate_eq_iff, mate_eq_iff, mate_even,
    mate_odd]
  constructor
  · rintro ⟨hy | ⟨rfl, rfl⟩ | ⟨rfl, rfl⟩, hm | ⟨rfl, he⟩ | ⟨rfl, he⟩⟩
    · exact .inl ⟨hy, hm⟩
    · exact absurd (he ▸ hy) (hu' u)
    · exact absurd (he ▸ hy) (hu u)
    · exact absurd (mate_even n _ ▸ hm) (hu' v)
    · omega
    · exact .inr (.inl ⟨rfl, rfl, rfl⟩)
    · exact absurd (mate_odd n _ ▸ hm) (hu v)
    · exact .inr (.inr ⟨rfl, rfl, rfl⟩)
    · omega
  · rintro (⟨hy, hm⟩ | ⟨rfl, rfl, rfl⟩ | ⟨rfl, rfl, rfl⟩)
    · exact ⟨.inl hy, .inl hm⟩
    · exact ⟨.inr (.inl ⟨rfl, rfl⟩), .inr (.inr ⟨rfl, rfl⟩)⟩
    · exact ⟨.inr (.inr ⟨rfl, rfl⟩), .inr (.inl ⟨rfl, rfl⟩)⟩

theorem graft_one : Rotation n (insert s(link.1.1, link.1.2) E) (graft n [link] rot) := by
  obtain ⟨hu, hv⟩ := hf.ends_lt link (by simp)
  have hne := hf.loopless link (by simp)
  have hp := hf.pairs_lt link (by simp)
  have hfree := hf.unused link (by simp)
  have hfree' := h.unused_mate hfree
  have hold {a b y : Nat} (hy : Leads n rot a b y) : s(a, b) ≠ s(link.1.1, link.1.2) := fun he =>
    hf.new link (by simp) (he ▸ (h.edge_iff a b).mpr ⟨y, hy⟩)
  refine ⟨fun w => ?_, fun w x hx => ?_, fun a b x ha hb => ?_, fun a x hx => ?_, fun a b x y hx hy => ?_,
    fun a b => ?_⟩
  · refine List.Nodup.append ?_ (h.nodup w) ?_
    · simp only [newAt, List.flatMap_cons, List.flatMap_nil, List.append_nil, leaving]
      split
      · simp
      · split <;> simp
    · intro x hx hr
      rw [mem_newAt] at hx
      obtain ⟨l, hl, hx⟩ := hx
      rw [List.mem_singleton.mp hl, mem_leaving hne] at hx
      rcases hx with ⟨-, rfl⟩ | ⟨-, rfl⟩
      · exact hfree w hr
      · exact hfree' w hr
  · unfold Forest.arenaSize
    rcases (mem_graft_one hf).mp hx with hx | ⟨rfl, rfl⟩ | ⟨rfl, rfl⟩
    · exact h.range w x hx
    · exact ⟨hu, by omega, by omega⟩
    · exact ⟨hv, by omega, by omega⟩
  · rcases (mem_graft_one hf).mp ha with ha | ⟨rfl, rfl⟩ | ⟨rfl, rfl⟩ <;>
      rcases (mem_graft_one hf).mp hb with hb | ⟨rfl, he⟩ | ⟨rfl, he⟩
    · exact h.home a b x ha hb
    · exact absurd (he ▸ ha) (hfree a)
    · exact absurd (he ▸ ha) (hfree' a)
    · exact absurd hb (hfree b)
    · rfl
    · omega
    · exact absurd hb (hfree' b)
    · omega
    · rfl
  · rcases (mem_graft_one hf).mp hx with hx | ⟨rfl, rfl⟩ | ⟨rfl, rfl⟩
    · obtain ⟨b, hb, hm⟩ := h.mated a x hx
      exact ⟨b, hb, (mem_graft_one hf).mpr (.inl hm)⟩
    · exact ⟨_, hne.symm, (mem_graft_one hf).mpr (.inr (.inr ⟨rfl, mate_even n _⟩))⟩
    · exact ⟨_, hne, (mem_graft_one hf).mpr (.inr (.inl ⟨rfl, mate_odd n _⟩))⟩
  · rcases (h.leads_graft_one hf).mp hx with hx | ⟨rfl, rfl, rfl⟩ | ⟨rfl, rfl, rfl⟩ <;>
      rcases (h.leads_graft_one hf).mp hy with hy | ⟨he, he', hy⟩ | ⟨he, he', hy⟩
    · exact h.simple a b x y hx hy
    · exact absurd (by rw [he, he']) (hold hx)
    · exact absurd (by rw [he, he', Sym2.eq_swap]) (hold hx)
    · exact absurd rfl (hold hy)
    · exact hy.symm
    · exact absurd he hne
    · exact absurd Sym2.eq_swap (hold hy)
    · exact absurd he' hne
    · exact hy.symm
  · rw [Finset.mem_insert, Sym2.eq_iff, h.edge_iff]
    simp only [h.leads_graft_one hf, exists_or, exists_and_left, exists_eq, and_true]
    tauto

end

end Rotation

/-- New edges make a rotation of the larger graph. -/
theorem Rotation.graft (h : Rotation n E rot) (hf : Fits n E rot links) :
    Rotation n (E ∪ edgeSet (links.map Prod.fst)) (graft n links rot) := by
  induction links with
  | nil => simpa [graft_nil] using h
  | cons link links ih =>
    rw [graft_cons, List.map_cons, edgeSet_cons, Finset.union_insert]
    exact (ih hf.tail).graft_one hf.head

/-- The new elements lead from one end of their edge to the other. -/
theorem Rotation.leads_graft (h : Rotation n E rot) (hf : Fits n E rot links) :
    Leads n (TourForest.graft n links rot) u v y ↔ Leads n rot u v y ∨ ∃ l ∈ links,
      (u = l.1.1 ∧ v = l.1.2 ∧ y = n + 2 * l.2) ∨ (u = l.1.2 ∧ v = l.1.1 ∧ y = mate n (n + 2 * l.2)) := by
  induction links with
  | nil => simp [graft_nil]
  | cons link links ih =>
    rw [graft_cons, (h.graft hf.tail).leads_graft_one hf.head, ih hf.tail, List.exists_mem_cons_iff]
    exact or_assoc.trans (or_congr_right or_comm)

theorem graft_append (n : Nat) (links links' : List ((Nat × Nat) × Nat)) (rot : Nat → List Nat) :
    graft n (links ++ links') rot = graft n links (graft n links' rot) := by
  funext w
  simp [graft, newAt]

/-! ## New edges in another order -/

namespace Shuffled

variable {news : Nat → List Nat}

theorem refl (n : Nat) (links : List ((Nat × Nat) × Nat)) : Shuffled n links (newAt n links) := fun _ => .refl _

theorem sewIn_perm (hs : Shuffled n links news) (rot : Nat → List Nat) (v : Nat) :
    (sewIn news rot v).Perm (graft n links rot v) := (hs v).append_right _

theorem mem_iff (hs : Shuffled n links news) : x ∈ news v ↔ x ∈ newAt n links v := (hs v).mem_iff

theorem ne_nil_iff (hs : Shuffled n links news) : news v ≠ [] ↔ newAt n links v ≠ [] :=
  not_congr ⟨fun h => List.Perm.nil_eq (h ▸ hs v) |>.symm, fun h => List.Perm.eq_nil (h ▸ hs v)⟩

end Shuffled

theorem mem_sewIn {news : Nat → List Nat} : x ∈ sewIn news rot w ↔ x ∈ news w ∨ x ∈ rot w := List.mem_append

/-- New edges make a rotation of the larger graph, in whatever order they come at each vertex. -/
theorem Rotation.sewIn {news : Nat → List Nat} (h : Rotation n E rot) (hf : Fits n E rot links)
    (hs : Shuffled n links news) : Rotation n (E ∪ edgeSet (links.map Prod.fst)) (TourForest.sewIn news rot) :=
  (h.graft hf).perm (hs.sewIn_perm rot)

/-! ## The new tours -/

/-- A list is passed in two parts that share an element. -/
theorem infix_append_iff {a b c : Nat} {xs ys : List Nat} :
    [a, b] <:+: xs ++ c :: ys ↔ [a, b] <:+: xs ++ [c] ∨ [a, b] <:+: c :: ys := by
  induction xs with
  | nil =>
    refine ⟨.inr, fun h => h.resolve_left fun h => ?_⟩
    have := h.length_le
    simp at this
  | cons x xs ih =>
    have hprefix : [a, b] <+: x :: (xs ++ c :: ys) ↔ [a, b] <+: x :: (xs ++ [c]) := by
      rw [List.cons_prefix_cons, List.cons_prefix_cons]
      rcases xs with _ | ⟨x', xs⟩ <;> simp [List.cons_prefix_cons]
    rw [List.cons_append, List.cons_append, List.infix_cons_iff, List.infix_cons_iff, hprefix, ih, or_assoc]

/-- The seams that sew new elements in behind their vertices, up to what was behind these. -/
def Seams (n : Nat) (news : Nat → List Nat) (s : SkipList) (q : Nat × Nat) : Prop :=
  ∃ v h, news v ≠ [] ∧ s.nextAt v 0 = some h ∧ [mate n q.1, q.2] <:+: v :: (news v ++ [h])

theorem Fits.lt_of_newAt (hf : Fits n E rot links) (hv : newAt n links v ≠ []) : v < n := by
  obtain ⟨x, hx⟩ := List.exists_mem_of_ne_nil _ hv
  obtain ⟨l, hl, hx⟩ := mem_newAt.mp hx
  obtain ⟨hl₁, hl₂⟩ := hf.ends_lt l hl
  rcases (mem_leaving (hf.loopless l hl)).mp hx with ⟨rfl, -⟩ | ⟨rfl, -⟩
  · exact hl₁
  · exact hl₂

theorem Fits.not_mem_rot (h : Rotation n E rot) (hf : Fits n E rot links) (hx : x ∈ newAt n links v) (w : Nat) :
    n ≤ x ∧ x ∉ rot w := by
  obtain ⟨l, hl, hx⟩ := mem_newAt.mp hx
  rcases (mem_leaving (hf.loopless l hl)).mp hx with ⟨-, rfl⟩ | ⟨-, rfl⟩
  · exact ⟨by omega, hf.unused l hl w⟩
  · exact ⟨by omega, h.unused_mate (hf.unused l hl) w⟩

variable {news : Nat → List Nat}

theorem ring_sewIn (v : Nat) : ring (sewIn news rot) v = (v :: news v) ++ (rot v ++ [v]) := by
  simp [ring, sewIn]

/-- Neighbours in a new ring are neighbours in the old one behind its vertex, or at the new elements. -/
theorem infix_ring_sewIn {c : Nat} {t : List Nat} (ht : rot v ++ [v] = c :: t) :
    [x, y] <:+: ring (sewIn news rot) v ↔ [x, y] <:+: v :: (news v ++ [c]) ∨ [x, y] <:+: rot v ++ [v] := by
  rw [ring_sewIn, ht, infix_append_iff]
  rfl

/-- What is behind a vertex is the head of the rest of its ring. -/
theorem exists_behind {s : SkipList} (hnext : ∀ x y, s.nextAt x 0 = some y ↔ Follows n rot x y) (hv : v < n) :
    ∃ c t, s.nextAt v 0 = some c ∧ rot v ++ [v] = c :: t := by
  obtain ⟨c, t, ht⟩ := List.exists_cons_of_ne_nil (show rot v ++ [v] ≠ [] by simp)
  exact ⟨c, t, (hnext v c).mpr ⟨v, hv, [], t, by simp [ring, ht, mate_of_lt hv]⟩, ht⟩

/-- The new tours are the old ones, with the seams of the new elements. -/
theorem Fits.pattern (h : Rotation n E rot) (hf : Fits n E rot links) (hs : Shuffled n links news) {s : SkipList}
    (hsize : s.size = Forest.arenaSize n) (hnext : ∀ x y, s.nextAt x 0 = some y ↔ Follows n rot x y)
    {us : List Nat} {pairs : List (Nat × Nat)} (hus : ∀ v, v ∈ us ↔ news v ≠ [])
    (hn : (pairs.map Prod.fst).Nodup) (hpairs : ∀ q, q ∈ pairs ↔ Seams n news s q) :
    s.Pattern (Follows n (sewIn news rot)) us pairs := by
  have hg := h.sewIn hf hs
  have hlt {v : Nat} (hne : news v ≠ []) : v < n := hf.lt_of_newAt (hs.ne_nil_iff.mp hne)
  refine ⟨fun x y z => hg.follows_unique, fun x y z => hg.follows_inj, fun u hu => ?_, hn, fun q hq => ?_,
    fun q hq => ?_, fun x y hx hxy => ?_, fun x y hxy => ?_⟩
  · have := hlt ((hus u).mp hu)
    rw [hsize]
    unfold Forest.arenaSize
    omega
  · obtain ⟨v, c, hne, hc, hi⟩ := (hpairs q).mp hq
    have hv := hlt hne
    obtain ⟨c', t, hc', ht⟩ := exists_behind hnext hv
    obtain rfl : c = c' := Option.some.inj (hc.symm.trans hc')
    have hfol : Follows n (sewIn news rot) q.1 q.2 := ⟨v, hv, (infix_ring_sewIn ht).mpr (.inl hi)⟩
    rw [hsize]
    exact ⟨hfol, hg.lt_of_follows hfol⟩
  · obtain ⟨v, c, hne, hc, hi⟩ := (hpairs q).mp hq
    rcases List.mem_cons.mp (mem_left_of_adjacent hi) with hm | hm
    · rw [mate_eq_iff, mate_of_lt (hlt hne)] at hm
      exact .inl (hm ▸ (hus v).mpr hne)
    · refine .inr (Option.eq_none_iff_forall_ne_some.mpr fun y hy => ?_)
      obtain ⟨w, hw, hi'⟩ := (hnext _ _).mp hy
      obtain ⟨hle, hrot⟩ := hf.not_mem_rot h (hs.mem_iff.mp hm) w
      rcases mem_ring.mp (mem_of_adjacent hi').1 with he | he
      · omega
      · exact hrot he
  · obtain ⟨v, hv, hi⟩ := (hnext x y).mp hxy
    obtain ⟨c, t, -, ht⟩ := exists_behind hnext hv
    refine ⟨v, hv, ?_⟩
    rcases List.infix_cons_iff.mp hi with ⟨s, hs⟩ | hi'
    · -- Nothing is new behind a vertex that is not split.
      have hxv : mate n x = v := (List.cons.inj hs).1
      rw [mate_eq_iff, mate_of_lt hv] at hxv
      have hnil : news v = [] := by_contra fun hne => hx (hxv ▸ (hus v).mpr hne)
      rw [ring_sewIn, hnil]
      exact hi
    · exact (infix_ring_sewIn ht).mpr (.inr hi')
  · obtain ⟨v, hv, hi⟩ := hxy
    obtain ⟨c, t, hc, ht⟩ := exists_behind hnext hv
    have hpoint (hx : x ∈ us) : mate n x = x := mate_of_lt (hlt ((hus x).mp hx))
    by_cases hnil : news v = []
    · rw [ring_sewIn, hnil] at hi
      refine .inr ⟨fun hx => ?_, (hnext x y).mpr ⟨v, hv, hi⟩⟩
      have hm := (mem_of_adjacent hi).1
      rw [hpoint hx] at hm
      have hxv := h.ring_unique (hlt ((hus x).mp hx)) hv (mem_ring.mpr (.inl rfl)) hm
      exact (hus x).mp hx (hxv ▸ hnil)
    · rcases (infix_ring_sewIn ht).mp hi with hi | hi
      · exact .inl ((hpairs (x, y)).mpr ⟨v, c, hnil, hc, hi⟩)
      · refine .inr ⟨fun hx => ?_, (hnext x y).mpr ⟨v, hv, hi.trans (List.suffix_cons _ _).isInfix⟩⟩
        have hm := mem_left_of_adjacent hi
        rw [hpoint hx] at hm
        exact absurd (hlt ((hus x).mp hx)) (not_lt.mpr (h.range v x hm).2.1)

end TourForest
