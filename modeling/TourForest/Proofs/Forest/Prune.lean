import TourForest.Proofs.Forest.Rotation
import TourForest.Proofs.SkipList.Pattern

/-!
# Rotations with fewer edges

Edges that go leave the rings of their ends. Where elements of a ring go in a row, the tours have a gap,
which is closed by joining what comes to the row to what leaves after it.

* `Rotation.prune`: what is left is a rotation of the smaller graph;
* `Prunes.pattern`: closing the gaps is a pattern for it;
* `Rotation.strike`: so it is for edges that are there, each once.
-/

namespace TourForest

variable {n : Nat} {rot : Nat → List Nat} {E E' : Finset (Sym2 Nat)} {gone : List Nat} {u v x y : Nat}

/-- Neighbours in a filtered list have only elements between them that were dropped. -/
theorem infix_filter_iff {a b : Nat} {xs : List Nat} {p : Nat → Bool} :
    [a, b] <:+: xs.filter p ↔
      p a ∧ p b ∧ ∃ ds, (∀ d ∈ ds, ¬ p d) ∧ a :: (ds ++ [b]) <:+: xs := by
  constructor
  · rintro ⟨s, t, h⟩
    rw [List.append_assoc, eq_comm, List.filter_eq_append_iff] at h
    obtain ⟨xs₁, xs₂, rfl, -, h⟩ := h
    obtain ⟨ys₁, ys₂, rfl, -, ha, h⟩ := List.filter_eq_cons_iff.mp h
    obtain ⟨ds, zs, rfl, hds, hb, -⟩ := List.filter_eq_cons_iff.mp h
    exact ⟨ha, hb, ds, hds, xs₁ ++ ys₁, zs, by simp⟩
  · rintro ⟨ha, hb, ds, hds, s, t, rfl⟩
    have hnil : ds.filter p = [] := List.filter_eq_nil_iff.mpr hds
    exact ⟨s.filter p, t.filter p, by simp [ha, hb, hnil]⟩

/-- The rotation without some elements. -/
def prune (gone : List Nat) (rot : Nat → List Nat) (v : Nat) : List Nat := (rot v).filter (· ∉ gone)

theorem mem_prune : x ∈ prune gone rot v ↔ x ∈ rot v ∧ x ∉ gone := by
  rw [prune, List.mem_filter, decide_eq_true_eq]

/-- The elements that go belong to edges, and with each goes its mate. -/
structure Prunes (n : Nat) (rot : Nat → List Nat) (gone : List Nat) : Prop where
  live : ∀ x ∈ gone, ∃ v, x ∈ rot v
  mated : ∀ x ∈ gone, mate n x ∈ gone

namespace Prunes

theorem mate_mem_iff (hg : Prunes n rot gone) : mate n x ∈ gone ↔ x ∈ gone := by
  refine ⟨fun h => ?_, hg.mated x⟩
  have := hg.mated _ h
  rwa [mate_mate] at this

theorem leads_iff (hg : Prunes n rot gone) :
    Leads n (prune gone rot) u v x ↔ Leads n rot u v x ∧ x ∉ gone := by
  rw [Leads, mem_prune, mem_prune, hg.mate_mem_iff, Leads]
  tauto

theorem range (hg : Prunes n rot gone) (h : Rotation n E rot) (hx : x ∈ gone) :
    n ≤ x ∧ x < Forest.arenaSize n := by
  obtain ⟨v, hv⟩ := hg.live x hx
  exact (h.range v x hv).2

theorem vertex_not_mem (hg : Prunes n rot gone) (h : Rotation n E rot) (hv : v < n) : v ∉ gone :=
  fun hm => absurd (hg.range h hm).1 (by omega)

theorem ring_eq (h : Rotation n E rot) (hg : Prunes n rot gone) (hv : v < n) :
    ring (prune gone rot) v = (ring rot v).filter (· ∉ gone) := by
  simp [ring, prune, hg.vertex_not_mem h hv]

end Prunes

/-- What is left is a rotation of the smaller graph. -/
theorem Rotation.prune (h : Rotation n E rot) (hg : Prunes n rot gone)
    (hE : ∀ u v, s(u, v) ∈ E' ↔ ∃ x, Leads n rot u v x ∧ x ∉ gone) :
    Rotation n E' (prune gone rot) where
  nodup v := (h.nodup v).filter _
  range v x hx := h.range v x (mem_prune.mp hx).1
  home u v x hu hv := h.home u v x (mem_prune.mp hu).1 (mem_prune.mp hv).1
  mated u x hx := by
    obtain ⟨hx, hxg⟩ := mem_prune.mp hx
    obtain ⟨v, hv, hm⟩ := h.mated u x hx
    exact ⟨v, hv, mem_prune.mpr ⟨hm, fun hmg => hxg (hg.mate_mem_iff.mp hmg)⟩⟩
  simple u v x y hx hy := h.simple u v x y (hg.leads_iff.mp hx).1 (hg.leads_iff.mp hy).1
  edge_iff u v := by
    rw [hE]
    exact exists_congr fun x => hg.leads_iff.symm

/-- Between the two elements of `q` the tour loses some elements that leave one vertex, in a row. -/
def Gap (n : Nat) (rot : Nat → List Nat) (gone : List Nat) (q : Nat × Nat) : Prop :=
  mate n q.1 ∉ gone ∧ q.2 ∉ gone ∧ ∃ v < n, ∃ d ds, (∀ x ∈ d :: ds, x ∈ gone) ∧
    mate n q.1 :: (d :: ds ++ [q.2]) <:+: ring rot v

/-- What follows in the new tours comes after elements that go, in a row, or none. -/
theorem Prunes.follows_iff (h : Rotation n E rot) (hg : Prunes n rot gone) :
    Follows n (prune gone rot) x y ↔ ∃ v < n, mate n x ∉ gone ∧ y ∉ gone ∧
      ∃ ds, (∀ d ∈ ds, d ∈ gone) ∧ mate n x :: (ds ++ [y]) <:+: ring rot v := by
  refine exists_congr fun v => and_congr_right fun hv => ?_
  rw [hg.ring_eq h hv, infix_filter_iff]
  simp

theorem Gap.follows {q : Nat × Nat} (hq : Gap n rot gone q) (h : Rotation n E rot) (hg : Prunes n rot gone) :
    Follows n (prune gone rot) q.1 q.2 := by
  obtain ⟨hl, hr, v, hv, d, ds, hds, hi⟩ := hq
  exact (hg.follows_iff h).mpr ⟨v, hv, hl, hr, d :: ds, hds, hi⟩

/-- Behind the left end of a gap is the first of the elements that go. -/
theorem follows_of_adjacent {d : Nat} {t : List Nat} (hv : v < n) (hi : mate n x :: d :: t <:+: ring rot v) :
    Follows n rot x d :=
  ⟨v, hv, List.IsInfix.trans ⟨[], t, by simp⟩ hi⟩

/-- Where neither an element goes nor the one behind it, the tours stay as they are. -/
theorem Prunes.follows_prune_iff (h : Rotation n E rot) (hg : Prunes n rot gone) (hx : x ∉ gone)
    (hd : ∀ d ∈ gone, ¬ Follows n rot x d) : Follows n (prune gone rot) x y ↔ Follows n rot x y := by
  rw [hg.follows_iff h]
  constructor
  · rintro ⟨v, hv, -, -, ds, hds, hi⟩
    cases ds with
    | nil => exact ⟨v, hv, hi⟩
    | cons d ds => exact absurd (follows_of_adjacent hv hi) (hd d (hds d List.mem_cons_self))
  · rintro ⟨v, hv, hi⟩
    exact ⟨v, hv, fun hm => hx (hg.mate_mem_iff.mp hm), fun hy => hd y hy ⟨v, hv, hi⟩, [], by simp, hi⟩

/-- Up to its end, a ring passes each element once. -/
theorem Rotation.nodup_run (h : Rotation n E rot) (hv : v < n) {xs : List Nat} {r : Nat}
    (hi : xs ++ [r] <:+: ring rot v) : xs.Nodup := by
  have hsub := hi.sublist.reverse.tail
  rw [ring_eq, List.reverse_concat, List.reverse_concat, List.tail_cons, List.tail_cons,
    List.reverse_sublist] at hsub
  exact (h.nodup_ring hv).sublist hsub

/-- In its ring an element that goes has one before it, others that go after it, and then one that stays. -/
theorem Prunes.exists_run (hg : Prunes n rot gone) (h : Rotation n E rot) {d : Nat} (hd : d ∈ gone) :
    ∃ v < n, ∃ l ds r, (∀ x ∈ ds, x ∈ gone) ∧ r ∉ gone ∧ mate n l :: d :: (ds ++ [r]) <:+: ring rot v := by
  obtain ⟨v, hv⟩ := hg.live d hd
  obtain ⟨hlt, hle, -⟩ := h.range v d hv
  obtain ⟨l, w, hw, s, t, hst⟩ := Rotation.exists_follows_left hlt (mem_ring.mpr (.inr hv))
  have hwt : w ∈ t := mem_of_ring_eq (s := s ++ [mate n l]) hw hle (by simpa using hst)
  have hstay : (t.find? (· ∉ gone)).isSome :=
    List.find?_isSome.mpr ⟨w, hwt, by simpa using hg.vertex_not_mem h hw⟩
  obtain ⟨r, hr⟩ := Option.isSome_iff_exists.mp hstay
  obtain ⟨hrg, ds, bs, rfl, hds⟩ := List.find?_eq_some_iff_append.mp hr
  exact ⟨w, hw, l, ds, r, by simpa using hds, by simpa using hrg, s, bs, by simpa using hst⟩

/-! ## One edge -/

section

variable {d : Nat} {q : Nat × Nat}

/-- The two elements of an edge are in different rings, so neither is close to the other. -/
theorem Rotation.run_single (h : Rotation n E rot) (hd : Leads n rot u v d) {w l r : Nat} {ds : List Nat}
    (hw : w < n) (hds : ∀ y ∈ ds, y = d ∨ y = mate n d) (hi : mate n l :: d :: (ds ++ [r]) <:+: ring rot w) :
    ds = [] ∧ mate n l ≠ d ∧ mate n l ≠ mate n d := by
  have hdw : d ∈ ring rot w := hi.subset (by simp)
  obtain ⟨hu, -⟩ := h.range u d hd.1
  obtain ⟨hv, -⟩ := h.range v _ hd.2
  obtain rfl := h.ring_unique hu hw (mem_ring.mpr (.inr hd.1)) hdw
  have hmate : mate n d ∉ ring rot u := fun hm =>
    h.ne_of_leads hd (h.ring_unique hu hv hm (mem_ring.mpr (.inr hd.2)))
  have hrun : (mate n l :: d :: ds) ++ [r] <:+: ring rot u := hi
  obtain ⟨hl, hnodup⟩ := List.nodup_cons.mp (h.nodup_run hw hrun)
  refine ⟨List.eq_nil_iff_forall_not_mem.mpr fun y hy => ?_, fun he => ?_, fun he => ?_⟩
  · rcases hds y hy with rfl | rfl
    · exact (List.nodup_cons.mp hnodup).1 hy
    · exact hmate (hi.subset (by simp [hy]))
  · exact hl (he ▸ List.mem_cons_self)
  · exact hmate (he ▸ hi.subset (by simp))

/-- The gap that begins with an element of one edge ends behind the mate of the element. -/
theorem Prunes.gap_single (h : Rotation n E rot) (hg : Prunes n rot gone) (hd : Leads n rot u v d)
    (hgone : ∀ y, y ∈ gone ↔ y = d ∨ y = mate n d) (hl : Follows n rot q.1 d) :
    Gap n rot gone q ↔ Follows n rot (mate n d) q.2 := by
  have hend {w l r : Nat} (hw : w < n) (hi : [mate n l, d, r] <:+: ring rot w) : Follows n rot (mate n d) r :=
    ⟨w, hw, by rw [mate_mate]; exact (List.suffix_cons _ _).isInfix.trans hi⟩
  constructor
  · rintro ⟨-, -, w, hw, d', ds, hall, hi⟩
    obtain ⟨-, hds⟩ := List.forall_mem_cons.mp hall
    obtain rfl := h.follows_unique hl (follows_of_adjacent hw hi)
    obtain ⟨rfl, -⟩ := h.run_single hd hw (fun y hy => (hgone y).mp (hds y hy)) hi
    exact hend hw hi
  · intro hr
    have hdg : d ∈ gone := (hgone d).mpr (.inl rfl)
    obtain ⟨w, hw, l, ds, r, hds, hrg, hi⟩ := hg.exists_run h hdg
    obtain rfl := h.follows_inj hl (follows_of_adjacent hw hi)
    obtain ⟨rfl, hne, hne'⟩ := h.run_single hd hw (fun y hy => (hgone y).mp (hds y hy)) hi
    obtain rfl := h.follows_unique hr (hend hw hi)
    refine ⟨fun hm => ?_, hrg, w, hw, d, [], List.forall_mem_singleton.mpr hdg, hi⟩
    exact ((hgone _).mp hm).elim hne hne'

/-- The elements of one edge leave two gaps, crosswise. -/
theorem Prunes.gap_iff (h : Rotation n E rot) (hg : Prunes n rot gone) (hx : Leads n rot u v x)
    (hgone : ∀ y, y ∈ gone ↔ y = x ∨ y = mate n x) :
    Gap n rot gone q ↔ Follows n rot q.1 x ∧ Follows n rot (mate n x) q.2 ∨
      Follows n rot q.1 (mate n x) ∧ Follows n rot x q.2 := by
  have hgone' (y : Nat) : y ∈ gone ↔ y = mate n x ∨ y = mate n (mate n x) := by
    rw [hgone, mate_mate, or_comm]
  have hsecond (hl : Follows n rot q.1 (mate n x)) : Gap n rot gone q ↔ Follows n rot x q.2 := by
    rw [gap_single h hg (Rotation.leads_mate hx) hgone' hl, mate_mate]
  constructor
  · intro hgap
    obtain ⟨w, hw, d, ds, hds, hi⟩ := hgap.2.2
    have hl := follows_of_adjacent hw hi
    rcases (hgone d).mp (hds d List.mem_cons_self) with rfl | rfl
    · exact .inl ⟨hl, (gap_single h hg hx hgone hl).mp hgap⟩
    · exact .inr ⟨hl, (hsecond hl).mp hgap⟩
  · rintro (⟨hl, hr⟩ | ⟨hl, hr⟩)
    · exact (gap_single h hg hx hgone hl).mpr hr
    · exact (hsecond hl).mpr hr

end

/-! ## Closing the gaps -/

/-- The new tours are the old ones, with the gaps closed. -/
theorem Prunes.pattern (h : Rotation n E rot) (h' : Rotation n E' (prune gone rot))
    (hg : Prunes n rot gone) {s : SkipList} (hsize : s.size = Forest.arenaSize n)
    (hnext : ∀ x y, s.nextAt x 0 = some y ↔ Follows n rot x y) {us : List Nat}
    {pairs : List (Nat × Nat)}
    (hus : ∀ u, u ∈ us ↔ u ∈ gone ∨ ∃ d ∈ gone, s.nextAt u 0 = some d)
    (hn : (pairs.map Prod.fst).Nodup) (hpairs : ∀ q, q ∈ pairs ↔ Gap n rot gone q) :
    s.Pattern (Follows n (prune gone rot)) us pairs := by
  refine ⟨fun x y z => h'.follows_unique, fun x y z => h'.follows_inj, fun u hu => ?_, hn, fun q hq => ?_,
    fun q hq => ?_, fun x y hx hxy => ?_, fun x y hxy => ?_⟩
  · rw [hsize]
    rcases (hus u).mp hu with hu | ⟨d, -, hd⟩
    · obtain ⟨v, hv⟩ := hg.live u hu
      exact (h.range v u hv).2.2
    · exact (h.lt_of_follows ((hnext u d).mp hd)).1
  · have hf := ((hpairs q).mp hq).follows h hg
    rw [hsize]
    exact ⟨hf, h'.lt_of_follows hf⟩
  · obtain ⟨-, -, v, hv, d, ds, hds, hi⟩ := (hpairs q).mp hq
    exact .inl ((hus _).mpr (.inr ⟨d, hds d List.mem_cons_self, (hnext _ _).mpr (follows_of_adjacent hv hi)⟩))
  · rw [hus, not_or] at hx
    have hstays : ∀ d ∈ gone, ¬ Follows n rot x d := fun d hd hxd => hx.2 ⟨d, hd, (hnext x d).mpr hxd⟩
    exact (hg.follows_prune_iff h hx.1 hstays).mpr ((hnext x y).mp hxy)
  · obtain ⟨v, hv, hm, hy, ds, hds, hi⟩ := (hg.follows_iff h).mp hxy
    rcases ds with _ | ⟨d, ds⟩
    · have hxy' : s.nextAt x 0 = some y := (hnext x y).mpr ⟨v, hv, hi⟩
      refine .inr ⟨fun hx => ?_, hxy'⟩
      rcases (hus x).mp hx with hx | ⟨d, hd, hxd⟩
      · exact hm (hg.mated x hx)
      · rw [hxy', Option.some.injEq] at hxd
        exact hy (hxd ▸ hd)
    · exact .inl ((hpairs (x, y)).mpr ⟨hm, hy, v, hv, d, ds, hds, hi⟩)

/-! ## Edges that go -/

section

variable {cuts cuts' : List (Nat × Nat)} {c : Nat × Nat}

/-- The element that goes from one vertex to another, for edges that are there. -/
def element (n : Nat) (rot : Nat → List Nat) (c : Nat × Nat) : Nat :=
  ((rot c.1).find? (mate n · ∈ rot c.2)).getD 0

/-- Some elements of edges, each with its mate. -/
def members (n : Nat) (xs : List Nat) : List Nat := xs.flatMap fun x => [x, mate n x]

/-- The elements of the edges in a batch of cuts. -/
def struck (n : Nat) (rot : Nat → List Nat) (cuts : List (Nat × Nat)) : List Nat :=
  members n (cuts.map (element n rot))

/-- The pairs of the edges in a batch of cuts. -/
def freed (n : Nat) (rot : Nat → List Nat) (cuts : List (Nat × Nat)) : List Nat :=
  cuts.map fun c => (element n rot c - n) / 2

theorem mem_members {xs : List Nat} : y ∈ members n xs ↔ ∃ x ∈ xs, y = x ∨ y = mate n x := by
  simp [members]

/-- Edges that are there, each once. -/
structure Strikes (E : Finset (Sym2 Nat)) (cuts : List (Nat × Nat)) : Prop where
  present : ∀ c ∈ cuts, s(c.1, c.2) ∈ E
  nodup : (cuts.map fun c => s(c.1, c.2)).Nodup

theorem Strikes.edgeSet_subset (hc : Strikes E cuts) : edgeSet cuts ⊆ E := fun d hd => by
  obtain ⟨c, hm, rfl⟩ := mem_edgeSet.mp hd
  exact hc.present c hm

theorem Strikes.card (hc : Strikes E cuts) : (E \ edgeSet cuts).card + cuts.length = E.card := by
  rw [← Finset.card_sdiff_add_card_eq_card hc.edgeSet_subset, edgeSet, List.toFinset_card_of_nodup hc.nodup,
    List.length_map]

/-- It does not matter in which order the edges are named, nor the ends of each. -/
theorem Strikes.congr (hc : Strikes E cuts)
    (hp : (cuts.map fun c => s(c.1, c.2)).Perm (cuts'.map fun c => s(c.1, c.2))) : Strikes E cuts' := by
  refine ⟨fun c hm => ?_, hp.nodup_iff.mp hc.nodup⟩
  obtain ⟨d, hd, heq⟩ := List.mem_map.mp (hp.mem_iff.mpr (List.mem_map_of_mem hm))
  exact heq ▸ hc.present d hd

theorem Strikes.perm (hc : Strikes E cuts) (hp : cuts.Perm cuts') : Strikes E cuts' := hc.congr (hp.map _)

theorem strikes_append : Strikes E (cuts ++ cuts') ↔ Strikes E cuts ∧ Strikes (E \ edgeSet cuts) cuts' := by
  constructor
  · rintro ⟨hp, hn⟩
    rw [List.map_append, List.nodup_append] at hn
    obtain ⟨hp, hp'⟩ := List.forall_mem_append.mp hp
    refine ⟨⟨hp, hn.1⟩, fun c hm => Finset.mem_sdiff.mpr ⟨hp' c hm, fun hd => ?_⟩, hn.2.1⟩
    obtain ⟨d, hd, heq⟩ := mem_edgeSet.mp hd
    exact hn.2.2 _ (List.mem_map_of_mem hd) _ (List.mem_map_of_mem hm) heq
  · rintro ⟨⟨hp, hn⟩, hp', hn'⟩
    refine ⟨List.forall_mem_append.mpr ⟨hp, fun c hm => (Finset.mem_sdiff.mp (hp' c hm)).1⟩, ?_⟩
    rw [List.map_append, List.nodup_append]
    refine ⟨hn, hn', fun a ha b hb heq => ?_⟩
    obtain ⟨c, hm, rfl⟩ := List.mem_map.mp ha
    obtain ⟨c', hm', rfl⟩ := List.mem_map.mp hb
    exact (Finset.mem_sdiff.mp (hp' c' hm')).2 (mem_edgeSet.mpr ⟨c, hm, heq⟩)

namespace Rotation

theorem element_eq (h : Rotation n E rot) (hx : Leads n rot u v x) : element n rot (u, v) = x := by
  have hsome : ((rot u).find? (mate n · ∈ rot v)).isSome := List.find?_isSome.mpr ⟨x, hx.1, by simpa using hx.2⟩
  obtain ⟨y, hy⟩ := Option.isSome_iff_exists.mp hsome
  rw [element, hy]
  exact h.simple u v y x ⟨List.mem_of_find?_eq_some hy, by simpa using List.find?_some hy⟩ hx

theorem leads_element (h : Rotation n E rot) (hE : s(c.1, c.2) ∈ E) : Leads n rot c.1 c.2 (element n rot c) := by
  obtain ⟨x, hx⟩ := (h.edge_iff c.1 c.2).mp hE
  rwa [h.element_eq hx]

/-- One edge takes away its two elements. -/
theorem struck_singleton (h : Rotation n E rot) (hl : Leads n rot u v x) :
    struck n rot [(u, v)] = [x, mate n x] ∧ freed n rot [(u, v)] = [(x - n) / 2] := by
  rw [← h.element_eq hl]
  exact ⟨rfl, rfl⟩

theorem leads_inj (h : Rotation n E rot) {u' v' : Nat} (hx : Leads n rot u v x) (hx' : Leads n rot u' v' x) :
    u = u' ∧ v = v' :=
  ⟨h.home u u' x hx.1 hx'.1, h.home v v' _ hx.2 hx'.2⟩

variable (h : Rotation n E rot) (hc : Strikes E cuts)
include h hc

theorem mem_struck : y ∈ struck n rot cuts ↔ ∃ c ∈ cuts, Leads n rot c.1 c.2 y ∨ Leads n rot c.2 c.1 y := by
  simp only [struck, mem_members, List.mem_map, exists_exists_and_eq_and]
  refine exists_congr fun c => and_congr_right fun hm => ?_
  have hl := h.leads_element (hc.present c hm)
  constructor
  · rintro (rfl | rfl)
    · exact .inl hl
    · exact .inr (leads_mate hl)
  · rintro (hy | hy)
    · exact .inl (h.simple _ _ _ _ hy hl)
    · exact .inr (h.simple _ _ _ _ hy (leads_mate hl))

/-- An element goes if its edge does. -/
theorem mem_struck_iff (hy : Leads n rot u v y) : y ∈ struck n rot cuts ↔ s(u, v) ∈ edgeSet cuts := by
  rw [h.mem_struck hc, mem_edgeSet]
  refine exists_congr fun c => and_congr_right fun hm => ?_
  rw [Sym2.eq_iff]
  constructor
  · rintro (hl | hl)
    · exact .inl (h.leads_inj hl hy)
    · exact .inr (h.leads_inj hl hy).symm
  · rintro (⟨rfl, rfl⟩ | ⟨rfl, rfl⟩)
    · exact .inl hy
    · exact .inr hy

theorem prunes : Prunes n rot (struck n rot cuts) := by
  refine ⟨fun x hx => ?_, fun x hx => ?_⟩
  · obtain ⟨c, -, hl | hl⟩ := (h.mem_struck hc).mp hx
    · exact ⟨c.1, hl.1⟩
    · exact ⟨c.2, hl.1⟩
  · obtain ⟨c, hm, hl⟩ := (h.mem_struck hc).mp hx
    exact (h.mem_struck hc).mpr ⟨c, hm, hl.symm.imp leads_mate leads_mate⟩

/-- Without edges, what is left is a rotation of what is left. -/
theorem strike : Rotation n (E \ edgeSet cuts) (TourForest.prune (struck n rot cuts) rot) := by
  refine h.prune (h.prunes hc) fun u v => ?_
  rw [Finset.mem_sdiff, h.edge_iff, ← exists_and_right]
  exact exists_congr fun x => and_congr_right fun hx => not_congr (h.mem_struck_iff hc hx).symm

theorem nodup_struck : (struck n rot cuts).Nodup := by
  induction cuts with
  | nil => exact List.nodup_nil
  | cons c cuts ih =>
    have hl := h.leads_element (hc.present c List.mem_cons_self)
    obtain ⟨hnot, hn⟩ := List.nodup_cons.mp hc.nodup
    have hc' : Strikes E cuts := ⟨fun d hd => hc.present d (List.mem_cons_of_mem _ hd), hn⟩
    have hnew : s(c.1, c.2) ∉ edgeSet cuts := fun hm => hnot (List.mem_toFinset.mp hm)
    show (element n rot c :: mate n (element n rot c) :: struck n rot cuts).Nodup
    refine List.nodup_cons.mpr ⟨fun hm => ?_, List.nodup_cons.mpr ⟨fun hm => ?_, ih hc'⟩⟩
    · rcases List.mem_cons.mp hm with he | hm
      · exact mate_ne (h.range _ _ hl.1).2.1 he.symm
      · exact hnew ((h.mem_struck_iff hc' hl).mp hm)
    · exact hnew (Sym2.eq_swap ▸ (h.mem_struck_iff hc' (leads_mate hl)).mp hm)

theorem mem_freed {q : Nat} : q ∈ freed n rot cuts ↔ n + 2 * q ∈ struck n rot cuts := by
  simp only [freed, struck, mem_members, List.mem_map, exists_exists_and_eq_and]
  refine exists_congr fun c => and_congr_right fun hm => ?_
  have hle := (h.range _ _ (h.leads_element (hc.present c hm)).1).2.1
  constructor
  · intro hq
    rcases eq_even_or_odd hle with he | he
    · exact .inl (by rw [← hq, ← he])
    · exact .inr (by rw [he, mate_odd, hq])
  · rintro (he | he)
    · omega
    · rw [← pair_mate hle, ← he]
      omega

theorem nodup_freed : (freed n rot cuts).Nodup := by
  refine hc.nodup.of_map.map_on fun c hm c' hm' heq => List.inj_on_of_nodup_map hc.nodup hm hm' ?_
  have hl := h.leads_element (hc.present c hm)
  have hl' := h.leads_element (hc.present c' hm')
  rcases eq_or_eq_mate (h.range _ _ hl.1).2.1 (h.range _ _ hl'.1).2.1 heq with he | he
  · obtain ⟨h₁, h₂⟩ := h.leads_inj hl (he ▸ hl')
    rw [h₁, h₂]
  · obtain ⟨h₁, h₂⟩ := h.leads_inj (leads_mate hl) (he ▸ hl')
    rw [h₁, h₂, Sym2.eq_swap]

/-- An element goes if it leads along an edge that goes. -/
theorem mem_struck_iff_leads : y ∈ struck n rot cuts ↔ ∃ u v, Leads n rot u v y ∧ s(u, v) ∈ edgeSet cuts := by
  constructor
  · intro hy
    obtain ⟨u, hu⟩ := (h.prunes hc).live y hy
    obtain ⟨v, -, hv⟩ := h.mated u y hu
    exact ⟨u, v, ⟨hu, hv⟩, (h.mem_struck_iff hc ⟨hu, hv⟩).mp hy⟩
  · rintro ⟨u, v, hl, hE⟩
    exact (h.mem_struck_iff hc hl).mpr hE

/-- Two batches of the same edges have the same elements. -/
theorem struck_congr (hc' : Strikes E cuts') (he : edgeSet cuts = edgeSet cuts') :
    y ∈ struck n rot cuts ↔ y ∈ struck n rot cuts' := by
  rw [h.mem_struck_iff_leads hc, h.mem_struck_iff_leads hc', he]

/-- Two batches of the same edges have the same pairs, but for the order. -/
theorem freed_perm (hc' : Strikes E cuts') (he : edgeSet cuts = edgeSet cuts') :
    (freed n rot cuts).Perm (freed n rot cuts') := by
  refine (List.perm_ext_iff_of_nodup (h.nodup_freed hc) (h.nodup_freed hc')).mpr fun q => ?_
  rw [h.mem_freed hc, h.mem_freed hc', h.struck_congr hc hc' he]

/-- Edges that stay keep their elements. -/
theorem element_prune (hE : s(u, v) ∈ E \ edgeSet cuts) :
    element n (TourForest.prune (struck n rot cuts) rot) (u, v) = element n rot (u, v) := by
  have hl := (h.strike hc).leads_element (c := (u, v)) hE
  exact (h.element_eq ((h.prunes hc).leads_iff.mp hl).1).symm

end Rotation

theorem struck_append : struck n rot (cuts ++ cuts') = struck n rot cuts ++ struck n rot cuts' := by
  rw [struck, List.map_append, members, List.flatMap_append]
  rfl

theorem prune_congr {gone' : List Nat} (hg : ∀ x, x ∈ gone ↔ x ∈ gone') : prune gone rot = prune gone' rot := by
  funext v
  simp only [prune, hg]

theorem prune_prune (gone gone' : List Nat) : prune gone' (prune gone rot) = prune (gone ++ gone') rot := by
  funext v
  simp only [prune, List.filter_filter, List.mem_append, not_or, Bool.decide_and, Bool.and_comm]

section

variable (h : Rotation n E rot) (hc : Strikes E cuts) (hc' : Strikes (E \ edgeSet cuts) cuts')
include h hc hc'

theorem elements_prune : cuts'.map (element n (prune (struck n rot cuts) rot)) = cuts'.map (element n rot) :=
  List.map_congr_left fun c hm => h.element_prune hc (hc'.present c hm)

/-- Edges can go in two steps. -/
theorem prune_struck_append :
    prune (struck n (prune (struck n rot cuts) rot) cuts') (prune (struck n rot cuts) rot) =
      prune (struck n rot (cuts ++ cuts')) rot := by
  rw [prune_prune, struck_append]
  exact congrArg (fun xs => prune (struck n rot cuts ++ members n xs) rot) (elements_prune h hc hc')

theorem freed_prune : freed n (prune (struck n rot cuts) rot) cuts' = freed n rot cuts' :=
  List.map_congr_left fun c hm => by rw [h.element_prune hc (hc'.present c hm)]

end

end

end TourForest
