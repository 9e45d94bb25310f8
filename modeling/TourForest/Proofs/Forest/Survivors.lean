import TourForest.Proofs.Forest.TourLaw

/-!
# Walks over doomed elements

With the elements of some edges marked as doomed, the walk from any of them goes around the ring of one vertex,
and ends after as many steps as there are other such edges at the vertex (`Rotation.length_le_degree`). The seams
that it finds are those of the batch, and once the tours are split, each goes from the end of a chain to the
beginning of one (`survivors_of_run`). All this is about links, and holds for any number of vertices. Sums with enough
room come in only where the splits are to answer.
-/

namespace TourForest

variable {n v : Nat} {rot : Nat → List Nat} {E M : Finset (Sym2 Nat)} {cuts : List (Nat × Nat)} {ds : List Nat}

/-- Every set of edges is that of a batch. -/
theorem exists_strikes (hM : M ⊆ E) : ∃ cuts, Strikes E cuts ∧ edgeSet cuts = M := by
  have hout (d : Sym2 Nat) : s(d.out.1, d.out.2) = d := Quot.out_eq d
  have hmap : (M.toList.map Quot.out).map (fun e => s(e.1, e.2)) = M.toList := by
    rw [List.map_map]
    exact List.map_id'' hout _
  refine ⟨M.toList.map Quot.out, ⟨fun c hc => ?_, hmap.symm ▸ M.nodup_toList⟩, ?_⟩
  · obtain ⟨d, hd, rfl⟩ := List.mem_map.mp hc
    rw [hout]
    exact hM (Finset.mem_toList.mp hd)
  · rw [edgeSet, hmap, Finset.toList_toFinset]

/-- Elements of edges that leave one vertex are no more than the edges there. -/
theorem Rotation.length_le_degree (h : Rotation n E rot) (hc : Strikes E cuts) (hn : ds.Nodup)
    (hds : ∀ x ∈ ds, x ∈ rot v ∧ x ∈ struck n rot cuts) :
    ds.length ≤ ((edgeSet cuts).filter (v ∈ ·)).card := by
  have hex (x : Nat) (hx : x ∈ ds) : ∃ w, Leads n rot v w x ∧ s(v, w) ∈ edgeSet cuts := by
    obtain ⟨hv, hs⟩ := hds x hx
    obtain ⟨w, -, hw⟩ := h.mated v x hv
    exact ⟨w, ⟨hv, hw⟩, (h.mem_struck_iff hc ⟨hv, hw⟩).mp hs⟩
  choose! w hw hm using hex
  rw [← List.toFinset_card_of_nodup hn]
  apply Finset.card_le_card_of_injOn fun x => s(v, w x)
  · intro x hx
    simpa using hm x (List.mem_toFinset.mp hx)
  · -- The edge says which of the elements it is.
    intro x hx y hy hxy
    have hx := hw x (List.mem_toFinset.mp hx)
    rw [Sym2.congr_right.mp hxy] at hx
    exact h.simple v (w y) x y hx (hw y (List.mem_toFinset.mp hy))

namespace SkipList.Woven

variable {s : SkipList} {x : Nat}

/-- An element with nothing behind it is the last of a chain. -/
theorem exists_chain_to (hs : s.Woven) (hx : x < s.size) (hn : s.nextAt x 0 = none) :
    ∃ xs, s.sequence x = .ok xs ∧ s.IsSequence false xs ∧ xs.getLast? = some x := by
  obtain ⟨closed, xs, hok, hmem, hseq, -⟩ := hs.sequence hx
  obtain ⟨rfl, hlast⟩ := hseq.of_next_eq_none hs hmem hn
  exact ⟨xs, hok, hseq, hlast⟩

/-- An element with nothing before it is the first of a chain. -/
theorem exists_chain_from (hs : s.Woven) (hx : x < s.size) (hp : s.prevAt x 0 = none) :
    ∃ xs, s.sequence x = .ok xs ∧ s.IsSequence false xs ∧ xs.head? = some x := by
  obtain ⟨closed, xs, hok, hmem, hseq, -⟩ := hs.sequence hx
  obtain ⟨rfl, hhead⟩ := hseq.of_prev_eq_none hs hmem hp
  exact ⟨xs, hok, hseq, hhead⟩

end SkipList.Woven

namespace Forest

variable {settings : Settings} {f g : Forest} {e t t' x : Nat}

/-- Element `x` belongs to an edge in `M`. -/
def Belongs (f : Forest) (M : Finset (Sym2 Nat)) (x : Nat) : Prop :=
  ∃ t h, s(t, h) ∈ M ∧ f.edges.find? t h = .ok (some x)

/-- The elements of the edges in `M` are marked as doomed, and no others. -/
def Dooms (f : Forest) (M : Finset (Sym2 Nat)) (g : Forest) : Prop :=
  ∃ doomed, g = { f with doomed } ∧
    ∀ x < f.tours.size, ∃ b, g.isDoomed (some x) = .ok b ∧ (b = true ↔ f.Belongs M x)

/-- The walk over doomed elements that begins behind the twin of `e` takes `k` steps and ends at `r`. -/
def Survives (g : Forest) (e k r : Nat) : Prop :=
  ∃ y first, g.twin e = .ok y ∧ g.tours.list.nextAt y 0 = some first ∧ g.Crosses k first r

namespace Toured

theorem belongs_iff (hr : f.Toured rot E) (hc : Strikes E cuts) :
    f.Belongs (edgeSet cuts) x ↔ x ∈ struck f.vertices rot cuts := by
  rw [hr.rotation.mem_struck_iff_leads hc]
  refine exists_congr fun t => exists_congr fun h => ?_
  rw [and_comm]
  exact and_congr_left fun hM => hr.toLedger.find?_iff (hc.edgeSet_subset hM)

theorem marked_of_dooms (hr : f.Toured rot E) (hc : Strikes E cuts) (hd : f.Dooms (edgeSet cuts) g) :
    g.Marked rot (struck f.vertices rot cuts) := by
  obtain ⟨doomed, rfl, hd⟩ := hd
  refine ⟨hr.few, hr.size, hr.woven, hr.next_iff, fun x hx => ?_⟩
  obtain ⟨b, hb, hiff⟩ := hd x (hx.trans_eq hr.size.symm)
  rw [hr.belongs_iff hc] at hiff
  exact hb.trans (congrArg _ (Bool.eq_iff_iff.mpr (hiff.trans decide_eq_true_iff.symm)))

/-- Marking the elements of a batch dooms its edges. -/
theorem dooms (hr : f.Toured rot E) (hc : Strikes E cuts) :
    f.Dooms (edgeSet cuts) ((struck f.vertices rot cuts).foldl (fun g x => g.setDoomed x true) f) := by
  refine ⟨_, foldl_setDoomed true _ f, fun x hx => ?_⟩
  have hm := hr.marked (struck f.vertices rot cuts)
  rw [foldl_setDoomed] at hm ⊢
  exact ⟨_, hm.doomed x (hx.trans_eq hr.size), decide_eq_true_iff.trans (hr.belongs_iff hc).symm⟩

/-- The walk from a doomed element takes a step for each further one before one that stays. -/
theorem survives (hr : f.Toured rot E) (hc : Strikes E cuts) (hd : f.Dooms (edgeSet cuts) g)
    (he : s(t, t') ∈ edgeSet cuts) (hx : f.edges.find? t t' = .ok (some e)) :
    ∃ k r, g.Survives e k r ∧ k + 1 ≤ ((edgeSet cuts).filter (t ∈ ·)).card := by
  have hm := hr.marked_of_dooms hc hd
  have hl := (hr.toLedger.find?_iff (hc.edgeSet_subset he)).mp hx
  have hmem := (hr.belongs_iff hc).mp ⟨t, t', he, hx⟩
  obtain ⟨doomed, rfl, -⟩ := hd
  have hg := hr.rotation.prunes hc
  obtain ⟨v, hv, l, ds, r, first, hds, -, hi, hfirst, hwalk⟩ :=
    Marked.exists_crossing (g := { f with doomed }) hr.rotation hg hm hmem
  have hrun : (e :: ds) ++ [r] <:+: ring rot v := (List.suffix_cons _ _).isInfix.trans hi
  -- The ring is that of `t`, where `e` leaves.
  obtain rfl : t = v := hr.rotation.ring_unique (hr.rotation.range t e hl.1).1 hv (mem_ring.mpr (.inr hl.1))
    (hrun.subset List.mem_cons_self)
  refine ⟨ds.length, r, ⟨_, first, hm.twin_eq (g := { f with doomed }) hr.rotation hg hmem, hfirst, hwalk⟩, ?_⟩
  show (e :: ds).length ≤ _
  refine hr.rotation.length_le_degree hc (hr.rotation.nodup_run hv hrun) fun x hxd => ?_
  have hs : x ∈ struck f.vertices rot cuts := List.forall_mem_cons.mpr ⟨hmem, hds⟩ x hxd
  have hring : x ∈ ring rot t := hrun.subset (List.mem_append_left _ hxd)
  exact ⟨(mem_ring.mp hring).resolve_left fun hxt => hg.vertex_not_mem hr.rotation hv (hxt ▸ hs), hs⟩

/-- The gaps of a batch go from an element that stays and comes before a doomed one to where the walk from that
ends. -/
theorem gap_iff_survives (hr : f.Toured rot E) (hc : Strikes E cuts) (hd : f.Dooms (edgeSet cuts) g) (q : Nat × Nat) :
    Gap f.vertices rot (struck f.vertices rot cuts) q ↔ g.isDoomed (some q.1) = .ok false ∧
      ∃ e k, f.Belongs (edgeSet cuts) e ∧ g.tours.list.prevAt e 0 = some q.1 ∧ g.Survives e k q.2 := by
  have hm := hr.marked_of_dooms hc hd
  obtain ⟨doomed, rfl, -⟩ := hd
  have hg := hr.rotation.prunes hc
  have h' := hr.rotation.strike hc
  have hgap {e : Nat} (he : e ∈ struck f.vertices rot cuts) {q : Nat × Nat} (hl : Follows f.vertices rot q.1 e) :=
    Marked.gap_iff (g := { f with doomed }) hr.rotation hg hm h' he hl
  have htwin {e : Nat} (he : e ∈ struck f.vertices rot cuts) :=
    Marked.twin_eq (g := { f with doomed }) hr.rotation hg hm he
  constructor
  · intro hq
    obtain ⟨v, hv, e, ds, hds, hi⟩ := hq.2.2
    have he := hds e List.mem_cons_self
    have hl : Follows f.vertices rot q.1 e := follows_of_adjacent hv hi
    obtain ⟨hstay, k, first, hfirst, hwalk⟩ := (hgap he hl).mp hq
    refine ⟨?_, e, k, (hr.belongs_iff hc).mpr he, hm.woven.next_iff_prev.mp ((hm.next_iff q.1 e).mpr hl), ?_⟩
    · rw [hm.doomed q.1 (hr.rotation.lt_of_follows hl).1, decide_eq_false hstay]
    · exact ⟨_, first, htwin he, hfirst, hwalk⟩
  · rintro ⟨hfree, e, k, he, hprev, y, first, hy, hfirst, hwalk⟩
    have he := (hr.belongs_iff hc).mp he
    have hl : Follows f.vertices rot q.1 e := (hm.next_iff q.1 e).mp (hm.woven.next_iff_prev.mpr hprev)
    have hstay := (hm.doomed q.1 (hr.rotation.lt_of_follows hl).1).symm.trans hfree
    obtain rfl := Except.ok.inj ((htwin he).symm.trans hy)
    exact (hgap he hl).mpr
      ⟨of_decide_eq_false (Except.ok.inj hstay), k, first, hfirst, hwalk⟩

end Toured

/-- In every forest of a run and for every set of its edges, once the elements of these are marked as doomed:

* the walk from each of them ends at an element that stays, after as many steps as there are other such edges at
  the vertex that it leaves, or fewer;
* the seams of a batch of these edges go from the elements that stay and come before a doomed one to where the
  walk from that ends, with no element twice on either side, and after the splits of the batch each left end is
  the last of a chain and each right end the first of one. The splits can always be made, and repairing the sums after
  them changes no link. It cannot fail where no sum can leave its range. -/
theorem survivors_of_run (hf : Run n settings f E) (hM : M ⊆ E) :
    (∀ g, f.Dooms M g → ∀ t t' e, s(t, t') ∈ M → f.edges.find? t t' = .ok (some e) →
      ∃ k r, g.Survives e k r ∧ k + 1 ≤ (M.filter (t ∈ ·)).card) ∧
    ∀ cuts, Strikes E cuts → edgeSet cuts = M →
      ∃ elements, (cuts.mapM fun c => f.edgeElements c.1 c.2) = .ok elements ∧
      ∀ g, (elements.flatMap fun e => [e.1, e.2]).foldl (fun g x => g.setDoomed x true) f = g →
        f.Dooms M g ∧
        ∃ pairs : List (Nat × Nat), g.closings elements = .ok (pairs.map SkipList.seam) ∧
          (∀ q, q ∈ pairs ↔ g.isDoomed (some q.1) = .ok false ∧
            ∃ e k, f.Belongs M e ∧ g.tours.list.prevAt e 0 = some q.1 ∧ g.Survives e k q.2) ∧
          (pairs.map Prod.fst).Nodup ∧ (pairs.map Prod.snd).Nodup ∧
          (∀ q ∈ pairs, g.isDoomed (some q.1) = .ok false ∧ g.isDoomed (some q.2) = .ok false) ∧
          ∃ after list, g.tours.list.splitAll (g.splitPoints elements) = .ok (after, list) ∧
            (∀ q ∈ pairs,
              (∃ xs, list.sequence q.1 = .ok xs ∧ list.IsSequence false xs ∧ xs.getLast? = some q.1) ∧
              ∃ xs, list.sequence q.2 = .ok xs ∧ list.IsSequence false xs ∧ xs.head? = some q.2) ∧
            (∀ after' tours, g.tours.splitAll (g.splitPoints elements) = .ok (after', tours) →
              after' = after ∧ tours.list = list) ∧
            (n < 2 ^ 31 → ∃ tours, g.tours.splitAll (g.splitPoints elements) = .ok (after, tours)) := by
  obtain ⟨rfl, -, rot, hr⟩ := hf.toured
  constructor
  · obtain ⟨cuts, hc, rfl⟩ := exists_strikes hM
    exact fun g hd t t' e he hx => hr.survives hc hd he hx
  · rintro cuts hc rfl
    refine ⟨_, hr.mapM_edgeElements hc, ?_⟩
    rintro g rfl
    rw [flatMap_struck]
    have hd := hr.dooms hc
    rw [foldl_setDoomed] at hd ⊢
    obtain ⟨us, pairs, hcl, hpoints, hseams⟩ := hr.exists_closes hc
    have hiff (q : Nat × Nat) := (hcl.gaps q).trans (hr.gap_iff_survives hc hd q)
    have hpattern := hr.pattern_cuts hc hcl
    obtain ⟨list, hsplit, hw, hsize, -, hnext⟩ := hr.woven.splitAll hpattern.points_lt
    have hmeet := hpattern.meet hw hsize hnext
    have hlist : f.tours.list.splitAll (f.splitPoints _) = .ok (f.tours.list.answers us, list) := hpoints ▸ hsplit
    refine ⟨hd, pairs, hseams, hiff, hcl.lefts_nodup, hmeet.rights_nodup, fun q hq => ?_, _, list, hlist,
      fun q hq => ?_, fun after' tours hok => ?_, fun hn => ?_⟩
    · obtain ⟨hfree, e, k, -, -, y, first, -, -, hwalk⟩ := (hiff q).mp hq
      exact ⟨hfree, hwalk.not_doomed⟩
    · obtain ⟨hl, hln⟩ := hmeet.left q hq
      obtain ⟨hr, hrp⟩ := hmeet.right q hq
      exact ⟨hw.exists_chain_to hl hln, hw.exists_chain_from hr hrp⟩
    · obtain ⟨rfl, rfl⟩ := Prod.mk.inj (Except.ok.inj ((SumList.batched_splitAll hok).1.symm.trans hlist))
      exact ⟨rfl, rfl⟩
    · obtain ⟨tours, hok, -⟩ := (hf.sound hn).splitAll (bounded_of_own hn hr.own) hpattern.points_lt
      exact ⟨tours, (congrArg f.tours.splitAll hpoints).trans hok⟩

/-- Both edges of a star go, and at its centre the walk from the element of one of them takes a step at most. -/
theorem survivors_of_star : ∃ f g : Forest, ∃ e k r, Run 3 {} f {s(0, 2), s(0, 1)} ∧
    f.Dooms {s(0, 2), s(0, 1)} g ∧ f.edges.find? 0 1 = .ok (some e) ∧ g.Survives e k r ∧ k ≤ 1 := by
  obtain ⟨f₀, pools, hok₀, hr₀, hv₀, -⟩ := outcome_build (n := 3) .empty (by decide) {}
  obtain ⟨f₁, hok₁⟩ := hr₀.progress.link 0 (by omega) 1 (by omega) (not_reachable_empty (by decide))
  have hf₁ : Run 3 {} f₁ {s(0, 1)} := .linked (.built hok₀) (by decide) (by decide) hok₁
  obtain ⟨hv₁, -, rot₁, hr₁⟩ := hf₁.refines (by decide)
  have hsep : ¬ (graph {s(0, 1)}).Reachable 0 2 := by
    rintro ⟨p⟩
    cases p.reverse with
    | cons hadj _ => simp [graph] at hadj
  obtain ⟨f, hok⟩ := hr₁.progress.link 0 (by omega) 2 (by omega) hsep
  have hf : Run 3 {} f {s(0, 2), s(0, 1)} := .linked hf₁ (by decide) (by decide) hok
  have hc : Strikes {s(0, 2), s(0, 1)} [(0, 1), (0, 2)] := ⟨by decide, by decide⟩
  obtain ⟨hwalks, hbatch⟩ := survivors_of_run hf (Finset.Subset.refl _)
  obtain ⟨elements, -, hall⟩ := hbatch [(0, 1), (0, 2)] hc (by decide)
  obtain ⟨hd, -⟩ := hall _ rfl
  obtain ⟨-, -, rot, hr⟩ := hf.refines (by decide)
  obtain ⟨e, he, -⟩ := hr.tourLaw.found 0 1 (by decide)
  obtain ⟨k, x, hwalk, hk⟩ := hwalks _ hd 0 1 e (by decide) he
  rw [show (Finset.filter (0 ∈ ·) {s(0, 2), s(0, 1)} : Finset (Sym2 Nat)).card = 2 by decide] at hk
  exact ⟨f, _, e, k, x, hf, hd, he, hwalk, by omega⟩

end Forest

end TourForest
