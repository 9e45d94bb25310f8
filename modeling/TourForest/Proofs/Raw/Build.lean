import TourForest.Proofs.Raw.SumList
import TourForest.Proofs.Stock
import TourForest.Proofs.SumList.Reachable

/-!
# Building on arrays from pools

A new element writes as many items of its arrays as it is high, which an array has to have room for, and leaves the
rest as it came. Pools serve arrays of the size of their class (`Pool.Stocked`), so there is room
(`SkipList.Raw.build_eq`, `SumList.Raw.build_eq`), and what is built on two pairs of pools has the same levels, values
and marks, whatever else the arrays hold (`SkipList.build_alike`, `SumList.build_alike`).
-/

namespace TourForest

/-- An array for an element, with room for its levels. -/
def Pool.arrayWithRoom {α : Type} (p : Pool α) (blank : α) (height : Nat) : Traced (Array α × Pool α) := do
  let (a, p) ← p.arrayFor blank height
  if a.size < height then Traced.fault (.outOfRange a.size (some height)) else return (a, p)

section

variable {α : Type} {p p' : Pool α} {a : Array α} {height : Nat}

theorem Pool.Stocked.of_arrayFor (h : p.Stocked) (hh : height ≤ maxHeight) {blank : α}
    (hok : (p.arrayFor blank height).outcome = .ok (a, p')) : p'.Stocked := by
  obtain ⟨b, q, hok', -, hd⟩ := arrayFor_stocked h blank hh
  cases hok.symm.trans hok'
  exact hd.stocked

/-- The arrays of a pool have room. -/
theorem Pool.Stocked.arrayWithRoom_eq (h : p.Stocked) (hh : height ≤ maxHeight) (blank : α) :
    p.arrayWithRoom blank height = p.arrayFor blank height := by
  obtain ⟨a, p', hok, hsize, -⟩ := arrayFor_stocked h blank hh
  have hroom : ¬ a.size < height := not_lt.mpr (hsize ▸ le_shiftLeft_sizeClass height)
  calc p.arrayWithRoom blank height = p.arrayFor blank height >>= pure := by
        refine Traced.bind_congr_of_ok fun x hx => ?_
        cases hok.symm.trans hx
        exact if_neg hroom
    _ = p.arrayFor blank height := bind_pure _

end

/-! ## Reports -/

section

open Traced

theorem Pool.aboutPools_arrayFor {α : Type} (p : Pool α) (blank : α) (height : Nat) :
    (p.arrayFor blank height).AboutPools := by
  have htake (c : Nat) : (p.take blank c).AboutPools := by
    rw [take]
    split
    · exact .pure _
    · refine .bind (fun e he => ?_) fun _ => .pure _
      rw [List.mem_singleton.mp he]
      rfl
  rw [arrayFor, allocate]
  refine .bind ?_ fun x => ?_
  · split
    · exact .pure _
    · exact .bind (htake _) fun _ => .pure _
  · split
    · exact .pure _
    · exact .fault _

theorem Tower.aboutPools_raise (links : Pool Links) (height : Nat) : (raise links height).AboutPools :=
  .bind (links.aboutPools_arrayFor .blank height) fun _ => .pure _

theorem SkipList.aboutPools_grow {heights : List Nat} : ∀ (s : SkipList) (links : Pool Links),
    (grow s links heights).AboutPools := by
  induction heights with
  | nil => exact fun _ _ => .pure _
  | cons height heights ih => exact fun s links => .bind (Tower.aboutPools_raise links height) fun x => ih _ x.2

theorem SumList.aboutPools_grow (value : Nat → Int) {heights : List Nat} : ∀ (a : SumList) (pools : Pools),
    (grow value a pools heights).AboutPools := by
  induction heights with
  | nil => exact fun _ _ => .pure _
  | cons height heights ih =>
    intro a pools
    refine .bind (Tower.aboutPools_raise pools.links height) fun x => ?_
    exact .bind (pools.values.aboutPools_arrayFor 0 height) fun y => ih _ _

end

/-! ## Lists -/

namespace SkipList

namespace Raw

def raise (links : Pool Links) (height : Nat) : Traced (Tower × Pool Links) := do
  let (a, links) ← links.arrayWithRoom .blank height
  return (Tower.ofArray height a, links)

def grow (s : SkipList) (links : Pool Links) : List Nat → Traced (SkipList × Pool Links)
  | [] => return (s, links)
  | height :: rest => do
    let (t, links) ← raise links height
    grow ⟨s.towers.push t⟩ links rest

def build (links : Pool Links) (r : Random) (len load : Nat) : Traced (SkipList × Pool Links) := do
  reserve len (elementBytes + load)
  grow ⟨#[]⟩ links (drawnHeights r len)

theorem raise_eq {links : Pool Links} (h : links.Stocked) {height : Nat} (hh : height ≤ maxHeight) :
    raise links height = Tower.raise links height := by
  rw [raise, Tower.raise, h.arrayWithRoom_eq hh]

theorem stocked_of_raise {links links' : Pool Links} (h : links.Stocked) {height : Nat} (hh : height ≤ maxHeight)
    {t : Tower} (hok : (Tower.raise links height).outcome = .ok (t, links')) : links'.Stocked := by
  obtain ⟨t', q, hok', -, -, hd⟩ := Tower.raise_stocked h hh
  cases hok.symm.trans hok'
  exact hd.stocked

theorem grow_eq {heights : List Nat} (hh : ∀ h ∈ heights, h ≤ maxHeight) : ∀ {links : Pool Links} (s : SkipList),
    links.Stocked → grow s links heights = SkipList.grow s links heights := by
  induction heights with
  | nil => exact fun _ _ => rfl
  | cons height heights ih =>
    intro links s h
    obtain ⟨hheight, hrest⟩ := List.forall_mem_cons.mp hh
    rw [grow, SkipList.grow, raise_eq h hheight]
    exact Traced.bind_congr_of_ok fun x hx => ih hrest _ (stocked_of_raise h hheight hx)

theorem build_eq {links : Pool Links} (h : links.Stocked) (r : Random) (len load : Nat) :
    build links r len load = SkipList.build links r len load := by
  rw [build, SkipList.build, grow_eq (fun _ hm => (drawnHeights_bounds hm).2) _ h]

end Raw

variable {s c : SkipList} {heights : List Nat}

theorem AllDetached.grounded (h : c.AllDetached heights) (hh : ∀ h ∈ heights, 0 < h ∧ h ≤ maxHeight) : c.Grounded where
  height_pos := (h.woven hh).height_pos
  height_le := (h.woven hh).height_le
  next_reaches u k v hv := by
    rw [nextAt, h.linksAt_eq] at hv
    cases hv
  prev_reaches u k v hv := by
    rw [prevAt, h.linksAt_eq] at hv
    cases hv

/-- New lists with elements of the same heights have the same levels. -/
theorem AllDetached.covers (hs : s.AllDetached heights) (hc : c.AllDetached heights)
    (hh : ∀ h ∈ heights, 0 < h ∧ h ≤ maxHeight) : s.Covers c := by
  refine ⟨Array.toList_inj.mp ?_, hc.grounded hh⟩
  rw [Array.toList_map, Array.toList_map]
  exact hs.trans hc.symm

/-- Lists that are built on two pools end alike. -/
theorem build_alike (links links' : Pool Links) (r : Random) (len load : Nat) :
    Traced.EndAlike (fun x y => x.1.Covers y.1) (build links r len load).quiet (build links' r len load).quiet := by
  have hh : ∀ h ∈ drawnHeights r len, 0 < h ∧ h ≤ maxHeight := fun _ hm => drawnHeights_bounds hm
  obtain ⟨s, p, hs, hds⟩ := outcome_grow (fun h hm => (hh h hm).2) AllDetached.nil links
  obtain ⟨c, q, hc, hdc⟩ := outcome_grow (fun h hm => (hh h hm).2) AllDetached.nil links'
  have hevents (links : Pool Links) : (build links r len load).AboutPools := .bind (.lift _) fun _ => aboutPools_grow _ _
  refine ⟨?_, (hevents links).events_quiet.trans (hevents links').events_quiet.symm⟩
  simp only [Traced.quiet, build, Traced.outcome_bind, hs, hc]
  exact .after fun _ _ => hds.covers hdc hh

end SkipList

namespace SumList

namespace Raw

def grow (value : Nat → Int) (a : SumList) (pools : Pools) : List Nat → Traced (SumList × Pools)
  | [] => return (a, pools)
  | height :: rest => do
    let (t, links) ← SkipList.Raw.raise pools.links height
    let (x, values) ← pools.values.arrayWithRoom 0 height
    let x := Sums.ofArray height (value a.size) x
    grow value (a.push t x) ⟨links, values⟩ rest

def build (pools : Pools) (r : Random) (len load : Nat) (value : Nat → Int) : Traced (SumList × Pools) := do
  reserve len (SkipList.elementBytes + sumBytes + load)
  grow value ⟨⟨#[]⟩, #[], #[]⟩ pools (drawnHeights r len)

theorem grow_eq (value : Nat → Int) {heights : List Nat} (hh : ∀ h ∈ heights, h ≤ maxHeight) :
    ∀ {pools : Pools} (a : SumList), pools.links.Stocked → pools.values.Stocked →
      grow value a pools heights = SumList.grow value a pools heights := by
  induction heights with
  | nil => exact fun _ _ _ => rfl
  | cons height heights ih =>
    intro pools a hl hv
    obtain ⟨hheight, hrest⟩ := List.forall_mem_cons.mp hh
    rw [grow, SumList.grow, SkipList.Raw.raise_eq hl hheight, hv.arrayWithRoom_eq hheight]
    refine Traced.bind_congr_of_ok fun x hx => Traced.bind_congr_of_ok fun y hy => ?_
    exact ih hrest _ (SkipList.Raw.stocked_of_raise hl hheight hx) (hv.of_arrayFor hheight hy)

theorem build_eq {pools : Pools} (hl : pools.links.Stocked) (hv : pools.values.Stocked) (r : Random) (len load : Nat)
    (value : Nat → Int) : build pools r len load value = SumList.build pools r len load value := by
  rw [build, SumList.build, grow_eq value (fun _ hm => (drawnHeights_bounds hm).2) _ hl hv]

end Raw

variable {a c : SumList} {value : Nat → Int} {heights : List Nat}

/-- New lists with elements of the same heights and values have the same levels, values and marks. -/
theorem Fresh.covers (ha : a.Fresh value heights) (hc : c.Fresh value heights)
    (hh : ∀ h ∈ heights, 0 < h ∧ h ≤ maxHeight) : a.Covers c where
  list := ha.detached.covers hc.detached hh
  sums := by
    refine Array.toList_inj.mp ?_
    rw [Array.toList_map, Array.toList_map]
    exact ha.sums.trans hc.sums.symm
  marks := Array.toList_inj.mp (ha.marks.trans hc.marks.symm)
  depth := hc.depth_eq
  size_sums := by
    have := congrArg List.length hc.sums
    rw [List.length_map, List.length_mapIdx, ← hc.detached.size_eq] at this
    exact this
  size_marks := hc.size_marks

/-- Lists with sums that are built on two pairs of pools end alike. -/
theorem build_alike (pools pools' : Pools) (r : Random) (len load : Nat) (value : Nat → Int) :
    Traced.EndAlike (fun x y => x.1.Covers y.1 ∧ y.1.size = len) (build pools r len load value).quiet
      (build pools' r len load value).quiet := by
  have hh : ∀ h ∈ drawnHeights r len, 0 < h ∧ h ≤ maxHeight := fun _ hm => drawnHeights_bounds hm
  obtain ⟨a, p, ha, hfa⟩ := outcome_grow (fun h hm => (hh h hm).2) (Fresh.nil value) pools
  obtain ⟨c, q, hc, hfc⟩ := outcome_grow (fun h hm => (hh h hm).2) (Fresh.nil value) pools'
  have hevents (pools : Pools) : (build pools r len load value).AboutPools :=
    .bind (.lift _) fun _ => aboutPools_grow _ _ _
  refine ⟨?_, (hevents pools).events_quiet.trans (hevents pools').events_quiet.symm⟩
  simp only [Traced.quiet, build, Traced.outcome_bind, ha, hc]
  refine .after fun _ _ => ⟨hfa.covers hfc hh, ?_⟩
  rw [size, hfc.detached.size_eq]
  exact length_drawnHeights r len

end SumList

end TourForest
