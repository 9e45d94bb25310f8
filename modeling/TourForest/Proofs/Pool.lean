import Mathlib.Order.Nat
import TourForest.Proofs.Outcome
import TourForest.SumList.Build

/-!
# Building lists

Heights lie between 1 and the longest array, so no pool refuses the arrays of an element. A list that
is built consists of detached elements, whatever its pools held.
-/

namespace TourForest

/-! ## Heights -/

theorem heightOfWord_pos (w : UInt64) : 0 < heightOfWord w := by
  simp only [heightOfWord, maxHeight]
  omega

theorem heightOfWord_le (w : UInt64) : heightOfWord w ≤ maxHeight := min_le_right _ _

theorem length_drawnHeights (r : Random) (len : Nat) : (drawnHeights r len).length = len := by
  simp [drawnHeights]

theorem drawnHeights_bounds {r : Random} {len h : Nat} (hh : h ∈ drawnHeights r len) :
    0 < h ∧ h ≤ maxHeight := by
  obtain ⟨i, -, rfl⟩ := List.mem_map.mp hh
  exact ⟨heightOfWord_pos _, heightOfWord_le _⟩

/-! ## Arrays -/

/-- No pool refuses an array for a height. -/
theorem Pool.outcome_arrayFor {α : Type} (p : Pool α) (blank : α) {height : Nat}
    (h : height ≤ maxHeight) : ∃ a p', (p.arrayFor blank height).outcome = .ok (a, p') := by
  have hl : ¬ longestArray < height := not_lt.mpr h
  have htake : ∃ a p', (p.take blank (sizeClass height)).outcome = .ok (a, p') := by
    unfold Pool.take
    split
    · exact ⟨_, _, rfl⟩
    · exact ⟨_, _, rfl⟩
  obtain ⟨a, p', ht⟩ := htake
  refine ⟨a, p', ?_⟩
  rw [Pool.arrayFor, Pool.allocate, if_neg hl]
  simp [ht]

/-- A tower that is raised is detached. -/
theorem Tower.outcome_raise (links : Pool Links) {height : Nat} (h : height ≤ maxHeight) :
    ∃ t links', (Tower.raise links height).outcome = .ok (t, links') ∧
      t.levels = Array.replicate height .detached := by
  obtain ⟨a, links', ha⟩ := links.outcome_arrayFor .blank h
  refine ⟨Tower.ofArray height a, links', ?_, rfl⟩
  rw [Tower.raise, Traced.outcome_bind, ha]
  rfl

/-! ## Skip lists -/

namespace SkipList

variable {s s' : SkipList}

/-- The links of all elements, all of them detached, on as many levels as `heights` says. -/
def AllDetached (s : SkipList) (heights : List Nat) : Prop :=
  s.towers.toList.map (·.levels) = heights.map (Array.replicate · .detached)

namespace AllDetached

variable {heights : List Nat}

theorem size_eq (h : s.AllDetached heights) : s.size = heights.length := by
  have := congrArg List.length h
  simpa [SkipList.size] using this

theorem levels_eq (h : s.AllDetached heights) (u : Nat) :
    (s.towers[u]?).map (·.levels) = (heights[u]?).map (Array.replicate · .detached) := by
  have := congrArg (·[u]?) h
  simpa using this

theorem height_eq (h : s.AllDetached heights) (u : Nat) : s.height u = (heights[u]?).getD 0 := by
  have := h.levels_eq u
  unfold SkipList.height Tower.height
  cases hs : s.towers[u]? <;> cases hh : heights[u]? <;> simp_all

theorem linksAt_eq (h : s.AllDetached heights) (u k : Nat) : s.linksAt u k = .detached := by
  have := h.levels_eq u
  unfold SkipList.linksAt
  cases hs : s.towers[u]? with
  | none => rfl
  | some t =>
    cases hh : heights[u]? with
    | none => simp_all
    | some n =>
      have ht : t.levels = Array.replicate n .detached := by simpa [hs, hh] using this
      by_cases hk : k < n <;> simp [ht, hk]

theorem push (h : s.AllDetached heights) {t : Tower} {height : Nat}
    (ht : t.levels = Array.replicate height .detached) :
    (SkipList.mk (s.towers.push t)).AllDetached (heights ++ [height]) := by
  unfold AllDetached at h ⊢
  simp [h, ht]

theorem nil : (SkipList.mk #[]).AllDetached [] := rfl

end AllDetached

/-- A list grows by detached elements of the given heights. -/
theorem outcome_grow {heights : List Nat} (hh : ∀ h ∈ heights, h ≤ maxHeight) {before : List Nat}
    (hs : s.AllDetached before) (links : Pool Links) :
    ∃ s' links', (grow s links heights).outcome = .ok (s', links') ∧
      s'.AllDetached (before ++ heights) := by
  induction heights generalizing s before links with
  | nil => exact ⟨s, links, rfl, by simpa using hs⟩
  | cons height heights ih =>
    obtain ⟨t, links', ht, hlevels⟩ := Tower.outcome_raise links (hh height List.mem_cons_self)
    obtain ⟨s', links'', hs', hd⟩ :=
      ih (fun h hm => hh h (List.mem_cons_of_mem _ hm)) (hs.push hlevels) links'
    refine ⟨s', links'', ?_, by simpa using hd⟩
    simp [grow, ht, hs']

/-- A list is built unless it is too long for a block of memory. -/
theorem outcome_build (links : Pool Links) (r : Random) {len load : Nat}
    (h : len * (elementBytes + load) ≤ largestBlock) :
    ∃ s links', (build links r len load).outcome = .ok (s, links') ∧
      s.AllDetached (drawnHeights r len) := by
  obtain ⟨s, links', hg, hd⟩ := outcome_grow (fun _ hm => (drawnHeights_bounds hm).2) AllDetached.nil links
  refine ⟨s, links', ?_, by simpa using hd⟩
  simp [build, reserve, h, hg]

/-- A list that is built has detached elements of the heights that were drawn. -/
theorem allDetached_of_build {links links' : Pool Links} {r : Random} {len load : Nat}
    (h : (build links r len load).outcome = .ok (s, links')) : s.AllDetached (drawnHeights r len) := by
  obtain ⟨s', links'', hg, hd⟩ :=
    outcome_grow (fun _ hm => (drawnHeights_bounds hm).2) AllDetached.nil links
  rw [build, Traced.outcome_bind, bind_eq_ok] at h
  obtain ⟨⟨⟩, -, h⟩ := h
  rw [hg] at h
  cases h
  simpa using hd

end SkipList

/-! ## Lists with sums -/

namespace SumList

variable {a : SumList}

/-- The elements of a list with sums, all of them detached and each with one value on all levels. -/
structure Fresh (a : SumList) (value : Nat → Int) (heights : List Nat) : Prop where
  detached : a.list.AllDetached heights
  sums : a.sums.toList.map (·.levels) = heights.mapIdx fun u h => Array.replicate h (value u)
  marks : a.marks.toList = heights.map fun _ => none

namespace Fresh

variable {value : Nat → Int} {heights : List Nat}

theorem nil (value : Nat → Int) : (SumList.mk ⟨#[]⟩ #[] #[]).Fresh value [] := ⟨.nil, rfl, rfl⟩

theorem push (h : a.Fresh value heights) {t : Tower} {x : Sums} {height : Nat}
    (ht : t.levels = Array.replicate height .detached)
    (hx : x.levels = Array.replicate height (value a.size)) :
    (a.push t x).Fresh value (heights ++ [height]) := by
  have hsize : a.size = heights.length := h.detached.size_eq
  refine ⟨h.detached.push ht, ?_, ?_⟩
  · simp [SumList.push, h.sums, hx, hsize, List.mapIdx_append]
  · simp [SumList.push, h.marks]

theorem levels_eq (h : a.Fresh value heights) (u : Nat) :
    (a.sums[u]?).map (·.levels) = (heights[u]?).map fun h => Array.replicate h (value u) := by
  have := congrArg (·[u]?) h.sums
  simpa using this

theorem depth_eq (h : a.Fresh value heights) (u : Nat) : a.depth u = a.height u := by
  have := h.levels_eq u
  rw [SumList.height, h.detached.height_eq, SumList.depth]
  cases hs : a.sums[u]? <;> cases hh : heights[u]? <;> simp_all

theorem valueAt_eq (h : a.Fresh value heights) {u k : Nat} (hk : k < a.height u) :
    a.valueAt u k = value u := by
  have := h.levels_eq u
  rw [SumList.height, h.detached.height_eq] at hk
  rw [SumList.valueAt]
  cases hh : heights[u]? with
  | none => simp [hh] at hk
  | some n =>
    cases hs : a.sums[u]? with
    | none => simp_all
    | some x =>
      have hx : x.levels = Array.replicate n (value u) := by simpa [hs, hh] using this
      have hn : k < n := by simpa [hh] using hk
      simp [hx, hn]

theorem markAt_eq (h : a.Fresh value heights) (u : Nat) : a.markAt u = none := by
  have hm : a.marks = (heights.map fun _ => none).toArray := by rw [← h.marks]
  rw [SumList.markAt, hm, Array.getD_eq_getD_getElem?, List.getElem?_toArray, List.getElem?_map]
  cases heights[u]? <;> rfl

theorem size_marks (h : a.Fresh value heights) : a.marks.size = a.size := by
  have := congrArg List.length h.marks
  rw [SumList.size, h.detached.size_eq]
  simpa using this

end Fresh

/-- A list with sums grows by detached elements of the given heights. -/
theorem outcome_grow {value : Nat → Int} {heights : List Nat} (hh : ∀ h ∈ heights, h ≤ maxHeight)
    {before : List Nat} (ha : a.Fresh value before) (pools : Pools) :
    ∃ a' pools', (grow value a pools heights).outcome = .ok (a', pools') ∧
      a'.Fresh value (before ++ heights) := by
  induction heights generalizing a before pools with
  | nil => exact ⟨a, pools, rfl, by simpa using ha⟩
  | cons height heights ih =>
    have hle := hh height List.mem_cons_self
    obtain ⟨t, links', ht, hlevels⟩ := Tower.outcome_raise pools.links hle
    obtain ⟨x, values', hx⟩ := pools.values.outcome_arrayFor 0 hle
    obtain ⟨a', pools', ha', hf⟩ := ih (fun h hm => hh h (List.mem_cons_of_mem _ hm))
      (ha.push hlevels (rfl : (Sums.ofArray height (value a.size) x).levels = _)) ⟨links', values'⟩
    refine ⟨a', pools', ?_, by simpa using hf⟩
    simp [grow, ht, hx, ha']

/-- A list with sums is built unless it is too long for a block of memory. -/
theorem outcome_build (pools : Pools) (r : Random) {len load : Nat} (value : Nat → Int)
    (h : len * (SkipList.elementBytes + sumBytes + load) ≤ largestBlock) :
    ∃ a pools', (build pools r len load value).outcome = .ok (a, pools') ∧
      a.Fresh value (drawnHeights r len) := by
  obtain ⟨a, pools', hg, hf⟩ :=
    outcome_grow (fun _ hm => (drawnHeights_bounds hm).2) (Fresh.nil value) pools
  refine ⟨a, pools', ?_, by simpa using hf⟩
  simp [build, reserve, h, hg]

theorem fresh_of_build {pools pools' : Pools} {r : Random} {len load : Nat} {value : Nat → Int}
    (h : (build pools r len load value).outcome = .ok (a, pools')) :
    a.Fresh value (drawnHeights r len) := by
  obtain ⟨a', pools'', hg, hf⟩ :=
    outcome_grow (fun _ hm => (drawnHeights_bounds hm).2) (Fresh.nil value) pools
  rw [build, Traced.outcome_bind, bind_eq_ok] at h
  obtain ⟨⟨⟩, -, h⟩ := h
  rw [hg] at h
  cases h
  simpa using hf

end SumList

end TourForest
