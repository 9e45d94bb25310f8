import Mathlib.Order.Bounds.Basic
import TourForest.Proofs.Pool

/-!
# The stock of a pool

A pool is stocked if all arrays on a shelf have the size of the shelf. Whoever draws arrays from a stocked pool gets
arrays of the sizes that were asked for: what was waiting goes out first, and only what is missing then is made and
reported. Arrays that are handed back are on their shelves again, since the shelf of an array of `2 ^ c` items is
shelf `c`, however the array was asked for (`sizeClass_shiftLeft`).

`Draws p sizes fresh p'` says that `p'` is left of `p` when arrays of the given sizes are drawn, and how many of each
class are made. Draws add up (`Draws.trans`), and so do all arrays of a structure:

* `Pool.take_stocked`, `Pool.arrayFor_stocked`: one array;
* `SkipList.grow_stocked`, `SumList.grow_stocked`: those of all elements;
* `Pool.freeAll_stocked`: back to the shelves.
-/

namespace TourForest

/-! ## Size classes -/

/-- The class of an array is that of the requests it serves. -/
theorem sizeClass_shiftLeft (c : Nat) : sizeClass (1 <<< c) = c := by
  refine Nat.le_antisymm (Nat.le_of_not_lt fun h => ?_) (Nat.le_of_not_lt fun h => ?_)
  · exact (shiftLeft_lt_of_lt_ceilLog2 h).false
  · have hlt := Nat.pow_lt_pow_right Nat.one_lt_two h
    rw [← Nat.one_shiftLeft, ← Nat.one_shiftLeft] at hlt
    exact absurd (le_shiftLeft_ceilLog2 (1 <<< c)) (not_le.mpr hlt)

theorem sizeClass_lt {len : Nat} (h : len ≤ longestArray) : sizeClass len < shelfCount := by
  refine Nat.lt_of_not_le fun hle => ?_
  have hlt : 1 <<< 5 < len := shiftLeft_lt_of_lt_ceilLog2 (Nat.lt_of_lt_of_le (by decide) hle)
  exact absurd h (not_le.mpr hlt)

theorem le_shiftLeft_sizeClass (len : Nat) : len ≤ 1 <<< sizeClass len := le_shiftLeft_ceilLog2 len

theorem shiftLeft_inj {c d : Nat} : 1 <<< c = 1 <<< d ↔ c = d := by
  rw [Nat.one_shiftLeft, Nat.one_shiftLeft, Nat.pow_right_inj Nat.one_lt_two]

theorem count_shiftLeft (c d : Nat) : [1 <<< c].count (1 <<< d) = if c = d then 1 else 0 := by
  simp only [List.count_singleton, beq_iff_eq, shiftLeft_inj]

theorem count_freshArray (c d : Nat) : [Event.freshArray c].count (.freshArray d) = if c = d then 1 else 0 := by
  simp only [List.count_singleton, beq_iff_eq, Event.freshArray.injEq]

/-- The array that serves a request has the least power of two of items that is large enough. -/
theorem isLeast_shiftLeft_sizeClass (len : Nat) :
    IsLeast {m | len ≤ m ∧ ∃ c, m = 1 <<< c} (1 <<< sizeClass len) := by
  refine ⟨⟨le_shiftLeft_sizeClass len, _, rfl⟩, ?_⟩
  rintro m ⟨hm, c, rfl⟩
  refine Nat.le_of_not_lt fun h => ?_
  rw [Nat.one_shiftLeft, Nat.one_shiftLeft, Nat.pow_lt_pow_iff_right Nat.one_lt_two, ← Nat.not_le] at h
  exact h (Nat.le_of_not_lt fun h => absurd hm (not_le.mpr (shiftLeft_lt_of_lt_ceilLog2 h)))

/-! ## Taking one array -/

namespace Pool

variable {α : Type} {p p' : Pool α} {a : Array α} {blank : α} {c : Nat}

/-- The number of arrays that wait in a size class. -/
def pooled (p : Pool α) (c : Nat) : Nat := (p.shelf c).size

/-- All arrays on a shelf have the size of the shelf. -/
def Stocked (p : Pool α) : Prop := ∀ c, ∀ a ∈ (p.shelf c).toList, a.size = 1 <<< c

theorem stocked_empty : (empty : Pool α).Stocked := fun c a ha => by
  rw [shelf_empty, Shelf.toList_empty] at ha
  cases ha

@[simp] theorem pooled_empty (c : Nat) : (empty : Pool α).pooled c = 0 := by
  rw [pooled, shelf_empty]
  rfl

/-- `p'` is left of `p` when arrays of the given sizes are drawn, and `fresh` says how many of each class are made. -/
structure Draws (p : Pool α) (sizes : List Nat) (fresh : Nat → Nat) (p' : Pool α) : Prop where
  stocked : p'.Stocked
  pooled : ∀ c, p'.pooled c = p.pooled c - sizes.count (1 <<< c)
  fresh : ∀ c, fresh c = sizes.count (1 <<< c) - p.pooled c

namespace Draws

theorem nil (h : p.Stocked) : Draws p [] (fun _ => 0) p := ⟨h, by simp, by simp⟩

theorem trans {p'' : Pool α} {sizes sizes' : List Nat} {fresh fresh' : Nat → Nat} (h : Draws p sizes fresh p')
    (h' : Draws p' sizes' fresh' p'') : Draws p (sizes ++ sizes') (fun c => fresh c + fresh' c) p'' := by
  refine ⟨h'.stocked, fun c => ?_, fun c => ?_⟩ <;>
  · have := h.pooled c
    have := h.fresh c
    have := h'.pooled c
    have := h'.fresh c
    rw [List.count_append]
    omega

end Draws

/-- What the shelves hold after one of them was changed. -/
theorem stocked_setShelf {s : Shelf α} (h : p.Stocked) (hs : ∀ a ∈ s.toList, a.size = 1 <<< c) :
    (p.setShelf c s).Stocked := by
  intro d a ha
  rw [shelf_setShelf] at ha
  split at ha
  · next hd => exact hd.1 ▸ hs a ha
  · exact h d a ha

theorem pooled_setShelf {s : Shelf α} (hc : c < shelfCount) (d : Nat) :
    (p.setShelf c s).pooled d = if c = d then s.size else p.pooled d := by
  rw [pooled, shelf_setShelf]
  simp only [hc, and_true, eq_comm]
  split <;> rfl

/-- An array that was waiting is taken without a report, and one is made and reported otherwise. -/
theorem take_stocked (h : p.Stocked) (blank : α) (hc : c < shelfCount) :
    ∃ a p', (p.take blank c).outcome = .ok (a, p') ∧ a.size = 1 <<< c ∧
      Draws p [1 <<< c] (fun d => (p.take blank c).events.count (.freshArray d)) p' := by
  unfold take
  rcases ht : (p.shelf c).take? with _ | ⟨a, rest⟩
  · have hnil : p.pooled c = 0 := by
      rw [pooled, ← Shelf.length_toList, Shelf.take?_eq_none_iff.mp ht, List.length_nil]
    refine ⟨_, p, rfl, Array.size_replicate, h, fun d => ?_, fun d => ?_⟩
    · rw [count_shiftLeft]
      split
      · next hd => rw [← hd, hnil]
      · rfl
    · show [Event.freshArray c].count (.freshArray d) = _
      rw [count_freshArray, count_shiftLeft]
      split
      · next hd => rw [← hd, hnil]
      · rw [Nat.zero_sub]
  · have hrow := Shelf.toList_of_take? ht
    have hsize : (p.shelf c).size = rest.size + 1 := by
      rw [← Shelf.length_toList, ← Shelf.length_toList, hrow, List.length_cons]
    refine ⟨a, _, rfl, h c a (hrow ▸ List.mem_cons_self), stocked_setShelf h fun b hb => ?_, fun d => ?_, fun d => ?_⟩
    · exact h c b (hrow ▸ List.mem_cons_of_mem _ hb)
    · rw [pooled_setShelf hc, count_shiftLeft]
      split
      · next hd =>
        rw [← hd, pooled, hsize]
        rfl
      · rfl
    · show 0 = _
      rw [count_shiftLeft]
      split
      · next hd =>
        rw [← hd, pooled, hsize]
        omega
      · rw [Nat.zero_sub]

/-- The array for an element is the first one that is large enough. -/
theorem arrayFor_stocked (h : p.Stocked) (blank : α) {height : Nat} (hh : height ≤ maxHeight) :
    ∃ a p', (p.arrayFor blank height).outcome = .ok (a, p') ∧ a.size = 1 <<< sizeClass height ∧
      Draws p [1 <<< sizeClass height]
        (fun c => (p.arrayFor blank height).events.count (.freshArray c)) p' := by
  obtain ⟨a, p', ht, hsize, hd⟩ := take_stocked h blank (sizeClass_lt hh)
  have hle : ¬ longestArray < height := not_lt.mpr hh
  have halloc : p.arrayFor blank height =
      (p.take blank (sizeClass height) >>= fun (x : Array α × Pool α) => pure x) := by
    rw [arrayFor, allocate, if_neg hle, bind_assoc]
    simp only [pure_bind]
  rw [bind_pure] at halloc
  rw [halloc]
  exact ⟨a, p', ht, hsize, hd⟩

/-! ## Handing arrays back -/

/-- An array of a class goes back to the shelf of the class. -/
theorem free_stocked (h : p.Stocked) (ha : a.size = 1 <<< c) (hc : c < shelfCount) :
    ∃ p', p.free a = .ok p' ∧ p'.Stocked ∧ ∀ d, p'.pooled d = p.pooled d + [a.size].count (1 <<< d) := by
  refine ⟨p.setShelf c ((p.shelf c).put a), ?_, stocked_setShelf h fun b hb => ?_, fun d => ?_⟩
  · rw [free, ha, sizeClass_shiftLeft]
    exact if_pos rfl
  · rw [Shelf.toList_put, List.mem_append, List.mem_singleton] at hb
    rcases hb with hb | rfl
    · exact h c b hb
    · exact ha
  · rw [pooled_setShelf hc, ha, count_shiftLeft]
    split
    · next hd =>
      rw [← hd, pooled, ← Shelf.length_toList, ← Shelf.length_toList, Shelf.toList_put, List.length_append,
        List.length_singleton]
    · rfl

/-- Arrays of all classes go back to their shelves, one after the other. -/
theorem freeAll_stocked {β : Type} {array : β → Array α} {xs : List β}
    (hx : ∀ x ∈ xs, ∃ c < shelfCount, (array x).size = 1 <<< c) {p : Pool α} (h : p.Stocked) :
    ∃ p', xs.foldlM (fun p x => p.free (array x)) p = .ok p' ∧ p'.Stocked ∧
      ∀ d, p'.pooled d = p.pooled d + (xs.map fun x => (array x).size).count (1 <<< d) := by
  induction xs generalizing p with
  | nil => exact ⟨p, rfl, h, by simp⟩
  | cons x xs ih =>
    obtain ⟨⟨c, hc, ha⟩, hx⟩ := List.forall_mem_cons.mp hx
    obtain ⟨p₁, hok₁, h₁, hcount₁⟩ := free_stocked h ha hc
    obtain ⟨p₂, hok₂, h₂, hcount₂⟩ := ih hx h₁
    refine ⟨p₂, ?_, h₂, fun d => ?_⟩
    · rw [List.foldlM_cons, hok₁, ok_bind, hok₂]
    · have hsplit : ((x :: xs).map fun x => (array x).size) = [(array x).size] ++ xs.map fun x => (array x).size := rfl
      rw [hcount₂, hcount₁, hsplit, List.count_append, Nat.add_assoc]

end Pool

/-! ## The arrays of skip lists -/

theorem Traced.count_events_bind {α β : Type} {x : Traced α} {a : α} (h : x.outcome = .ok a) (f : α → Traced β)
    (e : Event) : (x >>= f).events.count e = x.events.count e + (f a).events.count e := by
  rw [events_bind_of_ok h, List.count_append]

namespace Tower

/-- An array that is large enough for a tower holds it and nothing more. -/
theorem size_ofArray {height : Nat} {a : Array Links} (h : height ≤ a.size) :
    (ofArray height a).toArray.size = a.size := by
  simp only [ofArray, toArray, Array.size_append, Array.size_replicate, Array.size_extract]
  omega

theorem raise_stocked {links : Pool Links} (hp : links.Stocked) {height : Nat} (hh : height ≤ maxHeight) :
    ∃ t links', (raise links height).outcome = .ok (t, links') ∧ t.height = height ∧
      t.toArray.size = 1 <<< sizeClass height ∧ Pool.Draws links [1 <<< sizeClass height]
        (fun c => (raise links height).events.count (.freshArray c)) links' := by
  obtain ⟨a, links', ha, hsize, hd⟩ := Pool.arrayFor_stocked hp .blank hh
  refine ⟨ofArray height a, links', ?_, Array.size_replicate, ?_, ?_⟩
  · rw [raise, Traced.outcome_bind, ha]
    rfl
  · rw [size_ofArray (hsize ▸ le_shiftLeft_sizeClass height), hsize]
  · unfold raise
    simp only [Traced.count_events_bind ha]
    exact hd

end Tower

namespace SkipList

variable {s : SkipList}

/-- The sizes of the arrays that the elements live in. -/
def arraySizes (s : SkipList) : List Nat := s.towers.toList.map fun t => t.toArray.size

/-- The elements live in the arrays that pools serve for their heights. -/
def Fitted (s : SkipList) : Prop :=
  ∀ t ∈ s.towers.toList, t.height ≤ maxHeight ∧ t.toArray.size = 1 <<< sizeClass t.height

theorem fitted_nil : (SkipList.mk #[]).Fitted := fun t ht => by cases ht

theorem Fitted.push (h : s.Fitted) {t : Tower} (ht : t.height ≤ maxHeight)
    (hsize : t.toArray.size = 1 <<< sizeClass t.height) : (SkipList.mk (s.towers.push t)).Fitted := by
  intro t' ht'
  rw [Array.toList_push, List.mem_append, List.mem_singleton] at ht'
  rcases ht' with ht' | rfl
  · exact h t' ht'
  · exact ⟨ht, hsize⟩

theorem arraySizes_push (s : SkipList) (t : Tower) :
    (SkipList.mk (s.towers.push t)).arraySizes = s.arraySizes ++ [t.toArray.size] := by
  simp [arraySizes]

/-- A list grows by elements in arrays of their own. -/
theorem grow_stocked {heights : List Nat} (hh : ∀ h ∈ heights, h ≤ maxHeight) {links : Pool Links}
    (hp : links.Stocked) (hs : s.Fitted) :
    ∃ s' links', (grow s links heights).outcome = .ok (s', links') ∧ s'.Fitted ∧
      s'.arraySizes = s.arraySizes ++ heights.map (1 <<< sizeClass ·) ∧
      Pool.Draws links (heights.map (1 <<< sizeClass ·))
        (fun c => (grow s links heights).events.count (.freshArray c)) links' := by
  induction heights generalizing s links with
  | nil => exact ⟨s, links, rfl, hs, by simp, .nil hp⟩
  | cons height heights ih =>
    obtain ⟨hheight, hrest⟩ := List.forall_mem_cons.mp hh
    obtain ⟨t, links₁, ht, rfl, hsize, hd₁⟩ := Tower.raise_stocked hp hheight
    obtain ⟨s', links₂, hok, hs', hsizes, hd₂⟩ := ih hrest hd₁.stocked (hs.push hheight hsize)
    refine ⟨s', links₂, ?_, hs', ?_, ?_⟩
    · rw [grow, Traced.outcome_bind, ht, ok_bind]
      exact hok
    · rw [hsizes, arraySizes_push, hsize, List.append_assoc]
      rfl
    · unfold grow
      simp only [Traced.count_events_bind ht]
      exact hd₁.trans hd₂

/-- The arrays of a new list are drawn from the pool. -/
theorem build_draws {links links' : Pool Links} {r : Random} {len load : Nat} (hp : links.Stocked)
    (h : (build links r len load).outcome = .ok (s, links')) :
    s.Fitted ∧ Pool.Draws links s.arraySizes
      (fun c => (build links r len load).events.count (.freshArray c)) links' := by
  obtain ⟨s₁, links₁, hok, hfit, hsizes, hd⟩ := grow_stocked
    (fun h (hm : h ∈ drawnHeights r len) => (drawnHeights_bounds hm).2) hp fitted_nil
  rw [build, Traced.outcome_bind] at h
  obtain ⟨⟨⟩, hroom, h⟩ := bind_eq_ok.mp h
  cases hok.symm.trans h
  refine ⟨hfit, ?_⟩
  rw [build, Traced.events_bind_of_ok hroom, hsizes]
  exact hd

/-- All arrays of a list go back to the pool. -/
theorem release_stocked (hs : s.Fitted) {links : Pool Links} (hp : links.Stocked) :
    ∃ links', s.release links = .ok links' ∧ links'.Stocked ∧
      ∀ c, links'.pooled c = links.pooled c + s.arraySizes.count (1 <<< c) :=
  Pool.freeAll_stocked (fun t ht => ⟨_, sizeClass_lt (hs t ht).1, (hs t ht).2⟩) hp

end SkipList

/-! ## The arrays of lists with sums -/

/-- `pools'` are left of `pools` when arrays of links and of values are drawn. What is missing is made, and `es` reports
it. -/
structure Pools.Draws (pools : Pools) (links values : List Nat) (es : List Event) (pools' : Pools) : Prop where
  links_stocked : pools'.links.Stocked
  values_stocked : pools'.values.Stocked
  links_pooled : ∀ c, pools'.links.pooled c = pools.links.pooled c - links.count (1 <<< c)
  values_pooled : ∀ c, pools'.values.pooled c = pools.values.pooled c - values.count (1 <<< c)
  fresh : ∀ c, es.count (.freshArray c) =
    (links.count (1 <<< c) - pools.links.pooled c) + (values.count (1 <<< c) - pools.values.pooled c)

theorem Pools.Draws.of_pools {pools pools' : Pools} {links values : List Nat} {freshLinks freshValues : Nat → Nat}
    {es : List Event} (hl : Pool.Draws pools.links links freshLinks pools'.links)
    (hv : Pool.Draws pools.values values freshValues pools'.values)
    (hes : ∀ c, es.count (.freshArray c) = freshLinks c + freshValues c) : pools.Draws links values es pools' :=
  ⟨hl.stocked, hv.stocked, hl.pooled, hv.pooled, fun c => by rw [hes, hl.fresh, hv.fresh]⟩

/-- Other events may be reported as well. -/
theorem Pools.Draws.of_count {pools pools' : Pools} {links values : List Nat} {es es' : List Event}
    (h : pools.Draws links values es pools') (hes : ∀ c, es'.count (.freshArray c) = es.count (.freshArray c)) :
    pools.Draws links values es' pools' :=
  ⟨h.links_stocked, h.values_stocked, h.links_pooled, h.values_pooled, fun c => by rw [hes, h.fresh]⟩

namespace SumList

variable {a : SumList}

/-- The sizes of the arrays that hold the values. -/
def valueSizes (a : SumList) : List Nat := a.sums.toList.map fun x => x.toArray.size

/-- The links of each element live in the array that a pool serves for its height, and its values in another one of
that size. -/
structure Fitted (a : SumList) : Prop where
  list : a.list.Fitted
  values : a.valueSizes = a.list.arraySizes

/-- A list with sums grows by elements in arrays of their own. -/
theorem grow_stocked (value : Nat → Int) {heights : List Nat} (hh : ∀ h ∈ heights, h ≤ maxHeight) {pools : Pools}
    (hl : pools.links.Stocked) (hv : pools.values.Stocked) (ha : a.Fitted) :
    ∃ a' pools', (grow value a pools heights).outcome = .ok (a', pools') ∧ a'.Fitted ∧
      a'.list.arraySizes = a.list.arraySizes ++ heights.map (1 <<< sizeClass ·) ∧
      ∃ freshLinks freshValues, Pool.Draws pools.links (heights.map (1 <<< sizeClass ·)) freshLinks pools'.links ∧
        Pool.Draws pools.values (heights.map (1 <<< sizeClass ·)) freshValues pools'.values ∧
        ∀ c, (grow value a pools heights).events.count (.freshArray c) = freshLinks c + freshValues c := by
  induction heights generalizing a pools with
  | nil => exact ⟨a, pools, rfl, ha, by simp, _, _, .nil hl, .nil hv, fun c => rfl⟩
  | cons height heights ih =>
    obtain ⟨hheight, hrest⟩ := List.forall_mem_cons.mp hh
    obtain ⟨t, links₁, ht, rfl, hsize, hdl₁⟩ := Tower.raise_stocked hl hheight
    obtain ⟨x, values₁, hx, hxsize, hdv₁⟩ := Pool.arrayFor_stocked hv 0 hheight
    have hle : t.height ≤ x.size := hxsize ▸ le_shiftLeft_sizeClass t.height
    have hfit : (a.push t (Sums.ofArray t.height (value a.size) x)).Fitted := by
      refine ⟨ha.list.push hheight hsize, ?_⟩
      have hxs : (Sums.ofArray t.height (value a.size) x).toArray.size = x.size := by
        simp only [Sums.ofArray, Sums.toArray, Array.size_append, Array.size_replicate, Array.size_extract]
        omega
      have hpush := a.list.arraySizes_push t
      simp only [valueSizes, SumList.push, Array.toList_push, List.map_append, List.map_cons, List.map_nil]
      rw [hpush, hxs, hxsize, hsize, ← ha.values]
      rfl
    have hl₁ : (Pools.mk links₁ values₁).links.Stocked := hdl₁.stocked
    obtain ⟨a', pools', hok, ha', hsizes, fl, fv, hdl₂, hdv₂, hcount⟩ := ih hrest hl₁ hdv₁.stocked hfit
    refine ⟨a', pools', ?_, ha', ?_, _, _, hdl₁.trans hdl₂, hdv₁.trans hdv₂, fun c => ?_⟩
    · simp only [grow, Traced.outcome_bind, ht, ok_bind, hx]
      exact hok
    · rw [hsizes]
      show (SkipList.mk (a.list.towers.push t)).arraySizes ++ _ = _
      rw [SkipList.arraySizes_push, hsize, List.append_assoc]
      rfl
    · unfold grow
      simp only [Traced.count_events_bind ht, Traced.count_events_bind hx, hcount]
      omega

/-- The arrays of a new list with sums are drawn from the pools, as many of values as of links. -/
theorem build_draws {pools pools' : Pools} {r : Random} {len load : Nat} {value : Nat → Int}
    (hl : pools.links.Stocked) (hv : pools.values.Stocked)
    (h : (build pools r len load value).outcome = .ok (a, pools')) :
    a.Fitted ∧ pools.Draws a.list.arraySizes a.valueSizes (build pools r len load value).events pools' := by
  obtain ⟨a₁, pools₁, hok, hfit, hsizes, fl, fv, hdl, hdv, hcount⟩ := grow_stocked value
    (fun h (hm : h ∈ drawnHeights r len) => (drawnHeights_bounds hm).2) hl hv (a := ⟨⟨#[]⟩, #[], #[]⟩)
    ⟨SkipList.fitted_nil, rfl⟩
  rw [build, Traced.outcome_bind] at h
  obtain ⟨⟨⟩, hroom, h⟩ := bind_eq_ok.mp h
  cases hok.symm.trans h
  refine ⟨hfit, ?_⟩
  rw [build, Traced.events_bind_of_ok hroom, hfit.values, hsizes]
  exact .of_pools hdl hdv hcount

/-- All arrays of a list with sums go back to their pools. -/
theorem release_stocked (ha : a.Fitted) {pools : Pools} (hl : pools.links.Stocked) (hv : pools.values.Stocked) :
    ∃ pools', a.release pools = .ok pools' ∧ pools'.links.Stocked ∧ pools'.values.Stocked ∧
      (∀ c, pools'.links.pooled c = pools.links.pooled c + a.list.arraySizes.count (1 <<< c)) ∧
      ∀ c, pools'.values.pooled c = pools.values.pooled c + a.valueSizes.count (1 <<< c) := by
  have hvalues (x : Sums) (hx : x ∈ a.sums.toList) : ∃ c < shelfCount, x.toArray.size = 1 <<< c := by
    have hmem : x.toArray.size ∈ a.list.arraySizes := ha.values ▸ List.mem_map_of_mem hx
    obtain ⟨t, ht, hsize⟩ := List.mem_map.mp hmem
    exact ⟨_, sizeClass_lt (ha.list t ht).1, hsize.symm.trans (ha.list t ht).2⟩
  obtain ⟨links', hokl, hl', hcl⟩ := SkipList.release_stocked ha.list hl
  obtain ⟨values', hokv, hv', hcv⟩ := Pool.freeAll_stocked hvalues hv
  refine ⟨⟨links', values'⟩, ?_, hl', hv', hcl, hcv⟩
  rw [release, hokv, ok_bind, hokl]
  rfl

end SumList

end TourForest
