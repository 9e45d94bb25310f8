import TourForest.Proofs.SkipList.Stretch

/-!
# The layout of an arena

The layout of an arena is all of it but its links. Joins and splits, where they answer, leave the layout as it is.
With the layout given, the links of level 0 make up the whole arena (`Woven.eq_of_layout`), whatever has been
joined and split before.
-/

namespace TourForest

/-- Two arrays of one size with the same items are equal. -/
theorem array_eq_of_getD {α : Type} {xs ys : Array α} {x : α} (hsize : ys.size = xs.size)
    (h : ∀ k : Nat, ys[k]?.getD x = xs[k]?.getD x) : ys = xs := by
  refine Array.ext hsize fun k hk hk' => ?_
  have := h k
  rwa [Array.getElem?_eq_getElem hk, Array.getElem?_eq_getElem hk'] at this

/-- Changes of items that `g` does not see. -/
theorem map_modify_of_eq {α β : Type} {g : α → β} {f : α → α} (h : ∀ x, g (f x) = g x) (xs : Array α) (i : Nat) :
    (xs.modify i f).map g = xs.map g := by
  refine Array.ext_getElem? fun j => ?_
  rw [Array.getElem?_map, Array.getElem?_map, Array.getElem?_modify]
  split
  · rw [Option.map_map]
    exact congrArg (Option.map · _) (funext h)
  · rfl

namespace SkipList

variable {s s' : SkipList}

/-- The numbers of levels of all elements, and what is left of the arrays that hold them. -/
def layout (s : SkipList) : Array (Nat × Array Links) := s.towers.map fun t => (t.levels.size, t.slack)

/-! ## Reading -/

theorem size_layout (s : SkipList) : s.layout.size = s.size := Array.size_map

theorem size_of_layout (h : s'.layout = s.layout) : s'.size = s.size := by
  rw [← size_layout, h, size_layout]

theorem height_eq_layout (s : SkipList) (u : Nat) : s.height u = (s.layout[u]?).elim 0 Prod.fst := by
  rw [height, layout, Array.getElem?_map]
  cases s.towers[u]? <;> rfl

theorem height_of_layout (h : s'.layout = s.layout) (u : Nat) : s'.height u = s.height u := by
  rw [height_eq_layout, h, ← height_eq_layout]

/-- An arena is made up of its layout and its links. -/
theorem eq_of_links (h : s'.layout = s.layout) (hlinks : ∀ u k, s'.linksAt u k = s.linksAt u k) : s' = s := by
  obtain ⟨towers'⟩ := s'
  obtain ⟨towers⟩ := s
  have hsize : towers'.size = towers.size := size_of_layout h
  refine congrArg SkipList.mk (Array.ext hsize fun u hu' hu => ?_)
  have hl := hlinks u
  unfold linksAt at hl
  simp only [Array.getElem?_eq_getElem hu, Array.getElem?_eq_getElem hu', Option.bind_some] at hl
  have ht := congrArg (·[u]?) h
  simp only [layout, Array.getElem?_map, Array.getElem?_eq_getElem hu, Array.getElem?_eq_getElem hu',
    Option.map_some, Option.some.injEq, Prod.mk.injEq] at ht
  generalize towers[u] = t at hl ht
  generalize towers'[u] = t' at hl ht
  obtain ⟨levels', slack'⟩ := t'
  obtain ⟨levels, slack⟩ := t
  exact congrArg₂ Tower.mk (array_eq_of_getD ht.1 hl) ht.2

theorem eq_of_neighbours (h : s'.layout = s.layout) (hnext : ∀ u k, s'.nextAt u k = s.nextAt u k)
    (hprev : ∀ u k, s'.prevAt u k = s.prevAt u k) : s' = s := by
  refine eq_of_links h fun u k => ?_
  have hn := hnext u k
  have hp := hprev u k
  unfold nextAt at hn
  unfold prevAt at hp
  rcases hl : s.linksAt u k with ⟨p, n⟩
  rcases hl' : s'.linksAt u k with ⟨p', n'⟩
  rw [hl, hl'] at hn hp
  rw [show p' = p from hp, show n' = n from hn]

/-- The layout and the links of level 0 decide about all links. -/
theorem Woven.eq_of_layout (hs : s.Woven) (hs' : s'.Woven) (h : s'.layout = s.layout)
    (hn : ∀ u, s'.nextAt u 0 = s.nextAt u 0) : s' = s := by
  have hh := height_of_layout h
  exact eq_of_neighbours h (hs.next_congr hs' hh hn) (hs.prev_congr hs' hh hn)

/-! ## Changing links -/

@[simp] theorem layout_modifyLinks (s : SkipList) (u k : Nat) (f : Links → Links) :
    (s.modifyLinks u k f).layout = s.layout := by
  rw [layout, modifyLinks, map_modify_of_eq fun t => by rw [Array.size_modify]]
  rfl

@[simp] theorem layout_setNext (s : SkipList) (u k : Nat) (v : Option Nat) : (s.setNext u k v).layout = s.layout :=
  layout_modifyLinks ..

@[simp] theorem layout_setPrev (s : SkipList) (u k : Nat) (v : Option Nat) : (s.setPrev u k v).layout = s.layout :=
  layout_modifyLinks ..

@[simp] theorem layout_detach (s : SkipList) (u : Nat) : (s.detach u).layout = s.layout := by
  rw [layout, detach, map_modify_of_eq fun t => by rw [Array.size_map]]
  rfl

@[simp] theorem layout_connect (s : SkipList) (k l r : Nat) : (s.connect k l r).layout = s.layout := by
  unfold connect
  dsimp only
  split <;> simp

/-! ## Joins and splits -/

theorem layout_joinFrom : ∀ (levels k l r : Nat) {s s' : SkipList}, s.joinFrom levels k l r = .ok s' →
    s'.layout = s.layout := by
  intro levels
  induction levels with
  | zero =>
    intro k l r s s' h
    cases h
    rfl
  | succ levels ih =>
    intro k l r s s' h
    rw [joinFrom] at h
    split at h
    · cases h
      rfl
    · obtain ⟨left, -, h⟩ := bind_eq_ok.mp h
      obtain ⟨right, -, h⟩ := bind_eq_ok.mp h
      split at h
      · rw [ih _ _ _ h, layout_connect]
      · cases h
        exact layout_connect ..

theorem layout_join {l r : Option Nat} (h : s.join l r = .ok s') : s'.layout = s.layout := by
  unfold join at h
  split at h
  · obtain ⟨-, -, h⟩ := bind_eq_ok.mp h
    split at h
    · cases h
      rfl
    · obtain ⟨-, -, h⟩ := bind_eq_ok.mp h
      exact layout_joinFrom _ _ _ _ h
  · cases h
    rfl

theorem layout_joinAll {seams : List Seam} (h : s.joinAll seams = .ok s') : s'.layout = s.layout := by
  induction seams generalizing s with
  | nil =>
    cases h
    rfl
  | cons seam seams ih =>
    obtain ⟨t, ht, h⟩ := bind_eq_ok.mp h
    rw [ih h, layout_join ht]

theorem layout_splitFrom : ∀ (levels k u : Nat) {s s' : SkipList}, s.splitFrom levels k u = .ok s' →
    s'.layout = s.layout := by
  intro levels
  induction levels with
  | zero =>
    intro k u s s' h
    cases h
    rfl
  | succ levels ih =>
    intro k u s s' h
    rw [splitFrom] at h
    split at h
    · cases h
      rfl
    · obtain ⟨left, -, h⟩ := bind_eq_ok.mp h
      split at h
      · rw [ih _ _ h, layout_setPrev, layout_setNext]
      · cases h
        rw [layout_setPrev, layout_setNext]

theorem layout_split {u after : Option Nat} (h : s.split u = .ok (after, s')) : s'.layout = s.layout := by
  unfold split at h
  split at h
  · cases h
    rfl
  · obtain ⟨-, -, h⟩ := bind_eq_ok.mp h
    obtain ⟨t, ht, h⟩ := bind_eq_ok.mp h
    cases h
    exact layout_splitFrom _ _ _ ht

theorem layout_splitAll {us after : List (Option Nat)} (h : s.splitAll us = .ok (after, s')) :
    s'.layout = s.layout := by
  induction us generalizing s after with
  | nil =>
    cases h
    rfl
  | cons u us ih =>
    obtain ⟨⟨first, t⟩, ht, h⟩ := bind_eq_ok.mp h
    obtain ⟨⟨others, t'⟩, ht', h⟩ := bind_eq_ok.mp h
    cases h
    rw [ih ht', layout_split ht]

/-- There is one answer for each split. -/
theorem length_splitAll {us after : List (Option Nat)} (h : s.splitAll us = .ok (after, s')) :
    after.length = us.length := by
  induction us generalizing s after with
  | nil =>
    cases h
    rfl
  | cons u us ih =>
    obtain ⟨⟨first, t⟩, -, h⟩ := bind_eq_ok.mp h
    obtain ⟨⟨others, t'⟩, ht', h⟩ := bind_eq_ok.mp h
    cases h
    rw [List.length_cons, List.length_cons, ih ht']

end SkipList

end TourForest
