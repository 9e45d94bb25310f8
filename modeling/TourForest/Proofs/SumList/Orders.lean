import TourForest.Proofs.SumList.Layout
import TourForest.Proofs.SumList.Reachable

/-!
# Batches in other turns

A batch runs its entries in the order of its list. They might as well have their turns in another order
(`Turns`), and its repairs in yet another one: `joinAllIn`, `splitAllIn` and `setValuesIn` are the batches with
the turns given, and in the order of the list they are `joinAll`, `splitAll` and `setValues`.

The list that comes about does not depend on the turns, unless several values are given to one element
(`Sound.joinAllIn`, `Sound.splitAllIn`, `Sound.setValuesIn`). Where several entries are about one element, the
turns decide between them:

* of several splits behind an element, the one whose turn is first answers with what was after it
  (`SkipList.exists_answer`);
* of several values for an element, the one whose turn is last stays (`latest_arrange`).
-/

namespace TourForest

/-- An order in which the `n` entries of a batch have their turns. -/
structure Turns (n : Nat) where
  order : List Nat
  perm : order.Perm (List.range n)

namespace Turns

variable {α β : Type} {n i j k : Nat} {t : Turns n} {xs : List α} {x : α}

/-- The turns of a batch that runs its entries as they come. -/
def inOrder (n : Nat) : Turns n := ⟨List.range n, .refl _⟩

/-- The entries as they have their turns. -/
def arrange (t : Turns n) (entries : List α) : List α := t.order.filterMap (entries[·]?)

/-- When entry `i` has its turn. -/
def turn (t : Turns n) (i : Nat) : Nat := t.order.idxOf i

/-- What was answered turn by turn, entry by entry. -/
def restore (t : Turns n) (answers : List (Option α)) : List (Option α) :=
  (List.range n).map fun i => answers[t.turn i]?.join

theorem mem_order (t : Turns n) : i ∈ t.order ↔ i < n := t.perm.mem_iff.trans List.mem_range

theorem nodup_order (t : Turns n) : t.order.Nodup := t.perm.nodup_iff.mpr List.nodup_range

theorem turn_inj (t : Turns n) (hi : i < n) (h : t.turn i = t.turn j) : i = j :=
  (List.idxOf_inj (t.mem_order.mpr hi)).mp h

/-- Each place in the order has an entry. -/
theorem map_some_arrange (t : Turns n) (h : xs.length = n) : (t.arrange xs).map some = t.order.map (xs[·]?) := by
  rw [arrange, List.map_filterMap, ← List.filterMap_eq_map]
  refine List.filterMap_congr fun i hi => ?_
  have hlt : i < xs.length := h ▸ t.mem_order.mp hi
  simp [hlt]

theorem getElem?_arrange_iff (t : Turns n) (h : xs.length = n) :
    (t.arrange xs)[k]? = some x ↔ ∃ i, t.turn i = k ∧ xs[i]? = some x := by
  have hplace : ((t.arrange xs)[k]?).map some = t.order[k]?.map (xs[·]?) := by
    rw [← List.getElem?_map, t.map_some_arrange h, List.getElem?_map]
  constructor
  · intro hx
    rw [hx] at hplace
    obtain ⟨i, hi, hxi⟩ := Option.map_eq_some_iff.mp hplace.symm
    obtain ⟨hk, rfl⟩ := List.getElem?_eq_some_iff.mp hi
    exact ⟨_, t.nodup_order.idxOf_getElem k hk, hxi⟩
  · rintro ⟨i, rfl, hxi⟩
    have hi : i < n := h ▸ (List.getElem?_eq_some_iff.mp hxi).1
    rw [turn, List.getElem?_idxOf (t.mem_order.mpr hi), Option.map_some, hxi] at hplace
    obtain ⟨y, hy, he⟩ := Option.map_eq_some_iff.mp hplace
    exact he ▸ hy

theorem mem_take_arrange (t : Turns n) (h : xs.length = n) :
    x ∈ (t.arrange xs).take k ↔ ∃ i, t.turn i < k ∧ xs[i]? = some x := by
  rw [List.mem_iff_getElem?]
  constructor
  · rintro ⟨m, hm⟩
    rw [List.getElem?_take, Option.ite_none_right_eq_some] at hm
    obtain ⟨hmk, hm⟩ := hm
    obtain ⟨i, rfl, hi⟩ := (t.getElem?_arrange_iff h).mp hm
    exact ⟨i, hmk, hi⟩
  · rintro ⟨i, hik, hi⟩
    refine ⟨t.turn i, ?_⟩
    rw [List.getElem?_take_of_lt hik]
    exact (t.getElem?_arrange_iff h).mpr ⟨i, rfl, hi⟩

theorem turn_inOrder (hi : i < n) : (inOrder n).turn i = i := by
  have h := (inOrder n).nodup_order.idxOf_getElem i (by simpa [inOrder] using hi)
  simpa [inOrder, turn] using h

theorem arrange_inOrder (h : xs.length = n) : (inOrder n).arrange xs = xs := by
  refine List.ext_getElem? fun k => Option.ext fun x => ?_
  have hturn {i : Nat} (hi : xs[i]? = some x) : (inOrder n).turn i = i :=
    turn_inOrder (h ▸ (List.getElem?_eq_some_iff.mp hi).1)
  rw [getElem?_arrange_iff _ h]
  constructor
  · rintro ⟨i, rfl, hi⟩
    rwa [hturn hi]
  · exact fun hk => ⟨k, hturn hk, hk⟩

theorem arrange_perm (t : Turns n) (h : xs.length = n) : (t.arrange xs).Perm xs :=
  (t.perm.filterMap _).trans (.of_eq (arrange_inOrder h))

theorem arrange_map (t : Turns n) (f : α → β) : t.arrange (xs.map f) = (t.arrange xs).map f := by
  simp only [arrange, List.map_filterMap, List.getElem?_map]

theorem length_restore (t : Turns n) {answers : List (Option α)} : (t.restore answers).length = n := by
  rw [restore, List.length_map, List.length_range]

theorem restore_inOrder {answers : List (Option α)} (h : answers.length = n) : (inOrder n).restore answers = answers := by
  refine List.ext_getElem (by simp [restore, h]) fun i hi _ => ?_
  have hi : i < n := by simpa [restore] using hi
  simp [restore, turn_inOrder hi, h, hi]

/-- Of the entries that are equal to one of them, one has the first turn. -/
theorem exists_first (t : Turns n) (h : xs.length = n) (hx : x ∈ xs) :
    ∃ i, xs[i]? = some x ∧ ∀ j, j ≠ i → xs[j]? = some x → t.turn i < t.turn j := by
  classical
  have hex : ∃ k i, t.turn i = k ∧ xs[i]? = some x := by
    obtain ⟨i, hi⟩ := List.mem_iff_getElem?.mp hx
    exact ⟨_, i, rfl, hi⟩
  obtain ⟨i, hk, hi⟩ := Nat.find_spec hex
  refine ⟨i, hi, fun j hji hj => lt_of_le_of_ne (hk ▸ Nat.find_min' hex ⟨j, rfl, hj⟩) fun he => hji ?_⟩
  exact (t.turn_inj (h ▸ (List.getElem?_eq_some_iff.mp hi).1) he).symm

/-- Any entry may have the first turn. -/
def startingWith (hi : i < n) : Turns n :=
  ⟨i :: (List.range n).erase i, (List.perm_cons_erase (List.mem_range.mpr hi)).symm⟩

theorem turn_startingWith (hi : i < n) : (startingWith hi).turn i = 0 := List.idxOf_cons_self

end Turns

/-- A split answers with what was after its element if no split behind the same element has its turn earlier. -/
theorem SkipList.getElem?_restore_answers (s : SkipList) {n i u : Nat} {us : List Nat} (t : Turns n)
    (h : us.length = n) (hi : us[i]? = some u) :
    (t.restore (s.answers (t.arrange us)))[i]? =
      some (if u ∈ (t.arrange us).take (t.turn i) then none else s.nextAt u 0) := by
  have hlt : i < n := h ▸ (List.getElem?_eq_some_iff.mp hi).1
  have hturn : (t.arrange us)[t.turn i]? = some u := (t.getElem?_arrange_iff h).mpr ⟨i, rfl, hi⟩
  simp [Turns.restore, SkipList.answers, hlt, hturn]

/-- Of the splits behind one element, the one whose turn is first answers with what was after it, and the others
find nothing. -/
theorem SkipList.exists_answer (s : SkipList) {n u : Nat} {us : List Nat} (t : Turns n) (h : us.length = n)
    (hu : u ∈ us) :
    ∃ i, us[i]? = some u ∧ (t.restore (s.answers (t.arrange us)))[i]? = some (s.nextAt u 0) ∧
      ∀ j, j ≠ i → us[j]? = some u →
        t.turn i < t.turn j ∧ (t.restore (s.answers (t.arrange us)))[j]? = some none := by
  obtain ⟨i, hi, hfirst⟩ := t.exists_first h hu
  refine ⟨i, hi, ?_, fun j hj hju => ⟨hfirst j hj hju, ?_⟩⟩
  · rw [s.getElem?_restore_answers t h hi, if_neg]
    rw [t.mem_take_arrange h]
    rintro ⟨j, hji, hju⟩
    have hij := hfirst j (by rintro rfl; omega) hju
    omega
  · rw [s.getElem?_restore_answers t h hju, if_pos]
    exact (t.mem_take_arrange h).mpr ⟨i, hfirst j hj hju, hi⟩

namespace SumList

variable {a a' : SumList} {n : Nat} {us : List Nat} {pairs : List (Nat × Nat)} {updates : List (Nat × Int)}

/-! ## Joins -/

/-- Closes several seams, with the turns for the links and for the repair given. -/
def joinAllIn (a : SumList) (links sums : Turns n) (seams : List Seam) : Except Fault SumList := do
  let list ← a.list.joinAll (links.arrange seams)
  repair { a with list } (sums.arrange (seams.map Prod.fst))

theorem joinAllIn_inOrder (a : SumList) (seams : List Seam) :
    a.joinAllIn (.inOrder seams.length) (.inOrder seams.length) seams = a.joinAll seams := by
  rw [joinAllIn, Turns.arrange_inOrder rfl, Turns.arrange_inOrder (List.length_map _), joinAll]

/-- Joins do the same in all turns. -/
theorem Sound.joinAllIn (h : a.Sound) (hb : a.Bounded) (hm : a.list.Meet pairs) (links sums : Turns n)
    (hn : pairs.length = n) :
    ∃ a', a.joinAllIn links sums (pairs.map SkipList.seam) = .ok a' ∧ a'.layout = a.layout ∧
      a.Relinked a' fun u => (pairs.lookup u).or (a.list.nextAt u 0) := by
  have hp : (links.arrange pairs).Perm pairs := links.arrange_perm hn
  obtain ⟨list, hlist, hw, hsize, hheight, hnext⟩ := h.woven.joinAll (hm.perm hp)
  simp only [SkipList.lookup_perm hp hm.lefts_nodup] at hnext
  have hmem (u : Nat) : u ∈ sums.arrange (pairs.map Prod.fst) ↔ u ∈ pairs.map Prod.fst :=
    (sums.arrange_perm (by rw [List.length_map, hn])).mem_iff
  have hkept (u : Nat) (hu : u ∉ sums.arrange (pairs.map Prod.fst)) : list.nextAt u 0 = a.list.nextAt u 0 := by
    rw [hnext, SkipList.lookup_eq_none ((hmem u).not.mp hu), Option.none_or]
  obtain ⟨a', ha', hr⟩ := h.repair_withList hb hw hsize hheight hkept fun u hu => hm.lefts_lt u ((hmem u).mp hu)
  refine ⟨a', ?_, ?_, hr.congr hnext⟩
  · rw [SumList.joinAllIn, Turns.arrange_map, hlist, ok_bind, List.map_map]
    rwa [← Turns.arrange_map, List.map_map] at ha'
  · rw [layout_repair ha']
    exact layout_withList (SkipList.layout_joinAll hlist)

/-! ## Splits -/

/-- Splits behind all given elements, with the turns for the links and for the walks to the left and up
given. -/
def splitAllIn (a : SumList) (links sums : Turns n) (points : List (Option Nat)) :
    Except Fault (List (Option Nat) × SumList) := do
  let (after, list) ← a.list.splitAll (links.arrange points)
  let a ← (sums.arrange points).foldlM closeRunsOnce { a with list }
  return (links.restore after, points.foldl (fun a u => u.elim a (a.setMark · none)) a)

theorem splitAllIn_inOrder (a : SumList) (points : List (Option Nat)) :
    a.splitAllIn (.inOrder points.length) (.inOrder points.length) points = a.splitAll points := by
  rw [splitAllIn, Turns.arrange_inOrder rfl, splitAll]
  cases hsplit : a.list.splitAll points with
  | error => rfl
  | ok p =>
    obtain ⟨after, list⟩ := p
    simp only [ok_bind, Turns.restore_inOrder (SkipList.length_splitAll hsplit)]

/-- Splits do the same in all turns, but for their answers. -/
theorem Sound.splitAllIn (h : a.Sound) (hb : a.Bounded) (hu : ∀ u ∈ us, u < a.size) (links sums : Turns n)
    (hn : us.length = n) :
    ∃ a', a.splitAllIn links sums (us.map some) = .ok (links.restore (a.list.answers (links.arrange us)), a') ∧
      a'.layout = a.layout ∧ a.Relinked a' fun w => if w ∈ us then none else a.list.nextAt w 0 := by
  have hmem (t : Turns n) (u : Nat) : u ∈ t.arrange us ↔ u ∈ us := (t.arrange_perm hn).mem_iff
  obtain ⟨list, hlist, hw, hsize, hheight, hnext⟩ := h.woven.splitAll fun u hm => hu u ((hmem links u).mp hm)
  simp only [hmem] at hnext
  obtain ⟨c, hc, hr⟩ := h.closeAll hb hw hsize hheight hnext hu (hmem sums)
  refine ⟨_, ?_, ?_, hr⟩
  · rw [SumList.splitAllIn, Turns.arrange_map, hlist, ok_bind, Turns.arrange_map]
    exact bind_eq_ok.mpr ⟨c, hc, rfl⟩
  · rw [layout_unmarkAll]
    refine (foldlM_keeps (fun _ _ _ _ hd => layout_closeRunsOnce hd) hc).trans ?_
    exact layout_withList (SkipList.layout_splitAll hlist)

/-! ## New values -/

/-- Gives elements new values, with the turns for the values and for the repair given. -/
def setValuesIn (a : SumList) (values sums : Turns n) (updates : List (Nat × Int)) : Except Fault SumList := do
  let a ← (values.arrange updates).foldlM
    (fun (a : SumList) (x : Nat × Int) => do
      a.list.check x.1
      return a.setValue x.1 0 x.2) a
  a.repair (sums.arrange (updates.map fun x => some x.1))

theorem setValuesIn_inOrder (a : SumList) (updates : List (Nat × Int)) :
    a.setValuesIn (.inOrder updates.length) (.inOrder updates.length) updates = a.setValues updates := by
  rw [setValuesIn, Turns.arrange_inOrder rfl, Turns.arrange_inOrder (List.length_map _), setValues]

theorem layout_assign (a : SumList) (updates : List (Nat × Int)) : (a.assign updates).layout = a.layout := by
  induction updates generalizing a with
  | nil => rfl
  | cons x updates ih => exact (ih _).trans (layout_setValue ..)

/-- In whatever turns, the own values become those that the updates give when they are made one after the other
as they have their turns. -/
theorem Sound.setValuesIn (h : a.Sound) (hu : ∀ x ∈ updates, x.1 < a.size) (values sums : Turns n)
    (hn : updates.length = n) (hb : a.StaysBounded (values.arrange updates)) :
    ∃ a', a.setValuesIn values sums updates = .ok a' ∧ a'.Sound ∧ a'.list = a.list ∧ a'.layout = a.layout ∧
      ∀ u < a.size, a'.valueAt u 0 = a.updatedValue (values.arrange updates) u := by
  have hp : (values.arrange updates).Perm updates := values.arrange_perm hn
  have hu' (x : Nat × Int) (hx : x ∈ values.arrange updates) : x.1 < a.size := hu x (hp.mem_iff.mp hx)
  have hmem (u : Nat) : u ∈ sums.arrange (updates.map Prod.fst) ↔ u ∈ (values.arrange updates).map Prod.fst :=
    ((sums.arrange_perm (by rw [List.length_map, hn])).trans (hp.map _).symm).mem_iff
  obtain ⟨a', ha', hsound, -, hlist, hown⟩ := h.repair_assign hu' hb hmem
  refine ⟨a', ?_, hsound, hlist, (layout_repair ha').trans (layout_assign a _), hown⟩
  rw [SumList.setValuesIn, foldlM_setValue hu', ok_bind]
  rwa [← Turns.arrange_map, List.map_map] at ha'

theorem latest_append (xs ys : List (Nat × Int)) (u : Nat) :
    latest (xs ++ ys) u = (latest ys u).or (latest xs u) := by
  rw [latest, List.reverse_append, List.find?_append, Option.map_or]
  rfl

/-- Of several values for an element, the one whose turn is last stays. -/
theorem latest_arrange (t : Turns n) (hn : updates.length = n) {i u : Nat} {v : Int} (hi : updates[i]? = some (u, v))
    (hlast : ∀ j w, updates[j]? = some (u, w) → t.turn j ≤ t.turn i) : latest (t.arrange updates) u = some v := by
  obtain ⟨hlt, hget⟩ := List.getElem?_eq_some_iff.mp ((t.getElem?_arrange_iff hn).mpr ⟨i, rfl, hi⟩)
  have hlater : u ∉ ((t.arrange updates).drop (t.turn i + 1)).map Prod.fst := by
    intro hm
    obtain ⟨⟨_, w⟩, hx, rfl⟩ := List.mem_map.mp hm
    obtain ⟨m, hm⟩ := List.mem_iff_getElem?.mp hx
    rw [List.getElem?_drop] at hm
    obtain ⟨j, hj, hxj⟩ := (t.getElem?_arrange_iff hn).mp hm
    have hle := hlast j w hxj
    omega
  rw [← List.take_append_drop (t.turn i) (t.arrange updates), List.drop_eq_getElem_cons hlt, latest_append, hget,
    latest_cons, latest_eq_none hlater]
  simp

end SumList

end TourForest
