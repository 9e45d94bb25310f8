import TourForest.Proofs.Raw.SkipList
import TourForest.Proofs.SumList.Layout
import TourForest.SumList.Query

/-!
# Lists with sums on raw arrays

The operations of a list with sums on its arrays of links and of values as they lie in memory. Like the links, the
values beyond the height of an element are what the last owner of the array left there, and no operation comes across
them: a sum is written on level `k + 1` only where a walk has stopped because the element reaches it, and read on level
`k` only at elements of a run on that level. So the operations end like the others on any list with the same levels,
values and marks (`Covers`), whatever they are asked.

A walk on raw arrays strides like the other one at all places that it comes to (`Walk.finish_congr`), which are
elements that reach the level of the walk.
-/

namespace TourForest

/-- Sets item `k` of the array of values. -/
def Sums.setItem (x : Sums) (k : Nat) (value : Int) : Sums :=
  if k < x.levels.size then { x with levels := x.levels.setIfInBounds k value }
  else { x with slack := x.slack.setIfInBounds (k - x.levels.size) value }

/-- It is item `k` of the whole array that is set. -/
theorem Sums.toArray_setItem (x : Sums) (k : Nat) (value : Int) :
    (x.setItem k value).toArray = x.toArray.setIfInBounds k value := by
  refine Array.ext_getElem? fun j => ?_
  unfold setItem
  split
  · next hk => simp only [toArray, Array.getElem?_append, Array.getElem?_setIfInBounds, Array.size_setIfInBounds]; grind
  · next hk => simp only [toArray, Array.getElem?_append, Array.getElem?_setIfInBounds, Array.size_append]; grind

/-! ## Walks that stride alike -/

namespace Walk

variable {P : Type} {w w' : Walk P} {I : P → Prop}

theorem advance_congr (hw : ∀ p, I p → w.stride p = w'.stride p)
    (hI : ∀ p value q, I p → w'.stride p = .ok (.go value q) → I q) :
    ∀ {strides : Nat} {place : P} {sum : Int}, I place →
      w.advance strides place sum = w'.advance strides place sum := by
  intro strides
  induction strides with
  | zero => exact fun _ => rfl
  | succ strides ih =>
    intro place sum hp
    rw [advance, advance, hw place hp]
    rcases hs : w'.stride place with e | stop | ⟨value, q⟩
    · rfl
    · rfl
    · show (addValues sum value >>= fun sum => w.advance strides q sum) = _
      rw [funext fun sum => @ih q sum (hI place value q hp hs)]
      rfl

variable [DecidableEq P]

theorem haltAt_congr (hw : ∀ p, I p → w.stride p = w'.stride p) (home : P) :
    ∀ p, I p → (w.haltAt home).stride p = (w'.haltAt home).stride p := by
  intro p hp
  show (if p = home then _ else _) = if p = home then _ else _
  rw [hw p hp]

/-- Walks that stride alike at all places that they come to come to the same end. -/
theorem finish_congr (hw : ∀ p, I p → w.stride p = w'.stride p)
    (hI : ∀ p value q, I p → w'.stride p = .ok (.go value q) → I q) {places : Nat} {start : P} {sum : Int}
    (hs : I start) : w.finish places start sum = w'.finish places start sum := by
  have hI' (home : P) : ∀ p value q, I p → (w'.haltAt home).stride p = .ok (.go value q) → I q := by
    intro p value q hp hgo
    change (if p = home then Except.ok Stride.stop else w'.stride p) = _ at hgo
    split at hgo
    · cases hgo
    · exact hI p value q hp hgo
  rw [finish, finish, advance_congr hw hI hs]
  rcases hr : w'.advance places start sum with e | r
  · rfl
  · obtain ⟨hp, -⟩ := advance_place hI hs hr
    rw [ok_bind, ok_bind, goRound, goRound, hw r.place hp]
    rcases hgo : w'.stride r.place with e | stop | ⟨value, q⟩
    · rfl
    · rfl
    · have := hI r.place value q hp hgo
      simp only [ok_bind, advance_congr (haltAt_congr hw r.place) (hI' r.place) this]

end Walk

namespace SumList

namespace Raw

/-! ## Items and marks -/

/-- Item `k` of the array of values of element `u`, whatever it holds. -/
def item (a : SumList) (u k : Nat) : Except Fault Int :=
  match a.sums[u]? with
  | none => .error (.outOfRange a.size (some u))
  | some x =>
    match x.toArray[k]? with
    | none => .error (.outOfRange x.toArray.size (some k))
    | some value => .ok value

/-- Sets item `k` of the array of values of element `u`. -/
def setItem (a : SumList) (u k : Nat) (value : Int) : Except Fault SumList :=
  match a.sums[u]? with
  | none => .error (.outOfRange a.size (some u))
  | some x =>
    if k < x.toArray.size then .ok { a with sums := a.sums.modify u (·.setItem k value) }
    else .error (.outOfRange x.toArray.size (some k))

def mark (a : SumList) (u : Nat) : Except Fault (Option Nat) := do
  a.list.check u
  return a.markAt u

def setMark (a : SumList) (u : Nat) (mark : Option Nat) : Except Fault SumList := do
  a.list.check u
  return a.setMark u mark

/-- Takes element `u` out on all its levels, item after item below its height, and gives it the value `value`. -/
def detach (a : SumList) (u : Nat) (value : Int) : Except Fault SumList := do
  let list ← SkipList.Raw.detach a.list u
  let a ← (List.range (← list.heightOf u)).foldlM (fun a k => setItem a u k value) { a with list }
  setMark a u none

/-! ## Sums -/

def ahead (a : SumList) (root k : Nat) : Walk (Option Nat) where
  stride
    | none => .ok .stop
    | some v => do
      if v = root then return .stop else return .go (← item a v k) (← SkipList.Raw.next a.list v k)

def behind (a : SumList) : Walk (Nat × Nat) where
  stride
    | (k, cur) => do
      match ← SkipList.Raw.prev a.list cur k, k with
      | some v, k => return .go (← item a v k) (k, v)
      | none, k + 1 => return .go 0 (k, cur)
      | none, 0 => return .stop

def sum (a : SumList) (u : Nat) : Except Fault Int := do
  let root ← SkipList.Raw.representative a.list u
  let top ← SkipList.Raw.top a.list root
  let (last, sum) ←
    (ahead a root top).finish (a.size + 1) (← SkipList.Raw.next a.list root top) (← item a root top)
  if last.isSome then return sum
  else return (← (behind a).finish ((top + 1) * a.size) (top, root) sum).2

def between (a : SumList) : Walk (Option Nat × Nat) where
  stride
    | (none, _) => a.list.noElement
    | (some l, r) =>
      if l = r then .ok .stop
      else do
        let high ← SkipList.Raw.top a.list l
        let k := min high (← SkipList.Raw.top a.list r)
        if k = high then return .go (← item a l k) (← SkipList.Raw.next a.list l k, r)
        else
          match ← SkipList.Raw.prev a.list r k with
          | some r => return .go (← item a r k) (some l, r)
          | none => a.list.noElement

def sumOver (a : SumList) (l r : Nat) : Except Fault Int := do
  return (← (between a).finish (2 * (a.size + 1)) (some l, r) (← item a r 0)).2

/-! ## Repairs -/

def valueOf (a : SumList) (u : Option Nat) (k : Nat) : Except Fault Int :=
  match u with
  | none => .ok 0
  | some u => item a u k

def leftward (a : SumList) (k : Nat) : Walk (Option Nat) where
  stride
    | none => .ok .stop
    | some u => do
      if k + 1 < (← a.list.heightOf u) then return .stop
      else
        let before ← SkipList.Raw.prev a.list u k
        return .go (← valueOf a before k) before

def closeRunsFrom (a : SumList) : (levels k u : Nat) → (sum : Int) → Except Fault SumList
  | 0, _, _, _ => .error .endlessWalk
  | levels + 1, k, u, sum => do
    match ← (leftward a k).finish (a.size + 1) (some u) sum with
    | (none, _) => return a
    | (some v, sum) => closeRunsFrom (← setItem a v (k + 1) sum) levels (k + 1) v sum

def closeRuns (a : SumList) (u : Nat) : Except Fault SumList := do
  closeRunsFrom a maxHeight 0 u (← item a u 0)

def claimFrom (a : SumList) : (steps k u : Nat) → Except Fault (Option Nat × SumList)
  | 0, _, _ => .error .endlessWalk
  | steps + 1, k, u => do
    match ← mark a u with
    | some m => return (none, ← setMark a u (some (min m k)))
    | none =>
      let a ← setMark a u (some k)
      let top ← SkipList.Raw.top a.list u
      match ← SkipList.Raw.leftParent a.list u top with
      | none => return (some u, a)
      | some p => claimFrom a steps (top + 1) p

def claim (a : SumList) (u : Option Nat) : Except Fault (Option Nat × SumList) :=
  match u with
  | none => a.list.noElement
  | some u => claimFrom a (maxHeight + 1) 0 u

def claimAll (a : SumList) : List (Option Nat) → Except Fault (List Nat × SumList)
  | [] => .ok ([], a)
  | u :: rest => do
    let (top, a) ← claim a u
    let (tops, a) ← claimAll a rest
    return (top.toList ++ tops, a)

def runFrom (a : SumList) (k : Nat) : (steps : Nat) → (cur : Option Nat) → Except Fault Run
  | _, none => .ok ⟨[], true⟩
  | 0, some _ => .ok ⟨[], false⟩
  | steps + 1, some v => do
    if k + 1 < (← a.list.heightOf v) then return ⟨[], true⟩
    else
      let rest ← runFrom a k steps (← SkipList.Raw.next a.list v k)
      return ⟨v :: rest.elements, rest.ends⟩

def run (a : SumList) (u k : Nat) : Except Fault Run := do
  runFrom a k a.size (← SkipList.Raw.next a.list u k)

def recompute (a : SumList) (u k : Nat) (run : List Nat) : Except Fault SumList := do
  let sum ← run.foldlM (fun sum v => do addValues sum (← item a v k)) (← item a u k)
  let a ← setItem a u (k + 1) sum
  if (← a.list.heightOf u) = k + 2 then setMark a u none else return a

def outdated (a : SumList) (u k : Nat) : Except Fault Bool := do return (← mark a u).any (· < k)

def refreshInOrder : (k : Nat) → SumList → (u : Nat) → Except Fault SumList
  | 0, a, u => do if (← a.list.heightOf u) = 1 then setMark a u none else return a
  | k + 1, a, u => do
    let a ← if (← mark a u).all (· < k + 1) then refreshInOrder k a u else pure a
    let run ← run a u k
    let a ← run.elements.foldlM
      (fun a v => do if ← outdated a v (k + 1) then refreshInOrder k a v else pure a) a
    recompute a u k (← run.finished)

def refresh (cutoff : Nat) (schedule : Schedule) : (k : Nat) → SumList → (u : Nat) → Except Fault SumList
  | 0, a, u => refreshInOrder 0 a u
  | k + 1, a, u =>
    if k + 1 ≤ cutoff then refreshInOrder (k + 1) a u
    else do
      let run ← (← run a u k).finished
      let pending ← (u :: run).mapM fun v => do return (v, ← outdated a v (k + 1))
      let a ← (schedule.order ((pending.filter (·.2)).map (·.1))).foldlM (refresh cutoff schedule k) a
      recompute a u k run

def repair (a : SumList) (changed : List (Option Nat)) : Except Fault SumList := do
  let (tops, a) ← claimAll a changed
  tops.foldlM (fun a top => do
    refresh inOrderLevels .lastFirst (← SkipList.Raw.top a.list top) a top) a

/-! ## Batches -/

def joinAll (a : SumList) (seams : List Seam) : Except Fault SumList := do
  let list ← SkipList.Raw.joinAll a.list seams
  repair { a with list } (seams.map Prod.fst)

def closeRunsOnce (a : SumList) (u : Option Nat) : Except Fault SumList :=
  match u with
  | none => a.list.noElement
  | some u => do
    if (← mark a u).isNone then closeRuns (← setMark a u (some 0)) u else return a

def clearMark (a : SumList) (u : Option Nat) : Except Fault SumList :=
  match u with
  | none => a.list.noElement
  | some u => setMark a u none

def splitAll (a : SumList) (points : List (Option Nat)) : Except Fault (List (Option Nat) × SumList) := do
  let (after, list) ← SkipList.Raw.splitAll a.list points
  let a ← points.foldlM closeRunsOnce { a with list }
  return (after, ← points.foldlM clearMark a)

def setValues (a : SumList) (updates : List (Nat × Int)) : Except Fault SumList := do
  let a ← updates.foldlM (fun (a : SumList) (x : Nat × Int) => setItem a x.1 0 x.2) a
  repair a (updates.map fun x => some x.1)

/-! ## Requests -/

def serve (a : SumList) : Request → Traced (Answer × SumList)
  | .ask query => return (← SkipList.Raw.ask a.list query, a)
  | .value u => return (.value (← item a u 0), a)
  | .sum u => return (.value (← sum a u), a)
  | .sumOver l r => return (.value (← sumOver a l r), a)
  | .joinAll seams => return (.done, ← joinAll a seams)
  | .splitAll points => do
    let (after, a) ← splitAll a points
    return (.elements after, a)
  | .setValues updates => return (.done, ← setValues a updates)

/-- The steps of a refresh in order, one after the other. -/
theorem refreshInOrder_succ (k : Nat) (a : SumList) (u : Nat) :
    refreshInOrder (k + 1) a u =
      (mark a u).bind fun m => (if m.all (· < k + 1) then refreshInOrder k a u else pure a).bind fun b =>
        (run b u k).bind fun run =>
          (run.elements.foldlM
            (fun b v => do if ← outdated b v (k + 1) then refreshInOrder k b v else pure b) b).bind fun c =>
            run.finished.bind (recompute c u k) := by
  rw [refreshInOrder]
  refine bind_congr fun m => ?_
  split <;> rfl

end Raw

/-! ## The same levels, values and marks -/

variable {a c : SumList} {u v k l r : Nat}

theorem size_of_layout (h : a.layout = c.layout) : a.size = c.size := SkipList.size_of_layout (layout_list h)

theorem depth_of_layout (h : a.layout = c.layout) (u : Nat) : a.depth u = c.depth u := by
  have hu := congrArg (·.2.1[u]?) h
  simp only [layout, Array.getElem?_map] at hu
  unfold depth
  rcases ha : a.sums[u]? with _ | x <;> rcases hc : c.sums[u]? with _ | y <;> simp_all

theorem height_of_layout (h : a.layout = c.layout) (u : Nat) : a.height u = c.height u :=
  SkipList.height_of_layout (layout_list h) u

/-- `a` has the levels, values and marks of `c`, and may hold anything else beyond them. -/
structure Covers (a c : SumList) : Prop where
  list : a.list.Covers c.list
  sums : a.sums.map (·.levels) = c.sums.map (·.levels)
  marks : a.marks = c.marks
  depth : ∀ u, c.depth u = c.height u
  size_sums : c.sums.size = c.size
  size_marks : c.marks.size = c.size

namespace Covers

/-! ### Items and marks -/

theorem size_eq (h : a.Covers c) : a.size = c.size := h.list.size_eq

/-- The values of an element that reaches a level. -/
theorem exists_sums (h : a.Covers c) (hu : k < c.height u) :
    ∃ x x', a.sums[u]? = some x ∧ c.sums[u]? = some x' ∧ x.levels = x'.levels ∧ k < x.levels.size := by
  rw [← h.depth u, SumList.depth] at hu
  rcases hc : c.sums[u]? with _ | x'
  · simp [hc] at hu
  · obtain ⟨x, hx, hlevels⟩ := exists_of_map_eq h.sums hc
    refine ⟨x, x', hx, rfl, hlevels, ?_⟩
    rw [hc] at hu
    exact hlevels ▸ hu

/-- An item below the height of its element holds the value of its level. -/
theorem item_eq (h : a.Covers c) (hu : k < c.height u) : Raw.item a u k = .ok (c.valueAt u k) := by
  obtain ⟨x, x', hx, hx', hlevels, hk⟩ := h.exists_sums hu
  have hitem : x.toArray[k]? = x'.levels[k]? := by
    rw [Sums.toArray, Array.getElem?_append_left hk, hlevels]
  have hk' : k < x'.levels.size := hlevels ▸ hk
  simp only [Raw.item, hx, hitem, valueAt, hx', Option.bind_some, Array.getElem?_eq_getElem hk', Option.getD_some]

theorem sums_none (h : a.Covers c) (hu : c.size ≤ u) : a.sums[u]? = none := by
  have hsize := congrArg Array.size h.sums
  rw [Array.size_map, Array.size_map, h.size_sums] at hsize
  exact Array.getElem?_eq_none (hsize.trans_le hu)

theorem item_of_size_le (h : a.Covers c) (hu : c.size ≤ u) : Raw.item a u k = .error (.outOfRange c.size (some u)) := by
  simp only [Raw.item, h.sums_none hu, h.size_eq]

/-- Setting an item below the height of an element sets the value of the level. -/
theorem setItem (h : a.Covers c) (hu : k < c.height u) (value : Int) :
    ∃ a', Raw.setItem a u k value = .ok a' ∧ a'.Covers (c.setValue u k value) := by
  obtain ⟨x, x', hx, hx', hlevels, hk⟩ := h.exists_sums hu
  have hk' : k < x.toArray.size := by
    rw [Sums.toArray, Array.size_append]
    omega
  refine ⟨{ a with sums := a.sums.modify u (·.setItem k value) }, ?_, h.list, ?_, h.marks, fun w => ?_, ?_,
    h.size_marks⟩
  · simp only [Raw.setItem, hx, if_pos hk']
  · simp only [setValue]
    refine map_modify_of_map_eq h.sums fun y y' hy hy' => ?_
    cases hx.symm.trans hy
    cases hx'.symm.trans hy'
    rw [Sums.setItem, if_pos hk, hlevels]
  · rw [depth_setValue]
    exact h.depth w
  · rw [setValue, Array.size_modify]
    exact h.size_sums

theorem setItem_of_size_le (h : a.Covers c) (hu : c.size ≤ u) (value : Int) :
    Raw.setItem a u k value = .error (.outOfRange c.size (some u)) := by
  simp only [Raw.setItem, h.sums_none hu, h.size_eq]

theorem mark_eq (h : a.Covers c) (hu : u < c.size) : Raw.mark a u = .ok (c.markAt u) := by
  rw [Raw.mark, h.list.check_eq, SkipList.check_of_lt hu, ok_bind, markAt, h.marks]
  rfl

theorem mark_of_size_le (h : a.Covers c) (hu : c.size ≤ u) : Raw.mark a u = .error (.outOfRange c.size (some u)) := by
  rw [Raw.mark, h.list.check_eq, SkipList.check_of_size_le hu]
  rfl

theorem setMark (h : a.Covers c) (hu : u < c.size) (mark : Option Nat) :
    ∃ a', Raw.setMark a u mark = .ok a' ∧ a'.Covers (c.setMark u mark) := by
  refine ⟨a.setMark u mark, ?_, h.list, h.sums, ?_, h.depth, h.size_sums, ?_⟩
  · rw [Raw.setMark, h.list.check_eq, SkipList.check_of_lt hu]
    rfl
  · rw [SumList.setMark, SumList.setMark, h.marks]
  · rw [SumList.setMark, Array.size_setIfInBounds]
    exact h.size_marks

/-- Other links for the same elements. -/
theorem withList (h : a.Covers c) {s list : SkipList} (hs : s.Covers list) (hlayout : list.layout = c.list.layout) :
    ({ a with list := s } : SumList).Covers { c with list } := by
  have hsize : list.size = c.size := SkipList.size_of_layout hlayout
  refine ⟨hs, h.sums, h.marks, fun u => ?_, h.size_sums.trans hsize.symm, h.size_marks.trans hsize.symm⟩
  rw [height, SkipList.height_of_layout hlayout]
  exact h.depth u

/-! ### After a split -/

theorem valueOf_eq (h : a.Covers c) {x : Option Nat} (hx : ∀ v, x = some v → k < c.height v) :
    Raw.valueOf a x k = .ok (c.valueOf x k) := by
  rcases x with _ | v
  · rfl
  · exact h.item_eq (hx v rfl)

theorem stride_leftward (h : a.Covers c) (p : Option Nat) (hp : ∀ u, p = some u → k < c.height u) :
    (Raw.leftward a k).stride p = (c.leftward k).stride p := by
  rcases p with _ | u
  · rfl
  · have hu := hp u rfl
    show (a.list.heightOf u >>= fun high => _) = _
    rw [h.list.heightOf_of_reaches hu, ok_bind, h.list.prev_eq hu, ok_bind,
      h.valueOf_eq fun v hv => h.list.grounded.prev_reaches u k v hv]
    show _ = Except.ok (if k + 1 < c.list.height u then _ else _)
    split <;> rfl

theorem reaches_of_leftward (hg : c.list.Grounded) (p : Option Nat) (value : Int) (q : Option Nat)
    (hgo : (c.leftward k).stride p = .ok (.go value q)) : ∀ u, q = some u → k < c.height u := by
  rcases p with _ | u
  · cases hgo
  · change Except.ok (if k + 1 < c.height u then _ else _) = _ at hgo
    split at hgo
    · cases hgo
    · cases hgo
      exact fun v hv => hg.prev_reaches u k v hv

/-- A sum is set on the next level where the walk to the left stops, at an element that reaches it. -/
theorem closeRunsFrom : ∀ {levels k u : Nat} {sum : Int} {a c : SumList}, a.Covers c → k + levels = maxHeight →
    k < c.height u → EndAlike Covers (Raw.closeRunsFrom a levels k u sum) (c.closeRunsFrom levels k u sum) := by
  intro levels
  induction levels with
  | zero =>
    intro k u sum a c h hk hu
    have := h.list.grounded.lt_maxHeight hu
    omega
  | succ levels ih =>
    intro k u sum a c h hk hu
    have hstart : ∀ v, some u = some v → k < c.height v := fun v hv => Option.some.inj hv ▸ hu
    have hkind := fun p value q (_ : ∀ u, p = some u → k < c.height u) =>
      reaches_of_leftward h.list.grounded (k := k) p value q
    rw [Raw.closeRunsFrom, SumList.closeRunsFrom, Walk.finish_congr h.stride_leftward hkind hstart, h.size_eq]
    refine .after fun x hx => ?_
    obtain ⟨v, sum'⟩ := x
    obtain ⟨-, hstop⟩ := Walk.finish_place hkind hstart hx
    rcases v with _ | v
    · exact h
    · have hv : k + 1 < c.height v := by
        change Except.ok (if k + 1 < c.height v then _ else _) = _ at hstop
        split at hstop
        · assumption
        · cases hstop
      obtain ⟨a', hok, h'⟩ := h.setItem hv sum'
      simp only [hok, ok_bind]
      exact ih h' (by omega) hv

theorem closeRunsOnce (h : a.Covers c) (u : Option Nat) : EndAlike Covers (Raw.closeRunsOnce a u) (c.closeRunsOnce u) := by
  rcases u with _ | u
  · rw [Raw.closeRunsOnce, SumList.closeRunsOnce, SkipList.noElement, SkipList.noElement, h.list.size_eq]
    exact .error _ _
  · rw [Raw.closeRunsOnce, SumList.closeRunsOnce]
    rcases Nat.lt_or_ge u c.size with hu | hu
    · have hu₀ : 0 < c.height u := h.list.grounded.height_pos u hu
      rw [h.mark_eq hu, SkipList.check_of_lt hu, ok_bind, ok_bind]
      split
      · obtain ⟨a', hok, h'⟩ := h.setMark hu (some 0)
        rw [hok, ok_bind, Raw.closeRuns, closeRuns, h'.item_eq hu₀, ok_bind]
        exact closeRunsFrom h' rfl hu₀
      · exact h
    · rw [h.mark_of_size_le hu, SkipList.check_of_size_le hu]
      exact .error _ _

/-! ### Claiming ancestors -/

theorem claimFrom : ∀ {steps k u : Nat} {a c : SumList}, a.Covers c → u < c.size →
    EndAlike (Answering Covers) (Raw.claimFrom a steps k u) (c.claimFrom steps k u) := by
  intro steps
  induction steps with
  | zero => exact fun _ _ => .error _ _
  | succ steps ih =>
    intro k u a c h hu
    have hpos : 0 < c.height u := h.list.grounded.height_pos u hu
    rw [Raw.claimFrom, SumList.claimFrom, h.mark_eq hu, ok_bind]
    rcases hm : c.markAt u with _ | m
    · obtain ⟨a', hok, h'⟩ := h.setMark hu (some k)
      have hreach : c.height u - 1 < (c.setMark u (some k)).list.height u := Nat.sub_one_lt_of_lt hpos
      have htop : c.height u - 1 + 1 = c.height u := Nat.sub_one_add_one_eq_of_pos hpos
      simp only [hok, ok_bind, h'.list.top_of_reaches hreach]
      show EndAlike _ (SkipList.Raw.leftParent a'.list u (c.height u - 1) >>= _) _
      rw [h'.list.leftParent_eq hreach]
      refine .after fun p hp => ?_
      rcases p with _ | p
      · exact ⟨rfl, h'⟩
      · have hreach' := SkipList.reaches_of_climb hp
        show EndAlike _ (Raw.claimFrom a' steps (c.height u - 1 + 1) p) _
        rw [htop]
        exact ih h' (SkipList.lt_size_of_height_pos (Nat.zero_lt_of_lt hreach'))
    · obtain ⟨a', hok, h'⟩ := h.setMark hu (some (min m k))
      simp only [hok, ok_bind]
      exact ⟨rfl, h'⟩

/-- A top is an element. -/
theorem lt_size_of_claimFrom : ∀ {steps k u t : Nat} {c c' : SumList}, u < c.size →
    c.claimFrom steps k u = .ok (some t, c') → t < c.size := by
  intro steps
  induction steps with
  | zero => exact fun _ hok => by cases hok
  | succ steps ih =>
    intro k u t c c' hu hok
    rw [SumList.claimFrom] at hok
    split at hok
    · cases hok
    · obtain ⟨p, hp, hok⟩ := bind_eq_ok.mp hok
      rcases p with _ | p
      · cases hok
        exact hu
      · exact ih (c := c.setMark u (some k)) (SkipList.lt_size_of_height_pos
          (Nat.zero_lt_of_lt (SkipList.reaches_of_climb hp))) hok

theorem claim (h : a.Covers c) (u : Option Nat) : EndAlike (Answering Covers) (Raw.claim a u) (c.claim u) := by
  rcases u with _ | u
  · rw [Raw.claim, SumList.claim, SkipList.noElement, SkipList.noElement, h.list.size_eq]
    exact .error _ _
  · rw [Raw.claim, SumList.claim]
    rcases Nat.lt_or_ge u c.size with hu | hu
    · rw [SkipList.check_of_lt hu]
      exact claimFrom h hu
    · rw [SkipList.check_of_size_le hu, Raw.claimFrom, h.mark_of_size_le hu]
      exact .error _ _

theorem claimAll : ∀ {us : List (Option Nat)} {a c : SumList}, a.Covers c →
    EndAlike (Answering Covers) (Raw.claimAll a us) (c.claimAll us) := by
  intro us
  induction us with
  | nil => exact fun h => ⟨rfl, h⟩
  | cons u us ih =>
    intro a c h
    refine (h.claim u).bind ?_
    rintro ⟨top, a⟩ ⟨_, c⟩ ⟨rfl, h⟩
    refine (ih h).bind ?_
    rintro ⟨tops, a⟩ ⟨_, c⟩ ⟨rfl, h⟩
    exact ⟨rfl, h⟩

theorem lt_size_of_claimAll : ∀ {us : List (Option Nat)} {tops : List Nat} {c c' : SumList},
    c.claimAll us = .ok (tops, c') → ∀ t ∈ tops, t < c.size := by
  intro us
  induction us with
  | nil =>
    intro tops c c' hok t ht
    cases hok
    cases ht
  | cons u us ih =>
    intro tops c c' hok t ht
    obtain ⟨⟨top, d⟩, hd, hok⟩ := bind_eq_ok.mp hok
    obtain ⟨⟨tops', d'⟩, hd', hok⟩ := bind_eq_ok.mp hok
    cases hok
    rcases u with _ | u
    · cases hd
    · obtain ⟨_, hu, hd⟩ := bind_eq_ok.mp hd
      rcases List.mem_append.mp ht with ht | ht
      · obtain rfl : top = some t := by simpa using ht
        exact lt_size_of_claimFrom (SkipList.lt_size_of_check hu) hd
      · rw [← size_of_layout (layout_claimFrom hd)]
        exact ih hd' t ht

/-! ### Recomputing -/

theorem runFrom_eq (h : a.Covers c) : ∀ {steps : Nat} {cur : Option Nat}, (∀ v, cur = some v → k < c.height v) →
    Raw.runFrom a k steps cur = .ok (c.runFrom k steps cur) := by
  intro steps
  induction steps with
  | zero =>
    intro cur _
    cases cur <;> rfl
  | succ steps ih =>
    intro cur hcur
    rcases cur with _ | v
    · rfl
    · have hv := hcur v rfl
      rw [Raw.runFrom, runFrom, h.list.heightOf_of_reaches hv, ok_bind]
      show (if k + 1 < c.height v then _ else _) = _
      rw [h.list.next_eq hv, ok_bind, ih fun w hw => h.list.grounded.next_reaches v k w hw]
      split <;> rfl

/-- The elements of a run reach its level. -/
theorem reaches_of_mem_runFrom (hg : c.list.Grounded) : ∀ {steps : Nat} {cur : Option Nat},
    (∀ v, cur = some v → k < c.height v) → ∀ v ∈ (c.runFrom k steps cur).elements, k < c.height v := by
  intro steps
  induction steps with
  | zero =>
    intro cur _ v hv
    cases cur <;> cases hv
  | succ steps ih =>
    intro cur hcur v hv
    rcases cur with _ | w
    · cases hv
    · rw [runFrom] at hv
      split at hv
      · cases hv
      · rcases List.mem_cons.mp hv with rfl | hv
        · exact hcur v rfl
        · exact ih (fun x hx => hg.next_reaches w k x hx) v hv

theorem run_eq (h : a.Covers c) (hu : k < c.height u) : Raw.run a u k = .ok (c.run u k) := by
  rw [Raw.run, h.list.next_eq hu, ok_bind, h.size_eq]
  exact h.runFrom_eq fun v hv => h.list.grounded.next_reaches u k v hv

theorem reaches_of_mem_run (hg : c.list.Grounded) : ∀ v ∈ (c.run u k).elements, k < c.height v :=
  reaches_of_mem_runFrom hg fun v hv => hg.next_reaches u k v hv

theorem recompute (h : a.Covers c) (hu : k + 1 < c.height u) {run : List Nat} (hrun : ∀ v ∈ run, k < c.height v) :
    EndAlike Covers (Raw.recompute a u k run) (c.recompute u k run) := by
  have hsum : run.foldlM (fun sum v => do addValues sum (← Raw.item a v k)) (c.valueAt u k) =
      run.foldlM (fun sum v => addValues sum (c.valueAt v k)) (c.valueAt u k) := by
    refine (EndAlike.foldlM (fun v hv x y hxy => ?_) rfl).eq
    rw [h.item_eq (hrun v hv), ok_bind, hxy]
    exact .refl fun _ _ => rfl
  rw [Raw.recompute, SumList.recompute, h.item_eq (Nat.lt_of_succ_lt hu), ok_bind, hsum]
  refine .after fun sum _ => ?_
  obtain ⟨a', hok, h'⟩ := h.setItem hu sum
  have hu' : k + 1 < (c.setValue u (k + 1) sum).height u := hu
  simp only [hok, ok_bind]
  rw [h'.list.heightOf_of_reaches hu', ok_bind]
  show EndAlike _ (if (c.setValue u (k + 1) sum).height u = k + 2 then _ else _) (Except.ok (if _ then _ else _))
  split
  · obtain ⟨a'', hok', h''⟩ := h'.setMark (SkipList.lt_size_of_height_pos (Nat.zero_lt_of_lt hu')) none
    rw [hok']
    exact h''
  · exact h'

theorem outdated_eq (h : a.Covers c) (hu : u < c.size) : Raw.outdated a u k = .ok (c.outdated u k) := by
  rw [Raw.outdated, h.mark_eq hu]
  rfl

/-- One step of bringing the elements of a run up to date, on level `k`. The layout stays the same, so the elements of
the run go on reaching the level. -/
theorem refreshEach (hstep : ∀ {v : Nat} {a c : SumList}, a.Covers c → k < c.height v →
      EndAlike Covers (Raw.refreshInOrder k a v) (SumList.refreshInOrder k c v)) (h : a.Covers c) {run : List Nat}
    (hrun : ∀ v ∈ run, k < c.height v) :
    EndAlike (fun a d => a.Covers d ∧ d.layout = c.layout)
      (run.foldlM (fun a v => do if ← Raw.outdated a v (k + 1) then Raw.refreshInOrder k a v else pure a) a)
      (run.foldlM (fun c v => if c.outdated v (k + 1) then SumList.refreshInOrder k c v else pure c) c) := by
  refine .foldlM (fun v hv b d hbd => ?_) ⟨h, rfl⟩
  obtain ⟨hb, hd⟩ := hbd
  have hv : k < d.height v := (height_of_layout hd v).symm ▸ hrun v hv
  rw [hb.outdated_eq (SkipList.lt_size_of_height_pos (Nat.zero_lt_of_lt hv)), ok_bind]
  split
  · exact (hstep hb hv).and fun d' hd' => (layout_refreshInOrder hd').trans hd
  · exact ⟨hb, hd⟩

theorem refreshInOrder : ∀ {k u : Nat} {a c : SumList}, a.Covers c → k < c.height u →
    EndAlike Covers (Raw.refreshInOrder k a u) (SumList.refreshInOrder k c u) := by
  intro k
  induction k with
  | zero =>
    intro u a c h hu
    rw [Raw.refreshInOrder, SumList.refreshInOrder, h.list.heightOf_of_reaches hu, ok_bind]
    show EndAlike _ (if c.height u = 1 then _ else _) (Except.ok (if _ then _ else _))
    split
    · obtain ⟨a', hok, h'⟩ := h.setMark (SkipList.lt_size_of_height_pos hu) none
      rw [hok]
      exact h'
    · exact h
  | succ k ih =>
    intro u a c h hu
    have hfirst : EndAlike (fun b d => b.Covers d ∧ d.layout = c.layout)
        (if (c.markAt u).all (· < k + 1) then Raw.refreshInOrder k a u else pure a)
        (if (c.markAt u).all (· < k + 1) then SumList.refreshInOrder k c u else pure c) := by
      refine .ite (fun _ => ?_) fun _ => ⟨h, rfl⟩
      exact (ih h (Nat.lt_of_succ_lt hu)).and fun d hd => layout_refreshInOrder hd
    rw [Raw.refreshInOrder_succ, refreshInOrder_succ, h.mark_eq (SkipList.lt_size_of_height_pos (Nat.zero_lt_of_lt hu))]
    refine hfirst.bind fun b d hbd => ?_
    obtain ⟨hb, hd⟩ := hbd
    have hud : k + 1 < d.height u := (height_of_layout hd u).symm ▸ hu
    rw [hb.run_eq (Nat.lt_of_succ_lt hud)]
    have hrun := reaches_of_mem_run hb.list.grounded (u := u) (k := k)
    refine (refreshEach ih hb hrun).bind fun b' d' hbd' => ?_
    obtain ⟨hb', hd'⟩ := hbd'
    refine .after fun run hfinished => ?_
    have hmem : run = (d.run u k).elements := by
      unfold Run.finished at hfinished
      split at hfinished
      · cases hfinished
        rfl
      · cases hfinished
    exact hb'.recompute ((height_of_layout hd' u).symm ▸ hud) fun v hv => (height_of_layout hd' v).symm ▸ hrun v (hmem ▸ hv)

theorem refresh (cutoff : Nat) (schedule : Schedule) : ∀ {k u : Nat} {a c : SumList}, a.Covers c → k < c.height u →
    EndAlike Covers (Raw.refresh cutoff schedule k a u) (SumList.refresh cutoff schedule k c u) := by
  intro k
  induction k with
  | zero => exact fun h hu => h.refreshInOrder hu
  | succ k ih =>
    intro u a c h hu
    rw [Raw.refresh, SumList.refresh]
    split
    · exact h.refreshInOrder hu
    · rw [h.run_eq (Nat.lt_of_succ_lt hu), ok_bind]
      refine .after fun run hfinished => ?_
      have hrun : ∀ v ∈ u :: run, k < c.height v := by
        refine List.forall_mem_cons.mpr ⟨Nat.lt_of_succ_lt hu, fun v hv => ?_⟩
        unfold Run.finished at hfinished
        split at hfinished
        · cases hfinished
          exact reaches_of_mem_run h.list.grounded v hv
        · cases hfinished
      have hmarks : (u :: run).mapM (fun v => do return (v, ← Raw.outdated a v (k + 1))) =
          .ok ((u :: run).map fun v => (v, c.outdated v (k + 1))) := by
        refine mapM_ok fun v hv => ?_
        rw [h.outdated_eq (SkipList.lt_size_of_height_pos (Nat.zero_lt_of_lt (hrun v hv)))]
        rfl
      have hpending : (((u :: run).map fun v => (v, c.outdated v (k + 1))).filter (·.2)).map (·.1) =
          (u :: run).filter (c.outdated · (k + 1)) := by
        rw [List.filter_map, List.map_map]
        exact List.map_id _
      rw [hmarks, ok_bind, hpending]
      refine EndAlike.bind (R := fun b d => b.Covers d ∧ d.layout = c.layout)
        (.foldlM (fun v hv b d hbd => ?_) ⟨h, rfl⟩) fun b d hbd => ?_
      · obtain ⟨hb, hd⟩ := hbd
        have hv : k < d.height v := by
          rw [height_of_layout hd]
          exact hrun v (List.mem_of_mem_filter ((schedule.perm _).mem_iff.mp hv))
        exact (ih hb hv).and fun d' hd' => (layout_refresh hd').trans hd
      · obtain ⟨hb, hd⟩ := hbd
        exact hb.recompute ((height_of_layout hd u).symm ▸ hu) fun v hv =>
          (height_of_layout hd v).symm ▸ hrun v (List.mem_cons_of_mem u hv)

theorem repair (h : a.Covers c) (changed : List (Option Nat)) :
    EndAlike Covers (Raw.repair a changed) (c.repair changed) := by
  refine ((h.claimAll).and (Q := fun x => ∀ t ∈ x.1, t < x.2.size) ?_).bind ?_
  · rintro ⟨tops, c'⟩ hok t ht
    exact size_of_layout (layout_claimAll hok) ▸ lt_size_of_claimAll hok t ht
  · rintro ⟨tops, a⟩ ⟨_, c⟩ ⟨⟨rfl, h⟩, htops⟩
    refine (EndAlike.foldlM (R := fun b d => b.Covers d ∧ d.layout = c.layout) (fun t ht b d hbd => ?_)
      ⟨h, rfl⟩).mono fun _ _ hbd => hbd.1
    obtain ⟨hb, hd⟩ := hbd
    have hpos : 0 < d.height t := hb.list.grounded.height_pos t ((htops t ht).trans_eq (size_of_layout hd).symm)
    rw [hb.list.top_of_reaches hpos, ok_bind]
    exact (hb.refresh inOrderLevels .lastFirst (Nat.sub_one_lt_of_lt hpos)).and fun d' hd' =>
      (layout_refresh hd').trans hd

/-! ### Batches -/

theorem joinAll (h : a.Covers c) (seams : List Seam) : EndAlike Covers (Raw.joinAll a seams) (c.joinAll seams) := by
  refine (h.list.joinAll.and fun _ hd => SkipList.layout_joinAll hd).bind fun s d hsd => ?_
  exact (h.withList hsd.1 hsd.2).repair _

theorem clearMarks (h : a.Covers c) {points : List (Option Nat)}
    (hpoints : ∀ p ∈ points, ∃ u, p = some u ∧ u < c.size) :
    ∃ a', points.foldlM Raw.clearMark a = .ok a' ∧
      a'.Covers (points.foldl (fun a u => u.elim a (a.setMark · none)) c) := by
  have hstep (p : Option Nat) (hp : p ∈ points) (a d : SumList) (had : a.Covers d ∧ d.size = c.size) :
      ∃ a', Raw.clearMark a p = .ok a' ∧ a'.Covers (p.elim d (d.setMark · none)) ∧
        (p.elim d (d.setMark · none)).size = c.size := by
    obtain ⟨u, rfl, hu⟩ := hpoints p hp
    obtain ⟨a', hok, h'⟩ := had.1.setMark (hu.trans_eq had.2.symm) none
    exact ⟨a', hok, h', had.2⟩
  obtain ⟨a', hok, h', -⟩ := EndAlike.exists_foldlM hstep ⟨h, rfl⟩
  exact ⟨a', hok, h'⟩

/-- Only elements are split behind. -/
theorem lt_size_of_closeRunsOnce {p : Option Nat} {c' : SumList} (hok : c.closeRunsOnce p = .ok c') :
    ∃ u, p = some u ∧ u < c.size := by
  rcases p with _ | u
  · cases hok
  · obtain ⟨_, hu, -⟩ := bind_eq_ok.mp hok
    exact ⟨u, rfl, SkipList.lt_size_of_check hu⟩

theorem lt_size_of_closeRuns : ∀ {points : List (Option Nat)} {c c' : SumList},
    points.foldlM SumList.closeRunsOnce c = .ok c' → ∀ p ∈ points, ∃ u, p = some u ∧ u < c'.size := by
  intro points
  induction points with
  | nil => exact fun _ p hp => by cases hp
  | cons q points ih =>
    intro c c' hok p hp
    rw [List.foldlM_cons] at hok
    obtain ⟨d, hd, hrest⟩ := bind_eq_ok.mp hok
    have hlayout : c'.layout = c.layout :=
      (foldlM_keeps (fun _ _ _ _ => layout_closeRunsOnce) hrest).trans (layout_closeRunsOnce hd)
    rcases List.mem_cons.mp hp with rfl | hp
    · obtain ⟨u, rfl, hu⟩ := lt_size_of_closeRunsOnce hd
      exact ⟨u, rfl, hu.trans_eq (size_of_layout hlayout).symm⟩
    · exact ih hrest p hp

theorem splitAll (h : a.Covers c) (points : List (Option Nat)) :
    EndAlike (Answering Covers) (Raw.splitAll a points) (c.splitAll points) := by
  refine (h.list.splitAll.and (Q := fun x => x.2.layout = c.list.layout) ?_).bind ?_
  · rintro ⟨after, d⟩ hd
    exact SkipList.layout_splitAll hd
  · rintro ⟨after, s⟩ ⟨_, d⟩ ⟨⟨rfl, hs⟩, hd⟩
    have hclose : EndAlike Covers (points.foldlM Raw.closeRunsOnce { a with list := s })
        (points.foldlM SumList.closeRunsOnce { c with list := d }) :=
      .foldlM (fun p _ b d hbd => hbd.closeRunsOnce p) (h.withList hs hd)
    refine (hclose.and fun e he => lt_size_of_closeRuns he).bind ?_
    rintro b e ⟨hb, hpoints⟩
    obtain ⟨b', hok, hb'⟩ := hb.clearMarks hpoints
    rw [hok]
    exact ⟨rfl, hb'⟩

/-- Splitting leaves as many elements as there were, and answers once for each point. -/
theorem splitAll_sized (h : a.Covers c) (points : List (Option Nat)) :
    EndAlike (fun x y => Answering Covers x y ∧ y.1.length = points.length ∧ y.2.size = c.size)
      (Raw.splitAll a points) (c.splitAll points) :=
  (h.splitAll points).and fun _ hy => ⟨length_splitAll hy, size_of_layout (layout_splitAll hy)⟩

theorem joinAll_sized (h : a.Covers c) (seams : List Seam) :
    EndAlike (fun b d => b.Covers d ∧ d.size = c.size) (Raw.joinAll a seams) (c.joinAll seams) :=
  (h.joinAll seams).and fun _ hd => size_of_layout (layout_joinAll hd)

theorem setValues (h : a.Covers c) (updates : List (Nat × Int)) :
    EndAlike Covers (Raw.setValues a updates) (c.setValues updates) := by
  refine EndAlike.bind (.foldlM (fun x _ a c h => ?_) h) fun a c h => h.repair _
  rcases Nat.lt_or_ge x.1 c.size with hx | hx
  · obtain ⟨a', hok, h'⟩ := h.setItem (h.list.grounded.height_pos x.1 hx) x.2
    rw [hok, SkipList.check_of_lt hx]
    exact h'
  · rw [h.setItem_of_size_le hx, SkipList.check_of_size_le hx]
    exact .error _ _

/-! ### Sums -/

theorem value_eq (h : a.Covers c) (u : Nat) : Raw.item a u 0 = c.value u := by
  rw [value]
  rcases Nat.lt_or_ge u c.size with hu | hu
  · rw [h.item_eq (h.list.grounded.height_pos u hu), SkipList.check_of_lt hu]
    rfl
  · rw [h.item_of_size_le hu, SkipList.check_of_size_le hu]
    rfl

theorem stride_ahead (h : a.Covers c) {root : Nat} (p : Option Nat) (hp : ∀ v, p = some v → k < c.height v) :
    (Raw.ahead a root k).stride p = (c.ahead root k).stride p := by
  rcases p with _ | v
  · rfl
  · have hv := hp v rfl
    show (if v = root then _ else _) = Except.ok (if v = root then _ else _)
    rw [h.item_eq hv, ok_bind, h.list.next_eq hv, ok_bind]
    split <;> rfl

theorem reaches_of_ahead (hg : c.list.Grounded) {root : Nat} (p : Option Nat) (value : Int) (q : Option Nat)
    (hgo : (c.ahead root k).stride p = .ok (.go value q)) : ∀ v, q = some v → k < c.height v := by
  rcases p with _ | u
  · cases hgo
  · change Except.ok (if u = root then _ else _) = _ at hgo
    split at hgo
    · cases hgo
    · cases hgo
      exact fun v hv => hg.next_reaches u k v hv

theorem stride_behind (h : a.Covers c) (p : Nat × Nat) (hp : p.1 < c.height p.2) :
    (Raw.behind a).stride p = c.behind.stride p := by
  obtain ⟨k, cur⟩ := p
  simp only [Raw.behind, behind, h.list.prev_eq hp, ok_bind]
  rcases hv : c.list.prevAt cur k with _ | v
  · cases k <;> rfl
  · simp only [h.item_eq (h.list.grounded.prev_reaches cur k v hv)]
    cases k <;> rfl

theorem reaches_of_behind (hg : c.list.Grounded) (p : Nat × Nat) (value : Int) (q : Nat × Nat)
    (hp : p.1 < c.height p.2) (hgo : c.behind.stride p = .ok (.go value q)) : q.1 < c.height q.2 := by
  obtain ⟨k, cur⟩ := p
  simp only [behind] at hgo
  rcases hv : c.list.prevAt cur k with _ | v
  · rw [hv] at hgo
    rcases k with _ | k
    · cases hgo
    · cases hgo
      exact Nat.lt_of_succ_lt hp
  · rw [hv] at hgo
    cases k <;>
    · cases hgo
      exact hg.prev_reaches cur _ v hv

theorem sum_eq (h : a.Covers c) (u : Nat) : Raw.sum a u = c.sum u := by
  rw [Raw.sum, sum, h.list.representative_eq]
  refine EndAlike.eq (.after fun root hroot => ?_)
  have hpos : 0 < c.list.height root := h.list.grounded.height_pos root
    (SkipList.Covers.lt_size_of_representative h.list.grounded hroot)
  have hreach : c.list.height root - 1 < c.list.height root := Nat.sub_one_lt_of_lt hpos
  have hahead : (Raw.ahead a root (c.list.height root - 1)).finish (c.size + 1)
        (c.list.nextAt root (c.list.height root - 1)) (c.valueAt root (c.list.height root - 1)) = _ :=
    Walk.finish_congr h.stride_ahead (fun p value q _ => reaches_of_ahead h.list.grounded p value q)
      fun v hv => h.list.grounded.next_reaches root _ v hv
  have hbehind (sum : Int) : (Raw.behind a).finish ((c.list.height root - 1 + 1) * c.size)
      (c.list.height root - 1, root) sum = _ :=
    Walk.finish_congr h.stride_behind (reaches_of_behind h.list.grounded) hreach
  simp only [h.list.top_of_reaches hpos, h.list.next_eq hreach, h.item_eq hreach, ok_bind, h.size_eq, hahead, hbehind]
  exact .refl fun _ _ => rfl

theorem stride_between (h : a.Covers c) (p : Option Nat × Nat) (hp : (∀ l, p.1 = some l → l < c.size) ∧ p.2 < c.size) :
    (Raw.between a).stride p = c.between.stride p := by
  obtain ⟨l, r⟩ := p
  obtain ⟨hl, hr⟩ := hp
  rcases l with _ | l
  · show a.list.noElement = c.list.noElement
    rw [SkipList.noElement, SkipList.noElement, h.list.size_eq]
  · have hl₀ : 0 < c.list.height l := h.list.grounded.height_pos l (hl l rfl)
    have hr₀ : 0 < c.list.height r := h.list.grounded.height_pos r hr
    have hk : min (c.list.height l - 1) (c.list.height r - 1) = min (c.height l) (c.height r) - 1 :=
      Nat.sub_min_sub_right ..
    simp only [Raw.between, between, h.list.top_of_reaches hl₀, h.list.top_of_reaches hr₀, ok_bind, hk]
    split
    · rfl
    · split
      · next hkl =>
        have hreach : min (c.height l) (c.height r) - 1 < c.height l := hkl ▸ Nat.sub_one_lt_of_lt hl₀
        simp only [h.item_eq hreach, h.list.next_eq hreach, ok_bind, if_pos (show _ = c.height l - 1 from hkl)]
        rfl
      · next hkl =>
        have hreach : min (c.height l) (c.height r) - 1 < c.height r :=
          (Nat.sub_le_sub_right (min_le_right _ _) 1).trans_lt (Nat.sub_one_lt_of_lt hr₀)
        rw [h.list.prev_eq hreach, ok_bind, if_neg (show ¬ _ = c.height l - 1 from hkl)]
        rcases hv : c.list.prevAt r (min (c.height l) (c.height r) - 1) with _ | v
        · show a.list.noElement = c.list.noElement
          rw [SkipList.noElement, SkipList.noElement, h.list.size_eq]
        · simp only [h.item_eq (h.list.grounded.prev_reaches r _ v hv), ok_bind]
          rfl

theorem lt_size_of_between (hg : c.list.Grounded) (p : Option Nat × Nat) (value : Int) (q : Option Nat × Nat)
    (hp : (∀ l, p.1 = some l → l < c.size) ∧ p.2 < c.size) (hgo : c.between.stride p = .ok (.go value q)) :
    (∀ l, q.1 = some l → l < c.size) ∧ q.2 < c.size := by
  obtain ⟨l, r⟩ := p
  obtain ⟨hl, hr⟩ := hp
  rcases l with _ | l
  · cases hgo
  · simp only [between] at hgo
    split at hgo
    · cases hgo
    · split at hgo
      · cases hgo
        exact ⟨fun w hw => SkipList.lt_size_of_height_pos (Nat.zero_lt_of_lt (hg.next_reaches l _ w hw)), hr⟩
      · split at hgo
        · next w hw =>
          cases hgo
          exact ⟨hl, SkipList.lt_size_of_height_pos (Nat.zero_lt_of_lt (hg.prev_reaches r _ w hw))⟩
        · cases hgo

theorem sumOver_eq (h : a.Covers c) (l r : Nat) : Raw.sumOver a l r = c.sumOver l r := by
  rw [Raw.sumOver, sumOver, h.value_eq, value]
  rcases Nat.lt_or_ge r c.size with hr | hr
  · rw [SkipList.check_of_lt hr, ok_bind]
    rcases Nat.lt_or_ge l c.size with hl | hl
    · have hfinish (sum : Int) : (Raw.between a).finish (2 * (c.size + 1)) (some l, r) sum =
          c.between.finish (2 * (c.size + 1)) (some l, r) sum :=
        Walk.finish_congr h.stride_between (lt_size_of_between h.list.grounded)
          ⟨fun w hw => Option.some.inj hw ▸ hl, hr⟩
      simp only [SkipList.check_of_lt hl, ok_bind, pure_eq_ok, h.size_eq, hfinish]
      split <;> rfl
    · have hlr : l ≠ r := by omega
      have hstride : (Raw.between a).stride (some l, r) = .error (.outOfRange c.size (some l)) := by
        simp only [Raw.between, if_neg hlr, h.list.top_of_size_le hl, error_bind]
        rfl
      rw [if_pos hlr, SkipList.check_of_size_le hl]
      simp only [pure_eq_ok, ok_bind]
      rw [Walk.finish, show 2 * (a.size + 1) = 2 * a.size + 1 + 1 from rfl, Walk.advance, hstride]
      rfl
  · rw [SkipList.check_of_size_le hr]
    rfl

/-! ### Taking an element out -/

/-- The items below the height hold all values. -/
theorem foldl_setValue (h : a.Covers c) (hu : u < c.size) (value : Int) :
    ((List.range (c.height u)).foldl (·.setValue u · value) { c with list := c.list.detach u } : SumList).setMark u
      none = c.detach u value := by
  have hfold (n : Nat) (hn : n ≤ c.height u) :
      let d : SumList := (List.range n).foldl (·.setValue u · value) { c with list := c.list.detach u }
      d.layout = c.layout ∧ d.list = c.list.detach u ∧ d.marks = c.marks ∧
        ∀ v j, d.valueAt v j = if v = u ∧ j < n then value else c.valueAt v j := by
    induction n with
    | zero => exact ⟨layout_withList (SkipList.layout_detach c.list u), rfl, rfl, by simp [valueAt]⟩
    | succ n ih =>
      obtain ⟨hlayout, hlist, hmarks, hvalue⟩ := ih (Nat.le_of_succ_le hn)
      rw [List.range_succ, List.foldl_append, List.foldl_cons, List.foldl_nil]
      refine ⟨(layout_setValue ..).trans hlayout, hlist, hmarks, fun v j => ?_⟩
      have hdepth := depth_of_layout hlayout u
      rw [valueAt_setValue, hdepth, h.depth, hvalue]
      grind
  obtain ⟨hlayout, hlist, hmarks, hvalue⟩ := hfold (c.height u) (Nat.le_refl _)
  refine eq_of_values ?_ hlist (fun v j => ?_) fun v => ?_
  · rw [layout_setMark, hlayout, layout_detach]
  · rw [valueAt_setMark, hvalue, valueAt_detach, h.depth]
  · rw [markAt_setMark, markAt_detach, hmarks, h.size_marks, markAt, markAt, hmarks]
    simp only [hu, and_true]

theorem detach (h : a.Covers c) (hu : u < c.size) (value : Int) :
    ∃ a', Raw.detach a u value = .ok a' ∧ a'.Covers (c.detach u value) := by
  obtain ⟨s, hok, hs⟩ := h.list.detach hu
  have hheight : (c.list.detach u).height u = c.list.height u := SkipList.height_detach ..
  have hstep (k : Nat) (hk : k ∈ List.range (c.height u)) (b d : SumList) (hbd : b.Covers d ∧ d.height u = c.height u) :
      ∃ b', Raw.setItem b u k value = .ok b' ∧ b'.Covers (d.setValue u k value) ∧
        (d.setValue u k value).height u = c.height u := by
    obtain ⟨b', hok', hb'⟩ := hbd.1.setItem (hbd.2 ▸ List.mem_range.mp hk) value
    exact ⟨b', hok', hb', hbd.2⟩
  obtain ⟨b, hb, hcovers, hd⟩ := EndAlike.exists_foldlM hstep
    ⟨h.withList hs (SkipList.layout_detach c.list u), hheight⟩
  obtain ⟨b', hb', hcovers'⟩ := hcovers.setMark (SkipList.lt_size_of_height_pos
    ((h.list.grounded.height_pos u hu).trans_eq hd.symm)) none
  rw [h.foldl_setValue hu] at hcovers'
  refine ⟨b', ?_, hcovers'⟩
  have hheightOf : s.heightOf u = .ok (c.height u) := by
    rw [hs.heightOf_of_reaches (hheight ▸ h.list.grounded.height_pos u hu), hheight]
    rfl
  rw [Raw.detach, hok, ok_bind, hheightOf, ok_bind, hb, ok_bind, hb']

/-! ### Requests -/

/-- Every request is answered as if there were nothing beyond the levels. -/
theorem serve (h : a.Covers c) (r : Request) : Traced.EndAlike (Answering Covers) (Raw.serve a r) (c.serve r) := by
  cases r with
  | ask query => exact .ask h (h.list.ask_eq query) id
  | value u => exact .ask h (h.value_eq u) Answer.value
  | sum u => exact .ask h (h.sum_eq u) Answer.value
  | sumOver l r => exact .ask h (h.sumOver_eq l r) Answer.value
  | joinAll seams => exact .bind (.lift (h.joinAll seams)) fun s c h => .pure ⟨rfl, h⟩
  | splitAll points =>
    refine .bind (.lift (h.splitAll points)) ?_
    rintro ⟨after, a⟩ ⟨_, c⟩ ⟨rfl, h⟩
    exact .pure ⟨rfl, h⟩
  | setValues updates => exact .bind (.lift (h.setValues updates)) fun s c h => .pure ⟨rfl, h⟩

end Covers

end SumList

end TourForest
