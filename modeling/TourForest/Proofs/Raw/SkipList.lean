import Mathlib.Order.Nat
import TourForest.Proofs.Raw.EndAlike
import TourForest.Proofs.SkipList.Layout
import TourForest.SkipList.Build

/-!
# Skip lists on raw arrays

The array of an element is longer than the element is high, and beyond its height it holds whatever its last owner
left there. The operations of a skip list are total where they read above a tower. Here are the same operations on the
arrays as they lie in memory: an item is read and written wherever it lies, stale or not, and an index that is out of
range faults (`Raw.item`, `Raw.modify`).

No stale item is ever read or written. All links of a list lead to elements that reach their level (`Grounded`), and
all walks stay on levels that the elements they come to reach. So the operations on raw arrays end like the others, on
any list with the same levels (`Covers`), whatever they are asked: `Covers.join`, `Covers.split`, `Covers.ask`, and
all together `Covers.serve`.
-/

namespace TourForest

/-! ## Arrays that look the same -/

section

variable {α β : Type} {g : α → β} {xs ys : Array α} {i : Nat} {y : α}

/-- Where one array has an item, the other one has an item that looks the same. -/
theorem exists_of_map_eq (h : xs.map g = ys.map g) (hy : ys[i]? = some y) : ∃ x, xs[i]? = some x ∧ g x = g y := by
  have hi : (xs[i]?).map g = (ys[i]?).map g := by rw [← Array.getElem?_map, h, Array.getElem?_map]
  rw [hy, Option.map_some] at hi
  exact Option.map_eq_some_iff.mp hi

/-- Changes of items that look the same afterwards. -/
theorem map_modify_of_map_eq (h : xs.map g = ys.map g) {f f' : α → α}
    (hf : ∀ x y, xs[i]? = some x → ys[i]? = some y → g (f x) = g (f' y)) :
    (xs.modify i f).map g = (ys.modify i f').map g := by
  refine Array.ext_getElem? fun j => ?_
  have hj : (xs[j]?).map g = (ys[j]?).map g := by rw [← Array.getElem?_map, h, Array.getElem?_map]
  rw [Array.getElem?_map, Array.getElem?_map, Array.getElem?_modify, Array.getElem?_modify]
  split
  · next hij =>
    subst hij
    rcases hy : ys[i]? with _ | y
    · rw [hy, Option.map_none, Option.map_eq_none_iff] at hj
      rw [hj]
      rfl
    · obtain ⟨x, hx, -⟩ := exists_of_map_eq h hy
      rw [hx]
      exact congrArg some (hf x y hx hy)
  · exact hj

end

/-! ## The array of a tower -/

/-- Changes item `k` of the array of a tower. -/
def Tower.modifyItem (t : Tower) (k : Nat) (f : Links → Links) : Tower :=
  if k < t.levels.size then { t with levels := t.levels.modify k f }
  else { t with slack := t.slack.modify (k - t.levels.size) f }

/-- It is item `k` of the whole array that is changed. -/
theorem Tower.toArray_modifyItem (t : Tower) (k : Nat) (f : Links → Links) :
    (t.modifyItem k f).toArray = t.toArray.modify k f := by
  refine Array.ext_getElem? fun j => ?_
  unfold modifyItem
  split
  · next hk => simp only [toArray, Array.getElem?_append, Array.getElem?_modify, Array.size_modify]; grind
  · next hk => simp only [toArray, Array.getElem?_append, Array.getElem?_modify]; grind

namespace SkipList

namespace Raw

/-! ## Items -/

/-- Item `k` of the array of element `u`, whatever it holds. -/
def item (s : SkipList) (u k : Nat) : Except Fault Links :=
  match s.towers[u]? with
  | none => .error (.outOfRange s.size (some u))
  | some t =>
    match t.toArray[k]? with
    | none => .error (.outOfRange t.toArray.size (some k))
    | some l => .ok l

/-- Changes item `k` of the array of element `u`. -/
def modify (s : SkipList) (u k : Nat) (f : Links → Links) : Except Fault SkipList :=
  match s.towers[u]? with
  | none => .error (.outOfRange s.size (some u))
  | some t =>
    if k < t.toArray.size then .ok ⟨s.towers.modify u (·.modifyItem k f)⟩
    else .error (.outOfRange t.toArray.size (some k))

/-- The element after `u`, as item `k` says. -/
def next (s : SkipList) (u k : Nat) : Except Fault (Option Nat) := do return (← item s u k).next

/-- The element before `u`, as item `k` says. -/
def prev (s : SkipList) (u k : Nat) : Except Fault (Option Nat) := do return (← item s u k).prev

def setNext (s : SkipList) (u k : Nat) (v : Option Nat) : Except Fault SkipList :=
  modify s u k fun l => { l with next := v }

def setPrev (s : SkipList) (u k : Nat) (v : Option Nat) : Except Fault SkipList :=
  modify s u k fun l => { l with prev := v }

/-- The top level of an element. -/
def top (s : SkipList) (u : Nat) : Except Fault Nat := do subWords (← s.heightOf u) 1

/-! ## Joins and splits -/

def climb (s : SkipList) (step : Nat → Except Fault (Option Nat)) (start k : Nat) :
    (steps cur : Nat) → Except Fault (Option Nat)
  | 0, _ => .error .endlessWalk
  | steps + 1, cur => do
    if k + 1 < (← s.heightOf cur) then return some cur
    else
      match ← step cur with
      | none => return none
      | some v => if v = start then return none else climb s step start k steps v

def leftParent (s : SkipList) (u k : Nat) : Except Fault (Option Nat) := climb s (prev s · k) u k s.size u

def rightParent (s : SkipList) (u k : Nat) : Except Fault (Option Nat) := climb s (next s · k) u k s.size u

def connect (s : SkipList) (k l r : Nat) : Except Fault SkipList := do
  let s ← setNext s l k (some r)
  if (← prev s r k).isNone then setPrev s r k (some l) else return s

def joinFrom (s : SkipList) : (levels k l r : Nat) → Except Fault SkipList
  | 0, _, _, _ => .error .endlessWalk
  | levels + 1, k, l, r => do
    if (← next s l k).isSome then return s
    else
      let s ← connect s k l r
      match ← leftParent s l k, ← rightParent s r k with
      | some l, some r => joinFrom s levels (k + 1) l r
      | _, _ => return s

def join (s : SkipList) (l r : Option Nat) : Except Fault SkipList :=
  match l, r with
  | some l, some r => joinFrom s maxHeight 0 l r
  | _, _ => .ok s

def splitFrom (s : SkipList) : (levels k u : Nat) → Except Fault SkipList
  | 0, _, _ => .error .endlessWalk
  | levels + 1, k, u => do
    match ← next s u k with
    | none => return s
    | some v =>
      let s ← setNext s u k none
      let s ← setPrev s v k none
      match ← leftParent s u k with
      | some u => splitFrom s levels (k + 1) u
      | none => return s

def split (s : SkipList) (u : Option Nat) : Except Fault (Option Nat × SkipList) :=
  match u with
  | none => .ok (none, s)
  | some u => do
    let after ← next s u 0
    return (after, ← splitFrom s maxHeight 0 u)

def joinAll (s : SkipList) : List Seam → Except Fault SkipList
  | [] => .ok s
  | (l, r) :: rest => do joinAll (← join s l r) rest

def splitAll (s : SkipList) : List (Option Nat) → Except Fault (List (Option Nat) × SkipList)
  | [] => .ok ([], s)
  | u :: rest => do
    let (after, s) ← split s u
    let (others, s) ← splitAll s rest
    return (after :: others, s)

/-- Takes the links of element `u` out, item after item below its height. -/
def detach (s : SkipList) (u : Nat) : Except Fault SkipList := do
  (List.range (← s.heightOf u)).foldlM (fun s k => do setNext (← setPrev s u k none) u k none) s

/-! ## Representatives and sequences -/

def forward (s : SkipList) : (steps cur k : Nat) → (least : Option Nat) → Except Fault Forward
  | 0, _, _, _ => .error .endlessWalk
  | steps + 1, cur, k, least => do
    let following ← next s cur k
    if least = some cur then return .closed cur
    else
      match following with
      | none => return .ended cur k
      | some v =>
        let high ← top s v
        if k < high then forward s steps v high none
        else forward s steps v k (some (min cur (least.getD cur)))

def backward (s : SkipList) : (steps cur k : Nat) → Except Fault Nat
  | 0, _, _ => .error .endlessWalk
  | steps + 1, cur, k => do
    match ← prev s cur k with
    | none => return cur
    | some v => backward s steps v (← top s v)

def representative (s : SkipList) (u : Nat) : Except Fault Nat := do
  match ← forward s (maxHeight * (2 * s.size + 1)) u (← top s u) none with
  | .closed v => return v
  | .ended v k => backward s (maxHeight * (s.size + 1)) v k

def sameSequence (s : SkipList) (u v : Nat) : Except Fault Bool := do
  return (← representative s u) == (← representative s v)

def firstFrom (s : SkipList) (u : Nat) : (steps cur : Nat) → Except Fault Nat
  | 0, _ => .error .endlessWalk
  | steps + 1, cur => do
    match ← prev s cur 0 with
    | none => return cur
    | some p => if p = u then return u else firstFrom s u steps p

def restFrom (s : SkipList) (first : Nat) : (steps : Nat) → (cur : Option Nat) → Except Fault (List Nat)
  | _, none => .ok []
  | 0, some _ => .error .endlessWalk
  | steps + 1, some v =>
    if v = first then .ok []
    else do return v :: (← restFrom s first steps (← next s v 0))

def sequence (s : SkipList) (u : Nat) : Except Fault (List Nat) := do
  s.check u
  let first ← firstFrom s u s.size u
  return first :: (← restFrom s first s.size (← next s first 0))

/-! ## Requests -/

def ask (s : SkipList) : Query → Except Fault Answer
  | .size => .ok (.number s.size)
  | .height u => return .number (← s.heightOf u)
  | .next u => return .element (← next s u 0)
  | .previous u => return .element (← prev s u 0)
  | .representative u => return .number (← representative s u)
  | .sameSequence u v => return .truth (← sameSequence s u v)
  | .sequence u => return .members (← sequence s u)

def serve (s : SkipList) : Request → Traced (Answer × SkipList)
  | .ask query => return (← ask s query, s)
  | .join l r => return (.done, ← join s l r)
  | .split u => do
    let (after, s) ← split s u
    return (.element after, s)

end Raw

/-! ## Links that reach their level -/

variable {s c : SkipList} {u v k l r : Nat}

/-- Elements have levels, and links lead to elements that reach the level of the link. -/
structure Grounded (c : SkipList) : Prop where
  height_pos : ∀ u < c.size, 0 < c.height u
  height_le : ∀ u, c.height u ≤ maxHeight
  next_reaches : ∀ u k v, c.nextAt u k = some v → k < c.height v
  prev_reaches : ∀ u k v, c.prevAt u k = some v → k < c.height v

namespace Grounded

theorem lt_maxHeight (h : c.Grounded) (hu : k < c.height u) : k < maxHeight := hu.trans_le (h.height_le u)

theorem setNext (h : c.Grounded) {x : Option Nat} (hx : ∀ v, x = some v → k < c.height v) :
    (c.setNext u k x).Grounded := by
  refine ⟨fun w hw => ?_, fun w => ?_, fun w j v hv => ?_, fun w j v hv => ?_⟩
  · rw [size_setNext] at hw
    simpa using h.height_pos w hw
  · simpa using h.height_le w
  · rw [nextAt_setNext] at hv
    rw [height_setNext]
    split at hv
    · next hw => exact hw.2.1 ▸ hx v hv
    · exact h.next_reaches w j v hv
  · rw [prevAt_setNext] at hv
    simpa using h.prev_reaches w j v hv

theorem setPrev (h : c.Grounded) {x : Option Nat} (hx : ∀ v, x = some v → k < c.height v) :
    (c.setPrev u k x).Grounded := by
  refine ⟨fun w hw => ?_, fun w => ?_, fun w j v hv => ?_, fun w j v hv => ?_⟩
  · rw [size_setPrev] at hw
    simpa using h.height_pos w hw
  · simpa using h.height_le w
  · rw [nextAt_setPrev] at hv
    simpa using h.next_reaches w j v hv
  · rw [prevAt_setPrev] at hv
    rw [height_setPrev]
    split at hv
    · next hw => exact hw.2.1 ▸ hx v hv
    · exact h.prev_reaches w j v hv

end Grounded

theorem height_connect (c : SkipList) (k l r w : Nat) : (c.connect k l r).height w = c.height w := by
  unfold connect
  dsimp only
  split <;> simp

/-- A climb ends at an element that reaches the next level. -/
theorem reaches_of_climb {step : Nat → Option Nat} {start : Nat} : ∀ {steps cur : Nat},
    c.climb step start k steps cur = .ok (some v) → k + 1 < c.height v := by
  intro steps
  induction steps with
  | zero => exact fun h => by cases h
  | succ steps ih =>
    intro cur h
    rw [climb] at h
    split at h
    · next hk =>
      cases h
      exact hk
    · split at h
      · cases h
      · split at h
        · cases h
        · exact ih h

theorem lt_size_of_check (h : c.check u = .ok ()) : u < c.size := by
  unfold check at h
  split at h
  · assumption
  · cases h

/-! ## The same levels -/

/-- `s` has the levels of `c`, whose links reach their levels, and may hold anything else beyond them. -/
structure Covers (s c : SkipList) : Prop where
  levels : s.towers.map (·.levels) = c.towers.map (·.levels)
  grounded : c.Grounded

namespace Covers

/-! ### Items -/

theorem levels_eq (h : s.Covers c) (u : Nat) : (s.towers[u]?).map (·.levels) = (c.towers[u]?).map (·.levels) := by
  rw [← Array.getElem?_map, h.levels, Array.getElem?_map]

theorem size_eq (h : s.Covers c) : s.size = c.size := by
  have := congrArg Array.size h.levels
  rwa [Array.size_map, Array.size_map] at this

theorem height_eq (h : s.Covers c) (u : Nat) : s.height u = c.height u := by
  have := h.levels_eq u
  unfold height
  rcases hs : s.towers[u]? with _ | t <;> rcases hc : c.towers[u]? with _ | t' <;>
    simp_all [Tower.height]

theorem check_eq (h : s.Covers c) (u : Nat) : s.check u = c.check u := by
  rw [check, check, h.size_eq]

theorem heightOf_eq (h : s.Covers c) (u : Nat) : s.heightOf u = c.heightOf u := by
  rw [heightOf, heightOf, h.check_eq, h.height_eq]

theorem heightOf_of_reaches (h : s.Covers c) (hu : k < c.height u) : s.heightOf u = .ok (c.height u) := by
  rw [h.heightOf_eq, heightOf, check_of_lt (lt_size_of_height_pos (Nat.zero_lt_of_lt hu))]
  rfl

theorem top_of_reaches (h : s.Covers c) (hu : k < c.height u) : Raw.top s u = .ok (c.height u - 1) := by
  rw [Raw.top, h.heightOf_of_reaches hu, ok_bind]
  exact if_pos (Nat.zero_lt_of_lt hu)

theorem top_of_size_le (h : s.Covers c) (hu : c.size ≤ u) : Raw.top s u = .error (.outOfRange c.size (some u)) := by
  rw [Raw.top, h.heightOf_eq, heightOf, check_of_size_le hu]
  rfl

/-- The tower of an element that reaches a level. -/
theorem exists_tower (h : s.Covers c) (hu : k < c.height u) :
    ∃ t t', s.towers[u]? = some t ∧ c.towers[u]? = some t' ∧ t.levels = t'.levels ∧ k < t.levels.size := by
  unfold height at hu
  rcases hc : c.towers[u]? with _ | t'
  · simp [hc] at hu
  · obtain ⟨t, ht, hlevels⟩ := exists_of_map_eq h.levels hc
    refine ⟨t, t', ht, rfl, hlevels, ?_⟩
    rw [hc] at hu
    exact hlevels ▸ hu

/-- An item below the height of its element holds the links of its level. -/
theorem item_eq (h : s.Covers c) (hu : k < c.height u) : Raw.item s u k = .ok (c.linksAt u k) := by
  obtain ⟨t, t', ht, ht', hlevels, hk⟩ := h.exists_tower hu
  have hitem : t.toArray[k]? = t'.levels[k]? := by
    rw [Tower.toArray, Array.getElem?_append_left hk, hlevels]
  have hk' : k < t'.levels.size := hlevels ▸ hk
  simp only [Raw.item, ht, hitem, linksAt, ht', Option.bind_some, Array.getElem?_eq_getElem hk', Option.getD_some]

theorem item_of_size_le (h : s.Covers c) (hu : c.size ≤ u) : Raw.item s u k = .error (.outOfRange c.size (some u)) := by
  have hnone : s.towers[u]? = none := Array.getElem?_eq_none (h.size_eq.trans_le hu)
  simp only [Raw.item, hnone, h.size_eq]

theorem next_eq (h : s.Covers c) (hu : k < c.height u) : Raw.next s u k = .ok (c.nextAt u k) := by
  rw [Raw.next, h.item_eq hu]
  rfl

theorem prev_eq (h : s.Covers c) (hu : k < c.height u) : Raw.prev s u k = .ok (c.prevAt u k) := by
  rw [Raw.prev, h.item_eq hu]
  rfl

/-- Item 0 can be asked of any index. -/
theorem next_zero (h : s.Covers c) (u : Nat) : Raw.next s u 0 = c.successor u := by
  rcases Nat.lt_or_ge u c.size with hu | hu
  · rw [h.next_eq (h.grounded.height_pos u hu), successor, check_of_lt hu]
    rfl
  · rw [Raw.next, h.item_of_size_le hu, successor, check_of_size_le hu]
    rfl

theorem prev_zero (h : s.Covers c) (u : Nat) : Raw.prev s u 0 = c.predecessor u := by
  rcases Nat.lt_or_ge u c.size with hu | hu
  · rw [h.prev_eq (h.grounded.height_pos u hu), predecessor, check_of_lt hu]
    rfl
  · rw [Raw.prev, h.item_of_size_le hu, predecessor, check_of_size_le hu]
    rfl

/-- A change below the height of an element changes the links of the level. -/
theorem modify (h : s.Covers c) (hu : k < c.height u) (f : Links → Links) :
    ∃ s', Raw.modify s u k f = .ok s' ∧
      s'.towers.map (·.levels) = (c.modifyLinks u k f).towers.map (·.levels) := by
  obtain ⟨t, t', ht, ht', hlevels, hk⟩ := h.exists_tower hu
  have hk' : k < t.toArray.size := by
    rw [Tower.toArray, Array.size_append]
    omega
  refine ⟨⟨s.towers.modify u (·.modifyItem k f)⟩, ?_, ?_⟩
  · simp only [Raw.modify, ht, if_pos hk']
  · simp only [modifyLinks]
    refine map_modify_of_map_eq h.levels fun x y hx hy => ?_
    cases ht.symm.trans hx
    cases ht'.symm.trans hy
    rw [Tower.modifyItem, if_pos hk, hlevels]

theorem setNext (h : s.Covers c) (hu : k < c.height u) {x : Option Nat} (hx : ∀ v, x = some v → k < c.height v) :
    ∃ s', Raw.setNext s u k x = .ok s' ∧ s'.Covers (c.setNext u k x) := by
  obtain ⟨s', hok, hlevels⟩ := h.modify hu fun l => { l with next := x }
  exact ⟨s', hok, hlevels, h.grounded.setNext hx⟩

theorem setPrev (h : s.Covers c) (hu : k < c.height u) {x : Option Nat} (hx : ∀ v, x = some v → k < c.height v) :
    ∃ s', Raw.setPrev s u k x = .ok s' ∧ s'.Covers (c.setPrev u k x) := by
  obtain ⟨s', hok, hlevels⟩ := h.modify hu fun l => { l with prev := x }
  exact ⟨s', hok, hlevels, h.grounded.setPrev hx⟩

/-! ### Joins and splits -/

theorem climb_eq (h : s.Covers c) {step : Nat → Except Fault (Option Nat)} {step' : Nat → Option Nat} {start : Nat}
    (hstep : ∀ u, k < c.height u → step u = .ok (step' u)) (hreach : ∀ u v, step' u = some v → k < c.height v) :
    ∀ {steps cur : Nat}, k < c.height cur → Raw.climb s step start k steps cur = c.climb step' start k steps cur := by
  intro steps
  induction steps with
  | zero => exact fun _ => rfl
  | succ steps ih =>
    intro cur hcur
    rw [Raw.climb, climb, h.heightOf_of_reaches hcur, ok_bind]
    split
    · rfl
    · rw [hstep cur hcur, ok_bind]
      rcases hs : step' cur with _ | v
      · rfl
      · show (if v = start then _ else _) = _
        rw [ih (hreach cur v hs)]
        rfl

theorem leftParent_eq (h : s.Covers c) (hu : k < c.height u) : Raw.leftParent s u k = c.leftParent u k := by
  rw [Raw.leftParent, leftParent, h.size_eq]
  exact h.climb_eq (fun _ hw => h.prev_eq hw) (fun w v => h.grounded.prev_reaches w k v) hu

theorem rightParent_eq (h : s.Covers c) (hu : k < c.height u) : Raw.rightParent s u k = c.rightParent u k := by
  rw [Raw.rightParent, rightParent, h.size_eq]
  exact h.climb_eq (fun _ hw => h.next_eq hw) (fun w v => h.grounded.next_reaches w k v) hu

theorem connect (h : s.Covers c) (hl : k < c.height l) (hr : k < c.height r) :
    ∃ s', Raw.connect s k l r = .ok s' ∧ s'.Covers (c.connect k l r) := by
  obtain ⟨s₁, hok₁, h₁⟩ := h.setNext hl (x := some r) fun v hv => Option.some.inj hv ▸ hr
  have hr₁ : k < (c.setNext l k (some r)).height r := by simpa using hr
  rw [Raw.connect, hok₁, ok_bind, h₁.prev_eq hr₁, ok_bind, SkipList.connect]
  split
  · exact h₁.setPrev hr₁ fun v hv => by simpa [← Option.some.inj hv] using hl
  · exact ⟨s₁, rfl, h₁⟩

/-- Fuel is for all levels, and no element is higher. -/
theorem joinFrom : ∀ {levels k l r : Nat} {s c : SkipList}, s.Covers c → k + levels = maxHeight → k < c.height l →
    k < c.height r → EndAlike Covers (Raw.joinFrom s levels k l r) (c.joinFrom levels k l r) := by
  intro levels
  induction levels with
  | zero =>
    intro k l r s c h hk hl _
    have := h.grounded.lt_maxHeight hl
    omega
  | succ levels ih =>
    intro k l r s c h hk hl hr
    rw [Raw.joinFrom, SkipList.joinFrom, h.next_eq hl, ok_bind]
    split
    · exact h
    · obtain ⟨s₁, hok₁, h₁⟩ := h.connect hl hr
      have hheight (w : Nat) : (c.connect k l r).height w = c.height w := height_connect ..
      rw [hok₁, ok_bind, h₁.leftParent_eq ((hheight l).symm ▸ hl), h₁.rightParent_eq ((hheight r).symm ▸ hr)]
      refine .after fun left hleft => .after fun right hright => ?_
      rcases left with _ | l'
      · exact h₁
      · rcases right with _ | r'
        · exact h₁
        · exact ih h₁ (by omega) (reaches_of_climb hleft) (reaches_of_climb hright)

/-- Joins end alike, whatever is joined to whatever. -/
theorem join (h : s.Covers c) (l r : Option Nat) : EndAlike Covers (Raw.join s l r) (c.join l r) := by
  rcases l with _ | l
  · exact h
  · rcases r with _ | r
    · exact h
    · rw [Raw.join, SkipList.join]
      rcases Nat.lt_or_ge l c.size with hl | hl
      · have hl₀ := h.grounded.height_pos l hl
        rw [check_of_lt hl, ok_bind]
        by_cases hn : (c.nextAt l 0).isSome
        · rw [if_pos hn, show maxHeight = 31 + 1 from rfl, Raw.joinFrom, h.next_eq hl₀, ok_bind, if_pos hn]
          exact h
        · rw [if_neg hn]
          rcases Nat.lt_or_ge r c.size with hr | hr
          · rw [check_of_lt hr]
            exact joinFrom h rfl hl₀ (h.grounded.height_pos r hr)
          · -- The link of `l` is set before `r` turns out to be no element.
            obtain ⟨s₁, hok₁, hlevels⟩ := h.modify hl₀ fun x => { x with next := some r }
            have hsize : s₁.towers.size = c.size := by
              have := congrArg Array.size hlevels
              simpa [modifyLinks, SkipList.size] using this
            have hitem : Raw.item s₁ r 0 = .error (.outOfRange c.size (some r)) := by
              simp only [Raw.item, Array.getElem?_eq_none (hsize.trans_le hr), SkipList.size, hsize]
            rw [check_of_size_le hr, show maxHeight = 31 + 1 from rfl, Raw.joinFrom, h.next_eq hl₀, ok_bind,
              if_neg hn, Raw.connect, Raw.setNext, hok₁, ok_bind, Raw.prev, hitem]
            exact .error Covers _
      · rw [check_of_size_le hl, show maxHeight = 31 + 1 from rfl, Raw.joinFrom, Raw.next, h.item_of_size_le hl]
        exact .error Covers _

theorem joinAll : ∀ {seams : List Seam} {s c : SkipList}, s.Covers c →
    EndAlike Covers (Raw.joinAll s seams) (c.joinAll seams) := by
  intro seams
  induction seams with
  | nil => exact fun h => h
  | cons seam seams ih =>
    intro s c h
    exact (h.join seam.1 seam.2).bind fun s c h => ih h

theorem splitFrom : ∀ {levels k u : Nat} {s c : SkipList}, s.Covers c → k + levels = maxHeight → k < c.height u →
    EndAlike Covers (Raw.splitFrom s levels k u) (c.splitFrom levels k u) := by
  intro levels
  induction levels with
  | zero =>
    intro k u s c h hk hu
    have := h.grounded.lt_maxHeight hu
    omega
  | succ levels ih =>
    intro k u s c h hk hu
    rw [Raw.splitFrom, SkipList.splitFrom, h.next_eq hu, ok_bind]
    rcases hv : c.nextAt u k with _ | v
    · exact h
    · obtain ⟨s₁, hok₁, h₁⟩ := h.setNext hu (x := none) (by simp)
      have hv₁ : k < (c.setNext u k none).height v := by simpa using h.grounded.next_reaches u k v hv
      obtain ⟨s₂, hok₂, h₂⟩ := h₁.setPrev hv₁ (x := none) (by simp)
      have hu₂ : k < ((c.setNext u k none).setPrev v k none).height u := by simpa using hu
      simp only [hok₁, hok₂, ok_bind, h₂.leftParent_eq hu₂]
      refine .after fun up hup => ?_
      rcases up with _ | up
      · exact h₂
      · exact ih h₂ (by omega) (reaches_of_climb hup)

theorem split (h : s.Covers c) (u : Option Nat) : EndAlike (Answering Covers) (Raw.split s u) (c.split u) := by
  rcases u with _ | u
  · exact ⟨rfl, h⟩
  · rw [Raw.split, SkipList.split, h.next_zero, successor]
    rcases Nat.lt_or_ge u c.size with hu | hu
    · rw [check_of_lt hu]
      exact (splitFrom h rfl (h.grounded.height_pos u hu)).bind fun s c h => ⟨rfl, h⟩
    · rw [check_of_size_le hu]
      exact .error _ _

theorem splitAll : ∀ {us : List (Option Nat)} {s c : SkipList}, s.Covers c →
    EndAlike (Answering Covers) (Raw.splitAll s us) (c.splitAll us) := by
  intro us
  induction us with
  | nil => exact fun h => ⟨rfl, h⟩
  | cons u us ih =>
    intro s c h
    refine (h.split u).bind ?_
    rintro ⟨after, s⟩ ⟨_, c⟩ ⟨rfl, h⟩
    refine (ih h).bind ?_
    rintro ⟨others, s⟩ ⟨_, c⟩ ⟨rfl, h⟩
    exact ⟨rfl, h⟩

/-- The items below the height hold all links. -/
theorem foldl_clear (c : SkipList) (u : Nat) :
    (List.range (c.height u)).foldl (fun c k => (c.setPrev u k none).setNext u k none) c = c.detach u := by
  have hfold (n : Nat) (hn : n ≤ c.height u) :
      let d := (List.range n).foldl (fun c k => (c.setPrev u k none).setNext u k none) c
      d.layout = c.layout ∧ (∀ v j, d.nextAt v j = if v = u ∧ j < n then none else c.nextAt v j) ∧
        ∀ v j, d.prevAt v j = if v = u ∧ j < n then none else c.prevAt v j := by
    induction n with
    | zero => simp
    | succ n ih =>
      obtain ⟨hlayout, hnext, hprev⟩ := ih (Nat.le_of_succ_le hn)
      rw [List.range_succ, List.foldl_append]
      refine ⟨?_, fun v j => ?_, fun v j => ?_⟩
      · rw [List.foldl_cons, List.foldl_nil, layout_setNext, layout_setPrev, hlayout]
      · rw [List.foldl_cons, List.foldl_nil, nextAt_setNext, height_setPrev, height_of_layout hlayout, nextAt_setPrev,
          hnext]
        grind
      · rw [List.foldl_cons, List.foldl_nil, prevAt_setNext, prevAt_setPrev, height_of_layout hlayout, hprev]
        grind
  obtain ⟨hlayout, hnext, hprev⟩ := hfold (c.height u) (Nat.le_refl _)
  refine eq_of_neighbours (hlayout.trans (layout_detach c u).symm) (fun v j => ?_) fun v j => ?_
  · rw [hnext, nextAt_detach]
    have (hj : c.height u ≤ j) : c.nextAt u j = none := nextAt_of_height_le hj
    grind
  · rw [hprev, prevAt_detach]
    have (hj : c.height u ≤ j) : c.prevAt u j = none := prevAt_of_height_le hj
    grind

theorem detach (h : s.Covers c) (hu : u < c.size) : ∃ s', Raw.detach s u = .ok s' ∧ s'.Covers (c.detach u) := by
  have hstep (k : Nat) (hk : k ∈ List.range (c.height u)) (s d : SkipList) (hsd : s.Covers d ∧ d.height u = c.height u) :
      ∃ s', (do Raw.setNext (← Raw.setPrev s u k none) u k none) = .ok s' ∧
        s'.Covers ((d.setPrev u k none).setNext u k none) ∧
        ((d.setPrev u k none).setNext u k none).height u = c.height u := by
    have hk : k < d.height u := hsd.2 ▸ List.mem_range.mp hk
    obtain ⟨s₁, hok₁, h₁⟩ := hsd.1.setPrev hk (x := none) (by simp)
    obtain ⟨s₂, hok₂, h₂⟩ := h₁.setNext ((height_setPrev d u u k none).symm ▸ hk) (x := none) (by simp)
    rw [hok₁, ok_bind, hok₂]
    exact ⟨s₂, rfl, h₂, by rw [height_setNext, height_setPrev, hsd.2]⟩
  obtain ⟨s', hok, hs', -⟩ := EndAlike.exists_foldlM hstep ⟨h, rfl⟩
  rw [foldl_clear] at hs'
  refine ⟨s', ?_, hs'⟩
  rw [Raw.detach, h.heightOf_of_reaches (h.grounded.height_pos u hu), ok_bind, hok]

/-! ### Representatives and sequences -/

theorem forward_eq (h : s.Covers c) : ∀ {steps cur k : Nat} {least : Option Nat}, k < c.height cur →
    Raw.forward s steps cur k least = c.forward steps cur k least := by
  intro steps
  induction steps with
  | zero => exact fun _ => rfl
  | succ steps ih =>
    intro cur k least hk
    rw [Raw.forward, forward, h.next_eq hk, ok_bind]
    split
    · rfl
    · rcases hv : c.nextAt cur k with _ | v
      · rfl
      · have hkv := h.grounded.next_reaches cur k v hv
        simp only [h.top_of_reaches hkv, ok_bind]
        split
        · exact ih (by omega)
        · exact ih hkv

/-- The walk forward ends at an element, on a level that the element reaches. -/
theorem reaches_of_forward (h : c.Grounded) : ∀ {steps cur k : Nat} {least : Option Nat} {x : Forward},
    k < c.height cur → c.forward steps cur k least = .ok x →
      match x with
      | .closed v => 0 < c.height v
      | .ended v j => j < c.height v := by
  intro steps
  induction steps with
  | zero => exact fun _ hok => by cases hok
  | succ steps ih =>
    intro cur k least x hk hok
    rw [forward] at hok
    split at hok
    · cases hok
      exact Nat.zero_lt_of_lt hk
    · split at hok
      · cases hok
        exact hk
      · next w hw =>
        have hkw := h.next_reaches cur k w hw
        dsimp only at hok
        split at hok
        · exact ih (by omega) hok
        · exact ih hkw hok

theorem backward_eq (h : s.Covers c) : ∀ {steps cur k : Nat}, k < c.height cur →
    Raw.backward s steps cur k = c.backward steps cur k := by
  intro steps
  induction steps with
  | zero => exact fun _ => rfl
  | succ steps ih =>
    intro cur k hk
    rw [Raw.backward, backward, h.prev_eq hk, ok_bind]
    rcases hv : c.prevAt cur k with _ | v
    · rfl
    · have hkv := h.grounded.prev_reaches cur k v hv
      simp only [h.top_of_reaches hkv, ok_bind]
      exact ih (by omega)

/-- The walk backward ends at an element. -/
theorem reaches_of_backward (h : c.Grounded) : ∀ {steps cur k v : Nat}, k < c.height cur →
    c.backward steps cur k = .ok v → 0 < c.height v := by
  intro steps
  induction steps with
  | zero => exact fun _ hok => by cases hok
  | succ steps ih =>
    intro cur k v hk hok
    rw [backward] at hok
    split at hok
    · cases hok
      exact Nat.zero_lt_of_lt hk
    · next w hw =>
      have hkw := h.prev_reaches cur k w hw
      exact ih (by omega) hok

theorem representative_eq (h : s.Covers c) (u : Nat) : Raw.representative s u = c.representative u := by
  rw [Raw.representative, representative, Raw.top, h.heightOf_eq, heightOf]
  rcases Nat.lt_or_ge u c.size with hu | hu
  · have hpos := h.grounded.height_pos u hu
    have htop : subWords (c.height u) 1 = .ok (c.height u - 1) := if_pos hpos
    have hreach : c.height u - 1 < c.height u := by omega
    rw [check_of_lt hu]
    simp only [ok_bind, pure_eq_ok, htop, h.forward_eq hreach, h.size_eq]
    rcases hx : c.forward (maxHeight * (2 * c.size + 1)) u (c.height u - 1) none with e | x
    · rfl
    · rcases x with v | ⟨v, k⟩
      · rfl
      · exact h.backward_eq (reaches_of_forward h.grounded hreach hx)
  · rw [check_of_size_le hu]
    rfl

/-- What stands for a sequence is an element. -/
theorem lt_size_of_representative (h : c.Grounded) {v : Nat} (hok : c.representative u = .ok v) : v < c.size := by
  rw [representative] at hok
  rcases Nat.lt_or_ge u c.size with hu | hu
  · have hpos := h.height_pos u hu
    have hreach : c.height u - 1 < c.height u := by omega
    rw [check_of_lt hu, ok_bind] at hok
    obtain ⟨x, hx, hok⟩ := bind_eq_ok.mp hok
    have hxr := reaches_of_forward h hreach hx
    rcases x with w | ⟨w, k⟩
    · cases hok
      exact lt_size_of_height_pos hxr
    · exact lt_size_of_height_pos (reaches_of_backward h hxr hok)
  · rw [check_of_size_le hu] at hok
    cases hok

theorem sameSequence_eq (h : s.Covers c) (u v : Nat) : Raw.sameSequence s u v = c.sameSequence u v := by
  rw [Raw.sameSequence, sameSequence, h.representative_eq, h.representative_eq]

theorem firstFrom_eq (h : s.Covers c) : ∀ {steps cur : Nat}, cur < c.size →
    Raw.firstFrom s u steps cur = c.firstFrom u steps cur := by
  intro steps
  induction steps with
  | zero => exact fun _ => rfl
  | succ steps ih =>
    intro cur hcur
    rw [Raw.firstFrom, firstFrom, h.prev_eq (h.grounded.height_pos cur hcur), ok_bind]
    rcases hp : c.prevAt cur 0 with _ | p
    · rfl
    · show (if p = u then _ else _) = _
      rw [ih (lt_size_of_height_pos (h.grounded.prev_reaches cur 0 p hp))]
      rfl

theorem lt_size_of_firstFrom (h : c.Grounded) : ∀ {steps cur v : Nat}, u < c.size → cur < c.size →
    c.firstFrom u steps cur = .ok v → v < c.size := by
  intro steps
  induction steps with
  | zero => exact fun _ _ hok => by cases hok
  | succ steps ih =>
    intro cur v hu hcur hok
    rw [firstFrom] at hok
    split at hok
    · cases hok
      exact hcur
    · next p hp =>
      split at hok
      · cases hok
        exact hu
      · exact ih hu (lt_size_of_height_pos (h.prev_reaches cur 0 p hp)) hok

theorem restFrom_eq (h : s.Covers c) {first : Nat} : ∀ {steps : Nat} {cur : Option Nat},
    (∀ v, cur = some v → v < c.size) → Raw.restFrom s first steps cur = c.restFrom first steps cur := by
  intro steps
  induction steps with
  | zero =>
    intro cur _
    cases cur <;> rfl
  | succ steps ih =>
    intro cur hcur
    rcases cur with _ | v
    · rfl
    · rw [Raw.restFrom, restFrom, h.next_eq (h.grounded.height_pos v (hcur v rfl)), ok_bind,
        ih fun w hw => lt_size_of_height_pos (h.grounded.next_reaches v 0 w hw)]

theorem sequence_eq (h : s.Covers c) (u : Nat) : Raw.sequence s u = c.sequence u := by
  rw [Raw.sequence, sequence, h.check_eq, h.size_eq]
  rcases Nat.lt_or_ge u c.size with hu | hu
  · rw [h.firstFrom_eq hu]
    rcases hf : c.firstFrom u c.size u with e | first
    · rfl
    · have hfirst := lt_size_of_firstFrom h.grounded hu hu hf
      simp only [check_of_lt hu, ok_bind, h.next_eq (h.grounded.height_pos first hfirst),
        h.restFrom_eq fun w hw => lt_size_of_height_pos (h.grounded.next_reaches first 0 w hw)]
  · rw [check_of_size_le hu]
    rfl

/-! ### Requests -/

theorem ask_eq (h : s.Covers c) (query : Query) : Raw.ask s query = c.ask query := by
  cases query with
  | size => rw [Raw.ask, ask, h.size_eq]
  | height u => rw [Raw.ask, ask, h.heightOf_eq]
  | next u => rw [Raw.ask, ask, h.next_zero]
  | previous u => rw [Raw.ask, ask, h.prev_zero]
  | representative u => rw [Raw.ask, ask, h.representative_eq]
  | sameSequence u v => rw [Raw.ask, ask, h.sameSequence_eq]
  | sequence u => rw [Raw.ask, ask, h.sequence_eq]

/-- Every request is answered as if there were nothing beyond the levels. -/
theorem serve (h : s.Covers c) (r : Request) : Traced.EndAlike (Answering Covers) (Raw.serve s r) (c.serve r) := by
  cases r with
  | ask query => exact .ask h (h.ask_eq query) id
  | join l r => exact .bind (.lift (h.join l r)) fun s c h => .pure ⟨rfl, h⟩
  | split u =>
    refine .bind (.lift (h.split u)) ?_
    rintro ⟨after, s⟩ ⟨_, c⟩ ⟨rfl, h⟩
    exact .pure ⟨rfl, h⟩

end Covers

end SkipList

end TourForest
