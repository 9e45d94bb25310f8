import Mathlib.Data.List.Nodup
import Mathlib.Data.List.Perm.Subperm
import TourForest.Proofs.Outcome
import TourForest.Proofs.SkipList.Row
import TourForest.SkipList.Splice

/-!
# Sequences on all levels

A sequence is a list of elements whose members on each level, in the same order, are all linked on
that level (`IsSequence`). `Altered` says which elements an operation leaves alone. Climbing along a
row finds the nearest element that reaches the next level:

* `leftParent_eq`: the last one up to the element where the climb begins;
* `rightParent_eq`: the first one from there on.
-/

namespace TourForest.SkipList

variable {s s' s'' : SkipList}

/-! ## The elements on a level -/

/-- The elements of `xs` that reach level `k`. -/
def onLevel (s : SkipList) (k : Nat) (xs : List Nat) : List Nat := xs.filter (k < s.height ·)

section

variable {j k u : Nat} {xs ys : List Nat}

@[simp] theorem onLevel_nil : s.onLevel k [] = [] := rfl

@[simp] theorem onLevel_append : s.onLevel k (xs ++ ys) = s.onLevel k xs ++ s.onLevel k ys :=
  List.filter_append ..

theorem onLevel_cons :
    s.onLevel k (u :: xs) = if k < s.height u then u :: s.onLevel k xs else s.onLevel k xs := by
  simp [onLevel, List.filter_cons]

@[simp] theorem mem_onLevel : u ∈ s.onLevel k xs ↔ u ∈ xs ∧ k < s.height u := by
  simp [onLevel]

theorem onLevel_reverse : s.onLevel k xs.reverse = (s.onLevel k xs).reverse := List.filter_reverse ..

theorem onLevel_congr (h : ∀ u, s'.height u = s.height u) : s'.onLevel k xs = s.onLevel k xs :=
  List.filter_congr fun x _ => by rw [h]

theorem onLevel_onLevel (h : j ≤ k) : s.onLevel k (s.onLevel j xs) = s.onLevel k xs := by
  rw [onLevel, onLevel, List.filter_filter]
  refine List.filter_congr fun x _ => ?_
  simp only [← Bool.decide_and, decide_eq_decide]
  omega

theorem onLevel_eq_nil_of_le (h : j ≤ k) (hj : s.onLevel j xs = []) : s.onLevel k xs = [] := by
  rw [← onLevel_onLevel h, hj, onLevel_nil]

/-- The first element on a level is found from the elements one level below. -/
theorem find?_onLevel :
    (s.onLevel k xs).find? (k + 1 < s.height ·) = (s.onLevel (k + 1) xs).head? := by
  rw [← onLevel_onLevel (Nat.le_succ k), onLevel, onLevel, List.head?_filter]

end

/-! ## Sequences -/

/-- The elements `xs` are a sequence in this order, on all levels: a cycle if it is closed, else a
chain. -/
structure IsSequence (s : SkipList) (closed : Bool) (xs : List Nat) : Prop where
  nodup : xs.Nodup
  lt_size : ∀ x ∈ xs, x < s.size
  strand : ∀ k, s.Strand k closed (s.onLevel k xs)

/-- Lists of distinct elements are no longer than the arena. -/
theorem length_le_size {xs : List Nat} (hn : xs.Nodup) (hs : ∀ x ∈ xs, x < s.size) :
    xs.length ≤ s.size := by
  have := (List.subperm_of_subset hn fun x hx => List.mem_range.mpr (hs x hx)).length_le
  simpa using this

/-- The links of elements outside `xs` are in `s'` as they are in `s`. So are all heights. -/
structure Altered (s : SkipList) (xs : List Nat) (s' : SkipList) : Prop where
  size : s'.size = s.size
  height : ∀ u, s'.height u = s.height u
  next : ∀ u ∉ xs, ∀ k, s'.nextAt u k = s.nextAt u k
  prev : ∀ u ∉ xs, ∀ k, s'.prevAt u k = s.prevAt u k

namespace Altered

variable {xs ys : List Nat} {u k : Nat} {v : Option Nat}

theorem refl (s : SkipList) (xs : List Nat) : s.Altered xs s :=
  ⟨rfl, fun _ => rfl, fun _ _ _ => rfl, fun _ _ _ => rfl⟩

theorem trans (h : s.Altered xs s') (h' : s'.Altered xs s'') : s.Altered xs s'' :=
  ⟨h'.size.trans h.size, fun u => (h'.height u).trans (h.height u),
    fun u hu k => (h'.next u hu k).trans (h.next u hu k),
    fun u hu k => (h'.prev u hu k).trans (h.prev u hu k)⟩

theorem setNext (h : s.Altered xs s') (hu : u ∈ xs) : s.Altered xs (s'.setNext u k v) := by
  refine h.trans ⟨size_setNext .., fun _ => height_setNext .., fun w hw j => ?_, fun _ _ _ => prevAt_setNext ..⟩
  rw [nextAt_setNext, if_neg]
  rintro ⟨rfl, -⟩
  exact hw hu

theorem setPrev (h : s.Altered xs s') (hu : u ∈ xs) : s.Altered xs (s'.setPrev u k v) := by
  refine h.trans ⟨size_setPrev .., fun _ => height_setPrev .., fun _ _ _ => nextAt_setPrev .., fun w hw j => ?_⟩
  rw [prevAt_setPrev, if_neg]
  rintro ⟨rfl, -⟩
  exact hw hu

end Altered

namespace IsSequence

variable {closed : Bool} {xs ys : List Nat}

/-- A sequence whose elements are left alone stays one. -/
theorem of_altered (h : s.IsSequence closed xs) (ha : s.Altered ys s') (hd : xs.Disjoint ys) :
    s'.IsSequence closed xs := by
  refine ⟨h.nodup, fun x hx => ha.size ▸ h.lt_size x hx, fun k => ?_⟩
  rw [onLevel_congr ha.height]
  exact (h.strand k).congr fun x hx =>
    have hx' : x ∉ ys := fun hy => hd (mem_onLevel.mp hx).1 hy
    ⟨ha.next x hx' k, ha.prev x hx' k⟩

theorem rotate (h : s.IsSequence true (xs ++ ys)) : s.IsSequence true (ys ++ xs) := by
  refine ⟨List.nodup_append_comm.mp h.nodup, fun x hx => h.lt_size x ?_, fun k => ?_⟩
  · rw [List.mem_append] at hx ⊢
    exact hx.symm
  · have := h.strand k
    rw [onLevel_append] at this ⊢
    exact this.rotate

end IsSequence

/-! ## Climbing -/

/-- A climb finds the first element on its trail that is tall enough. -/
theorem climb_eq {step : Nat → Option Nat} {start k cur steps : Nat} {ys : List Nat} {e : Option Nat}
    (he : e = none ∨ e = some start) (h : Trail step (cur :: ys) e) (hs : start ∉ ys)
    (hl : ys.length < steps) :
    s.climb step start k steps cur = .ok ((cur :: ys).find? (k + 1 < s.height ·)) := by
  induction ys generalizing cur steps with
  | nil =>
    obtain ⟨steps, rfl⟩ := Nat.exists_eq_add_one_of_ne_zero (Nat.ne_zero_of_lt hl)
    have hstep : step cur = e := by simpa using h
    rw [climb, hstep]
    by_cases hk : k + 1 < s.height cur
    · simp [hk]
    · rcases he with rfl | rfl <;> simp [hk]
  | cons y ys ih =>
    obtain ⟨steps, rfl⟩ := Nat.exists_eq_add_one_of_ne_zero (Nat.ne_zero_of_lt hl)
    obtain ⟨hstep, hrest⟩ := Trail.cons_iff.mp h
    rw [List.head?_cons, Option.some_or] at hstep
    rw [climb, hstep]
    by_cases hk : k + 1 < s.height cur
    · simp [hk]
    · have hy : y ≠ start := fun hy => hs (hy ▸ List.mem_cons_self)
      rw [if_neg hk, List.find?_cons_of_neg (by simpa using hk)]
      simp only [if_neg hy]
      exact ih hrest (fun hm => hs (List.mem_cons_of_mem _ hm)) (by simpa using hl)

section

variable {k u : Nat} {p q : Option Nat} {xs ys : List Nat}

/-- The left parent is the last element of the next level in the row that ends with `u`. -/
theorem leftParent_eq (h : s.Row k p (s.onLevel k xs) q) (hu : (s.onLevel k xs).getLast? = some u)
    (hp : p = none ∨ p = some u) (hn : xs.Nodup) (hs : ∀ x ∈ xs, x < s.size) :
    s.leftParent u k = .ok (s.onLevel (k + 1) xs).getLast? := by
  obtain ⟨as, has⟩ := List.getLast?_eq_some_iff.mp hu
  have hn' : (as ++ [u]).Nodup := has ▸ hn.filter _
  have hlen : (as ++ [u]).length ≤ s.size :=
    length_le_size hn' fun x hx => hs x (mem_onLevel.mp (has ▸ hx)).1
  have hb := h.back
  have hrev : (s.onLevel k xs).reverse = u :: as.reverse := by simp [has]
  rw [hrev] at hb
  rw [leftParent, climb_eq hp hb, ← hrev, ← onLevel_reverse, find?_onLevel, onLevel_reverse,
    List.head?_reverse]
  · intro hm
    exact (List.nodup_append.mp hn').2.2 u (List.mem_reverse.mp hm) u (List.mem_singleton_self u) rfl
  · simpa [Nat.succ_le_iff] using hlen

/-- The right parent is the first element of the next level in the row that begins with `u`. -/
theorem rightParent_eq (h : s.Row k p (s.onLevel k xs) q) (hu : (s.onLevel k xs).head? = some u)
    (hq : q = none ∨ q = some u) (hn : xs.Nodup) (hs : ∀ x ∈ xs, x < s.size) :
    s.rightParent u k = .ok (s.onLevel (k + 1) xs).head? := by
  obtain ⟨as, has⟩ := List.head?_eq_some_iff.mp hu
  have hn' : (u :: as).Nodup := has ▸ hn.filter _
  have hlen : (u :: as).length ≤ s.size :=
    length_le_size hn' fun x hx => hs x (mem_onLevel.mp (has ▸ hx)).1
  have hf := h.forth
  rw [has] at hf
  rw [rightParent, climb_eq hq hf (List.nodup_cons.mp hn').1 (by simpa [Nat.succ_le_iff] using hlen), ← has,
    find?_onLevel]

end

end TourForest.SkipList
