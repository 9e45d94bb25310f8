import Mathlib.Data.List.Basic
import TourForest.SkipList.Lemmas

/-!
# Elements in a row

The links of one level, seen as lists. A `Trail` is a list of places that are each one step from the
last; a `Row` is a list of elements linked both ways on one level, with what comes before and after
it.

* `Trail.append_iff`, `Row.append_iff`: a row in two parts is a row on either side of the seam.
* `Row.congr`: a row only depends on the links of its elements.
* `Row.rotate`: a closed row may begin anywhere.
-/

namespace TourForest.SkipList

/-! ## Trails -/

/-- Each step leads from an element of `xs` to the next one, and from the last one to `e`. -/
def Trail (step : Nat → Option Nat) : (xs : List Nat) → (e : Option Nat) → Prop
  | [], _ => True
  | x :: xs, e => step x = xs.head?.or e ∧ Trail step xs e

namespace Trail

variable {step step' : Nat → Option Nat} {xs ys : List Nat} {e e' : Option Nat} {x : Nat}

@[simp] theorem nil : Trail step [] e := trivial

@[simp] theorem cons_iff : Trail step (x :: xs) e ↔ step x = xs.head?.or e ∧ Trail step xs e := Iff.rfl

theorem append_iff :
    Trail step (xs ++ ys) e ↔ Trail step xs (ys.head?.or e) ∧ Trail step ys e := by
  induction xs with
  | nil => simp
  | cons x xs ih =>
    rw [List.cons_append, cons_iff, cons_iff, ih, List.head?_append, Option.or_assoc, and_assoc]

theorem congr (h : Trail step xs e) (hs : ∀ x ∈ xs, step' x = step x) : Trail step' xs e := by
  induction xs with
  | nil => trivial
  | cons x xs ih =>
    exact ⟨(hs x List.mem_cons_self).trans h.1, ih h.2 fun y hy => hs y (List.mem_cons_of_mem _ hy)⟩

/-- A trail that ends otherwise once the step from its last element is another one. -/
theorem change_last (h : Trail step (xs ++ [x]) e) (hs : ∀ y ∈ xs, step' y = step y)
    (hx : step' x = e') : Trail step' (xs ++ [x]) e' := by
  rw [append_iff] at h ⊢
  exact ⟨h.1.congr hs, by simp [hx]⟩

/-- Where the step from an element of a trail leads. -/
theorem step_eq (h : Trail step (xs ++ x :: ys) e) : step x = ys.head?.or e :=
  (append_iff.mp h).2.1

end Trail

/-! ## Rows -/

/-- The elements `xs` are linked in a row on level `k`, with `p` before the first and `q` after the
last. -/
structure Row (s : SkipList) (k : Nat) (p : Option Nat) (xs : List Nat) (q : Option Nat) : Prop where
  forth : Trail (s.nextAt · k) xs q
  back : Trail (s.prevAt · k) xs.reverse p

namespace Row

variable {s s' : SkipList} {k : Nat} {p q p' q' : Option Nat} {xs ys : List Nat} {x : Nat}

@[simp] theorem nil : s.Row k p [] q := ⟨trivial, trivial⟩

theorem append_iff :
    s.Row k p (xs ++ ys) q ↔ s.Row k p xs (ys.head?.or q) ∧ s.Row k (xs.getLast?.or p) ys q := by
  constructor
  · rintro ⟨hf, hb⟩
    rw [List.reverse_append] at hb
    rw [Trail.append_iff] at hf hb
    rw [List.head?_reverse] at hb
    exact ⟨⟨hf.1, hb.2⟩, hf.2, hb.1⟩
  · rintro ⟨⟨hf, hb⟩, hf', hb'⟩
    refine ⟨Trail.append_iff.mpr ⟨hf, hf'⟩, ?_⟩
    rw [List.reverse_append, Trail.append_iff, List.head?_reverse]
    exact ⟨hb', hb⟩

theorem singleton_iff : s.Row k p [x] q ↔ s.nextAt x k = q ∧ s.prevAt x k = p := by
  constructor
  · rintro ⟨hf, hb⟩
    exact ⟨by simpa using hf, by simpa using hb⟩
  · rintro ⟨hf, hb⟩
    exact ⟨by simpa using hf, by simpa using hb⟩

theorem congr (h : s.Row k p xs q)
    (hl : ∀ x ∈ xs, s'.nextAt x k = s.nextAt x k ∧ s'.prevAt x k = s.prevAt x k) :
    s'.Row k p xs q :=
  ⟨h.forth.congr fun x hx => (hl x hx).1, h.back.congr fun x hx => (hl x (List.mem_reverse.mp hx)).2⟩

/-- What comes after an element of a row. -/
theorem next_eq (h : s.Row k p (xs ++ x :: ys) q) : s.nextAt x k = ys.head?.or q := h.forth.step_eq

/-- What comes before an element of a row. -/
theorem prev_eq (h : s.Row k p (xs ++ x :: ys) q) : s.prevAt x k = xs.getLast?.or p := by
  have hb := h.back
  rw [List.reverse_append, List.reverse_cons, List.append_assoc, List.singleton_append] at hb
  rw [hb.step_eq, List.head?_reverse]

theorem next_last (h : s.Row k p (xs ++ [x]) q) : s.nextAt x k = q := h.next_eq

theorem prev_head (h : s.Row k p (x :: xs) q) : s.prevAt x k = p := by
  rw [← List.nil_append (x :: xs)] at h
  exact h.prev_eq

theorem next_head (h : s.Row k p (x :: xs) q) : s.nextAt x k = xs.head?.or q := h.forth.1

/-- Setting the link after the last element of a row. -/
theorem setNext_last (h : s.Row k p (xs ++ [x]) q) (hx : x ∉ xs) (hk : k < s.height x) :
    (s.setNext x k q').Row k p (xs ++ [x]) q' := by
  refine ⟨h.forth.change_last (fun y hy => ?_) ?_, h.back.congr fun y _ => prevAt_setNext ..⟩
  · rw [nextAt_setNext, if_neg]
    rintro ⟨rfl, -⟩
    exact hx hy
  · rw [nextAt_setNext, if_pos ⟨rfl, rfl, hk⟩]

/-- Setting the link before the first element of a row. -/
theorem setPrev_head (h : s.Row k p (x :: xs) q) (hx : x ∉ xs) (hk : k < s.height x) :
    (s.setPrev x k p').Row k p' (x :: xs) q := by
  refine ⟨h.forth.congr fun y _ => nextAt_setPrev .., ?_⟩
  have hb := h.back
  rw [List.reverse_cons] at hb ⊢
  refine hb.change_last (fun y hy => ?_) ?_
  · rw [prevAt_setPrev, if_neg]
    rintro ⟨rfl, -⟩
    exact hx (List.mem_reverse.mp hy)
  · rw [prevAt_setPrev, if_pos ⟨rfl, rfl, hk⟩]

/-- A row on level `k` does not depend on the links of elements outside it, nor on other levels. -/
theorem setNext_of_ne {j u : Nat} {v : Option Nat} (h : s.Row k p xs q) (hu : j = k → u ∉ xs) :
    (s.setNext u j v).Row k p xs q := by
  refine h.congr fun y hy => ⟨?_, prevAt_setNext ..⟩
  rw [nextAt_setNext, if_neg]
  rintro ⟨rfl, rfl, -⟩
  exact hu rfl hy

theorem setPrev_of_ne {j u : Nat} {v : Option Nat} (h : s.Row k p xs q) (hu : j = k → u ∉ xs) :
    (s.setPrev u j v).Row k p xs q := by
  refine h.congr fun y hy => ⟨nextAt_setPrev .., ?_⟩
  rw [prevAt_setPrev, if_neg]
  rintro ⟨rfl, rfl, -⟩
  exact hu rfl hy

end Row

/-! ## Open and closed rows -/

/-- The elements `xs` are all of a sequence on level `k`, in order: a cycle if it is closed, else a
chain. -/
def Strand (s : SkipList) (k : Nat) (closed : Bool) (xs : List Nat) : Prop :=
  s.Row k (bif closed then xs.getLast? else none) xs (bif closed then xs.head? else none)

namespace Strand

variable {s s' : SkipList} {k : Nat} {closed : Bool} {xs ys : List Nat} {x y : Nat}

theorem open_iff : s.Strand k false xs ↔ s.Row k none xs none := Iff.rfl

theorem closed_iff : s.Strand k true xs ↔ s.Row k xs.getLast? xs xs.head? := Iff.rfl

@[simp] theorem nil : s.Strand k closed [] := Row.nil

theorem congr (h : s.Strand k closed xs)
    (hl : ∀ x ∈ xs, s'.nextAt x k = s.nextAt x k ∧ s'.prevAt x k = s.prevAt x k) :
    s'.Strand k closed xs := Row.congr h hl

/-- A cycle may be listed from any of its elements on. -/
theorem rotate (h : s.Strand k true (xs ++ ys)) : s.Strand k true (ys ++ xs) := by
  by_cases hx : xs = []
  · simpa [hx] using h
  by_cases hy : ys = []
  · simpa [hy] using h
  have hor (zs : List Nat) (o : Option Nat) (hz : zs ≠ []) :
      zs.head?.or o = zs.head? ∧ zs.getLast?.or o = zs.getLast? := by
    rw [List.head?_eq_some_head hz, List.getLast?_eq_some_getLast hz]
    exact ⟨Option.some_or, Option.some_or⟩
  rw [closed_iff, Row.append_iff, List.getLast?_append, List.head?_append] at h ⊢
  rw [(hor xs _ hx).1, (hor ys _ hy).1, (hor xs _ hx).2, (hor ys _ hy).2] at h ⊢
  exact ⟨h.2, h.1⟩

/-- Links forth and back belong together. -/
theorem prev_of_next (h : s.Strand k closed xs) (hx : x ∈ xs) (hn : s.nextAt x k = some y) :
    y ∈ xs ∧ s.prevAt y k = some x := by
  obtain ⟨as, bs, rfl⟩ := List.append_of_mem hx
  rcases bs with _ | ⟨b, bs⟩
  · have hq := Row.next_eq h
    rw [hn, List.head?_nil, Option.none_or] at hq
    cases closed with
    | false => simp at hq
    | true =>
      rw [cond_true] at hq
      obtain ⟨cs, hcs⟩ := List.head?_eq_some_iff.mp hq.symm
      refine ⟨List.mem_of_mem_head? hq.symm, ?_⟩
      have h' := h
      rw [hcs] at h'
      have hp := Row.prev_head h'
      rw [← hcs] at hp
      simpa using hp
  · have hq := Row.next_eq h
    rw [hn, List.head?_cons, Option.some_or, Option.some_inj] at hq
    subst hq
    refine ⟨by simp, ?_⟩
    rw [Strand, List.append_cons] at h
    simpa using h.prev_eq

theorem next_of_prev (h : s.Strand k closed xs) (hx : x ∈ xs) (hp : s.prevAt x k = some y) :
    y ∈ xs ∧ s.nextAt y k = some x := by
  obtain ⟨as, bs, rfl⟩ := List.append_of_mem hx
  rcases as.eq_nil_or_concat with rfl | ⟨as, a, rfl⟩
  · have hq := Row.prev_eq h
    rw [hp, List.getLast?_nil, Option.none_or] at hq
    cases closed with
    | false => simp at hq
    | true =>
      rw [cond_true] at hq
      obtain ⟨cs, hcs⟩ := List.getLast?_eq_some_iff.mp hq.symm
      refine ⟨List.mem_of_getLast? hq.symm, ?_⟩
      have h' := h
      rw [hcs] at h'
      have hn := Row.next_last h'
      rw [← hcs] at hn
      simpa using hn
  · have hq := Row.prev_eq h
    rw [hp, List.concat_eq_append, List.getLast?_concat, Option.some_or, Option.some_inj] at hq
    subst hq
    refine ⟨by simp, ?_⟩
    rw [Strand, List.concat_eq_append, List.append_assoc] at h
    simpa using h.next_eq

end Strand

end TourForest.SkipList
