import TourForest.Proofs.SkipList.Stretch
import TourForest.SkipList.Sequence

/-!
# Listing a sequence

`sequence` goes back to the first element of a chain, or once around a cycle, and then lists the
elements forward: `Woven.sequence` says that it lists the sequence of the element it is asked about,
from that element on if it is a cycle.
-/

namespace TourForest.SkipList

variable {s : SkipList} {u cur first steps : Nat} {xs ys : List Nat} {e : Option Nat}

/-- Back along a chain to its first element. -/
theorem firstFrom_of_open (h : Trail (s.prevAt · 0) (cur :: ys) none) (hu : u ∉ ys)
    (hl : ys.length < steps) : s.firstFrom u steps cur = .ok ((cur :: ys).getLast (by simp)) := by
  induction ys generalizing cur steps with
  | nil =>
    obtain ⟨steps, rfl⟩ := Nat.exists_eq_add_one_of_ne_zero (Nat.ne_zero_of_lt hl)
    have hp : s.prevAt cur 0 = none := by simpa using h
    simp [firstFrom, hp]
  | cons y ys ih =>
    obtain ⟨steps, rfl⟩ := Nat.exists_eq_add_one_of_ne_zero (Nat.ne_zero_of_lt hl)
    have hp : s.prevAt cur 0 = some y := by simpa using h.1
    have hy : y ≠ u := fun e => hu (e ▸ List.mem_cons_self)
    rw [firstFrom, hp]
    simp only [if_neg hy]
    rw [ih h.2 (fun hm => hu (List.mem_cons_of_mem _ hm)) (by simpa using hl)]
    simp

/-- Back around a cycle. -/
theorem firstFrom_of_closed (h : Trail (s.prevAt · 0) (cur :: ys) (some u)) (hu : u ∉ ys)
    (hl : ys.length < steps) : s.firstFrom u steps cur = .ok u := by
  induction ys generalizing cur steps with
  | nil =>
    obtain ⟨steps, rfl⟩ := Nat.exists_eq_add_one_of_ne_zero (Nat.ne_zero_of_lt hl)
    have hp : s.prevAt cur 0 = some u := by simpa using h
    simp [firstFrom, hp]
  | cons y ys ih =>
    obtain ⟨steps, rfl⟩ := Nat.exists_eq_add_one_of_ne_zero (Nat.ne_zero_of_lt hl)
    have hp : s.prevAt cur 0 = some y := by simpa using h.1
    have hy : y ≠ u := fun e => hu (e ▸ List.mem_cons_self)
    rw [firstFrom, hp]
    simp only [if_neg hy]
    exact ih h.2 (fun hm => hu (List.mem_cons_of_mem _ hm)) (by simpa using hl)

/-- Forward until the level ends or leads back. -/
theorem restFrom_eq (he : e = none ∨ e = some first) (h : Trail (s.nextAt · 0) ys e)
    (hf : first ∉ ys) (hl : ys.length < steps) : s.restFrom first steps (ys.head?.or e) = .ok ys := by
  induction ys generalizing steps with
  | nil =>
    obtain ⟨steps, rfl⟩ := Nat.exists_eq_add_one_of_ne_zero (Nat.ne_zero_of_lt hl)
    rcases he with rfl | rfl <;> simp [restFrom]
  | cons y ys ih =>
    obtain ⟨steps, rfl⟩ := Nat.exists_eq_add_one_of_ne_zero (Nat.ne_zero_of_lt hl)
    have hy : y ≠ first := fun e => hf (e ▸ List.mem_cons_self)
    rw [List.head?_cons, Option.some_or, restFrom, if_neg hy, show s.nextAt y 0 = _ from h.1,
      ih h.2 (fun hm => hf (List.mem_cons_of_mem _ hm)) (by simpa using hl)]
    rfl

/-- A chain is listed from its first element on. -/
theorem Woven.sequence_of_open (hs : s.Woven) (hx : s.IsSequence false xs) (hux : u ∈ xs) : s.sequence u = .ok xs := by
  obtain ⟨as, bs, rfl⟩ := List.append_of_mem hux
  have hu := hx.lt_size u hux
  have hrow : s.Row 0 none (as ++ u :: bs) none := hx.strand_zero hs
  have hlen := length_le_size hx.nodup hx.lt_size
  have hb := hrow.back
  rw [List.reverse_append, List.reverse_cons, List.append_assoc, List.singleton_append,
    Trail.append_iff] at hb
  have hua : u ∉ as.reverse := fun hm =>
    (List.nodup_append'.mp hx.nodup).2.2 (List.mem_reverse.mp hm) List.mem_cons_self
  have hlt : as.length < s.size := by
    rw [List.length_append, List.length_cons] at hlen
    omega
  have hfirst := firstFrom_of_open hb.2 hua (by simpa using hlt : _ < s.size)
  obtain ⟨first, rest, hsplit⟩ : ∃ first rest, as ++ u :: bs = first :: rest := by
    cases as <;> simp
  have hgl : (u :: as.reverse).getLast (by simp) = first := by
    cases as with
    | nil => simpa using (List.cons.inj hsplit).1
    | cons a as => simpa using (List.cons.inj hsplit).1
  rw [hgl] at hfirst
  rw [hsplit] at hrow hx hlen ⊢
  have hrest := restFrom_eq (.inl rfl) hrow.forth.2 (List.nodup_cons.mp hx.nodup).1
    (by rw [List.length_cons] at hlen; omega : _ < s.size)
  rw [SkipList.sequence, check_of_lt hu, ok_bind, hfirst, ok_bind, show s.nextAt first 0 = _ from hrow.forth.1,
    hrest]
  rfl

/-- A cycle is listed from the element on that is asked. -/
theorem Woven.sequence_of_closed (hs : s.Woven) (hx : s.IsSequence true (u :: ys)) :
    s.sequence u = .ok (u :: ys) := by
  have hrow : s.Row 0 _ (u :: ys) (some u) := hx.strand_zero hs
  have hlen := length_le_size hx.nodup hx.lt_size
  rw [List.length_cons] at hlen
  obtain ⟨huy, -⟩ := List.nodup_cons.mp hx.nodup
  have hrest := restFrom_eq (.inr rfl) hrow.forth.2 huy (by omega : _ < s.size)
  have hback : Trail (s.prevAt · 0) (u :: ys.reverse) (some u) := by
    have hb := hrow.back
    rw [List.reverse_cons, Trail.append_iff] at hb
    refine ⟨?_, by simpa using hb.1⟩
    refine (hb.2.1 : s.prevAt u 0 = _).trans ?_
    rw [List.head?_reverse]
    cases ys <;> simp [List.getLast?_cons]
  have hfirst := firstFrom_of_closed hback (fun hm => huy (List.mem_reverse.mp hm))
    (by rw [List.length_reverse]; omega : _ < s.size)
  rw [SkipList.sequence, check_of_lt (hx.lt_size u List.mem_cons_self), ok_bind, hfirst, ok_bind,
    show s.nextAt u 0 = _ from hrow.forth.1, hrest]
  rfl

theorem Woven.sequence_of_head (hs : s.Woven) (hx : s.IsSequence true xs) (hu : u ∈ xs.head?) :
    s.sequence u = .ok xs := by
  obtain ⟨ys, rfl⟩ := List.head?_eq_some_iff.mp hu
  exact hs.sequence_of_closed hx

/-- The sequence of an element, in order: from the first element of a chain on, or from the element
itself around a cycle. -/
theorem Woven.sequence (hs : s.Woven) (hu : u < s.size) :
    ∃ closed xs, s.sequence u = .ok xs ∧ u ∈ xs ∧ s.IsSequence closed xs ∧
      (closed = true → xs.head? = some u) := by
  obtain ⟨c, xs, hux, hx⟩ := hs.covered u hu
  cases c with
  | false => exact ⟨false, xs, hs.sequence_of_open hx hux, hux, hx, fun h => nomatch h⟩
  | true =>
    obtain ⟨as, bs, rfl⟩ := List.append_of_mem hux
    have hx' := hx.rotate
    rw [List.cons_append] at hx'
    exact ⟨true, _, hs.sequence_of_closed hx', List.mem_cons_self, hx', fun _ => rfl⟩

/-- An element without neighbours is a sequence of its own. -/
theorem Woven.sequence_of_alone (hs : s.Woven) (hu : u < s.size) (hn : s.nextAt u 0 = none)
    (hp : s.prevAt u 0 = none) : s.sequence u = .ok [u] := by
  obtain ⟨closed, xs, hok, hux, hx, -⟩ := hs.sequence hu
  obtain ⟨-, hlast⟩ := hx.of_next_eq_none hs hux hn
  obtain ⟨-, hhead⟩ := hx.of_prev_eq_none hs hux hp
  obtain ⟨ys, rfl⟩ := List.head?_eq_some_iff.mp hhead
  -- What occurs once is not both the first and the last of two or more.
  rcases List.eq_nil_or_concat ys with rfl | ⟨ys, l, rfl⟩
  · exact hok
  · rw [List.concat_eq_append, ← List.cons_append, List.getLast?_concat, Option.some.injEq] at hlast
    subst hlast
    exact absurd hx.nodup (by simp)

end TourForest.SkipList
