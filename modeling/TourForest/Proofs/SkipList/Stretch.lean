import TourForest.Proofs.SkipList.Woven

/-!
# What a level skips

On level `k` an element is followed by the next one along level 0 that is taller than `k`. The
elements skipped are a `Stretch`. In a woven arena each link goes over a stretch (`Woven.stretch`)
and is matched by one back (`Woven.next_iff_prev`), so that level 0 and the heights decide about the
links of all levels (`Woven.next_congr`, `Woven.prev_congr`).
-/

namespace TourForest.SkipList

variable {s s' : SkipList} {k u v : Nat} {o e e' : Option Nat} {xs ys : List Nat}

/-- From `o` on, level 0 passes the elements `xs`, which are no taller than `k`, and then comes to
`e`, the first taller one, or to its end. -/
inductive Stretch (s : SkipList) (k : Nat) : (o : Option Nat) → (xs : List Nat) → (e : Option Nat) → Prop
  | ended : Stretch s k none [] none
  | tall {v : Nat} : k < s.height v → Stretch s k (some v) [] (some v)
  | low {v : Nat} {xs : List Nat} {e : Option Nat} : s.height v ≤ k →
      Stretch s k (s.nextAt v 0) xs e → Stretch s k (some v) (v :: xs) e

namespace Stretch

/-- There is one stretch from each place. -/
theorem unique (h : s.Stretch k o xs e) (h' : s.Stretch k o ys e') : xs = ys ∧ e = e' := by
  induction h generalizing ys e' with
  | ended =>
    cases h'
    exact ⟨rfl, rfl⟩
  | tall hv =>
    cases h' with
    | tall => exact ⟨rfl, rfl⟩
    | low hv' => omega
  | low hv _ ih =>
    cases h' with
    | tall hv' => omega
    | low _ h' =>
      obtain ⟨rfl, rfl⟩ := ih h'
      exact ⟨rfl, rfl⟩

/-- A stretch only depends on the heights and the links of its elements. -/
theorem congr_on (h : s.Stretch k o xs e) (hh : ∀ u, s'.height u = s.height u)
    (hn : ∀ u ∈ xs, s'.nextAt u 0 = s.nextAt u 0) : s'.Stretch k o xs e := by
  induction h with
  | ended => exact .ended
  | tall hv => exact .tall (hh _ ▸ hv)
  | low hv _ ih =>
    refine .low (hh _ ▸ hv) ?_
    rw [hn _ List.mem_cons_self]
    exact ih fun u hu => hn u (List.mem_cons_of_mem _ hu)

theorem congr (h : s.Stretch k o xs e) (hh : ∀ u, s'.height u = s.height u)
    (hn : ∀ u, s'.nextAt u 0 = s.nextAt u 0) : s'.Stretch k o xs e := h.congr_on hh fun u _ => hn u

theorem height_le (h : s.Stretch k o xs e) : ∀ x ∈ xs, s.height x ≤ k := by
  induction h with
  | ended => simp
  | tall => simp
  | low hv _ ih => exact List.forall_mem_cons.mpr ⟨hv, ih⟩

theorem lt_height (h : s.Stretch k o xs e) : ∀ x ∈ e, k < s.height x := by
  induction h with
  | ended => simp
  | tall hv => simpa using hv
  | low _ _ ih => exact ih

/-- From each of its elements on, a stretch is a stretch. -/
theorem of_mem (h : s.Stretch k o xs e) (hv : v ∈ xs) :
    ∃ ys, ys <:+ xs ∧ s.Stretch k (some v) ys e := by
  induction h with
  | ended => simp at hv
  | tall => simp at hv
  | @low w xs e hw hs ih =>
    rcases List.mem_cons.mp hv with rfl | hv
    · exact ⟨v :: xs, List.suffix_refl _, .low hw hs⟩
    · obtain ⟨ys, hsuf, hys⟩ := ih hv
      exact ⟨ys, hsuf.trans (List.suffix_cons w xs), hys⟩

/-- A stretch never comes back to an element, or it would not end. -/
theorem nodup (h : s.Stretch k o xs e) : xs.Nodup := by
  induction h with
  | ended => exact List.nodup_nil
  | tall => exact List.nodup_nil
  | @low v xs e hv hs ih =>
    refine List.nodup_cons.mpr ⟨fun hm => ?_, ih⟩
    obtain ⟨ys, hsuf, hys⟩ := hs.of_mem hm
    have hlen := hsuf.length_le
    rw [← (Stretch.low hv hs).unique hys |>.1, List.length_cons] at hlen
    omega

end Stretch

/-- A stretch of a higher level begins with that of a lower one. -/
theorem Stretch.split {j : Nat} (h : s.Stretch j o ys e') (h' : s.Stretch k o xs e) (hj : j ≤ k) :
    ∃ zs, xs = ys ++ zs ∧ s.Stretch k e' zs e := by
  induction h generalizing xs with
  | ended =>
    cases h'
    exact ⟨[], rfl, .ended⟩
  | tall => exact ⟨xs, rfl, h'⟩
  | low hv _ ih =>
    cases h' with
    | tall hv' => omega
    | low _ h' =>
      obtain ⟨zs, rfl, hz⟩ := ih h'
      exact ⟨zs, rfl, hz⟩

/-- A trail along level 0 that ends, or comes to a tall element, begins with a stretch. -/
theorem stretch_of_trail (h : Trail (s.nextAt · 0) xs e) (he : ∀ x ∈ e, k < s.height x) :
    ∃ ys zs, xs = ys ++ zs ∧ s.Stretch k (xs.head?.or e) ys (zs.head?.or e) ∧
      zs.head? = (s.onLevel k xs).head? := by
  induction xs with
  | nil =>
    refine ⟨[], [], rfl, ?_, rfl⟩
    cases e with
    | none => exact .ended
    | some x => exact .tall (he x rfl)
  | cons x xs ih =>
    rw [List.head?_cons, Option.some_or, onLevel_cons]
    by_cases hx : k < s.height x
    · exact ⟨[], x :: xs, rfl, .tall hx, by rw [if_pos hx]; rfl⟩
    · obtain ⟨ys, zs, rfl, hys, hz⟩ := ih h.2
      rw [if_neg hx]
      refine ⟨x :: ys, zs, rfl, .low (not_lt.mp hx) ?_, hz⟩
      rwa [show s.nextAt x 0 = (ys ++ zs).head?.or e from h.1]

/-- A stretch goes along level 0. -/
theorem Stretch.trail (h : s.Stretch k o xs e) : o = xs.head?.or e ∧ Trail (s.nextAt · 0) xs e := by
  induction h with
  | ended => simp
  | tall => simp
  | low _ _ ih => exact ⟨rfl, ih.1, ih.2⟩

/-- A stretch up to the end of its sequence is one on all higher levels. -/
theorem Stretch.of_none {j : Nat} (h : s.Stretch j o xs none) (hj : j ≤ k) : s.Stretch k o xs none := by
  generalize he : (none : Option Nat) = e at h
  induction h with
  | ended => exact .ended
  | tall => simp at he
  | low hv _ ih => exact .low (hv.trans hj) (ih he)

/-- Two stretches with an element in between that is no taller than the second one. -/
theorem Stretch.append {j : Nat} (h : s.Stretch j o ys (some v)) (hj : j ≤ k) (hv : s.height v ≤ k)
    (h' : s.Stretch k (s.nextAt v 0) xs e) : s.Stretch k o (ys ++ v :: xs) e := by
  generalize he : some v = e' at h
  induction h with
  | ended => simp at he
  | tall =>
    cases he
    exact .low hv h'
  | low hw _ ih => exact .low (hw.trans hj) (ih he)

/-- A trail of low elements to the end of level 0 is a stretch. -/
theorem stretch_of_low (h : Trail (s.nextAt · 0) xs none) (hx : ∀ x ∈ xs, s.height x ≤ k) :
    s.Stretch k xs.head? xs none := by
  induction xs with
  | nil => exact .ended
  | cons x xs ih =>
    obtain ⟨hxk, hx⟩ := List.forall_mem_cons.mp hx
    have hnext : s.nextAt x 0 = xs.head? := by simpa using h.1
    exact .low hxk (hnext ▸ ih h.2 hx)

/-- All elements of a stretch up to a tall element have successors. -/
theorem Stretch.next_ne_none (h : s.Stretch k o xs (some v)) :
    o ≠ none ∧ ∀ x ∈ xs, s.nextAt x 0 ≠ none := by
  generalize he : some v = e at h
  induction h with
  | ended => simp at he
  | tall => simp
  | low _ _ ih => exact ⟨by simp, List.forall_mem_cons.mpr ⟨(ih he).1, (ih he).2⟩⟩

/-- An element followed by nothing but a stretch is not passed by it. -/
theorem Stretch.nodup_cons (h : s.Stretch k (s.nextAt u 0) xs none) : (u :: xs).Nodup :=
  (Stretch.low (le_max_right k (s.height u)) (h.of_none (le_max_left k (s.height u)))).nodup

/-! ## Along a level -/

/-- From `o` to `e` level `k` passes some elements, which make up `xs` together with what is skipped
behind each of them. -/
inductive Blocks (s : SkipList) (k : Nat) : (o : Option Nat) → (xs : List Nat) → (e : Option Nat) → Prop
  | done {e : Option Nat} : Blocks s k e [] e
  | block {v : Nat} {ys zs : List Nat} {e : Option Nat} : k < s.height v →
      Stretch s k (s.nextAt v 0) ys (s.nextAt v k) → Blocks s k (s.nextAt v k) zs e →
      Blocks s k (some v) (v :: (ys ++ zs)) e

/-- No element of a stretch is on its level. -/
theorem Stretch.onLevel_eq_nil (h : s.Stretch k o xs e) : s.onLevel k xs = [] :=
  List.filter_eq_nil_iff.mpr fun x hx => by simpa using h.height_le x hx

theorem Stretch.onLevel_block (h : s.Stretch k o ys e) (hv : k < s.height v) (zs : List Nat) :
    s.onLevel k (v :: (ys ++ zs)) = v :: s.onLevel k zs := by
  rw [onLevel_cons, if_pos hv, onLevel_append, h.onLevel_eq_nil, List.nil_append]

namespace Woven

/-- The elements skipped by a link. -/
theorem stretch (hs : s.Woven) (hk : k < s.height u) :
    ∃ xs, s.Stretch k (s.nextAt u 0) xs (s.nextAt u k) := by
  obtain ⟨c, zs, hu, hz⟩ := hs.covered u (lt_size_of_height_pos (Nat.zero_lt_of_lt hk))
  obtain ⟨as, bs, rfl⟩ := List.append_of_mem hu
  cases c with
  | false =>
    have hf := (hz.strand_zero hs).forth
    have hl := hz.strand k
    rw [onLevel_append, onLevel_cons, if_pos hk] at hl
    obtain ⟨ys, zs, -, hy, hz⟩ := stretch_of_trail (Trail.append_iff.mp hf).2.2 (by simp)
    rw [hf.step_eq, Row.next_eq hl, ← hz]
    exact ⟨ys, hy⟩
  | true =>
    -- The cycle is listed from `u` on, so that it leads back to a tall element.
    have hz' := hz.rotate
    have hf := (hz'.strand_zero hs).forth
    have hl := hz'.strand k
    rw [List.cons_append, onLevel_cons, if_pos hk] at hl
    have hnext := Row.next_head hl
    rw [List.cons_append] at hf
    obtain ⟨ys, zs, -, hy, hz⟩ := stretch_of_trail hf.2 (by simpa using hk)
    rw [show s.nextAt u 0 = _ from hf.1, hnext, ← hz]
    exact ⟨ys, hy⟩

/-- What level 0 passes from one element of level `k` to another falls into blocks. -/
theorem blocks (hs : s.Woven) (h : Trail (s.nextAt · 0) xs e) (he : ∀ x ∈ e, k < s.height x)
    (hx : ∀ x ∈ xs.head?, k < s.height x) : s.Blocks k (xs.head?.or e) xs e := by
  induction hn : xs.length using Nat.strong_induction_on generalizing xs with
  | _ n ih =>
    cases xs with
    | nil => exact .done
    | cons v xs =>
      have hv : k < s.height v := hx v rfl
      obtain ⟨ys, zs, rfl, hy, hz⟩ := stretch_of_trail (k := k) h.2 he
      obtain ⟨ys', hy'⟩ := hs.stretch hv
      rw [← show s.nextAt v 0 = _ from h.1] at hy
      obtain ⟨rfl, hnext⟩ := hy.unique hy'
      rw [hnext] at hy
      apply Blocks.block hv hy
      rw [← hnext]
      refine ih zs.length ?_ (Trail.append_iff.mp h.2).2 (fun z hzz => ?_) rfl
      · rw [← hn, List.length_cons, List.length_append]
        omega
      · rw [hz] at hzz
        exact (mem_onLevel.mp (List.mem_of_mem_head? hzz)).2

theorem next_iff_prev (hs : s.Woven) : s.nextAt u k = some v ↔ s.prevAt v k = some u := by
  constructor
  · intro h
    have hk : k < s.height u := by
      by_contra hk
      rw [nextAt_of_height_le (not_lt.mp hk)] at h
      contradiction
    obtain ⟨c, zs, hu, hz⟩ := hs.covered u (lt_size_of_height_pos (Nat.zero_lt_of_lt hk))
    exact ((hz.strand k).prev_of_next (mem_onLevel.mpr ⟨hu, hk⟩) h).2
  · intro h
    have hk : k < s.height v := by
      by_contra hk
      rw [prevAt_of_height_le (not_lt.mp hk)] at h
      contradiction
    obtain ⟨c, zs, hv, hz⟩ := hs.covered v (lt_size_of_height_pos (Nat.zero_lt_of_lt hk))
    exact ((hz.strand k).next_of_prev (mem_onLevel.mpr ⟨hv, hk⟩) h).2

theorem lt_height_of_next (h : s.nextAt u k = some v) : k < s.height u := by
  by_contra hk
  rw [nextAt_of_height_le (not_lt.mp hk)] at h
  contradiction

theorem lt_height_of_prev (h : s.prevAt u k = some v) : k < s.height u := by
  by_contra hk
  rw [prevAt_of_height_le (not_lt.mp hk)] at h
  contradiction

/-- Each element comes after one element at most. -/
theorem next_inj (hs : s.Woven) {w : Nat} (hu : s.nextAt u k = some w) (hv : s.nextAt v k = some w) :
    u = v := by
  have := (hs.next_iff_prev.mp hu).symm.trans (hs.next_iff_prev.mp hv)
  exact Option.some_inj.mp this

/-- Level 0 and the heights decide about the links forth. -/
theorem next_congr (hs : s.Woven) (hs' : s'.Woven) (hh : ∀ u, s'.height u = s.height u)
    (hn : ∀ u, s'.nextAt u 0 = s.nextAt u 0) (u k : Nat) : s'.nextAt u k = s.nextAt u k := by
  by_cases hk : k < s.height u
  · obtain ⟨xs, hx⟩ := hs.stretch hk
    obtain ⟨ys, hy⟩ := hs'.stretch ((hh u).symm ▸ hk)
    rw [hn] at hy
    exact (hy.unique (hx.congr hh hn)).2
  · rw [nextAt_of_height_le (not_lt.mp hk), nextAt_of_height_le ((hh u).symm ▸ not_lt.mp hk)]

/-- Level 0 and the heights decide about the links back. -/
theorem prev_congr (hs : s.Woven) (hs' : s'.Woven) (hh : ∀ u, s'.height u = s.height u)
    (hn : ∀ u, s'.nextAt u 0 = s.nextAt u 0) (u k : Nat) : s'.prevAt u k = s.prevAt u k := by
  ext v
  rw [← hs.next_iff_prev, ← hs'.next_iff_prev, next_congr hs hs' hh hn]

end Woven

end TourForest.SkipList
