import TourForest.Proofs.SumList.Batch
import TourForest.Proofs.SumList.Layout

/-!
# What a change leaves alone

Level 0 decides which elements are a sequence (`Woven.isSequence_of_trail`), and a sequence decides about the
links of its elements on all levels (`IsSequence.links_eq`). So a change to the successors of some elements on
level 0 leaves all links and all sums of the others alone, if no sequence, neither before nor after it, has
elements of both kinds (`Sound.sameOff`).
-/

namespace TourForest

namespace SkipList

variable {s s' : SkipList} {closed : Bool} {u v k : Nat} {xs ys X Y : List Nat}

/-- From one place on, two trails are the same, if neither passes the end of the other. -/
theorem Trail.unique {step : Nat → Option Nat} {e e' : Option Nat} (h : Trail step xs e) (h' : Trail step ys e')
    (hstart : xs.head?.or e = ys.head?.or e') (he : ∀ a ∈ e, a ∉ ys) (he' : ∀ a ∈ e', a ∉ xs) :
    xs = ys ∧ e = e' := by
  induction xs generalizing ys with
  | nil =>
    cases ys with
    | nil => exact ⟨rfl, by simpa using hstart⟩
    | cons y ys =>
      have hy : e = some y := by simpa using hstart
      exact absurd List.mem_cons_self (he y hy)
  | cons x xs ih =>
    cases ys with
    | nil =>
      have hx : e' = some x := by simpa using hstart.symm
      exact absurd List.mem_cons_self (he' x hx)
    | cons y ys =>
      obtain rfl : x = y := by simpa using hstart
      obtain ⟨rfl, rfl⟩ := ih h.2 h'.2 (h.1.symm.trans h'.1) (fun a ha hm => he a ha (List.mem_cons_of_mem _ hm))
        fun a ha hm => he' a ha (List.mem_cons_of_mem _ hm)
      exact ⟨rfl, rfl⟩

/-- Elements that lead from one to the next on level 0, and either back to the first or from one that nothing
is before to one that nothing is behind, are a sequence. -/
theorem Woven.isSequence_of_trail (hs : s.Woven) (hu : u < s.size)
    (ht : Trail (s.nextAt · 0) (u :: xs) (bif closed then some u else none)) (hux : u ∉ xs)
    (hp : closed = false → s.prevAt u 0 = none) : s.IsSequence closed (u :: xs) := by
  obtain ⟨c, zs, huz, hz⟩ := hs.covered u hu
  cases closed with
  | false =>
    obtain ⟨rfl, hhead⟩ := hz.of_prev_eq_none hs huz (hp rfl)
    obtain ⟨bs, rfl⟩ := List.head?_eq_some_iff.mp hhead
    have hforth : Trail (s.nextAt · 0) (u :: bs) none := (hz.strand_zero hs).forth
    obtain ⟨rfl, -⟩ := ht.2.unique hforth.2 (ht.1.symm.trans hforth.1) (by simp) (by simp)
    exact hz
  | true =>
    obtain ⟨as, bs, rfl⟩ := List.append_of_mem huz
    have hn := hz.nodup
    cases c with
    | true =>
      have hz' := hz.rotate
      rw [List.cons_append] at hz'
      have hforth : Trail (s.nextAt · 0) (u :: (bs ++ as)) (some u) := (hz'.strand_zero hs).forth
      have hun := (List.nodup_cons.mp hz'.nodup).1
      obtain ⟨rfl, -⟩ := ht.2.unique hforth.2 (ht.1.symm.trans hforth.1) (by simpa using hun) (by simpa using hux)
      exact hz'
    | false =>
      have hforth : Trail (s.nextAt · 0) (u :: bs) none := (Trail.append_iff.mp (hz.strand_zero hs).forth).2
      have hun := (List.nodup_cons.mp (List.nodup_append'.mp hz.nodup).2.1).1
      obtain ⟨-, he⟩ := ht.2.unique hforth.2 (ht.1.symm.trans hforth.1) (by simpa using hun) (by simp)
      cases he

/-- Elements in a row become a cycle if the last one is led back to the first. -/
theorem Woven.isSequence_of_row {e : Option Nat} {l : Nat} (hs' : s'.Woven) (ht : Trail (s.nextAt · 0) (xs ++ [l]) e)
    (hn : (xs ++ [l]).Nodup) (hlt : ∀ x ∈ xs ++ [l], x < s'.size)
    (hkept : ∀ x ∈ xs, ∀ y ∈ xs ++ [l], s.nextAt x 0 = some y → s'.nextAt x 0 = some y)
    (hback : s'.nextAt l 0 = (xs ++ [l]).head?) : s'.IsSequence true (xs ++ [l]) := by
  have ht' : Trail (s'.nextAt · 0) (xs ++ [l]) (xs ++ [l]).head? := by
    refine ht.change_last (fun x hx => ?_) hback
    obtain ⟨as, bs, rfl⟩ := List.append_of_mem hx
    rw [List.append_assoc, List.cons_append] at ht
    obtain ⟨y, hy⟩ : ∃ y, (bs ++ [l]).head? = some y := by cases bs <;> simp
    have hxy : s.nextAt x 0 = some y := by rw [ht.step_eq, hy, Option.some_or]
    have hmem : y ∈ as ++ x :: bs ++ [l] := by
      rw [List.append_assoc, List.cons_append]
      exact List.mem_append_right _ (List.mem_cons_of_mem _ (List.mem_of_head? hy))
    exact (hkept x hx y hmem hxy).trans hxy.symm
  obtain ⟨r, ys, hr⟩ : ∃ r ys, xs ++ [l] = r :: ys := by cases xs <;> simp
  rw [hr] at ht' hn hlt ⊢
  exact hs'.isSequence_of_trail (hlt r List.mem_cons_self) ht' (List.nodup_cons.mp hn).1 nofun

/-- A sequence and the heights decide about the links of its elements. -/
theorem IsSequence.links_eq (h : s.IsSequence closed xs) (h' : s'.IsSequence closed xs)
    (hh : ∀ u, s'.height u = s.height u) (hu : u ∈ xs) (hk : k < s.height u) :
    s'.nextAt u k = s.nextAt u k ∧ s'.prevAt u k = s.prevAt u k := by
  obtain ⟨as, bs, hlevel⟩ := List.append_of_mem (mem_onLevel.mpr ⟨hu, hk⟩)
  have hrow := h.strand k
  have hrow' := h'.strand k
  rw [onLevel_congr hh] at hrow'
  rw [Strand, hlevel] at hrow hrow'
  exact ⟨hrow'.next_eq.trans hrow.next_eq.symm, hrow'.prev_eq.trans hrow.prev_eq.symm⟩

/-- A sequence stays one if level 0 stays as it is at its elements. -/
theorem IsSequence.of_unchanged (h : s.IsSequence closed xs) (hs : s.Woven) (hs' : s'.Woven) (hsize : s'.size = s.size)
    (hnext : ∀ x ∈ xs, s'.nextAt x 0 = s.nextAt x 0) (hprev : ∀ x ∈ xs, s'.prevAt x 0 = s.prevAt x 0) :
    s'.IsSequence closed xs := by
  cases xs with
  | nil => exact ⟨h.nodup, by simp, fun k => by simp⟩
  | cons u xs =>
    have hrow := h.strand_zero hs
    refine hs'.isSequence_of_trail (hsize ▸ h.lt_size u List.mem_cons_self) (hrow.forth.congr hnext)
      (List.nodup_cons.mp h.nodup).1 fun hc => ?_
    subst hc
    rw [hprev u List.mem_cons_self]
    exact Row.prev_head hrow

/-- Each sequence is either off `X` or in it. -/
def Encloses (s : SkipList) (X : List Nat) : Prop :=
  ∀ c xs, s.IsSequence c xs → xs.Disjoint X ∨ xs ⊆ X

theorem IsSequence.encloses (h : s.IsSequence closed xs) (hs : s.Woven) : s.Encloses xs :=
  fun _ _ hy => hs.disjoint_or_subset h hy

/-- An element without neighbours is off all other sequences. -/
theorem Woven.encloses_of_alone (hs : s.Woven) (hu : u < s.size) (hn : s.nextAt u 0 = none)
    (hp : s.prevAt u 0 = none) : s.Encloses [u] :=
  have hchain : s.IsSequence false [u] := hs.isSequence_of_trail hu ⟨hn, trivial⟩ List.not_mem_nil fun _ => hp
  hchain.encloses hs

namespace Encloses

theorem append (h : s.Encloses X) (h' : s.Encloses Y) : s.Encloses (X ++ Y) := by
  intro c xs hx
  rcases h c xs hx with hd | hsub
  · rcases h' c xs hx with hd' | hsub
    · exact .inl (List.disjoint_append_right.mpr ⟨hd, hd'⟩)
    · exact .inr fun x hm => List.mem_append_right _ (hsub hm)
  · exact .inr fun x hm => List.mem_append_left _ (hsub hm)

theorem congr (h : s.Encloses X) (hXY : ∀ x, x ∈ X ↔ x ∈ Y) : s.Encloses Y := fun c xs hx =>
  (h c xs hx).imp (fun hd _ hm hy => hd hm ((hXY _).mpr hy)) fun hsub _ hm => (hXY _).mp (hsub hm)

/-- Level 0 leads neither into `X` nor out of it. -/
theorem mem_iff (h : s.Encloses X) (hs : s.Woven) (huv : s.nextAt u 0 = some v) : u ∈ X ↔ v ∈ X := by
  have hu : u < s.size := lt_size_of_height_pos (Nat.zero_lt_of_lt (Woven.lt_height_of_next huv))
  obtain ⟨c, xs, hux, hx⟩ := hs.covered u hu
  obtain ⟨hvx, -⟩ := (hx.strand_zero hs).prev_of_next hux huv
  rcases h c xs hx with hd | hsub
  · exact ⟨fun hm => absurd hm (hd hux), fun hm => absurd hm (hd hvx)⟩
  · exact ⟨fun _ => hsub hvx, fun _ => hsub hux⟩

end Encloses

section

variable (hs : s.Woven) (hs' : s'.Woven) (hX : s.Encloses X) (hX' : s'.Encloses X)
  (hnext : ∀ x ∉ X, s'.nextAt x 0 = s.nextAt x 0)
include hs hs' hX hX' hnext

/-- Where level 0 changes within `X` alone, off `X` nothing gets another predecessor. -/
theorem Woven.prev_off (hv : v ∉ X) : s'.prevAt v 0 = s.prevAt v 0 := by
  refine Option.ext fun u => ?_
  rw [← hs.next_iff_prev, ← hs'.next_iff_prev]
  by_cases hu : u ∈ X
  · exact ⟨fun h => absurd ((hX'.mem_iff hs' h).mp hu) hv, fun h => absurd ((hX.mem_iff hs h).mp hu) hv⟩
  · rw [hnext u hu]

/-- Off `X`, sequences stay as they are. -/
theorem Woven.sequence_off (hsize : s'.size = s.size) (hu : u ∉ X) (hlt : u < s.size) :
    ∃ c xs, u ∈ xs ∧ xs.Disjoint X ∧ s.IsSequence c xs ∧ s'.IsSequence c xs := by
  obtain ⟨c, xs, hux, hx⟩ := hs.covered u hlt
  have hd : xs.Disjoint X := (hX c xs hx).resolve_right fun hsub => hu (hsub hux)
  exact ⟨c, xs, hux, hd, hx, hx.of_unchanged hs hs' hsize (fun x hm => hnext x (hd hm))
    fun x hm => hs.prev_off hs' hX hX' hnext (hd hm)⟩

end

end SkipList

namespace SumList

variable {a a' : SumList} {X : List Nat}

/-- Off the elements `X`, all links and all values are the same. -/
structure SameOff (a a' : SumList) (X : List Nat) : Prop where
  next : ∀ x ∉ X, ∀ k, a'.list.nextAt x k = a.list.nextAt x k
  prev : ∀ x ∉ X, ∀ k, a'.list.prevAt x k = a.list.prevAt x k
  value : ∀ x ∉ X, ∀ k, a'.valueAt x k = a.valueAt x k

/-- A change within `X` alone, which sequences neither enter nor leave, leaves the rest alone on all levels. -/
theorem Sound.sameOff (h : a.Sound) (h' : a'.Sound) (hlayout : a'.layout = a.layout) (hX : a.list.Encloses X)
    (hX' : a'.list.Encloses X) (hnext : ∀ x ∉ X, a'.list.nextAt x 0 = a.list.nextAt x 0)
    (hown : ∀ x, a'.valueAt x 0 = a.valueAt x 0) : a.SameOff a' X := by
  have hheight (u : Nat) : a'.height u = a.height u := SkipList.height_of_layout (layout_list hlayout) u
  have hsize : a'.size = a.size := SkipList.size_of_layout (layout_list hlayout)
  have hsequence {u k : Nat} (hu : u ∉ X) (hk : k < a.height u) :=
    h.woven.sequence_off h'.woven hX hX' hnext hsize hu (SkipList.lt_size_of_height_pos (Nat.zero_lt_of_lt hk))
  have hlinks (u : Nat) (hu : u ∉ X) (k : Nat) :
      a'.list.nextAt u k = a.list.nextAt u k ∧ a'.list.prevAt u k = a.list.prevAt u k := by
    rcases Nat.lt_or_ge k (a.height u) with hk | hk
    · obtain ⟨c, xs, hux, -, hx, hx'⟩ := hsequence hu hk
      exact hx.links_eq hx' hheight hux hk
    · have hk' : a'.height u ≤ k := (hheight u).trans_le hk
      rw [SkipList.nextAt_of_height_le hk, SkipList.nextAt_of_height_le hk', SkipList.prevAt_of_height_le hk,
        SkipList.prevAt_of_height_le hk']
      exact ⟨rfl, rfl⟩
  refine ⟨fun u hu k => (hlinks u hu k).1, fun u hu k => (hlinks u hu k).2, fun u hu k => ?_⟩
  rcases Nat.lt_or_ge k (a.height u) with hk | hk
  · -- What the element skips on the level lies in its own sequence.
    obtain ⟨c, xs, hux, hd, hx, -⟩ := hsequence hu hk
    obtain ⟨ys, e, hy, hv⟩ := h.summed u k hk
    have hstay {x y : Nat} (hm : x ∈ xs) (hxy : a.list.nextAt x 0 = some y) : y ∈ xs :=
      ((hx.strand_zero h.woven).prev_of_next hm hxy).1
    have hys : ∀ y ∈ ys, y ∈ xs := hy.forall_mem (fun y hy => hstay hux hy) fun x y => hstay
    have hy' := hy.congr_on hheight fun y hm => hnext y (hd (hys y hm))
    rw [← hnext u hu] at hy'
    rw [hv, (h'.summed u k (hk.trans_eq (hheight u).symm)).eq_total hy']
    exact total_congr fun x _ => hown x
  · rw [valueAt_of_depth_le ((h.depth u).trans_le hk), valueAt_of_depth_le]
    exact (h'.depth u).trans_le ((hheight u).trans_le hk)

end SumList

end TourForest
