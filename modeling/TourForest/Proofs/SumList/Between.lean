import TourForest.Proofs.SumList.OneByOne

/-!
# The sum from one element to another

The way from `l` to `r` along level 0 is a `Route`. The two ends of `sumOver` shorten it from both sides. The
lower end moves, on its top level, and so the other end is tall enough to stop it: the left end never goes past
the right one, and the right end never goes back behind the left one.

What has been passed in front, the rest of the route, and what has been passed behind make up the route at all
times (`Sound.advance_between`), so that nothing is left out or counted twice. On a cycle the route may go over the
place where the cycle is listed from (`exists_between`).
-/

namespace TourForest

/-! ## Routes -/

namespace SkipList

variable {s : SkipList} {k l r : Nat} {o e : Option Nat} {xs ys : List Nat}

/-- Going forward from `l` along level 0, one meets the elements `xs`. The last of them is `r`, which is met there
for the first time. -/
inductive Route (s : SkipList) (r : Nat) : (l : Nat) → (xs : List Nat) → Prop
  | here : Route s r r [r]
  | step {l m : Nat} {xs : List Nat} : l ≠ r → s.nextAt l 0 = some m → Route s r m xs → Route s r l (l :: xs)

/-- There is one route at most. -/
theorem Route.unique (h : s.Route r l xs) (h' : s.Route r l ys) : xs = ys := by
  induction h generalizing ys with
  | here =>
    cases h' with
    | here => rfl
    | step hne => exact absurd rfl hne
  | step hne hnext _ ih =>
    cases h' with
    | here => exact absurd rfl hne
    | step _ hnext' h' =>
      obtain rfl := Option.some_inj.mp (hnext.symm.trans hnext')
      exact congrArg _ (ih h')

/-- A trail that leads to `r` is a route if it does not meet `r` before. -/
theorem route_of_trail (h : Trail (s.nextAt · 0) xs (some r)) (hr : r ∉ xs) :
    s.Route r (xs.head?.getD r) (xs ++ [r]) := by
  induction xs with
  | nil => exact .here
  | cons x xs ih =>
    obtain ⟨hx, hr⟩ := not_or.mp (List.mem_cons.not.mp hr)
    refine .step (Ne.symm hx) (h.1.trans ?_) (ih h.2 hr)
    cases xs <;> rfl

/-- From an element of a sequence one comes to each element that is not before it on a chain, and meets no element
twice on the way. -/
theorem exists_between (hs : s.Woven) {closed : Bool} (hx : s.IsSequence closed xs) (hl : l ∈ xs) (hr : r ∈ xs)
    (hlr : closed = false → xs.idxOf l ≤ xs.idxOf r) :
    ∃ ys, Trail (s.nextAt · 0) ys (some r) ∧ ys.head?.getD r = l ∧ (ys ++ [r]).Nodup ∧
      ∀ x ∈ ys ++ [r], x < s.size := by
  have hgo {as bs : List Nat} (hx : s.IsSequence closed (as ++ l :: bs)) (hr : r ∈ l :: bs) :
      ∃ ys, Trail (s.nextAt · 0) ys (some r) ∧ ys.head?.getD r = l ∧ (ys ++ [r]).Nodup ∧
        ∀ x ∈ ys ++ [r], x < s.size := by
    obtain ⟨ys, cs, hsplit⟩ := List.append_of_mem hr
    rw [hsplit] at hx
    have ht := (Trail.append_iff.mp (Trail.append_iff.mp (hx.strand_zero hs).forth).2).1
    rw [List.head?_cons, Option.some_or] at ht
    have hsub : (ys ++ [r]).Sublist (as ++ (ys ++ r :: cs)) :=
      ((List.singleton_sublist.mpr List.mem_cons_self).append_left ys).trans (List.sublist_append_right as _)
    refine ⟨ys, ht, ?_, hx.nodup.sublist hsub, fun x hm => hx.lt_size x (hsub.subset hm)⟩
    cases ys with
    | nil => exact (List.cons.inj hsplit).1.symm
    | cons y ys => exact (List.cons.inj hsplit).1.symm
  obtain ⟨as, bs, rfl⟩ := List.append_of_mem hl
  cases closed with
  | true =>
    -- The cycle is listed from `l` on.
    have hx' := hx.rotate
    rw [List.cons_append] at hx'
    refine @hgo [] _ hx' ?_
    rw [← List.cons_append, List.mem_append]
    exact (List.mem_append.mp hr).symm
  | false =>
    refine hgo hx ((List.mem_append.mp hr).resolve_left fun hra => ?_)
    have hla : l ∉ as := fun hla => (List.nodup_append'.mp hx.nodup).2.2 hla List.mem_cons_self
    have hle := hlr rfl
    rw [List.idxOf_append_of_mem hra, List.idxOf_append_of_notMem hla, List.idxOf_cons_self] at hle
    have hlt := List.idxOf_lt_length_iff.mpr hra
    omega

/-- The last of the blocks that lead to `r` begins with the element before `r` on the level. -/
theorem Blocks.exists_last (h : s.Blocks k o xs e) (hx : xs ≠ []) :
    ∃ ys v zs, xs = ys ++ v :: zs ∧ k < s.height v ∧ s.Stretch k (s.nextAt v 0) zs e ∧ s.nextAt v k = e := by
  induction h with
  | done => exact absurd rfl hx
  | @block v ys zs e hv hy hz ih =>
    by_cases hzs : zs = []
    · subst hzs
      have hend : s.nextAt v k = e := by
        generalize s.nextAt v k = o at hz
        cases hz
        rfl
      exact ⟨[], v, ys, by simp, hv, hend ▸ hy, hend⟩
    · obtain ⟨as, w, bs, rfl, hw⟩ := ih hzs
      exact ⟨v :: (ys ++ as), w, bs, by simp, hw⟩

end SkipList

/-! ## Two ends on a route -/

namespace SumList

variable {a : SumList} {l r : Nat} {done xs ys : List Nat}

theorem total_perm (h : xs.Perm ys) : a.total xs = a.total ys := (h.map _).sum_eq

/-- The left end moves over what its top level skips, which the right end stops. -/
theorem Sound.stride_left (h : a.Sound) (ht : SkipList.Trail (a.list.nextAt · 0) (l :: ys) (some r)) (hne : l ≠ r)
    (hl : l < a.size) (hle : a.height l ≤ a.height r) :
    ∃ zs rest, ys = zs ++ rest ∧ SkipList.Trail (a.list.nextAt · 0) rest (some r) ∧
      a.between.stride (some l, r) = .ok (.go (a.total (l :: zs)) (some (rest.head?.getD r), r)) := by
  have hpos := h.woven.height_pos l hl
  have hk : a.height l - 1 < a.height l := Nat.sub_one_lt_of_lt hpos
  obtain ⟨zs, rest, rfl, hz, -⟩ := SkipList.stretch_of_trail (k := a.height l - 1) ht.2 fun x hx =>
    Option.some_inj.mp hx ▸ hk.trans_le hle
  refine ⟨zs, rest, rfl, (SkipList.Trail.append_iff.mp ht.2).2, ?_⟩
  have hend : rest.head?.or (some r) = some (rest.head?.getD r) := by cases rest <;> rfl
  rw [← ht.1, hend] at hz
  obtain ⟨zs', hz'⟩ := h.woven.stretch hk
  obtain ⟨-, hnext⟩ := hz.unique hz'
  simp only [between, if_neg hne, Nat.min_eq_left hle, if_true]
  rw [(h.summed l _ hk).eq_total hz, ← hnext]

/-- The right end moves back to an element of its height, which the left end is in any case. -/
theorem Sound.stride_right (h : a.Sound) (ht : SkipList.Trail (a.list.nextAt · 0) (l :: ys) (some r)) (hne : l ≠ r)
    (hr : r < a.size) (hlt : a.height r < a.height l) :
    ∃ rest v zs, l :: ys = rest ++ v :: zs ∧ SkipList.Trail (a.list.nextAt · 0) rest (some v) ∧
      a.between.stride (some l, r) = .ok (.go (a.total (v :: zs)) (some l, v)) := by
  have hpos := h.woven.height_pos r hr
  have hk : a.height r - 1 < a.height r := Nat.sub_one_lt_of_lt hpos
  have hblocks := h.woven.blocks (k := a.height r - 1) ht (fun x hx => Option.some_inj.mp hx ▸ hk) fun x hx =>
    Option.some_inj.mp hx ▸ hk.trans hlt
  obtain ⟨rest, v, zs, hsplit, hv, hz, hnext⟩ := hblocks.exists_last (List.cons_ne_nil _ _)
  refine ⟨rest, v, zs, hsplit, ?_, ?_⟩
  · rw [hsplit] at ht
    simpa using (SkipList.Trail.append_iff.mp ht).1
  · have hlow : ¬ a.height r - 1 = a.height l - 1 := by
      have : 0 < a.height r := hpos
      omega
    simp only [between, if_neg hne, Nat.min_eq_right hlt.le, if_neg hlow, h.woven.next_iff_prev.mp hnext]
    rw [(h.summed v _ hv).eq_total hz]

/-- The two ends meet. What they passed before, `done`, and all of the route between them is in the sum then. -/
theorem Sound.advance_between (h : a.Sound) (hb : a.Bounded) {strides : Nat}
    (ht : SkipList.Trail (a.list.nextAt · 0) ys (some r)) (hl : ys.head?.getD r = l) (hr : r ∈ done)
    (hn : (done ++ ys).Nodup) (hx : ∀ x ∈ done ++ ys, x < a.size) (hs : ys.length < strides) :
    ∃ place, a.between.advance strides (some l, r) (a.total done) = .ok ⟨place, a.total (done ++ ys), true⟩ := by
  induction hlen : ys.length using Nat.strong_induction_on generalizing ys done l r strides with
  | _ n ih =>
    obtain ⟨strides, rfl⟩ := Nat.exists_eq_add_one_of_ne_zero (Nat.ne_zero_of_lt hs)
    rw [Walk.advance]
    cases ys with
    | nil =>
      obtain rfl : r = l := hl
      exact ⟨(some r, r), by simp [between]⟩
    | cons y ys =>
      obtain rfl : y = l := hl
      have hne : y ≠ r := fun he => (List.nodup_append'.mp hn).2.2 hr (he ▸ List.mem_cons_self)
      rcases Nat.lt_or_ge (a.height r) (a.height y) with hlt | hle
      · obtain ⟨rest, v, zs, hsplit, ht', hstride⟩ :=
          h.stride_right ht hne (hx r (List.mem_append_left _ hr)) hlt
        have hl' : rest.head?.getD v = y := by
          cases rest <;> exact (List.cons.inj hsplit).1.symm
        have hperm : ((done ++ v :: zs) ++ rest).Perm (done ++ y :: ys) := by
          rw [hsplit, List.append_assoc]
          exact List.perm_append_comm.append_left done
        have hn' := hperm.nodup_iff.mpr hn
        have hx' : ∀ x ∈ (done ++ v :: zs) ++ rest, x < a.size := fun x hm => hx x (hperm.mem_iff.mp hm)
        have hlt : rest.length < n := by
          rw [← hlen, hsplit, List.length_append, List.length_cons]
          omega
        obtain ⟨place, hgo⟩ := ih rest.length hlt ht' hl' (by simp) hn' hx' (by omega : _ < strides) rfl
        refine ⟨place, ?_⟩
        simp only [hstride, ok_bind]
        rw [hb.addValues_total (List.nodup_append.mp hn').1 fun x hm => hx' x (List.mem_append_left _ hm), ok_bind,
          hgo, total_perm hperm]
      · obtain ⟨zs, rest, rfl, ht', hstride⟩ := h.stride_left ht hne (hx y (by simp)) hle
        have hall : done ++ y :: (zs ++ rest) = (done ++ y :: zs) ++ rest := by simp
        rw [hall] at hn hx ⊢
        have hlt : rest.length < n := by
          rw [← hlen, List.length_cons, List.length_append]
          omega
        obtain ⟨place, hgo⟩ := ih rest.length hlt ht' rfl (List.mem_append_left _ hr) hn hx (by omega : _ < strides) rfl
        refine ⟨place, ?_⟩
        simp only [hstride, ok_bind]
        rw [hb.addValues_total (List.nodup_append.mp hn).1 fun x hm => hx x (List.mem_append_left _ hm), ok_bind, hgo]

/-- From an element of a sequence to each element that is not before it on a chain, the sum is the total of the
route. -/
theorem Sound.sumOver_eq (h : a.Sound) (hb : a.Bounded) {closed : Bool} (hx : a.list.IsSequence closed xs)
    (hl : l ∈ xs) (hr : r ∈ xs) (hlr : closed = false → xs.idxOf l ≤ xs.idxOf r) :
    ∃ ys, a.list.Route r l ys ∧ a.sumOver l r = .ok (a.total ys) := by
  obtain ⟨ys, ht, hhead, hn, hlt⟩ := SkipList.exists_between h.woven hx hl hr hlr
  have hperm : ([r] ++ ys).Perm (ys ++ [r]) := List.perm_append_comm
  have hry : r ∉ ys := fun hm => (List.nodup_append'.mp hn).2.2 hm (List.mem_singleton_self r)
  have hlen := SkipList.length_le_size hn hlt
  rw [List.length_append, List.length_singleton] at hlen
  have hroute := SkipList.route_of_trail ht hry
  rw [hhead] at hroute
  obtain ⟨place, hgo⟩ := h.advance_between hb ht hhead (List.mem_singleton_self r) (hperm.nodup_iff.mpr hn)
    (fun x hm => hlt x (hperm.mem_iff.mp hm)) (by unfold SumList.size; omega : _ < 2 * (a.size + 1))
  rw [total_perm hperm, total_cons, total_nil, Int.add_zero] at hgo
  refine ⟨_, hroute, ?_⟩
  rw [sumOver, SkipList.check_of_lt (hx.lt_size r hr), SkipList.check_of_lt (hx.lt_size l hl), Walk.finish, hgo]
  simp

/-! ## Lists that batches lead to -/

/-- On every list that batches lead to, each element belongs to one sequence, and from there the sum to any other
element of a cycle, or to one that is not before it on a chain, is the total of the elements met on the way forward
along level 0, both ends included. The two ends never come to where there is no element. -/
theorem sumOver_of_reachable (h : a.Reachable) :
    ∀ l < a.size, ∃ closed xs, a.list.sequence l = .ok xs ∧ l ∈ xs ∧ a.list.IsSequence closed xs ∧
      (closed = true ↔ ∀ x ∈ xs, a.list.nextAt x 0 ≠ none) ∧
      ∀ r ∈ xs, (closed = false → xs.idxOf l ≤ xs.idxOf r) →
        ∃ ys, a.list.Route r l ys ∧ a.sumOver l r = .ok (a.total ys) := by
  intro l hl
  obtain ⟨hs, hb⟩ := h.sound
  obtain ⟨closed, xs, hseq, hlx, hx, -⟩ := hs.woven.sequence hl
  exact ⟨closed, xs, hseq, hlx, hx, hx.closed_iff hs.woven hlx, fun r hr hlr => hs.sumOver_eq hb hx hlx hr hlr⟩

/-- On a cycle of three elements of value 1, the last one and the first one add up to 2. -/
theorem sumOver_of_cycle :
    ∃ a : SumList, a.Reachable ∧ (∀ u < 3, a.list.nextAt u 0 = some ((u + 1) % 3)) ∧
      a.list.Route 0 2 [2, 0] ∧ a.sumOver 2 0 = .ok 2 := by
  obtain ⟨a, hr, hsize, hnext, hone⟩ := exists_cycle_of_ones
  have hroute : a.list.Route 0 2 [2, 0] := .step (by decide) (hnext 2 (by decide)) .here
  obtain ⟨closed, xs, -, h2x, hx, hclosed, hsum⟩ := sumOver_of_reachable hr 2 (hsize ▸ by decide)
  have h0x : 0 ∈ xs := ((hx.strand_zero hr.sound.1.woven).prev_of_next h2x (hnext 2 (by decide))).1
  have hcycle : closed = true := hclosed.mpr fun x hxx => by
    rw [hnext x ((hx.lt_size x hxx).trans_eq hsize)]
    exact Option.some_ne_none _
  obtain ⟨ys, hys, hok⟩ := hsum 0 h0x fun hopen => by simp [hcycle] at hopen
  obtain rfl := hroute.unique hys
  rw [total_cons, total_cons, total_nil, hone 2 (by decide), hone 0 (by decide)] at hok
  exact ⟨a, hr, fun u hu => hnext u hu, hroute, hok⟩

end SumList

end TourForest
