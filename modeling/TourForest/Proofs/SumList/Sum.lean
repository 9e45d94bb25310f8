import TourForest.Proofs.SkipList.Representative
import TourForest.Proofs.SumList.Total
import TourForest.SumList.Query

/-!
# The sum over a sequence

From the representative on, the elements of its top level add up to what comes from there to the end of
a chain, or once around a cycle (`advance_ahead`). On a chain the walk back and down takes in what comes
before (`advance_behind`). Together they give the total of the sequence (`Sound.sum_eq`).
-/

namespace TourForest.SumList

variable {a : SumList} {k u root : Nat} {o e : Option Nat} {xs zs : List Nat}

/-- Along the top level. -/
theorem advance_ahead (hb : a.Bounded) (h : a.list.Blocks k o zs e)
    (hs : ∀ v ∈ a.list.onLevel k zs, a.Summed v k) (hn : (xs ++ zs).Nodup)
    (hx : ∀ x ∈ xs ++ zs, x < a.size) (hr : root ∉ zs) (he : e = none ∨ e = some root) {strides : Nat}
    (hl : zs.length < strides) :
    (a.ahead root k).advance strides o (a.total xs) = .ok ⟨e, a.total (xs ++ zs), true⟩ := by
  induction h generalizing xs strides with
  | done =>
    obtain ⟨strides, rfl⟩ := Nat.exists_eq_add_one_of_ne_zero (Nat.ne_zero_of_lt hl)
    rcases he with rfl | rfl <;> simp [Walk.advance, ahead]
  | @block v ys zs e hv hy _ ih =>
    obtain ⟨strides, rfl⟩ := Nat.exists_eq_add_one_of_ne_zero (Nat.ne_zero_of_lt hl)
    have hvr : v ≠ root := fun h => hr (h ▸ List.mem_cons_self)
    rw [hy.onLevel_block hv] at hs
    obtain ⟨hsv, hs⟩ := List.forall_mem_cons.mp hs
    have hsplit : xs ++ v :: (ys ++ zs) = (xs ++ v :: ys) ++ zs := by simp
    rw [hsplit] at hn hx ⊢
    rw [← ih hs hn hx (fun h => hr (List.mem_cons_of_mem _ (List.mem_append_right _ h))) he (by
      simp only [List.length_cons, List.length_append] at hl
      omega : _ < strides)]
    rw [Walk.advance]
    simp only [ahead, if_neg hvr, ok_bind]
    rw [hsv.eq_total hy, hb.addValues_total (List.nodup_append.mp hn).1
      fun x hm => hx x (List.mem_append_left _ hm), ok_bind]

/-- Back and down, over all that comes before `cur` in a chain. -/
theorem advance_behind (h : a.Sound) (hb : a.Bounded) (hx : a.list.IsSequence false xs) :
    ∀ (strides k cur : Nat) {zs : List Nat}, cur ∈ xs → k < a.height cur →
      a.list.Stretch maxHeight (a.list.nextAt cur 0) zs none →
      a.size + k + 1 ≤ strides + (cur :: zs).length →
      ∃ place, a.behind.advance strides (k, cur) (a.total (cur :: zs)) = .ok ⟨place, a.total xs, true⟩ := by
  intro strides
  induction strides with
  | zero =>
    intro k cur zs hcur hk hz hl
    have hlen := SkipList.length_le_size hz.nodup_cons (h.stretch_lt_size (hx.lt_size cur hcur) hz)
    unfold SumList.size at hl
    omega
  | succ strides ih =>
    intro k cur zs hcur hk hz hl
    have hbounds := hb.total_bounds hz.nodup_cons (h.stretch_lt_size (hx.lt_size cur hcur) hz)
    rw [Walk.advance]
    rcases hp : a.list.prevAt cur k with _ | b
    · cases k with
      | zero =>
        -- All of the chain has been passed.
        obtain ⟨-, hhead⟩ := hx.of_prev_eq_none h.woven hcur hp
        obtain ⟨bs, rfl⟩ := List.head?_eq_some_iff.mp hhead
        have hrow : a.list.Row 0 none (cur :: bs) none := hx.strand_zero h.woven
        have hbs := SkipList.stretch_of_low hrow.forth.2 fun x _ => h.woven.height_le x
        have hnext : a.list.nextAt cur 0 = bs.head? := by simpa using hrow.forth.1
        rw [hnext] at hz
        obtain ⟨rfl, -⟩ := hz.unique hbs
        exact ⟨(0, cur), by simp [behind, hp]⟩
      | succ k =>
        obtain ⟨place, hgo⟩ := ih k cur hcur (Nat.lt_of_succ_lt hk) hz (by omega)
        have hstride : a.behind.stride (k + 1, cur) = .ok (.go 0 (k, cur)) := by simp [behind, hp]
        refine ⟨place, ?_⟩
        simp only [hstride, ok_bind]
        rw [addValues, Int.add_zero, if_pos hbounds, ok_bind, hgo]
    · have hbc := h.woven.next_iff_prev.mpr hp
      have hbk := SkipList.Woven.lt_height_of_next hbc
      have hbx : b ∈ xs :=
        (SkipList.mem_onLevel.mp
          ((hx.strand k).next_of_prev (SkipList.mem_onLevel.mpr ⟨hcur, hk⟩) hp).1).1
      obtain ⟨ys, hy⟩ := h.woven.stretch hbk
      rw [hbc] at hy
      have hle : k ≤ maxHeight := (Nat.le_of_lt hk).trans (h.woven.height_le cur)
      have hz' := hy.append hle (h.woven.height_le cur) hz
      have hperm : (cur :: zs ++ b :: ys).Perm (b :: (ys ++ cur :: zs)) := List.perm_append_comm
      have hlt' := h.stretch_lt_size (hx.lt_size b hbx) hz'
      have hadd : addValues (a.total (cur :: zs)) (a.valueAt b k) =
          .ok (a.total (b :: (ys ++ cur :: zs))) := by
        rw [(h.summed b k hbk).eq_total hy, hb.addValues_total (hperm.nodup_iff.mpr hz'.nodup_cons)
          fun x hm => hlt' x (hperm.mem_iff.mp hm)]
        simp only [total_append, total_cons, Except.ok.injEq]
        omega
      obtain ⟨place, hgo⟩ := ih k b hbx hbk hz' (by
        simp only [List.length_cons, List.length_append] at hl ⊢
        omega)
      have hstride : a.behind.stride (k, cur) = .ok (.go (a.valueAt b k) (k, b)) := by simp [behind, hp]
      refine ⟨place, ?_⟩
      simp only [hstride, ok_bind]
      rw [hadd, ok_bind, hgo]

/-- The sum of a sequence is its total, from whichever of its elements it is asked. -/
theorem Sound.sum_eq (h : a.Sound) (hb : a.Bounded) {closed : Bool} (hx : a.list.IsSequence closed xs)
    (hu : u ∈ xs) : a.sum u = .ok (a.total xs) := by
  obtain ⟨root, hroot, hr⟩ := h.woven.representative hx hu
  have hrx := hr.mem
  have hrs := hx.lt_size root hrx
  have hpos := h.woven.height_pos root hrs
  have htop : a.list.height root - 1 < a.list.height root := Nat.sub_one_lt_of_lt hpos
  rw [SumList.sum, hroot, ok_bind]
  dsimp only [SumList.height]
  generalize a.list.height root - 1 = top at htop
  -- From the representative on, the top level leads to the end or back.
  have hgo {rest : List Nat} {e : Option Nat} (ht : SkipList.Trail (a.list.nextAt · 0) (root :: rest) e)
      (he : e = none ∨ e = some root) (hn : (root :: rest).Nodup) (hlt : ∀ x ∈ root :: rest, x < a.size) :
      (a.ahead root top).finish (a.size + 1) (a.list.nextAt root top) (a.valueAt root top) =
        .ok (e, a.total (root :: rest)) := by
    have hblocks := h.woven.blocks (k := top) ht
      (by rcases he with rfl | rfl <;> simp [htop]) (by simpa using htop)
    rw [List.head?_cons, Option.some_or] at hblocks
    have hlen := SkipList.length_le_size hn hlt
    cases hblocks with
    | @block _ ys zs _ _ hy hz =>
      have hrz : root ∉ zs := fun hm => (List.nodup_cons.mp hn).1 (List.mem_append_right _ hm)
      have hsz : zs.length < a.size + 1 := by
        simp only [List.length_cons, List.length_append] at hlen
        unfold SumList.size
        omega
      have hgo : (a.ahead root top).advance (a.size + 1) (a.list.nextAt root top) (a.total (root :: ys)) =
          .ok ⟨e, a.total (root :: (ys ++ zs)), true⟩ :=
        advance_ahead hb hz (fun v hv => h.summed v top (SkipList.mem_onLevel.mp hv).2) hn hlt hrz he hsz
      rw [Walk.finish, (h.summed root top htop).eq_total hy, hgo]
      rfl
  obtain ⟨as, bs, rfl⟩ := List.append_of_mem hrx
  cases closed with
  | true =>
    have hx' := hx.rotate
    rw [List.cons_append] at hx'
    rw [hgo (hx'.strand_zero h.woven).forth (.inr rfl) hx'.nodup hx'.lt_size, ok_bind]
    refine congrArg Except.ok ?_
    simp only [total_append, total_cons]
    omega
  | false =>
    have hrow : a.list.Row 0 none (as ++ root :: bs) none := hx.strand_zero h.woven
    have ht := (SkipList.Trail.append_iff.mp hrow.forth).2
    have hbs := SkipList.stretch_of_low ht.2 fun x _ => h.woven.height_le x
    have hnext : a.list.nextAt root 0 = bs.head? := by simpa using ht.1
    rw [← hnext] at hbs
    rw [hgo ht (.inl rfl) (List.nodup_append.mp hx.nodup).2.1
      fun x hm => hx.lt_size x (List.mem_append_right _ hm), ok_bind]
    obtain ⟨place, hback⟩ := advance_behind h hb hx ((top + 1) * a.size) top root hrx htop hbs (by
      have hmul : (top + 1) * a.size = top * a.size + a.size := Nat.succ_mul ..
      have htop' : top * 1 ≤ top * a.size := Nat.mul_le_mul_left top (Nat.zero_lt_of_lt hrs)
      rw [List.length_cons]
      omega)
    simp only [Option.isSome_none, Bool.false_eq_true, if_false]
    rw [Walk.finish, hback]
    rfl

end TourForest.SumList
