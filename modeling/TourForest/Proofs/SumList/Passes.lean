import TourForest.Proofs.SkipList.LevelLaw
import TourForest.Proofs.SumList.Entered
import TourForest.Proofs.SumList.OneByOne
import TourForest.Proofs.SumList.Renewal

/-!
# Passes come to the same list

A visit does the places below its element, whatever has been done elsewhere, or faults because one of them has a sum
out of range (`Performs`). Both kinds of visits do the same places. The areas of the tops are apart from each other and
make up all that is out of date, so neither the kind of the pass nor the order of the tops matters.

* `performs_refreshInOrder`, `performs_refresh`: what visits do;
* `Claims.pass`: after claims, each pass does all there is to do.
-/

namespace TourForest.SumList

variable {a b : SumList} {A A' B : Set (Nat × Nat)} {X X' : Set Nat} {c : Logged} {k u v : Nat}
  {us vs tops : List Nat} {f : Logged → Except Fault Logged}

/-! ## Visits -/

/-- One of the places has a sum out of range. -/
def Overflows (b : SumList) (A : Set (Nat × Nat)) : Prop :=
  ∃ u k, (u, k + 1) ∈ A ∧ b.gathered k u = .error .addOverflow

theorem Done.not_overflows (h : b.Done B c) : ¬ b.Overflows B := by
  rintro ⟨u, k, hq, hg⟩
  rw [h.gathered u k hq] at hg
  cases hg

/-- Whatever has been done off the elements `X`, `f` does the places `A` as well, or faults because one of them has a
sum out of range. -/
def Performs (b : SumList) (X : Set Nat) (A : Set (Nat × Nat)) (f : Logged → Except Fault Logged) : Prop :=
  ∀ B c, b.Done B c → (∀ q ∈ B, q.1 ∉ X) →
    (∃ c', f c = .ok c' ∧ b.Done (B ∪ A) c') ∨ f c = .error .addOverflow ∧ b.Overflows A

theorem Overflows.mono (h : b.Overflows A) (hA : A ⊆ A') : b.Overflows A' :=
  have ⟨u, k, hq, hg⟩ := h
  ⟨u, k, hA hq, hg⟩

/-- `g` does what `f` does where it is used. -/
theorem Performs.congr {g : Logged → Except Fault Logged} (h : b.Performs X A f)
    (hg : ∀ B c, b.Done B c → (∀ q ∈ B, q.1 ∉ X) → g c = f c) : b.Performs X A g := by
  intro B c hc hB
  rw [hg B c hc hB]
  exact h B c hc hB

/-- One after the other, each off the elements of the other. -/
theorem Performs.bind {g : Logged → Except Fault Logged} (hf : b.Performs X A f) (hg : b.Performs X' A' g)
    (hA : ∀ q ∈ A, q.1 ∈ X) (hX : ∀ x ∈ X, x ∉ X') : b.Performs (X ∪ X') (A ∪ A') fun c => f c >>= g := by
  intro B c hc hB
  beta_reduce
  rcases hf B c hc fun q hq hx => hB q hq (.inl hx) with ⟨d, hd, hdone⟩ | ⟨he, ho⟩
  · have hB' : ∀ q ∈ B ∪ A, q.1 ∉ X' := by
      rintro q (hq | hq) hx
      · exact hB q hq (.inr hx)
      · exact hX q.1 (hA q hq) hx
    rw [hd, ok_bind, ← Set.union_assoc]
    exact (hg _ d hdone hB').imp_right fun ⟨he, ho⟩ => ⟨he, ho.mono Set.subset_union_right⟩
  · exact .inr ⟨by rw [he, error_bind], ho.mono Set.subset_union_left⟩

/-- A loop of visits, each off the elements of the others. -/
theorem performs_foldlM {X : Nat → Set Nat} {A : Nat → Set (Nat × Nat)} {f : Logged → Nat → Except Fault Logged}
    (hA : ∀ v ∈ vs, ∀ q ∈ A v, q.1 ∈ X v) (hX : vs.Pairwise fun v w => ∀ x ∈ X v, x ∉ X w)
    (hf : ∀ v ∈ vs, b.Performs (X v) (A v) (f · v)) :
    b.Performs (⋃ v ∈ vs, X v) (⋃ v ∈ vs, A v) fun c => vs.foldlM f c := by
  induction vs with
  | nil => exact fun B c hc _ => .inl ⟨c, rfl, by simpa using hc⟩
  | cons v vs ih =>
    obtain ⟨hAv, hA⟩ := List.forall_mem_cons.mp hA
    obtain ⟨hXv, hX⟩ := List.pairwise_cons.mp hX
    obtain ⟨hfv, hf⟩ := List.forall_mem_cons.mp hf
    have hunion {ι : Type} (A : Nat → Set ι) : ⋃ w ∈ v :: vs, A w = A v ∪ ⋃ w ∈ vs, A w := by
      ext q
      simp
    rw [hunion, hunion]
    refine hfv.bind (ih hA hX hf) hAv fun x hx hxs => ?_
    obtain ⟨w, hw, hxw⟩ := Set.mem_iUnion₂.mp hxs
    exact hXv w hw x hx hxw

/-- The marks of elements of which nothing has been done are those of `b`. -/
theorem Done.markAt_eq (h : b.Done B c) (hB : ∀ q ∈ B, q.1 ∉ X) (hu : u ∈ X) : c.state.markAt u = b.markAt u :=
  h.marked u fun hq => hB _ hq hu

theorem Done.outdated_iff (h : b.Done B c) (hB : ∀ q ∈ B, q.1 ∉ X) (hu : u ∈ X) (hk : k < b.height u) :
    c.state.outdated u (k + 1) ↔ b.Due u k := by
  rw [← outdated_iff_due hk, outdated, h.markAt_eq hB hu, outdated]

/-- The values of a run are added up, if all of them have been done. -/
theorem Done.recompute (hs : b.Shaped) (h : b.Done B c) (hu : b.Due u (k + 1)) (hnew : (u, k + 1) ∉ B)
    (hrun : ∀ v ∈ b.fullRun u k, b.Due v k → (v, k) ∈ B) :
    (∃ c', c.recompute u k (b.run u k).elements = .ok c' ∧ b.Done (insert (u, k + 1) B) c') ∨
      c.recompute u k (b.run u k).elements = .error .addOverflow ∧ b.gathered k u = .error .addOverflow := by
  have hgather : (b.run u k).elements.foldlM (fun sum v => addValues sum (c.state.valueAt v k)) (c.state.valueAt u k) =
      b.gathered k u := by
    have hvalue (v : Nat) (hv : v ∈ b.fullRun u k) : c.state.valueAt v k = b.renewed k v := h.valueAt_eq (hrun v hv)
    obtain ⟨hself, hvalue⟩ := List.forall_mem_cons.mp hvalue
    rw [gathered, hself]
    calc (b.run u k).elements.foldlM (fun sum v => addValues sum (c.state.valueAt v k)) (b.renewed k u)
      _ = ((b.run u k).elements.map (c.state.valueAt · k)).foldlM addValues (b.renewed k u) := List.foldlM_map.symm
      _ = ((b.run u k).elements.map (b.renewed k)).foldlM addValues (b.renewed k u) := by
        rw [List.map_congr_left hvalue]
      _ = _ := List.foldlM_map
  rw [Logged.recompute, SumList.recompute, hgather]
  rcases gathered_cases hu with hg | hg
  · rw [hg]
    exact .inl ⟨_, rfl, .of_midway hs hu (h.insert_succ hs hu hnew hg)⟩
  · rw [hg]
    exact .inr ⟨rfl, rfl⟩

/-- After a loop over a run its element is done one level higher. -/
theorem performs_recompute (hs : b.Shaped) (hu : b.Due u (k + 1)) (hX : X ⊆ b.below (k + 1) u)
    (hf : b.Performs X (⋃ v ∈ b.fullRun u k, b.area k v) f) :
    b.Performs (b.below (k + 1) u) (b.area (k + 1) u) fun c =>
      f c >>= fun d => d.recompute u k (b.run u k).elements := by
  intro B c hc hB
  beta_reduce
  rw [area_succ hs hu]
  rcases hf B c hc fun q hq hx => hB q hq (hX hx) with ⟨d, hd, hdone⟩ | ⟨he, ho⟩
  · rw [hd, ok_bind, ← Set.union_assoc, Set.union_singleton]
    have hnew : (u, k + 1) ∉ B ∪ ⋃ v ∈ b.fullRun u k, b.area k v := by
      rintro (hq | hq)
      · exact hB _ hq (self_mem_below hu.1)
      · obtain ⟨v, -, -, hle, -⟩ := Set.mem_iUnion₂.mp hq
        exact absurd hle (Nat.not_succ_le_self k)
    refine (hdone.recompute hs hu hnew fun v hv hdue => ?_).imp_right fun ⟨he, hg⟩ => ⟨he, u, k, .inr rfl, hg⟩
    exact .inr (Set.mem_iUnion₂.mpr ⟨v, hv, hdue, le_rfl, self_mem_below hdue.1⟩)
  · exact .inr ⟨by rw [he, error_bind], ho.mono Set.subset_union_left⟩

/-- The element itself, on its lowest level. -/
theorem performs_zero (hs : b.Shaped) (hu : b.Due u 0) :
    b.Performs (b.below 0 u) (b.area 0 u) (Logged.refreshInOrder 0 · u) := by
  intro B c hc hB
  rw [area_zero hu, Set.union_singleton]
  exact .inl ⟨_, rfl, .of_midway hs hu (hc.insert_zero hu)⟩

/-- A visit that depends on whether its element is out of date. -/
theorem performs_refreshOutdated (hc : b.Climbed none) (hk : k < b.height v)
    (hv : b.Due v k → b.Performs (b.below k v) (b.area k v) (Logged.refreshInOrder k · v)) :
    b.Performs (b.below k v) (b.area k v) (Logged.refreshOutdated k · v) := by
  intro B c hdone hB
  simp only [Logged.refreshOutdated]
  have hiff := hdone.outdated_iff hB (self_mem_below hk) hk
  split
  · next ho => exact hv (hiff.mp ho) B c hdone hB
  · next ho =>
    rw [area_eq_empty hc hk (mt hiff.mpr ho), Set.union_empty]
    exact .inl ⟨c, rfl, hdone⟩

section

variable (hs : b.Shaped) (hc : b.Climbed none)
include hs hc

/-- A loop over a run, or over those of its elements that are out of date. -/
theorem performs_run {f : Logged → Nat → Except Fault Logged} (hu : b.Due u (k + 1)) (hn : vs.Nodup)
    (hsub : vs ⊆ b.fullRun u k) (hf : ∀ v ∈ vs, b.Performs (b.below k v) (b.area k v) (f · v))
    (hall : ∀ v ∈ b.fullRun u k, b.Due v k → v ∈ vs) :
    b.Performs (b.below (k + 1) u) (b.area (k + 1) u) fun c =>
      vs.foldlM f c >>= fun d => d.recompute u k (b.run u k).elements := by
  have hloop := performs_foldlM (fun v _ q hq => hq.2.2) (hn.imp fun hne => notMem_below hs hne) hf
  have harea : ⋃ v ∈ vs, b.area k v = ⋃ v ∈ b.fullRun u k, b.area k v := by
    refine Set.Subset.antisymm (Set.biUnion_subset_biUnion_left hsub) (Set.iUnion₂_subset fun v hv => ?_)
    by_cases hdue : b.Due v k
    · exact Set.subset_biUnion_of_mem (u := b.area k) (hall v hv hdue)
    · rw [area_eq_empty hc ((hs.mem_fullRun hu.1).mp hv).1 hdue]
      exact Set.empty_subset _
  rw [harea] at hloop
  have hX : ⋃ v ∈ vs, b.below k v ⊆ b.below (k + 1) u := Set.iUnion₂_subset fun v hv => below_subset hs hu.1 (hsub hv)
  exact performs_recompute hs hu hX hloop

/-- A visit in order does the places below its element. -/
theorem performs_refreshInOrder : ∀ (k u : Nat), b.Due u k →
    b.Performs (b.below k u) (b.area k u) (Logged.refreshInOrder k · u) := by
  intro k
  induction k with
  | zero => exact fun u hu => performs_zero hs hu
  | succ k ih =>
    intro u hu
    have hstep (v : Nat) (hv : v ∈ b.fullRun u k) :
        b.Performs (b.below k v) (b.area k v) (Logged.refreshOutdated k · v) :=
      performs_refreshOutdated hc ((hs.mem_fullRun hu.1).mp hv).1 (ih v)
    refine (performs_run hs hc hu (hs.nodup_fullRun hu.1) (List.Subset.refl _) hstep fun _ hv _ => hv).congr ?_
    intro B c hdone hB
    obtain ⟨m, -, hm⟩ := hu.2
    -- The element itself has a mark, so it is taken up on the same condition as those behind it.
    have hself : (if (c.state.markAt u).all (· < k + 1) then Logged.refreshInOrder k c u else pure c) =
        Logged.refreshOutdated k c u := by
      rw [Logged.refreshOutdated, outdated, hdone.markAt_eq hB (self_mem_below hu.1), hm]
      rfl
    rw [Logged.refreshInOrder_succ, hself, fullRun, List.foldlM_cons]
    have hu' : u ∈ b.fullRun u k := List.mem_cons_self
    have hfirst := hstep u hu' B c hdone fun q hq hx => hB q hq (below_subset hs hu.1 hu' hx)
    beta_reduce at hfirst
    rcases hfirst with ⟨d, hd, hdone'⟩ | ⟨he, -⟩
    · rw [hd, ok_bind, ok_bind, run_congr hdone'.alike.list, hs.finished_run hu.1]
      rfl
    · rw [he]
      rfl

/-- A visit apart from the others does the same places, whatever the schedule. -/
theorem performs_refresh (cutoff : Nat) (schedule : Schedule) : ∀ (k u : Nat), b.Due u k →
    b.Performs (b.below k u) (b.area k u) (Logged.refresh cutoff schedule k · u) := by
  intro k
  induction k with
  | zero => exact fun u hu => performs_zero hs hu
  | succ k ih =>
    intro u hu
    by_cases hcut : k + 1 ≤ cutoff
    · refine (performs_refreshInOrder hs hc (k + 1) u hu).congr fun B c _ _ => ?_
      rw [Logged.refresh, if_pos hcut]
    · have hperm := schedule.perm ((b.fullRun u k).filter (b.Due · k))
      have hpending {v : Nat} :
          v ∈ schedule.order ((b.fullRun u k).filter (b.Due · k)) ↔ v ∈ b.fullRun u k ∧ b.Due v k := by
        simp [hperm.mem_iff]
      refine (performs_run hs hc hu (hperm.nodup_iff.mpr ((hs.nodup_fullRun hu.1).filter _))
        (fun v hv => (hpending.mp hv).1) (fun v hv => ih v (hpending.mp hv).2)
        fun v hv hdue => hpending.mpr ⟨hv, hdue⟩).congr fun B c hdone hB => ?_
      rw [Logged.refresh, if_neg hcut, run_congr hdone.alike.list, hs.finished_run hu.1, ok_bind]
      have hfilter : (b.fullRun u k).filter (c.state.outdated · (k + 1)) = (b.fullRun u k).filter (b.Due · k) := by
        refine List.filter_congr fun v hv => Bool.eq_iff_iff.mpr ?_
        have hvk := ((hs.mem_fullRun hu.1).mp hv).1
        rw [decide_eq_true_iff]
        exact hdone.outdated_iff hB (below_subset hs hu.1 hv (self_mem_below hvk)) hvk
      rw [← hfilter]
      rfl

/-- What a visit does depends neither on its kind nor on what has been done elsewhere. -/
theorem performs_visit (p : Pass) (hu : b.Due u k) :
    b.Performs (b.below k u) (b.area k u) (Logged.visit p k · u) := by
  cases p with
  | inOrder => exact performs_refreshInOrder hs hc k u hu
  | apart cutoff schedule => exact performs_refresh hs hc cutoff schedule k u hu

/-- A pass does the areas of the tops it starts from. -/
theorem performs_pass (p : Pass) (hdue : ∀ t ∈ tops, b.Due t (b.height t - 1))
    (hX : tops.Pairwise fun t t' => ∀ x ∈ b.below (b.height t - 1) t, x ∉ b.below (b.height t' - 1) t') :
    b.Performs (⋃ t ∈ tops, b.below (b.height t - 1) t) (⋃ t ∈ tops, b.area (b.height t - 1) t)
      (Logged.run p tops) := by
  refine performs_foldlM (fun t _ q hq => hq.2.2) hX fun t ht => ?_
  refine (performs_visit hs hc p (hdue t ht)).congr fun B c hdone _ => ?_
  rw [← hdone.alike.height]

/-- With the tops that claims have answered with, in whichever order, a pass does all there is to do. -/
theorem Claims.pass {order : List Nat} (h : a.Claims us tops b) (p : Pass) (horder : order.Perm tops) :
    (∃ c, Logged.run p order ⟨b, []⟩ = .ok c ∧ b.Done {q | b.Due q.1 q.2} c) ∨
      Logged.run p order ⟨b, []⟩ = .error .addOverflow ∧ b.Overflows {q | b.Due q.1 q.2} := by
  have htop (t : Nat) (ht : t ∈ tops) : b.Due t (b.height t - 1) := by
    obtain ⟨m, hm⟩ := Option.ne_none_iff_exists'.mp (h.top t ht).1
    exact hc.due_top hm
  have hpos (t : Nat) (ht : t ∈ tops) : 0 < b.list.height t := Nat.zero_lt_of_lt (htop t ht).1
  have hno (t : Nat) (ht : t ∈ tops) (q : Nat) : ¬ b.list.Parent t q := by
    rw [h.list]
    exact (h.top t ht).2 q
  have hX : order.Pairwise fun t t' => ∀ x ∈ b.below (b.height t - 1) t, x ∉ b.below (b.height t' - 1) t' := by
    refine (horder.nodup_iff.mpr h.nodup).imp_of_mem fun {t t'} ht ht' hne x hx hx' => ?_
    have ht := horder.subset ht
    have ht' := horder.subset ht'
    exact hne (hs.woven.top_unique (hpos t ht) (hpos t' ht') (hno t ht) (hno t' ht') hx hx')
  have harea : ⋃ t ∈ order, b.area (b.height t - 1) t = {q | b.Due q.1 q.2} := by
    ext ⟨x, i⟩
    simp only [Set.mem_iUnion, exists_prop, Set.mem_ofPred_eq]
    refine ⟨fun ⟨_, _, hq⟩ => hq.1, fun hx => ?_⟩
    obtain ⟨m, -, hm⟩ := hx.2
    obtain ⟨t, ⟨ht, hxt⟩, -⟩ := h.below x (by simp [hm])
    rw [← h.list] at hxt
    have hanc := ((hs.woven.reaches_iff (Nat.zero_lt_of_lt hx.1)).mp hxt).2
    refine ⟨t, horder.mem_iff.mpr ht, hx, ?_, hanc⟩
    -- The element is the top, or lower.
    have hlt := hx.1
    cases hanc with
    | here => exact Nat.le_sub_one_of_lt hlt
    | left hle => exact (Nat.le_of_lt hlt).trans hle
  have hdone := performs_pass hs hc p (fun t ht => htop t (horder.subset ht)) hX ∅ ⟨b, []⟩
    (by simpa [Done] using Midway.start b) (by simp)
  rwa [Set.empty_union, harea] at hdone

end

/-! ## All passes -/

/-- The values of `a'` that were out of date are the sums of those one level below, all others are those of `b`, and no
element is marked. -/
structure Renewal (b a' : SumList) : Prop extends Alike b a' where
  unmarked : ∀ u, a'.markAt u = none
  sum : ∀ u k, b.Due u (k + 1) → a'.valueAt u (k + 1) = ((b.fullRun u k).map (a'.valueAt · k)).sum
  kept : ∀ u k, ¬ b.Due u k → a'.valueAt u k = b.valueAt u k

theorem Done.renewal (hc : b.Climbed none) (h : b.Done {q | b.Due q.1 q.2} c) : b.Renewal c.state where
  toAlike := h.alike
  unmarked u := by
    by_cases hu : b.Due u (b.height u - 1)
    · exact h.cleared u hu
    · rw [h.marked u hu, Option.eq_none_iff_forall_ne_some]
      exact fun m hm => hu (hc.due_top hm)
  sum u k hu := by
    have hvalue (v : Nat) : c.state.valueAt v k = b.renewed k v := h.valueAt_eq id
    rw [h.renewed (u, k + 1) hu, renewed, if_pos hu, List.map_congr_left fun v _ => hvalue v]
  kept u k hu := h.kept (u, k) hu

/-- Claims mark the ancestors of the elements they are given, each with the lowest level it is entered on, and answer
with the tops. Whichever way a pass goes through the runs, in whichever order it takes up the elements that wait, and
whichever top it begins with, it then recomputes what is out of date, each value once, and comes to the same list,
unless a sum is out of range: then all passes fault. -/
theorem passes_agree_of_claims (hlaw : a.list.LevelLaw)
    (hheight : ∀ u < a.size, 0 < a.height u ∧ a.height u ≤ maxHeight) (hdepth : ∀ u, a.depth u = a.height u)
    (hmarks : a.marks.size = a.size) (hclear : ∀ u, a.markAt u = none) (hus : ∀ u ∈ us, u < a.size) :
    ∃ tops b, a.claimAll (us.map some) = .ok (tops, b) ∧ a.Claims us tops b ∧
      (∀ x, b.markAt x ≠ none ↔ ∃ u ∈ us, Relation.ReflTransGen a.list.Parent u x) ∧
      ((∃ a', b.Renewal a' ∧ ∀ (p : Pass) (order : List Nat), order.Perm tops →
          p.run order b = .ok a' ∧
          ∃ places, Logged.run p order ⟨b, []⟩ = .ok ⟨a', places⟩ ∧ places.Nodup ∧
            ∀ u k, (u, k) ∈ places ↔ 0 < k ∧ b.Due u k) ∨
        b.Overflows {q | b.Due q.1 q.2} ∧ ∀ (p : Pass) (order : List Nat), order.Perm tops →
          p.run order b = .error .addOverflow) := by
  have hle (u : Nat) : a.list.height u ≤ maxHeight := by
    rcases Nat.eq_zero_or_pos (a.list.height u) with hu | hu
    · omega
    · exact (hheight u (SkipList.lt_size_of_height_pos hu)).2
  have hs : a.Shaped := ⟨hlaw.woven (fun u hu => (hheight u hu).1) hle, hdepth, hmarks⟩
  obtain ⟨tops, b, hok, hclaims, hc⟩ := claimAll_eq hs hclear hus
  have hpass (p : Pass) (order : List Nat) (horder : order.Perm tops) :=
    hclaims.pass (hclaims.toAlike.shaped hs) hc p horder
  refine ⟨tops, b, hok, hclaims, hclaims.markAt_ne_none_iff, ?_⟩
  rcases hpass .inOrder tops (.refl tops) with ⟨c, -, hdone⟩ | ⟨-, ho⟩
  · refine .inl ⟨c.state, hdone.renewal hc, fun p order horder => ?_⟩
    rcases hpass p order horder with ⟨d, hd, hdone'⟩ | ⟨-, ho⟩
    · have hstate : d.state = c.state := hdone.state_eq hdone'
      refine ⟨?_, d.places, ?_, hdone'.nodup, fun u k => (hdone'.mem_places (u, k)).trans and_comm⟩
      · rw [← Logged.run_state p order ⟨b, []⟩, hd, ← hstate]
        rfl
      · rw [hd, ← hstate]
    · exact absurd ho hdone.not_overflows
  · refine .inr ⟨ho, fun p order horder => ?_⟩
    rcases hpass p order horder with ⟨d, -, hdone⟩ | ⟨he, -⟩
    · exact absurd ho hdone.not_overflows
    · rw [← Logged.run_state p order ⟨b, []⟩, he]
      rfl

/-- Three elements of value 1 on a cycle, two of them claimed, one of these twice. -/
theorem passes_agree_of_claims_on_cycle :
    ∃ a : SumList, a.size = 3 ∧ (∀ u < 3, a.list.nextAt u 0 = some ((u + 1) % 3)) ∧
      ∃ tops b a', a.claimAll ([2, 0, 2].map some) = .ok (tops, b) ∧ a.Claims [2, 0, 2] tops b ∧ b.Renewal a' ∧
        ∀ (p : Pass) (order : List Nat), order.Perm tops → p.run order b = .ok a' := by
  obtain ⟨a, hr, hsize, hnext, -⟩ := exists_cycle_of_ones
  obtain ⟨hs, hb⟩ := hr.sound
  have hus : ∀ u ∈ [2, 0, 2], u < a.size := by simp [hsize]
  obtain ⟨tops, b, hok, hclaims, -, ⟨a', hrenewal, hpass⟩ | ⟨-, hfault⟩⟩ :=
    passes_agree_of_claims hs.woven.levelLaw (fun u hu => ⟨hs.woven.height_pos u hu, hs.woven.height_le u⟩) hs.depth
      hs.size_marks hs.unmarked hus
  · exact ⟨a, hsize, hnext, tops, b, a', hok, hclaims, hrenewal, fun p order horder => (hpass p order horder).1⟩
  · -- One of the passes is that of a repair, which makes no sum that is out of range.
    obtain ⟨a', hrepair, -⟩ := repair_spec ⟨hs.toShaped, hb, hs.unmarked, fun u k hk => .inl (hs.summed u k hk)⟩ hus
    have hrun := hfault (.apart inOrderLevels .lastFirst) tops (.refl tops)
    rw [repair, hok] at hrepair
    cases hrepair.symm.trans hrun

end TourForest.SumList
