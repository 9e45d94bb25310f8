import Mathlib.Order.Bounds.Basic
import TourForest.Proofs.SumList.Claim

/-!
# What claims mark

To claim an element is to enter it on level 0, then its parent on the level above the element, and so on. However
many claims meet on the way, the elements marked in the end are those that have been entered, each with the least
level on which it was (`Claims`), and each of them is below one top.

* `SkipList.Woven.reaches_iff`: climbing from parent to parent comes to the ancestors of the element;
* `SkipList.Woven.top_unique`: it comes to one element without a parent at most;
* `claimAll_eq`: several claims answer with the tops, each once.
-/

namespace TourForest

namespace SkipList

variable {s : SkipList} {k t t' u x p : Nat} {us : List Nat}

/-- A climb to the left from the top level of `x` finds `p`. -/
def Parent (s : SkipList) (x p : Nat) : Prop := s.leftParent x (s.height x - 1) = .ok (some p)

/-- The elements that are entered when all of `us` are claimed, with the levels on which they are. -/
inductive Entered (s : SkipList) (us : List Nat) : (k x : Nat) → Prop
  | given {u : Nat} : u ∈ us → Entered s us 0 u
  | climbed {k x p : Nat} : Entered s us k x → s.Parent x p → Entered s us (s.height x) p

theorem Entered.exists_given (h : s.Entered us k x) : ∃ u ∈ us, Relation.ReflTransGen s.Parent u x := by
  induction h with
  | given hu => exact ⟨_, hu, .refl⟩
  | climbed _ hp ih =>
    obtain ⟨u, hu, hr⟩ := ih
    exact ⟨u, hu, hr.tail hp⟩

theorem exists_entered (hu : u ∈ us) (h : Relation.ReflTransGen s.Parent u x) : ∃ k, s.Entered us k x := by
  induction h with
  | refl => exact ⟨0, .given hu⟩
  | tail _ hp ih =>
    obtain ⟨k, hk⟩ := ih
    exact ⟨_, hk.climbed hp⟩

namespace Woven

variable (hs : s.Woven)
include hs

theorem parent_iff (hx : 0 < s.height x) : s.Parent x p ↔ s.Ancestor (s.height x) x p := by
  obtain ⟨o, ho, hop⟩ := hs.leftParent (Nat.sub_one_lt_of_lt hx)
  rw [Nat.sub_one_add_one_eq_of_pos hx] at hop
  rw [Parent, ho, Except.ok.injEq, hop]

/-- Climbing from parent to parent comes to the ancestors that are as tall as they have to be. -/
theorem reaches_iff (hx : 0 < s.height x) :
    Relation.ReflTransGen s.Parent x t ↔ 0 < s.height t ∧ s.Ancestor (s.height t - 1) x t := by
  constructor
  · intro h
    induction h with
    | refl => exact ⟨hx, .here (Nat.sub_one_lt_of_lt hx)⟩
    | @tail y t _ hp ih =>
      obtain ⟨hy, hxy⟩ := ih
      have hyt := (hs.parent_iff hy).mp hp
      have hlt := hyt.lt_height
      exact ⟨Nat.zero_lt_of_lt hlt, (hxy.trans hyt (Nat.sub_le ..)).mono (Nat.le_sub_one_of_lt hlt) (by omega)⟩
  · rintro ⟨ht, h⟩
    induction hd : s.height t - s.height x using Nat.strong_induction_on generalizing x with
    | _ d ih =>
      cases h with
      | here => exact .refl
      | left hle hv h =>
        -- The parent is on the way to the ancestor.
        obtain ⟨p, hp, hpt⟩ := (Ancestor.left hle hv h).factor hle
        have hlt := hp.lt_height
        refine .head ((hs.parent_iff hx).mpr hp) (ih (s.height t - s.height p) ?_ (Nat.zero_lt_of_lt hlt) hpt rfl)
        omega

/-- An element without a parent has no ancestor but itself. -/
theorem eq_of_top (ht : 0 < s.height t) (hno : ∀ p, ¬ s.Parent t p) (h : s.Ancestor k t p) : p = t := by
  cases h with
  | here => rfl
  | left hle hv h =>
    obtain ⟨q, hq, -⟩ := (Ancestor.left hle hv h).factor hle
    exact absurd ((hs.parent_iff ht).mpr hq) (hno q)

/-- Two elements without parents have no descendant in common. -/
theorem top_unique (ht : 0 < s.height t) (ht' : 0 < s.height t') (hno : ∀ p, ¬ s.Parent t p)
    (hno' : ∀ p, ¬ s.Parent t' p) (h : s.Ancestor (s.height t - 1) x t) (h' : s.Ancestor (s.height t' - 1) x t') :
    t = t' := by
  rcases Nat.le_total (s.height t - 1) (s.height t' - 1) with hle | hle
  · exact (hs.eq_of_top ht hno (h.of_lower hs h' hle)).symm
  · exact hs.eq_of_top ht' hno' (h'.of_lower hs h hle)

end Woven

end SkipList

namespace SumList

variable {a b : SumList} {k m u x t : Nat} {us vs tops : List Nat} {top : Option Nat}

/-- Each mark is a level on which the element is entered. -/
def Vouched (us : List Nat) (a : SumList) : Prop := ∀ x m, a.markAt x = some m → a.list.Entered us m x

theorem Vouched.setMark (ht : a.Vouched us) (hs : a.Shaped) (hu : u < a.size) (hm : a.list.Entered us m u) :
    (a.setMark u (some m)).Vouched us := by
  intro x n hx
  rw [hs.markAt_setMark hu] at hx
  split at hx
  · next hxu =>
    obtain rfl := Option.some.inj hx
    exact hxu ▸ hm
  · exact ht x n hx

/-- What changes from `a` to `b` when claims answer with `tops`: marks are added, with levels of entry, and the tops
are elements without parents that had no marks. -/
structure Adds (us : List Nat) (a b : SumList) (tops : List Nat) : Prop extends Remarked a b where
  vouched : b.Vouched us
  kept : ∀ x, a.markAt x ≠ none → b.markAt x ≠ none
  nodup : tops.Nodup
  new : ∀ t ∈ tops, a.markAt t = none ∧ b.markAt t ≠ none ∧ ∀ p, ¬ a.list.Parent t p

/-- A claim that has come to `u` on level `k`. -/
theorem claimFrom_adds : ∀ (steps k u : Nat) {a b : SumList} {top : Option Nat}, a.Shaped →
    a.claimFrom steps k u = .ok (top, b) → k < a.height u → a.list.Entered us k u → a.Vouched us →
    Adds us a b top.toList := by
  intro steps
  induction steps with
  | zero => exact fun k u _ _ _ _ h => nomatch h
  | succ steps ih =>
    intro k u a b top hs h hk hu ht
    have hpos := Nat.zero_lt_of_lt hk
    have hlt : u < a.size := SkipList.lt_size_of_height_pos hpos
    have hkept (m x : Nat) (hx : a.markAt x ≠ none) : (a.setMark u (some m)).markAt x ≠ none := by
      rw [hs.markAt_setMark hlt]
      split
      · exact Option.some_ne_none m
      · exact hx
    rw [claimFrom] at h
    split at h
    · next m hm =>
      cases h
      refine ⟨.setMark .., ht.setMark hs hlt ?_, hkept _, List.nodup_nil, by simp⟩
      rcases min_choice m k with he | he <;> rw [he]
      · exact ht u m hm
      · exact hu
    · next hm =>
      have ht' := ht.setMark hs hlt hu
      obtain ⟨o, ho, h⟩ := bind_eq_ok.mp h
      split at h
      · cases h
        refine ⟨.setMark .., ht', hkept k, List.nodup_singleton u, fun t htop => ?_⟩
        obtain rfl : t = u := by simpa using htop
        refine ⟨hm, by simp [hs.markAt_setMark hlt], fun p hp => ?_⟩
        cases hp.symm.trans ho
      · next p =>
        have hp : a.list.Parent u p := ho
        have hanc := (hs.woven.parent_iff hpos).mp hp
        have hr := Remarked.setMark a u (some k)
        have hadds := ih (a.height u) p (hr.shaped hs) h hanc.lt_height (hu.climbed hp) ht'
        refine ⟨hr.trans hadds.toRemarked, hadds.vouched, fun x hx => hadds.kept x (hkept k x hx), hadds.nodup,
          fun t htop => ?_⟩
        obtain ⟨hnone, hmark, hno⟩ := hadds.new t htop
        exact ⟨by_contra fun hne => hkept k t hne hnone, hmark, hno⟩

/-- Several claims, one after the other. -/
theorem claimAll_adds (hs : a.Shaped) (h : a.claimAll (vs.map some) = .ok (tops, b)) (hlt : ∀ v ∈ vs, v < a.size)
    (hsub : vs ⊆ us) (ht : a.Vouched us) : Adds us a b tops := by
  induction vs generalizing a tops with
  | nil =>
    cases h
    exact ⟨.refl _, ht, fun _ => id, List.nodup_nil, by simp⟩
  | cons v vs ih =>
    obtain ⟨hv, hlt⟩ := List.forall_mem_cons.mp hlt
    obtain ⟨hvu, hsub⟩ := List.cons_subset.mp hsub
    obtain ⟨⟨top, c⟩, hc, h⟩ := bind_eq_ok.mp h
    obtain ⟨⟨tops', c'⟩, hc', h⟩ := bind_eq_ok.mp h
    cases h
    obtain ⟨-, -, hc⟩ := bind_eq_ok.mp hc
    have hfirst := claimFrom_adds (maxHeight + 1) 0 v hs hc (hs.woven.height_pos v hv) (.given hvu) ht
    have hrest := ih (hfirst.toAlike.shaped hs) hc' (fun w hw => hfirst.toAlike.size ▸ hlt w hw) hsub hfirst.vouched
    refine ⟨hfirst.toRemarked.trans hrest.toRemarked, hrest.vouched, fun x hx => hrest.kept x (hfirst.kept x hx), ?_,
      List.forall_mem_append.mpr ⟨fun t htop => ?_, fun t htop => ?_⟩⟩
    · -- A later top had no mark after the first claim.
      exact List.nodup_append'.mpr ⟨hfirst.nodup, hrest.nodup, fun t h₁ h₂ =>
        (hfirst.new t h₁).2.1 (hrest.new t h₂).1⟩
    · obtain ⟨hnone, hmark, hno⟩ := hfirst.new t htop
      exact ⟨hnone, hrest.kept t hmark, hno⟩
    · obtain ⟨hnone, hmark, hno⟩ := hrest.new t htop
      refine ⟨by_contra fun hne => hfirst.kept t hne hnone, hmark, fun p hp => hno p ?_⟩
      rwa [hfirst.list]

/-- An element is marked where it is entered, or lower. -/
theorem Climbed.mark_le_of_entered (hc : b.Climbed none) (hs : b.Shaped) (hgiven : ∀ u ∈ us, b.markAt u = some 0)
    (hx : b.list.Entered us k x) : ∃ m ≤ k, b.markAt x = some m := by
  induction hx with
  | given hmem => exact ⟨0, le_rfl, hgiven _ hmem⟩
  | climbed _ hp ih =>
    obtain ⟨m, -, hm⟩ := ih
    have hanc := (hs.woven.parent_iff (Nat.zero_lt_of_lt (hc.lt_height _ m hm))).mp hp
    obtain hn | hn := hc.parent _ m _ hm hanc
    · cases hn
    · exact hn

/-- Each marked element is below one top. -/
theorem Claimed.existsUnique_top (h : b.Claimed tops) (hc : b.Climbed none) (hs : b.Shaped)
    (hno : ∀ t ∈ tops, ∀ p, ¬ b.list.Parent t p) (hm : b.markAt x = some m) :
    ∃! t, t ∈ tops ∧ Relation.ReflTransGen b.list.Parent x t := by
  have hx := Nat.zero_lt_of_lt (hc.lt_height x m hm)
  obtain ⟨t, htop, hanc⟩ := h.exists_top hs hc hm
  have ht := h.height_pos t htop
  refine ⟨t, ⟨htop, (hs.woven.reaches_iff hx).mpr ⟨ht, hanc⟩⟩, fun t' ⟨htop', hreach⟩ => ?_⟩
  obtain ⟨ht', hanc'⟩ := (hs.woven.reaches_iff hx).mp hreach
  exact hs.woven.top_unique ht' ht (hno t' htop') (hno t htop) hanc' hanc

/-- After claims of all `us` the elements that were entered are marked, with the least level of entry, and each of
them is below one of the tops. -/
structure Claims (a : SumList) (us tops : List Nat) (b : SumList) : Prop extends Remarked a b where
  nodup : tops.Nodup
  markAt_iff : ∀ x m, b.markAt x = some m ↔ IsLeast {k | a.list.Entered us k x} m
  top : ∀ t ∈ tops, b.markAt t ≠ none ∧ ∀ p, ¬ a.list.Parent t p
  below : ∀ x, b.markAt x ≠ none → ∃! t, t ∈ tops ∧ Relation.ReflTransGen a.list.Parent x t

/-- The marked elements are the given ones and their ancestors. -/
theorem Claims.markAt_ne_none_iff (h : a.Claims us tops b) (x : Nat) :
    b.markAt x ≠ none ↔ ∃ u ∈ us, Relation.ReflTransGen a.list.Parent u x := by
  rw [Option.ne_none_iff_exists']
  constructor
  · rintro ⟨m, hm⟩
    exact ((h.markAt_iff x m).mp hm).1.exists_given
  · rintro ⟨u, hu, hr⟩
    have hentered := SkipList.exists_entered hu hr
    classical
    exact ⟨Nat.find hentered, (h.markAt_iff x _).mpr ⟨Nat.find_spec hentered, fun k => Nat.find_min' hentered⟩⟩

/-- Claims answer with the tops. -/
theorem claimAll_eq (hs : a.Shaped) (hclear : ∀ x, a.markAt x = none) (hu : ∀ u ∈ us, u < a.size) :
    ∃ tops b, a.claimAll (us.map some) = .ok (tops, b) ∧ a.Claims us tops b ∧ b.Climbed none := by
  have hno {x m : Nat} : a.markAt x ≠ some m := by simp [hclear x]
  have hempty : a.Claimed [] := ⟨fun x m hx => absurd hx hno, List.forall_mem_nil _⟩
  obtain ⟨tops, b, hok, hr, hclimbed, hclaimed, -, hgiven⟩ :=
    claimAll_spec hs ⟨fun x m hx => absurd hx hno, fun x m p hx => absurd hx hno⟩ hempty hu
  have hadds := claimAll_adds hs hok hu (List.Subset.refl us) fun x m hx => absurd hx hno
  rw [List.append_nil] at hclaimed
  have hbs := hr.shaped hs
  have hentered (x m : Nat) (hx : b.markAt x = some m) : a.list.Entered us m x := hr.list ▸ hadds.vouched x m hx
  have hle {x k : Nat} (hx : a.list.Entered us k x) : ∃ m ≤ k, b.markAt x = some m :=
    hclimbed.mark_le_of_entered hbs hgiven (hr.list.symm ▸ hx)
  refine ⟨tops, b, hok, ⟨hr, hadds.nodup, fun x m => ⟨fun hx => ⟨hentered x m hx, fun k hk => ?_⟩, fun hx => ?_⟩,
    fun t htop => (hadds.new t htop).2, fun x hx => ?_⟩, hclimbed⟩
  · obtain ⟨n, hn, hxn⟩ := hle hk
    obtain rfl := Option.some.inj (hx.symm.trans hxn)
    exact hn
  · obtain ⟨n, hn, hxn⟩ := hle hx.1
    rw [hxn, Nat.le_antisymm hn (hx.2 (hentered x n hxn))]
  · obtain ⟨m, hm⟩ := Option.ne_none_iff_exists'.mp hx
    rw [← hr.list]
    refine hclaimed.existsUnique_top hclimbed hbs (fun t htop p => ?_) hm
    rw [hr.list]
    exact (hadds.new t htop).2.2 p

end SumList

end TourForest
