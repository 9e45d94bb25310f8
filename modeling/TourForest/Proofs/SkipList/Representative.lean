import Mathlib.Order.MinMax
import TourForest.Proofs.SkipList.Listing
import TourForest.Proofs.SkipList.Reachable
import TourForest.SkipList.Representative

/-!
# Finding the representative

The walk for the representative moves on the top level of the element it has reached, so it never
comes to a lower one. On a cycle it climbs to a tallest element and passes all of them once before it
meets the least again; on a chain it ends behind all that is as tall, and goes back from there. The
outcome is the same from each element of a sequence (`Woven.representative`), which is what makes
`sameSequence` tell sequences apart (`Woven.sameSequence`). So it is on every list that joins and splits
lead to (`representative_of_reachable`).
-/

namespace TourForest.SkipList

variable {s : SkipList} {cur k steps r u v : Nat} {as bs xs ys zs : List Nat}

/-- The element `r` stands for the sequence `xs`: the first of the tallest elements of a chain, and the
least of those of a cycle. -/
inductive Represents (s : SkipList) : (closed : Bool) → (xs : List Nat) → (r : Nat) → Prop
  | first {as bs : List Nat} {r : Nat} : (∀ x ∈ as, s.height x < s.height r) →
      (∀ x ∈ bs, s.height x ≤ s.height r) → Represents s false (as ++ r :: bs) r
  | least {xs : List Nat} {r : Nat} : r ∈ xs → (∀ x ∈ xs, s.height x ≤ s.height r) →
      (∀ x ∈ xs, s.height x = s.height r → r ≤ x) → Represents s true xs r

namespace Represents

variable {closed : Bool}

theorem mem (h : s.Represents closed xs r) : r ∈ xs := by
  cases h with
  | first => simp
  | least hr => exact hr

/-- For what stands for a cycle it does not matter where the cycle begins. -/
theorem congr (h : s.Represents true xs r) (hy : ∀ x, x ∈ xs ↔ x ∈ ys) : s.Represents true ys r := by
  obtain - | ⟨hm, hle, hleast⟩ := h
  exact .least ((hy r).mp hm) (fun x hx => hle x ((hy x).mpr hx)) fun x hx => hleast x ((hy x).mpr hx)

/-- One element stands for a sequence. -/
theorem unique {r' : Nat} (h : s.Represents closed xs r) (h' : s.Represents closed xs r') :
    r = r' := by
  cases closed with
  | true =>
    obtain - | ⟨hm, hle, hleast⟩ := h
    obtain - | ⟨hm', hle', hleast'⟩ := h'
    have hh : s.height r = s.height r' := le_antisymm (hle' r hm) (hle r' hm')
    exact le_antisymm (hleast r' hm' hh.symm) (hleast' r hm hh)
  | false =>
    obtain ⟨hlt, hle⟩ | - := h
    rename_i as bs
    generalize hx : as ++ r :: bs = xs at h'
    obtain ⟨hlt', hle'⟩ | - := h'
    rename_i as' bs'
    have hr : ∀ x ∈ as ++ r :: bs, s.height x ≤ s.height r := by
      simp only [List.mem_append, List.mem_cons]
      rintro x (hx | rfl | hx)
      · exact (hlt x hx).le
      · exact le_rfl
      · exact hle x hx
    have hr' : ∀ x ∈ as' ++ r' :: bs', s.height x ≤ s.height r' := by
      simp only [List.mem_append, List.mem_cons]
      rintro x (hx | rfl | hx)
      · exact (hlt' x hx).le
      · exact le_rfl
      · exact hle' x hx
    have hh : s.height r = s.height r' :=
      le_antisymm (hr' r (hx ▸ by simp)) (hr r' (hx ▸ by simp))
    -- Whichever of the two came first would be lower than the other.
    rcases List.append_eq_append_iff.mp hx with ⟨cs, rfl, hc⟩ | ⟨cs, rfl, hc⟩
    · rcases cs with _ | ⟨c, cs⟩
      · exact (List.cons.inj hc).1
      · obtain ⟨rfl, -⟩ := List.cons.inj hc
        exact absurd (hlt' r (by simp)) (by omega)
    · rcases cs with _ | ⟨c, cs⟩
      · exact (List.cons.inj hc).1.symm
      · obtain ⟨rfl, -⟩ := List.cons.inj hc
        exact absurd (hlt r' (by simp)) (by omega)

end Represents

/-- Among the elements of a list there is a first tallest one. -/
theorem exists_first_tallest (s : SkipList) (h : xs ≠ []) :
    ∃ as t bs, xs = as ++ t :: bs ∧ (∀ x ∈ as, s.height x < s.height t) ∧
      ∀ x ∈ bs, s.height x ≤ s.height t := by
  induction xs with
  | nil => exact absurd rfl h
  | cons x xs ih =>
    by_cases hx : xs = []
    · exact ⟨[], x, [], by simp [hx]⟩
    · obtain ⟨as, t, bs, rfl, has, hbs⟩ := ih hx
      by_cases hlt : s.height x < s.height t
      · exact ⟨x :: as, t, bs, rfl, List.forall_mem_cons.mpr ⟨hlt, has⟩, hbs⟩
      · refine ⟨[], x, as ++ t :: bs, rfl, by simp, ?_⟩
        simp only [List.mem_append, List.mem_cons]
        rintro y (hy | rfl | hy)
        · exact ((has y hy).trans_le (not_lt.mp hlt)).le
        · exact not_lt.mp hlt
        · exact (hbs y hy).trans (not_lt.mp hlt)

/-- The least element passed is none of those still to come, if none that was passed is. -/
theorem least_notMem {least : Option Nat} (hc : cur ∉ zs) (hl : ∀ m ∈ least, m ∉ zs) :
    ∀ m ∈ some (min cur (least.getD cur)), m ∉ zs := by
  rintro m hm
  obtain rfl := Option.some_inj.mp hm
  rcases least with _ | m'
  · simpa using hc
  · rw [Option.getD_some]
    rcases min_choice cur m' with e | e
    · rwa [e]
    · rw [e]
      exact hl m' rfl

/-! ## Chains -/

/-- On a chain the walk forward ends at an element behind which all are lower. -/
theorem forward_of_open (hs : s.Woven) (hx : s.IsSequence false (as ++ cur :: bs))
    {least : Option Nat} (hl : ∀ m ∈ least, m ∉ cur :: bs) (hsteps : bs.length < steps) :
    ∃ as' w bs', as ++ cur :: bs = as' ++ w :: bs' ∧
      s.forward steps cur (s.height cur - 1) least = .ok (.ended w (s.height w - 1)) ∧
      ∀ x ∈ bs', s.height x < s.height w := by
  induction hn : bs.length using Nat.strong_induction_on generalizing as cur bs least steps with
  | _ n ih =>
    obtain ⟨steps, rfl⟩ := Nat.exists_eq_add_one_of_ne_zero (Nat.ne_zero_of_lt hsteps)
    have hpos := hs.height_pos cur (hx.lt_size cur (by simp))
    have hne : least ≠ some cur := fun e => hl cur e List.mem_cons_self
    have hrow := hx.strand (s.height cur - 1)
    rw [onLevel_append, onLevel_cons, if_pos (by omega)] at hrow
    rw [forward, if_neg hne, Row.next_eq hrow]
    rcases hb : s.onLevel (s.height cur - 1) bs with _ | ⟨v, vs⟩
    · refine ⟨as, cur, bs, rfl, rfl, fun x hxb => ?_⟩
      have hxn : x ∉ s.onLevel (s.height cur - 1) bs := by simp [hb]
      rw [mem_onLevel, not_and, not_lt] at hxn
      have := hxn hxb
      omega
    · obtain ⟨b1, b2, rfl, -, hv, -⟩ := List.filter_eq_cons_iff.mp hb
      have hvk : s.height cur - 1 < s.height v := by simpa using hv
      have hnd := (List.nodup_append'.mp hx.nodup).2.1
      have hx' : s.IsSequence false ((as ++ cur :: b1) ++ v :: b2) := by simpa using hx
      simp only [List.head?_cons, Option.some_or]
      have hlen : b2.length < n := by
        rw [← hn, List.length_append, List.length_cons]
        omega
      have hgo (least' : Option Nat) (hl' : ∀ m ∈ least', m ∉ v :: b2) :=
        ih b2.length hlen hx' hl' (by omega : b2.length < steps) rfl
      split
      · obtain ⟨as', w, bs', heq, hok, hlow⟩ := hgo none (by simp)
        exact ⟨as', w, bs', by rw [← heq]; simp, hok, hlow⟩
      · have hvh : s.height v = s.height cur := by omega
        have hcv : cur ∉ v :: b2 := fun hm =>
          (List.nodup_cons.mp hnd).1 (List.mem_append_right _ hm)
        obtain ⟨as', w, bs', heq, hok, hlow⟩ := hgo _ (least_notMem hcv fun m hm hmv =>
          hl m hm (List.mem_cons_of_mem _ (List.mem_append_right _ hmv)))
        rw [hvh] at hok
        exact ⟨as', w, bs', by rw [← heq]; simp, hvh ▸ hok, hlow⟩

/-- From an element behind which none is taller, the walk backward leads to the first of the tallest
elements of a chain. -/
theorem backward_of_open (hs : s.Woven) (hx : s.IsSequence false (as ++ cur :: bs))
    (hb : ∀ x ∈ bs, s.height x ≤ s.height cur) (hsteps : as.length < steps) :
    ∃ r, s.backward steps cur (s.height cur - 1) = .ok r ∧ s.Represents false (as ++ cur :: bs) r := by
  induction hn : as.length using Nat.strong_induction_on generalizing as cur bs steps with
  | _ n ih =>
    obtain ⟨steps, rfl⟩ := Nat.exists_eq_add_one_of_ne_zero (Nat.ne_zero_of_lt hsteps)
    have hpos := hs.height_pos cur (hx.lt_size cur (by simp))
    have hrow := hx.strand (s.height cur - 1)
    rw [onLevel_append, onLevel_cons, if_pos (by omega)] at hrow
    rw [backward, Row.prev_eq hrow]
    rcases (s.onLevel (s.height cur - 1) as).eq_nil_or_concat with ha | ⟨vs, v, ha⟩
    · rw [ha]
      refine ⟨cur, rfl, .first (fun x hxa => ?_) hb⟩
      have hxn : x ∉ s.onLevel (s.height cur - 1) as := by simp [ha]
      rw [mem_onLevel, not_and, not_lt] at hxn
      have := hxn hxa
      omega
    · rw [List.concat_eq_append] at ha
      obtain ⟨a1, a2', rfl, -, ha2⟩ := List.filter_eq_append_iff.mp ha
      obtain ⟨a2, a3, rfl, -, hv, hlow⟩ := List.filter_eq_cons_iff.mp ha2
      have hvk : s.height cur - 1 < s.height v := by simpa using hv
      have hx' : s.IsSequence false ((a1 ++ a2) ++ v :: (a3 ++ cur :: bs)) := by simpa using hx
      have hlow' : ∀ x ∈ a3 ++ cur :: bs, s.height x ≤ s.height v := by
        simp only [List.mem_append, List.mem_cons]
        rintro x (hxa | rfl | hxb)
        · have hxn : ¬ s.height cur - 1 < s.height x := by
            simpa using List.filter_eq_nil_iff.mp hlow x hxa
          omega
        · omega
        · have := hb x hxb
          omega
      have hlen : (a1 ++ a2).length < n := by
        rw [← hn, List.length_append, List.length_append, List.length_append, List.length_cons]
        omega
      obtain ⟨r, hok, hr⟩ := ih _ hlen hx' hlow' (by omega : _ < steps) rfl
      refine ⟨r, ?_, by simpa using hr⟩
      rw [ha]
      simpa using hok

/-! ## Cycles -/

/-- From a lower element of a cycle the walk forward climbs to the first of the tallest ones. -/
theorem forward_of_lower (hs : s.Woven) {t : Nat} (hx : s.IsSequence true (cur :: (as ++ t :: bs)))
    (hc : s.height cur < s.height t) (ha : ∀ x ∈ as, s.height x < s.height t) {least : Option Nat}
    (hl : ∀ m ∈ least, m ∉ cur :: as) (hsteps : as.length < steps) :
    ∃ steps', steps ≤ steps' + as.length + 1 ∧
      s.forward steps cur (s.height cur - 1) least = s.forward steps' t (s.height t - 1) none := by
  induction hn : as.length using Nat.strong_induction_on generalizing as cur bs least steps with
  | _ n ih =>
    obtain ⟨steps, rfl⟩ := Nat.exists_eq_add_one_of_ne_zero (Nat.ne_zero_of_lt hsteps)
    have hpos := hs.height_pos cur (hx.lt_size cur (by simp))
    have hne : least ≠ some cur := fun e => hl cur e List.mem_cons_self
    have hrow := hx.strand (s.height cur - 1)
    rw [onLevel_cons, if_pos (by omega), onLevel_append, onLevel_cons, if_pos (by omega)] at hrow
    rw [forward, if_neg hne, Row.next_head hrow]
    rcases hb : s.onLevel (s.height cur - 1) as with _ | ⟨v, vs⟩
    · simp only [List.nil_append, List.head?_cons, Option.some_or]
      rw [if_pos (by omega)]
      exact ⟨steps, by omega, rfl⟩
    · obtain ⟨a1, a2, rfl, -, hv, -⟩ := List.filter_eq_cons_iff.mp hb
      have hvk : s.height cur - 1 < s.height v := by simpa using hv
      have hnd := List.nodup_cons.mp hx.nodup
      have hx' : s.IsSequence true (v :: (a2 ++ t :: (bs ++ cur :: a1))) := by
        have hsplit : cur :: ((a1 ++ v :: a2) ++ t :: bs) = (cur :: a1) ++ (v :: (a2 ++ t :: bs)) := by
          simp
        rw [hsplit] at hx
        simpa using hx.rotate
      have hlen : a2.length < n := by
        rw [← hn, List.length_append, List.length_cons]
        omega
      have hgo (least' : Option Nat) (hl' : ∀ m ∈ least', m ∉ v :: a2) :
          ∃ steps', steps + 1 ≤ steps' + n + 1 ∧
            s.forward steps v (s.height v - 1) least' = s.forward steps' t (s.height t - 1) none := by
        obtain ⟨steps', hle, hok⟩ := ih a2.length hlen hx' (ha v (by simp))
          (fun x hxa => ha x (by simp [hxa])) hl' (by omega : a2.length < steps) rfl
        exact ⟨steps', by omega, hok⟩
      simp only [List.cons_append, List.head?_cons, Option.some_or]
      split
      · exact hgo none (by simp)
      · rw [show s.height cur - 1 = s.height v - 1 by omega]
        have hcv : cur ∉ v :: a2 := fun hm =>
          hnd.1 (List.mem_append_left _ (List.mem_append_right _ hm))
        exact hgo _ (least_notMem hcv fun m hm hmv =>
          hl m hm (List.mem_cons_of_mem _ (List.mem_append_right _ hmv)))

/-- The least of the elements `zs` and of `least`. -/
def leastPassed (least : Option Nat) (zs : List Nat) : Option Nat :=
  zs.foldl (fun l z => some (min z (l.getD z))) least

theorem leastPassed_spec (m : Nat) (zs : List Nat) :
    ∃ m', leastPassed (some m) zs = some m' ∧ m' ∈ m :: zs ∧ ∀ z ∈ m :: zs, m' ≤ z := by
  induction zs generalizing m with
  | nil => exact ⟨m, rfl, by simp, by simp⟩
  | cons z zs ih =>
    obtain ⟨m', hok, hmem, hle⟩ := ih (min z m)
    refine ⟨m', hok, ?_, ?_⟩
    · rcases List.mem_cons.mp hmem with rfl | hm
      · rcases min_choice z m with e | e <;> simp [e]
      · simp [hm]
    · have hmin := hle _ List.mem_cons_self
      simp only [List.forall_mem_cons]
      exact ⟨by omega, by omega, fun y hy => hle y (List.mem_cons_of_mem _ hy)⟩

/-- Along elements that are all as tall, the walk forward keeps the least in mind. -/
theorem forward_of_level {e n : Nat} {least : Option Nat} (ht : Trail (s.nextAt · k) zs (some e))
    (hz : ∀ z ∈ zs, s.height z = k + 1) (he : s.height e = k + 1) (hn : zs.Nodup)
    (hl : ∀ m ∈ least, m ∉ zs) :
    s.forward (zs.length + n) (zs.head?.getD e) k least = s.forward n e k (leastPassed least zs) := by
  induction zs generalizing least with
  | nil => simp [leastPassed]
  | cons z zs ih =>
    obtain ⟨hzh, hz⟩ := List.forall_mem_cons.mp hz
    obtain ⟨hzn, hn⟩ := List.nodup_cons.mp hn
    have hnext : s.nextAt z k = some (zs.head?.getD e) := by
      refine ht.1.trans ?_
      cases zs <;> rfl
    have hheight : s.height (zs.head?.getD e) = k + 1 := by
      cases zs with
      | nil => exact he
      | cons y ys => exact hz y List.mem_cons_self
    have hne : least ≠ some z := fun e => hl z e List.mem_cons_self
    rw [List.length_cons, Nat.add_right_comm, List.head?_cons, Option.getD_some, forward, if_neg hne, hnext]
    simp only [hheight, Nat.add_sub_cancel, lt_irrefl, if_false]
    exact ih ht.2 hz hn (least_notMem hzn fun m hm hmz => hl m hm (List.mem_cons_of_mem _ hmz))

theorem leastPassed_of_le {m : Nat} (hm : ∀ z ∈ zs, m ≤ z) : leastPassed (some m) zs = some m := by
  obtain ⟨m', hm', hmem, hle⟩ := leastPassed_spec m zs
  rw [hm']
  refine congrArg some (le_antisymm (hle m List.mem_cons_self) ?_)
  rcases List.mem_cons.mp hmem with rfl | hmz
  · exact le_rfl
  · exact hm m' hmz

/-- Around a cycle of elements that are all as tall, the walk forward comes to the least of them. -/
theorem forward_around {t : Nat} (ht : Trail (s.nextAt · k) (t :: zs) (some t))
    (hz : ∀ z ∈ t :: zs, s.height z = k + 1) (hn : (t :: zs).Nodup) (hsteps : 2 * (t :: zs).length < steps) :
    ∃ m ∈ t :: zs, (∀ z ∈ t :: zs, m ≤ z) ∧ s.forward steps t k none = .ok (.closed m) := by
  -- One lap, after which the least of all is known.
  obtain ⟨n, rfl⟩ : ∃ n, steps = (t :: zs).length + n := ⟨steps - (t :: zs).length, by omega⟩
  have hlap := forward_of_level (n := n) ht hz (hz t List.mem_cons_self) hn (by simp : ∀ m ∈ none, m ∉ t :: zs)
  rw [List.head?_cons, Option.getD_some] at hlap
  obtain ⟨m, hm, hmem, hle⟩ := leastPassed_spec t zs
  have hpass : leastPassed none (t :: zs) = some m := by
    rw [← hm]
    simp [leastPassed]
  rw [hpass] at hlap
  refine ⟨m, hmem, hle, ?_⟩
  -- The walk up to the least.
  obtain ⟨cs, ds, hcd⟩ := List.append_of_mem hmem
  rw [hcd] at hz hn hle ht hlap hsteps
  rw [Trail.append_iff, List.head?_cons, Option.some_or] at ht
  obtain ⟨hnc, -, hdisj⟩ := List.nodup_append'.mp hn
  have hmc : m ∉ cs := fun hmc => hdisj hmc List.mem_cons_self
  rw [List.length_append, List.length_cons] at hsteps
  obtain ⟨n', rfl⟩ : ∃ n', n = cs.length + (n' + 1) := ⟨n - cs.length - 1, by omega⟩
  have hhead : cs.head?.getD m = t := by
    cases cs with
    | nil => exact (List.cons.inj hcd).1.symm
    | cons c cs => exact (List.cons.inj hcd).1.symm
  have hrest := forward_of_level (n := n' + 1) ht.1 (fun z hzc => hz z (by simp [hzc])) (hz m (by simp)) hnc
    (by simpa using hmc : ∀ x ∈ some m, x ∉ cs)
  rw [hhead, leastPassed_of_le fun z hzc => hle z (by simp [hzc])] at hrest
  rw [hcd, hlap, hrest, forward, if_pos rfl]

/-- From a tallest element of a cycle the walk forward comes to the least of them. -/
theorem forward_of_tallest (hs : s.Woven) {t : Nat} (hx : s.IsSequence true (t :: bs))
    (hb : ∀ x ∈ bs, s.height x ≤ s.height t) (hsteps : 2 * (bs.length + 1) < steps) :
    ∃ r, s.forward steps t (s.height t - 1) none = .ok (.closed r) ∧ s.Represents true (t :: bs) r := by
  have hpos := hs.height_pos t (hx.lt_size t (by simp))
  generalize hk : s.height t - 1 = k
  have htk : s.height t = k + 1 := by omega
  have htall : ∀ x ∈ t :: bs, s.height x ≤ k + 1 := by
    rw [List.forall_mem_cons, ← htk]
    exact ⟨le_rfl, hb⟩
  have hlevel : s.onLevel k (t :: bs) = t :: s.onLevel k bs := by
    rw [onLevel_cons, if_pos (by omega)]
  have hmem {x : Nat} : x ∈ t :: s.onLevel k bs ↔ x ∈ t :: bs ∧ s.height x = k + 1 := by
    rw [← hlevel, mem_onLevel]
    refine and_congr_right fun hxm => ?_
    have := htall x hxm
    omega
  have hstrand := hx.strand k
  rw [hlevel] at hstrand
  have hlen : (s.onLevel k bs).length ≤ bs.length := List.length_filter_le ..
  have hnd : (t :: s.onLevel k bs).Nodup := hlevel ▸ hx.nodup.filter _
  obtain ⟨m, hm, hle, hok⟩ := forward_around hstrand.forth (fun z hz => (hmem.mp hz).2) hnd
    (by rw [List.length_cons]; omega : _ < steps)
  obtain ⟨hmb, hmk⟩ := hmem.mp hm
  refine ⟨m, hok, .least hmb (fun x hxm => ?_) fun x hxm hxh => hle x (hmem.mpr ⟨hxm, hxh.trans hmk⟩)⟩
  rw [hmk]
  exact htall x hxm

/-! ## All sequences -/

namespace Woven

theorem representative_of_open (hs : s.Woven) (hx : s.IsSequence false (as ++ u :: bs)) :
    ∃ r, s.representative u = .ok r ∧ s.Represents false (as ++ u :: bs) r := by
  have hlen := length_le_size hx.nodup hx.lt_size
  rw [List.length_append, List.length_cons] at hlen
  have hmax : maxHeight = 32 := rfl
  rw [SkipList.representative, check_of_lt (hx.lt_size u (by simp)), ok_bind]
  obtain ⟨as', w, bs', heq, hok, hlow⟩ := forward_of_open hs hx
    (by simp : ∀ m ∈ none, m ∉ u :: bs) (by rw [hmax]; omega : bs.length < maxHeight * (2 * s.size + 1))
  have hlen' := congrArg List.length heq
  rw [List.length_append, List.length_append, List.length_cons, List.length_cons] at hlen'
  rw [heq] at hx ⊢
  obtain ⟨r, hback, hr⟩ := backward_of_open hs hx (fun x hxb => (hlow x hxb).le)
    (by rw [hmax]; omega : as'.length < maxHeight * (s.size + 1))
  exact ⟨r, by rw [hok, ok_bind]; exact hback, hr⟩

theorem representative_of_closed (hs : s.Woven) (hx : s.IsSequence true (u :: ys)) :
    ∃ r, s.representative u = .ok r ∧ s.Represents true (u :: ys) r := by
  have hlen := length_le_size hx.nodup hx.lt_size
  rw [List.length_cons] at hlen
  have hmax : maxHeight = 32 := rfl
  rw [SkipList.representative, check_of_lt (hx.lt_size u List.mem_cons_self), ok_bind]
  obtain ⟨cs, t, ds, hcd, hlt, hle⟩ := s.exists_first_tallest (List.cons_ne_nil u ys)
  cases cs with
  | nil =>
    obtain ⟨rfl, rfl⟩ := List.cons.inj hcd
    obtain ⟨r, hok, hr⟩ := forward_of_tallest hs hx hle
      (by rw [hmax]; omega : 2 * (ys.length + 1) < maxHeight * (2 * s.size + 1))
    exact ⟨r, by rw [hok]; rfl, hr⟩
  | cons c cs =>
    obtain ⟨rfl, rfl : ys = cs ++ t :: ds⟩ := List.cons.inj hcd
    obtain ⟨hcu, hlt⟩ := List.forall_mem_cons.mp hlt
    rw [List.length_append, List.length_cons] at hlen
    obtain ⟨steps, hsteps, hclimb⟩ := forward_of_lower hs hx hcu hlt
      (by simp : ∀ m ∈ none, m ∉ u :: cs) (by rw [hmax]; omega : cs.length < maxHeight * (2 * s.size + 1))
    have hx' : s.IsSequence true (t :: (ds ++ u :: cs)) := by
      rw [← List.cons_append] at hx
      exact hx.rotate
    have hle' : ∀ x ∈ ds ++ u :: cs, s.height x ≤ s.height t := by
      simp only [List.mem_append, List.mem_cons]
      rintro x (hxd | rfl | hxc)
      · exact hle x hxd
      · exact hcu.le
      · exact (hlt x hxc).le
    obtain ⟨r, hok, hr⟩ := forward_of_tallest hs hx' hle' (by
      rw [List.length_append, List.length_cons]
      rw [hmax] at hsteps
      omega : _ < steps)
    refine ⟨r, by rw [hclimb, hok]; rfl, hr.congr fun x => ?_⟩
    simp only [List.mem_append, List.mem_cons]
    tauto

/-- The representative of each element of a sequence is the one that stands for the sequence. -/
theorem representative (hs : s.Woven) {closed : Bool} (hx : s.IsSequence closed xs) (hu : u ∈ xs) :
    ∃ r, s.representative u = .ok r ∧ s.Represents closed xs r := by
  obtain ⟨as, bs, rfl⟩ := List.append_of_mem hu
  cases closed with
  | false => exact hs.representative_of_open hx
  | true =>
    have hx' := hx.rotate
    rw [List.cons_append] at hx'
    obtain ⟨r, hok, hr⟩ := hs.representative_of_closed hx'
    refine ⟨r, hok, hr.congr fun x => ?_⟩
    simp only [List.mem_append, List.mem_cons]
    tauto

/-- What stands for a sequence is the representative of its elements and of no others. -/
theorem representative_eq_iff (hs : s.Woven) {closed : Bool} (hx : s.IsSequence closed xs)
    (hr : s.Represents closed xs r) (hv : v < s.size) : s.representative v = .ok r ↔ v ∈ xs := by
  obtain ⟨c, ys, hvy, hy⟩ := hs.covered v hv
  constructor
  · intro h
    obtain ⟨r', hr', hry⟩ := hs.representative hy hvy
    obtain rfl : r = r' := Except.ok.inj (h.symm.trans hr')
    exact hy.subset_of_mem hx hs hry.mem hr.mem hvy
  · intro hvx
    obtain ⟨r', hr', hrx⟩ := hs.representative hx hvx
    rw [hr', hr.unique hrx]

/-- Two elements are in one sequence if their representatives are the same. -/
theorem sameSequence (hs : s.Woven) {closed : Bool} (hx : s.IsSequence closed xs) (hu : u ∈ xs)
    (hv : v < s.size) : s.sameSequence u v = .ok (decide (v ∈ xs)) := by
  obtain ⟨r, hr, hrx⟩ := hs.representative hx hu
  obtain ⟨c, ys, hvy, hy⟩ := hs.covered v hv
  obtain ⟨r', hr', -⟩ := hs.representative hy hvy
  have hiff := hs.representative_eq_iff hx hrx hv
  rw [hr', Except.ok.injEq] at hiff
  rw [SkipList.sameSequence, hr, hr', ok_bind, ok_bind, pure_eq_ok]
  refine congrArg _ ?_
  rw [beq_eq_decide, decide_eq_decide, ← hiff, eq_comm]

end Woven

/-! ## Lists that joins and splits lead to -/

/-- In a cycle, and in nothing else, each element has a successor. -/
theorem IsSequence.closed_iff (hs : s.Woven) {closed : Bool} (hx : s.IsSequence closed xs) (hu : u ∈ xs) :
    closed = true ↔ ∀ x ∈ xs, s.nextAt x 0 ≠ none := by
  constructor
  · rintro rfl x hxm hn
    simpa using (hx.of_next_eq_none hs hxm hn).1
  · intro h
    obtain ⟨as, l, rfl⟩ := xs.eq_nil_or_concat.resolve_left (List.ne_nil_of_mem hu)
    rw [List.concat_eq_append] at h hx
    cases closed with
    | true => rfl
    | false => exact absurd (Row.next_last (hx.strand_zero hs)) (h l (by simp))

/-- From each element of a list that joins and splits lead to, the walk for the representative ends: on
a cycle at the least of the tallest elements, and on a chain at the first of them. So two elements have
one representative if and only if they are in one sequence, and `sameSequence` tells whether they are. -/
theorem representative_of_reachable (h : s.Reachable) :
    ∀ u < s.size, ∃ closed xs r,
      s.sequence u = .ok xs ∧ u ∈ xs ∧ s.IsSequence closed xs ∧
      (closed = true ↔ ∀ x ∈ xs, s.nextAt x 0 ≠ none) ∧
      s.representative u = .ok r ∧ s.Represents closed xs r ∧
      ∀ v < s.size, (s.representative v = .ok r ↔ v ∈ xs) ∧ s.sameSequence u v = .ok (decide (v ∈ xs)) := by
  intro u hu
  have hs := h.woven
  obtain ⟨closed, xs, hseq, hux, hx, -⟩ := hs.sequence hu
  obtain ⟨r, hok, hr⟩ := hs.representative hx hux
  refine ⟨closed, xs, r, hseq, hux, hx, hx.closed_iff hs hux, hok, hr, fun v hv => ⟨?_, ?_⟩⟩
  · exact hs.representative_eq_iff hx hr hv
  · exact hs.sameSequence hx hux hv

/-- Two new elements that have been joined to a cycle have the same representative. -/
theorem representative_of_joined_cycle :
    ∃ s : SkipList, s.Reachable ∧ s.nextAt 0 0 = some 1 ∧ s.nextAt 1 0 = some 0 ∧
      ∃ r, s.representative 0 = .ok r ∧ s.representative 1 = .ok r ∧ s.sameSequence 0 1 = .ok true := by
  obtain ⟨s, links, hs, hd⟩ :=
    outcome_build .empty ⟨0⟩ (by decide : 2 * (elementBytes + 0) ≤ largestBlock)
  have hsize : s.size = 2 := by rw [hd.size_eq, length_drawnHeights]
  have hn (u : Nat) : s.nextAt u 0 = none := by rw [nextAt, hd.linksAt_eq, Links.detached]
  have hp (u : Nat) : s.prevAt u 0 = none := by rw [prevAt, hd.linksAt_eq, Links.detached]
  have hr : s.Reachable := .built hs
  obtain ⟨t, hjoin, ht, htsize, -, htnext⟩ := hr.woven.join (l := 0) (r := 1) (by omega) (by omega) (hn 0) (hp 1)
  have htr : t.Reachable := .joined hr (by omega) (by omega) (hn 0) (hp 1) hjoin
  have htn : t.nextAt 1 0 = none := by rw [htnext, if_neg (by decide), hn]
  have htp : t.prevAt 0 0 = none := by
    refine Option.eq_none_iff_forall_ne_some.mpr fun y hy => ?_
    rw [← ht.next_iff_prev, htnext, hn] at hy
    split at hy <;> simp at hy
  obtain ⟨c, hjoin', hc, hcsize, -, hcnext⟩ := ht.join (l := 1) (r := 0) (by omega) (by omega) htn htp
  have hcr : c.Reachable := .joined htr (by omega) (by omega) htn htp hjoin'
  have h0 : c.nextAt 0 0 = some 1 := by rw [hcnext, if_neg (by decide), htnext, if_pos rfl]
  have h1 : c.nextAt 1 0 = some 0 := by rw [hcnext, if_pos rfl]
  obtain ⟨closed, xs, r, -, h0x, hx, -, hok, -, hsame⟩ := representative_of_reachable hcr 0 (by omega)
  obtain ⟨hrep, hdecide⟩ := hsame 1 (by omega)
  have h1x : 1 ∈ xs := ((hx.strand_zero hc).prev_of_next h0x h0).1
  exact ⟨c, hcr, h0, h1, r, hok, hrep.mpr h1x, by simpa [h1x] using hdecide⟩

end TourForest.SkipList
