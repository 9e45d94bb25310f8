import TourForest.Proofs.SkipList.Stretch

/-!
# Ancestors

The ancestor of an element on level `k` is the first element at or before it that reaches the level.
The elements that have `p` for an ancestor are `p` and its stretch (`Woven.ancestor_iff`), and a climb
to the left finds the ancestor one level up (`Woven.leftParent`).
-/

namespace TourForest.SkipList

variable {s s' : SkipList} {i j k u v w p q : Nat} {o e : Option Nat} {xs ys zs : List Nat}

/-- The first element at or before `u` that is taller than `k` is `p`. -/
inductive Ancestor (s : SkipList) (k : Nat) : (u p : Nat) → Prop
  | here {u : Nat} : k < s.height u → Ancestor s k u u
  | left {u v p : Nat} : s.height u ≤ k → s.nextAt v 0 = some u → Ancestor s k v p → Ancestor s k u p

namespace Ancestor

theorem lt_height (h : s.Ancestor k u p) : k < s.height p := by
  induction h with
  | here hk => exact hk
  | left _ _ _ ih => exact ih

/-- An ancestor of an ancestor, on a level at least as high, is an ancestor. -/
theorem trans (h : s.Ancestor j u p) (h' : s.Ancestor k p q) (hj : j ≤ k) : s.Ancestor k u q := by
  induction h with
  | here => exact h'
  | left hu hv _ ih => exact .left (hu.trans hj) hv (ih h')

/-- An ancestor that reaches a higher level is the ancestor on that level. -/
theorem mono (h : s.Ancestor j u p) (hj : j ≤ k) (hk : k < s.height p) : s.Ancestor k u p :=
  h.trans (.here hk) hj

/-- On the way to an ancestor lies one on each lower level. -/
theorem factor (h : s.Ancestor k u q) (hj : j ≤ k) : ∃ p, s.Ancestor j u p ∧ s.Ancestor k p q := by
  induction h with
  | @here u hk => exact ⟨u, .here (hj.trans_lt hk), .here hk⟩
  | @left u v q hu hv hq ih =>
    by_cases hju : j < s.height u
    · exact ⟨u, .here hju, .left hu hv hq⟩
    · obtain ⟨p, hp, hpq⟩ := ih
      exact ⟨p, .left (not_lt.mp hju) hv hp, hpq⟩

/-- The ancestor on a higher level is that of the ancestor on a lower one. -/
theorem of_lower (hs : s.Woven) (h : s.Ancestor j u p) (h' : s.Ancestor k u q) (hj : j ≤ k) :
    s.Ancestor k p q := by
  induction h with
  | here => exact h'
  | left hu hv _ ih =>
    cases h' with
    | here hk => omega
    | left _ hv' h' =>
      obtain rfl := hs.next_inj hv hv'
      exact ih h'

theorem unique (hs : s.Woven) (h : s.Ancestor k u p) (h' : s.Ancestor k u q) : p = q := by
  cases h.of_lower hs h' le_rfl with
  | here => rfl
  | left hp => exact absurd h.lt_height (not_lt.mpr hp)

/-- What holds of an element, and goes over to the one before it, holds of its ancestors. -/
theorem of_closed {P : Nat → Prop} (hP : ∀ v u, P u → s.nextAt v 0 = some u → P v)
    (h : s.Ancestor k u p) (hu : P u) : P p := by
  induction h with
  | here => exact hu
  | left _ hv _ ih => exact ih (hP _ _ hu hv)

end Ancestor

/-- An element has those for descendants that its link skips. -/
theorem Stretch.ancestor_of_mem (h : s.Stretch k o xs e) (hv : s.nextAt v 0 = o)
    (hp : s.Ancestor k v p) : ∀ x ∈ xs, s.Ancestor k x p := by
  induction h generalizing v with
  | ended => simp
  | tall => simp
  | low hw _ ih =>
    have hwp := hp.left hw hv
    exact List.forall_mem_cons.mpr ⟨hwp, ih rfl hwp⟩

/-- What holds of the first element of a stretch, and goes over to the next one, holds of all. -/
theorem Stretch.forall_mem {P : Nat → Prop} (h : s.Stretch k o xs e) (ho : ∀ v ∈ o, P v)
    (hP : ∀ u v, P u → s.nextAt u 0 = some v → P v) : ∀ x ∈ xs, P x := by
  induction h with
  | ended => simp
  | tall => simp
  | low _ _ ih =>
    have hv := ho _ rfl
    exact List.forall_mem_cons.mpr ⟨hv, ih fun w hw => hP _ _ hv hw⟩

/-- An element of a stretch is followed by the next one in it, or by a taller element. -/
theorem Stretch.next_mem (h : s.Stretch k o xs e) (hv : v ∈ xs) (hw : s.nextAt v 0 = some w)
    (hk : s.height w ≤ k) : w ∈ xs := by
  induction h with
  | ended => simp at hv
  | tall => simp at hv
  | low _ hx ih =>
    rcases List.mem_cons.mp hv with rfl | hv
    · rw [hw] at hx
      cases hx with
      | tall hw' => omega
      | low => simp
    · exact List.mem_cons_of_mem _ (ih hv)

/-- A stretch ends where one of its elements is followed by a tall one. -/
theorem Stretch.end_eq (h : s.Stretch k o xs e) (hv : v ∈ xs) (hw : s.nextAt v 0 = some w)
    (hk : k < s.height w) : e = some w := by
  induction h with
  | ended => simp at hv
  | tall => simp at hv
  | low _ hx ih =>
    rcases List.mem_cons.mp hv with rfl | hv
    · rw [hw] at hx
      exact (hx.unique (.tall hk)).2
    · exact ih hv

theorem Ancestor.mem_of_stretch (h : s.Ancestor k u p) (hx : s.Stretch k (s.nextAt p 0) xs e) :
    u ∈ p :: xs := by
  induction h with
  | here => exact List.mem_cons_self
  | left hu hv _ ih =>
    rcases List.mem_cons.mp (ih hx) with rfl | hvx
    · rw [hv] at hx
      cases hx with
      | tall hu' => omega
      | low => simp
    · exact List.mem_cons_of_mem _ (hx.next_mem hvx hv hu)

/-- An element has those before it for ancestors if no element in between is tall. -/
theorem Ancestor.of_trail (h : Trail (s.nextAt · 0) (v :: xs) e) (hp : s.Ancestor k v p)
    (hx : ∀ x ∈ xs, s.height x ≤ k) (hu : (v :: xs).getLast? = some u) : s.Ancestor k u p := by
  induction xs generalizing v with
  | nil =>
    obtain rfl : v = u := by simpa using hu
    exact hp
  | cons x xs ih =>
    obtain ⟨hxk, hx⟩ := List.forall_mem_cons.mp hx
    exact ih h.2 (.left hxk h.1 hp) hx (by simpa using hu)

namespace Woven

/-- The descendants of an element on a level are the element and its stretch. -/
theorem ancestor_iff (hk : k < s.height p) (hx : s.Stretch k (s.nextAt p 0) xs e) :
    s.Ancestor k u p ↔ u ∈ p :: xs := by
  refine ⟨fun h => h.mem_of_stretch hx, fun h => ?_⟩
  rcases List.mem_cons.mp h with rfl | h
  · exact .here hk
  · exact hx.ancestor_of_mem rfl (.here hk) u h

/-- The ancestor of the element before a tall one comes before that on the level. -/
theorem next_of_ancestor (hs : s.Woven) (h : s.Ancestor k v p) (hv : s.nextAt v 0 = some w)
    (hw : k < s.height w) : s.nextAt p k = some w := by
  obtain ⟨xs, hx⟩ := hs.stretch h.lt_height
  rcases List.mem_cons.mp (h.mem_of_stretch hx) with rfl | hvx
  · rw [hv] at hx
    exact (hx.unique (.tall hw)).2
  · exact hx.end_eq hvx hv hw

/-- The ancestor of an element that is not tall enough is that of the one before it, on each level. -/
theorem before_of_ancestor (hs : s.Woven) (h : s.Ancestor j w p) (hk : k < s.height w)
    (hw : s.height w ≤ j) : ∃ v, s.nextAt v k = some w ∧ s.Ancestor j v p := by
  cases h with
  | here hj => omega
  | left _ hv h =>
    obtain ⟨q, hq, hqp⟩ := h.factor (Nat.le_of_lt (hk.trans_le hw))
    exact ⟨q, hs.next_of_ancestor hq hv hk, hqp⟩

theorem next_lt_size (hs : s.Woven) (h : s.nextAt u k = some v) : v < s.size :=
  lt_size_of_height_pos (Nat.zero_lt_of_lt (lt_height_of_prev (hs.next_iff_prev.mp h)))

/-- An element and its stretch are distinct elements of the arena. -/
theorem stretch_nodup (hs : s.Woven) (hk : k < s.height u) (hx : s.Stretch k (s.nextAt u 0) xs e) :
    (u :: xs).Nodup ∧ ∀ x ∈ u :: xs, x < s.size := by
  have hu := lt_size_of_height_pos (Nat.zero_lt_of_lt hk)
  refine ⟨List.nodup_cons.mpr ⟨fun hm => absurd (hx.height_le u hm) (not_le.mpr hk), hx.nodup⟩, ?_⟩
  exact List.forall_mem_cons.mpr
    ⟨hu, hx.forall_mem (fun _ hv => hs.next_lt_size hv) fun _ _ _ hv => hs.next_lt_size hv⟩

/-! ## Climbing to the left -/

/-- The elements of a sequence up to `u`, or of a cycle all of them with `u` at the end, are a row on
each level of `u`, with nothing but `u` before it. -/
theorem row_upTo (hs : s.Woven) (hu : u < s.size) :
    ∃ ys p, (p = none ∨ p = some u) ∧ (ys ++ [u]).Nodup ∧ (∀ x ∈ ys ++ [u], x < s.size) ∧
      ∀ k < s.height u, ∃ q, s.Row k p (s.onLevel k (ys ++ [u])) q := by
  obtain ⟨c, zs, hu, hz⟩ := hs.covered u hu
  obtain ⟨as, bs, rfl⟩ := List.append_of_mem hu
  rw [List.append_cons] at hz
  cases c with
  | false =>
    refine ⟨as, none, .inl rfl, (List.nodup_append.mp hz.nodup).1,
      fun x hx => hz.lt_size x (List.mem_append_left _ hx), fun k _ => ?_⟩
    have hl := hz.strand k
    rw [onLevel_append, Strand.open_iff, Row.append_iff] at hl
    exact ⟨_, hl.1⟩
  | true =>
    have hz := hz.rotate
    rw [← List.append_assoc] at hz
    refine ⟨bs ++ as, some u, .inr rfl, hz.nodup, hz.lt_size, fun k hk => ?_⟩
    have hl := hz.strand k
    have hlast : (s.onLevel k (bs ++ as ++ [u])).getLast? = some u := by
      rw [onLevel_append, onLevel_cons, if_pos hk, onLevel_nil, List.getLast?_concat]
    rw [Strand.closed_iff, hlast] at hl
    exact ⟨_, hl⟩

/-- A climb to the left finds the ancestor on the next level, and nothing if there is none. -/
theorem leftParent (hs : s.Woven) (hk : k < s.height u) :
    ∃ o, s.leftParent u k = .ok o ∧ ∀ p, o = some p ↔ s.Ancestor (k + 1) u p := by
  have hpos := Nat.zero_lt_of_lt hk
  obtain ⟨ys, o, ho, hn, hlt, hrow⟩ := hs.row_upTo (lt_size_of_height_pos hpos)
  obtain ⟨q, hq⟩ := hrow k hk
  obtain ⟨e, he⟩ := hrow 0 hpos
  have hlast : (s.onLevel k (ys ++ [u])).getLast? = some u := by
    rw [onLevel_append, onLevel_cons, if_pos hk, onLevel_nil, List.getLast?_concat]
  have hall : s.onLevel 0 (ys ++ [u]) = ys ++ [u] :=
    List.filter_eq_self.mpr fun x hx => by simpa using hs.height_pos x (hlt x hx)
  rw [hall] at he
  have hfound {p : Nat} (hp : (s.onLevel (k + 1) (ys ++ [u])).getLast? = some p) :
      s.Ancestor (k + 1) u p := by
    -- No element behind `p` is taller than `k + 1`.
    obtain ⟨as, has⟩ := List.getLast?_eq_some_iff.mp hp
    obtain ⟨bs, cs, hsplit, hp', hc⟩ := List.filter_eq_append_iff.mp has
    obtain ⟨ds, xs, rfl, -, hpk, hx⟩ := List.filter_eq_cons_iff.mp hc
    have hlow : ∀ x ∈ xs, s.height x ≤ k + 1 := by simpa using hx
    rw [hsplit, ← List.append_assoc] at he
    apply Ancestor.of_trail (Trail.append_iff.mp he.forth).2 (.here (by simpa using hpk)) hlow
    have := congrArg List.getLast? hsplit
    rw [List.getLast?_concat, ← List.append_assoc, List.getLast?_append] at this
    simpa [List.getLast?_cons] using this.symm
  refine ⟨_, leftParent_eq hq hlast ho hn hlt, fun p => ⟨hfound, fun hp => ?_⟩⟩
  have hmem : p ∈ ys ++ [u] := by
    refine hp.of_closed (P := (· ∈ ys ++ [u])) (fun v w hw hv => ?_) (by simp)
    obtain ⟨as, bs, hsplit⟩ := List.append_of_mem hw
    rw [hsplit] at he
    have hprev := he.prev_eq
    rw [hs.next_iff_prev.mp hv] at hprev
    rcases has : as.getLast? with _ | a
    · rw [has, Option.none_or] at hprev
      rcases ho with rfl | rfl
      · simp at hprev
      · obtain rfl := Option.some_inj.mp hprev
        simp
    · rw [has, Option.some_or, Option.some_inj] at hprev
      rw [hsplit, hprev]
      exact List.mem_append_left _ (List.mem_of_getLast? has)
  have hm : p ∈ s.onLevel (k + 1) (ys ++ [u]) := mem_onLevel.mpr ⟨hmem, hp.lt_height⟩
  obtain ⟨q, hq⟩ : ∃ q, (s.onLevel (k + 1) (ys ++ [u])).getLast? = some q :=
    ⟨_, List.getLast?_eq_some_getLast (List.ne_nil_of_mem hm)⟩
  rw [hq, (hfound hq).unique hs hp]

end Woven

end TourForest.SkipList
