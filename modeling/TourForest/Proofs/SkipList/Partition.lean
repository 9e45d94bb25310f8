import Mathlib.Logic.Relation
import TourForest.Proofs.Grouping
import TourForest.Proofs.Outline
import TourForest.Proofs.SkipList.Listing
import TourForest.Proofs.SkipList.Reachable
import TourForest.SkipList.Text

/-!
# Sequences partition the arena

The sequence of an element holds what links lead to from it, in the order of the links (`Lists`). Links go
both ways, so two sequences are the same or have nothing in common (`Woven.partition`), and a list that is
written out has one branch for each sequence and one leaf for each element (`sequences_partition`). Each leaf
begins with the index of its element in brackets, so that however the outline is drawn, one line shows each
element (`existsUnique_line`).
-/

namespace TourForest

theorem Tower.oneLine_text (t : Tower) {payload : String} (h : OneLine payload) : OneLine (t.text payload) := by
  refine .record (by decide) fun f hf => ?_
  simp only [List.mem_cons, List.not_mem_nil, or_false] at hf
  rcases hf with rfl | rfl | rfl
  · exact ⟨(by decide : OneLine "height"), .nat t.height⟩
  · refine ⟨(by decide : OneLine "links"), .list fun x hx => ?_⟩
    obtain ⟨l, -, rfl⟩ := List.mem_map.mp hx
    exact .list (by simp [OneLine.element])
  · exact ⟨(by decide : OneLine "payload"), h⟩

namespace SkipList

variable {s : SkipList} {u v : Nat} {xs : List Nat}

/-! ## The sequence of an element -/

/-- One of the two elements follows the other on level 0. -/
def Linked (s : SkipList) (u v : Nat) : Prop := s.nextAt u 0 = some v ∨ s.prevAt u 0 = some v

theorem Woven.linked_symm (hs : s.Woven) (h : s.Linked u v) : s.Linked v u :=
  h.symm.imp hs.next_iff_prev.mpr hs.next_iff_prev.mp

/-- The elements `xs` are those that links lead to from `u`, in the order of the links: from the one that has
none before it, or else around a cycle from `u` to `u`. -/
structure Lists (s : SkipList) (u : Nat) (xs : List Nat) : Prop where
  nodup : xs.Nodup
  mem_iff : ∀ v, v ∈ xs ↔ Relation.ReflTransGen s.Linked u v
  order : (∀ v ∈ xs, s.prevAt v 0 = none ↔ xs.head? = some v) ∧ Trail (s.nextAt · 0) xs none ∨
    (∀ v ∈ xs, s.prevAt v 0 ≠ none) ∧ xs.head? = some u ∧ Trail (s.nextAt · 0) xs (some u)

/-- Links lead from an element of a sequence to the elements of the sequence. -/
theorem IsSequence.mem_iff {closed : Bool} (h : s.IsSequence closed xs) (hs : s.Woven) (hu : u ∈ xs) :
    v ∈ xs ↔ Relation.ReflTransGen s.Linked u v := by
  have hrow := h.strand_zero hs
  constructor
  · intro hv
    apply Row.forall_mem (P := Relation.ReflTransGen s.Linked u) hrow hu .refl _ _ v hv
    · exact fun _ _ ha hab => ha.tail (.inl hab)
    · exact fun _ _ ha hab => ha.tail (.inr hab)
  · intro hr
    induction hr with
    | refl => exact hu
    | tail _ hab ha =>
      rcases hab with hn | hp
      · exact (hrow.prev_of_next ha hn).1
      · exact (hrow.next_of_prev ha hp).1

/-- Asked about an element, a list lists what links lead to from it. -/
theorem Woven.lists (hs : s.Woven) (hu : u < s.size) : ∃ xs, s.sequence u = .ok xs ∧ s.Lists u xs := by
  obtain ⟨closed, xs, hok, hux, hx, hhead⟩ := hs.sequence hu
  refine ⟨xs, hok, hx.nodup, fun v => hx.mem_iff hs hux, ?_⟩
  have hrow := hx.strand_zero hs
  cases closed with
  | false =>
    refine .inl ⟨fun v hv => ⟨fun hp => (hx.of_prev_eq_none hs hv hp).2, fun hv => ?_⟩, hrow.forth⟩
    obtain ⟨ys, rfl⟩ := List.head?_eq_some_iff.mp hv
    exact Row.prev_head hrow
  | true =>
    have hh := hhead rfl
    refine .inr ⟨fun v hv hp => ?_, hh, ?_⟩
    · exact absurd (hx.of_prev_eq_none hs hv hp).1 (by decide)
    · rw [← hh]
      exact hrow.forth

theorem Linked.lt_size (hs : s.Woven) (h : s.Linked u v) : v < s.size := by
  rcases h with hn | hp
  · exact lt_size_of_height_pos (Nat.zero_lt_of_lt (Woven.lt_height_of_prev (hs.next_iff_prev.mp hn)))
  · exact lt_size_of_height_pos (Nat.zero_lt_of_lt (Woven.lt_height_of_next (hs.next_iff_prev.mpr hp)))

theorem Lists.lt_size (hs : s.Woven) (h : s.Lists u xs) (hu : u < s.size) (hv : v ∈ xs) : v < s.size := by
  cases (h.mem_iff v).mp hv with
  | refl => exact hu
  | tail _ hl => exact hl.lt_size hs

/-- The sequences of a woven list are groups of its elements. -/
theorem Woven.partition (hs : s.Woven) :
    ∃ members, Partition s.size s.sequence members ∧ ∀ u < s.size, s.Lists u (members u) := by
  have hall (u : Nat) : ∃ xs, u < s.size → s.sequence u = .ok xs ∧ s.Lists u xs := by
    by_cases hu : u < s.size
    · obtain ⟨xs, hxs⟩ := hs.lists hu
      exact ⟨xs, fun _ => hxs⟩
    · exact ⟨[], fun h => absurd h hu⟩
  choose members hm using hall
  refine ⟨members, ⟨fun u hu => (hm u hu).1, fun u hu => (hm u hu).2.nodup, fun u hu => ?_, fun u hu v hv => ?_,
    fun u hu v hv w => ?_⟩, fun u hu => (hm u hu).2⟩
  · exact ((hm u hu).2.mem_iff u).mpr .refl
  · exact (hm u hu).2.lt_size hs hu hv
  · -- Links go both ways, so `u` and `v` lead to the same elements.
    have huv := ((hm u hu).2.mem_iff v).mp hv
    have : Std.Symm s.Linked := ⟨fun _ _ => hs.linked_symm⟩
    have hvu : Relation.ReflTransGen s.Linked v u := symm huv
    rw [(hm v ((hm u hu).2.lt_size hs hu hv)).2.mem_iff, (hm u hu).2.mem_iff]
    exact ⟨huv.trans, hvu.trans⟩

/-! ## Written out -/

/-- A leaf begins with the index of its element in brackets, and goes on with what the element is. -/
theorem leaf_eq (hu : u < s.size) (payload : Nat → String) :
    ∃ t, s.towers[u]? = some t ∧ s.leaf payload u = s!"[{u}] " ++ t.text (payload u) := by
  have ht : s.towers[u]? = some s.towers[u] := Array.getElem?_eq_getElem hu
  exact ⟨_, ht, by rw [leaf, ht]; rfl⟩

theorem oneLine_leaf (hu : u < s.size) {payload : Nat → String} (h : OneLine (payload u)) :
    OneLine (s.leaf payload u) := by
  obtain ⟨t, -, ht⟩ := leaf_eq hu payload
  rw [ht]
  exact (((by decide : OneLine "[").append (.nat u)).append (by decide)).append (t.oneLine_text h)

/-- Texts that begin with different indices in brackets are different. -/
theorem index_inj {t t' : String} (h : s!"[{u}] " ++ t = s!"[{v}] " ++ t') : u = v := by
  have hbracket (n : Nat) : ∀ c ∈ Nat.toDigits 10 n, (c != ']') = true := by
    intro c hc
    have hd := Nat.isDigit_of_mem_toDigits (by decide) (by decide) hc
    exact bne_iff_ne.mpr fun he => absurd (he ▸ hd) (by decide)
  have hlist (n : Nat) (t : String) :
      (s!"[{n}] " ++ t).toList = '[' :: (Nat.toDigits 10 n ++ ']' :: ' ' :: t.toList) := by
    rw [← Nat.toList_repr]
    simp [String.toList_append, toString]
  have hl := congrArg (fun x : String => x.toList.tail.takeWhile (· != ']')) h
  simp only [hlist, List.tail_cons, List.takeWhile_append_of_pos (hbracket _)] at hl
  have hdigits : Nat.toDigits 10 u = Nat.toDigits 10 v := by simpa using hl
  have hvalue := congrArg (Nat.ofDigitChars 10 · 0) hdigits
  simpa only [Nat.ofDigitChars_ten_toDigits] using hvalue

/-- The entries of a branch: its least index, and its elements. -/
def branchEntries (s : SkipList) (payload : Nat → String) (b : Nat × List Nat) : List Outline.Entry :=
  .branch s!"list of {b.1}" :: b.2.map fun v => .leaf (s.leaf payload v)

/-- The entry is a leaf of element `v`. -/
def LeafOf (v : Nat) (e : Outline.Entry) : Prop := ∃ t, e = .leaf (s!"[{v}] " ++ t)

theorem LeafOf.unique {e : Outline.Entry} (h : LeafOf u e) (h' : LeafOf v e) : u = v := by
  obtain ⟨t, rfl⟩ := h
  obtain ⟨t', he⟩ := h'
  exact index_inj (Outline.Entry.leaf.inj he)

section

variable {payload : Nat → String} {b : Nat × List Nat} {branches : List (Nat × List Nat)}

theorem leafOf_leaf (hu : u < s.size) (payload : Nat → String) : LeafOf u (.leaf (s.leaf payload u)) := by
  obtain ⟨t, -, ht⟩ := leaf_eq hu payload
  exact ⟨_, congrArg Outline.Entry.leaf ht⟩

/-- The leaves of a branch are leaves of its elements. -/
theorem mem_of_leafOf (hb : ∀ v ∈ b.2, v < s.size) {e : Outline.Entry} (he : e ∈ s.branchEntries payload b)
    (h : LeafOf v e) : v ∈ b.2 := by
  rcases List.mem_cons.mp he with rfl | he
  · obtain ⟨t, ht⟩ := h
    cases ht
  · obtain ⟨w, hw, rfl⟩ := List.mem_map.mp he
    exact h.unique (leafOf_leaf (hb w hw) payload) ▸ hw

theorem oneLine_branchEntries (hb : ∀ v ∈ b.2, v < s.size) (hp : ∀ v < s.size, OneLine (payload v))
    {e : Outline.Entry} (he : e ∈ s.branchEntries payload b) : OneLine e.text := by
  rcases List.mem_cons.mp he with rfl | he
  · exact (by decide : OneLine "list of ").append (.nat b.1)
  · obtain ⟨v, hv, rfl⟩ := List.mem_map.mp he
    exact oneLine_leaf (hb v hv) (hp v (hb v hv))

/-- Branches that hold the elements of the arena. -/
theorem exists_branch_iff (hp : (branches.flatMap Prod.snd).Perm (List.range s.size)) :
    (∃ b ∈ branches, v ∈ b.2) ↔ v < s.size := by
  rw [← List.mem_range, ← hp.mem_iff, List.mem_flatMap]

/-- The outline with these branches. -/
def outlineOf (s : SkipList) (payload : Nat → String) (branches : List (Nat × List Nat)) : Outline :=
  ⟨"SkipList", branches.map fun b => (s!"list of {b.1}", b.2.map (s.leaf payload))⟩

theorem entries_outlineOf : (s.outlineOf payload branches).entries = branches.flatMap (s.branchEntries payload) := by
  rw [Outline.entries, outlineOf, List.flatMap_map]
  exact List.flatMap_congr fun b _ => congrArg _ List.map_map

/-- Drawn line by line, the outline has one line for each of its entries. -/
theorem exists_lines {g : Outline.Signs} {draw : Outline → String}
    (hout : s.outline payload = .ok (s.outlineOf payload branches))
    (hp : (branches.flatMap Prod.snd).Perm (List.range s.size)) (hdraw : g.Draws draw)
    (hpayload : ∀ v < s.size, OneLine (payload v)) :
    ∃ lines, s.textBy draw payload = .ok ("\n".intercalate ("SkipList" :: lines) ++ "\n") ∧
      List.Forall₂ g.Shows lines (branches.flatMap (s.branchEntries payload)) := by
  have hplain : ∀ e ∈ (s.outlineOf payload branches).entries, OneLine e.text := by
    rw [entries_outlineOf]
    intro e he
    obtain ⟨b, hm, he⟩ := List.mem_flatMap.mp he
    exact oneLine_branchEntries (fun v hv => (exists_branch_iff hp).mp ⟨b, hm, hv⟩) hpayload he
  obtain ⟨lines, hlines, hshow⟩ := hdraw _ (by decide : OneLine "SkipList") hplain
  rw [entries_outlineOf] at hshow
  refine ⟨lines, ?_, hshow⟩
  rw [textBy, hout]
  exact congrArg (fun t => Except.ok (t ++ "\n")) hlines

/-- Where branches have no element twice, no element has two leaves. -/
theorem pairwise_leafOf (payload : Nat → String) (hb : ∀ b ∈ branches, ∀ v ∈ b.2, v < s.size)
    (hn : (branches.flatMap Prod.snd).Nodup) :
    (branches.flatMap (s.branchEntries payload)).Pairwise fun e e' => ∀ v, LeafOf v e → ¬ LeafOf v e' := by
  obtain ⟨hnodup, hdisjoint⟩ := List.nodup_flatMap.mp hn
  refine List.pairwise_flatMap.mpr ⟨fun b hm => List.pairwise_cons.mpr ⟨fun e _ v hv => ?_, ?_⟩, ?_⟩
  · obtain ⟨t, ht⟩ := hv
    cases ht
  · refine List.pairwise_map.mpr ((hnodup b hm).imp_of_mem fun hx hy hne v hvx hvy => hne ?_)
    rw [← hvx.unique (leafOf_leaf (hb b hm _ hx) payload), hvy.unique (leafOf_leaf (hb b hm _ hy) payload)]
  · refine hdisjoint.imp_of_mem fun hb₁ hb₂ hd e he e' he' v hv hv' => ?_
    exact hd (mem_of_leafOf (hb _ hb₁) he hv) (mem_of_leafOf (hb _ hb₂) he' hv')

/-- The line shows a leaf of element `v`. -/
def ShowsElement (g : Outline.Signs) (line : String) (v : Nat) : Prop := ∃ t, g.Shows line (.leaf (s!"[{v}] " ++ t))

theorem showsElement_iff {g : Outline.Signs} {line : String} {e : Outline.Entry} (h : g.Shows line e) :
    ShowsElement g line v ↔ LeafOf v e :=
  exists_congr fun _ => (Outline.Signs.shows_iff h).trans eq_comm

/-- Just one line shows a leaf of an element. -/
theorem existsUnique_line {g : Outline.Signs} {lines : List String}
    (hp : (branches.flatMap Prod.snd).Perm (List.range s.size))
    (hlines : List.Forall₂ g.Shows lines (branches.flatMap (s.branchEntries payload))) (hv : v < s.size) :
    ∃! i : Nat, ∃ line, lines[i]? = some line ∧ ShowsElement g line v := by
  have hb : ∀ b ∈ branches, ∀ v ∈ b.2, v < s.size := fun b hm v hv => (exists_branch_iff hp).mp ⟨b, hm, hv⟩
  have hpair := pairwise_leafOf payload hb (hp.nodup_iff.mpr List.nodup_range)
  have hleaf : Outline.Entry.leaf (s.leaf payload v) ∈ branches.flatMap (s.branchEntries payload) := by
    obtain ⟨b, hm, hvb⟩ := (exists_branch_iff hp).mpr hv
    exact List.mem_flatMap.mpr ⟨b, hm, List.mem_cons_of_mem _ (List.mem_map_of_mem hvb)⟩
  generalize branches.flatMap (s.branchEntries payload) = entries at hlines hpair hleaf
  obtain ⟨hlen, hget⟩ := List.forall₂_iff_get.mp hlines
  obtain ⟨i, hi, he⟩ := List.mem_iff_getElem.mp hleaf
  have hvi : LeafOf v entries[i] := he ▸ leafOf_leaf hv payload
  have hi' : i < lines.length := hlen ▸ hi
  refine ⟨i, ⟨lines[i], List.getElem?_eq_getElem hi', (showsElement_iff (hget i hi' hi)).mpr hvi⟩, ?_⟩
  rintro j ⟨_, hline, hshow⟩
  obtain ⟨hj, rfl⟩ := List.getElem?_eq_some_iff.mp hline
  have hvj : LeafOf v entries[j] := (showsElement_iff (hget j hj (hlen ▸ hj))).mp hshow
  rw [List.pairwise_iff_getElem] at hpair
  by_contra hne
  rcases Nat.lt_or_gt_of_ne hne with hlt | hlt
  · exact hpair j i (hlen ▸ hj) hi hlt v hvj hvi
  · exact hpair i j hi (hlen ▸ hj) hlt v hvi hvj

end

/-- In a list that joins and splits lead to, the sequence of each element is listed, and two sequences have the
same elements or none in common. Its outline has one branch for each sequence, under the least index in it and in
the order of these, and below them one leaf for each element of the arena. However the outline is drawn, if no
element carries a line end, each line below the title shows its entry and no other one, and just one line shows an
element. -/
theorem sequences_partition (h : s.Reachable) :
    (∀ u < s.size, ∃ xs, s.sequence u = .ok xs ∧ s.Lists u xs) ∧
    (∀ u v xs ys, u < s.size → v < s.size → s.sequence u = .ok xs → s.sequence v = .ok ys →
      xs.Disjoint ys ∨ ∀ w, w ∈ xs ↔ w ∈ ys) ∧
    ∀ payload : Nat → String, ∃ branches : List (Nat × List Nat),
      s.outline payload =
        .ok ⟨"SkipList", branches.map fun b => (s!"list of {b.1}", b.2.map (s.leaf payload))⟩ ∧
      (∀ v < s.size, ∃ t, s.towers[v]? = some t ∧ s.leaf payload v = s!"[{v}] " ++ t.text (payload v)) ∧
      (branches.flatMap Prod.snd).Perm (List.range s.size) ∧
      (branches.map Prod.fst).Pairwise (· < ·) ∧
      (∀ b ∈ branches, s.sequence b.1 = .ok b.2 ∧ b.1 ∈ b.2 ∧ ∀ v ∈ b.2, b.1 ≤ v) ∧
      ∀ (g : Outline.Signs) (draw : Outline → String), g.Draws draw → (∀ v < s.size, OneLine (payload v)) →
        ∃ lines, s.textBy draw payload = .ok ("\n".intercalate ("SkipList" :: lines) ++ "\n") ∧
          List.Forall₂ (fun line e => ∀ e', g.Shows line e' ↔ e' = e) lines
            (branches.flatMap fun b => .branch s!"list of {b.1}" :: b.2.map fun v => .leaf (s.leaf payload v)) ∧
          ∀ v < s.size, ∃! i : Nat, ∃ line, lines[i]? = some line ∧ ShowsElement g line v := by
  have hs := h.woven
  obtain ⟨members, hp, hlists⟩ := hs.partition
  refine ⟨fun u hu => hs.lists hu, fun u v xs ys hu hv hx hy => ?_, fun payload => ?_⟩
  · obtain rfl := Except.ok.inj ((hp.group_eq u hu).symm.trans hx)
    obtain rfl := Except.ok.inj ((hp.group_eq v hv).symm.trans hy)
    by_cases hd : (members u).Disjoint (members v)
    · exact .inl hd
    · -- With a common element, both have the elements of the sequence of that one.
      simp only [List.Disjoint, not_forall, not_false_eq_true, exists_prop, and_true] at hd
      obtain ⟨w, hwu, hwv⟩ := hd
      exact .inr fun x => (hp.same u hu w hwu x).symm.trans (hp.same v hv w hwv x)
  · obtain ⟨branches, hok, hperm, hsorted, hb⟩ := hp.groups_eq
    have hout : s.outline payload = .ok (outlineOf s payload branches) := by
      rw [outline, sequences, hok]
      rfl
    refine ⟨branches, hout, fun v hv => leaf_eq hv payload, hperm, hsorted, fun b hm => ?_,
      fun g draw hdraw hpayload => ?_⟩
    · obtain ⟨hlt, heq, hle⟩ := hb b hm
      exact ⟨heq ▸ hp.group_eq b.1 hlt, heq ▸ hp.self b.1 hlt, hle⟩
    · obtain ⟨lines, htext, hshow⟩ := exists_lines hout hperm hdraw hpayload
      exact ⟨lines, htext, hshow.imp fun _ _ h _ => Outline.Signs.shows_iff h,
        fun v hv => existsUnique_line hperm hshow hv⟩

/-- Two new elements, of which the first has been joined to the second, are one sequence. Drawn with forks and
corners, each of them is on one line. -/
theorem sequences_partition_of_joined_pair :
    ∃ s : SkipList, s.Reachable ∧ s.nextAt 0 0 = some 1 ∧ ∃ xs ys, s.sequence 0 = .ok xs ∧ s.sequence 1 = .ok ys ∧
      (xs.Disjoint ys ∨ ∀ w, w ∈ xs ↔ w ∈ ys) ∧ 0 ∈ ys ∧
      ∃ lines, s.text (fun _ => "()") = .ok ("\n".intercalate ("SkipList" :: lines) ++ "\n") ∧
        ∃! i : Nat, ∃ line, lines[i]? = some line ∧ ShowsElement Outline.forks line 1 := by
  obtain ⟨s, links, hs, hd⟩ := outcome_build .empty ⟨0⟩ (by decide : 2 * (elementBytes + 0) ≤ largestBlock)
  have hr : s.Reachable := .built hs
  have hsize : s.size = 2 := by rw [hd.size_eq, length_drawnHeights]
  have hn : s.nextAt 0 0 = none := by rw [nextAt, hd.linksAt_eq, Links.detached]
  have hp : s.prevAt 1 0 = none := by rw [prevAt, hd.linksAt_eq, Links.detached]
  obtain ⟨s', hok, hw, hsize', -, hnext⟩ := hr.woven.join (by omega) (by omega) hn hp
  have hr' : s'.Reachable := .joined hr (by omega) (by omega) hn hp hok
  have h01 : s'.nextAt 0 0 = some 1 := by rw [hnext, if_pos rfl]
  obtain ⟨hlists, hboth, houtline⟩ := sequences_partition hr'
  obtain ⟨branches, -, -, -, -, -, hdrawn⟩ := houtline fun _ => "()"
  obtain ⟨lines, htext, -, hline⟩ := hdrawn Outline.forks Outline.draw Outline.forks_draws fun _ _ => by decide
  obtain ⟨xs, hx, -⟩ := hlists 0 (by omega)
  obtain ⟨ys, hy, hly⟩ := hlists 1 (by omega)
  refine ⟨s', hr', h01, xs, ys, hx, hy, hboth 0 1 xs ys (by omega) (by omega) hx hy, ?_, lines, htext,
    hline 1 (by omega)⟩
  exact (hly.mem_iff 0).mpr (.single (.inr (hw.next_iff_prev.mp h01)))

end SkipList

end TourForest
