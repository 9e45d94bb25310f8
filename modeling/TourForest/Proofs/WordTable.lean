import Mathlib.Algebra.Group.Nat.Defs
import Mathlib.Data.List.Nodup
import Mathlib.Order.Nat
import TourForest.Proofs.Outcome
import TourForest.WordTable

/-!
# Tables of words as finite maps

In a `Tidy` table each live word can be reached from its home without an empty slot on the way, and no
word is live twice. What a table `Holds` is then all there is to say about it:

* `Tidy.find?_eq_some_iff`: a search finds what the table holds;
* `Tidy.insert_new`, `Tidy.erase_held`: a word goes in and out, and all others stay;
* `Tidy.insert_full`: no word goes into a table that holds as many as it has slots;
* `Tidy.mem_entries`, `Tidy.nodup_entries`: the entries list what the table holds, once each.
-/

namespace TourForest.WordTable

variable {t t' : WordTable} {w w' : UInt64} {v v' i j d : Nat} {x : Slot}

/-- The slot that a search for `w` comes to after `d` other slots. -/
def place (t : WordTable) (w : UInt64) (d : Nat) : Nat := (t.home w + d) % t.capacity

/-- The table holds word `w` with value `v`. -/
def Holds (t : WordTable) (w : UInt64) (v : Nat) : Prop := ∃ i, t.slot i = .live w v

/-- No empty slot lies between the home of a live word and its place. -/
def Paths (t : WordTable) : Prop := ∀ i w v, t.slot i = .live w v →
  ∃ d, i = t.place w d ∧ ∀ e < d, t.slot (t.place w e) ≠ .empty

/-- A table in which searches come to what they are after. -/
structure Tidy (t : WordTable) : Prop where
  capacity_pos : 0 < t.capacity
  paths : t.Paths
  unique : ∀ i j w v v', t.slot i = .live w v → t.slot j = .live w v' → i = j
  size_eq : t.entries.length = t.size

/-! ## Slots -/

theorem lt_capacity_of_ne_empty (h : t.slot i ≠ .empty) : i < t.capacity := by
  by_contra hi
  rw [slot, Array.getD_eq_getD_getElem?, Array.getElem?_eq_none (not_lt.mp hi)] at h
  exact h rfl

theorem lt_capacity_of_live (h : t.slot i = .live w v) : i < t.capacity :=
  lt_capacity_of_ne_empty (by simp [h])

theorem after_place (t : WordTable) (w : UInt64) (d : Nat) : t.after (t.place w d) = t.place w (d + 1) := by
  rw [after, place, place, Nat.mod_add_mod, Nat.add_assoc]

theorem place_lt (h : 0 < t.capacity) : t.place w d < t.capacity := Nat.mod_lt _ h

theorem place_mod (t : WordTable) (w : UInt64) (d : Nat) : t.place w (d % t.capacity) = t.place w d := by
  rw [place, place, Nat.add_mod_mod]

/-- Each slot is on the way from each home. -/
theorem exists_place (hi : i < t.capacity) : ∃ d < t.capacity, t.place w d = i := by
  have hpos := Nat.zero_lt_of_lt hi
  have hh : t.home w < t.capacity := Nat.mod_lt _ hpos
  refine ⟨(i + (t.capacity - t.home w)) % t.capacity, Nat.mod_lt _ hpos, ?_⟩
  rw [place_mod, place, show t.home w + (i + (t.capacity - t.home w)) = i + t.capacity by omega,
    Nat.add_mod_right, Nat.mod_eq_of_lt hi]

section

variable (h : t'.slots = t.slots.setIfInBounds i x)
include h

theorem capacity_of_set : t'.capacity = t.capacity := by
  rw [capacity, h, Array.size_setIfInBounds, capacity]

theorem place_of_set : t'.place w d = t.place w d := by
  rw [place, place, home, home, capacity_of_set h]

theorem slot_of_set (hi : i < t.capacity) : t'.slot j = if j = i then x else t.slot j := by
  rw [slot, slot, h, Array.getD_eq_getD_getElem?, Array.getElem?_setIfInBounds, Array.getD_eq_getD_getElem?]
  by_cases hj : j = i
  · subst hj
    rw [if_pos rfl, if_pos (show j < t.slots.size from hi), if_pos rfl]
    rfl
  · rw [if_neg (Ne.symm hj), if_neg hj]

/-! ## Paths -/

/-- A slot that becomes empty keeps all paths, if it was not live and the one after it is empty. -/
theorem Paths.set_empty (hp : t.Paths) (hi : i < t.capacity) (hx : x = .empty)
    (hl : ∀ w v, t.slot i ≠ .live w v) (ha : t.slot (t.after i) = .empty) : t'.Paths := by
  intro j w v hj
  rw [slot_of_set h hi] at hj
  split at hj
  · rw [hx] at hj
    cases hj
  · obtain ⟨d, rfl, hd⟩ := hp j w v hj
    refine ⟨d, (place_of_set h).symm, fun e he => ?_⟩
    rw [place_of_set h, slot_of_set h hi, if_neg]
    · exact hd e he
    · -- A path through slot `i` would go on to the empty slot.
      rintro rfl
      rw [after_place] at ha
      rcases Nat.eq_or_lt_of_le (Nat.succ_le_of_lt he) with rfl | he
      · rw [ha] at hj
        cases hj
      · exact hd _ he ha

/-- A slot that becomes a tombstone keeps all paths. -/
theorem Paths.set_tombstone (hp : t.Paths) (hi : i < t.capacity) (hx : x = .tombstone) : t'.Paths := by
  intro j w v hj
  rw [slot_of_set h hi] at hj
  split at hj
  · rw [hx] at hj
    cases hj
  · obtain ⟨d, rfl, hd⟩ := hp j w v hj
    refine ⟨d, (place_of_set h).symm, fun e he => ?_⟩
    rw [place_of_set h, slot_of_set h hi]
    split
    · simp [hx]
    · exact hd e he

/-- A word that takes a slot on its way keeps all paths. -/
theorem Paths.set_live (hp : t.Paths) (hi : i < t.capacity) (hx : x = .live w v) (hd : i = t.place w d)
    (he : ∀ e < d, t.slot (t.place w e) ≠ .empty) : t'.Paths := by
  have hne (w' : UInt64) (e : Nat) (he : t.slot (t.place w' e) ≠ .empty) :
      t'.slot (t'.place w' e) ≠ .empty := by
    rw [place_of_set h, slot_of_set h hi]
    split
    · simp [hx]
    · exact he
  intro j w' v' hj
  rw [slot_of_set h hi] at hj
  split at hj
  · next hji =>
    rw [hx, Slot.live.injEq] at hj
    obtain ⟨rfl, -⟩ := hj
    exact ⟨d, hji.trans (hd.trans (place_of_set h).symm), fun e hed => hne w e (he e hed)⟩
  · obtain ⟨d', rfl, hd'⟩ := hp j w' v' hj
    exact ⟨d', (place_of_set h).symm, fun e he => hne w' e (hd' e he)⟩

end

/-! ## Searching -/

/-- What a search for `w` may come to. -/
inductive Answers (t : WordTable) (w : UInt64) : Search → Prop
  | found {i v : Nat} : t.slot i = .live w v → Answers t w (.found i)
  | vacant {d : Nat} : (∀ v, ¬ t.Holds w v) → (∀ w' v, t.slot (t.place w d) ≠ .live w' v) →
      (∀ e < d, t.slot (t.place w e) ≠ .empty) → Answers t w (.vacant (t.place w d))
  | full : (∀ v, ¬ t.Holds w v) → (∀ i < t.capacity, ∃ w' v, t.slot i = .live w' v) → Answers t w .full

/-- A word that was not met on the way to an empty slot is not there. -/
theorem Paths.not_holds (hp : t.Paths) (hd : ∀ e < d, ∀ v, t.slot (t.place w e) ≠ .live w v)
    (he : t.slot (t.place w d) = .empty) (v : Nat) : ¬ t.Holds w v := by
  rintro ⟨i, hi⟩
  obtain ⟨e, rfl, hpath⟩ := hp i w v hi
  rcases lt_trichotomy e d with hlt | rfl | hgt
  · exact hd e hlt v hi
  · rw [he] at hi
    cases hi
  · exact hpath d hgt he

/-- Nor is one that was not met all around the table. -/
theorem not_holds_of_around (hd : ∀ e < t.capacity, ∀ v, t.slot (t.place w e) ≠ .live w v) (v : Nat) :
    ¬ t.Holds w v := by
  rintro ⟨i, hi⟩
  obtain ⟨e, he, rfl⟩ := exists_place (w := w) (lt_capacity_of_live hi)
  exact hd e he v hi

theorem Paths.searchFrom (hp : t.Paths) : ∀ (steps d : Nat) (spare : Option Nat), steps + d = t.capacity →
    (∀ e < d, t.slot (t.place w e) ≠ .empty ∧ ∀ v, t.slot (t.place w e) ≠ .live w v) →
    (spare = none → ∀ e < d, ∃ w' v, t.slot (t.place w e) = .live w' v) →
    (∀ p, spare = some p → ∃ e < d, p = t.place w e ∧ t.slot p = .tombstone) →
    t.Answers w (t.searchFrom w steps (t.place w d) spare) := by
  intro steps
  induction steps with
  | zero =>
    intro d spare hd hpass hnone hsome
    rw [Nat.zero_add] at hd
    subst hd
    have habs := not_holds_of_around fun e he => (hpass e he).2
    rw [WordTable.searchFrom]
    cases spare with
    | none =>
      rw [Option.elim_none]
      refine .full habs fun i hi => ?_
      obtain ⟨e, he, rfl⟩ := exists_place (w := w) hi
      exact hnone rfl e he
    | some p =>
      obtain ⟨e, he, rfl, htomb⟩ := hsome p rfl
      rw [Option.elim_some]
      exact .vacant habs (by simp [htomb]) fun e' he' => (hpass e' (he'.trans he)).1
  | succ steps ih =>
    intro d spare hd hpass hnone hsome
    rw [WordTable.searchFrom]
    have hpass' (hne : t.slot (t.place w d) ≠ .empty) (hl : ∀ v, t.slot (t.place w d) ≠ .live w v) :
        ∀ e < d + 1, t.slot (t.place w e) ≠ .empty ∧ ∀ v, t.slot (t.place w e) ≠ .live w v := by
      intro e he
      rcases Nat.lt_succ_iff_lt_or_eq.mp he with he | rfl
      · exact hpass e he
      · exact ⟨hne, hl⟩
    rcases hs : t.slot (t.place w d) with _ | _ | ⟨w', v⟩
    · have habs := hp.not_holds (fun e he => (hpass e he).2) hs
      simp only
      cases spare with
      | none =>
        rw [Option.getD_none]
        exact .vacant habs (by simp [hs]) fun e he => (hpass e he).1
      | some p =>
        obtain ⟨e, he, rfl, htomb⟩ := hsome p rfl
        rw [Option.getD_some]
        exact .vacant habs (by simp [htomb]) fun e' he' => (hpass e' (he'.trans he)).1
    · simp only [after_place]
      refine ih (d + 1) _ (by omega) (hpass' (by simp [hs]) (by simp [hs])) (by simp) fun p hp' => ?_
      rw [Option.some.injEq] at hp'
      cases spare with
      | none =>
        rw [Option.getD_none] at hp'
        exact ⟨d, Nat.lt_succ_self d, hp'.symm, hp' ▸ hs⟩
      | some q =>
        rw [Option.getD_some] at hp'
        obtain ⟨e, he, hq⟩ := hsome q rfl
        exact ⟨e, he.trans (Nat.lt_succ_self d), hp' ▸ hq⟩
    · by_cases hw : w' = w
      · subst hw
        simp only [if_true]
        exact .found hs
      · simp only [if_neg hw, after_place]
        refine ih (d + 1) spare (by omega) (hpass' (by simp [hs]) (by simp [hs, hw])) (fun hn e he => ?_)
          fun p hp' => ?_
        · rcases Nat.lt_succ_iff_lt_or_eq.mp he with he | rfl
          · exact hnone hn e he
          · exact ⟨w', v, hs⟩
        · obtain ⟨e, he, hq⟩ := hsome p hp'
          exact ⟨e, he.trans (Nat.lt_succ_self d), hq⟩

theorem Paths.search (hp : t.Paths) (w : UInt64) : t.Answers w (t.search w) := by
  have := hp.searchFrom (w := w) t.capacity 0 none rfl (by simp) (by simp) (by simp)
  rwa [place, Nat.add_zero, home, Nat.mod_mod] at this

namespace Tidy

variable (h : t.Tidy)
include h

theorem holds_unique (hv : t.Holds w v) (hv' : t.Holds w v') : v = v' := by
  obtain ⟨i, hi⟩ := hv
  obtain ⟨j, hj⟩ := hv'
  obtain rfl := h.unique i j w v v' hi hj
  rw [hi, Slot.live.injEq] at hj
  exact hj.2

/-- A search finds what the table holds. -/
theorem find?_eq_some_iff : t.find? w = some v ↔ t.Holds w v := by
  rw [find?]
  have ha := h.paths.search w
  generalize t.search w = r at ha
  cases ha with
  | @found i v' hi =>
    simp only [hi, Option.some.injEq]
    exact ⟨fun hv => hv ▸ ⟨i, hi⟩, fun hv => h.holds_unique ⟨i, hi⟩ hv⟩
  | vacant habs => simpa using habs v
  | full habs => simpa using habs v

theorem find?_eq_none_iff : t.find? w = none ↔ ∀ v, ¬ t.Holds w v := by
  rw [Option.eq_none_iff_forall_ne_some]
  exact forall_congr' fun v => not_congr h.find?_eq_some_iff

end Tidy

/-! ## Entries -/

/-- The entry in a slot. -/
def entryOf : Slot → Option (UInt64 × Nat)
  | .live word value => some (word, value)
  | _ => none

theorem entries_eq (t : WordTable) : t.entries = t.slots.toList.filterMap entryOf := rfl

theorem entryOf_eq_none (h : ∀ w v, x ≠ .live w v) : entryOf x = none := by
  cases x with
  | live w v => exact absurd rfl (h w v)
  | empty => rfl
  | tombstone => rfl

theorem entryOf_eq_some_iff : entryOf x = some (w, v) ↔ x = .live w v := by
  cases x <;> simp [entryOf]

theorem mem_entries : (w, v) ∈ t.entries ↔ t.Holds w v := by
  simp only [entries_eq, List.mem_filterMap, entryOf_eq_some_iff, exists_eq_right, Holds, slot,
    Array.mem_toList_iff, Array.mem_iff_getElem?, Array.getD_eq_getD_getElem?]
  refine exists_congr fun i => ?_
  cases t.slots[i]? <;> simp

/-- The words of the entries are distinct. -/
theorem Tidy.nodup_entries (h : t.Tidy) : (t.entries.map Prod.fst).Nodup := by
  rw [List.Nodup, List.pairwise_map, entries_eq, List.pairwise_filterMap, List.pairwise_iff_getElem]
  rintro i j hi hj hij ⟨w, v⟩ hw ⟨w', v'⟩ hw' rfl
  rw [entryOf_eq_some_iff] at hw hw'
  rw [Array.getElem_toList] at hw hw'
  have hslot (k : Nat) (hk : k < t.slots.size) : t.slot k = t.slots[k] := by
    simp [slot, Array.getD_eq_getD_getElem?, hk]
  exact Nat.ne_of_lt hij (h.unique i j w v v' ((hslot i hi).trans hw) ((hslot j hj).trans hw'))

/-- How many entries there are after one slot has changed. -/
theorem length_filterMap_set {l : List Slot} {i : Nat} {y : Slot} (hi : l[i]? = some y) (x : Slot) :
    ((l.set i x).filterMap entryOf).length + (entryOf y).toList.length =
      (l.filterMap entryOf).length + (entryOf x).toList.length := by
  induction l generalizing i with
  | nil => simp at hi
  | cons z l ih =>
    cases i with
    | zero =>
      obtain rfl : z = y := by simpa using hi
      rw [List.set_cons_zero, List.filterMap_cons, List.filterMap_cons]
      cases entryOf z <;> cases entryOf x <;> simp
    | succ i =>
      have := ih (by simpa using hi)
      rw [List.set_cons_succ, List.filterMap_cons, List.filterMap_cons]
      cases entryOf z <;> simp <;> omega

theorem length_entries_of_set (h : t'.slots = t.slots.setIfInBounds i x) (hi : i < t.capacity) :
    t'.entries.length + (entryOf (t.slot i)).toList.length = t.entries.length + (entryOf x).toList.length := by
  have hy : t.slots.toList[i]? = some (t.slot i) := by
    have hi : i < t.slots.size := hi
    simp [slot, hi]
  have := length_filterMap_set hy x
  rwa [← Array.toList_setIfInBounds, ← h] at this

theorem length_entries_of_set_live (h : t'.slots = t.slots.setIfInBounds i (.live w v)) (hi : i < t.capacity)
    (hne : ∀ w' v', t.slot i ≠ .live w' v') : t'.entries.length = t.entries.length + 1 := by
  have hlen := length_entries_of_set h hi
  rw [entryOf_eq_none hne] at hlen
  exact hlen

theorem length_entries_le (t : WordTable) : t.entries.length ≤ t.capacity :=
  (List.length_filterMap_le ..).trans Array.length_toList.le

/-- A table with a slot to spare is not full of entries. -/
theorem length_entries_lt (hi : i < t.capacity) (hne : ∀ w v, t.slot i ≠ .live w v) :
    t.entries.length < t.capacity := by
  have hset : (WordTable.mk (t.slots.setIfInBounds i (.live 0 0)) 0).slots =
      t.slots.setIfInBounds i (.live 0 0) := rfl
  have hlen := length_entries_of_set_live hset hi hne
  have hle := length_entries_le (WordTable.mk (t.slots.setIfInBounds i (.live 0 0)) 0)
  rw [capacity_of_set hset] at hle
  omega

/-- A table that is not full of entries has a slot to spare. -/
theorem exists_not_live (h : t.entries.length < t.capacity) :
    ∃ i < t.capacity, ∀ w v, t.slot i ≠ .live w v := by
  by_contra hall
  push Not at hall
  have hsome : ∀ l : List Slot, (∀ x ∈ l, (entryOf x).isSome) → (l.filterMap entryOf).length = l.length := by
    intro l hl
    induction l with
    | nil => rfl
    | cons x l ih =>
      obtain ⟨hx, hl⟩ := List.forall_mem_cons.mp hl
      obtain ⟨e, he⟩ := Option.isSome_iff_exists.mp hx
      rw [List.filterMap_cons, he, List.length_cons, List.length_cons, ih hl]
  have heq : t.entries.length = t.slots.toList.length := hsome t.slots.toList fun x hx => by
    obtain ⟨i, hi, rfl⟩ := List.mem_iff_getElem.mp hx
    have hi' : i < t.slots.size := by simpa using hi
    obtain ⟨w, v, hw⟩ := hall i hi'
    have hx : t.slots.toList[i] = .live w v := by
      rw [← hw]
      simp [slot, Array.getD_eq_getD_getElem?, hi']
    rw [hx]
    rfl
  rw [heq, Array.length_toList] at h
  exact absurd h (Nat.lt_irrefl _)

/-! ## Putting words in -/

namespace Tidy

/-- A word that is there keeps its value. -/
theorem insert_held (h : t.Tidy) (hw : t.Holds w v') : t.insert w v = (.ok false, t) := by
  rw [insert]
  have ha := h.paths.search w
  generalize t.search w = r at ha
  cases ha with
  | found hi => rfl
  | vacant habs => exact absurd hw (habs v')
  | full habs => exact absurd hw (habs v')

/-- A table in which all slots are live takes no new word. -/
theorem insert_full (h : t.Tidy) (hw : ∀ v, ¬ t.Holds w v) (hs : t.size = t.capacity) :
    t.insert w v = (.error (.tableFull t.capacity), t) := by
  have hall : ∀ i < t.capacity, ∃ w v, t.slot i = .live w v := by
    by_contra hi
    push Not at hi
    obtain ⟨i, hi, hne⟩ := hi
    exact absurd (h.size_eq.trans hs) (length_entries_lt hi hne).ne
  rw [insert]
  have ha := h.paths.search w
  generalize t.search w = r at ha
  cases ha with
  | @found i v' hi => exact absurd ⟨i, hi⟩ (hw v')
  | full => rfl
  | @vacant d _ hne _ =>
    obtain ⟨w', v', hw'⟩ := hall _ (place_lt (w := w) (d := d) h.capacity_pos)
    exact absurd hw' (hne w' v')

/-- A new word goes into a table with room. -/
theorem insert_new (h : t.Tidy) (hw : ∀ v, ¬ t.Holds w v) (hs : t.size < t.capacity) :
    ∃ t', t.insert w v = (.ok true, t') ∧ t'.Tidy ∧ t'.capacity = t.capacity ∧ t'.size = t.size + 1 ∧
      ∀ w' v', t'.Holds w' v' ↔ (w' = w ∧ v' = v) ∨ t.Holds w' v' := by
  rw [insert]
  have ha := h.paths.search w
  generalize t.search w = r at ha
  cases ha with
  | @found i v' hi => exact absurd ⟨i, hi⟩ (hw v')
  | full _ hall =>
    obtain ⟨i, hi, hne⟩ := exists_not_live (h.size_eq.trans_lt hs)
    obtain ⟨w', v', hw'⟩ := hall i hi
    exact absurd hw' (hne w' v')
  | @vacant d _ hne hpath =>
    have hi := place_lt (w := w) (d := d) h.capacity_pos
    generalize hd : t.place w d = i at hne hi
    refine ⟨_, rfl, ?_⟩
    generalize ht : WordTable.mk (t.slots.setIfInBounds i (.live w v)) (t.size + 1) = t'
    have hset : t'.slots = t.slots.setIfInBounds i (.live w v) := by rw [← ht]
    have hsize : t'.size = t.size + 1 := by rw [← ht]
    have hslot (j : Nat) := slot_of_set hset hi (j := j)
    refine ⟨⟨?_, h.paths.set_live hset hi rfl hd.symm hpath, fun j k w' v₁ v₂ hj hk => ?_, ?_⟩,
      capacity_of_set hset, hsize, fun w' v' => ⟨fun ⟨j, hj⟩ => ?_, ?_⟩⟩
    · rw [capacity_of_set hset]
      exact h.capacity_pos
    · rw [hslot] at hj hk
      split at hj <;> split at hk
      · next hj' hk' => rw [hj', hk']
      · rw [Slot.live.injEq] at hj
        obtain ⟨rfl, -⟩ := hj
        exact absurd ⟨k, hk⟩ (hw v₂)
      · rw [Slot.live.injEq] at hk
        obtain ⟨rfl, -⟩ := hk
        exact absurd ⟨j, hj⟩ (hw v₁)
      · exact h.unique j k w' v₁ v₂ hj hk
    · rw [length_entries_of_set_live hset hi hne, h.size_eq, hsize]
    · rw [hslot] at hj
      split at hj
      · rw [Slot.live.injEq] at hj
        exact .inl ⟨hj.1.symm, hj.2.symm⟩
      · exact .inr ⟨j, hj⟩
    · rintro (⟨rfl, rfl⟩ | ⟨j, hj⟩)
      · exact ⟨i, by rw [hslot, if_pos rfl]⟩
      · refine ⟨j, ?_⟩
        rw [hslot, if_neg, hj]
        rintro rfl
        exact hne w' v' hj

/-- A table with room refuses no word, whether it is there or not. -/
theorem insert_with_room (h : t.Tidy) (w : UInt64) (v : Nat) (hs : t.size < t.capacity) :
    ∃ b t', t.insert w v = (.ok b, t') ∧ t'.Tidy ∧ t'.capacity = t.capacity ∧ t'.size ≤ t.size + 1 := by
  by_cases hw : ∃ v', t.Holds w v'
  · obtain ⟨v', hw⟩ := hw
    exact ⟨false, t, h.insert_held hw, h, rfl, Nat.le_succ _⟩
  · obtain ⟨t', hins, ht, hcap, hsize, -⟩ := h.insert_new (v := v) (not_exists.mp hw) hs
    exact ⟨true, t', hins, ht, hcap, hsize.le⟩

/-! ## Taking words out -/

/-- The word in slot `i` has been taken out of `t`. -/
structure Vacated (t : WordTable) (i : Nat) (t' : WordTable) : Prop where
  capacity_eq : t'.capacity = t.capacity
  paths : t'.Paths
  live_iff : ∀ j w v, t'.slot j = .live w v ↔ j ≠ i ∧ t.slot j = .live w v
  length_entries : t'.entries.length + 1 = t.entries.length

end Tidy

/-- Emptying slots one after the other, from one before an empty slot on, keeps all paths and all live
slots. -/
theorem sweep_spec (n stop : Nat) : ∀ (steps j : Nat) (slots : Array Slot), j < slots.size →
    (WordTable.mk slots n).Paths → (∀ w v, (WordTable.mk slots n).slot j ≠ .live w v) →
    (WordTable.mk slots n).slot ((WordTable.mk slots n).after j) = .empty →
    (WordTable.mk (sweep slots stop steps j) n).Paths ∧ (sweep slots stop steps j).size = slots.size ∧
      (∀ k w v, (WordTable.mk (sweep slots stop steps j) n).slot k = .live w v ↔
        (WordTable.mk slots n).slot k = .live w v) ∧
      (WordTable.mk (sweep slots stop steps j) n).entries.length = (WordTable.mk slots n).entries.length := by
  intro steps
  induction steps with
  | zero => exact fun j slots _ hp _ _ => ⟨hp, rfl, fun _ _ _ => Iff.rfl, rfl⟩
  | succ steps ih =>
    intro j slots hj hp hl ha
    have hset : (WordTable.mk (slots.setIfInBounds j .empty) n).slots =
        (WordTable.mk slots n).slots.setIfInBounds j .empty := rfl
    have hp' := hp.set_empty hset hj rfl hl ha
    have hslot (k : Nat) := slot_of_set hset hj (j := k)
    have hlive (k : Nat) (w : UInt64) (v : Nat) :
        (WordTable.mk (slots.setIfInBounds j .empty) n).slot k = .live w v ↔
          (WordTable.mk slots n).slot k = .live w v := by
      rw [hslot]
      split
      · next hk => simpa [hk] using hl w v
      · rfl
    have hlen := length_entries_of_set hset hj
    rw [entryOf_eq_none hl] at hlen
    have hlen' : (WordTable.mk (slots.setIfInBounds j .empty) n).entries.length =
        (WordTable.mk slots n).entries.length := by simpa [entryOf] using hlen
    rw [sweep]
    split
    · exact ⟨hp', Array.size_setIfInBounds, hlive, hlen'⟩
    · next hstop =>
      have htomb := not_not.mp (not_or.mp hstop).2
      have hpos : 0 < slots.size := Nat.zero_lt_of_lt hj
      rw [Array.size_setIfInBounds] at htomb ⊢
      obtain ⟨h₁, h₂, h₃, h₄⟩ := ih ((j + slots.size - 1) % slots.size) (slots.setIfInBounds j .empty)
        (by rw [Array.size_setIfInBounds]; exact Nat.mod_lt _ hpos) hp'
        (fun w v hw => by
          have : (WordTable.mk (slots.setIfInBounds j .empty) n).slot ((j + slots.size - 1) % slots.size) =
            .tombstone := htomb
          rw [this] at hw
          cases hw)
        (by
          -- The slot after the one before slot `j` is slot `j`, which is empty now.
          rw [hslot, if_pos]
          rw [after, capacity, Array.size_setIfInBounds, Nat.mod_add_mod,
            show j + slots.size - 1 + 1 = j + slots.size by omega, Nat.add_mod_right, Nat.mod_eq_of_lt hj])
      exact ⟨h₁, h₂.trans Array.size_setIfInBounds, fun k w v => (h₃ k w v).trans (hlive k w v),
        h₄.trans hlen'⟩

namespace Tidy

theorem vacated (h : t.Tidy) (hi : t.slot i = .live w v) : Vacated t i (t.vacate i) := by
  have hlt := lt_capacity_of_live hi
  -- A tombstone would do; if the next slot is empty, it and the tombstones before it go as well.
  have hset : (WordTable.mk (t.slots.setIfInBounds i .tombstone) (t.size - 1)).slots =
      t.slots.setIfInBounds i .tombstone := rfl
  have hlive (j : Nat) (w : UInt64) (v : Nat) :
      (WordTable.mk (t.slots.setIfInBounds i .tombstone) (t.size - 1)).slot j = .live w v ↔
        j ≠ i ∧ t.slot j = .live w v := by
    rw [slot_of_set hset hlt]
    split
    · next hj => simp [hj]
    · next hj => simp [hj]
  have hlen := length_entries_of_set hset hlt
  rw [hi] at hlen
  have hpaths := h.paths.set_tombstone hset hlt rfl
  rw [vacate]
  split
  · next ha =>
    have hsweep : sweep t.slots i t.capacity i =
        sweep (t.slots.setIfInBounds i .tombstone) i t.capacity i := by
      obtain ⟨c, hc⟩ := Nat.exists_eq_add_one_of_ne_zero (Nat.ne_zero_of_lt h.capacity_pos)
      rw [hc, sweep, sweep, Array.setIfInBounds_setIfInBounds]
    rw [hsweep]
    have hne : t.after i ≠ i := fun he => by
      rw [he, hi] at ha
      cases ha
    obtain ⟨h₁, h₂, h₃, h₄⟩ := sweep_spec (t.size - 1) i t.capacity i (t.slots.setIfInBounds i .tombstone)
      (by rw [Array.size_setIfInBounds]; exact hlt) hpaths (fun w v hw => ((hlive i w v).mp hw).1 rfl) (by
        rw [slot_of_set hset hlt, after, capacity_of_set hset, ← after, if_neg hne, ha])
    refine ⟨h₂.trans Array.size_setIfInBounds, h₁, fun j w v => (h₃ j w v).trans (hlive j w v), ?_⟩
    rw [h₄]
    simpa [entryOf] using hlen
  · exact ⟨capacity_of_set hset, hpaths, hlive, by simpa [entryOf] using hlen⟩

/-- A word that is there is taken out. -/
theorem erase_held (h : t.Tidy) (hw : t.Holds w v) :
    ∃ t', t.erase w = (true, t') ∧ t'.Tidy ∧ t'.capacity = t.capacity ∧ t'.size + 1 = t.size ∧
      ∀ w' v', t'.Holds w' v' ↔ w' ≠ w ∧ t.Holds w' v' := by
  rw [erase]
  have ha := h.paths.search w
  generalize t.search w = r at ha
  cases ha with
  | vacant habs => exact absurd hw (habs v)
  | full habs => exact absurd hw (habs v)
  | @found i v₀ hi =>
    obtain ⟨hcap, hpaths, hlive, hlen⟩ := h.vacated hi
    have hsize : (t.vacate i).size = t.size - 1 := by
      rw [vacate]
      split <;> rfl
    rw [h.size_eq] at hlen
    refine ⟨_, rfl, ⟨hcap ▸ h.capacity_pos, hpaths, fun j k w' v₁ v₂ hj hk => ?_, by omega⟩, hcap, by omega,
      fun w' v' => ⟨fun ⟨j, hj⟩ => ?_, fun ⟨hne, j, hj⟩ => ⟨j, (hlive j w' v').mpr ⟨fun e => hne ?_, hj⟩⟩⟩⟩
    · exact h.unique j k w' v₁ v₂ ((hlive j w' v₁).mp hj).2 ((hlive k w' v₂).mp hk).2
    · obtain ⟨hji, hj⟩ := (hlive j w' v').mp hj
      refine ⟨?_, j, hj⟩
      rintro rfl
      exact hji (h.unique j i w' v' v₀ hj hi)
    · rw [e, hi, Slot.live.injEq] at hj
      exact hj.1.symm

/-- A word that is not there cannot be taken out. -/
theorem erase_absent (h : t.Tidy) (hw : ∀ v, ¬ t.Holds w v) : t.erase w = (false, t) := by
  rw [erase]
  have ha := h.paths.search w
  generalize t.search w = r at ha
  cases ha with
  | @found i v hi => exact absurd ⟨i, hi⟩ (hw v)
  | vacant => rfl
  | full => rfl

/-- A table is tidy whatever is taken out of it. -/
theorem erase (h : t.Tidy) (w : UInt64) : (t.erase w).2.Tidy := by
  by_cases hw : ∃ v, t.Holds w v
  · obtain ⟨v, hv⟩ := hw
    obtain ⟨t', hok, htidy, -⟩ := h.erase_held hv
    rwa [hok]
  · rwa [h.erase_absent (not_exists.mp hw)]

end Tidy

/-! ## New tables -/

theorem nextPowerOfTwo_eq {n : Nat} (h : n ≤ 2 ^ 41) :
    ∃ p, nextPowerOfTwo n = .ok p ∧ n ≤ p ∧ 0 < p ∧ p ≤ 2 ^ 42 := by
  have hle := le_shiftLeft_ceilLog2 n
  have hlt : 1 <<< ceilLog2 n ≤ 2 ^ 42 := by
    rcases hc : ceilLog2 n with _ | c
    · decide
    · have := shiftLeft_lt_of_lt_ceilLog2 (hc ▸ Nat.lt_succ_self c : c < ceilLog2 n)
      rw [Nat.one_shiftLeft] at this ⊢
      rw [Nat.pow_succ]
      omega
  have hpos : 0 < 1 <<< ceilLog2 n := by
    rw [Nat.one_shiftLeft]
    exact Nat.two_pow_pos _
  refine ⟨1 <<< ceilLog2 n, if_pos ?_, hle, hpos, hlt⟩
  unfold maxWord
  omega

theorem slot_replicate (c i : Nat) : (WordTable.mk (Array.replicate c .empty) 0).slot i = .empty := by
  rw [slot, Array.getD_eq_getD_getElem?, Array.getElem?_replicate]
  split <;> rfl

/-- A table of empty slots holds nothing. -/
theorem tidy_replicate {c : Nat} (hc : 0 < c) :
    (WordTable.mk (Array.replicate c .empty) 0).Tidy ∧
      ∀ w v, ¬ (WordTable.mk (Array.replicate c .empty) 0).Holds w v := by
  have hnone (w : UInt64) (v : Nat) : ¬ (WordTable.mk (Array.replicate c .empty) 0).Holds w v := by
    rintro ⟨i, hi⟩
    rw [slot_replicate] at hi
    cases hi
  refine ⟨⟨?_, fun i w v hi => absurd ⟨i, hi⟩ (hnone w v), fun i _ w v _ hi => absurd ⟨i, hi⟩ (hnone w v), ?_⟩,
    hnone⟩
  · simpa [capacity] using hc
  · rw [List.length_eq_zero_iff, List.eq_nil_iff_forall_not_mem]
    exact fun ⟨w, v⟩ hm => hnone w v (mem_entries.mp hm)

/-- The number of slots, if it can be computed, is a power of two. -/
theorem capacityFor_eq_ok {maxKeys c : Nat} (h : capacityFor maxKeys = .ok c) : ∃ e, c = 2 ^ e := by
  obtain ⟨a, -, h⟩ := bind_eq_ok.mp h
  obtain ⟨b, -, h⟩ := bind_eq_ok.mp h
  simp only [nextPowerOfTwo, Nat.one_shiftLeft] at h
  split at h
  · exact ⟨ceilLog2 b, (Except.ok.inj h).symm⟩
  · cases h

/-- A new table has the slots that were computed for it. -/
theorem capacityFor_of_withRoom {maxKeys : Nat} {t : WordTable} (h : withRoom maxKeys = .ok t) :
    capacityFor maxKeys = .ok t.capacity := by
  obtain ⟨c, hc, h⟩ := bind_eq_ok.mp h
  obtain ⟨-, -, h⟩ := bind_eq_ok.mp h
  rw [← Except.ok.inj h, capacity, Array.size_replicate, hc]

/-- A new table is made unless it is too large. It holds nothing and has more slots than were asked
for. -/
theorem withRoom_eq (maxKeys : Nat) (h : maxKeys ≤ 2 ^ 40) :
    ∃ t, withRoom maxKeys = .ok t ∧ t.Tidy ∧ t.size = 0 ∧ maxKeys < t.capacity ∧
      ∀ w v, ¬ t.Holds w v := by
  obtain ⟨c, hc, hle, hpos, hlt⟩ := nextPowerOfTwo_eq (by omega : 100 + maxKeys + maxKeys / 10 ≤ 2 ^ 41)
  have hcap : capacityFor maxKeys = .ok c := by
    have h₁ : 100 + maxKeys ≤ maxWord := by
      unfold maxWord
      omega
    have h₂ : 100 + maxKeys + maxKeys / 10 ≤ maxWord := by
      unfold maxWord
      omega
    rw [capacityFor, addWords, if_pos h₁, ok_bind, addWords, if_pos h₂, ok_bind, hc]
  have hres : reserve c slotBytes = .ok () := by
    apply if_pos
    unfold slotBytes largestBlock
    omega
  obtain ⟨htidy, hnone⟩ := tidy_replicate hpos
  refine ⟨⟨Array.replicate c .empty, 0⟩, ?_, htidy, rfl, ?_, hnone⟩
  · rw [withRoom, hcap, ok_bind, hres]
    rfl
  · simp only [capacity, Array.size_replicate]
    omega

end TourForest.WordTable
