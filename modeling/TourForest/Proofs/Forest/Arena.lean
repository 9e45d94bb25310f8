import TourForest.Forest.Cut
import TourForest.Forest.Link
import TourForest.Proofs.Twin
import TourForest.Proofs.WordTable

/-!
# Elements of edges in the arena

Whatever a forest is asked, the elements in its index are elements of edges in its arena (`EdgeIndex.Within`): a table
holds nothing that was not put in, whether or not it is tidy, and what is put in is an element of a pair or its mate.
-/

namespace TourForest

/-! ## What tables hold -/

namespace WordTable

variable {t t' : WordTable} {w w' : UInt64} {v v' i : Nat} {x : Slot}

theorem holds_of_set (h : t'.slots = t.slots.setIfInBounds i x) (hv : t'.Holds w v) : t.Holds w v ∨ x = .live w v := by
  obtain ⟨j, hj⟩ := hv
  rcases Nat.lt_or_ge i t.capacity with hi | hi
  · rw [slot_of_set h hi] at hj
    split at hj
    · exact .inr hj
    · exact .inl ⟨j, hj⟩
  · rw [Array.setIfInBounds_eq_of_size_le hi] at h
    exact .inl ⟨j, by rwa [slot, ← h]⟩

theorem holds_of_insert (hv : (t.insert w v).2.Holds w' v') : t.Holds w' v' ∨ v' = v := by
  rw [insert] at hv
  split at hv
  · exact .inl hv
  · refine (holds_of_set rfl hv).imp_right fun hx => ?_
    rw [Slot.live.injEq] at hx
    exact hx.2.symm
  · exact .inl hv

theorem holds_of_sweep {stop steps : Nat} {slots : Array Slot} {j n m : Nat}
    (hv : WordTable.Holds ⟨sweep slots stop steps j, n⟩ w v) : WordTable.Holds ⟨slots, m⟩ w v := by
  induction steps generalizing slots j with
  | zero => exact hv
  | succ steps ih =>
    have hset (hv : WordTable.Holds ⟨slots.setIfInBounds j .empty, m⟩ w v) : WordTable.Holds ⟨slots, m⟩ w v :=
      (holds_of_set (t := ⟨slots, m⟩) rfl hv).resolve_right (by simp)
    rw [sweep] at hv
    split at hv
    · exact hset hv
    · exact hset (ih hv)

theorem holds_of_erase (hv : (t.erase w).2.Holds w' v) : t.Holds w' v := by
  rw [erase] at hv
  split at hv
  · rw [vacate] at hv
    split at hv
    · exact holds_of_sweep hv
    · exact (holds_of_set rfl hv).resolve_right (by simp)
  · exact hv

theorem exists_holds_of_find? (h : t.find? w = some v) : ∃ w', t.Holds w' v := by
  rw [find?] at h
  split at h
  · split at h
    · next w' v' hlive =>
      cases h
      exact ⟨w', _, hlive⟩
    · cases h
  · cases h

end WordTable

/-! ## Elements -/

/-- An element of an edge between `n` vertices. -/
structure InArena (n x : Nat) : Prop where
  le : n ≤ x
  lt : x < Forest.arenaSize n

namespace InArena

variable {n x p : Nat}

theorem pair (hp : p < n - 1) : InArena n (elementsOfPair n p).1 ∧ InArena n (elementsOfPair n p).2 := by
  have hlt : n + 2 * p + 1 < Forest.arenaSize n := by
    unfold Forest.arenaSize
    omega
  exact ⟨⟨Nat.le_add_right _ _, Nat.lt_of_succ_lt hlt⟩, ⟨(Nat.le_add_right _ _).trans (Nat.le_succ _), hlt⟩⟩

theorem pair_lt (h : InArena n x) : (x - n) / 2 < n - 1 := by
  have hlt := h.lt
  have hle := h.le
  unfold Forest.arenaSize at hlt
  omega

theorem mate (h : InArena n x) : InArena n (mate n x) := by
  have hpair := pair_mate h.le
  have hlt := h.pair_lt
  have hle := le_mate h.le
  refine ⟨hle, ?_⟩
  unfold Forest.arenaSize
  omega

theorem lt_maxWord (h : InArena n x) (hn : n < 2 ^ 32) : x < maxWord := by
  have hlt := h.lt
  unfold Forest.arenaSize at hlt
  unfold maxWord
  omega

theorem twin_eq (h : InArena n x) (hn : n < 2 ^ 32) : twin n x = .ok (TourForest.mate n x) :=
  TourForest.twin_eq h.le (h.lt_maxWord hn)

end InArena

/-! ## What an index holds -/

/-- All elements in the index of a forest of `n` vertices are elements of edges. -/
structure EdgeIndex.Within (e : EdgeIndex) (n : Nat) : Prop where
  few : n < 2 ^ 32
  vertices : e.vertices = n
  range : ∀ w x, e.table.words.Holds w x → InArena n x

namespace EdgeIndex

variable {e e' : EdgeIndex} {n u v x y : Nat}

/-- Taking an edge out takes a word out of the table. -/
theorem words_of_erase {found : Bool} (hok : e.erase u v = .ok (found, e')) :
    ∃ w, e'.table.words = (e.table.words.erase w).2 ∧ e'.vertices = e.vertices := by
  rw [EdgeIndex.erase] at hok
  obtain ⟨⟨found, table⟩, htable, hok⟩ := bind_eq_ok.mp hok
  rw [KeyTable.erase] at htable
  obtain ⟨word, -, htable⟩ := bind_eq_ok.mp htable
  cases htable
  cases hok
  exact ⟨word, rfl, rfl⟩

/-- What lasts while one edge is taken out lasts while several are. -/
theorem eraseEdges_keeps {P : EdgeIndex → Prop}
    (hP : ∀ {e e' : EdgeIndex} {u v : Nat} {found : Bool}, P e → e.erase u v = .ok (found, e') → P e')
    {cuts : List (Nat × Nat)} (h : P e) (hok : Forest.eraseEdges e cuts = .ok e') : P e' := by
  induction cuts generalizing e with
  | nil =>
    cases hok
    exact h
  | cons c cuts ih =>
    obtain ⟨u, v⟩ := c
    rw [Forest.eraseEdges] at hok
    obtain ⟨⟨found, edges⟩, herase, hok⟩ := bind_eq_ok.mp hok
    exact ih (hP h herase) hok

namespace Within

theorem orient (h : e.Within n) (hx : InArena n x) (hok : e.orient u v x = .ok y) : InArena n y := by
  rw [EdgeIndex.orient, h.vertices, hx.twin_eq h.few] at hok
  split at hok <;> cases hok
  · exact hx
  · exact hx.mate

theorem insert (h : e.Within n) (hx : InArena n x) {r : Except Refusal Bool} (hok : e.insert u v x = .ok (r, e')) :
    e'.Within n := by
  rw [EdgeIndex.insert] at hok
  obtain ⟨stored, hstored, hok⟩ := bind_eq_ok.mp hok
  obtain ⟨⟨reply, table⟩, htable, hok⟩ := bind_eq_ok.mp hok
  rw [KeyTable.insert] at htable
  obtain ⟨word, -, htable⟩ := bind_eq_ok.mp htable
  cases htable
  cases hok
  refine ⟨h.few, h.vertices, fun w y hy => ?_⟩
  rcases WordTable.holds_of_insert hy with hy | rfl
  · exact h.range w y hy
  · exact h.orient hx hstored

theorem erase (h : e.Within n) {found : Bool} (hok : e.erase u v = .ok (found, e')) : e'.Within n := by
  obtain ⟨w, hwords, hvertices⟩ := words_of_erase hok
  refine ⟨h.few, hvertices.trans h.vertices, fun w' y hy => h.range w' y ?_⟩
  rw [hwords] at hy
  exact WordTable.holds_of_erase hy

theorem find? (h : e.Within n) (hok : e.find? u v = .ok (some x)) : InArena n x := by
  rw [EdgeIndex.find?] at hok
  obtain ⟨stored, hstored, hok⟩ := bind_eq_ok.mp hok
  rcases stored with _ | stored
  · cases hok
  · obtain ⟨y, hy, hok⟩ := bind_eq_ok.mp hok
    cases hok
    rw [KeyTable.find?] at hstored
    obtain ⟨word, -, hstored⟩ := bind_eq_ok.mp hstored
    obtain ⟨w, hw⟩ := WordTable.exists_holds_of_find? (Except.ok.inj hstored)
    exact h.orient (h.range w stored hw) hy

/-- Entering edges with their pairs keeps all elements in the arena. -/
theorem enter {links : List ((Nat × Nat) × Nat)} (hp : ∀ l ∈ links, l.2 < n - 1) :
    ∀ {e e' : EdgeIndex} {r : Except Refusal Unit}, e.Within n → Forest.enter n e links = .ok (r, e') →
      e'.Within n := by
  induction links with
  | nil =>
    intro e e' r h hok
    cases hok
    exact h
  | cons l links ih =>
    intro e e' r h hok
    obtain ⟨⟨u, v⟩, p⟩ := l
    obtain ⟨hpair, hrest⟩ := List.forall_mem_cons.mp hp
    rw [Forest.enter] at hok
    split at hok
    · cases hok
    · obtain ⟨⟨reply, edges⟩, hinsert, hok⟩ := bind_eq_ok.mp hok
      have hedges := h.insert (InArena.pair hpair).1 hinsert
      rcases reply with refusal | _ | _
      · cases hok
        exact hedges
      · cases hok
      · exact ih hrest hedges hok

theorem eraseEdges {cuts : List (Nat × Nat)} (h : e.Within n) (hok : Forest.eraseEdges e cuts = .ok e') :
    e'.Within n := eraseEdges_keeps (P := (·.Within n)) (fun h => h.erase) h hok

end Within

end EdgeIndex

end TourForest
