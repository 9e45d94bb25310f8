import TourForest.Proofs.Forest.Orderly

/-!
# Too few free pairs

Adding edges is refused only where there are fewer free pairs than new edges, and then nothing has been done yet.
The index is the other place that could refuse an edge, with part of a batch done. It never does: the slots that are
left over in its table are more than the free pairs (`Roomy`). Each new edge takes one of either, whether or not it
closes a cycle, and so nothing needs to be known about the new edges.

* `Roomy.attach`, `Roomy.link`: an edge that goes in leaves room;
* `Roomy.linkEach`, `Roomy.linkTogether`: a batch for which there are pairs is not refused;
* `Ledger.shortageLaw`: the number of free pairs is that of the edges that are missing to a tree;
* `shortageLaw_of_run`: along all orderly runs.
-/

namespace TourForest

/-! ## Room in the index -/

namespace EdgeIndex

variable {e e' : EdgeIndex} {k u v x : Nat} {b : Except Refusal Bool}

/-- The table has a slot for each of `k` new edges, and one more. -/
structure Roomy (e : EdgeIndex) (k : Nat) : Prop where
  tidy : e.table.words.Tidy
  room : e.size + k < e.table.words.capacity

/-- Any edge goes in where there is room, and takes at most one slot. -/
theorem Roomy.insert (h : e.Roomy (k + 1)) (hok : e.insert u v x = .ok (b, e')) :
    (∃ new, b = .ok new) ∧ e'.Roomy k ∧ e'.vertices = e.vertices := by
  rw [EdgeIndex.insert] at hok
  obtain ⟨stored, -, hok⟩ := bind_eq_ok.mp hok
  obtain ⟨⟨reply, table⟩, hins, hok⟩ := bind_eq_ok.mp hok
  obtain ⟨w, -, hins⟩ := bind_eq_ok.mp hins
  have hroom : e.table.words.size + (k + 1) < e.table.words.capacity := h.room
  obtain ⟨new, t, ht, htidy, hcap, hsize⟩ := h.tidy.insert_with_room w stored (by omega)
  rw [ht] at hins
  cases hins
  cases hok
  refine ⟨⟨new, rfl⟩, ⟨htidy, ?_⟩, rfl⟩
  show t.size + k < t.capacity
  omega

end EdgeIndex

namespace Forest

variable {n p u v : Nat} {settings : Settings} {f f' : Forest} {rot : Nat → List Nat} {E : Finset (Sym2 Nat)}
  {rest : List Nat} {σ : Sorting} {links : List (Nat × Nat)} {r : Except Refusal Unit} {refusal : Refusal}

/-- The index has a slot for each free pair, and one more. -/
def Roomy (f : Forest) : Prop := f.edges.Roomy f.freePairs.length

/-- Entering edges for which there is room refuses none of them. -/
theorem enter_roomy {n : Nat} : ∀ {paired : List ((Nat × Nat) × Nat)} {edges edges' : EdgeIndex},
    edges.Roomy paired.length → enter n edges paired = .ok (r, edges') → r = .ok () := by
  intro paired
  induction paired with
  | nil =>
    intro edges edges' _ hok
    cases hok
    rfl
  | cons l paired ih =>
    obtain ⟨⟨u, v⟩, p⟩ := l
    intro edges edges' h hok
    rw [enter] at hok
    split at hok
    · cases hok
    · obtain ⟨⟨reply, edges₁⟩, hins, hok⟩ := bind_eq_ok.mp hok
      obtain ⟨⟨new, rfl⟩, h₁, -⟩ := h.insert hins
      rcases new with _ | _
      · cases hok
      · exact ih h₁ hok

namespace Roomy

/-! ## One edge -/

theorem attach (h : f.Roomy) (hfree : f.freePairs = p :: rest)
    (hok : ({ f with freePairs := rest } : Forest).attach u v p = .ok (r, f')) :
    r = .ok () ∧ f'.Roomy ∧ f'.freePairs = rest := by
  have hroom : f.edges.Roomy (rest.length + 1) := by
    rw [Roomy, hfree] at h
    exact h
  rw [Forest.attach] at hok
  obtain ⟨⟨reply, edges⟩, hins, hok⟩ := bind_eq_ok.mp hok
  obtain ⟨⟨new, rfl⟩, h', -⟩ := hroom.insert hins
  obtain ⟨⟨after, tours₁⟩, -, hok⟩ := bind_eq_ok.mp hok
  obtain ⟨tours, -, hok⟩ := bind_eq_ok.mp hok
  cases hok
  exact ⟨rfl, h', rfl⟩

/-- An edge for which there is a pair is not refused. -/
theorem link (h : f.Roomy) (hfree : f.freePairs = p :: rest) (hok : (f.link u v).outcome = .ok (r, f')) :
    r = .ok () ∧ f'.Roomy ∧ f'.freePairs = rest := by
  rw [outcome_link_of_cons hfree] at hok
  obtain ⟨c, -, hok⟩ := bind_eq_ok.mp hok
  split at hok
  · cases hok
  · exact h.attach hfree hok

/-! ## Batches -/

/-- One edge after the other is added, as long as there are pairs. -/
theorem linkEach : ∀ {links : List (Nat × Nat)} {f : Forest}, f.Roomy → links.length ≤ f.freePairs.length →
    (f.linkEach links).outcome = .ok (r, f') → r = .ok () := by
  intro links
  induction links with
  | nil =>
    intro f _ _ hok
    cases hok
    rfl
  | cons l links ih =>
    obtain ⟨u, v⟩ := l
    intro f h hk hok
    rcases hfree : f.freePairs with _ | ⟨p, rest⟩
    · simp [hfree] at hk
    · rw [Forest.linkEach, Traced.outcome_bind] at hok
      obtain ⟨⟨r₁, f₁⟩, hlink, hok⟩ := bind_eq_ok.mp hok
      obtain ⟨rfl, h₁, hfree₁⟩ := h.link hfree hlink
      rw [hfree, List.length_cons, List.length_cons, Nat.add_le_add_iff_right, ← hfree₁] at hk
      exact ih h₁ hk hok

theorem linkTogether (h : f.Roomy) (hk : links.length ≤ f.freePairs.length)
    (hok : f.linkTogether σ links = .ok (r, f')) : r = .ok () := by
  rw [Forest.linkTogether] at hok
  obtain ⟨⟨r₁, edges⟩, henter, hok⟩ := bind_eq_ok.mp hok
  have hroom : f.edges.Roomy (links.zip (f.freePairs.take links.length).reverse).length := by
    refine ⟨h.tidy, lt_of_le_of_lt ?_ h.room⟩
    rw [List.length_zip, List.length_reverse, List.length_take]
    omega
  obtain rfl := enter_roomy hroom henter
  obtain ⟨⟨after, tours₁⟩, -, hok⟩ := bind_eq_ok.mp hok
  obtain ⟨seams, -, hok⟩ := bind_eq_ok.mp hok
  obtain ⟨tours, -, hok⟩ := bind_eq_ok.mp hok
  cases hok
  rfl

theorem linkAll (h : f.Roomy) (hk : links.length ≤ f.freePairs.length)
    (hok : (f.linkAll σ links).outcome = .ok (r, f')) : r = .ok () := by
  rw [outcome_linkAll_of_le hk] at hok
  split at hok
  · exact h.linkEach hk hok
  · exact h.linkTogether hk hok

/-! ## What is refused -/

/-- A batch is refused if and only if it is longer than the stack of free pairs. -/
theorem linkAll_refused_iff (h : f.Roomy) : (f.linkAll σ links).outcome = .ok (.error refusal, f') ↔
    f.freePairs.length < links.length ∧ refusal = .noFreePairs links.length f.freePairs.length ∧ f' = f := by
  constructor
  · intro hok
    rcases Nat.lt_or_ge f.freePairs.length links.length with hk | hk
    · cases hok.symm.trans (outcome_linkAll_of_lt hk)
      exact ⟨hk, rfl, rfl⟩
    · cases h.linkAll hk hok
  · rintro ⟨hk, rfl, rfl⟩
    exact outcome_linkAll_of_lt hk

/-- One edge is refused if and only if no pair is free. -/
theorem link_refused_iff (h : f.Roomy) : (f.link u v).outcome = .ok (.error refusal, f') ↔
    f.freePairs.length < 1 ∧ refusal = .noFreePairs 1 f.freePairs.length ∧ f' = f := by
  rcases hfree : f.freePairs with _ | ⟨p, rest⟩
  · rw [outcome_link_of_nil hfree]
    simp [eq_comm]
  · refine ⟨fun hok => ?_, fun ⟨hk, _⟩ => absurd hk (by simp)⟩
    cases (h.link hfree hok).1

end Roomy

/-! ## Runs -/

/-- Adding edges is refused if and only if the edges are more than are missing to a tree, whatever they are, and a
refusal leaves the forest as it is. -/
structure ShortageLaw (f : Forest) (E : Finset (Sym2 Nat)) : Prop where
  linkAll_refused_iff : ∀ σ links refusal f', (f.linkAll σ links).outcome = .ok (.error refusal, f') ↔
    f.vertices - 1 - f.edgeCount < links.length ∧
      refusal = .noFreePairs links.length (f.vertices - 1 - f.edgeCount) ∧ f' = f
  link_refused_iff : ∀ u v refusal f', (f.link u v).outcome = .ok (.error refusal, f') ↔
    f.vertices - 1 - f.edgeCount < 1 ∧ refusal = .noFreePairs 1 (f.vertices - 1 - f.edgeCount) ∧ f' = f
  spared : ∀ σ links, (∀ l ∈ links, l.1 < f.vertices ∧ l.2 < f.vertices) → Grows E links →
    ∀ refusal f', (f.linkAll σ links).outcome ≠ .ok (.error refusal, f')

theorem Ledger.roomy (h : Ledger f.vertices f.edges f.freePairs rot E) : f.Roomy := by
  have hsize := h.size_eq
  have hfree := h.free_length
  have hroom := h.indexes.room
  exact ⟨h.indexes.tidy, by omega⟩

theorem Ledger.shortageLaw (h : Ledger f.vertices f.edges f.freePairs rot E) : f.ShortageLaw E := by
  have hroomy := h.roomy
  have hcount : f.freePairs.length = f.vertices - 1 - f.edgeCount := by
    have := h.free_length
    rw [edgeCount, h.size_eq]
    omega
  refine ⟨fun σ links refusal f' => ?_, fun u v refusal f' => ?_, fun σ links hlt hg refusal f' hok => ?_⟩
  · rw [hroomy.linkAll_refused_iff, hcount]
  · rw [hroomy.link_refused_iff, hcount]
  · exact absurd (hroomy.linkAll_refused_iff.mp hok).1 (not_lt.mpr (h.length_le_of_grows hlt hg))

/-- The law of shortage holds along all orderly runs, for any number of vertices and both ways of adding a batch. -/
theorem shortageLaw_of_run (h : OrderlyRun n settings f E) : f.vertices = n ∧ f.ShortageLaw E := by
  obtain ⟨hv, rot, ht⟩ := h.toured
  exact ⟨hv, ht.shortageLaw⟩

/-- Two vertices that are linked can be linked no more, by one edge or by two. -/
theorem shortageLaw_of_one_edge : ∃ f, OrderlyRun 2 {} f {s(0, 1)} ∧
    (f.link 1 0).outcome = .ok (.error (.noFreePairs 1 0), f) ∧
    (f.linkAll .stable [(0, 1), (1, 1)]).outcome = .ok (.error (.noFreePairs 2 0), f) := by
  obtain ⟨f₀, pools, hok₀, hr₀, hv₀, -⟩ := outcome_build (n := 2) .empty (by decide) {}
  have hsep : ¬ (graph ∅).Reachable 0 1 := not_reachable_empty (by decide)
  obtain ⟨f, hok⟩ := hr₀.progress.link 0 (by omega) 1 (by omega) hsep
  have hf : OrderlyRun 2 {} f {s(0, 1)} := .linked (.built hok₀) (by decide) (by decide) hsep hok
  obtain ⟨hv, hlaw⟩ := shortageLaw_of_run hf
  obtain ⟨-, rot, ht⟩ := hf.toured
  have hnone : f.vertices - 1 - f.edgeCount = 0 := by
    rw [hv, edgeCount, ht.size_eq, Finset.card_singleton]
  refine ⟨f, hf, (hlaw.link_refused_iff 1 0 _ f).mpr ?_, (hlaw.linkAll_refused_iff .stable _ _ f).mpr ?_⟩
  · rw [hnone]
    exact ⟨Nat.zero_lt_one, rfl, rfl⟩
  · rw [hnone]
    exact ⟨Nat.zero_lt_two, rfl, rfl⟩

end Forest

end TourForest
