import TourForest.Forest.Link
import TourForest.Proofs.Forest.Graft

/-!
# Entering new edges

A batch of links enters its edges into the index before it changes a tour. It stops with a fault at the
first edge that is a loop, was there before or occurs in the batch already; otherwise the index holds the
larger rotation, and room for it there always is.
-/

namespace TourForest.Forest

variable {n : Nat} {rot : Nat → List Nat} {E : Finset (Sym2 Nat)}

/-- An edge that is there, from before or from earlier in the batch, does not fit. -/
theorem not_fits_of_mem {done rest : List ((Nat × Nat) × Nat)} {l : (Nat × Nat) × Nat}
    (hE : s(l.1.1, l.1.2) ∈ E ∪ edgeSet (done.map Prod.fst)) : ¬ Fits n E rot (done ++ l :: rest) := by
  intro hf
  rcases Finset.mem_union.mp hE with hE | hE
  · exact hf.new l (by simp) hE
  · obtain ⟨d, hd, heq⟩ := mem_edgeSet.mp hE
    obtain ⟨l', hm, rfl⟩ := List.mem_map.mp hd
    have hnodup := hf.edges_nodup
    rw [List.map_append, List.map_cons, List.nodup_append] at hnodup
    exact hnodup.2.2 _ (List.mem_map_of_mem hm) _ List.mem_cons_self heq

/-- A new edge fits behind those entered before it. -/
theorem fits_concat {done : List ((Nat × Nat) × Nat)} {l : (Nat × Nat) × Nat} (hs : Supplied n rot (done ++ [l]))
    (hf : Fits n E rot done) (hne : l.1.1 ≠ l.1.2) (hE : s(l.1.1, l.1.2) ∉ E ∪ edgeSet (done.map Prod.fst)) :
    Fits n E rot (done ++ [l]) := by
  rw [Finset.mem_union, not_or] at hE
  refine ⟨hs, ?_, ?_, ?_⟩
  · rw [List.forall_mem_append]
    exact ⟨hf.loopless, List.forall_mem_singleton.mpr hne⟩
  · rw [List.forall_mem_append]
    exact ⟨hf.new, List.forall_mem_singleton.mpr hE.1⟩
  · rw [List.map_append, List.map_singleton, ← List.concat_eq_append, List.nodup_concat]
    refine ⟨fun hm => hE.2 ?_, hf.edges_nodup⟩
    obtain ⟨l', hm, heq⟩ := List.mem_map.mp hm
    exact mem_edgeSet.mpr ⟨l'.1, List.mem_map_of_mem hm, heq⟩

/-- Entering goes on as long as the edges fit. -/
theorem enter_spec (h : Rotation n E rot) (hn : n < 2 ^ 32) :
    ∀ (rest done : List ((Nat × Nat) × Nat)) {e : EdgeIndex}, Supplied n rot (done ++ rest) → Fits n E rot done →
      e.Indexes n (Leads n (graft n done rot)) → e.size + rest.length ≤ n - 1 →
      (Fits n E rot (done ++ rest) ∧ ∃ e', enter n e rest = .ok (.ok (), e') ∧
        e'.Indexes n (Leads n (graft n (done ++ rest) rot))) ∨
      (¬ Fits n E rot (done ++ rest) ∧ ∃ fault, enter n e rest = .error fault) := by
  intro rest
  induction rest with
  | nil =>
    intro done e _ hf hi _
    rw [List.append_nil]
    exact .inl ⟨hf, e, rfl, hi⟩
  | cons l rest ih =>
    intro done e hs hf hi hroom
    obtain ⟨⟨u, v⟩, p⟩ := l
    rw [List.length_cons] at hroom
    have hl : ((u, v), p) ∈ done ++ ((u, v), p) :: rest := by simp
    have hp := hs.pairs_lt _ hl
    have hd := h.graft hf
    have hdir := hd.directed hn
    have hmax : n + 2 * p < maxWord := by
      unfold maxWord
      omega
    rw [enter]
    split
    · next huv => exact .inr ⟨fun hfit => hfit.loopless _ hl huv, _, rfl⟩
    · next huv =>
      by_cases hE : s(u, v) ∈ E ∪ edgeSet (done.map Prod.fst)
      · obtain ⟨x, hx⟩ := (hd.edge_iff u v).mp hE
        refine .inr ⟨not_fits_of_mem hE, .edgePresent u v, ?_⟩
        rw [elementsOfPair, hi.insert_present hdir hx (Nat.le_add_right _ _) hmax]
        rfl
      · have hnew : ∀ y, ¬ Leads n (graft n done rot) u v y := fun y hy => hE ((hd.edge_iff u v).mpr ⟨y, hy⟩)
        have hf' := fits_concat (l := ((u, v), p)) (hs.sublist (by simp)) hf huv hE
        obtain ⟨e', he', hi', -, hsize⟩ := hi.insert_new (x := n + 2 * p) hdir ((h.graft hf').directed hn)
          (fun a b y => by
            rw [h.leads_graft hf', h.leads_graft hf]
            simp only [List.mem_append, List.mem_singleton, or_and_right, exists_or, exists_eq_left, or_assoc])
          hnew (lt_of_le_of_lt (by omega) hi.room)
        rw [elementsOfPair, he']
        have := ih (done ++ [((u, v), p)]) (e := e') (by simpa using hs) hf' hi' (by omega)
        rw [List.append_assoc, List.singleton_append] at this
        exact this

end TourForest.Forest
