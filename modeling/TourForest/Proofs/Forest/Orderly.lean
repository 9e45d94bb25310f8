import TourForest.Proofs.Forest.Run

/-!
# Orderly runs

An `OrderlyRun` meets the preconditions of its steps, where a `Run` only has to go on. Along it, forests are toured and
their books are in order (`OrderlyRun.toured`), whatever the number of vertices. Steps that answer do so because their
preconditions are met, so that each run is orderly (`Run.orderly`).
-/

namespace TourForest.Forest

variable {n : Nat} {settings : Settings} {f : Forest} {E : Finset (Sym2 Nat)}

/-- Runs that meet the preconditions of their steps: links lead to forests, and the edges of a batch of cuts are
there, each once. All steps answer. Refusals are for batches that need more pairs than there are. -/
inductive OrderlyRun (n : Nat) (settings : Settings) : Forest → Finset (Sym2 Nat) → Prop
  | built {pools pools' : Pools} {f : Forest} : (build pools n settings).outcome = .ok (f, pools') →
      OrderlyRun n settings f ∅
  | linked {f f' : Forest} {E : Finset (Sym2 Nat)} {u v : Nat} : OrderlyRun n settings f E → u < n → v < n →
      ¬ (graph E).Reachable u v → (f.link u v).outcome = .ok (.ok (), f') →
      OrderlyRun n settings f' (insert s(u, v) E)
  | linkRefused {f f' : Forest} {E : Finset (Sym2 Nat)} {u v : Nat} {r : Refusal} : OrderlyRun n settings f E →
      f.freePairs = [] → (f.link u v).outcome = .ok (.error r, f') → OrderlyRun n settings f' E
  | linkedAll {f f' : Forest} {E : Finset (Sym2 Nat)} {links : List (Nat × Nat)} {σ : Sorting} :
      OrderlyRun n settings f E → (∀ l ∈ links, l.1 < n ∧ l.2 < n) → Grows E links →
      (f.linkAll σ links).outcome = .ok (.ok (), f') → OrderlyRun n settings f' (E ∪ edgeSet links)
  | linkAllRefused {f f' : Forest} {E : Finset (Sym2 Nat)} {links : List (Nat × Nat)} {σ : Sorting}
      {r : Refusal} : OrderlyRun n settings f E → f.freePairs.length < links.length →
      (f.linkAll σ links).outcome = .ok (.error r, f') → OrderlyRun n settings f' E
  | cut {f f' : Forest} {E : Finset (Sym2 Nat)} {u v : Nat} : OrderlyRun n settings f E → s(u, v) ∈ E →
      (f.cut u v).outcome = .ok f' → OrderlyRun n settings f' (E.erase s(u, v))
  | cutAll {f f' : Forest} {E : Finset (Sym2 Nat)} {cuts : List (Nat × Nat)} : OrderlyRun n settings f E →
      Strikes E cuts → (f.cutAll cuts).outcome = .ok f' → OrderlyRun n settings f' (E \ edgeSet cuts)

/-- Steps that answer do so because their preconditions are met. -/
theorem Run.orderly (h : Run n settings f E) : OrderlyRun n settings f E := by
  induction h with
  | built hok => exact .built hok
  | linked hrun hu hv hok ih =>
    obtain ⟨rfl, -, rot, ht⟩ := hrun.toured
    rcases ht.link hu hv hok with ⟨-, hr, -⟩ | ⟨p, rest, -, hsep, -⟩
    · cases hr
    · exact .linked ih hu hv hsep hok
  | linkRefused hrun hu hv hok ih =>
    obtain ⟨rfl, -, rot, ht⟩ := hrun.toured
    rcases ht.link hu hv hok with ⟨hfree, -⟩ | ⟨p, rest, -, -, hr, -⟩
    · exact .linkRefused ih hfree hok
    · cases hr
  | @linkedAll f f' E links σ hrun hlt hok hac ih =>
    obtain ⟨rfl, -, rot, ht⟩ := hrun.toured
    rcases Nat.lt_or_ge f.freePairs.length links.length with hk | hk
    · cases hok.symm.trans (outcome_linkAll_of_lt hk)
    · obtain ⟨-, -, -, hgrown⟩ := ht.linkAll hlt hk hok
      exact .linkedAll ih hlt (hgrown hac).1 hok
  | @linkAllRefused f f' E links σ r hrun hlt hok ih =>
    obtain ⟨rfl, -, rot, ht⟩ := hrun.toured
    rcases Nat.lt_or_ge f.freePairs.length links.length with hk | hk
    · exact .linkAllRefused ih hk hok
    · cases (ht.linkAll hlt hk hok).1
  | cut hrun hu hv hok ih =>
    obtain ⟨rfl, -, rot, ht⟩ := hrun.toured
    exact .cut ih (ht.cut hu hv hok).1 hok
  | cutAll _ hc hok ih => exact .cutAll ih hc hok

/-- Forests are toured along all orderly runs. -/
theorem OrderlyRun.toured (h : OrderlyRun n settings f E) : f.vertices = n ∧ ∃ rot, f.Toured rot E := by
  induction h with
  | built hok =>
    obtain ⟨hv, -, ht⟩ := toured_of_build hok
    exact ⟨hv, _, ht⟩
  | linked _ hu hv _ hok ih =>
    obtain ⟨rfl, rot, ht⟩ := ih
    rcases ht.link hu hv hok with ⟨-, hr, -⟩ | ⟨p, rest, -, -, -, ht', -, hsame⟩
    · cases hr
    · exact ⟨hsame.vertices, _, ht'⟩
  | linkRefused _ hfree hok ih =>
    cases hok.symm.trans (outcome_link_of_nil hfree)
    exact ih
  | @linkedAll f f' E links σ _ hlt hg hok ih =>
    obtain ⟨rfl, rot, ht⟩ := ih
    obtain ⟨-, -, hsame, hgrown⟩ := ht.linkAll hlt (ht.length_le_of_grows hlt hg) hok
    exact ⟨hsame.vertices, (hgrown hg.acyclic).2⟩
  | linkAllRefused _ hk hok ih =>
    cases hok.symm.trans (outcome_linkAll_of_lt hk)
    exact ih
  | cut _ hE hok ih =>
    obtain ⟨rfl, rot, ht⟩ := ih
    obtain ⟨hu, hv, -⟩ := ht.lt_of_mem hE
    obtain ⟨-, hw⟩ := ht.cut hu hv hok
    have ht' := hw.toured
    rw [edgeSet_cons, edgeSet_nil, insert_empty_eq, Finset.sdiff_singleton_eq_erase] at ht'
    exact ⟨hw.setup.vertices, _, ht'⟩
  | cutAll _ hc hok ih =>
    obtain ⟨rfl, rot, ht⟩ := ih
    have hw := ht.cutAll hc hok
    exact ⟨hw.setup.vertices, _, hw.toured⟩

end TourForest.Forest
