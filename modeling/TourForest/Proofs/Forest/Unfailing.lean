import TourForest.Proofs.Forest.Run
import TourForest.Proofs.Raw.Forest

/-!
# Forests do not fail

A forest of less than `2 ^ 31` vertices can be built, and answers every request whose preconditions are met
(`Request.Meets`), at every point of every run of such requests: no array is refused, the table of edges is never full,
there is a pair for every new edge, every end of a group is found, no search leaves a tour or the arena, no index goes
below zero, and no sum leaves its range, as each of these would be a fault or a refusal. That holds for forests on raw
arrays and for those that cannot look beyond the levels of their elements (`Unfailing`).
-/

namespace TourForest.Forest

variable {n : Nat} {settings : Settings} {f : Forest} {rot : Nat → List Nat} {E : Finset (Sym2 Nat)}

/-! ## Preconditions -/

/-- A request to a forest of `n` vertices with edges `E` meets its preconditions: vertices are vertices, new edges leave
a forest, in whatever way a batch of them is sorted, edges that go are there and distinct, and the rounds of a batch of cuts end. -/
def Request.Meets (n : Nat) (settings : Settings) (random : Random) (E : Finset (Sym2 Nat)) : Request → Prop
  | .connected u v => u < n ∧ v < n
  | .connectedAll queries => ∀ q ∈ queries, q.1 < n ∧ q.2 < n
  | .treeSize v => v < n
  | .treeVertices v => v < n
  | .hasEdge u v => u < n ∧ v < n
  | .edgeCount => True
  | .edges => True
  | .link u v => u < n ∧ v < n ∧ ¬ (graph E).Reachable u v
  | .linkAll _ links => (∀ l ∈ links, l.1 < n ∧ l.2 < n) ∧ Grows E links
  | .cut u v => s(u, v) ∈ E
  | .cutAll cuts => Strikes E cuts ∧ RoundsEnd settings random cuts

/-- The edges after a request. -/
def Request.after (E : Finset (Sym2 Nat)) : Request → Finset (Sym2 Nat)
  | .link u v => insert s(u, v) E
  | .linkAll _ links => E ∪ edgeSet links
  | .cut u v => E.erase s(u, v)
  | .cutAll cuts => E \ edgeSet cuts
  | _ => E

/-- The forests that come about by requests that meet their preconditions, with the edges of their graphs. -/
inductive Served (build : Pools → Traced (Forest × Pools)) (serve : Forest → Request → Traced (Answer × Forest))
    (n : Nat) (settings : Settings) : Forest → Finset (Sym2 Nat) → Prop
  | built {pools pools' : Pools} {f : Forest} : pools.links.Stocked → pools.values.Stocked →
      (build pools).outcome = .ok (f, pools') → Served build serve n settings f ∅
  | served {f f' : Forest} {E : Finset (Sym2 Nat)} {r : Request} {answer : Answer} :
      Served build serve n settings f E → r.Meets n settings f.randomness E →
      (serve f r).outcome = .ok (answer, f') → Served build serve n settings f' (r.after E)

/-- A forest can be built from all pools, and answers all requests that meet their preconditions, and none of them by a
refusal. -/
structure Unfailing (build : Pools → Traced (Forest × Pools)) (serve : Forest → Request → Traced (Answer × Forest))
    (n : Nat) (settings : Settings) : Prop where
  builds : ∀ pools, pools.links.Stocked → pools.values.Stocked → ∃ f pools', (build pools).outcome = .ok (f, pools')
  serves : ∀ f E, Served build serve n settings f E → ∀ r : Request, r.Meets n settings f.randomness E →
    ∃ answer f', (serve f r).outcome = .ok (answer, f') ∧ ∀ refusal, answer ≠ .refused refusal

/-! ## One request -/

/-- An answer that is no refusal, and a forest for the graph with edges `E` after it. -/
structure Grants (f : Forest) (E : Finset (Sym2 Nat)) (answer : Answer) (f' : Forest) : Prop where
  answered : ∀ refusal, answer ≠ .refused refusal
  vertices : f'.vertices = f.vertices
  settings : f'.settings = f.settings
  refines : ∃ rot, f'.Refines rot E

/-- A request is granted. -/
def Granted (f : Forest) (E : Finset (Sym2 Nat)) (x : Traced (Answer × Forest)) : Prop :=
  ∃ answer f', x.outcome = .ok (answer, f') ∧ f.Grants E answer f'

/-- A question is granted, and leaves the forest as it is. -/
theorem granted_ask (h : f.Refines rot E) {α : Type} {x : Except Fault α} {a : α} (hx : x = .ok a) (g : α → Answer)
    (hg : ∀ refusal, g a ≠ .refused refusal) : f.Granted E (do return (g (← x), f)) := by
  subst hx
  exact ⟨g a, f, rfl, hg, rfl, rfl, rot, h⟩

section

variable {f' : Forest} (hvertices : f'.vertices = f.vertices) (hsettings : f'.settings = f.settings)
  (href : ∃ rot, f'.Refines rot E)
include hvertices hsettings href

/-- Adding edges is granted if it succeeds. -/
theorem granted_reply {x : Traced (Except Refusal Unit × Forest)} (hx : x.outcome = .ok (.ok (), f')) :
    f.Granted E (x >>= fun r => pure (.ofReply r.1, r.2)) := by
  refine ⟨.done, f', ?_, by simp, hvertices, hsettings, href⟩
  rw [Traced.outcome_bind, hx]
  rfl

/-- Removing edges is granted if it succeeds. -/
theorem granted_done {x : Traced Forest} (hx : x.outcome = .ok f') : f.Granted E (do return (.done, ← x)) := by
  refine ⟨.done, f', ?_, by simp, hvertices, hsettings, href⟩
  rw [Traced.outcome_bind, hx]
  rfl

end

/-- A request that meets its preconditions is granted. -/
theorem Refines.serve (h : f.Refines rot E) {r : Request} (hr : r.Meets f.vertices f.settings f.randomness E) :
    f.Granted (r.after E) (f.serve r) := by
  cases r with
  | connected u v => exact granted_ask h (h.answers.connected u hr.1 v hr.2) Answer.truth (by simp)
  | connectedAll queries => exact granted_ask h (h.answers.connectedAll queries hr) Answer.truths (by simp)
  | treeSize v => exact granted_ask h (h.answers.treeSize v hr) Answer.number (by simp)
  | treeVertices v =>
    obtain ⟨vs, hok, -⟩ := h.answers.treeVertices v hr
    exact granted_ask h hok Answer.members (by simp)
  | hasEdge u v => exact granted_ask h (h.answers.hasEdge u hr.1 v hr.2) Answer.truth (by simp)
  | edgeCount => exact ⟨_, f, rfl, by simp, rfl, rfl, rot, h⟩
  | edges => exact ⟨_, f, rfl, by simp, rfl, rfl, rot, h⟩
  | link u v =>
    obtain ⟨hu, hv, hsep⟩ := hr
    rcases h.outcome_link hu hv with ⟨hnil, -⟩ | ⟨-, hr, -⟩ | ⟨p, rest, f', -, -, hok, href, -, hsame⟩
    · exact absurd hnil (h.exists_free hu hv hsep)
    · exact absurd hr hsep
    · exact granted_reply hsame.vertices hsame.settings ⟨_, href⟩ hok
  | linkAll σ links =>
    obtain ⟨hlt, hg⟩ := hr
    rcases h.outcome_linkAll σ hlt (h.length_le_of_grows hlt hg) with ⟨hng, -⟩ | ⟨f', hok, -, hsame, href⟩
    · exact absurd hg hng
    · exact granted_reply hsame.vertices hsame.settings (href hg.acyclic).2 hok
  | cut u v =>
    obtain ⟨f', hok, hw, hs⟩ := h.outcome_cut hr
    have href := hw.refines h hs
    rw [edgeSet_cons, edgeSet_nil, insert_empty_eq, Finset.sdiff_singleton_eq_erase] at href
    exact granted_done hw.setup.vertices hw.setup.settings ⟨_, href⟩ hok
  | cutAll cuts =>
    obtain ⟨hc, hend⟩ := hr
    rcases h.outcome_cutAll hc with ⟨-, hnever⟩ | ⟨f', hok, hw, hs, -⟩
    · exact absurd hend hnever
    · exact granted_done hw.setup.vertices hw.setup.settings ⟨_, hw.refines h hs⟩ hok

/-! ## Runs of requests -/

/-- A forest stands for one that refines the graph with edges `E`. -/
def Stands (C : Forest → Forest → Prop) (n : Nat) (settings : Settings) (f : Forest) (E : Finset (Sym2 Nat)) : Prop :=
  ∃ c rot, C f c ∧ c.Refines rot E ∧ c.vertices = n ∧ c.settings = settings

section

variable {C : Forest → Forest → Prop} {start : Pools → Traced (Forest × Pools)}
  {answers : Forest → Request → Traced (Answer × Forest)}

theorem stands_of_build (hn : n < 2 ^ 31) {pools : Pools}
    (hbuild : EndAlike (fun x y => C x.1 y.1) (start pools).outcome (build pools n settings).outcome) :
    ∃ f pools', (start pools).outcome = .ok (f, pools') ∧ Stands C n settings f ∅ := by
  obtain ⟨c, pools', hok, href, hv, hs⟩ := outcome_build pools hn settings
  obtain ⟨⟨f, pools''⟩, hx, hC⟩ := (hok ▸ hbuild).exists_ok
  exact ⟨f, pools'', hx, c, bare, hC, href, hv, hs⟩

variable (hrandom : ∀ f c, C f c → f.randomness = c.randomness)
  (hserve : ∀ f c r, C f c → EndAlike (Answering C) (answers f r).outcome (c.serve r).outcome)
include hrandom hserve

/-- One request is answered, and what it leaves stands for a graph again. -/
theorem Stands.serve (h : Stands C n settings f E) {r : Request} (hr : r.Meets n settings f.randomness E) :
    ∃ answer f', (answers f r).outcome = .ok (answer, f') ∧ (∀ refusal, answer ≠ .refused refusal) ∧
      Stands C n settings f' (r.after E) := by
  obtain ⟨c, rot, hC, href, rfl, rfl⟩ := h
  rw [hrandom f c hC] at hr
  obtain ⟨answer, c', hok, hl⟩ := href.serve hr
  obtain ⟨⟨_, f'⟩, hx, rfl, hC'⟩ := (hok ▸ hserve f c r hC).exists_ok
  obtain ⟨rot', href'⟩ := hl.refines
  exact ⟨_, f', hx, hl.answered, c', rot', hC', href', hl.vertices, hl.settings⟩

variable (hbuild : ∀ pools, pools.links.Stocked → pools.values.Stocked →
  EndAlike (fun x y => C x.1 y.1) (start pools).outcome (build pools n settings).outcome)
include hbuild

/-- All forests of a run stand for graphs. -/
theorem Served.stands (hn : n < 2 ^ 31) (h : Served start answers n settings f E) : Stands C n settings f E := by
  induction h with
  | built hl hv hok =>
    obtain ⟨f, pools', hok', h⟩ := stands_of_build hn (hbuild _ hl hv)
    cases hok.symm.trans hok'
    exact h
  | served _ hr hok ih =>
    obtain ⟨answer, f', hok', -, h⟩ := ih.serve hrandom hserve hr
    cases hok.symm.trans hok'
    exact h

theorem Unfailing.of_covers (hn : n < 2 ^ 31) : Unfailing start answers n settings where
  builds pools hl hv := by
    obtain ⟨f, pools', hok, -⟩ := stands_of_build hn (hbuild pools hl hv)
    exact ⟨f, pools', hok⟩
  serves f E h r hr := by
    obtain ⟨answer, f', hok, ha, -⟩ := (h.stands hrandom hserve hbuild hn).serve hrandom hserve hr
    exact ⟨answer, f', hok, ha⟩

end

/-- Neither on raw arrays nor otherwise does a forest of less than `2 ^ 31` vertices fail, whatever its settings. -/
theorem unfailing_of_lt (hn : n < 2 ^ 31) (settings : Settings) :
    Unfailing (Raw.build · n settings) Raw.serve n settings ∧ Unfailing (build · n settings) serve n settings := by
  constructor
  · refine .of_covers (C := Covers) (fun f c h => ?_) (fun f c r h => (h.serve r).outcome) (fun pools hl hv => ?_) hn
    · obtain ⟨a, -, rfl⟩ := h.exists_tours
      rfl
    · exact (build_covers hl hv pools n settings).outcome
  · exact .of_covers (C := Eq) (fun f c h => congrArg _ h) (fun f c r h => h ▸ .refl fun _ _ => ⟨rfl, rfl⟩)
      (fun pools _ _ => .refl fun _ _ => rfl) hn

/-- An edge between two vertices comes in a batch, and goes in a batch of one round. -/
theorem unfailing_on_one_edge : ∃ f₀ f₁ f₂ : Forest, ∃ pools a₁ a₂,
    (Raw.build .empty 2 ⟨7, 0, 1⟩).outcome = .ok (f₀, pools) ∧
      (Raw.serve f₀ (.linkAll .stable [(0, 1)])).outcome = .ok (a₁, f₁) ∧ (∀ refusal, a₁ ≠ .refused refusal) ∧
      (Raw.serve f₁ (.cutAll [(1, 0)])).outcome = .ok (a₂, f₂) ∧ ∀ refusal, a₂ ≠ .refused refusal := by
  obtain ⟨⟨hbuild, hserve⟩, -⟩ := unfailing_of_lt (n := 2) (by decide) ⟨7, 0, 1⟩
  obtain ⟨f₀, pools, hok₀⟩ := hbuild .empty Pool.stocked_empty Pool.stocked_empty
  have h₀ : Served (Raw.build · 2 ⟨7, 0, 1⟩) Raw.serve 2 ⟨7, 0, 1⟩ f₀ ∅ :=
    .built (show Pools.empty.links.Stocked from Pool.stocked_empty) Pool.stocked_empty hok₀
  have hlink : Request.Meets 2 ⟨7, 0, 1⟩ f₀.randomness ∅ (.linkAll .stable [(0, 1)]) :=
    ⟨by simp, grows_singleton isAcyclic_empty (not_reachable_empty (by decide))⟩
  obtain ⟨a₁, f₁, hok₁, ha₁⟩ := hserve f₀ ∅ h₀ _ hlink
  have hcut : Request.Meets 2 ⟨7, 0, 1⟩ f₁.randomness (∅ ∪ edgeSet [(0, 1)]) (.cutAll [(1, 0)]) := by
    refine ⟨⟨by decide, by decide⟩, 1, ?_⟩
    simp [onward, postpone]
  obtain ⟨a₂, f₂, hok₂, ha₂⟩ := hserve f₁ _ (h₀.served hlink hok₁) _ hcut
  exact ⟨f₀, f₁, f₂, pools, a₁, a₂, hok₀, hok₁, ha₁, hok₂, ha₂⟩

end TourForest.Forest
