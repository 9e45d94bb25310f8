import TourForest.Proofs.SumList.Refresh

/-!
# What a pass recomputes

A pass starts from the tops that claims have answered with. It visits runs in order, or up to a cutoff only and above
it one visit apart from the other, as some schedule has it (`Pass`). A `Logged` list does what the list does and writes down each place that is
recomputed: an element with the level of its value.

* `Logged.run_state`: without its log, a logged pass is the pass.
-/

namespace TourForest.SumList

/-- The ways to go through the runs below the tops. -/
inductive Pass where
  | inOrder
  | apart (cutoff : Nat) (schedule : Schedule)

/-- What a pass does with an element on a level. -/
def Pass.visit : Pass → (k : Nat) → SumList → (u : Nat) → Except Fault SumList
  | inOrder => refreshInOrder
  | apart cutoff schedule => refresh cutoff schedule

/-- A pass from several tops, one after the other. -/
def Pass.run (p : Pass) (tops : List Nat) (a : SumList) : Except Fault SumList :=
  tops.foldlM (fun a top => p.visit (a.height top - 1) a top) a

/-- A list with the places that have been recomputed, the last one first. -/
structure Logged where
  state : SumList
  places : List (Nat × Nat)

namespace Logged

/-- As `SumList.recompute`, with an entry for it. -/
def recompute (c : Logged) (u k : Nat) (run : List Nat) : Except Fault Logged := do
  return ⟨← c.state.recompute u k run, (u, k + 1) :: c.places⟩

/-- As `SumList.refreshInOrder`. -/
def refreshInOrder : (k : Nat) → Logged → (u : Nat) → Except Fault Logged
  | 0, c, u => .ok { c with state := if c.state.height u = 1 then c.state.setMark u none else c.state }
  | k + 1, c, u => do
    let c ← if (c.state.markAt u).all (· < k + 1) then refreshInOrder k c u else pure c
    let run := c.state.run u k
    let c ← run.elements.foldlM
      (fun c v => if c.state.outdated v (k + 1) then refreshInOrder k c v else pure c) c
    c.recompute u k (← run.finished)

/-- As `SumList.refresh`. -/
def refresh (cutoff : Nat) (schedule : Schedule) : (k : Nat) → Logged → (u : Nat) → Except Fault Logged
  | 0, c, u => refreshInOrder 0 c u
  | k + 1, c, u =>
    if k + 1 ≤ cutoff then refreshInOrder (k + 1) c u
    else do
      let run ← (c.state.run u k).finished
      let pending := (u :: run).filter (c.state.outdated · (k + 1))
      let c ← (schedule.order pending).foldlM (refresh cutoff schedule k) c
      c.recompute u k run

/-- As `Pass.visit`. -/
def visit : Pass → (k : Nat) → Logged → (u : Nat) → Except Fault Logged
  | .inOrder => refreshInOrder
  | .apart cutoff schedule => refresh cutoff schedule

/-- As `Pass.run`. -/
def run (p : Pass) (tops : List Nat) (c : Logged) : Except Fault Logged :=
  tops.foldlM (fun c top => visit p (c.state.height top - 1) c top) c

/-! ## Without the log -/

theorem recompute_state (c : Logged) (u k : Nat) (run : List Nat) :
    (c.recompute u k run).map state = c.state.recompute u k run := by
  rw [recompute]
  cases c.state.recompute u k run <;> rfl

/-- What is done with an element of a run that is visited in order. -/
def refreshOutdated (k : Nat) (c : Logged) (v : Nat) : Except Fault Logged :=
  if c.state.outdated v (k + 1) then refreshInOrder k c v else pure c

theorem refreshInOrder_succ (k : Nat) (c : Logged) (u : Nat) :
    refreshInOrder (k + 1) c u =
      (if (c.state.markAt u).all (· < k + 1) then refreshInOrder k c u else pure c) >>= fun d =>
        (d.state.run u k).elements.foldlM (refreshOutdated k) d >>= fun e =>
        (d.state.run u k).finished >>= e.recompute u k := by
  rw [refreshInOrder]
  split <;> rfl

theorem refreshInOrder_state : ∀ (k : Nat) (c : Logged) (u : Nat),
    (refreshInOrder k c u).map state = SumList.refreshInOrder k c.state u := by
  intro k
  induction k with
  | zero => exact fun _ _ => rfl
  | succ k ih =>
    intro c u
    have hif {p : Prop} [Decidable p] (c : Logged) (v : Nat) :
        (if p then refreshInOrder k c v else pure c).map state =
          if p then SumList.refreshInOrder k c.state v else pure c.state := by
      split
      · exact ih c v
      · rfl
    rw [refreshInOrder_succ, SumList.refreshInOrder_succ, ← hif]
    refine map_bind fun d => ?_
    have hloop := map_foldlM (m := state) (f := refreshOutdated k)
      (g := fun b v => if b.outdated v (k + 1) then SumList.refreshInOrder k b v else pure b) (fun d v => hif d v)
    rw [← hloop]
    refine map_bind fun e => ?_
    cases (d.state.run u k).finished with
    | error => rfl
    | ok run => exact recompute_state e u k run

theorem refresh_state (cutoff : Nat) (schedule : Schedule) : ∀ (k : Nat) (c : Logged) (u : Nat),
    (refresh cutoff schedule k c u).map state = SumList.refresh cutoff schedule k c.state u := by
  intro k
  induction k with
  | zero => exact refreshInOrder_state 0
  | succ k ih =>
    intro c u
    rw [refresh, SumList.refresh]
    split
    · exact refreshInOrder_state (k + 1) c u
    · cases (c.state.run u k).finished with
      | error => rfl
      | ok run =>
        simp only [ok_bind, ← map_foldlM ih]
        exact map_bind fun d => recompute_state d u k run

theorem visit_state (p : Pass) (k : Nat) (c : Logged) (u : Nat) : (visit p k c u).map state = p.visit k c.state u := by
  cases p with
  | inOrder => exact refreshInOrder_state k c u
  | apart cutoff schedule => exact refresh_state cutoff schedule k c u

/-- The log changes nothing. -/
theorem run_state (p : Pass) (tops : List Nat) (c : Logged) : (run p tops c).map state = p.run tops c.state :=
  map_foldlM (fun c top => visit_state p (c.state.height top - 1) c top) tops c

end Logged

end TourForest.SumList
