import TourForest.Forest.Cut
import TourForest.Forest.Link
import TourForest.Proofs.SumList.Layout

/-!
# The layout of a forest

Adding and removing edges leaves the layout of the tours as it is, whether or not the preconditions are met: where an
operation answers, its tours live in the arrays they were built with. No new array is made for an operation
(`Traced.Frugal`).
-/

namespace TourForest

/-! ## Reports -/

namespace Traced

variable {α β : Type}

/-- No array is made on the way. -/
def Frugal (x : Traced α) : Prop := ∀ c, .freshArray c ∉ x.events

theorem frugal_pure (a : α) : (pure a : Traced α).Frugal := fun _ => List.not_mem_nil

theorem frugal_lift (x : Except Fault α) : (liftM x : Traced α).Frugal := fun _ => List.not_mem_nil

theorem frugal_fault (e : Fault) : (fault e : Traced α).Frugal := fun _ => List.not_mem_nil

theorem frugal_report {e : Event} (h : ∀ c, .freshArray c ≠ e) : (report e).Frugal :=
  fun c hc => h c (List.mem_singleton.mp hc)

theorem Frugal.bind {x : Traced α} {f : α → Traced β} (hx : x.Frugal) (hf : ∀ a, (f a).Frugal) :
    (x >>= f).Frugal := by
  intro c hc
  rcases mem_events_bind hc with hc | ⟨a, hc⟩
  · exact hx c hc
  · exact hf a c hc

theorem Frugal.count_eq {x : Traced α} (h : x.Frugal) (c : Nat) : x.events.count (.freshArray c) = 0 :=
  List.count_eq_zero_of_not_mem (h c)

end Traced

namespace Forest

open Traced

variable {f f' : Forest} {u v p : Nat} {σ : Sorting} {links cuts : List (Nat × Nat)}
  {r : Except Refusal Unit}

/-! ## Adding edges -/

theorem layout_attach (hok : f.attach u v p = .ok (r, f')) : f'.tours.layout = f.tours.layout := by
  rw [attach] at hok
  obtain ⟨⟨reply, edges⟩, -, hok⟩ := bind_eq_ok.mp hok
  rcases reply with refusal | new
  · cases hok
    rfl
  · obtain ⟨⟨after, tours₁⟩, hsplit, hok⟩ := bind_eq_ok.mp hok
    obtain ⟨tours, hjoin, hok⟩ := bind_eq_ok.mp hok
    cases hok
    exact (SumList.layout_joinAll hjoin).trans (SumList.layout_splitAll hsplit)

theorem layout_link (hok : (f.link u v).outcome = .ok (r, f')) : f'.tours.layout = f.tours.layout := by
  rw [link] at hok
  split at hok
  · cases hok
    rfl
  · simp only [outcome_bind, outcome_liftM] at hok
    obtain ⟨c, -, hok⟩ := bind_eq_ok.mp hok
    cases c
    · simp only [Bool.false_eq_true, if_false, outcome_bind, outcome_report, ok_bind, outcome_liftM] at hok
      exact (layout_attach hok :)
    · cases hok

theorem layout_linkEach (hok : (f.linkEach links).outcome = .ok (r, f')) : f'.tours.layout = f.tours.layout := by
  induction links generalizing f with
  | nil =>
    cases hok
    rfl
  | cons l links ih =>
    obtain ⟨u, v⟩ := l
    rw [linkEach, outcome_bind] at hok
    obtain ⟨⟨r₁, f₁⟩, hlink, hok⟩ := bind_eq_ok.mp hok
    rcases r₁ with refusal | ⟨⟩
    · cases hok
      exact layout_link hlink
    · exact (ih hok).trans (layout_link hlink)

theorem layout_linkTogether (hok : f.linkTogether σ links = .ok (r, f')) : f'.tours.layout = f.tours.layout := by
  rw [linkTogether] at hok
  obtain ⟨⟨reply, edges⟩, -, hok⟩ := bind_eq_ok.mp hok
  rcases reply with refusal | ⟨⟩
  · cases hok
    rfl
  · obtain ⟨⟨after, tours₁⟩, hsplit, hok⟩ := bind_eq_ok.mp hok
    obtain ⟨seams, -, hok⟩ := bind_eq_ok.mp hok
    obtain ⟨tours, hjoin, hok⟩ := bind_eq_ok.mp hok
    cases hok
    exact (SumList.layout_joinAll hjoin).trans (SumList.layout_splitAll hsplit)

theorem layout_linkAll (hok : (f.linkAll σ links).outcome = .ok (r, f')) : f'.tours.layout = f.tours.layout := by
  simp only [linkAll] at hok
  split at hok
  · cases hok
    rfl
  · split at hok
    · exact layout_linkEach (by simpa using hok)
    · exact layout_linkTogether (by simpa using hok)

/-! ## Removing edges -/

theorem layout_unlink (hok : f.unlink u v = .ok f') : f'.tours.layout = f.tours.layout := by
  rw [unlink] at hok
  obtain ⟨⟨uv, vu⟩, -, hok⟩ := bind_eq_ok.mp hok
  obtain ⟨⟨b, edges⟩, -, hok⟩ := bind_eq_ok.mp hok
  obtain ⟨uPrev, -, hok⟩ := bind_eq_ok.mp hok
  obtain ⟨vPrev, -, hok⟩ := bind_eq_ok.mp hok
  obtain ⟨vNext, -, hok⟩ := bind_eq_ok.mp hok
  obtain ⟨uNext, -, hok⟩ := bind_eq_ok.mp hok
  obtain ⟨⟨after, tours₁⟩, hsplit, hok⟩ := bind_eq_ok.mp hok
  obtain ⟨tours, hjoin, hok⟩ := bind_eq_ok.mp hok
  obtain ⟨pair, -, hok⟩ := bind_eq_ok.mp hok
  cases hok
  exact SumList.layout_resew [uv, vu] hsplit hjoin

theorem layout_cut (hok : (f.cut u v).outcome = .ok f') : f'.tours.layout = f.tours.layout := by
  rw [cut, outcome_bind, outcome_liftM] at hok
  obtain ⟨present, -, hok⟩ := bind_eq_ok.mp hok
  cases present
  · cases hok
  · exact layout_unlink (by simpa using hok)

theorem layout_cutEach (hok : (f.cutEach cuts).outcome = .ok f') : f'.tours.layout = f.tours.layout := by
  induction cuts generalizing f with
  | nil =>
    cases hok
    rfl
  | cons c cuts ih =>
    obtain ⟨u, v⟩ := c
    rw [cutEach, outcome_bind] at hok
    obtain ⟨f₁, hcut, hok⟩ := bind_eq_ok.mp hok
    exact (ih hok).trans (layout_cut hcut)

theorem tours_foldl_setDoomed (xs : List Nat) (doomed : Bool) (f : Forest) :
    (xs.foldl (fun f x => f.setDoomed x doomed) f).tours = f.tours := by
  induction xs generalizing f with
  | nil => rfl
  | cons x xs ih => exact ih _

theorem layout_cutTogether (hok : f.cutTogether cuts = .ok f') : f'.tours.layout = f.tours.layout := by
  rw [cutTogether] at hok
  obtain ⟨elements, -, hok⟩ := bind_eq_ok.mp hok
  obtain ⟨seams, -, hok⟩ := bind_eq_ok.mp hok
  obtain ⟨⟨after, tours₁⟩, hsplit, hok⟩ := bind_eq_ok.mp hok
  obtain ⟨tours, hjoin, hok⟩ := bind_eq_ok.mp hok
  obtain ⟨edges, -, hok⟩ := bind_eq_ok.mp hok
  obtain ⟨freed, -, hok⟩ := bind_eq_ok.mp hok
  cases hok
  rw [tours_foldl_setDoomed] at hsplit
  exact SumList.layout_resew _ hsplit hjoin

theorem layout_cutRounds : ∀ {rounds : Nat} {f : Forest} {cuts : List (Nat × Nat)},
    (cutRounds rounds f cuts).outcome = .ok f' → f'.tours.layout = f.tours.layout := by
  intro rounds
  induction rounds with
  | zero => exact fun hok => by cases hok
  | succ rounds ih =>
    intro f cuts hok
    rw [cutRounds] at hok
    split at hok
    · exact layout_cutEach (by simpa using hok)
    · simp only [outcome_bind, outcome_report, outcome_liftM, ok_bind] at hok
      obtain ⟨f₁, hok₁, hok⟩ := bind_eq_ok.mp hok
      exact (ih hok).trans (layout_cutTogether hok₁ :)

/-! ## No new arrays -/

theorem frugal_link (f : Forest) (u v : Nat) : (f.link u v).Frugal := by
  rw [link]
  split
  · exact frugal_pure _
  · refine (frugal_lift _).bind fun c => ?_
    split
    · exact frugal_fault _
    · exact (frugal_report (by simp)).bind fun _ => frugal_lift _

theorem frugal_linkEach (f : Forest) (links : List (Nat × Nat)) : (f.linkEach links).Frugal := by
  induction links generalizing f with
  | nil => exact frugal_pure _
  | cons l links ih =>
    obtain ⟨u, v⟩ := l
    rw [linkEach]
    refine (frugal_link f u v).bind fun x => ?_
    obtain ⟨refusal | ⟨⟩, f₁⟩ := x
    · exact frugal_pure _
    · exact ih f₁

theorem frugal_linkAll (f : Forest) (σ : Sorting) (links : List (Nat × Nat)) : (f.linkAll σ links).Frugal := by
  simp only [linkAll]
  split
  · exact frugal_pure _
  · split
    · exact (frugal_report (by simp)).bind fun _ => frugal_linkEach f links
    · exact (frugal_report (by simp)).bind fun _ => frugal_lift _

theorem frugal_cut (f : Forest) (u v : Nat) : (f.cut u v).Frugal := by
  rw [cut]
  refine (frugal_lift _).bind fun present => ?_
  split
  · exact frugal_fault _
  · exact (frugal_report (by simp)).bind fun _ => frugal_lift _

theorem frugal_cutEach (f : Forest) (cuts : List (Nat × Nat)) : (f.cutEach cuts).Frugal := by
  induction cuts generalizing f with
  | nil => exact frugal_pure _
  | cons c cuts ih =>
    obtain ⟨u, v⟩ := c
    exact (frugal_cut f u v).bind fun f₁ => ih f₁

theorem frugal_cutRounds (rounds : Nat) (f : Forest) (cuts : List (Nat × Nat)) : (cutRounds rounds f cuts).Frugal := by
  induction rounds generalizing f cuts with
  | zero => exact frugal_fault _
  | succ rounds ih =>
    rw [cutRounds]
    split
    · exact (frugal_report (by simp)).bind fun _ => frugal_cutEach f cuts
    · refine (frugal_report (by simp)).bind fun _ => ?_
      exact (frugal_report (by simp)).bind fun _ => (frugal_lift _).bind fun f₁ => ih f₁ _

end Forest

end TourForest
