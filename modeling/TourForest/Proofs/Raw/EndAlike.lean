import TourForest.Proofs.Outcome
import TourForest.Proofs.Requests

/-!
# Computations that end alike

Two computations end alike if both stop with the same fault, or both answer and their answers are related. Steps that
end alike, from related answers on, make computations that end alike (`EndAlike.bind`), and so do the steps of a loop
(`EndAlike.foldlM`). Where events are reported, they have to be the same as well (`Traced.EndAlike`).
-/

namespace TourForest

variable {α β γ δ ι : Type} {R : α → β → Prop} {S : γ → δ → Prop}

/-- The same fault, or related answers. -/
def EndAlike (R : α → β → Prop) (x : Except Fault α) (y : Except Fault β) : Prop :=
  match x, y with
  | .ok a, .ok b => R a b
  | .error e, .error e' => e = e'
  | _, _ => False

/-- Equal answers, beside related states. -/
def Answering {σ τ : Type} (R : σ → τ → Prop) (x : α × σ) (y : α × τ) : Prop := x.1 = y.1 ∧ R x.2 y.2

namespace EndAlike

variable {x : Except Fault α} {y : Except Fault β}

theorem ok {a : α} {b : β} (h : R a b) : EndAlike R (.ok a) (.ok b) := h

theorem error (R : α → β → Prop) (e : Fault) : EndAlike R (.error e) (.error e) := rfl

theorem bind {f : α → Except Fault γ} {g : β → Except Fault δ} (h : EndAlike R x y)
    (hfg : ∀ a b, R a b → EndAlike S (f a) (g b)) : EndAlike S (x >>= f) (y >>= g) := by
  rcases x with e | a <;> rcases y with e' | b
  · exact h
  · cases h
  · cases h
  · exact hfg a b h

/-- After one and the same step. -/
theorem after {f : α → Except Fault γ} {g : α → Except Fault δ} (h : ∀ a, x = .ok a → EndAlike S (f a) (g a)) :
    EndAlike S (x >>= f) (x >>= g) := by
  rcases x with e | a
  · exact .error S e
  · exact h a rfl

theorem mono {R' : α → β → Prop} (h : EndAlike R x y) (hR : ∀ a b, R a b → R' a b) : EndAlike R' x y := by
  rcases x with e | a <;> rcases y with e' | b
  · exact h
  · cases h
  · cases h
  · exact hR a b h

/-- What holds of the answer on one side holds of both ends. -/
theorem and {Q : β → Prop} (h : EndAlike R x y) (hQ : ∀ b, y = .ok b → Q b) :
    EndAlike (fun a b => R a b ∧ Q b) x y := by
  rcases x with e | a <;> rcases y with e' | b
  · exact h
  · cases h
  · cases h
  · exact ⟨h, hQ b rfl⟩

/-- Where the other one answers, this one does. -/
theorem exists_ok {b : β} (h : EndAlike R x (.ok b)) : ∃ a, x = .ok a ∧ R a b := by
  rcases x with e | a
  · cases h
  · exact ⟨a, rfl, h⟩

/-- Where the other one faults, this one does. -/
theorem eq_error {e : Fault} (h : EndAlike R x (.error e)) : x = .error e := by
  rcases x with e' | a
  · exact congrArg _ h
  · cases h

/-- A computation ends like itself. -/
theorem refl {R : α → α → Prop} {x : Except Fault α} (h : ∀ a, x = .ok a → R a a) : EndAlike R x x := by
  rcases x with e | a
  · exact .error R e
  · exact h a rfl

/-- Equal answers, or the same fault. -/
theorem eq {x y : Except Fault α} (h : EndAlike Eq x y) : x = y := by
  rcases x with e | a <;> rcases y with e' | b
  · exact congrArg _ h
  · cases h
  · cases h
  · exact congrArg _ h

theorem ite {p : Prop} [Decidable p] {x' : Except Fault α} {y' : Except Fault β} (h : p → EndAlike R x y)
    (h' : ¬ p → EndAlike R x' y') : EndAlike R (if p then x else x') (if p then y else y') := by
  split
  · next hp => exact h hp
  · next hp => exact h' hp

/-- Two that end like a third one end alike. -/
theorem common {x' : Except Fault γ} {R' : γ → β → Prop} (h : EndAlike R x y) (h' : EndAlike R' x' y) :
    EndAlike (fun a c => ∃ b, R a b ∧ R' c b) x x' := by
  rcases y with e | b
  · rw [h.eq_error, h'.eq_error]
    exact .error _ e
  · obtain ⟨a, rfl, ha⟩ := h.exists_ok
    obtain ⟨c, rfl, hc⟩ := h'.exists_ok
    exact ⟨b, ha, hc⟩

theorem foldlM {f : α → ι → Except Fault α} {g : β → ι → Except Fault β} {is : List ι}
    (hfg : ∀ i ∈ is, ∀ a b, R a b → EndAlike R (f a i) (g b i)) {a : α} {b : β} (h : R a b) :
    EndAlike R (is.foldlM f a) (is.foldlM g b) := by
  induction is generalizing a b with
  | nil => exact h
  | cons i is ih =>
    obtain ⟨hi, his⟩ := List.forall_mem_cons.mp hfg
    rw [List.foldlM_cons, List.foldlM_cons]
    exact (hi a b h).bind fun a b hab => ih his hab

/-- A loop whose steps follow those of a loop without faults. -/
theorem exists_foldlM {f : α → ι → Except Fault α} {g : β → ι → β} {is : List ι}
    (hfg : ∀ i ∈ is, ∀ a b, R a b → ∃ a', f a i = .ok a' ∧ R a' (g b i)) {a : α} {b : β} (h : R a b) :
    ∃ a', is.foldlM f a = .ok a' ∧ R a' (is.foldl g b) := by
  induction is generalizing a b with
  | nil => exact ⟨a, rfl, h⟩
  | cons i is ih =>
    obtain ⟨hi, his⟩ := List.forall_mem_cons.mp hfg
    obtain ⟨a', hok, h'⟩ := hi a b h
    rw [List.foldlM_cons, hok]
    exact ih his h'

end EndAlike

/-! ## Reports -/

/-- Steps that are the same after what comes before them. -/
theorem Traced.bind_congr_of_ok {x : Traced α} {f g : α → Traced β} (h : ∀ a, x.outcome = .ok a → f a = g a) :
    x >>= f = x >>= g := by
  rcases hx : x.outcome with e | a
  · rw [bind_of_error hx, bind_of_error hx]
  · rw [bind_of_ok hx, bind_of_ok hx, h a hx]

/-- Computations that end alike and report the same. -/
structure Traced.EndAlike (R : α → β → Prop) (x : Traced α) (y : Traced β) : Prop where
  outcome : TourForest.EndAlike R x.outcome y.outcome
  events : x.events = y.events

namespace Traced.EndAlike

theorem pure {a : α} {b : β} (h : R a b) : Traced.EndAlike R (pure a) (pure b) := ⟨h, rfl⟩

theorem lift {x : Except Fault α} {y : Except Fault β} (h : TourForest.EndAlike R x y) :
    Traced.EndAlike R (liftM x : Traced α) (liftM y) := ⟨h, rfl⟩

theorem report (e : Event) : Traced.EndAlike Eq (report e) (report e) := ⟨rfl, rfl⟩

theorem fault (R : α → β → Prop) (e : Fault) : Traced.EndAlike R (fault e) (fault e) := ⟨rfl, rfl⟩

theorem bind {x : Traced α} {y : Traced β} {f : α → Traced γ} {g : β → Traced δ} (h : Traced.EndAlike R x y)
    (hfg : ∀ a b, R a b → Traced.EndAlike S (f a) (g b)) : Traced.EndAlike S (x >>= f) (y >>= g) := by
  obtain ⟨ho, he⟩ := h
  rcases hy : y.outcome with e | b
  · rw [hy] at ho
    rw [bind_of_error hy, bind_of_error ho.eq_error, he]
    exact ⟨rfl, rfl⟩
  · rw [hy] at ho
    obtain ⟨a, hx, hab⟩ := ho.exists_ok
    rw [bind_of_ok hy, bind_of_ok hx, he]
    exact ⟨(hfg a b hab).outcome, congrArg _ (hfg a b hab).events⟩

theorem mono {R' : α → β → Prop} {x : Traced α} {y : Traced β} (h : Traced.EndAlike R x y)
    (hR : ∀ a b, R a b → R' a b) : Traced.EndAlike R' x y := ⟨h.outcome.mono hR, h.events⟩

/-- Equal answers to a question, which leaves the structures as they are. -/
theorem ask {σ τ : Type} {R : σ → τ → Prop} {s : σ} {t : τ} (h : R s t) {x y : Except Fault α} (hxy : x = y)
    (answer : α → β) : Traced.EndAlike (Answering R) (do return (answer (← x), s)) (do return (answer (← y), t)) := by
  subst hxy
  refine .bind (.lift (.refl fun _ _ => rfl)) ?_
  rintro a _ rfl
  exact .pure ⟨rfl, h⟩

theorem common {x : Traced α} {y : Traced β} {x' : Traced γ} {R' : γ → β → Prop} (h : Traced.EndAlike R x y)
    (h' : Traced.EndAlike R' x' y) : Traced.EndAlike (fun a c => ∃ b, R a b ∧ R' c b) x x' :=
  ⟨h.outcome.common h'.outcome, h.events.trans h'.events.symm⟩

end Traced.EndAlike

/-! ## All but the pools -/

/-- A computation without what it reports about pools. -/
def Traced.quiet (x : Traced α) : Traced α := ⟨x.outcome, x.events.filter (·.source ≠ .pool)⟩

/-- All reports are about pools. -/
def Traced.AboutPools (x : Traced α) : Prop := ∀ e ∈ x.events, e.source = .pool

theorem Traced.quiet_bind (x : Traced α) (f : α → Traced γ) : (x >>= f).quiet = x.quiet >>= fun a => (f a).quiet := by
  rcases hx : x.outcome with e | a
  · rw [bind_of_error hx, bind_of_error (show x.quiet.outcome = _ from hx)]
    rfl
  · rw [bind_of_ok hx, bind_of_ok (show x.quiet.outcome = _ from hx), quiet, List.filter_append]
    rfl

namespace Traced.AboutPools

theorem pure (a : α) : (Pure.pure a : Traced α).AboutPools := fun _ h => absurd h List.not_mem_nil

theorem lift (x : Except Fault α) : (liftM x : Traced α).AboutPools := fun _ h => absurd h List.not_mem_nil

theorem fault (e : Fault) : (Traced.fault e : Traced α).AboutPools := fun _ h => absurd h List.not_mem_nil

theorem bind {x : Traced α} {f : α → Traced γ} (hx : x.AboutPools) (hf : ∀ a, (f a).AboutPools) :
    (x >>= f).AboutPools := by
  intro e he
  rcases mem_events_bind he with he | ⟨a, he⟩
  · exact hx e he
  · exact hf a e he

theorem events_quiet {x : Traced α} (h : x.AboutPools) : x.quiet.events = [] := by
  refine List.filter_eq_nil_iff.mpr fun e he => ?_
  simp [h e he]

end Traced.AboutPools

/-! ## Runs -/

/-- Structures that answer every request alike answer all lists of requests alike. -/
theorem serveAll_endAlike {σ τ ρ : Type} {R : σ → τ → Prop} {f : σ → ρ → Traced (Answer × σ)}
    {g : τ → ρ → Traced (Answer × τ)} (hfg : ∀ s t r, R s t → Traced.EndAlike (Answering R) (f s r) (g t r))
    {requests : List ρ} : ∀ {s : σ} {t : τ}, R s t →
      Traced.EndAlike (Answering R) (serveAll f s requests) (serveAll g t requests) := by
  induction requests with
  | nil => exact fun h => .pure ⟨rfl, h⟩
  | cons r rest ih =>
    intro s t h
    refine .bind (hfg s t r h) ?_
    rintro ⟨answer, s⟩ ⟨_, t⟩ ⟨rfl, h⟩
    refine .bind (ih h) ?_
    rintro ⟨answers, s⟩ ⟨_, t⟩ ⟨rfl, h⟩
    exact .pure ⟨rfl, h⟩

end TourForest
