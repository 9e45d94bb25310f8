import TourForest.Fault

/-!
# What an operation reports on the way

`Traced α` is a computation that reports `Event`s and ends in a value or a `Fault`. Events reported
before a fault are kept. The reports have no influence on the outcome: `Traced.outcome_bind` says
that outcomes are composed as if nothing were reported.
-/

namespace TourForest

/-- Something worth reporting. -/
inductive Event where
  /-- A shelf of the array pool was empty and a new array was made. -/
  | freshArray (sizeClass : Nat)
  /-- A forest was built. -/
  | forestCreated (vertices : Nat)
  /-- A batch of links begins, one edge at a time or all at once. -/
  | linkBatch (edges : Nat) (sequential : Bool)
  /-- A batch of cuts begins, one edge at a time or in rounds. -/
  | cutBatch (edges : Nat) (sequential : Bool)
  /-- A round of cuts was drawn. -/
  | cutRound (now postponed : Nat)
  /-- An edge is about to be added. -/
  | link (u v : Nat)
  /-- An edge is about to be removed. -/
  | cut (u v : Nat)
deriving DecidableEq

namespace Event

/-- How much detail an event is about. -/
inductive Level where
  | debug
  | trace
deriving DecidableEq

/-- The part of the library that reports an event. -/
inductive Source where
  | pool
  | forest
deriving DecidableEq

/-- The level of an event. -/
def level : Event → Level
  | freshArray _ | link _ _ | cut _ _ => .trace
  | forestCreated _ | linkBatch _ _ | cutBatch _ _ | cutRound _ _ => .debug

/-- The source of an event. -/
def source : Event → Source
  | freshArray _ => .pool
  | _ => .forest

/-- The wording of an event. -/
def message : Event → String
  | freshArray sizeClass => s!"size class {sizeClass} empty, allocating fresh array"
  | forestCreated vertices => s!"Created forest with {vertices} vertices"
  | linkBatch edges true => s!"batch_link of {edges} edges, sequential"
  | linkBatch edges false => s!"batch_link of {edges} edges"
  | cutBatch edges true => s!"batch_cut of {edges} edges, sequential"
  | cutBatch edges false => s!"batch_cut of {edges} edges"
  | cutRound now postponed => s!"batch_cut round: {now} now, {postponed} postponed"
  | link u v => s!"link({u}, {v})"
  | cut u v => s!"cut({u}, {v})"

end Event

/-- A computation that reports events and ends in a value or a fault. -/
structure Traced (α : Type) where
  outcome : Except Fault α
  events : List Event

namespace Traced

variable {α β : Type}

/-- Goes on with `f` after `x`, unless `x` faults. -/
protected def bind (x : Traced α) (f : α → Traced β) : Traced β :=
  match x.outcome with
  | .ok a =>
    let y := f a
    ⟨y.outcome, x.events ++ y.events⟩
  | .error e => ⟨.error e, x.events⟩

instance : Monad Traced where
  pure a := ⟨.ok a, []⟩
  bind := Traced.bind

/-- Reports one event. -/
def report (e : Event) : Traced Unit := ⟨.ok (), [e]⟩

/-- A computation that reports nothing. -/
def ofExcept (x : Except Fault α) : Traced α := ⟨x, []⟩

instance : MonadLift (Except Fault) Traced := ⟨ofExcept⟩

/-- A computation that reports nothing and faults. -/
def fault (f : Fault) : Traced α := ⟨.error f, []⟩

@[simp] theorem outcome_pure (a : α) : (pure a : Traced α).outcome = .ok a := rfl

@[simp] theorem outcome_ofExcept (x : Except Fault α) : (ofExcept x).outcome = x := rfl

@[simp] theorem outcome_liftM (x : Except Fault α) : (liftM x : Traced α).outcome = x := rfl

@[simp] theorem outcome_report (e : Event) : (report e).outcome = .ok () := rfl

@[simp] theorem outcome_fault (f : Fault) : (fault f : Traced α).outcome = .error f := rfl

/-! ## One step after another -/

theorem bind_of_ok {x : Traced α} {a : α} (h : x.outcome = .ok a) (f : α → Traced β) :
    x >>= f = ⟨(f a).outcome, x.events ++ (f a).events⟩ := by
  show x.bind f = _
  rw [Traced.bind, h]

/-- A step after a fault is not taken. -/
theorem bind_of_error {x : Traced α} {e : Fault} (h : x.outcome = .error e) (f : α → Traced β) :
    x >>= f = ⟨.error e, x.events⟩ := by
  show x.bind f = _
  rw [Traced.bind, h]

@[simp] theorem outcome_bind (x : Traced α) (f : α → Traced β) :
    (x >>= f).outcome = x.outcome >>= fun a => (f a).outcome := by
  rcases h : x.outcome with e | a
  · rw [bind_of_error h]
    rfl
  · rw [bind_of_ok h]
    rfl

/-- A step after a value reports after it. -/
theorem events_bind_of_ok {x : Traced α} {a : α} (h : x.outcome = .ok a) (f : α → Traced β) :
    (x >>= f).events = x.events ++ (f a).events := by
  rw [bind_of_ok h]

/-- What two steps report is reported by one of them. -/
theorem mem_events_bind {x : Traced α} {f : α → Traced β} {e : Event} (h : e ∈ (x >>= f).events) :
    e ∈ x.events ∨ ∃ a, e ∈ (f a).events := by
  rcases hx : x.outcome with e' | a
  · rw [bind_of_error hx] at h
    exact .inl h
  · rw [events_bind_of_ok hx, List.mem_append] at h
    exact h.imp_right fun h => ⟨a, h⟩

instance : LawfulMonad Traced :=
  LawfulMonad.mk' Traced
    (fun x => by
      rcases h : x.outcome with e | a
      · show x >>= (fun a => pure (id a)) = x
        rw [bind_of_error h, ← h]
      · show x >>= (fun a => pure (id a)) = x
        rw [bind_of_ok h]
        show Traced.mk (.ok a) (x.events ++ []) = x
        rw [List.append_nil, ← h])
    (fun a f => by
      rw [bind_of_ok (outcome_pure a)]
      rfl)
    (fun x f g => by
      rcases h : x.outcome with e | a
      · rw [bind_of_error h, bind_of_error h, bind_of_error rfl]
      · rw [bind_of_ok h, bind_of_ok h]
        rcases h' : (f a).outcome with e | b
        · rw [bind_of_error (x := ⟨.error e, x.events ++ (f a).events⟩) rfl, bind_of_error h']
        · rw [bind_of_ok (x := ⟨.ok b, x.events ++ (f a).events⟩) rfl, bind_of_ok h',
            List.append_assoc])

end Traced

end TourForest
