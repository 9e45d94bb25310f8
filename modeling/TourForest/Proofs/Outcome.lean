import Mathlib.Data.List.Basic
import TourForest.Fault

/-!
# Steps that may fault

How a computation that answers is taken apart into its steps, and how a loop over a list is followed
by an invariant.
-/

namespace TourForest

variable {α β : Type}

@[simp] theorem ok_bind (a : α) (f : α → Except Fault β) : (Except.ok a >>= f) = f a := rfl

@[simp] theorem error_bind (e : Fault) (f : α → Except Fault β) :
    (Except.error e >>= f) = .error e := rfl

@[simp] theorem pure_eq_ok (a : α) : (pure a : Except Fault α) = .ok a := rfl

/-- A computation of two steps answers if both steps do. -/
theorem bind_eq_ok {x : Except Fault α} {f : α → Except Fault β} {b : β} :
    x >>= f = .ok b ↔ ∃ a, x = .ok a ∧ f a = .ok b := by
  cases x with
  | error e => simp
  | ok a => simp

/-- A computation for each item answers if all of them do. -/
theorem mapM_ok {f : α → Except Fault β} {g : α → β} {xs : List α} (hf : ∀ x ∈ xs, f x = .ok (g x)) :
    xs.mapM f = .ok (xs.map g) := by
  induction xs with
  | nil => rfl
  | cons x xs ih =>
    obtain ⟨hx, hxs⟩ := List.forall_mem_cons.mp hf
    rw [List.mapM_cons, hx, ih hxs]
    rfl

theorem length_of_mapM {f : α → Except Fault β} {xs : List α} {ys : List β} (h : xs.mapM f = .ok ys) :
    ys.length = xs.length := by
  induction xs generalizing ys with
  | nil =>
    cases h
    rfl
  | cons x xs ih =>
    rw [List.mapM_cons] at h
    obtain ⟨y, -, h⟩ := bind_eq_ok.mp h
    obtain ⟨rest, hrest, h⟩ := bind_eq_ok.mp h
    cases h
    rw [List.length_cons, List.length_cons, ih hrest]

/-- Each answer is that of an item. -/
theorem exists_of_mem_mapM {f : α → Except Fault β} {xs : List α} {ys : List β} (h : xs.mapM f = .ok ys) :
    ∀ y ∈ ys, ∃ x ∈ xs, f x = .ok y := by
  induction xs generalizing ys with
  | nil =>
    cases h
    simp
  | cons x xs ih =>
    rw [List.mapM_cons] at h
    obtain ⟨z, hz, h⟩ := bind_eq_ok.mp h
    obtain ⟨rest, hrest, h⟩ := bind_eq_ok.mp h
    cases h
    refine List.forall_mem_cons.mpr ⟨⟨x, List.mem_cons_self, hz⟩, fun y hy => ?_⟩
    obtain ⟨x', hx', hok⟩ := ih hrest y hy
    exact ⟨x', List.mem_cons_of_mem _ hx', hok⟩

/-- All items have answers. -/
theorem exists_ok_of_mapM {f : α → Except Fault β} {xs : List α} {ys : List β} (h : xs.mapM f = .ok ys) :
    ∀ x ∈ xs, ∃ y, f x = .ok y := by
  induction xs generalizing ys with
  | nil => simp
  | cons x xs ih =>
    rw [List.mapM_cons] at h
    obtain ⟨y, hy, h⟩ := bind_eq_ok.mp h
    obtain ⟨rest, hrest, -⟩ := bind_eq_ok.mp h
    exact List.forall_mem_cons.mpr ⟨⟨y, hy⟩, ih hrest⟩

/-- A loop goes on along `R` and leaves `Q` behind for each item, if each of its steps does and `Q`
lasts along `R`. -/
theorem foldlM_each {P : β → Prop} {R : β → β → Prop} {Q : β → α → Prop} {f : β → α → Except Fault β}
    {xs : List α} (hrefl : ∀ a, R a a) (htrans : ∀ a b c, R a b → R b c → R a c)
    (hQ : ∀ b c x, Q b x → R b c → Q c x)
    (hf : ∀ b, P b → ∀ x ∈ xs, ∃ c, f b x = .ok c ∧ P c ∧ R b c ∧ Q c x) {b : β} (hb : P b) :
    ∃ c, xs.foldlM f b = .ok c ∧ P c ∧ R b c ∧ ∀ x ∈ xs, Q c x := by
  induction xs generalizing b with
  | nil => exact ⟨b, rfl, hb, hrefl b, by simp⟩
  | cons x xs ih =>
    obtain ⟨c, hc, hPc, hbc, hx⟩ := hf b hb x List.mem_cons_self
    obtain ⟨d, hd, hPd, hcd, hxs⟩ := ih (fun b hb y hy => hf b hb y (List.mem_cons_of_mem _ hy)) hPc
    refine ⟨d, ?_, hPd, htrans b c d hbc hcd, List.forall_mem_cons.mpr ⟨hQ c d x hx hcd, hxs⟩⟩
    rw [List.foldlM_cons, hc, ok_bind, hd]

/-- What each step of a loop leaves as it is, the loop does too. -/
theorem foldlM_keeps {γ : Type} {m : β → γ} {f : β → α → Except Fault β} {xs : List α}
    (hf : ∀ b, ∀ x ∈ xs, ∀ c, f b x = .ok c → m c = m b) {b c : β} (h : xs.foldlM f b = .ok c) : m c = m b := by
  induction xs generalizing b with
  | nil =>
    cases h
    rfl
  | cons x xs ih =>
    rw [List.foldlM_cons] at h
    obtain ⟨d, hd, h⟩ := bind_eq_ok.mp h
    exact (ih (fun b y hy => hf b y (List.mem_cons_of_mem _ hy)) h).trans (hf b x List.mem_cons_self d hd)

/-! ## Forgetting a part of the state -/

variable {β' γ γ' : Type} {m : β → β'} {m' : γ → γ'}

/-- What `m'` leaves of two steps, the second of which needs of the first what `m` leaves of it. -/
theorem map_bind {x : Except Fault β} {f : β → Except Fault γ} {g : β' → Except Fault γ'}
    (hf : ∀ b, (f b).map m' = g (m b)) : (x >>= f).map m' = x.map m >>= g := by
  cases x with
  | error e => rfl
  | ok b => exact hf b

/-- What `m` leaves of a loop whose steps need no more than that. -/
theorem map_foldlM {f : β → α → Except Fault β} {g : β' → α → Except Fault β'} (hf : ∀ b x, (f b x).map m = g (m b) x)
    (xs : List α) (b : β) : (xs.foldlM f b).map m = xs.foldlM g (m b) := by
  induction xs generalizing b with
  | nil => rfl
  | cons x xs ih => rw [List.foldlM_cons, List.foldlM_cons, map_bind (g := (xs.foldlM g ·)) ih, hf]

end TourForest
