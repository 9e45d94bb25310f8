import Mathlib.Data.List.Forall2
import TourForest.Outline
import TourForest.Text

/-!
# What a drawing shows

A drawing of an outline has one line for each entry, from top to bottom, with a sign in front that is one of
those for branches or one of those for leaves (`Signs.Draws`). From no more than that it can be read back: a line
shows one entry only (`Signs.shows_iff`). The drawing that `Outline.draw` makes is one of this kind
(`Signs.forks_draws`).

All this is about entries without line ends (`OneLine`).
-/

namespace TourForest

/-! ## Text on one line -/

/-- The text has no line end. -/
def OneLine (t : String) : Prop := '\n' ∉ t.toList

instance (t : String) : Decidable (OneLine t) := inferInstanceAs (Decidable ('\n' ∉ t.toList))

namespace OneLine

variable {t t' : String} {ts : List String}

theorem append (h : OneLine t) (h' : OneLine t') : OneLine (t ++ t') := by
  rw [OneLine, String.toList_append, List.mem_append]
  exact not_or_intro h h'

theorem intercalate (h : OneLine t) (hts : ∀ x ∈ ts, OneLine x) : OneLine (t.intercalate ts) := by
  rw [OneLine, String.toList_intercalate]
  induction ts with
  | nil => exact List.not_mem_nil
  | cons x ts ih =>
    obtain ⟨hx, hts⟩ := List.forall_mem_cons.mp hts
    cases ts with
    | nil => simpa [OneLine] using hx
    | cons y ts =>
      rw [List.map_cons, List.map_cons, List.intercalate_cons_cons, List.mem_append, List.mem_append]
      exact not_or_intro (not_or_intro hx h) (ih hts)

theorem nat (n : Nat) : OneLine (toString n) := fun hm => by
  rw [show toString n = n.repr from rfl, Nat.toList_repr] at hm
  exact absurd (Nat.isDigit_of_mem_toDigits (by decide) (by decide) hm) (by decide)

theorem list (h : ∀ x ∈ ts, OneLine x) : OneLine (Text.list ts) :=
  (append (by decide) (intercalate (by decide) h)).append (by decide)

theorem record {fields : List (String × String)} (ht : OneLine t) (h : ∀ f ∈ fields, OneLine f.1 ∧ OneLine f.2) :
    OneLine (Text.record t fields) := by
  refine (((ht.append (by decide)).append (intercalate (by decide) fun x hx => ?_))).append (by decide)
  obtain ⟨f, hf, rfl⟩ := List.mem_map.mp hx
  exact ((h f hf).1.append (by decide)).append (h f hf).2

theorem element (u : Option Nat) : OneLine (Text.element u) := by
  cases u with
  | none => decide
  | some u => exact nat u

end OneLine

namespace Outline

/-- An entry below the title. -/
inductive Entry where
  | branch (head : String)
  | leaf (text : String)

def Entry.text : Entry → String
  | .branch head => head
  | .leaf text => text

/-- The entries below the title, from top to bottom. -/
def entries (o : Outline) : List Entry :=
  o.branches.flatMap fun (head, leaves) => .branch head :: leaves.map .leaf

/-- What may be drawn in front of branches, and what in front of leaves. -/
structure Signs where
  branch : List String
  leaf : List String
  /-- Behind two different signs, there are never two texts that make up the same line. -/
  apart : ∀ a ∈ branch ++ leaf, ∀ b ∈ branch ++ leaf, ∀ t t', a ++ t = b ++ t' → a = b
  disjoint : branch.Disjoint leaf

namespace Signs

variable {g : Signs} {line : String} {e e' : Entry}

/-- The signs for an entry of this kind. -/
def before (g : Signs) : Entry → List String
  | .branch _ => g.branch
  | .leaf _ => g.leaf

/-- The line shows the entry behind one of the signs for it. -/
def Shows (g : Signs) (line : String) (e : Entry) : Prop := ∃ a ∈ g.before e, line = a ++ e.text

/-- A title and entries without line ends are drawn as one line each. -/
def Draws (g : Signs) (draw : Outline → String) : Prop :=
  ∀ o : Outline, OneLine o.title → (∀ e ∈ o.entries, OneLine e.text) →
    ∃ lines, draw o = "\n".intercalate (o.title :: lines) ∧ List.Forall₂ g.Shows lines o.entries

theorem mem_of_mem_before {a : String} (h : a ∈ g.before e) : a ∈ g.branch ++ g.leaf := by
  cases e with
  | branch head => exact List.mem_append_left _ h
  | leaf text => exact List.mem_append_right _ h

theorem shows_inj (h : g.Shows line e) (h' : g.Shows line e') : e = e' := by
  obtain ⟨a, ha, rfl⟩ := h
  obtain ⟨b, hb, he⟩ := h'
  obtain rfl := g.apart a (mem_of_mem_before ha) b (mem_of_mem_before hb) _ _ he
  have htext : e.text = e'.text := (String.append_right_inj a).mp he
  cases e with
  | branch t =>
    cases e' with
    | branch t' => exact congrArg Entry.branch htext
    | leaf t' => exact (g.disjoint ha hb).elim
  | leaf t =>
    cases e' with
    | branch t' => exact (g.disjoint hb ha).elim
    | leaf t' => exact congrArg Entry.leaf htext

/-- A line that shows an entry shows no other one. -/
theorem shows_iff (h : g.Shows line e) : g.Shows line e' ↔ e' = e :=
  ⟨fun h' => shows_inj h' h, fun he => he ▸ h⟩

end Signs

/-! ## The drawing with forks and corners -/

/-- Where no sign begins another one, texts behind them are never the same line. -/
theorem apart_of_toList {signs : List String} (h : ∀ a ∈ signs, ∀ b ∈ signs, a.toList <+: b.toList → a = b) :
    ∀ a ∈ signs, ∀ b ∈ signs, ∀ t t' : String, a ++ t = b ++ t' → a = b := by
  intro a ha b hb t t' he
  have hat : a.toList <+: (a ++ t).toList := by simp
  have hbt : b.toList <+: (a ++ t).toList := by simp [he]
  rcases List.prefix_or_prefix_of_prefix hat hbt with hab | hba
  · exact h a ha b hb hab
  · exact (h b hb a ha hba).symm

/-- The signs that `draw` uses. -/
def forks : Signs where
  branch := [sign false, sign true]
  leaf := [margin false ++ sign false, margin false ++ sign true, margin true ++ sign false, margin true ++ sign true]
  apart := apart_of_toList (by decide)
  disjoint := by simp [sign, margin]

theorem forall₂_markLast {α : Type} (xs : List α) : List.Forall₂ (fun p a => p.2 = a) (markLast xs) xs := by
  induction xs using markLast.induct with
  | case1 => exact .nil
  | case2 a => exact .cons rfl .nil
  | case3 a rest hne ih =>
    rw [markLast.eq_3 _ _ hne]
    exact .cons rfl ih

/-- The lines of a branch show its head and its leaves. -/
theorem forall₂_branchLines (last : Bool) (head : String) (leaves : List String) :
    List.Forall₂ forks.Shows (branchLines last head leaves) (.branch head :: leaves.map .leaf) := by
  refine .cons ⟨sign last, by cases last <;> simp [Signs.before, forks], rfl⟩
    (List.forall₂_map_left_iff.mpr (List.forall₂_map_right_iff.mpr ((forall₂_markLast leaves).imp ?_)))
  rintro ⟨c, leaf⟩ _ rfl
  exact ⟨margin last ++ sign c, by cases last <;> cases c <;> simp [Signs.before, forks], rfl⟩

/-- The lines below the title show the entries. -/
theorem forks_draws : forks.Draws draw := by
  intro o _ _
  refine ⟨_, rfl, List.rel_flatMap (forall₂_markLast o.branches) ?_⟩
  rintro ⟨last, head, leaves⟩ _ rfl
  exact forall₂_branchLines last head leaves

end Outline

end TourForest
