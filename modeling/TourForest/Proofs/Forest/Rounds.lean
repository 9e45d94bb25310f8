import TourForest.Proofs.Forest.Cut

/-!
# Cuts in rounds

A batch of cuts goes in rounds. Each round postpones some of the cuts to the next one and does the others at once,
until few enough are left to do them one by one. Whether that happens (`RoundsEnd`) is up to what the generator draws:
it may postpone the same cuts for ever.

* `RoundsEnd.within`: rounds that end do so before a state of the generator comes back with as many cuts left;
* `Toured.cutAll`: a batch that has been done has removed its edges, whatever the number of vertices;
* `Refines.outcome_cutAll`: a batch is done if and only if its rounds end.
-/

namespace TourForest.Forest

variable {f f' : Forest} {rot : Nat → List Nat} {E : Finset (Sym2 Nat)} {cuts : List (Nat × Nat)}
  {settings : Settings} {factor : UInt64} {r : Random} {x : Random × List (Nat × Nat)} {j k : Nat}

/-- A round postpones some cuts and does the others. -/
theorem postpone_perm (r : Random) (factor : UInt64) (cuts : List (Nat × Nat)) :
    ((postpone r factor cuts).2 ++ (postpone r factor cuts).1).Perm cuts := by
  simp only [postpone, List.partition_eq_filter_filter]
  rw [← List.map_append]
  refine ((List.perm_append_comm.trans (List.filter_append_perm _ _)).map _).trans ?_
  rw [List.zipIdx_map_fst]

/-- What a round postpones is still there after it. -/
theorem strikes_of_postpone (hc : Strikes E cuts) {now later : List (Nat × Nat)}
    (hpost : postpone r factor cuts = (later, now)) :
    Strikes E now ∧ Strikes (E \ edgeSet now) later ∧ (now ++ later).Perm cuts := by
  have hp := postpone_perm r factor cuts
  rw [hpost] at hp
  obtain ⟨hnow, hlater⟩ := strikes_append.mp (hc.perm hp.symm)
  exact ⟨hnow, hlater, hp⟩

/-- The cuts that a round postpones keep their order. -/
theorem postpone_sublist (r : Random) (factor : UInt64) (cuts : List (Nat × Nat)) :
    (postpone r factor cuts).1.Sublist cuts := by
  simp only [postpone, List.partition_eq_filter_filter]
  conv => rhs; rw [← List.zipIdx_map_fst 0 cuts]
  exact List.filter_sublist.map _

/-! ## When rounds end -/

section

-- With the step of a round in the place of `step`, a check that two numbers of rounds come to the same would go into
-- the hash of the generator.
variable {α : Type} {step : α → α} {p : α → Prop} {a : α} {i j k : Nat}

theorem exists_iterate_lt_succ {n : Nat} :
    (∃ k < n + 1, p (step^[k] a)) ↔ p a ∨ ∃ k < n, p (step^[k] (step a)) :=
  Nat.exists_lt_succ_left

/-- Nothing comes back before `p` holds for the first time. -/
theorem iterate_ne_of_least (hk : p (step^[k] a)) (hmin : ∀ j < k, ¬ p (step^[j] a)) (hji : j < i) (hik : i < k) :
    step^[i] a ≠ step^[j] a := by
  intro heq
  have hearly : step^[k - i + j] a = step^[k] a := by
    calc step^[k - i + j] a = step^[k - i] (step^[j] a) := Function.iterate_add_apply ..
      _ = step^[k - i] (step^[i] a) := by rw [heq]
      _ = step^[k - i + i] a := (Function.iterate_add_apply ..).symm
      _ = step^[k] a := by rw [Nat.sub_add_cancel hik.le]
  exact hmin (k - i + j) (by omega) (hearly ▸ hk)

end

/-- What a round leaves to the next one: the next state of the generator, and the cuts that it postpones. -/
def onward (factor : UInt64) (x : Random × List (Nat × Nat)) : Random × List (Nat × Nat) :=
  (x.1.next, (postpone x.1 factor x.2).1)

/-- Some number of rounds leaves few enough cuts to do them one by one. -/
def RoundsEnd (settings : Settings) (r : Random) (cuts : List (Nat × Nat)) : Prop :=
  ∃ k, ((onward settings.postponeOneIn)^[k] (r, cuts)).2.length ≤ settings.oneByOneLimit

/-- Fewer than `rounds` rounds leave few enough cuts to do them one by one. -/
def EndsWithin (settings : Settings) (r : Random) (cuts : List (Nat × Nat)) (rounds : Nat) : Prop :=
  ∃ k < rounds, ((onward settings.postponeOneIn)^[k] (r, cuts)).2.length ≤ settings.oneByOneLimit

theorem endsWithin_succ {rounds : Nat} : EndsWithin settings r cuts (rounds + 1) ↔
    cuts.length ≤ settings.oneByOneLimit ∨
      EndsWithin settings r.next (postpone r settings.postponeOneIn cuts).1 rounds :=
  exists_iterate_lt_succ (p := fun x : Random × List (Nat × Nat) => x.2.length ≤ settings.oneByOneLimit)

theorem onward_sublist (x : Random × List (Nat × Nat)) (hjk : j ≤ k) :
    ((onward factor)^[k] x).2.Sublist ((onward factor)^[j] x).2 := by
  induction k, hjk using Nat.le_induction with
  | base => exact .refl _
  | succ k _ ih =>
    rw [Function.iterate_succ_apply']
    exact (postpone_sublist ..).trans ih

/-- With the same state of the generator and as many cuts left, it is the same cuts that are left. -/
theorem onward_eq (hjk : j ≤ k) (hstate : ((onward factor)^[k] x).1.state = ((onward factor)^[j] x).1.state)
    (hlength : ((onward factor)^[k] x).2.length = ((onward factor)^[j] x).2.length) :
    (onward factor)^[k] x = (onward factor)^[j] x :=
  Prod.ext (congrArg Random.mk hstate) ((onward_sublist x hjk).eq_of_length hlength)

/-- Rounds that end do so before they repeat. -/
theorem RoundsEnd.within (h : RoundsEnd settings r cuts) :
    EndsWithin settings r cuts ((cuts.length + 1) * (maxWord + 1) + 1) := by
  classical
  let after (k : Nat) := (onward settings.postponeOneIn)^[k] (r, cuts)
  obtain ⟨k, hk, hmin⟩ : ∃ k, (after k).2.length ≤ settings.oneByOneLimit ∧
      ∀ j < k, ¬ (after j).2.length ≤ settings.oneByOneLimit :=
    ⟨Nat.find h, Nat.find_spec h, fun j => Nat.find_min h⟩
  refine ⟨k, Nat.lt_succ_of_le ?_, hk⟩
  have hnew {j i : Nat} (hji : j < i) (hik : i < k) : after i ≠ after j :=
    iterate_ne_of_least (p := fun x => x.2.length ≤ settings.oneByOneLimit) hk hmin hji hik
  have hinj : Set.InjOn (fun j => ((after j).2.length, (after j).1.state.toNat)) (Finset.range k) := by
    intro j hj i hi heq
    obtain ⟨hlength, hstate⟩ := Prod.mk.inj heq
    rw [Finset.coe_range, Set.mem_Iio] at hi hj
    rcases Nat.lt_trichotomy j i with hji | rfl | hij
    · exact absurd (onward_eq hji.le (UInt64.toNat_inj.mp hstate).symm hlength.symm) (hnew hji hi)
    · rfl
    · exact absurd (onward_eq hij.le (UInt64.toNat_inj.mp hstate) hlength) (hnew hij hj)
  have hmaps (j : Nat) (_ : j ∈ Finset.range k) : ((after j).2.length, (after j).1.state.toNat) ∈
      Finset.range (cuts.length + 1) ×ˢ Finset.range (maxWord + 1) := by
    refine Finset.mk_mem_product (Finset.mem_range.mpr ?_) (Finset.mem_range.mpr (UInt64.toNat_lt _))
    exact Nat.lt_succ_of_le (onward_sublist (r, cuts) (Nat.zero_le j)).length_le
  have hcard := Finset.card_le_card_of_injOn _ hmaps hinj
  rwa [Finset.card_range, Finset.card_product, Finset.card_range, Finset.card_range] at hcard

/-! ## What rounds do -/

namespace Toured

/-- Neither the generator nor the settings have a say in how a forest is toured. -/
theorem reseeded (h : f.Toured rot E) (r : Random) (s : Settings) :
    ({ f with randomness := r, settings := s } : Forest).Toured rot E :=
  ⟨h.toLedger, h.acyclic, h.woven, h.size, h.own, h.next_iff, h.doomed, h.blank⟩

/-- One round of a batch of cuts that has been done. -/
theorem round (h : f.Toured rot E) {now : List (Nat × Nat)} (hnow : Strikes E now)
    (hok : ({ f with randomness := f.randomness.next } : Forest).cutTogether now = .ok f') :
    f.Without rot E now f' ∧ f'.randomness = f.randomness.next := by
  obtain ⟨hw, hrandom⟩ := (h.reseeded f.randomness.next f.settings).cutTogether hnow hok
  exact ⟨⟨hw.toured, hw.free, hw.setup.vertices, hw.setup.settings, hw.setup.layout⟩, hrandom⟩

/-- A batch of cuts that has been done in rounds. -/
theorem cutRounds : ∀ (rounds : Nat) {f : Forest} {rot : Nat → List Nat} {E : Finset (Sym2 Nat)}
    {cuts : List (Nat × Nat)}, f.Toured rot E → Strikes E cuts → (cutRounds rounds f cuts).outcome = .ok f' →
    f.Without rot E cuts f' := by
  intro rounds
  induction rounds with
  | zero =>
    intro f rot E cuts _ _ hok
    cases hok
  | succ rounds ih =>
    intro f rot E cuts h hc hok
    rw [Forest.cutRounds] at hok
    split at hok
    · exact h.cutEach cuts hc (by simpa using hok)
    · rcases hpost : postpone f.randomness f.settings.postponeOneIn cuts with ⟨later, now⟩
      obtain ⟨hnow, hlater, hp⟩ := strikes_of_postpone hc hpost
      simp only [hpost, Traced.outcome_bind, Traced.outcome_report, Traced.outcome_liftM, ok_bind] at hok
      obtain ⟨f₁, hok₁, hok⟩ := bind_eq_ok.mp hok
      obtain ⟨hw₁, -⟩ := h.round hnow hok₁
      have hw := hw₁.append h.rotation hnow hlater (ih hw₁.toured hlater hok)
      exact hw.congr h.rotation (hc.perm hp.symm) hc (edgeSet_perm hp)

/-- A batch of cuts that has been done. -/
theorem cutAll (h : f.Toured rot E) (hc : Strikes E cuts) (hok : (f.cutAll cuts).outcome = .ok f') :
    f.Without rot E cuts f' := h.cutRounds _ hc hok

end Toured

namespace Refines

/-- Neither the generator nor the settings have a say in what a forest refines. -/
theorem reseeded (h : f.Refines rot E) (r : Random) (s : Settings) :
    ({ f with randomness := r, settings := s } : Forest).Refines rot E :=
  ⟨h.toToured.reseeded r s, h.small, h.sound⟩

/-- One round of a batch of cuts. -/
theorem round (h : f.Refines rot E) {now : List (Nat × Nat)} (hnow : Strikes E now) :
    ∃ f', ({ f with randomness := f.randomness.next } : Forest).cutTogether now = .ok f' ∧
      f.Without rot E now f' ∧ f'.randomness = f.randomness.next ∧ f'.tours.Sound := by
  obtain ⟨f', hok, -, -, hs⟩ := (h.reseeded f.randomness.next f.settings).cutTogether hnow
  obtain ⟨hw, hrandom⟩ := h.toToured.round hnow hok
  exact ⟨f', hok, hw, hrandom, hs⟩

/-- Rounds either end, or there are not enough of them. -/
theorem outcome_cutRounds : ∀ (rounds : Nat) {f : Forest} {rot : Nat → List Nat} {E : Finset (Sym2 Nat)}
    {cuts : List (Nat × Nat)}, f.Refines rot E → Strikes E cuts →
    ((cutRounds rounds f cuts).outcome = .error .endlessRounds ∧ ¬ EndsWithin f.settings f.randomness cuts rounds) ∨
    ∃ f', (cutRounds rounds f cuts).outcome = .ok f' ∧ f'.tours.Sound ∧
      EndsWithin f.settings f.randomness cuts rounds := by
  intro rounds
  induction rounds with
  | zero => exact fun _ _ => .inl ⟨rfl, fun ⟨_, hk, _⟩ => absurd hk (Nat.not_lt_zero _)⟩
  | succ rounds ih =>
    intro f rot E cuts h hc
    rw [cutRounds, endsWithin_succ]
    split
    · next hfew =>
      obtain ⟨f', hok, -, hs⟩ := h.outcome_cutEach cuts hc
      exact .inr ⟨f', by simpa using hok, hs, .inl hfew⟩
    · next hmany =>
      rcases hpost : postpone f.randomness f.settings.postponeOneIn cuts with ⟨later, now⟩
      obtain ⟨hnow, hlater, -⟩ := strikes_of_postpone hc hpost
      obtain ⟨f₁, hok₁, hw₁, hrandom, hs₁⟩ := h.round hnow
      simp only [Traced.outcome_bind, Traced.outcome_report, Traced.outcome_liftM, ok_bind, hok₁, hmany, false_or]
      rw [← hrandom, ← hw₁.setup.settings]
      exact ih (hw₁.refines h hs₁) hlater

/-- A batch of cuts is done if its rounds end, and only then. -/
theorem outcome_cutAll (h : f.Refines rot E) (hc : Strikes E cuts) :
    ((f.cutAll cuts).outcome = .error .endlessRounds ∧ ¬ RoundsEnd f.settings f.randomness cuts) ∨
    ∃ f', (f.cutAll cuts).outcome = .ok f' ∧ f.Without rot E cuts f' ∧ f'.tours.Sound ∧
      RoundsEnd f.settings f.randomness cuts := by
  rcases h.outcome_cutRounds ((cuts.length + 1) * (maxWord + 1) + 1) hc with ⟨hout, hnever⟩ | ⟨f', hok, hs, k, -, hk⟩
  · exact .inl ⟨hout, fun hend => hnever hend.within⟩
  · exact .inr ⟨f', hok, h.toToured.cutAll hc hok, hs, k, hk⟩

end Refines

end TourForest.Forest
