import TourForest.Proofs.Raw.Forest

/-!
# Recycled arrays

What the last owner of an array left in it is never seen by the next one. On any two pairs of pools whose arrays have
the sizes of their classes, however many there are and whatever they hold, structures that are built with the same
parameters show the same (`trimmed`), answer all lists of requests alike, fault alike, and show the same afterwards; and
so do structures that cannot look beyond the levels of their elements (`BuiltAlike`). Nothing is asked of the requests.

What is reported about the pools is left out (`Traced.quiet`): pools that hold more arrays make less.
-/

namespace TourForest

/-! ## What is shown -/

/-- Heights, and links on all levels. -/
def SkipList.trimmed (s : SkipList) : SkipList := ⟨s.towers.map fun t => ⟨t.levels, #[]⟩⟩

/-- Heights, links and values on all levels, and marks. -/
def SumList.trimmed (a : SumList) : SumList := ⟨a.list.trimmed, a.sums.map fun x => ⟨x.levels, #[]⟩, a.marks⟩

/-- Everything but what lies beyond the levels of the tours. -/
def Forest.trimmed (f : Forest) : Forest := { f with tours := f.tours.trimmed }

theorem SkipList.Covers.trimmed_eq {s c : SkipList} (h : s.Covers c) : s.trimmed = c.trimmed := by
  have htrim (t : SkipList) : t.trimmed = ⟨(t.towers.map (·.levels)).map fun a => ⟨a, #[]⟩⟩ := by
    rw [trimmed, Array.map_map]
    rfl
  rw [htrim, htrim, h.levels]

theorem SumList.Covers.trimmed_eq {a c : SumList} (h : a.Covers c) : a.trimmed = c.trimmed := by
  have htrim (b : SumList) : b.sums.map (fun x => (⟨x.levels, #[]⟩ : Sums)) =
      (b.sums.map (·.levels)).map fun x => ⟨x, #[]⟩ := by
    rw [Array.map_map]
    rfl
  rw [trimmed, trimmed, h.list.trimmed_eq, htrim, htrim, h.sums, h.marks]

theorem Forest.Covers.trimmed_eq {f c : Forest} (h : f.Covers c) : f.trimmed = c.trimmed := by
  obtain ⟨a, ha, rfl⟩ := h.exists_tours
  simp only [trimmed, ha.trimmed_eq]

/-! ## Structures that are alike -/

section

variable {σ ρ π : Type} {trim : σ → σ} {raw serve : σ → ρ → Traced (Answer × σ)} {C : σ → σ → Prop}

/-- Two structures show the same, answer all lists of requests alike, and show the same afterwards. -/
structure Alike (trim : σ → σ) (f g : σ → ρ → Traced (Answer × σ)) (s t : σ) : Prop where
  same : trim s = trim t
  runs : ∀ requests, Traced.EndAlike (Answering fun s t => trim s = trim t) (serveAll f s requests)
    (serveAll g t requests)

/-- Two computations build structures that are alike on raw arrays, and alike to what a third one builds. -/
structure BuiltAlike (trim : σ → σ) (raw serve : σ → ρ → Traced (Answer × σ)) (x y z : Traced (σ × π)) : Prop where
  unseen : Traced.EndAlike (fun a b => Alike trim raw raw a.1 b.1) x.quiet y.quiet
  faithful : Traced.EndAlike (fun a b => Alike trim raw serve a.1 b.1) x.quiet z.quiet

/-- Two structures that cover a third one as long as they are served are alike. -/
theorem BuiltAlike.of_covers (htrim : ∀ s c, C s c → trim s = trim c)
    (hserve : ∀ s c r, C s c → Traced.EndAlike (Answering C) (raw s r) (serve c r)) {x y z : Traced (σ × π)}
    (hx : Traced.EndAlike (fun a b => C a.1 b.1) x.quiet z.quiet)
    (hy : Traced.EndAlike (fun a b => C a.1 b.1) y.quiet z.quiet) : BuiltAlike trim raw serve x y z where
  unseen := by
    refine (hx.common hy).mono ?_
    rintro a b ⟨c, hac, hbc⟩
    refine ⟨(htrim _ _ hac).trans (htrim _ _ hbc).symm, fun requests => ?_⟩
    refine ((serveAll_endAlike hserve hac).common (serveAll_endAlike hserve hbc)).mono ?_
    rintro s t ⟨u, hsu, htu⟩
    exact ⟨hsu.1.trans htu.1.symm, (htrim _ _ hsu.2).trans (htrim _ _ htu.2).symm⟩
  faithful := hx.mono fun a b hab => ⟨htrim _ _ hab, fun requests =>
    (serveAll_endAlike hserve hab).mono fun s t hst => ⟨hst.1, htrim _ _ hst.2⟩⟩

end

/-! ## Built on recycled arrays -/

/-- Skip lists, lists with sums and forests that are built on two pairs of pools with the same parameters are alike,
whatever the arrays in the pools hold. -/
theorem builtAlike_of_stocked {pools pools' : Pools} (hl : pools.links.Stocked) (hv : pools.values.Stocked)
    (hl' : pools'.links.Stocked) (hv' : pools'.values.Stocked) :
    (∀ (r : Random) (len load : Nat), BuiltAlike SkipList.trimmed SkipList.Raw.serve SkipList.serve
      (SkipList.Raw.build pools.links r len load) (SkipList.Raw.build pools'.links r len load)
      (SkipList.build pools.links r len load)) ∧
    (∀ (r : Random) (len load : Nat) (value : Nat → Int), BuiltAlike SumList.trimmed SumList.Raw.serve SumList.serve
      (SumList.Raw.build pools r len load value) (SumList.Raw.build pools' r len load value)
      (SumList.build pools r len load value)) ∧
    ∀ (n : Nat) (settings : Settings), BuiltAlike Forest.trimmed Forest.Raw.serve Forest.serve
      (Forest.Raw.build pools n settings) (Forest.Raw.build pools' n settings) (Forest.build pools n settings) := by
  refine ⟨fun r len load => ?_, fun r len load value => ?_, fun n settings => ?_⟩
  · rw [SkipList.Raw.build_eq hl, SkipList.Raw.build_eq hl']
    exact .of_covers (fun _ _ h => h.trimmed_eq) (fun _ _ r h => SkipList.Covers.serve h r)
      (SkipList.build_alike _ _ r len load) (SkipList.build_alike _ _ r len load)
  · rw [SumList.Raw.build_eq hl hv, SumList.Raw.build_eq hl' hv']
    exact .of_covers (fun _ _ h => h.trimmed_eq) (fun _ _ r h => SumList.Covers.serve h r)
      ((SumList.build_alike _ _ r len load value).mono fun _ _ h => h.1)
      ((SumList.build_alike _ _ r len load value).mono fun _ _ h => h.1)
  · exact .of_covers (fun _ _ h => h.trimmed_eq) (fun _ _ r h => Forest.Covers.serve h r)
      (Forest.build_covers hl hv pools n settings) (Forest.build_covers hl' hv' pools n settings)

/-- A list with an element of height 3 is built once on an array of four items that was handed back with other links in
it, and once on a new one. The fourth item tells the two apart, and no request does. -/
theorem builtAlike_of_four_stale_links : ∃ links p p' : Pool Links, ∃ s t : SkipList,
    Pool.empty.free (Array.replicate 4 ⟨some 7, some 7⟩) = .ok links ∧
      (SkipList.Raw.build links ⟨1⟩ 1 0).outcome = .ok (s, p) ∧ (SkipList.Raw.build .empty ⟨1⟩ 1 0).outcome = .ok (t, p') ∧
      SkipList.Raw.item s 0 3 = .ok ⟨some 7, some 7⟩ ∧ SkipList.Raw.item t 0 3 = .ok ⟨some 0, some 0⟩ ∧
      Alike SkipList.trimmed SkipList.Raw.serve SkipList.Raw.serve s t := by
  have hheights : drawnHeights ⟨1⟩ 1 = [3] := by decide +kernel
  obtain ⟨links, hfree, hl, -⟩ :=
    Pool.free_stocked Pool.stocked_empty (a := Array.replicate 4 (⟨some 7, some 7⟩ : Links)) (c := 2) rfl (by decide)
  obtain ⟨s, p, hs, hs3⟩ : ∃ s p, (SkipList.Raw.build links ⟨1⟩ 1 0).outcome = .ok (s, p) ∧
      SkipList.Raw.item s 0 3 = .ok ⟨some 7, some 7⟩ := by
    cases hfree
    rw [SkipList.Raw.build, hheights]
    exact ⟨_, _, rfl, rfl⟩
  obtain ⟨t, p', ht, ht3⟩ : ∃ t p', (SkipList.Raw.build .empty ⟨1⟩ 1 0).outcome = .ok (t, p') ∧
      SkipList.Raw.item t 0 3 = .ok ⟨some 0, some 0⟩ := by
    rw [SkipList.Raw.build, hheights]
    exact ⟨_, _, rfl, rfl⟩
  have halike := ((@builtAlike_of_stocked ⟨links, .empty⟩ .empty hl Pool.stocked_empty Pool.stocked_empty
    Pool.stocked_empty).1 ⟨1⟩ 1 0).unseen.outcome
  simp only [Traced.quiet, Pools.empty, hs, ht] at halike
  exact ⟨links, p, p', s, t, hfree, hs, ht, hs3, ht3, halike⟩

end TourForest
