import TourForest.Proofs.Forest.Arena
import TourForest.Proofs.Forest.Orderly

/-!
# Ends that are no vertices

Nothing checks that the ends of an edge that is asked for or removed are vertices. The index compares them as they
are, and then crops each to 32 bits, so ends `Hit` an edge if they are cropped to its ends and stay in order. Ends
below `2 ^ 32` hit nothing but themselves. Wider ones are taken for an edge that they do not name, which can be
removed under them (`cut_of_wide_ends`).

* `EdgeIndex.Lacks`: an index without an edge stays without it while edges are taken out;
* `Ledger.endsLaw`, `endsLaw_of_run`: what ends hit decides whether there is an edge, and what can be removed.
-/

namespace TourForest

/-! ## Cropping -/

/-- What is left of an end in a table. -/
def crop (u : Nat) : Nat := u % 2 ^ 32

/-- No table takes this end. -/
def Barred (u : Nat) : Prop := crop u = 2 ^ 32 - 1

instance (u : Nat) : Decidable (Barred u) := inferInstanceAs (Decidable (_ = _))

theorem crop_of_lt {u : Nat} (hu : u < 2 ^ 32) : crop u = u := Nat.mod_eq_of_lt hu

theorem crop_lt (u : Nat) : crop u < 2 ^ 32 := Nat.mod_lt _ (Nat.two_pow_pos 32)

theorem toNat_toUInt32 (u : Nat) : u.toUInt32.toNat = crop u := UInt32.toNat_ofNat'

theorem toUInt32_crop (u : Nat) : (crop u).toUInt32 = u.toUInt32 :=
  UInt32.toNat_inj.mp ((toNat_toUInt32 _).trans ((crop_of_lt (crop_lt u)).trans (toNat_toUInt32 u).symm))

theorem toUInt32_eq_maxHalf {u : Nat} : u.toUInt32 = WordKey.maxHalf ↔ Barred u := by
  rw [← UInt32.toNat_inj, toNat_toUInt32]
  exact Iff.rfl

/-- Cropping keeps two ends in order. -/
def InOrder (u v : Nat) : Prop := u < v ↔ crop u < crop v

instance (u v : Nat) : Decidable (InOrder u v) := inferInstanceAs (Decidable (_ ↔ _))

/-- Two ends are cropped to the ends of an edge and stay in order. -/
def Hits (E : Finset (Sym2 Nat)) (u v : Nat) : Prop := InOrder u v ∧ s(crop u, crop v) ∈ E

instance (E : Finset (Sym2 Nat)) (u v : Nat) : Decidable (Hits E u v) := inferInstanceAs (Decidable (_ ∧ _))

/-- Ends of 32 bits hit no edge but their own. -/
theorem hits_of_lt {E : Finset (Sym2 Nat)} {u v : Nat} (hu : u < 2 ^ 32) (hv : v < 2 ^ 32) :
    Hits E u v ↔ s(u, v) ∈ E := by
  rw [Hits, InOrder, crop_of_lt hu, crop_of_lt hv]
  exact and_iff_right Iff.rfl

namespace EdgeIndex

variable {e e' : EdgeIndex} {n u v a b x : Nat} {found : Bool}

theorem key_crop (h : InOrder u v) : key (crop u) (crop v) = key u v := by
  rw [InOrder] at h
  rw [key, key]
  rcases Nat.lt_or_ge u v with huv | huv
  · have hlt := h.mp huv
    rw [min_eq_left huv.le, max_eq_right huv.le, min_eq_left hlt.le, max_eq_right hlt.le, toUInt32_crop,
      toUInt32_crop]
  · have hle := not_lt.mp (mt h.mpr (not_lt.mpr huv))
    rw [min_eq_right huv, max_eq_left huv, min_eq_right hle, max_eq_left hle, toUInt32_crop, toUInt32_crop]

theorem contains_crop (h : InOrder u v) : e.contains (crop u) (crop v) = e.contains u v := by
  rw [contains, contains, key_crop h]

theorem find?_crop (h : InOrder u v) : e.find? (crop u) (crop v) = e.find? u v := by
  rw [find?, find?, key_crop h]
  simp only [orient, h.symm]

theorem erase_crop (h : InOrder u v) : e.erase (crop u) (crop v) = e.erase u v := by
  rw [erase, erase, key_crop h]

/-- The word of two ends, unless one of them is barred. -/
theorem toWord_key_eq (u v : Nat) :
    WordKey.toWord (key u v) = if Barred u ∨ Barred v then .error .halfTooLarge else .ok (code u v) := by
  have hbarred : (min u v).toUInt32 = WordKey.maxHalf ∨ (max u v).toUInt32 = WordKey.maxHalf ↔
      Barred u ∨ Barred v := by
    rw [toUInt32_eq_maxHalf, toUInt32_eq_maxHalf]
    rcases Nat.le_total u v with huv | huv
    · rw [min_eq_left huv, max_eq_right huv]
    · rw [min_eq_right huv, max_eq_left huv, or_comm]
  exact if_congr hbarred rfl rfl

/-- Ends with the word of an edge are cropped to its ends, in its order. -/
theorem crop_of_code (hn : n < 2 ^ 32) (hab : a < b) (hb : b < n) (h : code u v = code a b) :
    InOrder u v ∧ s(crop u, crop v) = s(a, b) := by
  obtain ⟨hc, ha', hb'⟩ := ofWord_code hn hab.le hb
  rw [← h, code, WordKey.ofWord_pack, Prod.mk.injEq] at hc
  have hmin : crop (min u v) = a := by rw [← toNat_toUInt32, hc.1, ha']
  have hmax : crop (max u v) = b := by rw [← toNat_toUInt32, hc.2, hb']
  rw [InOrder]
  rcases Nat.lt_or_ge u v with huv | huv
  · rw [min_eq_left huv.le] at hmin
    rw [max_eq_right huv.le] at hmax
    rw [hmin, hmax]
    exact ⟨⟨fun _ => hab, fun _ => huv⟩, rfl⟩
  · rw [min_eq_right huv] at hmin
    rw [max_eq_left huv] at hmax
    rw [hmin, hmax]
    exact ⟨⟨fun hlt => absurd hlt (not_lt.mpr huv), fun hlt => absurd hlt (not_lt.mpr hab.le)⟩, Sym2.eq_swap⟩

/-! ## What an index lacks -/

/-- The index is tidy and has nothing under the word of two ends. -/
structure Lacks (e : EdgeIndex) (u v : Nat) : Prop where
  tidy : e.table.words.Tidy
  not_holds : ∀ x, ¬ e.table.words.Holds (code u v) x

namespace Lacks

theorem contains_eq (h : e.Lacks u v) :
    e.contains u v = if Barred u ∨ Barred v then .error .halfTooLarge else .ok false := by
  rw [contains, KeyTable.contains, toWord_key_eq]
  split
  · rfl
  · rw [ok_bind, WordTable.contains, h.tidy.find?_eq_none_iff.mpr h.not_holds]
    rfl

theorem contains_ne_true (h : e.Lacks u v) : e.contains u v ≠ .ok true := by
  rw [h.contains_eq]
  split <;> simp

theorem find?_ne_some (h : e.Lacks u v) (x : Nat) : e.find? u v ≠ .ok (some x) := by
  rw [EdgeIndex.find?, KeyTable.find?, toWord_key_eq]
  split
  · simp
  · rw [ok_bind, h.tidy.find?_eq_none_iff.mpr h.not_holds]
    simp

/-- Taking an edge out puts none in. -/
theorem erase (h : e.Lacks u v) (hok : e.erase a b = .ok (found, e')) : e'.Lacks u v := by
  obtain ⟨w, hwords, -⟩ := words_of_erase hok
  refine ⟨hwords ▸ h.tidy.erase w, fun x hx => h.not_holds x ?_⟩
  rw [hwords] at hx
  exact WordTable.holds_of_erase hx

theorem eraseEdges {cuts : List (Nat × Nat)} (h : e.Lacks u v) (hok : Forest.eraseEdges e cuts = .ok e') :
    e'.Lacks u v := eraseEdges_keeps (P := (·.Lacks u v)) (fun h => h.erase) h hok

end Lacks

end EdgeIndex

namespace Forest

open EdgeIndex (Lacks)

variable {n u v : Nat} {settings : Settings} {f f' : Forest} {E : Finset (Sym2 Nat)} {rot : Nat → List Nat}
  {edges : EdgeIndex} {free : List Nat} {cuts : List (Nat × Nat)} {c : Nat × Nat}

/-! ## Cuts of an edge that is not there -/

/-- Taking an edge out of the tours takes it out of the index. -/
theorem erase_of_unlink (hok : f.unlink u v = .ok f') : ∃ found, f.edges.erase u v = .ok (found, f'.edges) := by
  rw [unlink] at hok
  obtain ⟨⟨uv, vu⟩, -, hok⟩ := bind_eq_ok.mp hok
  obtain ⟨⟨found, edges⟩, herase, hok⟩ := bind_eq_ok.mp hok
  obtain ⟨uPrev, -, hok⟩ := bind_eq_ok.mp hok
  obtain ⟨vPrev, -, hok⟩ := bind_eq_ok.mp hok
  obtain ⟨vNext, -, hok⟩ := bind_eq_ok.mp hok
  obtain ⟨uNext, -, hok⟩ := bind_eq_ok.mp hok
  obtain ⟨⟨after, tours₁⟩, -, hok⟩ := bind_eq_ok.mp hok
  obtain ⟨tours, -, hok⟩ := bind_eq_ok.mp hok
  obtain ⟨p, -, hok⟩ := bind_eq_ok.mp hok
  cases hok
  exact ⟨found, herase⟩

section

variable (h : f.edges.Lacks c.1 c.2)
include h

theorem edgeElements_ne_ok (y : Nat × Nat) : f.edgeElements c.1 c.2 ≠ .ok y := by
  rw [edgeElements]
  intro hok
  obtain ⟨x, hx, hok⟩ := bind_eq_ok.mp hok
  cases x with
  | none => cases hok
  | some x => exact h.find?_ne_some x hx

/-- An edge that is not there cannot be removed, and no other cut puts it there. -/
theorem lacks_of_cut (hok : (f.cut u v).outcome = .ok f') : (u, v) ≠ c ∧ f'.edges.Lacks c.1 c.2 := by
  rw [cut, Traced.outcome_bind, Traced.outcome_liftM] at hok
  obtain ⟨found, hfound, hok⟩ := bind_eq_ok.mp hok
  cases found with
  | false => cases hok
  | true =>
    have hunlink : f.unlink u v = .ok f' := by simpa using hok
    obtain ⟨found, herase⟩ := erase_of_unlink hunlink
    refine ⟨?_, h.erase herase⟩
    rintro rfl
    exact h.contains_ne_true hfound

theorem lacks_of_cutTogether (hok : f.cutTogether cuts = .ok f') : c ∉ cuts ∧ f'.edges.Lacks c.1 c.2 := by
  simp only [cutTogether, foldl_setDoomed] at hok
  obtain ⟨elements, helem, hok⟩ := bind_eq_ok.mp hok
  obtain ⟨seams, -, hok⟩ := bind_eq_ok.mp hok
  obtain ⟨⟨after, tours₁⟩, -, hok⟩ := bind_eq_ok.mp hok
  obtain ⟨tours, -, hok⟩ := bind_eq_ok.mp hok
  obtain ⟨edges, hedges, hok⟩ := bind_eq_ok.mp hok
  obtain ⟨pairs, -, hok⟩ := bind_eq_ok.mp hok
  cases hok
  refine ⟨fun hc => ?_, h.eraseEdges hedges⟩
  obtain ⟨y, hy⟩ := exists_ok_of_mapM helem c hc
  exact edgeElements_ne_ok h y hy

end

theorem cutEach_ne_ok (hc : c ∈ cuts) (h : f.edges.Lacks c.1 c.2) (f' : Forest) :
    (f.cutEach cuts).outcome ≠ .ok f' := by
  induction cuts generalizing f with
  | nil => cases hc
  | cons d cuts ih =>
    obtain ⟨u, v⟩ := d
    rw [cutEach, Traced.outcome_bind]
    intro hok
    obtain ⟨f₁, hok₁, hok⟩ := bind_eq_ok.mp hok
    obtain ⟨hne, h₁⟩ := lacks_of_cut h hok₁
    exact ih ((List.mem_cons.mp hc).resolve_left hne.symm) h₁ hok

/-- However many rounds there are, the cut comes up in one of them. -/
theorem cutRounds_ne_ok (hc : c ∈ cuts) (h : f.edges.Lacks c.1 c.2) {rounds : Nat} (f' : Forest) :
    (cutRounds rounds f cuts).outcome ≠ .ok f' := by
  induction rounds generalizing f cuts with
  | zero =>
    rw [cutRounds]
    exact fun hok => by cases hok
  | succ rounds ih =>
    rw [cutRounds]
    split
    · simpa using cutEach_ne_ok hc h f'
    · rcases hpost : postpone f.randomness f.settings.postponeOneIn cuts with ⟨later, now⟩
      have hp := postpone_perm f.randomness f.settings.postponeOneIn cuts
      rw [hpost] at hp
      simp only [Traced.outcome_bind, Traced.outcome_report, Traced.outcome_liftM, ok_bind]
      intro hok
      obtain ⟨f₁, hok₁, hok⟩ := bind_eq_ok.mp hok
      obtain ⟨hnow, h₁⟩ := lacks_of_cutTogether (f := { f with randomness := f.randomness.next }) h hok₁
      exact ih ((List.mem_append.mp (hp.mem_iff.mpr hc)).resolve_left hnow) h₁ hok

/-! ## What ends hit -/

/-- An index has something under the word of two ends only if they hit an edge. -/
theorem Ledger.lacks_iff (h : Ledger n edges free rot E) : edges.Lacks u v ↔ ¬ Hits E u v := by
  constructor
  · rintro hlacks ⟨horder, hE⟩
    obtain ⟨hu, hv, -⟩ := h.lt_of_mem hE
    apply hlacks.contains_ne_true
    rw [← EdgeIndex.contains_crop horder, h.contains_eq hu hv, decide_eq_true hE]
  · refine fun hmiss => ⟨h.indexes.tidy, fun x hx => hmiss ?_⟩
    obtain ⟨a, b, hab, hb, hc, hl⟩ := (h.indexes.holds_iff _ x).mp hx
    obtain ⟨horder, hends⟩ := EdgeIndex.crop_of_code h.few hab hb hc
    exact ⟨horder, hends ▸ (h.rotation.edge_iff a b).mpr ⟨x, hl⟩⟩

/-- Ends that hit an edge are not barred. -/
theorem Ledger.not_barred (h : Ledger n edges free rot E) (hit : Hits E u v) : ¬ (Barred u ∨ Barred v) := by
  obtain ⟨hu, hv, -⟩ := h.lt_of_mem hit.2
  have hn : n < 2 ^ 32 := h.few
  rw [Barred, Barred]
  omega

/-- There is an edge between two ends, and it can be removed under them, exactly if they hit one. -/
structure EndsLaw (f : Forest) (E : Finset (Sym2 Nat)) : Prop where
  hasEdge_eq : ∀ u v, f.hasEdge u v =
    if Barred u ∨ Barred v then .error .halfTooLarge else .ok (decide (Hits E u v))
  hits_narrow : ∀ u < 2 ^ 32, ∀ v < 2 ^ 32, Hits E u v ↔ u < f.vertices ∧ v < f.vertices ∧ s(u, v) ∈ E
  cut_hit : ∀ u v, Hits E u v → (f.cut u v).outcome = (f.cut (crop u) (crop v)).outcome
  cut_missed : ∀ u v, ¬ Hits E u v →
    (f.cut u v).outcome = .error (if Barred u ∨ Barred v then .halfTooLarge else .missingEdge u v)
  cutAll_missed : ∀ cuts, ∀ c ∈ cuts, ¬ Hits E c.1 c.2 → ∀ f', (f.cutAll cuts).outcome ≠ .ok f'

namespace Ledger

variable (h : Ledger f.vertices f.edges f.freePairs rot E)
include h

theorem hasEdge_eq (u v : Nat) : f.hasEdge u v =
    if Barred u ∨ Barred v then .error .halfTooLarge else .ok (decide (Hits E u v)) := by
  by_cases hit : Hits E u v
  · obtain ⟨hu, hv, -⟩ := h.lt_of_mem hit.2
    rw [if_neg (h.not_barred hit), hasEdge, ← EdgeIndex.contains_crop hit.1, h.contains_eq hu hv,
      decide_eq_true hit, decide_eq_true hit.2]
  · rw [hasEdge, (h.lacks_iff.mpr hit).contains_eq, decide_eq_false hit]

/-- An edge that is hit is removed under the ends that hit it. -/
theorem cut_crop (hit : Hits E u v) : (f.cut u v).outcome = (f.cut (crop u) (crop v)).outcome := by
  have helem : f.edgeElements (crop u) (crop v) = f.edgeElements u v := by
    have hfind := h.indexes.find?_eq h.directed (h.rotation.leads_element (c := (crop u, crop v)) hit.2)
    rw [edgeElements, edgeElements, ← EdgeIndex.find?_crop hit.1, hfind]
    rfl
  have hunlink : f.unlink (crop u) (crop v) = f.unlink u v := by
    simp only [Forest.unlink, helem, EdgeIndex.erase_crop hit.1]
  have hhas : f.hasEdge (crop u) (crop v) = f.hasEdge u v := EdgeIndex.contains_crop hit.1
  obtain ⟨hu, hv, -⟩ := h.lt_of_mem hit.2
  simp only [Forest.cut, Traced.outcome_bind, Traced.outcome_liftM, ← hhas, hunlink]
  rw [hasEdge, h.contains_eq hu hv, decide_eq_true hit.2]
  simp

theorem cut_missed (hmiss : ¬ Hits E u v) :
    (f.cut u v).outcome = .error (if Barred u ∨ Barred v then .halfTooLarge else .missingEdge u v) := by
  rw [Forest.cut, Traced.outcome_bind, Traced.outcome_liftM, h.hasEdge_eq, decide_eq_false hmiss]
  split <;> rfl

theorem endsLaw : f.EndsLaw E where
  hasEdge_eq := h.hasEdge_eq
  hits_narrow u hu v hv := by
    rw [hits_of_lt hu hv]
    exact ⟨fun hE => ⟨(h.lt_of_mem hE).1, (h.lt_of_mem hE).2.1, hE⟩, fun hE => hE.2.2⟩
  cut_hit _ _ := h.cut_crop
  cut_missed _ _ := h.cut_missed
  cutAll_missed _ _ hc hmiss f' := cutRounds_ne_ok hc (h.lacks_iff.mpr hmiss) f'

end Ledger

/-- The law of ends holds along all orderly runs, for any number of vertices. -/
theorem endsLaw_of_run (h : OrderlyRun n settings f E) : f.vertices = n ∧ f.EndsLaw E := by
  obtain ⟨hv, rot, ht⟩ := h.toured
  exact ⟨hv, ht.endsLaw⟩

/-- A forest with one edge can be built, and the edge can be cut. -/
theorem exists_forest_of_edge : ∃ f, OrderlyRun 3 {} f {s(1, 2)} ∧ f.settings = {} ∧
    ∃ f', (f.cut 1 2).outcome = .ok f' := by
  obtain ⟨f₀, pools, hok₀, hr₀, hv₀, hs₀⟩ := outcome_build (n := 3) .empty (by decide) {}
  have hsep : ¬ (graph ∅).Reachable 1 2 := not_reachable_empty (by decide)
  rcases hr₀.outcome_link (u := 1) (v := 2) (by omega) (by omega) with
    ⟨hnil, -⟩ | ⟨-, hr, -⟩ | ⟨p, rest, f, -, -, hok, href, -, hsame⟩
  · exact absurd hnil (hr₀.exists_free (by omega) (by omega) hsep)
  · exact absurd hr hsep
  · have hrun : OrderlyRun 3 {} f {s(1, 2)} := .linked (.built hok₀) (by decide) (by decide) hsep hok
    exact ⟨f, hrun, hsame.settings.trans hs₀, (href.outcome_cut (by simp)).imp fun _ hw => hw.1⟩

/-- Where only vertices 1 and 2 are linked, no other ends of 32 bits are. -/
theorem endsLaw_of_one_edge : ∃ f, OrderlyRun 3 {} f {s(1, 2)} ∧ f.hasEdge 2 1 = .ok true ∧
    f.hasEdge 1 5 = .ok false ∧ (f.cut 1 5).outcome = .error (.missingEdge 1 5) ∧
    ∀ f', (f.cutAll [(2, 1), (1, 5)]).outcome ≠ .ok f' := by
  obtain ⟨f, hf, -⟩ := exists_forest_of_edge
  obtain ⟨-, hlaw⟩ := endsLaw_of_run hf
  refine ⟨f, hf, ?_, ?_, ?_, hlaw.cutAll_missed _ (1, 5) (by decide) (by decide)⟩
  · rw [hlaw.hasEdge_eq]
    decide
  · rw [hlaw.hasEdge_eq]
    decide
  · rw [hlaw.cut_missed 1 5 (by decide)]
    rfl

/-- Two ends beyond all vertices are said to be linked, and cutting between them, one by one or in a batch, cuts the
edge between vertices 1 and 2. -/
theorem cut_of_wide_ends : ∃ f f', OrderlyRun 3 {} f {s(1, 2)} ∧
    f.hasEdge (2 ^ 32 + 1) (2 ^ 32 + 2) = .ok true ∧ (f.cut (2 ^ 32 + 1) (2 ^ 32 + 2)).outcome = .ok f' ∧
    (f.cutAll [(2 ^ 32 + 1, 2 ^ 32 + 2)]).outcome = .ok f' ∧ f'.hasEdge 1 2 = .ok false := by
  obtain ⟨f, hf, hs, f', hok⟩ := exists_forest_of_edge
  obtain ⟨-, rot, ht⟩ := hf.toured
  have hit : Hits {s(1, 2)} (2 ^ 32 + 1) (2 ^ 32 + 2) := by decide
  have hcut : (f.cut (2 ^ 32 + 1) (2 ^ 32 + 2)).outcome = .ok f' := (ht.cut_crop hit).trans hok
  refine ⟨f, f', hf, ?_, hcut, ?_, ?_⟩
  · rw [ht.hasEdge_eq]
    decide
  · rw [cutAll, cutRounds, if_pos (by rw [hs]; decide)]
    simp only [cutEach, Traced.outcome_bind, Traced.outcome_report, ok_bind, hcut]
    rfl
  · have hf' : OrderlyRun 3 {} f' (Finset.erase {s(1, 2)} s(1, 2)) := .cut hf (by simp) hok
    obtain ⟨-, rot', ht'⟩ := hf'.toured
    rw [ht'.hasEdge_eq]
    decide

end Forest

end TourForest
