import Mathlib.Data.Finmap
import Mathlib.Data.Sym.Sym2.Order
import TourForest.Proofs.EdgeIndex
import TourForest.Proofs.Forest.Arena

/-!
# The index of edges as a finite map

`Directions` is a finite map from directions to their elements: an edge enters it with one element for each of
its two directions, and leaves it with both. An index of edges `Models` such a map: whatever it is asked, it
gives the answers of the map.

* `Models.answer`, `Models.answerAll`: one request to the index and to the map, and any number of them;
* `Directions.leads_answerAll`, `Directions.notMem_answerAll`: a direction keeps its element until the edge is
  taken out, and has none until the edge is put in;
* `directions_of_requests`: a new index, under all requests.
-/

namespace TourForest.EdgeIndex

variable {e e' : EdgeIndex} {n capacity u v x a b y : Nat}

/-! ## Requests -/

/-- What an index can be asked. -/
inductive Request where
  | insert (u v uv : Nat)
  | find (u v : Nat)
  | contains (u v : Nat)
  | erase (u v : Nat)
  | size
  | edges

/-- What it answers. Edges come in no particular order. -/
inductive Answer where
  | inserted (reply : Except Refusal Bool)
  | found (element : Option Nat)
  | present (found : Bool)
  | size (count : Nat)
  | edges (ends : Multiset (Nat × Nat))

/-- A request is about vertices below `n`. What goes in is an edge with an element of the arena. -/
def Request.Valid (n : Nat) : Request → Prop
  | .insert u v uv => u < n ∧ v < n ∧ u ≠ v ∧ InArena n uv
  | .find u v | .contains u v | .erase u v => u < n ∧ v < n
  | .size | .edges => True

/-- The answer of an index, and the index afterwards. -/
def answer (e : EdgeIndex) : Request → Except Fault (Answer × EdgeIndex)
  | .insert u v uv => do
    let (reply, e) ← e.insert u v uv
    return (.inserted reply, e)
  | .find u v => return (.found (← e.find? u v), e)
  | .contains u v => return (.present (← e.contains u v), e)
  | .erase u v => do
    let (found, e) ← e.erase u v
    return (.present found, e)
  | .size => .ok (.size e.size, e)
  | .edges => .ok (.edges e.edges, e)

/-- The answers of an index to requests one after the other. -/
def answerAll (e : EdgeIndex) : List Request → Except Fault (List Answer × EdgeIndex)
  | [] => .ok ([], e)
  | r :: rest => do
    let (a, e) ← e.answer r
    let (as, e) ← e.answerAll rest
    return (a :: as, e)

theorem answerAll_insert_eq_ok {reply : Except Refusal Bool} {rest : List Request} {as : List Answer}
    (h : e.answerAll (.insert u v x :: rest) = .ok (.inserted reply :: as, e')) :
    ∃ e₁, e.insert u v x = .ok (reply, e₁) ∧ e₁.answerAll rest = .ok (as, e') := by
  obtain ⟨⟨a, e₁⟩, hfirst, h⟩ := bind_eq_ok.mp h
  obtain ⟨⟨bs, e₂⟩, hrest, h⟩ := bind_eq_ok.mp h
  obtain ⟨⟨reply', e₃⟩, hins, hfirst⟩ := bind_eq_ok.mp hfirst
  cases hfirst
  cases h
  exact ⟨e₁, hins, hrest⟩

/-- Requests lead from one index to another. -/
def Reaches (e : EdgeIndex) (requests : List Request) (e' : EdgeIndex) : Prop :=
  ∃ as, e.answerAll requests = .ok (as, e')

/-- The edge between `u` and `v` is there, and `x` is its element from `u` to `v`. -/
structure Present (n : Nat) (e : EdgeIndex) (u v x : Nat) : Prop where
  find_forth : e.find? u v = .ok (some x)
  find_back : e.find? v u = .ok (some (n + ((x - n) ^^^ 1)))
  contains_forth : e.contains u v = .ok true
  contains_back : e.contains v u = .ok true
  insert_forth : ∀ y, InArena n y → e.insert u v y = .ok (.ok false, e)
  insert_back : ∀ y, InArena n y → e.insert v u y = .ok (.ok false, e)

/-- The edge between `u` and `v` is not there. -/
structure Absent (e : EdgeIndex) (u v : Nat) : Prop where
  find_forth : e.find? u v = .ok none
  find_back : e.find? v u = .ok none
  contains_forth : e.contains u v = .ok false
  contains_back : e.contains v u = .ok false

/-! ## The finite map -/

/-- The elements of the directions of the edges that are there. -/
abbrev Directions := Finmap fun _ : Nat × Nat => Nat

namespace Directions

variable {m : Directions} {r : Request}

/-- Element `x` goes from `u` to `v`. -/
def Leads (m : Directions) (u v x : Nat) : Prop := m.lookup (u, v) = some x

/-- The edges, without a direction. -/
def edges (m : Directions) : Finset (Sym2 Nat) := m.keys.image fun d => s(d.1, d.2)

/-- An edge is put in with an element for either direction. -/
def enter (n u v uv : Nat) (m : Directions) : Directions := (m.insert (u, v) uv).insert (v, u) (mate n uv)

/-- An edge is taken out. -/
def strike (u v : Nat) (m : Directions) : Directions := Finmap.erase (v, u) (Finmap.erase (u, v) m)

/-- The answer of a map that takes at most `capacity` edges, and the map afterwards. -/
def answer (n capacity : Nat) (m : Directions) : Request → Answer × Directions
  | .insert u v uv =>
    if (u, v) ∈ m then (.inserted (.ok false), m)
    else if m.edges.card = capacity then (.inserted (.error (.tableFull capacity)), m)
    else (.inserted (.ok true), m.enter n u v uv)
  | .find u v => (.found (m.lookup (u, v)), m)
  | .contains u v => (.present ((u, v) ∈ m), m)
  | .erase u v => (.present ((u, v) ∈ m), m.strike u v)
  | .size => (.size m.edges.card, m)
  | .edges => (.edges (m.edges.val.map fun z => (Sym2.sortEquiv z).val), m)

/-- The answers of a map to requests one after the other. -/
def answerAll (n capacity : Nat) (m : Directions) : List Request → List Answer × Directions
  | [] => ([], m)
  | r :: rest =>
    let (a, m) := m.answer n capacity r
    let (as, m) := m.answerAll n capacity rest
    (a :: as, m)

theorem mem_iff : (u, v) ∈ m ↔ ∃ x, m.Leads u v x := Finmap.mem_iff

theorem not_leads_of_notMem (h : (u, v) ∉ m) (x : Nat) : ¬ m.Leads u v x := fun hx => h (mem_iff.mpr ⟨x, hx⟩)

/-- An edge that is missing in one direction is missing in the other. -/
theorem notMem_swap (h : Directed n m.Leads) (hm : (u, v) ∉ m) : (v, u) ∉ m := by
  rw [mem_iff]
  rintro ⟨x, hx⟩
  exact not_leads_of_notMem hm _ (h.mated v u x hx)

theorem mem_edges {z : Sym2 Nat} : z ∈ m.edges ↔ ∃ u v x, m.Leads u v x ∧ s(u, v) = z := by
  simp only [edges, Finset.mem_image, Finmap.mem_keys, Prod.exists, mem_iff]
  grind

theorem leads_insert : Leads (m.insert (u, v) x) a b y ↔
    if (a, b) = (u, v) then x = y else m.Leads a b y := by
  rw [Leads]
  split
  · next hab => rw [hab, Finmap.lookup_insert, Option.some.injEq]
  · next hab => rw [Finmap.lookup_insert_of_ne m hab, Leads]

/-- What is there once a new edge is in. -/
theorem leads_enter (h : Directed n m.Leads) (huv : u ≠ v) (hm : (u, v) ∉ m) : (m.enter n u v x).Leads a b y ↔
    m.Leads a b y ∨ (a = u ∧ b = v ∧ y = x) ∨ (a = v ∧ b = u ∧ y = mate n x) := by
  have hforth := not_leads_of_notMem hm
  have hback := not_leads_of_notMem (notMem_swap h hm)
  rw [enter, leads_insert, leads_insert]
  grind

theorem leads_erase : Leads (Finmap.erase (u, v) m) a b y ↔ (a, b) ≠ (u, v) ∧ m.Leads a b y := by
  rw [Leads]
  by_cases hab : (a, b) = (u, v)
  · rw [hab, Finmap.lookup_erase]
    simp
  · rw [Finmap.lookup_erase_ne hab]
    exact (and_iff_right hab).symm

/-- What is there once an edge is out. -/
theorem leads_strike : (m.strike u v).Leads a b y ↔
    m.Leads a b y ∧ ¬ (a = u ∧ b = v) ∧ ¬ (a = v ∧ b = u) := by
  rw [strike, leads_erase, leads_erase, ne_eq, ne_eq, Prod.mk.injEq, Prod.mk.injEq]
  tauto

theorem notMem_strike : (u, v) ∉ m.strike u v := by
  rw [mem_iff]
  rintro ⟨x, hx⟩
  exact (leads_strike.mp hx).2.1 ⟨rfl, rfl⟩

/-- The empty map has no edges. -/
theorem leads_empty : ¬ Leads ∅ u v x := by
  simp [Leads]

theorem directed_empty (hn : n < 2 ^ 32) : Directed n (Leads ∅) :=
  ⟨hn, fun _ _ _ h => absurd h leads_empty, fun _ _ _ h => absurd h leads_empty,
    fun _ _ _ _ h => absurd h leads_empty⟩

/-- A new edge goes into both directions. -/
theorem directed_enter (h : Directed n m.Leads) (hr : (Request.insert u v x).Valid n) (hm : (u, v) ∉ m) :
    Directed n (m.enter n u v x).Leads := by
  obtain ⟨hu, hv, huv, hx⟩ := hr
  have hleads {a b y : Nat} : (m.enter n u v x).Leads a b y ↔ _ := leads_enter h huv hm
  refine ⟨h.few, fun a b y hy => ?_, fun a b y hy => ?_, fun a b y z hy hz => ?_⟩
  · rcases hleads.mp hy with hy | ⟨rfl, rfl, rfl⟩ | ⟨rfl, rfl, rfl⟩
    · exact h.range a b y hy
    · exact ⟨hu, hv, huv, hx.le, hx.lt_maxWord h.few⟩
    · exact ⟨hv, hu, huv.symm, hx.mate.le, hx.mate.lt_maxWord h.few⟩
  · rcases hleads.mp hy with hy | ⟨rfl, rfl, rfl⟩ | ⟨rfl, rfl, rfl⟩
    · exact hleads.mpr (.inl (h.mated a b y hy))
    · exact hleads.mpr (.inr (.inr ⟨rfl, rfl, rfl⟩))
    · exact hleads.mpr (.inr (.inl ⟨rfl, rfl, mate_mate n x⟩))
  · exact Option.some.inj (hy.symm.trans hz)

theorem directed_strike (h : Directed n m.Leads) : Directed n (m.strike u v).Leads where
  few := h.few
  range a b y hy := h.range a b y (leads_strike.mp hy).1
  mated a b y hy := by
    obtain ⟨hy, hforth, hback⟩ := leads_strike.mp hy
    exact leads_strike.mpr ⟨h.mated a b y hy, fun hab => hback hab.symm, fun hab => hforth hab.symm⟩
  unique a b y z hy hz := Option.some.inj (hy.symm.trans hz)

/-- Directions stay mated under requests. -/
theorem directed_answer (h : Directed n m.Leads) (hr : r.Valid n) :
    Directed n (m.answer n capacity r).2.Leads := by
  cases r with
  | insert u v x =>
    rw [answer]
    split
    · exact h
    · next hm =>
      split
      · exact h
      · exact directed_enter h hr hm
  | erase u v => exact directed_strike h
  | find | contains | size | edges => exact h

/-- A direction keeps its element under a request that does not take the edge out. -/
theorem leads_answer (h : Directed n m.Leads) (hr : r.Valid n) (hforth : r ≠ .erase u v) (hback : r ≠ .erase v u)
    (hx : m.Leads u v x) : (m.answer n capacity r).2.Leads u v x := by
  cases r with
  | insert a b y =>
    rw [answer]
    split
    · exact hx
    · next hm =>
      split
      · exact hx
      · exact (leads_enter h hr.2.2.1 hm).mpr (.inl hx)
  | erase a b =>
    refine leads_strike.mpr ⟨hx, ?_, ?_⟩
    · rintro ⟨rfl, rfl⟩
      exact hforth rfl
    · rintro ⟨rfl, rfl⟩
      exact hback rfl
  | find | contains | size | edges => exact hx

/-- An edge stays away under a request that does not put it in. -/
theorem notMem_answer (h : Directed n m.Leads) (hr : r.Valid n) (hforth : ∀ x, r ≠ .insert u v x)
    (hback : ∀ x, r ≠ .insert v u x) (hm : (u, v) ∉ m) : (u, v) ∉ (m.answer n capacity r).2 := by
  cases r with
  | insert a b y =>
    rw [answer]
    split
    · exact hm
    · next hab =>
      split
      · exact hm
      · rw [mem_iff]
        rintro ⟨x, hx⟩
        rcases (leads_enter h hr.2.2.1 hab).mp hx with hx | ⟨rfl, rfl, -⟩ | ⟨rfl, rfl, -⟩
        · exact not_leads_of_notMem hm x hx
        · exact hforth y rfl
        · exact hback y rfl
  | erase a b =>
    rw [mem_iff]
    rintro ⟨x, hx⟩
    exact not_leads_of_notMem hm x (leads_strike.mp hx).1
  | find | contains | size | edges => exact hm

variable {requests : List Request}

/-- A direction keeps its element until the edge is taken out. -/
theorem leads_answerAll (hr : ∀ r ∈ requests, r.Valid n) (hforth : .erase u v ∉ requests)
    (hback : .erase v u ∉ requests) (h : Directed n m.Leads) (hx : m.Leads u v x) :
    (m.answerAll n capacity requests).2.Leads u v x := by
  induction requests generalizing m with
  | nil => exact hx
  | cons r requests ih =>
    obtain ⟨hr, hrs⟩ := List.forall_mem_cons.mp hr
    obtain ⟨hr₁, hforth⟩ := List.ne_and_not_mem_of_not_mem_cons hforth
    obtain ⟨hr₂, hback⟩ := List.ne_and_not_mem_of_not_mem_cons hback
    exact ih hrs hforth hback (directed_answer h hr) (leads_answer h hr hr₁.symm hr₂.symm hx)

/-- An edge stays away until it is put in. -/
theorem notMem_answerAll (hr : ∀ r ∈ requests, r.Valid n)
    (hno : ∀ x, .insert u v x ∉ requests ∧ .insert v u x ∉ requests) (h : Directed n m.Leads) (hm : (u, v) ∉ m) :
    (u, v) ∉ (m.answerAll n capacity requests).2 := by
  induction requests generalizing m with
  | nil => exact hm
  | cons r requests ih =>
    obtain ⟨hr, hrs⟩ := List.forall_mem_cons.mp hr
    simp only [List.mem_cons, not_or] at hno
    have hm' : (u, v) ∉ (m.answer n capacity r).2 :=
      notMem_answer h hr (fun x hx => (hno x).1.1 hx.symm) (fun x hx => (hno x).2.1 hx.symm) hm
    exact ih hrs (fun x => ⟨(hno x).1.2, (hno x).2.2⟩) (directed_answer h hr) hm'

end Directions

/-! ## An index and its map -/

/-- The index holds the elements of a map and has `capacity` slots. -/
structure Models (n capacity : Nat) (e : EdgeIndex) (m : Directions) : Prop where
  indexes : e.Indexes n m.Leads
  directed : Directed n m.Leads
  capacity_eq : e.table.capacity = capacity

namespace Models

variable {m : Directions} {r : Request}

/-- The index lists the edges of the map, with the smaller end first. -/
theorem edges_eq (h : Models n capacity e m) :
    (e.edges : Multiset (Nat × Nat)) = m.edges.val.map fun z => (Sym2.sortEquiv z).val := by
  refine (Multiset.Nodup.ext ?_ (Multiset.Nodup.map ?_ m.edges.nodup)).mpr fun ⟨a, b⟩ => ?_
  · exact Multiset.coe_nodup.mpr (h.indexes.nodup_edges h.directed)
  · exact Subtype.val_injective.comp Sym2.sortEquiv.injective
  · rw [Multiset.mem_coe, h.indexes.mem_edges h.directed, Multiset.mem_map]
    constructor
    · rintro ⟨hab, x, hx⟩
      refine ⟨s(a, b), Directions.mem_edges.mpr ⟨a, b, x, hx, rfl⟩, ?_⟩
      exact congrArg Subtype.val (Sym2.sortEquiv.apply_symm_apply ⟨(a, b), hab.le⟩)
    · rintro ⟨z, hz, heq⟩
      obtain ⟨u, v, x, hx, rfl⟩ := Directions.mem_edges.mp hz
      obtain ⟨-, -, huv, -⟩ := h.directed.range u v x hx
      have hle := (Sym2.sortEquiv s(u, v)).property
      have hends := Sym2.sortEquiv.symm_apply_apply s(u, v)
      rw [heq] at hle
      rw [Sym2.sortEquiv_symm_apply, heq] at hends
      rcases Sym2.eq_iff.mp hends with ⟨rfl, rfl⟩ | ⟨rfl, rfl⟩
      · exact ⟨Nat.lt_of_le_of_ne hle huv, x, hx⟩
      · exact ⟨Nat.lt_of_le_of_ne hle huv.symm, _, h.directed.mated _ _ x hx⟩

theorem size_eq (h : Models n capacity e m) : e.size = m.edges.card := by
  rw [← h.indexes.length_edges, ← Multiset.coe_card, h.edges_eq, Multiset.card_map]
  rfl

/-- The index finds what the map has. -/
theorem find?_eq (h : Models n capacity e m) (hu : u < n) (hv : v < n) :
    e.find? u v = .ok (m.lookup (u, v)) := by
  cases hl : m.lookup (u, v) with
  | some x => exact h.indexes.find?_eq h.directed hl
  | none =>
    refine h.indexes.find?_eq_none h.directed hu hv fun x hx => ?_
    rw [Directions.Leads, hl] at hx
    cases hx

theorem contains_eq (h : Models n capacity e m) (hu : u < n) (hv : v < n) :
    e.contains u v = .ok (decide ((u, v) ∈ m)) := by
  by_cases hm : (u, v) ∈ m
  · obtain ⟨x, hx⟩ := Directions.mem_iff.mp hm
    rw [h.indexes.contains_eq_true h.directed hx, decide_eq_true hm]
  · rw [h.indexes.contains_eq_false h.directed hu hv (Directions.not_leads_of_notMem hm), decide_eq_false hm]

/-- An edge that is there is found in both directions, and does not go in again. -/
theorem present (h : Models n capacity e m) (hx : m.Leads u v x) : Present n e u v x := by
  have hback := h.directed.mated u v x hx
  obtain ⟨-, -, -, hle, -⟩ := h.directed.range u v x hx
  have hmate : mate n x = n + ((x - n) ^^^ 1) := if_neg (not_lt.mpr hle)
  exact {
    find_forth := h.indexes.find?_eq h.directed hx
    find_back := hmate ▸ h.indexes.find?_eq h.directed hback
    contains_forth := h.indexes.contains_eq_true h.directed hx
    contains_back := h.indexes.contains_eq_true h.directed hback
    insert_forth := fun y hy => h.indexes.insert_present h.directed hx hy.le (hy.lt_maxWord h.directed.few)
    insert_back := fun y hy => h.indexes.insert_present h.directed hback hy.le (hy.lt_maxWord h.directed.few) }

/-- An edge that is not there is found in neither direction. -/
theorem absent (h : Models n capacity e m) (hu : u < n) (hv : v < n) (hm : (u, v) ∉ m) : Absent e u v := by
  have hm' := Directions.notMem_swap h.directed hm
  exact {
    find_forth := h.indexes.find?_eq_none h.directed hu hv (Directions.not_leads_of_notMem hm)
    find_back := h.indexes.find?_eq_none h.directed hv hu (Directions.not_leads_of_notMem hm')
    contains_forth := h.indexes.contains_eq_false h.directed hu hv (Directions.not_leads_of_notMem hm)
    contains_back := h.indexes.contains_eq_false h.directed hv hu (Directions.not_leads_of_notMem hm') }

/-- An edge goes in unless it is there or the index is full. -/
theorem insert (h : Models n capacity e m) (hr : (Request.insert u v x).Valid n) :
    ∃ e', e.answer (.insert u v x) = .ok ((m.answer n capacity (.insert u v x)).1, e') ∧
      Models n capacity e' (m.answer n capacity (.insert u v x)).2 := by
  have hdirected : Directed n (m.answer n capacity (.insert u v x)).2.Leads :=
    Directions.directed_answer h.directed hr
  obtain ⟨hu, hv, huv, hx⟩ := hr
  have hword : x < maxWord := hx.lt_maxWord h.directed.few
  rw [answer]
  rw [Directions.answer] at hdirected ⊢
  split_ifs at hdirected ⊢ with hm hfull
  · obtain ⟨y, hy⟩ := Directions.mem_iff.mp hm
    rw [h.indexes.insert_present h.directed hy hx.le hword]
    exact ⟨e, rfl, h⟩
  · rw [h.indexes.insert_full h.directed hu hv (Directions.not_leads_of_notMem hm) hx.le hword
      (h.size_eq.trans (hfull.trans h.capacity_eq.symm)), h.capacity_eq]
    exact ⟨e, rfl, h⟩
  · have hroom : e.size < e.table.capacity := by
      have hle := WordTable.length_entries_le e.table.words
      rw [h.indexes.tidy.size_eq] at hle
      exact Nat.lt_of_le_of_ne hle fun heq => hfull (h.size_eq.symm.trans (heq.trans h.capacity_eq))
    obtain ⟨e', hok, hindexes, hcapacity, -⟩ := h.indexes.insert_new h.directed hdirected
      (fun a b y => Directions.leads_enter h.directed huv hm) (Directions.not_leads_of_notMem hm) hroom
    rw [hok]
    exact ⟨e', rfl, hindexes, hdirected, hcapacity.trans h.capacity_eq⟩

/-- An edge goes out if it is there. -/
theorem erase (h : Models n capacity e m) (hu : u < n) (hv : v < n) :
    ∃ e', e.erase u v = .ok (decide ((u, v) ∈ m), e') ∧ Models n capacity e' (m.strike u v) := by
  have hdirected := Directions.directed_strike (u := u) (v := v) h.directed
  by_cases hm : (u, v) ∈ m
  · obtain ⟨x, hx⟩ := Directions.mem_iff.mp hm
    obtain ⟨e', hok, hindexes, hcapacity, -⟩ :=
      h.indexes.erase h.directed (fun a b y => Directions.leads_strike) hx
    exact ⟨e', by rw [hok, decide_eq_true hm], hindexes, hdirected, hcapacity.trans h.capacity_eq⟩
  · have hsame : (m.strike u v).Leads = m.Leads := by
      funext a b y
      have hforth := Directions.not_leads_of_notMem hm
      have hback := Directions.not_leads_of_notMem (Directions.notMem_swap h.directed hm)
      rw [Directions.leads_strike]
      grind
    refine ⟨e, ?_, hsame ▸ h.indexes, hdirected, h.capacity_eq⟩
    rw [h.indexes.erase_absent h.directed hu hv (Directions.not_leads_of_notMem hm), decide_eq_false hm]

/-- An index that models a map gives its answers, and models the map afterwards. -/
theorem answer (h : Models n capacity e m) (hr : r.Valid n) :
    ∃ e', e.answer r = .ok ((m.answer n capacity r).1, e') ∧ Models n capacity e' (m.answer n capacity r).2 := by
  cases r with
  | insert u v x => exact h.insert hr
  | find u v => exact ⟨e, by rw [EdgeIndex.answer, h.find?_eq hr.1 hr.2]; rfl, h⟩
  | contains u v => exact ⟨e, by rw [EdgeIndex.answer, h.contains_eq hr.1 hr.2]; rfl, h⟩
  | erase u v =>
    obtain ⟨e', hok, h'⟩ := h.erase hr.1 hr.2
    exact ⟨e', by rw [EdgeIndex.answer, hok]; rfl, h'⟩
  | size => exact ⟨e, by rw [EdgeIndex.answer, h.size_eq]; rfl, h⟩
  | edges => exact ⟨e, by rw [EdgeIndex.answer, h.edges_eq]; rfl, h⟩

/-- Any number of requests. -/
theorem answerAll {requests : List Request} (hr : ∀ r ∈ requests, r.Valid n) (h : Models n capacity e m) :
    ∃ e', e.answerAll requests = .ok ((m.answerAll n capacity requests).1, e') ∧
      Models n capacity e' (m.answerAll n capacity requests).2 := by
  induction requests generalizing e m with
  | nil => exact ⟨e, rfl, h⟩
  | cons r requests ih =>
    obtain ⟨hr, hrs⟩ := List.forall_mem_cons.mp hr
    obtain ⟨e₁, hok₁, h₁⟩ := h.answer hr
    obtain ⟨e₂, hok₂, h₂⟩ := ih hrs h₁
    refine ⟨e₂, ?_, h₂⟩
    simp only [EdgeIndex.answerAll, hok₁, ok_bind, hok₂]
    rfl

theorem reaches {requests : List Request} (h : Models n capacity e m) (hr : ∀ r ∈ requests, r.Valid n)
    (hreach : e.Reaches requests e') : Models n capacity e' (m.answerAll n capacity requests).2 := by
  obtain ⟨as, hok⟩ := hreach
  obtain ⟨e₁, hok₁, h₁⟩ := h.answerAll hr
  obtain ⟨-, rfl⟩ := Prod.mk.inj (Except.ok.inj (hok.symm.trans hok₁))
  exact h₁

/-- An edge that was new is in the map. -/
theorem of_insert (h : Models n capacity e m) (hr : (Request.insert u v x).Valid n)
    (hok : e.insert u v x = .ok (.ok true, e')) :
    Models n capacity e' (m.enter n u v x) ∧ (m.enter n u v x).Leads u v x := by
  obtain ⟨e₁, hok₁, h₁⟩ := h.insert hr
  simp only [EdgeIndex.answer, hok, ok_bind, pure_eq_ok, Except.ok.injEq, Prod.mk.injEq] at hok₁
  obtain ⟨hans, rfl⟩ := hok₁
  rw [Directions.answer] at hans h₁
  split_ifs at hans h₁ with hm hfull
  · cases hans
  · cases hans
  · exact ⟨h₁, (Directions.leads_enter h.directed hr.2.2.1 hm).mpr (.inr (.inl ⟨rfl, rfl, rfl⟩))⟩

theorem of_erase {found : Bool} (h : Models n capacity e m) (hu : u < n) (hv : v < n)
    (hok : e.erase u v = .ok (found, e')) : Models n capacity e' (m.strike u v) := by
  obtain ⟨e₁, hok₁, h₁⟩ := h.erase hu hv
  obtain ⟨-, rfl⟩ := Prod.mk.inj (Except.ok.inj (hok.symm.trans hok₁))
  exact h₁

end Models

/-! ## A new index -/

/-- A new index models the empty map. -/
theorem models_forVertices (hn : n < 2 ^ 32) :
    ∃ e, forVertices n = .ok e ∧ WordTable.capacityFor (2 * (n - 1)) = .ok e.table.capacity ∧
      Models n e.table.capacity e ∅ := by
  obtain ⟨e, hnew, hindexes, -⟩ := forVertices_eq hn
  have hempty : Directions.Leads ∅ = fun _ _ _ => False := by
    funext u v x
    exact eq_false Directions.leads_empty
  exact ⟨e, hnew, capacityFor_of_forVertices hn hnew, hempty ▸ hindexes, Directions.directed_empty hn, rfl⟩

/-- From a new index on, all answers are those of a map that starts empty and takes as many edges as the index
has slots, so each edge counts once and is listed once, with the smaller end first. A new edge is there in both
directions until it is taken out. An edge that was never put in, or was taken out, is in neither. -/
theorem directions_of_requests (hn : n < 2 ^ 32) :
    ∃ e, forVertices n = .ok e ∧ WordTable.capacityFor (2 * (n - 1)) = .ok e.table.capacity ∧
      (∀ requests : List Request, (∀ r ∈ requests, r.Valid n) →
        ∃ e', e.answerAll requests = .ok (((∅ : Directions).answerAll n e.table.capacity requests).1, e')) ∧
      ∀ (before after : List Request) (e₁ e₂ e₃ : EdgeIndex) (u v : Nat),
        (∀ r ∈ before ++ after, r.Valid n) → u < n → v < n → u ≠ v → e.Reaches before e₁ →
        ((∀ x, .insert u v x ∉ before ∧ .insert v u x ∉ before) → e₁.Absent u v) ∧
        (∀ x, InArena n x → e₁.insert u v x = .ok (.ok true, e₂) → e₂.Reaches after e₃ →
          .erase u v ∉ after → .erase v u ∉ after → e₃.Present n u v x) ∧
        (∀ found, e₁.erase u v = .ok (found, e₂) → e₂.Reaches after e₃ →
          (∀ x, .insert u v x ∉ after ∧ .insert v u x ∉ after) → e₃.Absent u v) := by
  obtain ⟨e, hnew, hcapacity, h⟩ := models_forVertices hn
  refine ⟨e, hnew, hcapacity, fun requests hr => (h.answerAll hr).imp fun e' h' => h'.1, ?_⟩
  intro before after e₁ e₂ e₃ u v hr hu hv huv hbefore
  obtain ⟨hr₁, hr₂⟩ := List.forall_mem_append.mp hr
  have h₁ := h.reaches hr₁ hbefore
  refine ⟨fun hno => ?_, fun x hx hins hafter hforth hback => ?_, fun found her hafter hno => ?_⟩
  · refine h₁.absent hu hv (Directions.notMem_answerAll hr₁ hno h.directed ?_)
    exact Finmap.notMem_empty
  · obtain ⟨h₂, hleads⟩ := h₁.of_insert ⟨hu, hv, huv, hx⟩ hins
    exact (h₂.reaches hr₂ hafter).present (Directions.leads_answerAll hr₂ hforth hback h₂.directed hleads)
  · have h₂ := h₁.of_erase hu hv her
    exact (h₂.reaches hr₂ hafter).absent hu hv
      (Directions.notMem_answerAll hr₂ hno h₂.directed Directions.notMem_strike)

/-- An edge that goes in backwards has its elements the right way round, while another one comes and goes. -/
theorem directions_of_two_edges : ∃ e e₁ e₂, forVertices 5 = .ok e ∧ e.Absent 3 1 ∧
    e.insert 3 1 6 = .ok (.ok true, e₁) ∧
    e₁.answerAll [.find 1 3, .find 3 1, .insert 1 3 5, .insert 2 4 7, .edges, .size, .erase 4 2, .find 2 4] =
      .ok ([.found (some 5), .found (some 6), .inserted (.ok false), .inserted (.ok true), .edges {(2, 4), (1, 3)},
        .size 2, .present true, .found none], e₂) ∧
    e₂.Present 5 3 1 6 := by
  obtain ⟨e, hnew, hcapacity, hrun, hedge⟩ := directions_of_requests (n := 5) (by decide)
  have h128 : e.table.capacity = 128 := (Except.ok.inj hcapacity).symm
  have harena (x : Nat) (hle : 5 ≤ x) (hlt : x < 13) : InArena 5 x := ⟨hle, hlt⟩
  obtain ⟨e₂, hok⟩ := hrun [.insert 3 1 6, .find 1 3, .find 3 1, .insert 1 3 5, .insert 2 4 7, .edges, .size,
    .erase 4 2, .find 2 4] (by simp [Request.Valid, harena])
  rw [h128] at hok
  obtain ⟨e₁, hins, hrest⟩ := answerAll_insert_eq_ok hok
  refine ⟨e, e₁, e₂, hnew, ?_, hins, hrest, ?_⟩
  · exact (hedge [] [] e e e 3 1 (by simp) (by decide) (by decide) (by decide) ⟨_, rfl⟩).1 (by simp)
  · exact (hedge [] _ e e₁ e₂ 3 1 (by simp [Request.Valid, harena]) (by decide) (by decide) (by decide)
      ⟨_, rfl⟩).2.1 6 (harena 6 (by decide) (by decide)) hins ⟨_, hrest⟩ (by simp) (by simp)

end TourForest.EdgeIndex
