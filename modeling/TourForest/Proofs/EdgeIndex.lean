import TourForest.EdgeIndex
import TourForest.Proofs.KeyTable
import TourForest.Proofs.Twin

/-!
# The index of edges

Both directions of an edge have one code, and different edges have different ones as long as there are
fewer vertices than 32-bit numbers. An index `Indexes` a relation `R`, where `R u v x` says that element
`x` goes from `u` to `v`, if it holds the elements of the directions from smaller to larger ends:

* `Indexes.find?_eq`: the index finds the element of a direction;
* `Indexes.insert_new`, `Indexes.erase`: an edge goes in and out;
* `Indexes.insert_present`, `Indexes.insert_full`, `Indexes.erase_absent`: an edge does not go in or out;
* `Indexes.mem_edges`, `Indexes.nodup_edges`: each edge is listed once;
* `Indexes.find?_congr`, `Indexes.entries_perm`: the layout of the index does not matter.
-/

namespace TourForest.EdgeIndex

variable {e e' : EdgeIndex} {n u v u' v' x y : Nat} {R R' : Nat → Nat → Nat → Prop}

/-! ## Codes -/

/-- The word of an edge. -/
def code (u v : Nat) : UInt64 := WordKey.pack (min u v).toUInt32 (max u v).toUInt32

theorem code_comm (u v : Nat) : code u v = code v u := by
  rw [code, code, min_comm, max_comm]

theorem toWord_key (hn : n < 2 ^ 32) (hu : u < n) (hv : v < n) :
    WordKey.toWord (key u v) = .ok (code u v) := by
  have hne (a : Nat) (ha : a < n) : a.toUInt32 ≠ WordKey.maxHalf := by
    intro h
    have := congrArg UInt32.toNat h
    rw [Nat.toUInt32, UInt32.toNat_ofNat', Nat.mod_eq_of_lt (by omega)] at this
    have hmax : WordKey.maxHalf.toNat = 2 ^ 32 - 1 := rfl
    omega
  exact if_neg (not_or.mpr ⟨hne _ (by omega), hne _ (by omega)⟩)

/-- The key of the word of an edge has the ends of the edge. -/
theorem ofWord_code (hn : n < 2 ^ 32) (huv : u ≤ v) (hv : v < n) :
    (WordKey.ofWord (code u v) : UInt32 × UInt32) = (u.toUInt32, v.toUInt32) ∧ u.toUInt32.toNat = u ∧
      v.toUInt32.toNat = v := by
  rw [code, WordKey.ofWord_pack, min_eq_left huv, max_eq_right huv]
  simp only [Nat.toUInt32, UInt32.toNat_ofNat', true_and]
  exact ⟨Nat.mod_eq_of_lt (by omega), Nat.mod_eq_of_lt (by omega)⟩

theorem code_inj (hn : n < 2 ^ 32) (huv : u ≤ v) (hv : v < n) (huv' : u' ≤ v') (hv' : v' < n)
    (h : code u v = code u' v') : u = u' ∧ v = v' := by
  obtain ⟨hc, hu₁, hv₁⟩ := ofWord_code hn huv hv
  obtain ⟨hc', hu₂, hv₂⟩ := ofWord_code hn huv' hv'
  rw [h, hc', Prod.mk.injEq] at hc
  rw [← hu₁, ← hv₁, ← hu₂, ← hv₂, hc.1, hc.2]
  exact ⟨rfl, rfl⟩

/-! ## What an index holds -/

/-- Each direction of an edge between vertices below `n` has one element, the mate of the other one. -/
structure Directed (n : Nat) (R : Nat → Nat → Nat → Prop) : Prop where
  few : n < 2 ^ 32
  range : ∀ u v x, R u v x → u < n ∧ v < n ∧ u ≠ v ∧ n ≤ x ∧ x < maxWord
  mated : ∀ u v x, R u v x → R v u (mate n x)
  unique : ∀ u v x y, R u v x → R u v y → x = y

/-- The index holds the elements of all directions from smaller to larger ends. -/
structure Indexes (e : EdgeIndex) (n : Nat) (R : Nat → Nat → Nat → Prop) : Prop where
  tidy : e.table.words.Tidy
  vertices : e.vertices = n
  room : 2 * (n - 1) < e.table.words.capacity
  holds_iff : ∀ w x, e.table.words.Holds w x ↔ ∃ u v, u < v ∧ v < n ∧ w = code u v ∧ R u v x

namespace Indexes

theorem holds_code (h : e.Indexes n R) (hR : Directed n R) (huv : u ≤ v) (hv : v < n) :
    e.table.words.Holds (code u v) x ↔ R u v x := by
  have hn : n < 2 ^ 32 := hR.few
  rw [h.holds_iff]
  constructor
  · rintro ⟨a, b, hab, hb, hc, hx⟩
    obtain ⟨rfl, rfl⟩ := code_inj hn huv hv hab.le hb hc
    exact hx
  · intro hx
    exact ⟨u, v, Nat.lt_of_le_of_ne huv (hR.range u v x hx).2.2.1, hv, rfl, hx⟩

theorem orient_eq (h : e.Indexes n R) (hle : n ≤ y) (hlt : y < maxWord) :
    e.orient u v y = .ok (if u < v then y else mate n y) := by
  rw [orient, h.vertices, twin_eq hle hlt]
  split <;> rfl

theorem orient_stored (h : e.Indexes n R) (hR : Directed n R) (hx : R u v x) :
    e.orient u v (if u < v then x else mate n x) = .ok x := by
  rw [orient]
  split
  · rfl
  · obtain ⟨-, -, -, hle, hlt⟩ := hR.range v u _ (hR.mated u v x hx)
    rw [h.vertices, twin_eq hle hlt, mate_mate]

/-- What is stored for a direction. -/
theorem stored (h : e.Indexes n R) (hR : Directed n R) (hx : R u v x) :
    e.table.words.Holds (code u v) (if u < v then x else mate n x) := by
  obtain ⟨hu, hv, hne, -⟩ := hR.range u v x hx
  split
  · next huv => exact (h.holds_code hR huv.le hv).mpr hx
  · next huv =>
    rw [code_comm]
    exact (h.holds_code hR (not_lt.mp huv) hu).mpr (hR.mated u v x hx)

theorem not_holds (h : e.Indexes n R) (hR : Directed n R) (hu : u < n) (hv : v < n) (hx : ∀ x, ¬ R u v x)
    (y : Nat) : ¬ e.table.words.Holds (code u v) y := by
  rcases Nat.le_total u v with huv | huv
  · rw [h.holds_code hR huv hv]
    exact hx y
  · rw [code_comm, h.holds_code hR huv hu]
    exact fun hy => hx _ (hR.mated v u y hy)

theorem toWord (hR : Directed n R) (hu : u < n) (hv : v < n) :
    WordKey.toWord (key u v) = .ok (code u v) := toWord_key (hR.few) hu hv

/-- The index finds the element of a direction. -/
theorem find?_eq (h : e.Indexes n R) (hR : Directed n R) (hx : R u v x) : e.find? u v = .ok (some x) := by
  obtain ⟨hu, hv, -⟩ := hR.range u v x hx
  rw [EdgeIndex.find?, KeyTable.find?, toWord hR hu hv, ok_bind,
    h.tidy.find?_eq_some_iff.mpr (h.stored hR hx), pure_eq_ok, ok_bind]
  simp only [h.orient_stored hR hx, ok_bind, pure_eq_ok]

theorem find?_eq_none (h : e.Indexes n R) (hR : Directed n R) (hu : u < n) (hv : v < n)
    (hx : ∀ x, ¬ R u v x) : e.find? u v = .ok none := by
  rw [EdgeIndex.find?, KeyTable.find?, toWord hR hu hv, ok_bind,
    h.tidy.find?_eq_none_iff.mpr (h.not_holds hR hu hv hx)]
  rfl

theorem contains_eq_true (h : e.Indexes n R) (hR : Directed n R) (hx : R u v x) :
    e.contains u v = .ok true := by
  obtain ⟨hu, hv, -⟩ := hR.range u v x hx
  rw [contains, KeyTable.contains, toWord hR hu hv, ok_bind, WordTable.contains,
    h.tidy.find?_eq_some_iff.mpr (h.stored hR hx)]
  rfl

theorem contains_eq_false (h : e.Indexes n R) (hR : Directed n R) (hu : u < n) (hv : v < n)
    (hx : ∀ x, ¬ R u v x) : e.contains u v = .ok false := by
  rw [contains, KeyTable.contains, toWord hR hu hv, ok_bind, WordTable.contains,
    h.tidy.find?_eq_none_iff.mpr (h.not_holds hR hu hv hx)]
  rfl

/-! ## Changes -/

/-- A new edge goes in. -/
theorem insert_new (h : e.Indexes n R) (hR : Directed n R) (hR' : Directed n R')
    (hadd : ∀ a b y, R' a b y ↔
      R a b y ∨ (a = u ∧ b = v ∧ y = x) ∨ (a = v ∧ b = u ∧ y = mate n x))
    (hx : ∀ y, ¬ R u v y) (hs : e.size < e.table.capacity) :
    ∃ e', e.insert u v x = .ok (.ok true, e') ∧ e'.Indexes n R' ∧ e'.table.capacity = e.table.capacity ∧
      e'.size = e.size + 1 := by
  have hnew : R' u v x := (hadd u v x).mpr (.inr (.inl ⟨rfl, rfl, rfl⟩))
  obtain ⟨hu, hv, hne, hle, hlt⟩ := hR'.range u v x hnew
  obtain ⟨t, ht, htidy, hcap, hsize, hholds⟩ :=
    h.tidy.insert_new (v := if u < v then x else mate n x) (h.not_holds hR hu hv hx) hs
  refine ⟨{ e with table := ⟨t⟩ }, ?_, ⟨htidy, h.vertices, hcap ▸ h.room, fun w y => ?_⟩, hcap, hsize⟩
  · rw [insert, h.orient_eq hle hlt, ok_bind, KeyTable.insert, toWord hR hu hv, ok_bind, ht]
    rfl
  · rw [hholds, h.holds_iff]
    constructor
    · rintro (⟨rfl, rfl⟩ | ⟨a, b, hab, hb, rfl, hy⟩)
      · split
        · next huv => exact ⟨u, v, huv, hv, rfl, hnew⟩
        · next huv =>
          exact ⟨v, u, Nat.lt_of_le_of_ne (not_lt.mp huv) hne.symm, hu, code_comm u v, hR'.mated u v x hnew⟩
      · exact ⟨a, b, hab, hb, rfl, (hadd a b y).mpr (.inl hy)⟩
    · rintro ⟨a, b, hab, hb, rfl, hy⟩
      rcases (hadd a b y).mp hy with hy | ⟨rfl, rfl, rfl⟩ | ⟨rfl, rfl, rfl⟩
      · exact .inr ⟨a, b, hab, hb, rfl, hy⟩
      · exact .inl ⟨rfl, (if_pos hab).symm⟩
      · exact .inl ⟨code_comm a b, (if_neg (not_lt.mpr hab.le)).symm⟩

/-- An edge that is there cannot go in again. -/
theorem insert_present (h : e.Indexes n R) (hR : Directed n R) (hx : R u v x) (hle : n ≤ y)
    (hlt : y < maxWord) : e.insert u v y = .ok (.ok false, e) := by
  obtain ⟨hu, hv, -⟩ := hR.range u v x hx
  rw [insert, h.orient_eq hle hlt, ok_bind, KeyTable.insert, toWord hR hu hv, ok_bind,
    h.tidy.insert_held (h.stored hR hx)]
  rfl

/-- A new edge cannot go into an index that holds as many as it has slots. -/
theorem insert_full (h : e.Indexes n R) (hR : Directed n R) (hu : u < n) (hv : v < n) (hx : ∀ x, ¬ R u v x)
    (hle : n ≤ y) (hlt : y < maxWord) (hs : e.size = e.table.capacity) :
    e.insert u v y = .ok (.error (.tableFull e.table.capacity), e) := by
  rw [insert, h.orient_eq hle hlt, ok_bind, KeyTable.insert, toWord hR hu hv, ok_bind,
    h.tidy.insert_full (h.not_holds hR hu hv hx) hs]
  rfl

/-- An edge goes out. -/
theorem erase (h : e.Indexes n R) (hR : Directed n R)
    (hdel : ∀ a b y, R' a b y ↔ R a b y ∧ ¬ (a = u ∧ b = v) ∧ ¬ (a = v ∧ b = u)) (hx : R u v x) :
    ∃ e', e.erase u v = .ok (true, e') ∧ e'.Indexes n R' ∧ e'.table.capacity = e.table.capacity ∧
      e'.size + 1 = e.size := by
  obtain ⟨hu, hv, hne, -⟩ := hR.range u v x hx
  have hn : n < 2 ^ 32 := hR.few
  obtain ⟨t, ht, htidy, hcap, hsize, hholds⟩ := h.tidy.erase_held (h.stored hR hx)
  refine ⟨{ e with table := ⟨t⟩ }, ?_, ⟨htidy, h.vertices, hcap ▸ h.room, fun w y => ?_⟩, hcap, hsize⟩
  · rw [EdgeIndex.erase, KeyTable.erase, toWord hR hu hv, ok_bind, ht]
    rfl
  · rw [hholds, h.holds_iff]
    constructor
    · rintro ⟨hw, a, b, hab, hb, rfl, hy⟩
      refine ⟨a, b, hab, hb, rfl, (hdel a b y).mpr ⟨hy, ?_, ?_⟩⟩
      · rintro ⟨rfl, rfl⟩
        exact hw rfl
      · rintro ⟨rfl, rfl⟩
        exact hw (code_comm a b)
    · rintro ⟨a, b, hab, hb, rfl, hy⟩
      obtain ⟨hy, huv, hvu⟩ := (hdel a b y).mp hy
      refine ⟨fun hc => ?_, a, b, hab, hb, rfl, hy⟩
      rcases Nat.lt_or_ge u v with hlt | hge
      · exact huv (code_inj hn hab.le hb hlt.le hv hc)
      · rw [code_comm u v] at hc
        exact hvu (code_inj hn hab.le hb hge hu hc)

/-- An edge that is not there cannot go out. -/
theorem erase_absent (h : e.Indexes n R) (hR : Directed n R) (hu : u < n) (hv : v < n) (hx : ∀ x, ¬ R u v x) :
    e.erase u v = .ok (false, e) := by
  rw [EdgeIndex.erase, KeyTable.erase, toWord hR hu hv, ok_bind, h.tidy.erase_absent (h.not_holds hR hu hv hx)]
  rfl

/-! ## Listing -/

theorem edges_eq (e : EdgeIndex) :
    e.edges = e.table.words.entries.map fun x =>
      ((WordKey.ofWord x.1 : UInt32 × UInt32).1.toNat, (WordKey.ofWord x.1 : UInt32 × UInt32).2.toNat) := by
  rw [edges, KeyTable.entries, List.map_map]
  rfl

/-- The list of edges has the smaller end first. -/
theorem mem_edges (h : e.Indexes n R) (hR : Directed n R) :
    (u, v) ∈ e.edges ↔ u < v ∧ ∃ x, R u v x := by
  have hn : n < 2 ^ 32 := hR.few
  rw [edges_eq, List.mem_map]
  constructor
  · rintro ⟨⟨w, x⟩, hm, heq⟩
    obtain ⟨a, b, hab, hb, rfl, hx⟩ := (h.holds_iff w x).mp (WordTable.mem_entries.mp hm)
    obtain ⟨hc, ha', hb'⟩ := ofWord_code hn hab.le hb
    rw [hc, ha', hb', Prod.mk.injEq] at heq
    obtain ⟨rfl, rfl⟩ := heq
    exact ⟨hab, x, hx⟩
  · rintro ⟨huv, x, hx⟩
    obtain ⟨-, hv, -⟩ := hR.range u v x hx
    obtain ⟨hc, hu', hv'⟩ := ofWord_code hn huv.le hv
    refine ⟨(code u v, x), WordTable.mem_entries.mpr ((h.holds_code hR huv.le hv).mpr hx), ?_⟩
    rw [hc, hu', hv']

/-- No edge is listed twice. -/
theorem nodup_edges (h : e.Indexes n R) (hR : Directed n R) : e.edges.Nodup := by
  have hn : n < 2 ^ 32 := hR.few
  rw [edges_eq]
  apply h.tidy.nodup_entries.of_map.map_on
  rintro ⟨w, x⟩ hm ⟨w', x'⟩ hm' heq
  have hw := WordTable.mem_entries.mp hm
  have hw' := WordTable.mem_entries.mp hm'
  obtain ⟨a, b, hab, hb, rfl, -⟩ := (h.holds_iff w x).mp hw
  obtain ⟨a', b', hab', hb', rfl, -⟩ := (h.holds_iff w' x').mp hw'
  obtain ⟨hc, ha₁, hb₁⟩ := ofWord_code hn hab.le hb
  obtain ⟨hc', ha₂, hb₂⟩ := ofWord_code hn hab'.le hb'
  rw [hc, hc', ha₁, hb₁, ha₂, hb₂, Prod.mk.injEq] at heq
  obtain ⟨rfl, rfl⟩ := heq
  rw [h.tidy.holds_unique hw hw']

theorem length_edges (h : e.Indexes n R) : e.edges.length = e.size := by
  rw [edges_eq, List.length_map, h.tidy.size_eq]
  rfl

/-! ## Contents -/

/-- What an index says is made up of what it holds. -/
theorem find?_congr (h : e.Indexes n R) (h' : e'.Indexes n R) (u v : Nat) : e'.find? u v = e.find? u v := by
  have hwords (w : UInt64) : e'.table.words.find? w = e.table.words.find? w := Option.ext fun x => by
    rw [h.tidy.find?_eq_some_iff, h'.tidy.find?_eq_some_iff, h.holds_iff, h'.holds_iff]
  simp only [EdgeIndex.find?, KeyTable.find?, hwords, orient, h.vertices, h'.vertices]

/-- What an index lists is made up of what it holds, but for the order. -/
theorem entries_perm (h : e.Indexes n R) (h' : e'.Indexes n R) : e'.table.entries.Perm e.table.entries := by
  refine ((List.perm_ext_iff_of_nodup h'.tidy.nodup_entries.of_map h.tidy.nodup_entries.of_map).mpr ?_).map _
  rintro ⟨w, x⟩
  rw [WordTable.mem_entries, WordTable.mem_entries, h.holds_iff, h'.holds_iff]

end Indexes

/-! ## A new index -/

theorem mulWords_directions (hn : n < 2 ^ 32) : mulWords 2 (n - 1) = .ok (2 * (n - 1)) := by
  apply if_pos
  unfold maxWord
  omega

/-- A new index is empty. -/
theorem forVertices_eq (hn : n < 2 ^ 32) :
    ∃ e, forVertices n = .ok e ∧ e.Indexes n (fun _ _ _ => False) ∧ e.size = 0 := by
  obtain ⟨t, ht, htidy, hsize, hcap, hholds⟩ := WordTable.withRoom_eq (2 * (n - 1)) (by omega)
  refine ⟨⟨⟨t⟩, n⟩, ?_, ⟨htidy, rfl, hcap, fun w x => ?_⟩, hsize⟩
  · rw [forVertices, mulWords_directions hn, ok_bind, KeyTable.withRoom, ht]
    rfl
  · constructor
    · exact fun hw => absurd hw (hholds w x)
    · rintro ⟨_, _, _, _, _, hF⟩
      exact hF.elim

/-- A new index has the slots of a table for two keys per edge of a forest. -/
theorem capacityFor_of_forVertices (hn : n < 2 ^ 32) (h : forVertices n = .ok e) :
    WordTable.capacityFor (2 * (n - 1)) = .ok e.table.capacity := by
  rw [forVertices, mulWords_directions hn, ok_bind] at h
  obtain ⟨t, ht, h⟩ := bind_eq_ok.mp h
  obtain ⟨ws, hws, ht⟩ := bind_eq_ok.mp ht
  rw [← Except.ok.inj h, ← Except.ok.inj ht]
  exact WordTable.capacityFor_of_withRoom hws

end TourForest.EdgeIndex
