import Mathlib.Data.Finmap
import TourForest.KeyTable
import TourForest.Proofs.WordTable

/-!
# Tables of typed keys as finite maps

A key type `Packs` if its words tell its keys apart. A table of such keys then `Models` a finite map: whatever
it is asked, it gives the answers of the map, where a map of as many keys as the table has slots is full.

* `WordKey.packs_word`, `WordKey.packs_pair`: 32-bit numbers and pairs of them pack;
* `Models.answer`: one request to the table and to the map;
* `answers_of_requests`: any number of them, from a new table on.
-/

namespace TourForest

/-! ## Packing -/

namespace WordKey

/-- This word and the one after it are set apart for slots without a key. -/
def firstMark : UInt64 := 0xFFFFFFFFFFFFFFFE

/-- The keys for which `valid` holds have different words, none of which is set apart. -/
structure Packs (K : Type) [WordKey K] (valid : K → Prop) (word : K → UInt64) : Prop where
  toWord_eq : ∀ k, valid k → toWord k = .ok (word k)
  injective : ∀ k k', valid k → valid k' → word k = word k' → k = k'
  lt_firstMark : ∀ k, valid k → word k < firstMark

theorem toNat_firstMark : firstMark.toNat = 2 ^ 64 - 2 := rfl

/-- A number is got back from its word. -/
theorem ofWord_toUInt64 (k : UInt32) : (ofWord k.toUInt64 : UInt32) = k := UInt32.toUInt32_toUInt64 k

theorem packs_word : Packs UInt32 (fun _ => True) UInt32.toUInt64 where
  toWord_eq _ _ := rfl
  injective k k' _ _ h := by rw [← ofWord_toUInt64 k, h, ofWord_toUInt64]
  lt_firstMark k _ := by
    have := k.toNat_lt
    rw [UInt64.lt_iff_toNat_lt, UInt32.toNat_toUInt64, toNat_firstMark]
    omega

/-- The word of a pair of numbers of 32 bits. -/
def pack (a b : UInt32) : UInt64 := a.toUInt64 <<< 32 ||| b.toUInt64

theorem toNat_pack (a b : UInt32) : (pack a b).toNat = a.toNat * 2 ^ 32 + b.toNat := by
  have ha : a.toNat < 2 ^ 32 := a.toNat_lt
  have hb : b.toNat < 2 ^ 32 := b.toNat_lt
  have hshift : a.toNat <<< 32 % 2 ^ 64 = a.toNat <<< 32 := by
    rw [Nat.shiftLeft_eq]
    omega
  rw [pack, UInt64.toNat_or, UInt64.toNat_shiftLeft, UInt32.toNat_toUInt64, UInt32.toNat_toUInt64,
    show (32 : UInt64).toNat % 64 = 32 from rfl, hshift, ← Nat.shiftLeft_add_eq_or_of_lt hb,
    Nat.shiftLeft_eq]

/-- A pair is got back from its word. -/
theorem ofWord_pack (a b : UInt32) : (ofWord (pack a b) : UInt32 × UInt32) = (a, b) := by
  have ha : a.toNat < 2 ^ 32 := a.toNat_lt
  have hb : b.toNat < 2 ^ 32 := b.toNat_lt
  apply Prod.ext
  · rw [← UInt32.toNat_inj]
    show ((pack a b) >>> 32).toUInt32.toNat = a.toNat
    rw [UInt64.toNat_toUInt32, UInt64.toNat_shiftRight, toNat_pack,
      show (32 : UInt64).toNat % 64 = 32 from rfl, Nat.shiftRight_eq_div_pow]
    omega
  · rw [← UInt32.toNat_inj]
    show (pack a b).toUInt32.toNat = b.toNat
    rw [UInt64.toNat_toUInt32, toNat_pack]
    omega

theorem packs_pair :
    Packs (UInt32 × UInt32) (fun k => k.1 ≠ maxHalf ∧ k.2 ≠ maxHalf) fun k => pack k.1 k.2 where
  toWord_eq _ hk := if_neg (not_or.mpr hk)
  injective k k' _ _ h := by rw [← Prod.mk.eta (p := k), ← ofWord_pack, h, ofWord_pack]
  lt_firstMark k hk := by
    have h₁ := k.1.toNat_lt
    have h₂ := k.2.toNat_lt
    have hmax : maxHalf.toNat = 2 ^ 32 - 1 := rfl
    have hne : k.1.toNat ≠ maxHalf.toNat := fun h => hk.1 (UInt32.toNat_inj.mp h)
    rw [UInt64.lt_iff_toNat_lt, toNat_pack, toNat_firstMark]
    omega

end WordKey

namespace KeyTable

variable {K : Type} {valid : K → Prop} {word : K → UInt64}

/-! ## Requests -/

/-- What a table can be asked. -/
inductive Request (K : Type) where
  | insert (key : K) (value : Nat)
  | find (key : K)
  | contains (key : K)
  | erase (key : K)
  | size
  | entries

/-- What it answers. Entries come in no particular order. -/
inductive Answer (K : Type) where
  | inserted (reply : Except Refusal Bool)
  | found (value : Option Nat)
  | present (found : Bool)
  | size (count : Nat)
  | entries (contents : Multiset (K × Nat))

/-- The keys of a request pack. -/
def Request.Valid (valid : K → Prop) : Request K → Prop
  | .insert key _ | .find key | .contains key | .erase key => valid key
  | .size | .entries => True

section

variable [WordKey K]

/-- The answer of a table, and the table afterwards. -/
def answer (t : KeyTable K) : Request K → Except Fault (Answer K × KeyTable K)
  | .insert key value => do
    let (reply, t) ← t.insert key value
    return (.inserted reply, t)
  | .find key => return (.found (← t.find? key), t)
  | .contains key => return (.present (← t.contains key), t)
  | .erase key => do
    let (found, t) ← t.erase key
    return (.present found, t)
  | .size => .ok (.size t.size, t)
  | .entries => .ok (.entries t.entries, t)

/-- The answers of a table to requests one after the other. -/
def answerAll (t : KeyTable K) : List (Request K) → Except Fault (List (Answer K) × KeyTable K)
  | [] => .ok ([], t)
  | r :: rest => do
    let (a, t) ← t.answer r
    let (as, t) ← t.answerAll rest
    return (a :: as, t)

end

/-! ## The finite map -/

/-- A finite map from keys to values. -/
abbrev Contents (K : Type) := Finmap fun _ : K => Nat

variable [DecidableEq K]

namespace Contents

/-- The answer of a map that takes at most `capacity` keys, and the map afterwards. -/
def answer [WordKey K] (word : K → UInt64) (capacity : Nat) (m : Contents K) : Request K → Answer K × Contents K
  | .insert key value =>
    if key ∈ m then (.inserted (.ok false), m)
    else if m.keys.card = capacity then (.inserted (.error (.tableFull capacity)), m)
    else (.inserted (.ok true), m.insert key value)
  | .find key => (.found (m.lookup key), m)
  | .contains key => (.present (key ∈ m), m)
  | .erase key => (.present (key ∈ m), m.erase key)
  | .size => (.size m.keys.card, m)
  | .entries => (.entries (m.entries.map fun e => (WordKey.ofWord (word e.1), e.2)), m)

/-- The answers of a map to requests one after the other. -/
def answerAll [WordKey K] (word : K → UInt64) (capacity : Nat) (m : Contents K) :
    List (Request K) → List (Answer K) × Contents K
  | [] => ([], m)
  | r :: rest =>
    let (a, m) := m.answer word capacity r
    let (as, m) := m.answerAll word capacity rest
    (a :: as, m)

end Contents

/-- The table holds the words of the keys of a map, with their values. -/
structure Models (valid : K → Prop) (word : K → UInt64) (t : KeyTable K) (m : Contents K) : Prop where
  tidy : t.words.Tidy
  valid : ∀ k ∈ m, valid k
  holds_iff : ∀ w v, t.words.Holds w v ↔ ∃ k, m.lookup k = some v ∧ word k = w

namespace Models

open WordKey (Packs)

variable {t : KeyTable K} {m : Contents K} {k : K} {v : Nat}

/-- A new table models the empty map. -/
theorem empty {c : Nat} (hc : 0 < c) : Models valid word ⟨⟨Array.replicate c .empty, 0⟩⟩ (∅ : Contents K) where
  tidy := (WordTable.tidy_replicate hc).1
  valid _ hk := absurd hk Finmap.notMem_empty
  holds_iff w _ := ⟨fun hw => absurd hw ((WordTable.tidy_replicate hc).2 w _), fun ⟨_, hk, _⟩ => by simp at hk⟩

variable [WordKey K]

/-- The entries of the table are those of the map. -/
theorem entries_eq (hK : Packs K valid word) (h : Models valid word t m) :
    (t.words.entries : Multiset (UInt64 × Nat)) = m.entries.map fun e => (word e.1, e.2) := by
  have hvalid {k : K} {v : Nat} (hk : (⟨k, v⟩ : Σ _ : K, Nat) ∈ m.entries) : valid k :=
    h.valid k (Finmap.mem_of_lookup_eq_some (Finmap.lookup_eq_some_iff.mpr hk))
  refine (Multiset.Nodup.ext ?_ (Multiset.Nodup.map_on ?_ m.nodup_entries)).mpr fun ⟨w, v⟩ => ?_
  · exact Multiset.coe_nodup.mpr h.tidy.nodup_entries.of_map
  · rintro ⟨k, v⟩ hk ⟨k', v'⟩ hk' heq
    obtain ⟨hw, rfl⟩ := Prod.mk.inj heq
    rw [hK.injective k k' (hvalid hk) (hvalid hk') hw]
  · rw [Multiset.mem_coe, WordTable.mem_entries, h.holds_iff, Multiset.mem_map]
    constructor
    · rintro ⟨k, hk, rfl⟩
      exact ⟨⟨k, v⟩, Finmap.lookup_eq_some_iff.mp hk, rfl⟩
    · rintro ⟨⟨k, v'⟩, hk, heq⟩
      obtain ⟨rfl, rfl⟩ := Prod.mk.inj heq
      exact ⟨k, Finmap.lookup_eq_some_iff.mpr hk, rfl⟩

theorem size_eq (hK : Packs K valid word) (h : Models valid word t m) : t.size = m.keys.card := by
  have := congrArg Multiset.card (h.entries_eq hK)
  rw [Multiset.coe_card, h.tidy.size_eq, Multiset.card_map] at this
  rw [size, this, Finmap.keys, Finset.card_mk, Multiset.keys, Multiset.card_map]

/-- The table holds a key with its value in the map. -/
theorem holds_word (hK : Packs K valid word) (h : Models valid word t m) (hk : valid k) :
    t.words.Holds (word k) v ↔ m.lookup k = some v := by
  rw [h.holds_iff]
  constructor
  · rintro ⟨k', hk', heq⟩
    obtain rfl := hK.injective k' k (h.valid k' (Finmap.mem_of_lookup_eq_some hk')) hk heq
    exact hk'
  · exact fun hl => ⟨k, hl, rfl⟩

theorem find?_word (hK : Packs K valid word) (h : Models valid word t m) (hk : valid k) :
    t.words.find? (word k) = m.lookup k :=
  Option.ext fun _ => h.tidy.find?_eq_some_iff.trans (h.holds_word hK hk)

theorem not_holds_word (hK : Packs K valid word) (h : Models valid word t m) (hk : valid k)
    (hm : k ∉ m) (v : Nat) : ¬ t.words.Holds (word k) v := by
  rw [h.holds_word hK hk, Finmap.lookup_eq_none.mpr hm]
  simp

/-- A new key goes into a table with room. -/
theorem insert_new (hK : Packs K valid word) (h : Models valid word t m) (hk : valid k) (hm : k ∉ m)
    (hs : m.keys.card ≠ t.capacity) :
    ∃ t', t.insert k v = .ok (.ok true, t') ∧ Models valid word t' (m.insert k v) ∧ t'.capacity = t.capacity := by
  have hroom : t.words.size < t.words.capacity := by
    have hle := WordTable.length_entries_le t.words
    rw [h.tidy.size_eq] at hle
    exact Nat.lt_of_le_of_ne hle fun he => hs ((h.size_eq hK).symm.trans he)
  obtain ⟨ws, hok, htidy, hcap, -, hholds⟩ := h.tidy.insert_new (v := v) (h.not_holds_word hK hk hm) hroom
  refine ⟨⟨ws⟩, by rw [insert, hK.toWord_eq k hk, ok_bind, hok]; rfl, ⟨htidy, fun k' hk' => ?_, fun w v' => ?_⟩, hcap⟩
  · rcases Finmap.mem_insert.mp hk' with rfl | hk'
    · exact hk
    · exact h.valid k' hk'
  · rw [hholds, h.holds_iff]
    constructor
    · rintro (⟨rfl, rfl⟩ | ⟨k', hk', rfl⟩)
      · exact ⟨k, Finmap.lookup_insert m, rfl⟩
      · have hne : k' ≠ k := fun he => hm (he ▸ Finmap.mem_of_lookup_eq_some hk')
        exact ⟨k', (Finmap.lookup_insert_of_ne m hne).trans hk', rfl⟩
    · rintro ⟨k', hk', rfl⟩
      by_cases hne : k' = k
      · subst hne
        rw [Finmap.lookup_insert, Option.some.injEq] at hk'
        exact .inl ⟨rfl, hk'.symm⟩
      · exact .inr ⟨k', (Finmap.lookup_insert_of_ne m hne).symm.trans hk', rfl⟩

/-- A key is taken out. -/
theorem erase (hK : Packs K valid word) (h : Models valid word t m) (hk : valid k) :
    ∃ t', t.erase k = .ok (decide (k ∈ m), t') ∧ Models valid word t' (Finmap.erase k m) ∧
      t'.capacity = t.capacity := by
  by_cases hm : k ∈ m
  · obtain ⟨v, hv⟩ := Finmap.mem_iff.mp hm
    obtain ⟨ws, hok, htidy, hcap, -, hholds⟩ := h.tidy.erase_held ((h.holds_word hK hk).mpr hv)
    refine ⟨⟨ws⟩, by rw [KeyTable.erase, hK.toWord_eq k hk, ok_bind, hok, decide_eq_true hm]; rfl,
      ⟨htidy, fun k' hk' => h.valid k' (Finmap.mem_erase.mp hk').2, fun w v' => ?_⟩, hcap⟩
    rw [hholds, h.holds_iff]
    constructor
    · rintro ⟨hne, k', hk', rfl⟩
      exact ⟨k', (Finmap.lookup_erase_ne fun he => hne (congrArg word he)).trans hk', rfl⟩
    · rintro ⟨k', hk', rfl⟩
      have hmem := Finmap.mem_erase.mp (Finmap.mem_of_lookup_eq_some hk')
      refine ⟨fun he => hmem.1 (hK.injective k' k (h.valid k' hmem.2) hk he), k', ?_, rfl⟩
      exact (Finmap.lookup_erase_ne hmem.1).symm.trans hk'
  · refine ⟨t, ?_, ?_, rfl⟩
    · rw [KeyTable.erase, hK.toWord_eq k hk, ok_bind, h.tidy.erase_absent (h.not_holds_word hK hk hm),
        decide_eq_false hm]
      rfl
    · have hsame : Finmap.erase k m = m := Finmap.ext_lookup fun k' => by
        by_cases he : k' = k
        · rw [he, Finmap.lookup_erase, Finmap.lookup_eq_none.mpr hm]
        · exact Finmap.lookup_erase_ne he
      rwa [hsame]

/-- A table that models a map gives its answers, and models the map afterwards. -/
theorem answer (hK : Packs K valid word) (h : Models valid word t m) {r : Request K}
    (hr : r.Valid valid) :
    ∃ t', t.answer r = .ok ((m.answer word t.capacity r).1, t') ∧
      Models valid word t' (m.answer word t.capacity r).2 ∧ t'.capacity = t.capacity := by
  cases r with
  | insert k v =>
    simp only [KeyTable.answer, Contents.answer]
    split
    · next hm =>
      obtain ⟨v', hv'⟩ := Finmap.mem_iff.mp hm
      refine ⟨t, ?_, h, rfl⟩
      rw [insert, hK.toWord_eq k hr, ok_bind, h.tidy.insert_held ((h.holds_word hK hr).mpr hv')]
      rfl
    · next hm =>
      split
      · next hfull =>
        refine ⟨t, ?_, h, rfl⟩
        rw [insert, hK.toWord_eq k hr, ok_bind,
          h.tidy.insert_full (h.not_holds_word hK hr hm) ((h.size_eq hK).trans hfull)]
        rfl
      · next hfull =>
        obtain ⟨t', hok, h', hcap⟩ := h.insert_new hK (v := v) hr hm hfull
        exact ⟨t', by rw [hok]; rfl, h', hcap⟩
  | find k =>
    refine ⟨t, ?_, h, rfl⟩
    rw [KeyTable.answer, find?, hK.toWord_eq k hr, ok_bind, h.find?_word hK hr]
    rfl
  | contains k =>
    refine ⟨t, ?_, h, rfl⟩
    have hmem : (m.lookup k).isSome = decide (k ∈ m) := by
      rw [Bool.eq_iff_iff, Finmap.lookup_isSome, decide_eq_true_eq]
    rw [KeyTable.answer, contains, hK.toWord_eq k hr, ok_bind, WordTable.contains, h.find?_word hK hr, hmem]
    rfl
  | erase k =>
    obtain ⟨t', hok, h', hcap⟩ := h.erase hK (k := k) hr
    exact ⟨t', by rw [KeyTable.answer, hok]; rfl, h', hcap⟩
  | size => exact ⟨t, by rw [KeyTable.answer, h.size_eq hK]; rfl, h, rfl⟩
  | entries =>
    refine ⟨t, ?_, h, rfl⟩
    have hent := congrArg (Multiset.map fun e => ((WordKey.ofWord e.1 : K), e.2)) (h.entries_eq hK)
    rw [Multiset.map_coe, Multiset.map_map] at hent
    exact congrArg (fun s => Except.ok (Answer.entries s, t)) hent

/-- Any number of requests. -/
theorem answerAll (hK : Packs K valid word) {capacity : Nat} (requests : List (Request K)) :
    ∀ {t : KeyTable K} {m : Contents K}, Models valid word t m → t.capacity = capacity →
      (∀ r ∈ requests, r.Valid valid) →
      ∃ t', t.answerAll requests = .ok ((m.answerAll word capacity requests).1, t') ∧
        Models valid word t' (m.answerAll word capacity requests).2 := by
  induction requests with
  | nil => exact fun h _ _ => ⟨_, rfl, h⟩
  | cons r requests ih =>
    intro t m h hcap hr
    obtain ⟨hr, hrs⟩ := List.forall_mem_cons.mp hr
    obtain ⟨t₁, hok, h₁, hcap₁⟩ := h.answer hK hr
    rw [hcap] at hok h₁
    obtain ⟨t₂, hok₂, h₂⟩ := ih h₁ (hcap₁.trans hcap) hrs
    refine ⟨t₂, ?_, h₂⟩
    simp only [KeyTable.answerAll, hok, ok_bind, hok₂]
    rfl

end Models

/-- From a new table on, all answers are those of a finite map that starts empty. A table is new if its number
of slots can be computed and they fit into a block of memory. -/
theorem answers_of_requests [WordKey K] (hK : WordKey.Packs K valid word) {maxKeys capacity : Nat}
    (hcap : WordTable.capacityFor maxKeys = .ok capacity) :
    ∃ t, KeyTable.withRoom K maxKeys = (do reserve capacity WordTable.slotBytes; return t) ∧
      t.capacity = capacity ∧
      ∀ requests : List (Request K), (∀ r ∈ requests, r.Valid valid) →
        ∃ t', t.answerAll requests = .ok (((∅ : Contents K).answerAll word capacity requests).1, t') := by
  obtain ⟨e, he⟩ := WordTable.capacityFor_eq_ok hcap
  have hpos : 0 < capacity := he ▸ Nat.two_pow_pos e
  have hsize : KeyTable.capacity (K := K) ⟨⟨Array.replicate capacity .empty, 0⟩⟩ = capacity := Array.size_replicate
  refine ⟨⟨⟨Array.replicate capacity .empty, 0⟩⟩, ?_, hsize, fun requests hr => ?_⟩
  · rw [KeyTable.withRoom, WordTable.withRoom, hcap, ok_bind]
    cases reserve capacity WordTable.slotBytes <;> rfl
  · obtain ⟨t', hok, -⟩ := (Models.empty hpos).answerAll hK requests hsize hr
    exact ⟨t', hok⟩

/-- A pair keeps its first value until it is taken out. -/
theorem answers_for_one_pair : ∃ t t' : KeyTable (UInt32 × UInt32), KeyTable.withRoom _ 10 = .ok t ∧
    t.answerAll [.insert (1, 2) 7, .insert (1, 2) 8, .find (1, 2), .entries, .erase (1, 2), .find (1, 2), .size] =
      .ok ([.inserted (.ok true), .inserted (.ok false), .found (some 7), .entries {((1, 2), 7)}, .present true,
        .found none, .size 0], t') := by
  have hcap : WordTable.capacityFor 10 = .ok 128 := rfl
  obtain ⟨t, hnew, -, hrun⟩ := answers_of_requests WordKey.packs_pair hcap
  obtain ⟨t', hok⟩ := hrun [.insert (1, 2) 7, .insert (1, 2) 8, .find (1, 2), .entries, .erase (1, 2), .find (1, 2),
    .size] (by simp [Request.Valid, WordKey.maxHalf])
  exact ⟨t, t', hnew, hok⟩

end KeyTable

end TourForest
