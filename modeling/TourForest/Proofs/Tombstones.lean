import Mathlib.Data.Nat.Find
import Mathlib.Logic.Function.Iterate
import TourForest.Proofs.KeyTable

/-!
# Tombstones

A tombstone right before an empty slot would lengthen searches for nothing: whatever passes it stops at the next
slot. A table is `Swept` if it has none. A new table is, and what is put in or taken out keeps it so:

* `Sweeping.next`, `Sweeping.swept`, `sweep_swept`: one step of a sweep, its end, and all of it;
* `Swept.insert`, `Swept.erase`: one change of a table;
* `Swept.exists_live`: around a table with an empty slot, each run of tombstones ends at a live word. So a table
  without live words and with an empty slot is empty all over (`Swept.all_empty`);
* `KeyTable.swept_of_answer`, `KeyTable.swept_of_answerAll`: one request to a table of typed keys, and any number.
-/

namespace TourForest

namespace WordTable

variable {t t' : WordTable} {w : UInt64} {v i j : Nat} {x : Slot}

/-- No tombstone stands right before an empty slot, around the table. -/
def Swept (t : WordTable) : Prop := ∀ i, t.slot i = .tombstone → t.slot (t.after i) ≠ .empty

/-- From slot `i` on there are only tombstones up to a live word, around the table. -/
def RunEndsLive (t : WordTable) (i : Nat) : Prop :=
  ∃ d, (∀ e < d, t.slot (t.after^[e] i) = .tombstone) ∧ ∃ w v, t.slot (t.after^[d] i) = .live w v

/-! ## Slots around the table -/

theorem iterate_after (hi : i < t.capacity) (d : Nat) : t.after^[d] i = (i + d) % t.capacity := by
  induction d with
  | zero => exact (Nat.mod_eq_of_lt hi).symm
  | succ d ih => rw [Function.iterate_succ_apply', ih, after, Nat.mod_add_mod, Nat.add_assoc]

/-- Each slot is come to from each other one. -/
theorem exists_iterate_after (hi : i < t.capacity) (hj : j < t.capacity) : ∃ d, t.after^[d] i = j := by
  refine ⟨j + t.capacity - i, ?_⟩
  rw [iterate_after hi, show i + (j + t.capacity - i) = j + t.capacity by omega, Nat.add_mod_right,
    Nat.mod_eq_of_lt hj]

theorem after_of_set (hset : t'.slots = t.slots.setIfInBounds i x) : t'.after j = t.after j := by
  rw [after, after, capacity_of_set hset]

/-- The slot before slot `i`, around the end. -/
def before (t : WordTable) (i : Nat) : Nat := (i + t.capacity - 1) % t.capacity

theorem before_after (hi : i < t.capacity) : t.before (t.after i) = i := by
  rw [before, after]
  rcases Nat.eq_or_lt_of_le (Nat.succ_le_of_lt hi) with hlast | hlt
  · rw [show i + 1 = t.capacity from hlast, Nat.mod_self, Nat.zero_add, Nat.mod_eq_of_lt (by omega)]
    omega
  · rw [Nat.mod_eq_of_lt hlt, show i + 1 + t.capacity - 1 = i + t.capacity by omega, Nat.add_mod_right,
      Nat.mod_eq_of_lt hi]

theorem before_add_succ (hj : j < t.capacity) (d : Nat) :
    (t.before j + (d + 1)) % t.capacity = (j + d) % t.capacity := by
  rw [before, Nat.mod_add_mod, show j + t.capacity - 1 + (d + 1) = j + d + t.capacity by omega, Nat.add_mod_right]

/-! ## Runs of tombstones -/

namespace Swept

/-- A run of tombstones does not end at an empty slot. So if there is one to come to, a live word comes before it. -/
theorem exists_live (h : t.Swept) (hi : t.slot i = .tombstone) (hj : j < t.capacity) (he : t.slot j = .empty) :
    t.RunEndsLive i := by
  have hlt : i < t.capacity := lt_capacity_of_ne_empty (by simp [hi])
  have hend : ∃ d, t.slot (t.after^[d] i) ≠ .tombstone := by
    obtain ⟨d, rfl⟩ := exists_iterate_after hlt hj
    exact ⟨d, by simp [he]⟩
  -- The first slot of another kind on the way around.
  have hrun : ∀ e < Nat.find hend, t.slot (t.after^[e] i) = .tombstone := fun e he =>
    not_not.mp (Nat.find_min hend he)
  refine ⟨Nat.find hend, hrun, ?_⟩
  have hne := Nat.find_spec hend
  obtain ⟨d, hd⟩ : ∃ d, Nat.find hend = d + 1 :=
    Nat.exists_eq_add_one_of_ne_zero fun h0 => by simp [h0, hi] at hne
  have hlast := h _ (hrun d (by omega))
  rw [← Function.iterate_succ_apply' t.after d i, Nat.succ_eq_add_one, ← hd] at hlast
  cases hs : t.slot (t.after^[Nat.find hend] i) with
  | empty => exact absurd hs hlast
  | tombstone => exact absurd hs hne
  | live w v => exact ⟨w, v, rfl⟩

/-- Without live words, one empty slot is enough for all slots to be empty. -/
theorem all_empty (h : t.Swept) (hl : ∀ w v, ¬ t.Holds w v) (hj : j < t.capacity) (he : t.slot j = .empty) (i : Nat) :
    t.slot i = .empty := by
  cases hi : t.slot i with
  | empty => rfl
  | tombstone =>
    obtain ⟨d, -, w, v, hd⟩ := h.exists_live hi hj he
    exact absurd ⟨_, hd⟩ (hl w v)
  | live w v => exact absurd ⟨i, hi⟩ (hl w v)

/-! ## One slot changes -/

section

variable (hset : t'.slots = t.slots.setIfInBounds i x)
include hset

/-- A word may go anywhere. -/
theorem set_live (h : t.Swept) (hi : i < t.capacity) (hx : x = .live w v) : t'.Swept := by
  intro j hj
  rw [after_of_set hset, slot_of_set hset hi]
  rw [slot_of_set hset hi] at hj
  split
  · simp [hx]
  · split at hj
    · simp [hx] at hj
    · exact h j hj

/-- A tombstone may go before a slot that is not empty. -/
theorem set_tombstone (h : t.Swept) (hi : i < t.capacity) (hx : x = .tombstone)
    (ha : t.slot (t.after i) ≠ .empty) : t'.Swept := by
  intro j hj
  rw [after_of_set hset, slot_of_set hset hi]
  rw [slot_of_set hset hi] at hj
  split
  · simp [hx]
  · split at hj
    · next hji => rwa [hji]
    · exact h j hj

end

end Swept

/-! ## Sweeping -/

/-- Slots are being emptied backwards, from slot `stop` on: `d` of them have been, and slot `j` is next. No tombstone
but slot `j` stands before an empty slot. -/
structure Sweeping (t : WordTable) (stop d j : Nat) : Prop where
  lt_capacity : j < t.capacity
  back : (j + d) % t.capacity = stop
  stop_empty : j ≠ stop → t.slot stop = .empty
  only : ∀ k ≠ j, t.slot k = .tombstone → t.slot (t.after k) ≠ .empty

namespace Sweeping

variable {stop d : Nat} (h : t.Sweeping stop d j) (hset : t'.slots = t.slots.setIfInBounds j .empty)
include h hset

theorem stop_empty_of_set : t'.slot stop = .empty := by
  rw [slot_of_set hset h.lt_capacity]
  split
  · rfl
  · next hne => exact h.stop_empty (Ne.symm hne)

/-- Once slot `j` is empty, no tombstone but the slot before it stands before an empty slot. -/
theorem only_before (k : Nat) (hk : k ≠ t.before j) (htomb : t'.slot k = .tombstone) :
    t'.slot (t'.after k) ≠ .empty := by
  have hlt : k < t.capacity := by
    rw [← capacity_of_set hset]
    exact lt_capacity_of_ne_empty (by simp [htomb])
  rw [slot_of_set hset h.lt_capacity] at htomb
  split at htomb
  · cases htomb
  · next hkj =>
    rw [after_of_set hset, slot_of_set hset h.lt_capacity, if_neg]
    · exact h.only k hkj htomb
    · rintro rfl
      exact hk (before_after hlt).symm

theorem next : t'.Sweeping stop (d + 1) (t.before j) where
  lt_capacity := by
    rw [capacity_of_set hset]
    exact Nat.mod_lt _ (Nat.zero_lt_of_lt h.lt_capacity)
  back := by rw [capacity_of_set hset, before_add_succ h.lt_capacity, h.back]
  stop_empty _ := h.stop_empty_of_set hset
  only := h.only_before hset

/-- The sweep ends where it has come back to slot `stop`, or to a slot that is no tombstone. -/
theorem swept (hend : t.before j = stop ∨ t'.slot (t.before j) ≠ .tombstone) : t'.Swept := by
  intro k htomb
  refine h.only_before hset k (fun hk => ?_) htomb
  subst hk
  rcases hend with hback | hne
  · rw [hback, h.stop_empty_of_set hset] at htomb
    cases htomb
  · exact hne htomb

end Sweeping

/-- A sweep leaves no tombstone before an empty slot. It does not run out of steps: when all slots but one have been
emptied, it has come back to slot `stop`. -/
theorem sweep_swept (n stop : Nat) : ∀ (steps d j : Nat) (slots : Array Slot),
    (WordTable.mk slots n).Sweeping stop d j → d + steps = slots.size → 0 < steps →
    (WordTable.mk (sweep slots stop steps j) n).Swept := by
  intro steps
  induction steps with
  | zero => exact fun _ _ _ _ _ hpos => absurd hpos (Nat.lt_irrefl 0)
  | succ steps ih =>
    intro d j slots h hsteps _
    have hset : (WordTable.mk (slots.setIfInBounds j .empty) n).slots =
        (WordTable.mk slots n).slots.setIfInBounds j .empty := rfl
    rw [sweep]
    simp only [Array.size_setIfInBounds]
    split
    · next hend => exact h.swept hset hend
    · next hgo =>
      refine ih (d + 1) _ _ (h.next hset) ?_ (Nat.pos_of_ne_zero fun hzero => ?_)
      · rw [Array.size_setIfInBounds]
        omega
      · have hall : d + 1 = (WordTable.mk slots n).capacity := show d + 1 = slots.size by omega
        have hback := before_add_succ h.lt_capacity d
        rw [h.back, hall, Nat.add_mod_right, before, Nat.mod_mod] at hback
        exact hgo (.inl hback)

/-- Sweeping fills no empty slot. -/
theorem sweep_keeps_empty (n stop : Nat) : ∀ (steps j : Nat) (slots : Array Slot),
    (WordTable.mk slots n).slot i = .empty → (WordTable.mk (sweep slots stop steps j) n).slot i = .empty := by
  intro steps
  induction steps with
  | zero => exact fun _ _ h => h
  | succ steps ih =>
    intro j slots h
    have h' : (WordTable.mk (slots.setIfInBounds j .empty) n).slot i = .empty := by
      by_cases hj : j < slots.size
      · rw [slot_of_set (t := WordTable.mk slots n) rfl hj]
        split
        · rfl
        · exact h
      · rwa [Array.setIfInBounds, dif_neg hj]
    rw [sweep]
    split
    · exact h'
    · exact ih _ _ h'

/-! ## Words come and go -/

/-- Where a word is taken out, an empty slot stays empty. -/
theorem vacate_keeps_empty (hi : t.slot i = .live w v) (hj : t.slot j = .empty) : (t.vacate i).slot j = .empty := by
  rw [vacate]
  split
  · exact sweep_keeps_empty _ _ _ _ _ hj
  · rw [slot_of_set (t := t) rfl (lt_capacity_of_live hi), if_neg, hj]
    rintro rfl
    rw [hi] at hj
    cases hj

/-- A word is taken out of the slot it is in, or nothing changes. -/
theorem Tidy.erase_cases (ht : t.Tidy) (w : UInt64) :
    (∃ i v, t.slot i = .live w v ∧ t.erase w = (true, t.vacate i)) ∨ t.erase w = (false, t) := by
  rw [WordTable.erase]
  have ha := ht.paths.search w
  generalize t.search w = r at ha
  cases ha with
  | found hi => exact .inl ⟨_, _, hi, rfl⟩
  | vacant => exact .inr rfl
  | full => exact .inr rfl

/-- What is taken out of a table fills no empty slot. -/
theorem Tidy.erase_keeps_empty (ht : t.Tidy) (w : UInt64) (hj : t.slot j = .empty) : (t.erase w).2.slot j = .empty := by
  obtain ⟨i, v, hi, hok⟩ | hok := ht.erase_cases w
  · rw [hok]
    exact vacate_keeps_empty hi hj
  · rwa [hok]

namespace Swept

theorem vacate (h : t.Swept) (hi : i < t.capacity) : (t.vacate i).Swept := by
  rw [WordTable.vacate]
  split
  · exact sweep_swept _ i t.capacity 0 i t.slots ⟨hi, Nat.mod_eq_of_lt hi, fun hne => absurd rfl hne, fun k _ => h k⟩
      (Nat.zero_add _) (Nat.zero_lt_of_lt hi)
  · next ha => exact h.set_tombstone rfl hi rfl ha

theorem insert (h : t.Swept) (ht : t.Tidy) (w : UInt64) (v : Nat) : (t.insert w v).2.Swept := by
  rw [WordTable.insert]
  have ha := ht.paths.search w
  generalize t.search w = r at ha
  cases ha with
  | found => exact h
  | vacant => exact h.set_live rfl (place_lt ht.capacity_pos) rfl
  | full => exact h

theorem erase (h : t.Swept) (ht : t.Tidy) (w : UInt64) : (t.erase w).2.Swept := by
  obtain ⟨i, v, hi, hok⟩ | hok := ht.erase_cases w
  · rw [hok]
    exact h.vacate (lt_capacity_of_live hi)
  · rwa [hok]

end Swept

/-! ## New tables -/

theorem swept_replicate (c : Nat) : (WordTable.mk (Array.replicate c .empty) 0).Swept := fun i hi => by
  rw [slot_replicate] at hi
  cases hi

theorem eq_replicate (h : ∀ i, t.slot i = .empty) (hs : t.size = 0) :
    t = ⟨Array.replicate t.capacity .empty, 0⟩ := by
  have hslots : t.slots = Array.replicate t.capacity .empty := by
    refine Array.ext (Array.size_replicate).symm fun i hi _ => ?_
    have := h i
    rw [slot, Array.getD_eq_getD_getElem?, Array.getElem?_eq_getElem hi, Option.getD_some] at this
    rw [this, Array.getElem_replicate]
  rw [← hslots, ← hs]

/-- When the last word is taken out while some slot is empty, a new table is left. -/
theorem Tidy.erase_last (ht : t.Tidy) (h : t.Swept) (hw : t.Holds w v) (hs : t.size = 1) (hj : j < t.capacity)
    (he : t.slot j = .empty) : t.erase w = (true, ⟨Array.replicate t.capacity .empty, 0⟩) := by
  obtain ⟨t', hok, ht', hcap, hsize, -⟩ := ht.erase_held hw
  have h' : t'.Swept := by simpa [hok] using h.erase ht w
  have he' : t'.slot j = .empty := by simpa [hok] using ht.erase_keeps_empty w he
  have hnone : ∀ w v, ¬ t'.Holds w v := fun w v hv => by
    have hlen : t'.entries.length = 0 := by
      rw [ht'.size_eq]
      omega
    rw [List.length_eq_zero_iff] at hlen
    exact List.not_mem_nil (hlen ▸ mem_entries.mpr hv)
  rw [hok, ← hcap, ← eq_replicate (h'.all_empty hnone (hcap ▸ hj) he') (by omega)]

end WordTable

/-! ## Tables of typed keys -/

namespace KeyTable

variable {K : Type} [WordKey K] {valid : K → Prop} {word : K → UInt64} {t t' : KeyTable K} {r : Request K}
  {a : Answer K}

/-- One request. -/
theorem swept_of_answer (ht : t.words.Tidy) (h : t.words.Swept) (hok : t.answer r = .ok (a, t')) : t'.words.Swept := by
  cases r with
  | insert k v =>
    obtain ⟨⟨reply, t₁⟩, hins, hok⟩ := bind_eq_ok.mp hok
    obtain ⟨w, -, hins⟩ := bind_eq_ok.mp hins
    cases hok
    cases hins
    exact h.insert ht w v
  | erase k =>
    obtain ⟨⟨found, t₁⟩, hdel, hok⟩ := bind_eq_ok.mp hok
    obtain ⟨w, -, hdel⟩ := bind_eq_ok.mp hdel
    cases hok
    cases hdel
    exact h.erase ht w
  | find k =>
    obtain ⟨value, -, hok⟩ := bind_eq_ok.mp hok
    cases hok
    exact h
  | contains k =>
    obtain ⟨found, -, hok⟩ := bind_eq_ok.mp hok
    cases hok
    exact h
  | size =>
    cases hok
    exact h
  | entries =>
    cases hok
    exact h

variable [DecidableEq K]

/-- Any number of requests. -/
theorem swept_of_answerAll (hK : WordKey.Packs K valid word) (requests : List (Request K)) :
    ∀ {t : KeyTable K} {m : Contents K}, Models valid word t m → t.words.Swept → (∀ r ∈ requests, r.Valid valid) →
      ∃ answers t' m', t.answerAll requests = .ok (answers, t') ∧ Models valid word t' m' ∧ t'.words.Swept ∧
        t'.capacity = t.capacity := by
  induction requests with
  | nil => exact fun h hs _ => ⟨[], _, _, rfl, h, hs, rfl⟩
  | cons r requests ih =>
    intro t m h hs hr
    obtain ⟨hr, hrs⟩ := List.forall_mem_cons.mp hr
    obtain ⟨t₁, hok₁, h₁, hcap₁⟩ := h.answer hK hr
    obtain ⟨answers, t₂, m₂, hok₂, h₂, hs₂, hcap₂⟩ := ih h₁ (swept_of_answer h.tidy hs hok₁) hrs
    refine ⟨(m.answer word t.capacity r).1 :: answers, t₂, m₂, ?_, h₂, hs₂, hcap₂.trans hcap₁⟩
    simp only [answerAll, hok₁, ok_bind, hok₂]
    rfl

/-- From a new table on, whatever it is asked, no tombstone ever stands right before an empty slot, around the table.
So while there is an empty slot, each run of tombstones ends at a live word; and when the last key is taken out, the
new table is there again, with all its slots empty. -/
theorem swept_of_requests (hK : WordKey.Packs K valid word) {maxKeys capacity : Nat}
    (hcap : WordTable.capacityFor maxKeys = .ok capacity) :
    ∃ new : KeyTable K, KeyTable.withRoom K maxKeys = (do reserve capacity WordTable.slotBytes; return new) ∧
      (∀ i, new.words.slot i = .empty) ∧
      ∀ requests : List (Request K), (∀ r ∈ requests, r.Valid valid) →
        ∃ answers t, new.answerAll requests = .ok (answers, t) ∧ t.capacity = capacity ∧ t.words.Swept ∧
          ((∃ j < capacity, t.words.slot j = .empty) →
            (∀ i, t.words.slot i = .tombstone → t.words.RunEndsLive i) ∧
            ∀ k, valid k → t.contains k = .ok true → t.size = 1 → t.erase k = .ok (true, new)) := by
  obtain ⟨e, he⟩ := WordTable.capacityFor_eq_ok hcap
  have hpos : 0 < capacity := he ▸ Nat.two_pow_pos e
  refine ⟨⟨⟨Array.replicate capacity .empty, 0⟩⟩, ?_, WordTable.slot_replicate capacity, fun requests hr => ?_⟩
  · rw [KeyTable.withRoom, WordTable.withRoom, hcap, ok_bind]
    cases reserve capacity WordTable.slotBytes <;> rfl
  · obtain ⟨answers, t, m, hok, h, hs, hcapt⟩ :=
      swept_of_answerAll hK requests (Models.empty hpos) (WordTable.swept_replicate capacity) hr
    have hcapt : t.words.capacity = capacity := hcapt.trans Array.size_replicate
    refine ⟨answers, t, hok, hcapt, hs, fun hfree => ?_⟩
    obtain ⟨j, hj, hempty⟩ := hfree
    refine ⟨fun i hi => ?_, fun k hk hin hsize => ?_⟩
    · exact hs.exists_live hi (hcapt ▸ hj) hempty
    · have hin : (t.words.find? (word k)).isSome := by
        rw [contains, hK.toWord_eq k hk, ok_bind] at hin
        exact Except.ok.inj hin
      obtain ⟨v, hv⟩ := Option.isSome_iff_exists.mp hin
      rw [erase, hK.toWord_eq k hk, ok_bind,
        h.tidy.erase_last hs (h.tidy.find?_eq_some_iff.mp hv) hsize (hcapt ▸ hj) hempty, hcapt]
      rfl

/-- The words of 318 and 504 both have their home in the last of 128 slots. So the tombstone of 318 stands there, and
the live word after it in slot 0; when that is taken out, the tombstone goes with it. -/
theorem swept_of_two_keys_at_the_end : ∃ new t : KeyTable UInt32, KeyTable.withRoom UInt32 10 = .ok new ∧
    (∃ answers, new.answerAll [.insert 318 1, .insert 504 2, .erase 318] = .ok (answers, t)) ∧
    t.words.slot 127 = .tombstone ∧ t.words.slot 1 = .empty ∧ t.words.RunEndsLive 127 ∧
    t.erase 504 = .ok (true, new) ∧ ∀ i, new.words.slot i = .empty := by
  have hcap : WordTable.capacityFor 10 = .ok 128 := rfl
  obtain ⟨new, hnew, hempty, hrun⟩ := swept_of_requests WordKey.packs_word hcap
  obtain ⟨answers, t, hok, -, -, hlaw⟩ := hrun [.insert 318 1, .insert 504 2, .erase 318]
    (by simp [Request.Valid])
  have hnew : KeyTable.withRoom UInt32 10 = .ok new := hnew
  obtain rfl : ⟨⟨Array.replicate 128 .empty, 0⟩⟩ = new := Except.ok.inj hnew
  have hshown : ((answerAll (K := UInt32) ⟨⟨Array.replicate 128 .empty, 0⟩⟩
      [.insert 318 1, .insert 504 2, .erase 318]).toOption.map fun x =>
        (x.2.words.slot 127, x.2.words.slot 1, x.2.size, (x.2.contains 504).toOption)) =
      some (.tombstone, .empty, 1, some true) := by decide +kernel
  rw [hok] at hshown
  simp only [Except.toOption, Option.map_some, Option.some.injEq, Prod.mk.injEq] at hshown
  obtain ⟨htomb, hempty₁, hsize, hin⟩ := hshown
  obtain ⟨hruns, hlast⟩ := hlaw ⟨1, by decide, hempty₁⟩
  have hin : t.contains 504 = .ok true := by
    cases hc : t.contains 504 with
    | error e => simp [hc] at hin
    | ok b => simpa [hc] using hin
  exact ⟨_, t, hnew, ⟨answers, hok⟩, htomb, hempty₁, hruns 127 htomb, hlast 504 trivial hin hsize, hempty⟩

end KeyTable

end TourForest
