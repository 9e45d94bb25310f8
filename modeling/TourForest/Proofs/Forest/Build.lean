import TourForest.Proofs.Forest.Refines
import TourForest.Proofs.SumList.Reachable
import TourForest.Proofs.SumList.Resew

/-!
# New forests

A forest that was just built is toured along the rotation of the graph without edges: each vertex is a cycle of its
own (`toured_of_build`). If it has less than `2 ^ 31` vertices it can be built, and refines this graph
(`outcome_build`).
-/

namespace TourForest.Forest

variable {n x y : Nat} {settings : Settings} {pools pools' : Pools} {f : Forest}

/-- The rotation of the graph without edges. -/
def bare (_ : Nat) : List Nat := []

theorem leads_bare (n : Nat) : Leads n bare = fun _ _ _ => False := by
  funext u v x
  simp [Leads, bare]

theorem rotation_bare (n : Nat) : Rotation n ∅ bare where
  nodup _ := List.nodup_nil
  range _ _ hx := absurd hx List.not_mem_nil
  home _ _ _ hx := absurd hx List.not_mem_nil
  mated _ _ hx := absurd hx List.not_mem_nil
  simple _ _ _ _ hx := absurd hx.1 List.not_mem_nil
  edge_iff u v := by simp [leads_bare]

theorem follows_bare : Follows n bare x y ↔ x = y ∧ x < n := by
  constructor
  · rintro ⟨v, hv, s, t, h⟩
    have hlen := congrArg List.length h
    simp only [ring, bare, List.length_append, List.length_cons, List.length_nil] at hlen
    obtain rfl : s = [] := List.eq_nil_of_length_eq_zero (by omega)
    obtain rfl : t = [] := List.eq_nil_of_length_eq_zero (by omega)
    obtain ⟨hx, hy⟩ : mate n x = v ∧ y = v := by simpa [ring, bare] using h
    rw [mate_eq_iff, mate_of_lt hv] at hx
    exact ⟨hx.trans hy.symm, hx ▸ hv⟩
  · rintro ⟨rfl, hx⟩
    exact ⟨x, hx, [], [], by simp [ring, bare, mate_of_lt hx]⟩

/-- Joining each vertex to itself makes the tours. -/
theorem pattern_bare {s : SkipList} (hs : ∀ u k, s.linksAt u k = .detached) (hn : n ≤ s.size) :
    s.Pattern (Follows n bare) [] ((List.range n).map fun v => (v, v)) := by
  have hnext (u : Nat) : s.nextAt u 0 = none := by rw [SkipList.nextAt, hs, Links.detached]
  refine ⟨fun x y z => (rotation_bare n).follows_unique, fun x y z => (rotation_bare n).follows_inj, by simp,
    by simpa [Function.comp_def] using List.nodup_range, fun q hq => ?_, fun q _ => .inr (hnext _),
    fun x y _ hxy => ?_, fun x y hxy => .inl ?_⟩
  · obtain ⟨v, hv, rfl⟩ := List.mem_map.mp hq
    have hv := List.mem_range.mp hv
    exact ⟨follows_bare.mpr ⟨rfl, hv⟩, hv.trans_le hn, hv.trans_le hn⟩
  · rw [hnext] at hxy
    cases hxy
  · obtain ⟨rfl, hx⟩ := follows_bare.mp hxy
    exact List.mem_map.mpr ⟨x, List.mem_range.mpr hx, rfl⟩

/-- The elements of a new forest before they are joined. -/
structure Loose (n : Nat) (a : SumList) : Prop where
  sound : a.Sound
  size : a.size = arenaSize n
  detached : ∀ u k, a.list.linksAt u k = .detached
  value : ∀ x k, k < a.height x → a.valueAt x k = if x < n then 1 else 0

namespace Loose

variable {a : SumList}

theorem of_fresh {seed : UInt64}
    (hf : a.Fresh (fun i => if i < n then 1 else 0) (drawnHeights ⟨seed⟩ (arenaSize n))) : Loose n a where
  sound := hf.sound fun _ hh => drawnHeights_bounds hh
  size := by rw [SumList.size, hf.detached.size_eq, length_drawnHeights]
  detached := hf.detached.linksAt_eq
  value _ _ hk := hf.valueAt_eq hk

theorem le_size (h : Loose n a) : n ≤ a.size := h.size.symm ▸ Nat.le_add_right _ _

theorem own (h : Loose n a) (x : Nat) : a.valueAt x 0 = if x < n then 1 else 0 := by
  rcases Nat.eq_zero_or_pos (a.height x) with hx | hx
  · rw [SumList.valueAt_of_depth_le ((h.sound.depth x).trans_le hx.le), if_neg]
    intro hxn
    exact (h.sound.woven.height_pos x (hxn.trans_le h.le_size)).ne' hx
  · exact h.value x 0 hx

/-- What does not belong to a vertex has no value. -/
theorem blank (h : Loose n a) (hx : n ≤ x) (k : Nat) : a.valueAt x k = 0 := by
  rcases Nat.lt_or_ge k (a.height x) with hk | hk
  · rw [h.value x k hk, if_neg (not_lt.mpr hx)]
  · exact SumList.valueAt_of_depth_le ((h.sound.depth x).trans_le hk)

/-- What joining each vertex to itself comes to. -/
theorem resewn {a' : SumList} (h : Loose n a)
    (hok : a.joinAll ((List.range n).map fun v => (some v, some v)) = .ok a') :
    a.Resewn a' (Follows n bare) [] [] := by
  have hsplit : a.splitAll ([].map some) = .ok ([], a) := rfl
  refine SumList.resewn_of_ok h.sound.woven (pattern_bare h.detached h.le_size) (List.nil_subset _) (by simp) hsplit ?_
  rw [List.map_map]
  exact hok

end Loose

/-- A new forest is toured along the graph without edges, whatever the number of its vertices. -/
theorem toured_of_build (hok : (build pools n settings).outcome = .ok (f, pools')) :
    f.vertices = n ∧ f.settings = settings ∧ f.Toured bare ∅ := by
  rw [build] at hok
  split at hok
  · cases hok
  · next hn =>
    have hmax : WordKey.maxHalf.toNat = 2 ^ 32 - 1 := rfl
    have hfew : n < 2 ^ 32 := by omega
    obtain ⟨e, he, hi, -⟩ := EdgeIndex.forVertices_eq hfew
    simp only [Traced.outcome_bind, Traced.outcome_liftM, Traced.outcome_report, he, ok_bind] at hok
    obtain ⟨⟨a, pools₁⟩, hbuild, hok⟩ := bind_eq_ok.mp hok
    obtain ⟨tours, hjoin, hok⟩ := bind_eq_ok.mp hok
    cases hok
    have hl := Loose.of_fresh (SumList.fresh_of_build hbuild)
    have hr := hl.resewn hjoin
    rw [← leads_bare] at hi
    have hledger : Ledger n e (List.range (n - 1)) bare ∅ :=
      ⟨hfew, rotation_bare n, hi, List.nodup_range, by simp [bare], by simp⟩
    refine ⟨rfl, rfl, ⟨hledger, isAcyclic_empty, hr.woven, ?_, fun x => ?_, hr.next_iff, rfl, fun p hp x hx k => ?_⟩⟩
    · exact (SkipList.size_of_layout (SumList.layout_list hr.layout)).trans hl.size
    · exact (hr.own x).trans (hl.own x)
    · have hle : n ≤ x := by
        dsimp only at hx
        omega
      have hF (y : Nat) : ¬ Follows n bare x y ∧ ¬ Follows n bare y x := by
        rw [follows_bare, follows_bare]
        omega
      have halone : a.list.Alone x := ⟨by rw [SkipList.nextAt, hl.detached]; rfl, by rw [SkipList.prevAt, hl.detached]; rfl⟩
      exact (hr.apart x hF (.inr ⟨List.not_mem_nil, halone⟩) k).trans (hl.blank hle k)

/-- A forest for less than `2 ^ 31` vertices can be built, and it has no edges. -/
theorem outcome_build (pools : Pools) (hn : n < 2 ^ 31) (settings : Settings) :
    ∃ f pools', (build pools n settings).outcome = .ok (f, pools') ∧ f.Refines bare ∅ ∧ f.vertices = n ∧
      f.settings = settings := by
  have hblock : arenaSize n * (SkipList.elementBytes + SumList.sumBytes + doomedBytes) ≤ largestBlock := by
    unfold arenaSize SkipList.elementBytes SumList.sumBytes doomedBytes largestBlock
    omega
  obtain ⟨a, pools', hbuild, hf⟩ :=
    SumList.outcome_build pools ⟨settings.seed⟩ (fun i => if i < n then 1 else 0) hblock
  have hl := Loose.of_fresh hf
  have hmeet := (pattern_bare hl.detached hl.le_size).meet hl.sound.woven rfl fun x => by simp
  obtain ⟨a', hjoin, hr⟩ := hl.sound.joinAll (bounded_of_own hn hl.own) hmeet
  rw [List.map_map] at hjoin
  obtain ⟨e, he, -⟩ := EdgeIndex.forVertices_eq (hn.trans (by decide) : n < 2 ^ 32)
  have hfew : ¬ WordKey.maxHalf.toNat ≤ n := by
    have : WordKey.maxHalf.toNat = 2 ^ 32 - 1 := rfl
    omega
  obtain ⟨f, hok, hv, hs⟩ : ∃ f : Forest, (build pools n settings).outcome = .ok (f, pools') ∧ f.vertices = n ∧
      f.tours = a' := by
    rw [build, if_neg hfew]
    have hjoin' : a.joinAll ((List.range n).map fun v => (some v, some v)) = .ok a' := hjoin
    simp only [Traced.outcome_bind, hbuild, ok_bind, Traced.outcome_liftM, hjoin', Traced.outcome_report, he,
      Traced.outcome_pure]
    exact ⟨_, rfl, rfl, rfl⟩
  obtain ⟨-, hset, ht⟩ := toured_of_build hok
  exact ⟨f, pools', hok, ⟨ht, hv ▸ hn, hs ▸ hr.sound⟩, hv, hset⟩

end TourForest.Forest
