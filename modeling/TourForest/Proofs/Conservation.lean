import TourForest.Proofs.Forest.Layout
import TourForest.Proofs.Requests
import TourForest.Proofs.Stock
import TourForest.Workspace

/-!
# No array is lost

Structures that share a pair of pools come and go, and in between they are told whatever they can be told. Each array
that was ever made is then on the shelf of its size or holds the links or the values of one element, whose height it
fits (`Conserved`).

* `Tenant.after_same`: no operation touches the arrays, because none changes the layout of a structure;
* `Recipe.build_draws`, `Tenant.release_orderly`: what comes from the shelves and goes back there;
* `Orderly.act`: one step, for both pools;
* `conserved_of_actions`: all steps.
-/

namespace TourForest

/-! ## What happens in a workspace -/

/-- How to build a structure. -/
inductive Recipe where
  | skipList (r : Random) (len load : Nat)
  | sumList (r : Random) (len load : Nat) (value : Nat → Int)
  | forest (n : Nat) (settings : Settings)

def Recipe.build (recipe : Recipe) (pools : Pools) : Traced (Tenant × Pools) :=
  match recipe with
  | .skipList r len load => do
    let (s, links) ← SkipList.build pools.links r len load
    return (.skipList s, { pools with links })
  | .sumList r len load value => do
    let (a, pools) ← SumList.build pools r len load value
    return (.sumList a, pools)
  | .forest n settings => do
    let (f, pools) ← Forest.build pools n settings
    return (.forest f, pools)

namespace Tenant

/-- What a structure can be asked or told. -/
inductive Request where
  | skipList (request : SkipList.Request)
  | sumList (request : SumList.Request)
  | forest (request : Forest.Request)

/-- The structure after a request. It takes no notice of requests for other kinds of structures. -/
def after (t : Tenant) (request : Request) : Traced Tenant :=
  match t, request with
  | .skipList s, .skipList r => return .skipList (← s.serve r).2
  | .sumList a, .sumList r => return .sumList (← a.serve r).2
  | .forest f, .forest r => return .forest (← f.serve r).2
  | t, _ => return t

end Tenant

namespace Workspace

/-- What can be done in a workspace. -/
inductive Action where
  | build (slot : Nat) (recipe : Recipe)
  | drop (slot : Nat)
  | tell (slot : Nat) (request : Tenant.Request)

/-- The workspace after one action. -/
def act (w : Workspace) : Action → Traced Workspace
  | .build slot recipe => w.settle slot recipe.build
  | .drop slot => return (← w.clear slot).2
  | .tell slot request =>
    match w.tenant? slot with
    | some t => return w.set slot (← t.after request)
    | none => return w

end Workspace

/-! ## Arrays of structures -/

/-- The list of links of a structure. -/
def Tenant.list : Tenant → SkipList
  | skipList s => s
  | sumList a => a.list
  | forest f => f.tours.list

/-- The sizes of the arrays that hold values. -/
def Tenant.valueSizes : Tenant → List Nat
  | skipList _ => []
  | sumList a => a.valueSizes
  | forest f => f.tours.valueSizes

/-- The structure lives in the arrays that pools serve for its heights. -/
def Tenant.Fitted : Tenant → Prop
  | skipList s => s.Fitted
  | sumList a => a.Fitted
  | forest f => f.tours.Fitted

theorem SkipList.arraySizes_of_layout {s s' : SkipList} (h : s'.layout = s.layout) : s'.arraySizes = s.arraySizes := by
  have hsizes (s : SkipList) : s.arraySizes = s.layout.toList.map fun x => x.1 + x.2.size := by
    simp [arraySizes, layout, Tower.toArray, Function.comp_def]
  rw [hsizes, hsizes, h]

theorem SkipList.fitted_of_layout {s s' : SkipList} (h : s'.layout = s.layout) (hs : s.Fitted) : s'.Fitted := by
  have hfit (s : SkipList) : s.Fitted ↔
      ∀ x ∈ s.layout.toList, x.1 ≤ maxHeight ∧ x.1 + x.2.size = 1 <<< sizeClass x.1 := by
    simp [Fitted, layout, Tower.toArray, Tower.height]
  rw [hfit, h]
  exact (hfit s).mp hs

theorem SumList.valueSizes_of_layout {a a' : SumList} (h : a'.layout = a.layout) : a'.valueSizes = a.valueSizes := by
  have hsizes (a : SumList) : a.valueSizes = a.layout.2.1.toList.map fun x => x.1 + x.2.size := by
    simp [valueSizes, layout, Sums.toArray, Function.comp_def]
  rw [hsizes, hsizes, h]

theorem SumList.fitted_of_layout {a a' : SumList} (h : a'.layout = a.layout) (ha : a.Fitted) : a'.Fitted := by
  refine ⟨SkipList.fitted_of_layout (layout_list h) ha.list, ?_⟩
  rw [valueSizes_of_layout h, ha.values, SkipList.arraySizes_of_layout (layout_list h)]

/-! ## Operations -/

namespace Traced

theorem Frugal.map {α β : Type} {x : Traced α} (h : x.Frugal) (g : α → β) : (x >>= fun a => pure (g a)).Frugal :=
  h.bind fun _ => frugal_pure _

theorem outcome_map_eq_ok {α β : Type} {x : Traced α} {g : α → β} {b : β}
    (h : (x >>= fun a => pure (g a)).outcome = .ok b) : ∃ a, x.outcome = .ok a ∧ g a = b := by
  rw [outcome_bind] at h
  obtain ⟨a, ha, h⟩ := bind_eq_ok.mp h
  exact ⟨a, ha, Except.ok.inj h⟩

end Traced

open Traced

theorem SkipList.layout_serve {s s' : SkipList} {r : Request} {answer : Answer}
    (h : (s.serve r).outcome = .ok (answer, s')) : s'.layout = s.layout := by
  cases r with
  | ask query =>
    obtain ⟨a, -, h⟩ := outcome_map_eq_ok h
    cases h
    rfl
  | join l r =>
    obtain ⟨t, ht, h⟩ := outcome_map_eq_ok h
    cases h
    exact layout_join ht
  | split u =>
    obtain ⟨⟨after, t⟩, ht, h⟩ := outcome_map_eq_ok h
    cases h
    exact layout_split ht

theorem SkipList.frugal_serve (s : SkipList) (r : Request) : (s.serve r).Frugal := by
  cases r <;> exact (frugal_lift _).map _

theorem SumList.layout_serve {a a' : SumList} {r : Request} {answer : Answer}
    (h : (a.serve r).outcome = .ok (answer, a')) : a'.layout = a.layout := by
  cases r with
  | ask _ | value _ | sum _ | sumOver _ _ =>
    obtain ⟨x, -, h⟩ := outcome_map_eq_ok h
    cases h
    rfl
  | joinAll seams =>
    obtain ⟨b, hb, h⟩ := outcome_map_eq_ok h
    cases h
    exact layout_joinAll hb
  | splitAll points =>
    obtain ⟨⟨after, b⟩, hb, h⟩ := outcome_map_eq_ok h
    cases h
    exact layout_splitAll hb
  | setValues updates =>
    obtain ⟨b, hb, h⟩ := outcome_map_eq_ok h
    cases h
    exact layout_setValues hb

theorem SumList.frugal_serve (a : SumList) (r : Request) : (a.serve r).Frugal := by
  cases r <;> exact (frugal_lift _).map _

theorem Forest.layout_serve {f f' : Forest} {r : Request} {answer : Answer}
    (h : (f.serve r).outcome = .ok (answer, f')) : f'.tours.layout = f.tours.layout := by
  cases r with
  | connected _ _ | connectedAll _ | treeSize _ | treeVertices _ | hasEdge _ _ =>
    obtain ⟨x, -, h⟩ := outcome_map_eq_ok h
    cases h
    rfl
  | edgeCount | edges =>
    cases h
    rfl
  | link u v =>
    obtain ⟨⟨reply, f₁⟩, hf, h⟩ := outcome_map_eq_ok h
    cases h
    exact layout_link hf
  | linkAll σ links =>
    obtain ⟨⟨reply, f₁⟩, hf, h⟩ := outcome_map_eq_ok h
    cases h
    exact layout_linkAll hf
  | cut u v =>
    obtain ⟨f₁, hf, h⟩ := outcome_map_eq_ok h
    cases h
    exact layout_cut hf
  | cutAll cuts =>
    obtain ⟨f₁, hf, h⟩ := outcome_map_eq_ok h
    cases h
    exact layout_cutRounds hf

theorem Forest.frugal_serve (f : Forest) (r : Request) : (f.serve r).Frugal := by
  cases r with
  | connected _ _ | connectedAll _ | treeSize _ | treeVertices _ | hasEdge _ _ => exact (frugal_lift _).map _
  | edgeCount | edges => exact frugal_pure _
  | link u v => exact (frugal_link f u v).map _
  | linkAll σ links => exact (frugal_linkAll f σ links).map _
  | cut u v => exact (frugal_cut f u v).map _
  | cutAll cuts => exact (frugal_cutRounds _ f cuts).map _

namespace Tenant

variable {t t' : Tenant} {request : Request} {pools pools' : Pools}

/-- A structure keeps its arrays, whatever it is told. -/
theorem after_same (h : (t.after request).outcome = .ok t') :
    t'.list.arraySizes = t.list.arraySizes ∧ t'.valueSizes = t.valueSizes ∧ (t.Fitted → t'.Fitted) := by
  unfold after at h
  split at h
  · obtain ⟨⟨answer, s'⟩, hs, rfl⟩ := outcome_map_eq_ok h
    have hl := SkipList.layout_serve hs
    exact ⟨SkipList.arraySizes_of_layout hl, rfl, SkipList.fitted_of_layout hl⟩
  · obtain ⟨⟨answer, a'⟩, ha, rfl⟩ := outcome_map_eq_ok h
    have hl := SumList.layout_serve ha
    exact ⟨SkipList.arraySizes_of_layout (SumList.layout_list hl), SumList.valueSizes_of_layout hl,
      SumList.fitted_of_layout hl⟩
  · obtain ⟨⟨answer, f'⟩, hf, rfl⟩ := outcome_map_eq_ok h
    have hl := Forest.layout_serve hf
    exact ⟨SkipList.arraySizes_of_layout (SumList.layout_list hl), SumList.valueSizes_of_layout hl,
      SumList.fitted_of_layout hl⟩
  · cases h
    exact ⟨rfl, rfl, id⟩

theorem frugal_after (t : Tenant) (request : Request) : (t.after request).Frugal := by
  unfold after
  split
  · exact (SkipList.frugal_serve _ _).map _
  · exact (SumList.frugal_serve _ _).map _
  · exact (Forest.frugal_serve _ _).map _
  · exact frugal_pure _

/-- All arrays of a structure go back to the shelves. -/
theorem release_stocked (ht : t.Fitted) (hl : pools.links.Stocked) (hv : pools.values.Stocked) :
    ∃ pools', t.release pools = .ok pools' ∧ pools'.links.Stocked ∧ pools'.values.Stocked ∧
      (∀ c, pools'.links.pooled c = pools.links.pooled c + t.list.arraySizes.count (1 <<< c)) ∧
      ∀ c, pools'.values.pooled c = pools.values.pooled c + t.valueSizes.count (1 <<< c) := by
  cases t with
  | skipList s =>
    obtain ⟨links, hok, hl', hc⟩ := SkipList.release_stocked ht hl
    refine ⟨{ pools with links }, ?_, hl', hv, hc, fun c => rfl⟩
    simp only [release, hok, ok_bind]
    rfl
  | sumList a => exact SumList.release_stocked ht hl hv
  | forest f => exact SumList.release_stocked ht hl hv

end Tenant

/-! ## Building -/

theorem Forest.build_draws {pools pools' : Pools} {n : Nat} {settings : Settings} {f : Forest}
    (hl : pools.links.Stocked) (hv : pools.values.Stocked)
    (h : (Forest.build pools n settings).outcome = .ok (f, pools')) :
    f.tours.Fitted ∧
      pools.Draws f.tours.list.arraySizes f.tours.valueSizes (Forest.build pools n settings).events pools' := by
  rw [Forest.build] at h ⊢
  split at h
  · cases h
  · next hn =>
    rw [if_neg hn]
    simp only [outcome_bind, outcome_liftM, outcome_report, ok_bind] at h
    obtain ⟨⟨a, pools₁⟩, ha, h⟩ := bind_eq_ok.mp h
    obtain ⟨tours, hjoin, h⟩ := bind_eq_ok.mp h
    obtain ⟨edges, hedges, h⟩ := bind_eq_ok.mp h
    cases h
    obtain ⟨hfit, hd⟩ := SumList.build_draws hl hv ha
    have hlayout := SumList.layout_joinAll hjoin
    refine ⟨SumList.fitted_of_layout hlayout hfit, ?_⟩
    rw [SkipList.arraySizes_of_layout (SumList.layout_list hlayout), SumList.valueSizes_of_layout hlayout]
    refine hd.of_count fun c => ?_
    rw [count_events_bind ha, Nat.add_eq_left]
    refine Frugal.count_eq ((frugal_lift _).bind fun _ => ?_) c
    exact (frugal_report (by simp)).bind fun _ => (frugal_lift _).bind fun _ => frugal_pure _

/-- A new structure lives in arrays from the pools. -/
theorem Recipe.build_draws {recipe : Recipe} {pools pools' : Pools} {t : Tenant} (hl : pools.links.Stocked)
    (hv : pools.values.Stocked) (h : (recipe.build pools).outcome = .ok (t, pools')) :
    t.Fitted ∧ pools.Draws t.list.arraySizes t.valueSizes (recipe.build pools).events pools' := by
  cases recipe with
  | skipList r len load =>
    obtain ⟨⟨s, links⟩, hs, h⟩ := outcome_map_eq_ok h
    cases h
    obtain ⟨hfit, hd⟩ := SkipList.build_draws hl hs
    refine ⟨hfit, .of_pools hd (.nil hv) fun c => ?_⟩
    exact count_events_bind hs _ _
  | sumList r len load value =>
    obtain ⟨⟨a, pools₁⟩, ha, h⟩ := outcome_map_eq_ok h
    cases h
    obtain ⟨hfit, hd⟩ := SumList.build_draws hl hv ha
    exact ⟨hfit, hd.of_count fun c => count_events_bind ha _ _⟩
  | forest n settings =>
    obtain ⟨⟨f, pools₁⟩, hf, h⟩ := outcome_map_eq_ok h
    cases h
    obtain ⟨hfit, hd⟩ := Forest.build_draws hl hv hf
    exact ⟨hfit, hd.of_count fun c => count_events_bind hf _ _⟩

/-! ## One action -/

/-- An item that is looked up, and the rest of a list without duplicate keys. -/
theorem perm_of_lookup {β : Type} {k : Nat} {b : β} {l : List (Nat × β)} (hn : (l.map Prod.fst).Nodup)
    (h : l.lookup k = some b) : l.Perm ((k, b) :: l.filter (·.1 != k)) := by
  induction l with
  | nil => cases h
  | cons x l ih =>
    obtain ⟨j, b'⟩ := x
    obtain ⟨hj, hn⟩ := List.nodup_cons.mp hn
    rw [List.lookup_cons] at h
    by_cases hjk : k = j
    · subst hjk
      obtain rfl : b' = b := by simpa using h
      have hrest : l.filter (·.1 != k) = l := List.filter_eq_self.mpr fun y hy => by
        have hmem : y.1 ∈ l.map Prod.fst := List.mem_map_of_mem hy
        rw [bne_iff_ne]
        exact fun he => hj (he ▸ hmem)
      simp [hrest]
    · have hkeep : ((j, b') :: l).filter (·.1 != k) = (j, b') :: l.filter (·.1 != k) := by simp [Ne.symm hjk]
      rw [hkeep]
      rw [beq_false_of_ne hjk] at h
      exact ((ih hn h).cons _).trans (.swap ..)

theorem filter_eq_of_lookup {β : Type} {k : Nat} {l : List (Nat × β)} (h : l.lookup k = none) :
    l.filter (·.1 != k) = l :=
  List.filter_eq_self.mpr fun x hx => by
    have := List.lookup_eq_none_iff.mp h x hx
    rwa [bne_comm] at this

namespace Workspace

variable {w w' : Workspace} {slot : Nat} {t : Tenant} {pools : Pools}

/-- The sizes of the arrays of links that structures hold. -/
def linkSizes (w : Workspace) : List Nat := w.tenants.flatMap (·.2.list.arraySizes)

/-- The sizes of the arrays of values that structures hold. -/
def valueSizes (w : Workspace) : List Nat := w.tenants.flatMap (·.2.valueSizes)

/-- The number of arrays of links of a class, wherever they are. -/
def linkStock (w : Workspace) (c : Nat) : Nat := w.pools.links.pooled c + w.linkSizes.count (1 <<< c)

/-- The number of arrays of values of a class, wherever they are. -/
def valueStock (w : Workspace) (c : Nat) : Nat := w.pools.values.pooled c + w.valueSizes.count (1 <<< c)

/-- There is one structure in a slot at most, and all arrays have the sizes they should have. -/
structure Orderly (w : Workspace) : Prop where
  slots_nodup : (w.tenants.map Prod.fst).Nodup
  links_stocked : w.pools.links.Stocked
  values_stocked : w.pools.values.Stocked
  fitted : ∀ x ∈ w.tenants, x.2.Fitted

/-- Hands the arrays of what is in a slot back. -/
def handBack (w : Workspace) (slot : Nat) (pools : Pools) : Except Fault Pools :=
  match w.tenant? slot with
  | some old => old.release pools
  | none => .ok pools

theorem settle_eq (w : Workspace) (slot : Nat) (build : Pools → Traced (Tenant × Pools)) :
    w.settle slot build = build w.pools >>= fun x =>
      liftM (w.handBack slot x.2) >>= fun pools => pure (({ w with pools } : Workspace).set slot x.1) := by
  rw [settle]
  refine bind_congr fun x => ?_
  unfold handBack
  cases w.tenant? slot <;> rfl

theorem clear_eq (w : Workspace) (slot : Nat) : w.clear slot = w.handBack slot w.pools >>= fun pools =>
    .ok ((w.tenant? slot).isSome, ⟨pools, w.others slot⟩) := by
  rw [clear]
  unfold handBack
  rcases ht : w.tenant? slot with _ | old
  · rw [ok_bind, others, filter_eq_of_lookup ht]
    rfl
  · rfl

theorem orderly_empty : empty.Orderly :=
  ⟨List.nodup_nil, Pool.stocked_empty, Pool.stocked_empty, fun _ hx => by cases hx⟩

namespace Orderly

/-- Another structure in a slot, and other pools. -/
theorem replace (h : w.Orderly) (ht : t.Fitted) (hl : pools.links.Stocked) (hv : pools.values.Stocked) :
    (Workspace.mk pools ((slot, t) :: w.others slot)).Orderly := by
  refine ⟨List.nodup_cons.mpr ⟨?_, h.slots_nodup.sublist (List.filter_sublist.map _)⟩, hl, hv, ?_⟩
  · simp [others]
  · rintro x (_ | ⟨_, hx⟩)
    · exact ht
    · exact h.fitted x (List.mem_of_mem_filter hx)

/-- All arrays of what is in a slot go back to the shelves. -/
theorem handBack (h : w.Orderly) (slot : Nat) (hl : pools.links.Stocked) (hv : pools.values.Stocked) :
    ∃ pools', w.handBack slot pools = .ok pools' ∧ pools'.links.Stocked ∧ pools'.values.Stocked ∧
      (∀ c, pools'.links.pooled c + ((w.others slot).flatMap (·.2.list.arraySizes)).count (1 <<< c) =
        pools.links.pooled c + w.linkSizes.count (1 <<< c)) ∧
      ∀ c, pools'.values.pooled c + ((w.others slot).flatMap (·.2.valueSizes)).count (1 <<< c) =
        pools.values.pooled c + w.valueSizes.count (1 <<< c) := by
  unfold Workspace.handBack
  rcases ht : w.tenant? slot with _ | old
  · refine ⟨pools, rfl, hl, hv, fun c => ?_, fun c => ?_⟩ <;> rw [others, filter_eq_of_lookup ht] <;> rfl
  · have hperm := perm_of_lookup h.slots_nodup ht
    have hold : old.Fitted := h.fitted (slot, old) (hperm.mem_iff.mpr List.mem_cons_self)
    obtain ⟨pools', hok, hl', hv', hcl, hcv⟩ := Tenant.release_stocked hold hl hv
    refine ⟨pools', hok, hl', hv', fun c => ?_, fun c => ?_⟩
    · rw [hcl, linkSizes, (hperm.flatMap_right _).count_eq, List.flatMap_cons, List.count_append, others, Nat.add_assoc]
    · rw [hcv, valueSizes, (hperm.flatMap_right _).count_eq, List.flatMap_cons, List.count_append, others,
        Nat.add_assoc]

/-- Taking a structure down always succeeds, and no array is lost. -/
theorem clear (h : w.Orderly) (slot : Nat) : ∃ b w', w.clear slot = .ok (b, w') ∧ w'.Orderly ∧
    (∀ c, w'.linkStock c = w.linkStock c) ∧ ∀ c, w'.valueStock c = w.valueStock c := by
  obtain ⟨pools', hok, hl, hv, hcl, hcv⟩ := h.handBack slot h.links_stocked h.values_stocked
  refine ⟨(w.tenant? slot).isSome, ⟨pools', w.others slot⟩, ?_, ?_, hcl, hcv⟩
  · rw [clear_eq, hok]
    rfl
  · exact ⟨h.slots_nodup.sublist (List.filter_sublist.map _), hl, hv,
      fun x hx => h.fitted x (List.mem_of_mem_filter hx)⟩

/-- A new structure adds the arrays that are missing on the shelves. -/
theorem settle (h : w.Orderly) {recipe : Recipe} (hok : (w.settle slot recipe.build).outcome = .ok w') :
    ∃ t pools, (recipe.build w.pools).outcome = .ok (t, pools) ∧ w'.Orderly ∧
      (∀ c, w'.linkStock c = w.linkStock c + (t.list.arraySizes.count (1 <<< c) - w.pools.links.pooled c)) ∧
      (∀ c, w'.valueStock c = w.valueStock c + (t.valueSizes.count (1 <<< c) - w.pools.values.pooled c)) ∧
      ∀ c, (w.settle slot recipe.build).events.count (.freshArray c) =
        (t.list.arraySizes.count (1 <<< c) - w.pools.links.pooled c) +
          (t.valueSizes.count (1 <<< c) - w.pools.values.pooled c) := by
  rw [settle_eq] at hok ⊢
  rw [outcome_bind] at hok
  obtain ⟨⟨t, pools₁⟩, hbuild, hok⟩ := bind_eq_ok.mp hok
  obtain ⟨hfit, hd⟩ := Recipe.build_draws h.links_stocked h.values_stocked hbuild
  obtain ⟨pools₂, hback, hl, hv, hcl, hcv⟩ := h.handBack slot hd.links_stocked hd.values_stocked
  obtain ⟨pools', hback', rfl⟩ := outcome_map_eq_ok hok
  cases hback.symm.trans hback'
  refine ⟨t, pools₁, hbuild, h.replace hfit hl hv, fun c => ?_, fun c => ?_, fun c => ?_⟩
  · have := hcl c
    rw [hd.links_pooled] at this
    simp only [linkStock, linkSizes, Workspace.set, List.flatMap_cons, List.count_append] at this ⊢
    rw [show ({ w with pools := pools₂ } : Workspace).others slot = w.others slot from rfl]
    omega
  · have := hcv c
    rw [hd.values_pooled] at this
    simp only [valueStock, valueSizes, Workspace.set, List.flatMap_cons, List.count_append] at this ⊢
    rw [show ({ w with pools := pools₂ } : Workspace).others slot = w.others slot from rfl]
    omega
  · rw [count_events_bind hbuild, hd.fresh, Nat.add_eq_left]
    exact Frugal.count_eq ((frugal_lift _).map _) c

/-- A structure that is told something keeps its arrays. -/
theorem told (h : w.Orderly) {t' : Tenant} {request : Tenant.Request} (ht : w.tenant? slot = some t)
    (hok : (t.after request).outcome = .ok t') : (w.set slot t').Orderly ∧
      (∀ c, (w.set slot t').linkStock c = w.linkStock c) ∧ ∀ c, (w.set slot t').valueStock c = w.valueStock c := by
  have hperm := perm_of_lookup h.slots_nodup ht
  have hfit : t.Fitted := h.fitted (slot, t) (hperm.mem_iff.mpr List.mem_cons_self)
  obtain ⟨hlinks, hvalues, hfit'⟩ := Tenant.after_same hok
  refine ⟨h.replace (hfit' hfit) h.links_stocked h.values_stocked, fun c => ?_, fun c => ?_⟩
  · rw [linkStock, linkStock, linkSizes, linkSizes, (hperm.flatMap_right _).count_eq, Workspace.set,
      List.flatMap_cons, List.flatMap_cons, hlinks]
    rfl
  · rw [valueStock, valueStock, valueSizes, valueSizes, (hperm.flatMap_right _).count_eq, Workspace.set,
      List.flatMap_cons, List.flatMap_cons, hvalues]
    rfl

/-- What is reported is what the stock grows by. -/
theorem act (h : w.Orderly) {action : Action} (hok : (w.act action).outcome = .ok w') : w'.Orderly ∧
    ∀ c, w'.linkStock c + w'.valueStock c =
      w.linkStock c + w.valueStock c + (w.act action).events.count (.freshArray c) := by
  cases action with
  | build slot recipe =>
    obtain ⟨t, pools, -, h', hl, hv, hes⟩ := h.settle hok
    refine ⟨h', fun c => ?_⟩
    rw [hl, hv, Workspace.act, hes]
    omega
  | drop slot =>
    obtain ⟨b, w₁, hclear, h', hl, hv⟩ := h.clear slot
    obtain ⟨x, hx, rfl⟩ := outcome_map_eq_ok hok
    cases hclear.symm.trans hx
    refine ⟨h', fun c => ?_⟩
    rw [hl, hv, Workspace.act, Frugal.count_eq ((frugal_lift _).map _), Nat.add_zero]
  | tell slot request =>
    rw [Workspace.act] at hok ⊢
    split at hok
    · next t ht =>
      obtain ⟨t', hafter, rfl⟩ := outcome_map_eq_ok hok
      obtain ⟨h', hl, hv⟩ := h.told ht hafter
      refine ⟨h', fun c => ?_⟩
      rw [hl, hv, Frugal.count_eq ((Tenant.frugal_after t request).map _), Nat.add_zero]
    · cases hok
      exact ⟨h, fun c => rfl⟩

/-- Any number of actions. -/
theorem actAll : ∀ {actions : List Action} {w : Workspace}, w.Orderly →
    (actions.foldlM Workspace.act w).outcome = .ok w' → w'.Orderly ∧ ∀ c, w'.linkStock c + w'.valueStock c =
      w.linkStock c + w.valueStock c + (actions.foldlM Workspace.act w).events.count (.freshArray c) := by
  intro actions
  induction actions with
  | nil =>
    intro w h hok
    cases hok
    exact ⟨h, fun c => rfl⟩
  | cons action actions ih =>
    intro w h hok
    rw [List.foldlM_cons] at hok ⊢
    rw [outcome_bind] at hok
    obtain ⟨w₁, hact, hok⟩ := bind_eq_ok.mp hok
    obtain ⟨h₁, hstock₁⟩ := h.act hact
    obtain ⟨h', hstock⟩ := ih h₁ hok
    refine ⟨h', fun c => ?_⟩
    rw [hstock, hstock₁, count_events_bind hact, Nat.add_assoc]

end Orderly

end Workspace

/-! ## The law -/

/-- Each element lives in an array of its own, of the least power of two of items that is at least its height. -/
def SkipList.Housed (s : SkipList) : Prop := ∀ u < s.size, ∃ t, s.towers[u]? = some t ∧
  IsLeast {m | s.height u ≤ m ∧ ∃ c, m = 1 <<< c} t.toArray.size

/-- The values of each element live in another such array. -/
def SumList.Housed (a : SumList) : Prop := a.list.Housed ∧ ∀ u < a.size, ∃ x, a.sums[u]? = some x ∧
  IsLeast {m | a.height u ≤ m ∧ ∃ c, m = 1 <<< c} x.toArray.size

def Tenant.Housed : Tenant → Prop
  | skipList s => s.Housed
  | sumList a => a.Housed
  | forest f => f.tours.Housed

theorem SkipList.Fitted.array {s : SkipList} (h : s.Fitted) {u : Nat} (hu : u < s.towers.size) :
    ∃ t, s.towers[u]? = some t ∧ t.toArray.size = 1 <<< sizeClass (s.height u) := by
  have ht : s.towers[u]? = some s.towers[u] := Array.getElem?_eq_getElem hu
  refine ⟨_, ht, ?_⟩
  rw [height, ht]
  exact (h _ (Array.getElem_mem_toList hu)).2

theorem SkipList.Fitted.housed {s : SkipList} (h : s.Fitted) : s.Housed := by
  intro u hu
  obtain ⟨t, ht, hsize⟩ := h.array hu
  exact ⟨t, ht, hsize ▸ isLeast_shiftLeft_sizeClass _⟩

theorem SumList.Fitted.housed {a : SumList} (h : a.Fitted) : a.Housed := by
  refine ⟨h.list.housed, fun u hu => ?_⟩
  obtain ⟨t, ht, hsize⟩ := h.list.array hu
  have hsizes := congrArg (·[u]?) h.values
  simp only [valueSizes, SkipList.arraySizes, List.getElem?_map, Array.getElem?_toList, ht, Option.map_some] at hsizes
  obtain ⟨x, hx, hxsize⟩ := Option.map_eq_some_iff.mp hsizes
  exact ⟨x, hx, hxsize ▸ hsize ▸ isLeast_shiftLeft_sizeClass _⟩

theorem Tenant.Fitted.housed {t : Tenant} (h : t.Fitted) : t.Housed := by
  cases t with
  | skipList s => exact SkipList.Fitted.housed h
  | sumList a => exact SumList.Fitted.housed h
  | forest f => exact SumList.Fitted.housed h

/-- Asking for the number of waiting arrays of a class. -/
theorem Pool.waiting_eq {α : Type} (p : Pool α) {c : Nat} (hc : c < shelfCount) :
    p.waiting (1 <<< c) = .ok (p.pooled c) := by
  have hpower : nextPowerOfTwo (1 <<< c) = .ok (1 <<< c) := by
    have hword : ∀ c < shelfCount, 1 <<< c ≤ maxWord := by decide
    rw [nextPowerOfTwo, show ceilLog2 (1 <<< c) = c from sizeClass_shiftLeft c]
    exact if_pos (hword c hc)
  rw [waiting, hpower, ok_bind, sizeClass_shiftLeft]
  rfl

/-- Where the arrays are that were made in a workspace, as `es` reports. They are on the shelf of their size or with
the elements whose heights they fit, each in one place. A new structure makes what it needs of a class but for what
waits on the shelf; nothing else makes arrays, and taking structures down brings all of them back. -/
structure Conserved (w : Workspace) (es : List Event) : Prop where
  links_stocked : w.pools.links.Stocked
  values_stocked : w.pools.values.Stocked
  housed : ∀ x ∈ w.tenants, x.2.Housed
  stock : ∀ c, w.linkStock c + w.valueStock c = es.count (.freshArray c)
  built : ∀ slot (recipe : Recipe) w', (w.settle slot recipe.build).outcome = .ok w' →
    ∃ t pools, (recipe.build w.pools).outcome = .ok (t, pools) ∧
      (∀ c, w'.linkStock c = w.linkStock c + (t.list.arraySizes.count (1 <<< c) - w.pools.links.pooled c)) ∧
      (∀ c, w'.valueStock c = w.valueStock c + (t.valueSizes.count (1 <<< c) - w.pools.values.pooled c)) ∧
      ∀ c, (w.settle slot recipe.build).events.count (.freshArray c) =
        (t.list.arraySizes.count (1 <<< c) - w.pools.links.pooled c) +
          (t.valueSizes.count (1 <<< c) - w.pools.values.pooled c)
  told : ∀ slot request w', (w.act (.tell slot request)).outcome = .ok w' →
    (∀ c, w'.linkStock c = w.linkStock c) ∧ ∀ c, w'.valueStock c = w.valueStock c
  dropped : ∀ slot, ∃ b w', w.clear slot = .ok (b, w') ∧
    (∀ c, w'.linkStock c = w.linkStock c) ∧ ∀ c, w'.valueStock c = w.valueStock c
  emptied : w.tenants = [] → ∀ c < shelfCount, ∃ p q, w.pools.links.waiting (1 <<< c) = .ok p ∧
    w.pools.values.waiting (1 <<< c) = .ok q ∧ p + q = es.count (.freshArray c)

theorem Workspace.Orderly.conserved {w : Workspace} {es : List Event} (h : w.Orderly)
    (hes : ∀ c, w.linkStock c + w.valueStock c = es.count (.freshArray c)) : Conserved w es where
  links_stocked := h.links_stocked
  values_stocked := h.values_stocked
  housed x hx := (h.fitted x hx).housed
  stock := hes
  built slot recipe w' hok := by
    obtain ⟨t, pools, hbuild, -, hl, hv, hfresh⟩ := h.settle hok
    exact ⟨t, pools, hbuild, hl, hv, hfresh⟩
  told slot request w' hok := by
    rw [Workspace.act] at hok
    split at hok
    · next t ht =>
      obtain ⟨t', hafter, rfl⟩ := outcome_map_eq_ok hok
      exact (h.told ht hafter).2
    · cases hok
      exact ⟨fun _ => rfl, fun _ => rfl⟩
  dropped slot := by
    obtain ⟨b, w', hclear, -, hl, hv⟩ := h.clear slot
    exact ⟨b, w', hclear, hl, hv⟩
  emptied hnil c hc := by
    refine ⟨_, _, Pool.waiting_eq _ hc, Pool.waiting_eq _ hc, ?_⟩
    rw [← hes, linkStock, valueStock, linkSizes, valueSizes, hnil]
    rfl

/-- However structures are built, told things and taken down again, no array is lost. -/
theorem conserved_of_actions {actions : List Workspace.Action} {w : Workspace}
    (hok : (actions.foldlM Workspace.act .empty).outcome = .ok w) :
    Conserved w (actions.foldlM Workspace.act .empty).events := by
  obtain ⟨h, hstock⟩ := Workspace.orderly_empty.actAll hok
  refine h.conserved fun c => ?_
  rw [hstock]
  simp [Workspace.linkStock, Workspace.valueStock, Workspace.linkSizes, Workspace.valueSizes, Workspace.empty,
    Pools.empty]

/-- A list of three elements, and a list with sums of three after it has gone. -/
def oneAfterTheOther : List Workspace.Action :=
  [.build 0 (.skipList ⟨0⟩ 3 0), .drop 0, .build 1 (.sumList ⟨0⟩ 3 0 fun _ => 1),
    .tell 1 (.sumList (.joinAll [(some 0, some 1)])), .drop 1]

/-- Two elements of three are of height 3 or 4. Their arrays of links are used twice, and with those of their values
there are four arrays of four items in the end. -/
theorem conserved_of_oneAfterTheOther : ∃ w, (oneAfterTheOther.foldlM Workspace.act .empty).outcome = .ok w ∧
    Conserved w (oneAfterTheOther.foldlM Workspace.act .empty).events ∧ ∃ p q, w.pools.links.waiting 4 = .ok p ∧
      w.pools.values.waiting 4 = .ok q ∧ p + q = 4 := by
  have hgone : (oneAfterTheOther.foldlM Workspace.act .empty).outcome.toOption.map (·.tenants.length) = some 0 := by
    decide +kernel
  have hmade : (oneAfterTheOther.foldlM Workspace.act .empty).events.count (.freshArray 2) = 4 := by decide +kernel
  rcases hok : (oneAfterTheOther.foldlM Workspace.act .empty).outcome with e | w
  · rw [hok] at hgone
    cases hgone
  · have hlaw := conserved_of_actions hok
    rw [hok] at hgone
    have hnil : w.tenants = [] := List.eq_nil_of_length_eq_zero (Option.some.inj hgone)
    refine ⟨w, rfl, hlaw, ?_⟩
    rw [← hmade]
    exact hlaw.emptied hnil 2 (by decide)

end TourForest
