import TourForest.Proofs.Forest.Chains

/-!
# Seams of new edges by index

The departures of a batch lie in one array, sorted by the vertices that they leave in one way or another. The seams are made for all indices
on their own: a departure begins or ends a group if the one before it or after it leaves another vertex. The last one of
a group is followed by what was behind the vertex, which is looked up under the number of the group, and that is found
by a binary search among the ends of all groups.

* `search_eq`: the search finds every end of a group;
* `seams_eq`: the seams are the chains of the groups.
-/

namespace TourForest.Forest

namespace Raw

/-- Item `i` of a vector. -/
def nth {α : Type} (xs : List α) (i : Nat) : Except Fault α :=
  match xs[i]? with
  | none => .error (.outOfRange xs.length (some i))
  | some x => .ok x

/-- Looks for `x` from index `lo` up to, not including, index `hi` of a list in order. -/
def searchFrom (xs : List Nat) (x : Nat) : (steps lo hi : Nat) → Option Nat
  | 0, _, _ => none
  | steps + 1, lo, hi =>
    let mid := lo + (hi - lo) / 2
    if hi ≤ lo then none
    else
      match xs[mid]? with
      | none => none
      | some y =>
        if y = x then some mid
        else if y < x then searchFrom xs x steps (mid + 1) hi
        else searchFrom xs x steps lo mid

/-- The index of `x` in a list in order. -/
def search (xs : List Nat) (x : Nat) : Option Nat := searchFrom xs x xs.length 0 xs.length

/-- The vertex that departure `i` leaves. -/
def source? (both : List Departure) (i : Nat) : Option Nat := (both[i]?).map (·.source)

def startsGroup (both : List Departure) (i : Nat) : Bool := i = 0 ∨ source? both (i - 1) ≠ source? both i

def endsGroup (both : List Departure) (i : Nat) : Bool := source? both (i + 1) ≠ source? both i

/-- The last departure of each group. -/
def groupEnds (both : List Departure) : List Nat := (List.range both.length).filter (endsGroup both)

/-- The vertices behind which new elements come. -/
def splitPoints (both : List Departure) : Except Fault (List (Option Nat)) :=
  (groupEnds both).mapM fun i => do return some (← nth both i).source

/-- What comes behind the tour that departure `i` leads to, where `after` was behind the vertices. -/
def following (both : List Departure) (after : List (Option Nat)) (i : Nat) : Except Fault (Option Nat) :=
  if endsGroup both i then
    match search (groupEnds both) i with
    | some g => nth after g
    | none => .error .inconsistent
  else do return some (← nth both (i + 1)).element

/-- The seams for departure `i`. -/
def seamsAt (n : Nat) (both : List Departure) (after : List (Option Nat)) (i : Nat) : Except Fault (List Seam) := do
  let d ← nth both i
  let first : List Seam := if startsGroup both i then [(some d.source, some d.element)] else []
  let next ← following both after i
  return first ++ [(some (← TourForest.twin n d.element), next)]

def seams (n : Nat) (both : List Departure) (after : List (Option Nat)) : Except Fault (List Seam) := do
  return (← (List.range both.length).mapM (seamsAt n both after)).flatten

end Raw

variable {xs : List Nat} {x lo hi g i n : Nat} {both ds : List Departure} {after : List (Option Nat)}

/-! ## Finding the end of a group -/

theorem searchFrom_eq (hs : xs.Pairwise (· < ·)) (hg : xs[g]? = some x) : ∀ {steps lo hi : Nat}, lo ≤ g → g < hi →
    hi ≤ xs.length → hi - lo ≤ steps → Raw.searchFrom xs x steps lo hi = some g := by
  obtain ⟨hglt, hgx⟩ := List.getElem?_eq_some_iff.mp hg
  intro steps
  induction steps with
  | zero => omega
  | succ steps ih =>
    intro lo hi hlo hhi hle hsteps
    have hmid : lo + (hi - lo) / 2 < xs.length := by omega
    rw [Raw.searchFrom, if_neg (by omega), List.getElem?_eq_getElem hmid]
    dsimp only
    rcases Nat.lt_trichotomy (lo + (hi - lo) / 2) g with hlt | heq | hgt
    · have hy : xs[lo + (hi - lo) / 2] < x := hgx ▸ List.pairwise_iff_getElem.mp hs _ g hmid hglt hlt
      rw [if_neg hy.ne, if_pos hy]
      exact ih hlt hhi hle (by omega)
    · rw [if_pos (by simp only [heq, hgx]), heq]
    · have hy : x < xs[lo + (hi - lo) / 2] := hgx ▸ List.pairwise_iff_getElem.mp hs g _ hglt hmid hgt
      rw [if_neg hy.ne', if_neg hy.not_gt]
      exact ih hlo hgt (by omega) (by omega)

/-- Each item of a list in order is found. -/
theorem search_eq (hs : xs.Pairwise (· < ·)) (hg : xs[g]? = some x) : Raw.search xs x = some g :=
  searchFrom_eq hs hg (Nat.zero_le g) (List.getElem?_eq_some_iff.mp hg).1 le_rfl le_rfl

/-- The number of groups that end before departure `i`. -/
def rank (both : List Departure) (i : Nat) : Nat := ((List.range i).filter (Raw.endsGroup both)).length

theorem rank_succ : rank both (i + 1) = rank both i + if Raw.endsGroup both i then 1 else 0 := by
  rw [rank, List.range_succ, List.filter_append, List.length_append, rank, List.filter_singleton]
  cases Raw.endsGroup both i <;> rfl

/-- The end of a group stands in the list of ends under the number of the group. -/
theorem getElem?_groupEnds (hi : i < both.length) (hend : Raw.endsGroup both i) :
    (Raw.groupEnds both)[rank both i]? = some i := by
  obtain ⟨t, ht⟩ : ∃ t, List.range both.length = List.range i ++ i :: t := by
    obtain ⟨m, hm⟩ := Nat.exists_eq_add_of_lt hi
    rw [hm, Nat.add_assoc, List.range_add, List.range_succ_eq_map, List.map_cons]
    exact ⟨_, rfl⟩
  rw [Raw.groupEnds, ht, List.filter_append, List.filter_cons_of_pos hend, rank, List.getElem?_append_right le_rfl,
    Nat.sub_self]
  rfl

theorem search_groupEnds (hi : i < both.length) (hend : Raw.endsGroup both i) :
    Raw.search (Raw.groupEnds both) i = some (rank both i) :=
  search_eq (List.pairwise_lt_range.filter _) (getElem?_groupEnds hi hend)

/-! ## One departure after the other -/

/-- Does another departure from the same vertex come next? -/
def goesOn (d : Departure) (rest : List Departure) : Prop := (rest.head?).map (·.source) = some d.source

instance (d : Departure) (rest : List Departure) : Decidable (goesOn d rest) :=
  inferInstanceAs (Decidable ((rest.head?).map (·.source) = some d.source))

/-- What comes behind the tour that a departure leads to. -/
def behind (d : Departure) (rest : List Departure) (after : List (Option Nat)) : Option Nat :=
  if goesOn d rest then (rest.head?).map (·.element) else (after.head?).join

/-- What is left of `after` for the departures that come next. -/
def further (d : Departure) (rest : List Departure) (after : List (Option Nat)) : List (Option Nat) :=
  if goesOn d rest then after else after.tail

/-- The seams of departures one after the other, where those before leave `left`. -/
def scan (n : Nat) : (left : Option Nat) → List Departure → (after : List (Option Nat)) → List Seam
  | _, [], _ => []
  | left, d :: rest, after =>
    (if left = some d.source then [] else [(some d.source, some d.element)]) ++
      (some (mate n d.element), behind d rest after) :: scan n (some d.source) rest (further d rest after)

/-- The sources of the groups, as they end. -/
def scanSources : List Departure → List Nat
  | [] => []
  | d :: rest =>
    if goesOn d rest then scanSources rest else d.source :: scanSources rest

/-- The vertex that the departure before departure `i` leaves. -/
def leftBefore (both : List Departure) (i : Nat) : Option Nat := if i = 0 then none else Raw.source? both (i - 1)

section

variable {d : Departure} {rest : List Departure}

theorem source?_of_drop (h : both.drop i = d :: rest) : Raw.source? both i = some d.source := by
  rw [Raw.source?, ← List.head?_drop, h]
  rfl

theorem source?_succ_of_drop (h : both.drop i = d :: rest) :
    Raw.source? both (i + 1) = (rest.head?).map (·.source) := by
  rw [Raw.source?, ← List.head?_drop, ← List.tail_drop, h, List.tail_cons]

theorem endsGroup_iff (h : both.drop i = d :: rest) : Raw.endsGroup both i = true ↔ ¬ goesOn d rest := by
  rw [Raw.endsGroup, source?_of_drop h, source?_succ_of_drop h, decide_eq_true_iff]
  rfl

theorem startsGroup_iff (h : both.drop i = d :: rest) :
    Raw.startsGroup both i = true ↔ ¬ leftBefore both i = some d.source := by
  rw [Raw.startsGroup, leftBefore, source?_of_drop h, decide_eq_true_iff]
  rcases Nat.eq_zero_or_pos i with rfl | hi
  · simp
  · simp [hi.ne']

theorem nth_of_drop (h : both.drop i = d :: rest) : Raw.nth both i = .ok d := by
  rw [Raw.nth, ← List.head?_drop, h]
  rfl

theorem following_eq (h : both.drop i = d :: rest) (hafter : after.length = (Raw.groupEnds both).length) :
    Raw.following both after i = .ok (behind d rest (after.drop (rank both i))) := by
  have hi : i < both.length := by
    have := congrArg List.length h
    simp only [List.length_drop, List.length_cons] at this
    omega
  rw [Raw.following, behind]
  by_cases hend : Raw.endsGroup both i
  · have hlt : rank both i < after.length := by
      rw [hafter]
      exact (List.getElem?_eq_some_iff.mp (getElem?_groupEnds hi hend)).1
    rw [if_pos hend, if_neg ((endsGroup_iff h).mp hend), search_groupEnds hi hend, List.head?_drop,
      List.getElem?_eq_getElem hlt]
    simp only [Raw.nth, List.getElem?_eq_getElem hlt]
    rfl
  · have hon : goesOn d rest := Decidable.not_not.mp (mt (endsGroup_iff h).mpr hend)
    rw [if_neg hend, if_pos hon]
    rcases rest with _ | ⟨d', rest⟩
    · cases hon
    · have hnext : both.drop (i + 1) = d' :: rest := by
        rw [← List.tail_drop, h, List.tail_cons]
      rw [nth_of_drop hnext]
      rfl

theorem drop_rank_succ (h : both.drop i = d :: rest) :
    after.drop (rank both (i + 1)) = further d rest (after.drop (rank both i)) := by
  rw [rank_succ, further]
  by_cases hend : Raw.endsGroup both i
  · rw [if_pos hend, if_neg ((endsGroup_iff h).mp hend), List.tail_drop]
  · rw [if_neg hend, if_pos (Decidable.not_not.mp (mt (endsGroup_iff h).mpr hend)), Nat.add_zero]

theorem leftBefore_succ (h : both.drop i = d :: rest) : leftBefore both (i + 1) = some d.source :=
  source?_of_drop h

end

/-- The seams by index are those one after the other. -/
theorem mapM_seamsAt (hafter : after.length = (Raw.groupEnds both).length)
    (he : ∀ d ∈ both, n ≤ d.element ∧ d.element < maxWord) : ∀ {m i : Nat}, i + m = both.length →
    ∃ pieces, (List.range' i m).mapM (Raw.seamsAt n both after) = .ok pieces ∧
      pieces.flatten = scan n (leftBefore both i) (both.drop i) (after.drop (rank both i)) := by
  intro m
  induction m with
  | zero =>
    intro i hi
    refine ⟨[], rfl, ?_⟩
    rw [List.drop_eq_nil_of_le (by omega)]
    rfl
  | succ m ih =>
    intro i hi
    obtain ⟨d, hd⟩ : ∃ d, both.drop i = d :: both.drop (i + 1) := ⟨_, List.drop_eq_getElem_cons (by omega)⟩
    obtain ⟨pieces, hpieces, hflatten⟩ := ih (i := i + 1) (by omega)
    obtain ⟨hle, hlt⟩ := he d (List.mem_of_mem_drop (hd ▸ List.mem_cons_self))
    have hpiece : Raw.seamsAt n both after i =
        .ok ((if Raw.startsGroup both i then [(some d.source, some d.element)] else []) ++
          [(some (mate n d.element), behind d (both.drop (i + 1)) (after.drop (rank both i)))]) := by
      rw [Raw.seamsAt, nth_of_drop hd, ok_bind, following_eq hd hafter, ok_bind, twin_eq hle hlt]
      rfl
    refine ⟨_, by rw [List.range'_succ, List.mapM_cons, hpiece, ok_bind, hpieces]; rfl, ?_⟩
    rw [List.flatten_cons, hflatten, hd, scan, leftBefore_succ hd, drop_rank_succ hd, List.append_assoc,
      List.singleton_append]
    congr 1
    by_cases hstart : Raw.startsGroup both i
    · rw [if_pos hstart, if_neg ((startsGroup_iff hd).mp hstart)]
    · rw [if_neg hstart, if_pos (Decidable.not_not.mp (mt (startsGroup_iff hd).mpr hstart))]

theorem seams_eq_scan (hafter : after.length = (Raw.groupEnds both).length)
    (he : ∀ d ∈ both, n ≤ d.element ∧ d.element < maxWord) : Raw.seams n both after = .ok (scan n none both after) := by
  obtain ⟨pieces, hpieces, hflatten⟩ := mapM_seamsAt hafter he (Nat.zero_add both.length)
  rw [Raw.seams, List.range_eq_range', hpieces]
  exact congrArg Except.ok hflatten

theorem mapM_sources : ∀ {m i : Nat}, i + m = both.length →
    ((List.range' i m).filter (Raw.endsGroup both)).mapM (fun i => do return some (← Raw.nth both i).source) =
      .ok ((scanSources (both.drop i)).map some) := by
  intro m
  induction m with
  | zero =>
    intro i hi
    rw [List.drop_eq_nil_of_le (by omega)]
    rfl
  | succ m ih =>
    intro i hi
    obtain ⟨d, hd⟩ : ∃ d, both.drop i = d :: both.drop (i + 1) := ⟨_, List.drop_eq_getElem_cons (by omega)⟩
    rw [List.range'_succ, hd, scanSources]
    by_cases hend : Raw.endsGroup both i
    · rw [List.filter_cons_of_pos hend, List.mapM_cons, nth_of_drop hd, if_neg ((endsGroup_iff hd).mp hend), ih (by omega)]
      rfl
    · rw [List.filter_cons_of_neg hend, ih (by omega), if_pos (Decidable.not_not.mp (mt (endsGroup_iff hd).mpr hend))]

theorem splitPoints_eq_scan (both : List Departure) :
    Raw.splitPoints both = .ok ((scanSources both).map some) := by
  rw [Raw.splitPoints, Raw.groupEnds, List.range_eq_range']
  exact mapM_sources (Nat.zero_add both.length)

/-- There are as many ends as groups. -/
theorem length_groupEnds (both : List Departure) : (Raw.groupEnds both).length = (scanSources both).length := by
  have := length_of_mapM (splitPoints_eq_scan both)
  rwa [List.length_map, eq_comm] at this

/-! ## Group by group -/

section

variable {v : Nat} {us : List Nat} {F : Nat → List Departure} {post : List Departure}

/-- The seams that sew elements in behind `l`. -/
def linked (n l : Nat) (after : Option Nat) : List Nat → List Seam
  | [] => [(some l, after)]
  | e :: es => (some l, some e) :: linked n (mate n e) after es

theorem chain_eq_linked {es : List Nat} {l : Nat} {o : Option Nat} (he : ∀ e ∈ es, n ≤ e ∧ e < maxWord) :
    chain n l o es = .ok (linked n l o es) := by
  induction es generalizing l with
  | nil => rfl
  | cons e es ih =>
    obtain ⟨⟨hle, hlt⟩, hes⟩ := List.forall_mem_cons.mp he
    rw [chain, twin_eq hle hlt, ok_bind, ih hes]
    rfl

/-- The departures of one group, and then others. -/
theorem scan_group (hpost : (post.head?).map (·.source) ≠ some v) : ∀ {g : List Departure} {d : Departure}
    {left : Option Nat}, (∀ x ∈ d :: g, x.source = v) →
    scan n left (d :: g ++ post) after = (if left = some v then [] else [(some v, some d.element)]) ++
      linked n (mate n d.element) (after.head?).join (g.map (·.element)) ++ scan n (some v) post after.tail := by
  intro g
  induction g with
  | nil =>
    intro d left hd
    obtain rfl := hd d List.mem_cons_self
    have hover : ¬ goesOn d post := hpost
    rw [List.singleton_append, scan, behind, further, if_neg hover, if_neg hover]
    simp [linked]
  | cons d' g ih =>
    intro d left hd
    obtain ⟨rfl, hd'⟩ := List.forall_mem_cons.mp hd
    have hon : goesOn d (d' :: g ++ post) := congrArg some (hd' d' List.mem_cons_self)
    rw [List.cons_append, scan, behind, further, if_pos hon, if_pos hon, ih hd', if_pos rfl]
    simp [linked]

theorem scanSources_group (hpost : (post.head?).map (·.source) ≠ some v) : ∀ {g : List Departure} {d : Departure},
    (∀ x ∈ d :: g, x.source = v) → scanSources (d :: g ++ post) = v :: scanSources post := by
  intro g
  induction g with
  | nil =>
    intro d hd
    obtain rfl := hd d List.mem_cons_self
    exact if_neg hpost
  | cons d' g ih =>
    intro d hd
    obtain ⟨rfl, hd'⟩ := List.forall_mem_cons.mp hd
    have hon : goesOn d (d' :: g ++ post) := congrArg some (hd' d' List.mem_cons_self)
    rw [List.cons_append, scanSources, if_pos hon, ih hd']

/-- The first departure of the groups of `us` leaves the first of `us`. -/
theorem head_flatMap (hF : ∀ v ∈ us, F v ≠ [] ∧ ∀ d ∈ F v, d.source = v) :
    ((us.flatMap F).head?).map (·.source) = us.head? := by
  rcases us with _ | ⟨v, us⟩
  · rfl
  · obtain ⟨hne, hsource⟩ := hF v List.mem_cons_self
    obtain ⟨d, g, hd⟩ := List.exists_cons_of_ne_nil hne
    rw [List.flatMap_cons, hd]
    exact congrArg some (hsource d (hd ▸ List.mem_cons_self))

theorem scanSources_flatMap (hus : us.Pairwise (· < ·)) (hF : ∀ v ∈ us, F v ≠ [] ∧ ∀ d ∈ F v, d.source = v) :
    scanSources (us.flatMap F) = us := by
  induction us with
  | nil => rfl
  | cons v us ih =>
    obtain ⟨hlt, hus⟩ := List.pairwise_cons.mp hus
    obtain ⟨⟨hne, hsource⟩, hF⟩ := List.forall_mem_cons.mp hF
    obtain ⟨d, g, hd⟩ := List.exists_cons_of_ne_nil hne
    have hpost : ((us.flatMap F).head?).map (·.source) ≠ some v := by
      rw [head_flatMap hF]
      exact fun hv => (hlt v (List.mem_of_head? hv)).ne rfl
    rw [List.flatMap_cons, hd, scanSources_group hpost (hd ▸ hsource), ih hus hF]

/-- The seams one after the other are the chains of the groups. -/
theorem chains_eq_scan : ∀ {us : List Nat} {left : Option Nat} {after : List (Option Nat)}, us.Pairwise (· < ·) →
    (∀ v ∈ us, left ≠ some v) → (∀ v ∈ us, F v ≠ [] ∧ ∀ d ∈ F v, d.source = v ∧ n ≤ d.element ∧ d.element < maxWord) →
    after.length = us.length → chains n ((us.map F).zip after) = .ok (scan n left (us.flatMap F) after) := by
  intro us
  induction us with
  | nil => exact fun _ _ _ _ => rfl
  | cons v us ih =>
    intro left after hus hleft hF hafter
    obtain ⟨hlt, hrest⟩ := List.pairwise_cons.mp hus
    obtain ⟨⟨hne, hv⟩, hgroups⟩ := List.forall_mem_cons.mp hF
    obtain ⟨d, g, hd⟩ := List.exists_cons_of_ne_nil hne
    obtain ⟨o, after, rfl⟩ := List.exists_cons_of_length_eq_add_one hafter
    have hpost : ((us.flatMap F).head?).map (·.source) ≠ some v := by
      rw [head_flatMap fun w hw => ⟨(hgroups w hw).1, fun x hx => ((hgroups w hw).2 x hx).1⟩]
      exact fun hv => (hlt v (List.mem_of_head? hv)).ne rfl
    rw [hd] at hv
    obtain ⟨rfl, -, -⟩ := hv d List.mem_cons_self
    have helem : ∀ e ∈ (d :: g).map (·.element), n ≤ e ∧ e < maxWord := by
      intro e he
      obtain ⟨x, hx, rfl⟩ := List.mem_map.mp he
      exact (hv x hx).2
    have hgroup (w : Nat) (hw : w ∈ us) : some d.source ≠ some w := fun he => (hlt w hw).ne (Option.some.inj he)
    rw [List.map_cons, List.zip_cons_cons, hd, chains, chain_eq_linked helem, ok_bind,
      ih hrest hgroup hgroups (by simpa using hafter),
      List.flatMap_cons, hd, scan_group hpost fun x hx => (hv x hx).1, if_neg (hleft d.source List.mem_cons_self)]
    simp [linked]

end

/-! ## The departures of a batch -/

/-- The departures in order, group by group. -/
theorem sort_eq_flatMap (σ : Sorting) (ds : List Departure) :
    σ.sort ds = (sources ds).flatMap (fromSource (σ.sort ds)) := by
  have hflatten := congrArg List.flatten (bySource_eq σ ds)
  rwa [bySource, List.flatten_splitBy] at hflatten

theorem sources_pairwise (ds : List Departure) : (sources ds).Pairwise (· < ·) := (Finset.sortedLT_sort _).pairwise

theorem fromSource_of_mem_sources (σ : Sorting) {v : Nat} (hv : v ∈ sources ds) :
    fromSource (σ.sort ds) v ≠ [] ∧ ∀ d ∈ fromSource (σ.sort ds) v, d.source = v ∧ d ∈ ds := by
  refine ⟨mem_sources_iff_sort.mp hv, fun d hd => ?_⟩
  obtain ⟨hm, hs⟩ := List.mem_filter.mp hd
  exact ⟨of_decide_eq_true hs, (σ.perm ds).mem_iff.mp hm⟩

theorem scanSources_sort (σ : Sorting) (ds : List Departure) : scanSources (σ.sort ds) = sources ds := by
  rw [sort_eq_flatMap]
  refine scanSources_flatMap (sources_pairwise ds) fun v hv => ?_
  obtain ⟨hne, hd⟩ := fromSource_of_mem_sources σ hv
  exact ⟨hne, fun d hm => (hd d hm).1⟩

/-- The vertices behind which new elements come are those of the groups. -/
theorem splitPoints_eq (σ : Sorting) (ds : List Departure) :
    Raw.splitPoints (σ.sort ds) = .ok ((bySource σ ds).map fun g => g.head?.map (·.source)) := by
  rw [splitPoints_eq_scan, scanSources_sort, heads_bySource]

/-- The seams by index are the chains of the groups. -/
theorem seams_eq (σ : Sorting) (he : ∀ d ∈ ds, n ≤ d.element ∧ d.element < maxWord)
    (hafter : after.length = (bySource σ ds).length) :
    Raw.seams n (σ.sort ds) after = chains n ((bySource σ ds).zip after) := by
  rw [bySource_eq, List.length_map] at hafter
  have hends : after.length = (Raw.groupEnds (σ.sort ds)).length := by
    rw [hafter, length_groupEnds, scanSources_sort]
  rw [seams_eq_scan hends fun d hd => he d ((σ.perm ds).mem_iff.mp hd), sort_eq_flatMap, bySource_eq]
  refine (chains_eq_scan (sources_pairwise ds) (by simp) (fun v hv => ?_) hafter).symm
  obtain ⟨hne, hd⟩ := fromSource_of_mem_sources σ hv
  exact ⟨hne, fun d hm => ⟨(hd d hm).1, he d (hd d hm).2⟩⟩

end TourForest.Forest
