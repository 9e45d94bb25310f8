import TourForest.Proofs.Forest.Arena
import TourForest.Proofs.Forest.Layout
import TourForest.Proofs.Raw.Build
import TourForest.Proofs.Raw.Seams

/-!
# Forests on raw arrays

The operations of a forest on the arrays of its elements as they lie in memory: the tours are split, joined and asked
as lists with sums on raw arrays, the marks of doomed elements are behind the bounds of the arena, and the seams of a
batch of edges are made by index, where the end of a group that is not found is a fault of its own
(`Fault.inconsistent`), as is the lack of a pair after the check for shortage.

Neither comes about, and no element out of the arena is met: all elements in the index of a forest and all free pairs
are in the range that they were made with (`Ranged`), whatever is asked. So the operations end like the others on any
forest that is the same but for what lies beyond the levels of its elements (`Covers`).
-/

namespace TourForest.Forest

namespace Raw

/-! ## Queries -/

def connected (f : Forest) (u v : Nat) : Except Fault Bool := SkipList.Raw.sameSequence f.tours.list u v

def connectedAll (f : Forest) (queries : List (Nat × Nat)) : Except Fault (List Bool) :=
  queries.mapM fun (u, v) => connected f u v

def treeSize (f : Forest) (v : Nat) : Except Fault Nat := do return (← SumList.Raw.sum f.tours v).toNat

def treeVertices (f : Forest) (v : Nat) : Except Fault (List Nat) := do
  return (← SkipList.Raw.sequence f.tours.list v).filter (· < f.vertices)

/-! ## Adding edges -/

def attach (f : Forest) (u v pair : Nat) : Except Fault (Except Refusal Unit × Forest) := do
  let (uv, vu) := elementsOfPair f.vertices pair
  match ← f.edges.insert u v uv with
  | (.error refusal, edges) => return (.error refusal, { f with edges })
  | (.ok _, edges) =>
    let (after, tours) ← SumList.Raw.splitAll f.tours [some u, some v]
    let uNext ← nth after 0
    let vNext ← nth after 1
    let tours ← SumList.Raw.joinAll tours
      [(some u, some uv), (some uv, vNext), (some v, some vu), (some vu, uNext)]
    return (.ok (), { f with edges, tours })

/-- The check for shortage comes first, and the pair is taken after it. -/
def link (f : Forest) (u v : Nat) : Traced (Except Refusal Unit × Forest) := do
  match f.shortage? 1 with
  | some refusal => return (.error refusal, f)
  | none =>
    if ← connected f u v then Traced.fault (.closesCycle u v)
    else
      Traced.report (.link u v)
      match f.freePairs with
      | [] => Traced.fault .inconsistent
      | pair :: freePairs => attach { f with freePairs } u v pair

def linkEach (f : Forest) : List (Nat × Nat) → Traced (Except Refusal Unit × Forest)
  | [] => return (.ok (), f)
  | (u, v) :: rest => do
    match ← link f u v with
    | (.ok (), f) => linkEach f rest
    | refused => return refused

def linkTogether (f : Forest) (σ : Sorting) (links : List (Nat × Nat)) :
    Except Fault (Except Refusal Unit × Forest) := do
  let k := links.length
  let _ ← subWords f.freePairs.length k
  let paired := links.zip (f.freePairs.take k).reverse
  let freePairs := f.freePairs.drop k
  match ← enter f.vertices f.edges paired with
  | (.error refusal, edges) => return (.error refusal, { f with edges, freePairs })
  | (.ok (), edges) =>
    let both := σ.sort (departures f.vertices paired)
    let points ← splitPoints both
    let (after, tours) ← SumList.Raw.splitAll f.tours points
    let seams ← seams f.vertices both after
    let tours ← SumList.Raw.joinAll tours seams
    return (.ok (), { f with edges, freePairs, tours })

def linkAll (f : Forest) (σ : Sorting) (links : List (Nat × Nat)) : Traced (Except Refusal Unit × Forest) := do
  let k := links.length
  match f.shortage? k with
  | some refusal => return (.error refusal, f)
  | none =>
    if k ≤ f.settings.oneByOneLimit then
      Traced.report (.linkBatch k true)
      linkEach f links
    else
      Traced.report (.linkBatch k false)
      linkTogether f σ links

/-! ## Removing edges -/

def unlink (f : Forest) (u v : Nat) : Except Fault Forest := do
  let (uv, vu) ← f.edgeElements u v
  let (_, edges) ← f.edges.erase u v
  let uPrev ← SkipList.Raw.prev f.tours.list uv 0
  let vPrev ← SkipList.Raw.prev f.tours.list vu 0
  let vNext ← SkipList.Raw.next f.tours.list uv 0
  let uNext ← SkipList.Raw.next f.tours.list vu 0
  let (_, tours) ← SumList.Raw.splitAll f.tours [some uv, some vu, uPrev, vPrev]
  let tours ← SumList.Raw.detach tours uv 0
  let tours ← SumList.Raw.detach tours vu 0
  let tours ← SumList.Raw.joinAll tours [(uPrev, uNext), (vPrev, vNext)]
  return { f with edges, tours, freePairs := (← pairOf f.vertices uv) :: f.freePairs }

def cut (f : Forest) (u v : Nat) : Traced Forest := do
  if !(← f.hasEdge u v) then Traced.fault (.missingEdge u v)
  else
    Traced.report (.cut u v)
    unlink f u v

def cutEach (f : Forest) : List (Nat × Nat) → Traced Forest
  | [] => return f
  | (u, v) :: rest => do cutEach (← cut f u v) rest

def setDoomed (f : Forest) (x : Nat) (doomed : Bool) : Except Fault Forest := do
  f.tours.list.check x
  return f.setDoomed x doomed

def survivor (f : Forest) : (steps : Nat) → (right : Option Nat) → Except Fault (Option Nat)
  | 0, _ => .error .endlessWalk
  | steps + 1, right => do
    match right with
    | none => f.tours.list.noElement
    | some x =>
      if ← f.isDoomed (some x) then survivor f steps (← SkipList.Raw.next f.tours.list (← f.twin x) 0)
      else return some x

def closing (f : Forest) (e twin : Nat) : Except Fault (Option Seam) := do
  let left ← SkipList.Raw.prev f.tours.list e 0
  if ← f.isDoomed left then return none
  else return some (left, ← survivor f (f.tours.size + 1) (← SkipList.Raw.next f.tours.list twin 0))

def closings (f : Forest) : List (Nat × Nat) → Except Fault (List Seam)
  | [] => .ok []
  | (uv, vu) :: rest => do
    let first ← closing f uv vu
    let second ← closing f vu uv
    return first.toList ++ second.toList ++ (← closings f rest)

/-- The elements behind which the tours are split. -/
def cutPoints (f : Forest) (elements : List (Nat × Nat)) : Except Fault (List (Option Nat)) := do
  let points ← elements.mapM fun (uv, vu) => do
    return [some uv, some vu, ← SkipList.Raw.prev f.tours.list uv 0, ← SkipList.Raw.prev f.tours.list vu 0]
  return points.flatten.filter Option.isSome

/-- Takes an element out of the tours that is doomed no longer. -/
def clear (f : Forest) (x : Nat) : Except Fault Forest := do
  let tours ← SumList.Raw.detach f.tours x 0
  setDoomed { f with tours } x false

def cutTogether (f : Forest) (cuts : List (Nat × Nat)) : Except Fault Forest := do
  let elements ← cuts.mapM fun (u, v) => f.edgeElements u v
  let members := elements.flatMap fun (uv, vu) => [uv, vu]
  let f ← members.foldlM (fun f x => setDoomed f x true) f
  let seams ← closings f elements
  let points ← cutPoints f elements
  let (_, tours) ← SumList.Raw.splitAll f.tours points
  let f ← members.foldlM clear { f with tours }
  let tours ← SumList.Raw.joinAll f.tours seams
  let edges ← eraseEdges f.edges cuts
  let freed ← elements.mapM fun (uv, _) => pairOf f.vertices uv
  return { f with tours, edges, freePairs := freed.reverse ++ f.freePairs }

def cutRounds : (rounds : Nat) → Forest → List (Nat × Nat) → Traced Forest
  | 0, _, _ => Traced.fault .endlessRounds
  | rounds + 1, f, cuts => do
    if cuts.length ≤ f.settings.oneByOneLimit then
      Traced.report (.cutBatch cuts.length true)
      cutEach f cuts
    else
      Traced.report (.cutBatch cuts.length false)
      let (postponed, now) := postpone f.randomness f.settings.postponeOneIn cuts
      let f := { f with randomness := f.randomness.next }
      Traced.report (.cutRound now.length postponed.length)
      cutRounds rounds (← cutTogether f now) postponed

def cutAll (f : Forest) (cuts : List (Nat × Nat)) : Traced Forest :=
  cutRounds ((cuts.length + 1) * (maxWord + 1) + 1) f cuts

/-! ## Requests -/

def serve (f : Forest) : Request → Traced (Answer × Forest)
  | .connected u v => return (.truth (← connected f u v), f)
  | .connectedAll queries => return (.truths (← connectedAll f queries), f)
  | .treeSize v => return (.number (← treeSize f v), f)
  | .treeVertices v => return (.members (← treeVertices f v), f)
  | .hasEdge u v => return (.truth (← f.hasEdge u v), f)
  | .edgeCount => return (.number f.edgeCount, f)
  | .edges => return (.edges f.edges.edges, f)
  | .link u v => do
    let (reply, f) ← link f u v
    return (.ofReply reply, f)
  | .linkAll σ links => do
    let (reply, f) ← linkAll f σ links
    return (.ofReply reply, f)
  | .cut u v => return (.done, ← cut f u v)
  | .cutAll cuts => return (.done, ← cutAll f cuts)

/-! ## New forests -/

def build (pools : Pools) (n : Nat) (settings : Settings) : Traced (Forest × Pools) := do
  if WordKey.maxHalf.toNat ≤ n then Traced.fault .tooManyVertices
  else
    let randomness : Random := ⟨settings.seed⟩
    let (tours, pools) ←
      SumList.Raw.build pools randomness (arenaSize n) doomedBytes fun i => if i < n then 1 else 0
    let tours ← SumList.Raw.joinAll tours ((List.range n).map fun v => (some v, some v))
    Traced.report (.forestCreated n)
    let edges ← EdgeIndex.forVertices n
    let forest : Forest :=
      { vertices := n
        tours := tours
        doomed := Array.replicate (arenaSize n) false
        edges := edges
        freePairs := List.range (n - 1)
        randomness := randomness.fork 1
        settings := settings }
    return (forest, pools)

end Raw

variable {f c : Forest} {u v x n k : Nat} {links cuts : List (Nat × Nat)}

/-! ## What is in range -/

/-- The tours have an element for everything in the arena, and all elements of edges and all free pairs are in it. -/
structure Ranged (c : Forest) : Prop where
  size : c.tours.size = arenaSize c.vertices
  within : c.edges.Within c.vertices
  free : ∀ p ∈ c.freePairs, p < c.vertices - 1

namespace Ranged

theorem lt_size (h : c.Ranged) (hx : InArena c.vertices x) : x < c.tours.size := hx.lt.trans_eq h.size.symm

theorem edgeElements (h : c.Ranged) {x y : Nat} (hok : c.edgeElements u v = .ok (x, y)) :
    InArena c.vertices x ∧ y = mate c.vertices x := by
  rw [Forest.edgeElements] at hok
  obtain ⟨found, hfind, hok⟩ := bind_eq_ok.mp hok
  rcases found with _ | z
  · cases hok
  · have hz := h.within.find? hfind
    have htwin : c.twin z = .ok (mate c.vertices z) := hz.twin_eq h.within.few
    obtain ⟨y', hy, hok⟩ := bind_eq_ok.mp hok
    cases hok
    exact ⟨hz, Except.ok.inj (hy.symm.trans htwin)⟩

/-- The elements of the edges of a batch. -/
theorem elements (h : c.Ranged) {elements : List (Nat × Nat)}
    (hok : (cuts.mapM fun e => c.edgeElements e.1 e.2) = .ok elements) :
    ∀ e ∈ elements, InArena c.vertices e.1 ∧ InArena c.vertices e.2 := by
  intro e hm
  obtain ⟨_, -, hok⟩ := exists_of_mem_mapM hok e hm
  obtain ⟨hx, hy⟩ := h.edgeElements hok
  exact ⟨hx, hy ▸ hx.mate⟩

end Ranged

/-- The pairs that elements of edges belong to. -/
theorem lt_of_mapM_pairOf {elements : List (Nat × Nat)} (he : ∀ e ∈ elements, InArena n e.1 ∧ InArena n e.2)
    {pairs : List Nat} (hok : (elements.mapM fun e => pairOf n e.1) = .ok pairs) : ∀ p ∈ pairs, p < n - 1 := by
  intro p hp
  obtain ⟨e, hm, hok⟩ := exists_of_mem_mapM hok p hp
  rw [pairOf_eq (he e hm).1.le] at hok
  cases hok
  exact (he e hm).1.pair_lt

theorem inArena_of_mem_departures {n : Nat} {links : List ((Nat × Nat) × Nat)} (hp : ∀ l ∈ links, l.2 < n - 1)
    {d : Departure} (hd : d ∈ departures n links) : InArena n d.element := by
  rw [departures, List.mem_flatMap] at hd
  obtain ⟨⟨⟨u, v⟩, p⟩, hl, hd⟩ := hd
  obtain ⟨h, h'⟩ := InArena.pair (hp _ hl)
  rcases List.mem_pair.mp hd with rfl | rfl
  · exact h
  · exact h'

/-! ## Forests with the same tours -/

/-- `f` is `c` but for what lies beyond the levels of its elements, and all of `c` is in range. -/
structure Covers (f c : Forest) : Prop where
  exists_tours : ∃ a : SumList, a.Covers c.tours ∧ f = { c with tours := a }
  ranged : c.Ranged

/-- Element `x` out of the tours, and doomed no longer. -/
def clear (f : Forest) (x : Nat) : Forest := { f with tours := f.tours.detach x 0 }.setDoomed x false

theorem foldl_clear (xs : List Nat) (f : Forest) (tours : SumList) :
    xs.foldl clear { f with tours } = { xs.foldl (fun f x => f.setDoomed x false) f with
      tours := xs.foldl (fun tours x => tours.detach x 0) tours } := by
  induction xs generalizing f tours with
  | nil => rfl
  | cons x xs ih => exact ih (f.setDoomed x false) (tours.detach x 0)

namespace Covers

/-! ### Adding edges -/

theorem connected_eq (h : f.Covers c) (u v : Nat) : Raw.connected f u v = c.connected u v := by
  obtain ⟨a, ha, rfl⟩ := h.exists_tours
  exact ha.list.sameSequence_eq u v

theorem attach (h : f.Covers c) {p : Nat} (hp : p < c.vertices - 1) (u v : Nat) :
    EndAlike (Answering Covers) (Raw.attach f u v p) (c.attach u v p) := by
  obtain ⟨⟨a, ha, rfl⟩, hr⟩ := h
  rw [Raw.attach, Forest.attach]
  refine .after fun x hx => ?_
  obtain ⟨reply, edges⟩ := x
  have hw : edges.Within c.vertices := hr.within.insert (InArena.pair hp).1 hx
  rcases reply with refusal | new
  · exact ⟨rfl, ⟨a, ha, rfl⟩, hr.size, hw, hr.free⟩
  · refine (ha.splitAll_sized _).bind ?_
    rintro ⟨after, b⟩ ⟨_, d⟩ ⟨⟨rfl, hb⟩, hlen, hsize⟩
    obtain ⟨uNext, vNext, rfl⟩ := List.length_eq_two.mp hlen
    refine (hb.joinAll_sized _).bind fun b' d' hd => ?_
    exact ⟨rfl, ⟨b', hd.1, rfl⟩, (hd.2.trans hsize).trans hr.size, hw, hr.free⟩

theorem link (h : f.Covers c) (u v : Nat) : Traced.EndAlike (Answering Covers) (Raw.link f u v) (c.link u v) := by
  have hconnected := h.connected_eq u v
  obtain ⟨⟨a, ha, rfl⟩, hr⟩ := h
  rw [Raw.link, Forest.link, hconnected]
  simp only [shortage?]
  rcases hfree : c.freePairs with _ | ⟨p, rest⟩
  · exact .pure ⟨rfl, ⟨a, ha, by rw [← hfree]⟩, hr⟩
  · refine .bind (.lift (.refl fun _ _ => rfl)) fun closes _ heq => heq ▸ ?_
    cases closes
    · refine .bind (.report _) fun _ _ _ => .lift ?_
      have hpairs := List.forall_mem_cons.mp (hfree ▸ hr.free)
      exact attach (c := { c with freePairs := rest }) ⟨⟨a, ha, rfl⟩, hr.size, hr.within, hpairs.2⟩ hpairs.1 u v
    · exact .fault _ _

theorem linkEach : ∀ {f c : Forest}, f.Covers c →
    Traced.EndAlike (Answering Covers) (Raw.linkEach f links) (c.linkEach links) := by
  induction links with
  | nil => exact fun h => .pure ⟨rfl, h⟩
  | cons l links ih =>
    intro f c h
    obtain ⟨u, v⟩ := l
    refine .bind (h.link u v) ?_
    rintro ⟨reply, f⟩ ⟨_, c⟩ ⟨rfl, h⟩
    rcases reply with refusal | ⟨⟩
    · exact .pure ⟨rfl, h⟩
    · exact ih h

theorem linkTogether (h : f.Covers c) (σ : Sorting) (hk : links.length ≤ c.freePairs.length) :
    EndAlike (Answering Covers) (Raw.linkTogether f σ links) (c.linkTogether σ links) := by
  obtain ⟨⟨a, ha, rfl⟩, hr⟩ := h
  have hsub : subWords c.freePairs.length links.length = .ok (c.freePairs.length - links.length) := if_pos hk
  have hpairs : ∀ l ∈ links.zip (c.freePairs.take links.length).reverse, l.2 < c.vertices - 1 := fun l hl =>
    hr.free l.2 (List.mem_of_mem_take (List.mem_reverse.mp (List.of_mem_zip hl).2))
  rw [Raw.linkTogether, Forest.linkTogether]
  simp only [hsub, ok_bind]
  refine .after fun x hx => ?_
  obtain ⟨reply, edges⟩ := x
  have hw : edges.Within c.vertices := hr.within.enter hpairs hx
  have hrest : ∀ p ∈ c.freePairs.drop links.length, p < c.vertices - 1 := fun p hp =>
    hr.free p (List.mem_of_mem_drop hp)
  rcases reply with refusal | ⟨⟩
  · exact ⟨rfl, ⟨a, ha, rfl⟩, hr.size, hw, hrest⟩
  · simp only [splitPoints_eq, ok_bind]
    refine (ha.splitAll_sized _).bind ?_
    rintro ⟨after, b⟩ ⟨_, d⟩ ⟨⟨rfl, hb⟩, hlen, hsize⟩
    -- There is one answer for each group, so that every end of a group finds what was behind its vertex.
    rw [List.length_map] at hlen
    rw [seams_eq σ (fun e he => ⟨(inArena_of_mem_departures hpairs he).le,
      (inArena_of_mem_departures hpairs he).lt_maxWord hr.within.few⟩) hlen]
    refine .after fun seams _ => (hb.joinAll_sized seams).bind fun b' d' hd => ?_
    exact ⟨rfl, ⟨b', hd.1, rfl⟩, (hd.2.trans hsize).trans hr.size, hw, hrest⟩

theorem linkAll (h : f.Covers c) (σ : Sorting) (links : List (Nat × Nat)) :
    Traced.EndAlike (Answering Covers) (Raw.linkAll f σ links) (c.linkAll σ links) := by
  have htogether (hk : links.length ≤ c.freePairs.length) :
      EndAlike (Answering Covers) (Raw.linkTogether f σ links) (c.linkTogether σ links) := h.linkTogether σ hk
  have heach : Traced.EndAlike (Answering Covers) (Raw.linkEach f links) (c.linkEach links) := h.linkEach
  obtain ⟨⟨a, ha, rfl⟩, hr⟩ := h
  simp only [Raw.linkAll, Forest.linkAll, shortage?]
  rcases Nat.lt_or_ge c.freePairs.length links.length with hlt | hle
  · simp only [hlt, if_true]
    exact .pure ⟨rfl, ⟨a, ha, rfl⟩, hr⟩
  · simp only [Nat.not_lt.mpr hle, if_false]
    split
    · exact .bind (.report _) fun _ _ _ => heach
    · exact .bind (.report _) fun _ _ _ => .lift (htogether hle)

/-! ### Removing edges -/

theorem unlink (h : f.Covers c) (u v : Nat) : EndAlike Covers (Raw.unlink f u v) (c.unlink u v) := by
  obtain ⟨⟨a, ha, rfl⟩, hr⟩ := h
  rw [Raw.unlink, Forest.unlink]
  refine .after fun x hx => ?_
  obtain ⟨uv, vu⟩ := x
  obtain ⟨huv, rfl⟩ := hr.edgeElements hx
  refine .after fun y hy => ?_
  obtain ⟨found, edges⟩ := y
  simp only [ha.list.prev_zero, ha.list.next_zero]
  refine .after fun uPrev _ => .after fun vPrev _ => .after fun vNext _ => .after fun uNext _ => ?_
  refine (ha.splitAll_sized _).bind ?_
  rintro ⟨after, b⟩ ⟨_, d⟩ ⟨⟨rfl, hb⟩, -, hsize⟩
  obtain ⟨b₁, hok₁, hb₁⟩ := hb.detach ((hr.lt_size huv).trans_eq hsize.symm) 0
  have hsize₁ : (d.detach uv 0).size = c.tours.size :=
    (SumList.size_of_layout (SumList.layout_detach d uv 0)).trans hsize
  obtain ⟨b₂, hok₂, hb₂⟩ := hb₁.detach ((hr.lt_size huv.mate).trans_eq hsize₁.symm) 0
  have hsize₂ := (SumList.size_of_layout (SumList.layout_detach (d.detach uv 0) (mate c.vertices uv) 0)).trans hsize₁
  simp only [hok₁, hok₂, ok_bind]
  refine (hb₂.joinAll_sized _).bind fun b' d' hd => .after fun p hp => ?_
  refine ⟨⟨b', hd.1, rfl⟩, (hd.2.trans hsize₂).trans hr.size, hr.within.erase hy, ?_⟩
  rw [pairOf_eq huv.le] at hp
  cases hp
  exact List.forall_mem_cons.mpr ⟨huv.pair_lt, hr.free⟩

theorem cut (h : f.Covers c) (u v : Nat) : Traced.EndAlike Covers (Raw.cut f u v) (c.cut u v) := by
  have hunlink := h.unlink u v
  obtain ⟨⟨a, ha, rfl⟩, hr⟩ := h
  rw [Raw.cut, Forest.cut]
  refine .bind (.lift (.refl fun _ _ => rfl)) fun present _ heq => heq ▸ ?_
  cases present
  · exact .fault _ _
  · exact .bind (.report _) fun _ _ _ => .lift hunlink

theorem cutEach : ∀ {f c : Forest}, f.Covers c → Traced.EndAlike Covers (Raw.cutEach f cuts) (c.cutEach cuts) := by
  induction cuts with
  | nil => exact fun h => .pure h
  | cons e cuts ih =>
    intro f c h
    exact .bind (h.cut e.1 e.2) fun f c h => ih h

/-! ### In rounds -/

theorem isDoomed_eq (h : f.Covers c) (x : Option Nat) : f.isDoomed x = c.isDoomed x := by
  obtain ⟨a, ha, rfl⟩ := h.exists_tours
  rcases x with _ | x
  · simp only [isDoomed, SkipList.noElement, ha.list.size_eq]
  · rw [isDoomed, isDoomed, ha.list.check_eq]

theorem survivor_eq (h : f.Covers c) : ∀ {steps : Nat} {right : Option Nat},
    Raw.survivor f steps right = c.survivor steps right := by
  intro steps
  induction steps with
  | zero => exact fun {_} => rfl
  | succ steps ih =>
    intro right
    rcases right with _ | x
    · obtain ⟨a, ha, rfl⟩ := h.exists_tours
      simp only [Raw.survivor, Forest.survivor, SkipList.noElement, ha.list.size_eq]
    · rw [Raw.survivor, Forest.survivor, h.isDoomed_eq]
      obtain ⟨a, ha, rfl⟩ := h.exists_tours
      simp only [ha.list.next_zero, ih]
      rfl

theorem closing_eq (h : f.Covers c) (e twin : Nat) : Raw.closing f e twin = c.closing e twin := by
  rw [Raw.closing, Forest.closing]
  simp only [h.isDoomed_eq, h.survivor_eq]
  obtain ⟨a, ha, rfl⟩ := h.exists_tours
  simp only [ha.list.prev_zero, ha.list.next_zero, ha.size_eq]

theorem closings_eq (h : f.Covers c) (elements : List (Nat × Nat)) : Raw.closings f elements = c.closings elements := by
  induction elements with
  | nil => rfl
  | cons e elements ih => simp only [Raw.closings, Forest.closings, h.closing_eq, ih]

theorem cutPoints_eq (h : f.Covers c) {elements : List (Nat × Nat)}
    (he : ∀ e ∈ elements, InArena c.vertices e.1 ∧ InArena c.vertices e.2) :
    Raw.cutPoints f elements = .ok (c.splitPoints elements) := by
  obtain ⟨⟨a, ha, rfl⟩, hr⟩ := h
  have hprev {x : Nat} (hx : InArena c.vertices x) :
      SkipList.Raw.prev a.list x 0 = .ok (c.tours.list.prevAt x 0) :=
    ha.list.prev_eq (ha.list.grounded.height_pos x (hr.lt_size hx))
  rw [Raw.cutPoints, mapM_ok fun e hm => ?_, ok_bind, splitPoints, List.flatMap_def]
  · rfl
  · simp only [hprev (he e hm).1, hprev (he e hm).2, ok_bind]
    rfl

theorem setDoomed (h : f.Covers c) (hx : InArena c.vertices x) (doomed : Bool) :
    ∃ f', Raw.setDoomed f x doomed = .ok f' ∧ f'.Covers (c.setDoomed x doomed) := by
  obtain ⟨⟨a, ha, rfl⟩, hr⟩ := h
  refine ⟨_, ?_, ⟨a, ha, rfl⟩, hr.size, hr.within, hr.free⟩
  rw [Raw.setDoomed, ha.list.check_eq, SkipList.check_of_lt (hr.lt_size hx)]
  rfl

theorem setDoomedAll (h : f.Covers c) {xs : List Nat} (hxs : ∀ x ∈ xs, InArena c.vertices x) (doomed : Bool) :
    ∃ f', xs.foldlM (fun f x => Raw.setDoomed f x doomed) f = .ok f' ∧
      f'.Covers (xs.foldl (fun c x => c.setDoomed x doomed) c) ∧
      (xs.foldl (fun c x => c.setDoomed x doomed) c).vertices = c.vertices := by
  refine EndAlike.exists_foldlM (R := fun (f d : Forest) => f.Covers d ∧ d.vertices = c.vertices)
    (fun x hx f d hd => ?_) ⟨h, rfl⟩
  obtain ⟨f', hok, h'⟩ := hd.1.setDoomed (hd.2 ▸ hxs x hx) doomed
  exact ⟨f', hok, h', hd.2⟩

theorem clear (h : f.Covers c) (hx : InArena c.vertices x) : ∃ f', Raw.clear f x = .ok f' ∧ f'.Covers (c.clear x) := by
  obtain ⟨⟨a, ha, rfl⟩, hr⟩ := h
  obtain ⟨a', hok, ha'⟩ := ha.detach (hr.lt_size hx) 0
  have h' : Covers { c with tours := a' } { c with tours := c.tours.detach x 0 } :=
    ⟨⟨a', ha', rfl⟩, (SumList.size_of_layout (SumList.layout_detach c.tours x 0)).trans hr.size, hr.within, hr.free⟩
  rw [Raw.clear, hok, ok_bind]
  exact h'.setDoomed hx false

theorem clearAll (h : f.Covers c) {xs : List Nat} (hxs : ∀ x ∈ xs, InArena c.vertices x) :
    ∃ f', xs.foldlM Raw.clear f = .ok f' ∧ f'.Covers (xs.foldl Forest.clear c) ∧
      (xs.foldl Forest.clear c).vertices = c.vertices := by
  refine EndAlike.exists_foldlM (R := fun (f d : Forest) => f.Covers d ∧ d.vertices = c.vertices)
    (fun x hx f d hd => ?_) ⟨h, rfl⟩
  obtain ⟨f', hok, h'⟩ := hd.1.clear (hd.2 ▸ hxs x hx)
  exact ⟨f', hok, h', hd.2⟩

theorem cutTogether (h : f.Covers c) (cuts : List (Nat × Nat)) :
    EndAlike Covers (Raw.cutTogether f cuts) (c.cutTogether cuts) := by
  have hedge (u v : Nat) : f.edgeElements u v = c.edgeElements u v := by
    obtain ⟨⟨a, ha, rfl⟩, -⟩ := h
    rfl
  simp only [Raw.cutTogether, Forest.cutTogether, hedge]
  refine .after fun elements helements => ?_
  have he := h.ranged.elements helements
  have hmembers : ∀ x ∈ elements.flatMap fun (uv, vu) => [uv, vu], InArena c.vertices x := fun x hx => by
    obtain ⟨e, hm, hx⟩ := List.mem_flatMap.mp hx
    rcases List.mem_pair.mp hx with rfl | rfl
    · exact (he e hm).1
    · exact (he e hm).2
  -- All members are marked before the seams are looked for, and cleared after the tours are split.
  obtain ⟨f₁, hok₁, h₁, hv⟩ := h.setDoomedAll hmembers true
  rw [hok₁, ok_bind]
  generalize List.foldl (fun c x => Forest.setDoomed c x true) c _ = c₁ at h₁ hv ⊢
  rw [← hv] at he hmembers
  rw [h₁.closings_eq]
  refine .after fun seams _ => ?_
  rw [h₁.cutPoints_eq he, ok_bind]
  obtain ⟨⟨a₁, ha₁, rfl⟩, hr₁⟩ := h₁
  refine (ha₁.splitAll_sized _).bind ?_
  rintro ⟨after, b⟩ ⟨_, d⟩ ⟨⟨rfl, hb⟩, -, hsize⟩
  have h₂ : Covers { c₁ with tours := b } { c₁ with tours := d } :=
    ⟨⟨b, hb, rfl⟩, hsize.trans hr₁.size, hr₁.within, hr₁.free⟩
  obtain ⟨f₂, hok₂, h₂, hv₂⟩ := h₂.clearAll hmembers
  rw [foldl_clear] at h₂ hv₂
  rw [hok₂, ok_bind]
  generalize List.foldl (fun c x => Forest.setDoomed c x false) c₁ _ = c₂ at h₂ hv₂ ⊢
  generalize List.foldl (fun tours x => SumList.detach tours x 0) d _ = t at h₂ hv₂ ⊢
  obtain ⟨⟨a₂, ha₂, rfl⟩, hr₂⟩ := h₂
  refine (ha₂.joinAll_sized seams).bind fun b' d' hd => ?_
  refine .after fun edges hedges => ?_
  rw [← hv₂] at he
  refine .after fun freed hfreed => ?_
  refine ⟨⟨b', hd.1, rfl⟩, hd.2.trans hr₂.size, hr₂.within.eraseEdges hedges, fun p hp => ?_⟩
  rcases List.mem_append.mp hp with hp | hp
  · exact lt_of_mapM_pairOf he hfreed p (List.mem_reverse.mp hp)
  · exact hr₂.free p hp

theorem cutRounds {rounds : Nat} : ∀ {f c : Forest} {cuts : List (Nat × Nat)}, f.Covers c →
    Traced.EndAlike Covers (Raw.cutRounds rounds f cuts) (Forest.cutRounds rounds c cuts) := by
  induction rounds with
  | zero => exact fun _ => .fault _ _
  | succ rounds ih =>
    intro f c cuts h
    obtain ⟨⟨a, ha, rfl⟩, hr⟩ := h
    rw [Raw.cutRounds, Forest.cutRounds]
    split
    · exact .bind (.report _) fun _ _ _ => cutEach ⟨⟨a, ha, rfl⟩, hr⟩
    · refine .bind (.report _) fun _ _ _ => ?_
      -- Which cuts are postponed is the same for both, whatever the generator draws.
      generalize postpone c.randomness c.settings.postponeOneIn cuts = parts
      generalize c.randomness.next = next
      have h' : Covers { c with tours := a, randomness := next } { c with randomness := next } :=
        ⟨⟨a, ha, rfl⟩, hr.size, hr.within, hr.free⟩
      exact .bind (.report _) fun _ _ _ => .bind (.lift (h'.cutTogether parts.2)) fun _ _ h => ih h

theorem cutAll (h : f.Covers c) (cuts : List (Nat × Nat)) :
    Traced.EndAlike Covers (Raw.cutAll f cuts) (c.cutAll cuts) := h.cutRounds

/-! ### Requests -/

theorem connectedAll_eq (h : f.Covers c) (queries : List (Nat × Nat)) :
    Raw.connectedAll f queries = c.connectedAll queries := by
  simp only [Raw.connectedAll, connectedAll, h.connected_eq]

theorem treeSize_eq (h : f.Covers c) (v : Nat) : Raw.treeSize f v = c.treeSize v := by
  obtain ⟨a, ha, rfl⟩ := h.exists_tours
  simp only [Raw.treeSize, treeSize, ha.sum_eq]

theorem treeVertices_eq (h : f.Covers c) (v : Nat) : Raw.treeVertices f v = c.treeVertices v := by
  obtain ⟨a, ha, rfl⟩ := h.exists_tours
  simp only [Raw.treeVertices, treeVertices, ha.list.sequence_eq]

/-- Every request is answered as if there were nothing beyond the levels. -/
theorem serve (h : f.Covers c) (r : Request) : Traced.EndAlike (Answering Covers) (Raw.serve f r) (c.serve r) := by
  cases r with
  | connected u v => exact .ask h (h.connected_eq u v) Answer.truth
  | connectedAll queries => exact .ask h (h.connectedAll_eq queries) Answer.truths
  | treeSize v => exact .ask h (h.treeSize_eq v) Answer.number
  | treeVertices v => exact .ask h (h.treeVertices_eq v) Answer.members
  | hasEdge u v =>
    have hhas : f.hasEdge u v = c.hasEdge u v := by
      obtain ⟨a, ha, rfl⟩ := h.exists_tours
      rfl
    exact .ask h hhas Answer.truth
  | edgeCount =>
    obtain ⟨a, ha, rfl⟩ := h.exists_tours
    exact .pure ⟨rfl, h⟩
  | edges =>
    obtain ⟨a, ha, rfl⟩ := h.exists_tours
    exact .pure ⟨rfl, h⟩
  | link u v =>
    refine .bind (h.link u v) ?_
    rintro ⟨reply, f⟩ ⟨_, c⟩ ⟨rfl, h⟩
    exact .pure ⟨rfl, h⟩
  | linkAll σ links =>
    refine .bind (h.linkAll σ links) ?_
    rintro ⟨reply, f⟩ ⟨_, c⟩ ⟨rfl, h⟩
    exact .pure ⟨rfl, h⟩
  | cut u v => exact .bind (h.cut u v) fun f c h => .pure ⟨rfl, h⟩
  | cutAll cuts => exact .bind (h.cutAll cuts) fun f c h => .pure ⟨rfl, h⟩

end Covers

/-! ## New forests -/

theorem within_forVertices {e : EdgeIndex} (hn : n < 2 ^ 32) (hok : EdgeIndex.forVertices n = .ok e) : e.Within n := by
  obtain ⟨e', hok', hindex, -⟩ := EdgeIndex.forVertices_eq hn
  cases hok.symm.trans hok'
  refine ⟨hn, hindex.vertices, fun w x hx => ?_⟩
  obtain ⟨_, _, _, _, _, hF⟩ := (hindex.holds_iff w x).mp hx
  exact hF.elim

/-- A forest that is built on raw arrays from one pair of pools ends like the other from any pair of pools. -/
theorem build_covers {pools : Pools} (hl : pools.links.Stocked) (hv : pools.values.Stocked) (pools' : Pools) (n : Nat)
    (settings : Settings) :
    Traced.EndAlike (fun x y => x.1.Covers y.1) (Raw.build pools n settings).quiet (build pools' n settings).quiet := by
  simp only [Raw.build, build, SumList.Raw.build_eq hl hv]
  split
  · exact .fault _ _
  · next hn =>
    have hfew : n < 2 ^ 32 := by
      have : WordKey.maxHalf.toNat = 2 ^ 32 - 1 := rfl
      omega
    simp only [Traced.quiet_bind]
    refine .bind (SumList.build_alike _ _ _ _ _ _) fun x y hxy => ?_
    refine .bind (.lift (hxy.1.joinAll_sized _)) fun a d had => ?_
    refine .bind (.report (.forestCreated n)) fun _ _ _ => ?_
    refine .bind (R := fun e e' => e = e' ∧ e.Within n) (.lift (.refl fun e he => ?_)) ?_
    · exact ⟨rfl, within_forVertices hfew he⟩
    · rintro e _ ⟨rfl, he⟩
      exact .pure ⟨⟨a, had.1, rfl⟩, had.2.trans hxy.2, he, fun p hp => List.mem_range.mp hp⟩

end TourForest.Forest
