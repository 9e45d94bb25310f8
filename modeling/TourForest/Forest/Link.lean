import TourForest.Forest.Query

/-!
# Adding edges

An edge between `u` and `v` joins two tours: that of `v` goes in behind `u`, with the two elements
of the edge before and after it. In a batch all edges at one vertex go in behind it one after the
other, with all the vertices cut open at once. The edges are sorted by the vertices for that. In which
order those at one vertex come is up to the `Sorting`, and each batch may be sorted in another way.

Edges take their pairs from the stack of free pairs. A batch that needs more than there are is
refused before anything is done.
-/

namespace TourForest.Forest

/-- Puts the tour of `v` in behind `u`, between the two elements of a pair, and enters the edge. -/
def attach (f : Forest) (u v pair : Nat) : Except Fault (Except Refusal Unit × Forest) := do
  let (uv, vu) := elementsOfPair f.vertices pair
  match ← f.edges.insert u v uv with
  | (.error refusal, edges) => return (.error refusal, { f with edges })
  | (.ok _, edges) =>
    let (after, tours) ← f.tours.splitAll [some u, some v]
    let uNext := (after[0]?).join
    let vNext := (after[1]?).join
    let tours ← tours.joinAll
      [(some u, some uv), (some uv, vNext), (some v, some vu), (some vu, uNext)]
    return (.ok (), { f with edges, tours })

/-- Adds an edge between `u` and `v`, which lie in different trees. -/
def link (f : Forest) (u v : Nat) : Traced (Except Refusal Unit × Forest) := do
  match f.freePairs with
  | [] => return (.error (.noFreePairs 1 0), f)
  | pair :: freePairs =>
    if ← f.connected u v then Traced.fault (.closesCycle u v)
    else
      Traced.report (.link u v)
      { f with freePairs }.attach u v pair

/-- Adds several edges, one after the other. -/
def linkEach (f : Forest) : List (Nat × Nat) → Traced (Except Refusal Unit × Forest)
  | [] => return (.ok (), f)
  | (u, v) :: rest => do
    match ← f.link u v with
    | (.ok (), f) => f.linkEach rest
    | refused => return refused

/-! ## All at once -/

/-- One direction of a new edge: the vertex it leaves, and its element. -/
structure Departure where
  source : Nat
  element : Nat

/-- Enters new edges with their pairs into the index. -/
def enter (n : Nat) (edges : EdgeIndex) :
    List ((Nat × Nat) × Nat) → Except Fault (Except Refusal Unit × EdgeIndex)
  | [] => .ok (.ok (), edges)
  | ((u, v), pair) :: rest =>
    if u = v then .error (.selfLoop u)
    else do
      match ← edges.insert u v (elementsOfPair n pair).1 with
      | (.ok true, edges) => enter n edges rest
      | (.ok false, _) => .error (.edgePresent u v)
      | (.error refusal, edges) => return (.error refusal, edges)

/-- Both directions of new edges with their pairs. -/
def departures (n : Nat) (links : List ((Nat × Nat) × Nat)) : List Departure :=
  links.flatMap fun ((u, v), pair) =>
    let (uv, vu) := elementsOfPair n pair
    [⟨u, uv⟩, ⟨v, vu⟩]

/-- A way to put departures in order of the vertices that they leave. Those from one vertex may come
out in any order. -/
structure Sorting where
  sort : List Departure → List Departure
  perm : ∀ ds, (sort ds).Perm ds
  sorted : ∀ ds, (sort ds).Pairwise (·.source ≤ ·.source)

/-- The way that leaves departures from one vertex in their order. -/
def Sorting.stable : Sorting where
  sort ds := ds.mergeSort fun d d' => d.source ≤ d'.source
  perm ds := List.mergeSort_perm ds _
  sorted ds :=
    (List.pairwise_mergeSort (by simp; omega) (by simp; omega) ds).imp fun h => of_decide_eq_true h

/-- Departures by the vertex they leave, in order of the vertices. -/
def bySource (σ : Sorting) (ds : List Departure) : List (List Departure) :=
  (σ.sort ds).splitBy fun d d' => d.source == d'.source

/-- The seams that put elements behind element `left` and before `after`, each followed by the tour
that its twin ends. -/
def chain (n left : Nat) (after : Option Nat) : List Nat → Except Fault (List Seam)
  | [] => .ok [(some left, after)]
  | e :: rest => do return (some left, some e) :: (← chain n (← TourForest.twin n e) after rest)

/-- The seams for the departures from each vertex, where `after` was behind the vertex. -/
def chains (n : Nat) : List (List Departure × Option Nat) → Except Fault (List Seam)
  | [] => .ok []
  | ([], _) :: rest => chains n rest
  | (d :: ds, after) :: rest => do
    return (← chain n d.source after ((d :: ds).map (·.element))) ++ (← chains n rest)

/-- Adds several edges, all at once. -/
def linkTogether (f : Forest) (σ : Sorting) (links : List (Nat × Nat)) :
    Except Fault (Except Refusal Unit × Forest) := do
  let k := links.length
  let paired := links.zip (f.freePairs.take k).reverse
  let freePairs := f.freePairs.drop k
  match ← enter f.vertices f.edges paired with
  | (.error refusal, edges) => return (.error refusal, { f with edges, freePairs })
  | (.ok (), edges) =>
    let groups := bySource σ (departures f.vertices paired)
    let (after, tours) ← f.tours.splitAll (groups.map fun ds => ds.head?.map (·.source))
    let tours ← tours.joinAll (← chains f.vertices (groups.zip after))
    return (.ok (), { f with edges, freePairs, tours })

/-- Adds several edges, which leave the graph a forest. -/
def linkAll (f : Forest) (σ : Sorting) (links : List (Nat × Nat)) :
    Traced (Except Refusal Unit × Forest) := do
  let k := links.length
  match f.shortage? k with
  | some refusal => return (.error refusal, f)
  | none =>
    if k ≤ f.settings.oneByOneLimit then
      Traced.report (.linkBatch k true)
      f.linkEach links
    else
      Traced.report (.linkBatch k false)
      f.linkTogether σ links

end TourForest.Forest
