import TourForest.Forest.Query

/-!
# Removing edges

Taking an edge out splits its tour at both elements of the edge. The two parts between them become
the tours of the two trees, and the pair goes back on the stack of free pairs.

A large batch is done in rounds. In each round about one cut in `postponeOneIn` is postponed to
the next one. The elements of all other edges are marked as doomed. The element before a doomed one
is joined to what comes behind its twin, where doomed elements on the way are stepped over together
with the subtrees that they lead to.
-/

namespace TourForest.Forest

/-- The two elements of the edge between `u` and `v`, that of direction `(u, v)` first. -/
def edgeElements (f : Forest) (u v : Nat) : Except Fault (Nat × Nat) := do
  match ← f.edges.find? u v with
  | none => .error (.missingEdge u v)
  | some uv => return (uv, ← f.twin uv)

/-- Closes the tours on both sides of the edge between `u` and `v`, and strikes the edge out. -/
def unlink (f : Forest) (u v : Nat) : Except Fault Forest := do
  let (uv, vu) ← f.edgeElements u v
  let (_, edges) ← f.edges.erase u v
  let uPrev ← f.tours.list.predecessor uv
  let vPrev ← f.tours.list.predecessor vu
  let vNext ← f.tours.list.successor uv
  let uNext ← f.tours.list.successor vu
  let (_, tours) ← f.tours.splitAll [some uv, some vu, uPrev, vPrev]
  let tours ← ((tours.detach uv 0).detach vu 0).joinAll [(uPrev, uNext), (vPrev, vNext)]
  return { f with edges, tours, freePairs := (← pairOf f.vertices uv) :: f.freePairs }

/-- Removes the edge between `u` and `v`, which has to be there. -/
def cut (f : Forest) (u v : Nat) : Traced Forest := do
  if !(← f.hasEdge u v) then Traced.fault (.missingEdge u v)
  else
    Traced.report (.cut u v)
    f.unlink u v

/-- Removes several edges, one after the other. -/
def cutEach (f : Forest) : List (Nat × Nat) → Traced Forest
  | [] => return f
  | (u, v) :: rest => do (← f.cut u v).cutEach rest

/-! ## In rounds -/

/-- The cuts of a round that are postponed, and those that are done now. -/
def postpone (r : Random) (factor : UInt64) (cuts : List (Nat × Nat)) :
    List (Nat × Nat) × List (Nat × Nat) :=
  let postponed (i : Nat) : Bool := 1 < factor && r.draw i.toUInt64 % factor == 0
  let (later, now) := cuts.zipIdx.partition fun (_, i) => postponed i
  (later.map (·.1), now.map (·.1))

/-- The first element at or after `right` that is not doomed, going on behind the twin of each
doomed one. -/
def survivor (f : Forest) : (steps : Nat) → (right : Option Nat) → Except Fault (Option Nat)
  | 0, _ => .error .endlessWalk
  | steps + 1, right => do
    match right with
    | none => f.tours.list.noElement
    | some x =>
      if ← f.isDoomed (some x) then
        f.survivor steps (← f.tours.list.successor (← f.twin x))
      else return some x

/-- The seam that closes the gap of doomed element `e`, unless the one before it is doomed too. -/
def closing (f : Forest) (e twin : Nat) : Except Fault (Option Seam) := do
  let left ← f.tours.list.predecessor e
  if ← f.isDoomed left then return none
  else return some (left, ← f.survivor (f.tours.size + 1) (← f.tours.list.successor twin))

/-- The seams that close the gaps of all doomed elements. -/
def closings (f : Forest) : List (Nat × Nat) → Except Fault (List Seam)
  | [] => .ok []
  | (uv, vu) :: rest => do
    let first ← f.closing uv vu
    let second ← f.closing vu uv
    return first.toList ++ second.toList ++ (← f.closings rest)

/-- The elements behind which the tours are split: the doomed ones and those before them. -/
def splitPoints (f : Forest) (elements : List (Nat × Nat)) : List (Option Nat) :=
  (elements.flatMap fun (uv, vu) =>
    [some uv, some vu, f.tours.list.prevAt uv 0, f.tours.list.prevAt vu 0]).filter Option.isSome

/-- Removes several edges from the index. -/
def eraseEdges (edges : EdgeIndex) : List (Nat × Nat) → Except Fault EdgeIndex
  | [] => .ok edges
  | (u, v) :: rest => do eraseEdges (← edges.erase u v).2 rest

/-- Removes several edges, all at once. -/
def cutTogether (f : Forest) (cuts : List (Nat × Nat)) : Except Fault Forest := do
  let elements ← cuts.mapM fun (u, v) => f.edgeElements u v
  let members := elements.flatMap fun (uv, vu) => [uv, vu]
  let f := members.foldl (fun f x => f.setDoomed x true) f
  let seams ← f.closings elements
  let (_, tours) ← f.tours.splitAll (f.splitPoints elements)
  let tours := members.foldl (fun (tours : SumList) x => tours.detach x 0) tours
  let f := members.foldl (fun f x => f.setDoomed x false) f
  let tours ← tours.joinAll seams
  let edges ← eraseEdges f.edges cuts
  let freed ← elements.mapM fun (uv, _) => pairOf f.vertices uv
  return { f with tours, edges, freePairs := freed.reverse ++ f.freePairs }

/-- Removes several edges within a number of rounds. -/
def cutRounds : (rounds : Nat) → Forest → List (Nat × Nat) → Traced Forest
  | 0, _, _ => Traced.fault .endlessRounds
  | rounds + 1, f, cuts => do
    if cuts.length ≤ f.settings.oneByOneLimit then
      Traced.report (.cutBatch cuts.length true)
      f.cutEach cuts
    else
      Traced.report (.cutBatch cuts.length false)
      let (postponed, now) := postpone f.randomness f.settings.postponeOneIn cuts
      let f := { f with randomness := f.randomness.next }
      Traced.report (.cutRound now.length postponed.length)
      cutRounds rounds (← f.cutTogether now) postponed

/-- Removes several edges, which have to be there and distinct. Rounds in which all cuts are
postponed change nothing but the state of the generator, so more of them than it has states would go
on for ever. -/
def cutAll (f : Forest) (cuts : List (Nat × Nat)) : Traced Forest :=
  cutRounds ((cuts.length + 1) * (maxWord + 1) + 1) f cuts

end TourForest.Forest
