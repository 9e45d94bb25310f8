import TourForest.Forest.Cut
import TourForest.Forest.Link
import TourForest.SumList.Batch

/-!
# Requests

Everything that a list, a list with sums or a forest can be asked or told from outside, and what it answers. What is
said about all runs of a structure is said about all lists of requests.
-/

namespace TourForest

/-- What a structure answers. -/
inductive Answer where
  | done
  | refused (refusal : Refusal)
  | truth (answer : Bool)
  | truths (answers : List Bool)
  | number (count : Nat)
  | value (sum : Int)
  | element (u : Option Nat)
  | elements (us : List (Option Nat))
  | members (us : List Nat)
  | edges (es : List (Nat × Nat))
deriving DecidableEq

/-- The answer of an operation that may be refused. -/
def Answer.ofReply : Except Refusal Unit → Answer
  | .ok () => done
  | .error refusal => refused refusal

/-- The answers to requests one after the other, and the structure afterwards. -/
def serveAll {σ ρ : Type} (serve : σ → ρ → Traced (Answer × σ)) (s : σ) : List ρ → Traced (List Answer × σ)
  | [] => return ([], s)
  | r :: rest => do
    let (a, s) ← serve s r
    let (as, s) ← serveAll serve s rest
    return (a :: as, s)

/-! ## Skip lists -/

namespace SkipList

/-- What a list can be asked. -/
inductive Query where
  | size
  | height (u : Nat)
  | next (u : Nat)
  | previous (u : Nat)
  | representative (u : Nat)
  | sameSequence (u v : Nat)
  | sequence (u : Nat)

def ask (s : SkipList) : Query → Except Fault Answer
  | .size => .ok (.number s.size)
  | .height u => return .number (← s.heightOf u)
  | .next u => return .element (← s.successor u)
  | .previous u => return .element (← s.predecessor u)
  | .representative u => return .number (← s.representative u)
  | .sameSequence u v => return .truth (← s.sameSequence u v)
  | .sequence u => return .members (← s.sequence u)

/-- What a list can be asked or told. -/
inductive Request where
  | ask (query : Query)
  | join (l r : Option Nat)
  | split (u : Option Nat)

def serve (s : SkipList) : Request → Traced (Answer × SkipList)
  | .ask query => return (← s.ask query, s)
  | .join l r => return (.done, ← s.join l r)
  | .split u => do
    let (after, s) ← s.split u
    return (.element after, s)

end SkipList

/-! ## Lists with sums -/

namespace SumList

/-- What a list with sums can be asked or told. -/
inductive Request where
  | ask (query : SkipList.Query)
  | value (u : Nat)
  | sum (u : Nat)
  | sumOver (l r : Nat)
  | joinAll (seams : List Seam)
  | splitAll (points : List (Option Nat))
  | setValues (updates : List (Nat × Int))

def serve (a : SumList) : Request → Traced (Answer × SumList)
  | .ask query => return (← a.list.ask query, a)
  | .value u => return (.value (← a.value u), a)
  | .sum u => return (.value (← a.sum u), a)
  | .sumOver l r => return (.value (← a.sumOver l r), a)
  | .joinAll seams => return (.done, ← a.joinAll seams)
  | .splitAll points => do
    let (after, a) ← a.splitAll points
    return (.elements after, a)
  | .setValues updates => return (.done, ← a.setValues updates)

end SumList

/-! ## Forests -/

namespace Forest

/-- What a forest can be asked or told. How a batch of links is sorted comes with it. -/
inductive Request where
  | connected (u v : Nat)
  | connectedAll (queries : List (Nat × Nat))
  | treeSize (v : Nat)
  | treeVertices (v : Nat)
  | hasEdge (u v : Nat)
  | edgeCount
  | edges
  | link (u v : Nat)
  | linkAll (σ : Sorting) (links : List (Nat × Nat))
  | cut (u v : Nat)
  | cutAll (cuts : List (Nat × Nat))

def serve (f : Forest) : Request → Traced (Answer × Forest)
  | .connected u v => return (.truth (← f.connected u v), f)
  | .connectedAll queries => return (.truths (← f.connectedAll queries), f)
  | .treeSize v => return (.number (← f.treeSize v), f)
  | .treeVertices v => return (.members (← f.treeVertices v), f)
  | .hasEdge u v => return (.truth (← f.hasEdge u v), f)
  | .edgeCount => return (.number f.edgeCount, f)
  | .edges => return (.edges f.edges.edges, f)
  | .link u v => do
    let (reply, f) ← f.link u v
    return (.ofReply reply, f)
  | .linkAll σ links => do
    let (reply, f) ← f.linkAll σ links
    return (.ofReply reply, f)
  | .cut u v => return (.done, ← f.cut u v)
  | .cutAll cuts => return (.done, ← f.cutAll cuts)

end Forest

end TourForest
