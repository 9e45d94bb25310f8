import TourForest.Fault

/-!
# Listing groups once each

Indices fall into groups, and `group u` lists the group of `u`. Going through the indices in order
and listing the group of each index not listed yet gives every group once, under its least index.
-/

namespace TourForest

/-- Goes on through `rest`, where `listed` says which indices were listed already. -/
def groupsFrom (group : Nat → Except Fault (List Nat)) (listed : Array Bool) :
    List Nat → Except Fault (List (Nat × List Nat))
  | [] => .ok []
  | u :: rest =>
    if listed.getD u false then groupsFrom group listed rest
    else do
      let members ← group u
      let listed := members.foldl (fun seen v => seen.setIfInBounds v true) listed
      return (u, members) :: (← groupsFrom group listed rest)

/-- The groups among the indices below `n`, each with the index it was found by. Members at or above
`n` are listed with their group but not gone through. -/
def groups (n : Nat) (group : Nat → Except Fault (List Nat)) :
    Except Fault (List (Nat × List Nat)) :=
  groupsFrom group (Array.replicate n false) (List.range n)

end TourForest
