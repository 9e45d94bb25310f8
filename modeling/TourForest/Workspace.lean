import TourForest.Forest.Basic

/-!
# Structures that share pools

A `Workspace` has one pair of pools and numbered slots for structures that draw their arrays from
them. A new structure is built before the one it replaces is taken down, so the arrays of the old
one are not yet there for the new one.
-/

namespace TourForest

/-- A structure in a slot. -/
inductive Tenant where
  | skipList (list : SkipList)
  | sumList (list : SumList)
  | forest (forest : Forest)

/-- Hands the arrays of a structure back. -/
def Tenant.release (t : Tenant) (pools : Pools) : Except Fault Pools :=
  match t with
  | skipList s => do return { pools with links := ← s.release pools.links }
  | sumList a => a.release pools
  | forest f => f.release pools

/-- A pair of pools, and structures by slot. -/
structure Workspace where
  pools : Pools
  tenants : List (Nat × Tenant)

namespace Workspace

/-- A workspace with nothing in it. -/
def empty : Workspace := ⟨.empty, []⟩

/-- The structure in a slot. -/
def tenant? (w : Workspace) (slot : Nat) : Option Tenant := w.tenants.lookup slot

/-- The slots other than `slot`. -/
def others (w : Workspace) (slot : Nat) : List (Nat × Tenant) := w.tenants.filter (·.1 != slot)

/-- Puts another state of its structure into a slot. -/
def set (w : Workspace) (slot : Nat) (t : Tenant) : Workspace :=
  { w with tenants := (slot, t) :: w.others slot }

/-- Builds a structure, and then takes down the one that was in its slot. -/
def settle (w : Workspace) (slot : Nat) (build : Pools → Traced (Tenant × Pools)) :
    Traced Workspace := do
  let (t, pools) ← build w.pools
  let pools ← match w.tenant? slot with
    | some old => old.release pools
    | none => pure pools
  return { w with pools }.set slot t

/-- Takes down the structure in a slot. The answer says whether there was one. -/
def clear (w : Workspace) (slot : Nat) : Except Fault (Bool × Workspace) :=
  match w.tenant? slot with
  | some old => do return (true, ⟨← old.release w.pools, w.others slot⟩)
  | none => .ok (false, w)

end Workspace

end TourForest
