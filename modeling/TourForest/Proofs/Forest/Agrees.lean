import TourForest.Proofs.Forest.Link

/-!
# Forests that agree

Two forests agree (`Agrees`) if they are the same but for the layout of their indices, the order of their free pairs,
and how they go about batches. The rotation of the graph decides about all of that once the layout of the tours is
given (`Refines.agrees`), so that it does not matter in which way a forest has come to its rotation.
-/

namespace TourForest.Forest

variable {f g : Forest} {rot : Nat → List Nat} {E : Finset (Sym2 Nat)}

/-- Two forests have the same tours, the same elements for the same edges, and the same free pairs in some order. -/
structure Agrees (f g : Forest) : Prop where
  vertices : g.vertices = f.vertices
  /-- All links and values on all levels, and all marks. -/
  tours : g.tours = f.tours
  doomed : g.doomed = f.doomed
  entries : g.edges.table.entries.Perm f.edges.table.entries
  find? : ∀ u v, g.edges.find? u v = f.edges.find? u v
  free : g.freePairs.Perm f.freePairs
  /-- The vertices of each tree, in order. -/
  treeVertices : ∀ v, g.treeVertices v = f.treeVertices v

/-- Forests that refine a graph through one rotation agree. -/
theorem Refines.agrees (h : f.Refines rot E) (h' : g.Refines rot E) (hv : g.vertices = f.vertices)
    (hlayout : g.tours.layout = f.tours.layout) : f.Agrees g := by
  have htours : g.tours = f.tours := by
    refine h.sound.eq_of_layout h'.sound hlayout (fun x => Option.ext fun y => ?_) fun x => ?_
    · rw [h'.next_iff, h.next_iff, hv]
    · rw [h'.own, h.own, hv]
  refine ⟨hv, htours, ?_, h.indexes.entries_perm (hv ▸ h'.indexes), h.indexes.find?_congr (hv ▸ h'.indexes), ?_,
    fun v => ?_⟩
  · rw [h'.doomed, h.doomed, hv]
  · refine (List.perm_ext_iff_of_nodup h'.free_nodup h.free_nodup).mpr fun p => ?_
    rw [h'.mem_free, h.mem_free, hv]
  · rw [Forest.treeVertices, htours, hv, Forest.treeVertices]

end TourForest.Forest
