/-
# Trees from a numbering

A graph that grows one vertex at a time, each joined to exactly one of the
vertices before it, is a tree. Here the order of the vertices is a numbering
`rank`, and nothing is said of how the graph was made.

Key theorems: `connected_of_rank`, `isAcyclic_of_rank`, `isTree_of_rank`.
-/
import Mathlib.Combinatorics.SimpleGraph.Acyclic

namespace Perfbook
namespace Graph

variable {V : Type*} {G : SimpleGraph V} {rank : V → ℕ} {root : V}

/-- Every vertex is joined to the root through vertices of lower rank. -/
theorem connected_of_rank (h : ∀ v, v ≠ root → ∃ w, G.Adj v w ∧ rank w < rank v) : G.Connected := by
  have hroot : ∀ n v, rank v = n → G.Reachable v root := by
    intro n
    induction n using Nat.strong_induction_on with
    | _ n ih =>
      intro v hv
      by_cases hvr : v = root
      · rw [hvr]
      · obtain ⟨w, hadj, hlt⟩ := h v hvr
        exact hadj.reachable.trans (ih (rank w) (by omega) w rfl)
  exact
    { preconnected := fun v w => (hroot _ v rfl).trans (hroot _ w rfl).symm
      nonempty := ⟨root⟩ }

/-- The vertex of the highest rank on a cycle would have two neighbours of lower rank. -/
theorem isAcyclic_of_rank (hinj : Function.Injective rank)
    (h : ∀ v w w', G.Adj v w → G.Adj v w' → rank w < rank v → rank w' < rank v → w = w') :
    G.IsAcyclic := by
  classical
  intro u c hc
  obtain ⟨v, hv, hmax⟩ := c.support.toFinset.exists_max_image rank
    ⟨u, List.mem_toFinset.mpr c.start_mem_support⟩
  have hv := List.mem_toFinset.mp hv
  have hrot := hc.rotate hv
  have hlt : ∀ w ∈ (c.rotate v hv).support, w ≠ v → rank w < rank v := by
    intro w hw hwv
    have hle := hmax w (List.mem_toFinset.mpr ((c.mem_support_rotate_iff v hv).mp hw))
    exact lt_of_le_of_ne hle fun he => hwv (hinj he)
  have hsnd := SimpleGraph.Walk.adj_snd hrot.not_nil
  have hpen := (SimpleGraph.Walk.adj_penultimate hrot.not_nil).symm
  exact hrot.snd_ne_penultimate (h v _ _ hsnd hpen
    (hlt _ (SimpleGraph.Walk.getVert_mem_support _ _) hsnd.ne')
    (hlt _ (SimpleGraph.Walk.getVert_mem_support _ _) hpen.ne'))

/-- Each vertex but the root has exactly one neighbour of lower rank. -/
theorem isTree_of_rank (hinj : Function.Injective rank) (h0 : rank root = 0)
    (h : ∀ v, v ≠ root → ∃! w, G.Adj v w ∧ rank w < rank v) : G.IsTree where
  connected := connected_of_rank fun v hv => (h v hv).exists
  isAcyclic := isAcyclic_of_rank hinj fun v w w' hw hw' hlt hlt' => by
    have hv : v ≠ root := fun he => by
      rw [he, h0] at hlt
      exact Nat.not_lt_zero _ hlt
    exact (h v hv).unique ⟨hw, hlt⟩ ⟨hw', hlt'⟩

end Graph
end Perfbook
