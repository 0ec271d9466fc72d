import Mathlib.Algebra.BigOperators.Fin
import Mathlib.Algebra.Order.BigOperators.Group.List
import Msyn.Mincut.Search

/-!
# The capacity of a cut

The edges made for a node all have its weight, and one of them at most leaves its vertex. So the
capacity of a cut of the network is a sum over the nodes (`cutCap_eq_sum`), which lies between the
weight of nodes that have an edge across the cut (`le_cutCap`) and that of nodes that have all of
them (`cutCap_le`).
-/

namespace Msyn.Mincut

open Nodecircuit

open Classical in
/-- What the edge adds to the capacity of the cut around `T`. -/
noncomputable def crossing (T : String → Prop) (e : Edge) : Int :=
  if T e.v1 ∧ ¬T e.v2 then e.capacity else 0

/-- What the edges that are made for a node add to it. -/
noncomputable def blockCap (c : Circuit) (weight : NodeId → Int)
    (faninCone faninPi inputSet : NodeSet) (T : String → Prop) (n : NodeId) : Int :=
  ((block c weight faninCone faninPi inputSet n).map (crossing T)).sum

section
variable {c : Circuit} {weight : NodeId → Int} {faninCone faninPi inputSet : NodeSet}
  {T : String → Prop}

theorem crossing_of_not {e : Edge} (he : ¬(T e.v1 ∧ ¬T e.v2)) : crossing T e = 0 := if_neg he

theorem cutCap_eq (g : Graph) : g.network.cutCap T = (g.edges.map (crossing T)).sum := by
  rw [← Fin.sum_univ_fun_getElem, Network.cutCap]
  rfl

/-- A sum with one positive term at most. -/
theorem sum_le_of_countP {k : Edge → Int} {p : Edge → Bool} {d : Int} (hd : 0 ≤ d) {l : List Edge}
    (hcount : l.countP p ≤ 1) (hother : ∀ e ∈ l, p e = false → k e ≤ 0)
    (hone : ∀ e ∈ l, p e = true → k e ≤ d) : (l.map k).sum ≤ d := by
  induction l generalizing d with
  | nil => exact hd
  | cons e l ih =>
    rw [List.map_cons, List.sum_cons]
    have hother' : ∀ a ∈ l, p a = false → k a ≤ 0 := fun a ha => hother a (by simp [ha])
    cases hp : p e with
    | false =>
      rw [List.countP_cons_of_neg (by simp [hp])] at hcount
      have h1 := ih hd hcount hother' fun a ha => hone a (by simp [ha])
      have h2 := hother e (by simp) hp
      omega
    | true =>
      rw [List.countP_cons_of_pos hp] at hcount
      have hnone : ∀ a ∈ l, ¬p a = true := List.countP_eq_zero.1 (by omega)
      have h1 := ih (le_refl 0) (by omega) hother' fun a ha h => absurd h (hnone a ha)
      have h2 := hone e (by simp) hp
      omega

/-- One edge at most leaves the vertex of a node. -/
theorem countP_block (hd : Distinct c faninCone faninPi inputSet) {n : NodeId}
    (hn : Known faninCone faninPi inputSet n) :
    (block c weight faninCone faninPi inputSet n).countP
      (fun e => decide (e.v1 = (c.node n).name)) ≤ 1 := by
  have hsrc : "src_" ≠ (c.node n).name := (hd.src n hn).symm
  have hbuf : buffer c n ≠ (c.node n).name := buffer_ne_name n
  have hpi : (if n ∈ faninPi then [(⟨"src_", (c.node n).name, weight n⟩ : Edge)] else []).countP
      (fun e => decide (e.v1 = (c.node n).name)) = 0 := by
    split
    · simp [hsrc]
    · rfl
  rw [block, List.countP_append, hpi, Nat.zero_add]
  split
  · unfold edgesOf
    split
    · have hin : (if n ∈ inputSet then [(⟨buffer c n, "sink_", weight n⟩ : Edge)] else []).countP
          (fun e => decide (e.v1 = (c.node n).name)) = 0 := by
        split
        · simp [hbuf]
        · rfl
      rw [List.countP_cons, List.countP_append, hin, List.countP_map]
      simp [Function.comp_def, hbuf]
    · rename_i hb
      refine (List.countP_le_length).trans ?_
      rw [List.length_map]
      exact Nat.le_of_not_lt fun h => hb (.inr h)
  · exact List.countP_le_length

/-- What the edges of a node add is what the one that leaves its vertex adds, if no other one
does. -/
theorem blockCap_le (hd : Distinct c faninCone faninPi inputSet) {d : Int} (hpos : 0 ≤ d)
    {n : NodeId} (hn : Known faninCone faninPi inputSet n)
    (hother : ∀ e, Arc c weight faninCone faninPi inputSet n e → e.v1 ≠ (c.node n).name →
      crossing T e ≤ 0)
    (hname : ∀ e, Arc c weight faninCone faninPi inputSet n e → e.v1 = (c.node n).name →
      crossing T e ≤ d) : blockCap c weight faninCone faninPi inputSet T n ≤ d := by
  apply sum_le_of_countP hpos (countP_block hd hn)
  · intro e he hv
    exact hother e ((mem_block hn).1 he) (of_decide_eq_false hv)
  · intro e he hv
    exact hname e ((mem_block hn).1 he) (of_decide_eq_true hv)

namespace Setting

variable (h : Setting c weight faninCone faninPi inputSet)
include h

theorem cutCap_eq_sum (T : String → Prop) :
    (makeGraph c weight faninCone faninPi inputSet).network.cutCap T =
      ∑ n ∈ (vertexNodes faninCone faninPi inputSet).toFinset,
        blockCap c weight faninCone faninPi inputSet T n := by
  rw [cutCap_eq, makeGraph_edges c weight faninCone inputSet h.disjoint,
    List.sum_toFinset _ (vertexNodes_nodup h.disjoint)]
  generalize vertexNodes faninCone faninPi inputSet = l
  induction l with
  | nil => rfl
  | cons n l ih =>
    rw [List.flatMap_cons, List.map_append, List.sum_append, ih, List.map_cons, List.sum_cons]
    rfl

theorem crossing_nonneg {n : NodeId} {e : Edge} (he : Arc c weight faninCone faninPi inputSet n e) :
    0 ≤ crossing T e := by
  unfold crossing
  split
  · rw [he.capacity]
    exact h.nonneg n (h.mem n he.known)
  · exact le_refl 0

theorem blockCap_nonneg {n : NodeId} (hn : Known faninCone faninPi inputSet n) :
    0 ≤ blockCap c weight faninCone faninPi inputSet T n := by
  refine List.sum_nonneg fun x hx => ?_
  obtain ⟨e, he, rfl⟩ := List.mem_map.1 hx
  exact h.crossing_nonneg ((mem_block hn).1 he)

/-- An edge that crosses the cut adds the weight of its node. -/
theorem le_blockCap {n : NodeId} {e : Edge} (he : Arc c weight faninCone faninPi inputSet n e)
    (h1 : T e.v1) (h2 : ¬T e.v2) :
    weight n ≤ blockCap c weight faninCone faninPi inputSet T n := by
  have hcross : crossing T e = weight n := (if_pos ⟨h1, h2⟩).trans he.capacity
  rw [← hcross]
  refine List.single_le_sum (fun x hx => ?_) _ (List.mem_map_of_mem ((mem_block he.known).2 he))
  obtain ⟨a, ha, rfl⟩ := List.mem_map.1 hx
  exact h.crossing_nonneg ((mem_block he.known).1 ha)

/-- A cut is no greater than the weight of nodes whose edges are all that cross it. -/
theorem cutCap_le {Z : Finset NodeId} (hZ : ∀ n ∈ Z, n ∈ c.allNodes)
    (hle : ∀ n, Known faninCone faninPi inputSet n →
      blockCap c weight faninCone faninPi inputSet T n ≤ if n ∈ Z then weight n else 0) :
    (makeGraph c weight faninCone faninPi inputSet).network.cutCap T ≤ ∑ n ∈ Z, weight n := by
  rw [h.cutCap_eq_sum]
  refine (Finset.sum_le_sum fun n hn =>
    hle n (mem_vertexNodes.1 (List.mem_toFinset.1 hn))).trans ?_
  rw [Finset.sum_ite_mem]
  exact Finset.sum_le_sum_of_subset_of_nonneg Finset.inter_subset_right fun n hn _ =>
    h.nonneg n (hZ n hn)

/-- A cut is no smaller than the weight of nodes all of which have edges that cross it. -/
theorem le_cutCap {O : Finset NodeId} (hO : ∀ n ∈ O, Known faninCone faninPi inputSet n)
    (hle : ∀ n ∈ O, weight n ≤ blockCap c weight faninCone faninPi inputSet T n) :
    ∑ n ∈ O, weight n ≤ (makeGraph c weight faninCone faninPi inputSet).network.cutCap T := by
  rw [h.cutCap_eq_sum]
  refine (Finset.sum_le_sum hle).trans (Finset.sum_le_sum_of_subset_of_nonneg (fun n hn => ?_)
    fun n hn _ => ?_)
  · exact List.mem_toFinset.2 (mem_vertexNodes.2 (hO n hn))
  · exact h.blockCap_nonneg (mem_vertexNodes.1 (List.mem_toFinset.1 hn))

end Setting

end

end Msyn.Mincut
