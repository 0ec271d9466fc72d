import Msyn.Circuit.Numbered
import Msyn.Lib.Relax

/-!
# AssignOrder and SortByOrder

`AssignOrder` goes over the fanin edges of the nodes that are not primary inputs and raises the
order of an input that is not above that of its fanout, until nothing is raised. It is a relaxation
of these edges (`orderRound_eq`), so that it ends exactly on circuits without cycles, with the
lengths of the longest chains (`assignOrder_levels`). The field `order` of the nodes is a function
here; nothing else reads it.
-/

namespace Msyn.Nodecircuit.Circuit

/-- The loop over the inputs of a node; `flag` is the second component. -/
def raiseInputs (node : NodeId) (inputs : List NodeId) (t : (NodeId → Nat) × Bool) :
    (NodeId → Nat) × Bool :=
  inputs.foldl (fun t input =>
    if t.1 input ≤ t.1 node then (Function.update t.1 input (t.1 node + 1), true) else t) t

/-- One round of `while (flag)`. -/
def orderRound (c : Circuit) (order : NodeId → Nat) : (NodeId → Nat) ⊕ (NodeId → Nat) :=
  let t := c.allNodes.foldl (fun t node =>
    if !(c.node node).isInput then raiseInputs node (c.node node).inputs t else t) (order, false)
  if t.2 then .inl t.1 else .inr t.1

/-- `AssignOrder`, with `none` for a loop that is not over yet. -/
def assignOrder (c : Circuit) (fuel : Nat) (order : NodeId → Nat) : Option (NodeId → Nat) :=
  loop c.orderRound fuel order

def compareByOrder (order : NodeId → Nat) (node1 node2 : NodeId) : Bool :=
  order node1 < order node2

/-- What `sort(all_nodes.begin(), all_nodes.end(), CompareByOrder)` may leave, which is not a stable
sort. -/
structure SortByOrder (order : NodeId → Nat) (allNodes sorted : List NodeId) : Prop where
  perm : sorted.Perm allNodes
  sorted : sorted.Pairwise fun a b => compareByOrder order b a = false

/-- A fanin edge into a node that is not a primary input. -/
def OrderFanin (c : Circuit) (i n : NodeId) : Prop := c.Fanin i n ∧ (c.node n).isInput = false

/-- The edges in the order of a round. -/
def orderEdges (c : Circuit) : List (NodeId × NodeId) :=
  c.allNodes.flatMap fun n =>
    if !(c.node n).isInput then (c.node n).inputs.map fun i => (i, n) else []

theorem edge_iff {c : Circuit} {i n : NodeId} : Relax.Edge c.orderEdges i n ↔ c.OrderFanin i n := by
  simp only [Relax.Edge, orderEdges, List.mem_flatMap, OrderFanin, Fanin]
  constructor
  · rintro ⟨m, hm, hmem⟩
    split at hmem
    · rename_i hmi
      obtain ⟨j, hj, he⟩ := List.mem_map.1 hmem
      cases he
      exact ⟨⟨hm, hj⟩, by simpa using hmi⟩
    · cases hmem
  · rintro ⟨⟨hn, hi⟩, hni⟩
    refine ⟨n, hn, ?_⟩
    rw [hni]
    exact List.mem_map.2 ⟨i, hi, rfl⟩

theorem orderRound_eq (c : Circuit) : c.orderRound = Relax.levelStep c.orderEdges := by
  funext order
  have hsweep : Relax.sweep c.orderEdges order = c.allNodes.foldl (fun t node =>
      if !(c.node node).isInput then raiseInputs node (c.node node).inputs t else t)
        (order, false) := by
    rw [Relax.sweep, orderEdges, List.foldl_flatMap]
    congr 1
    funext t n
    split
    · rw [List.foldl_map]
      rfl
    · rfl
  rw [orderRound, Relax.levelStep, hsweep]

/-- Where `AssignOrder` ends there is no cycle. -/
theorem assignOrder_acyclic {c : Circuit} {fuel : Nat} {order : NodeId → Nat}
    (h : c.assignOrder fuel (fun _ => 0) = some order) : Acyclic c.OrderFanin := by
  have hedge : Relax.Edge c.orderEdges = c.OrderFanin := by
    funext i n
    exact propext edge_iff
  rw [assignOrder, orderRound_eq] at h
  exact hedge ▸ Relax.levels_ends_iff.1 ⟨fuel, order, h⟩

/-- **`AssignOrder` is a longest-path levelling**, whatever the order of `all_nodes`. -/
theorem assignOrder_levels (c : Circuit) :
    ((∃ fuel order, c.assignOrder fuel (fun _ => 0) = some order) ↔ Acyclic c.OrderFanin) ∧
    ∀ fuel order, c.assignOrder fuel (fun _ => 0) = some order →
      (∀ n, IsGreatest {k | Relax.Chain c.OrderFanin n k} (order n)) ∧
      ∀ l : List NodeId, SortByOrder order c.allNodes l → ∀ (i n : NodeId) (p q : Nat),
        c.OrderFanin i n → l[p]? = some n → l[q]? = some i → p < q := by
  have hedge : Relax.Edge c.orderEdges = c.OrderFanin := by
    funext i n
    exact propext edge_iff
  simp only [assignOrder, orderRound_eq]
  refine ⟨hedge ▸ Relax.levels_ends_iff, fun fuel order h => ⟨hedge ▸ Relax.levels_greatest h,
    fun l hl i n p q hin hp hq => ?_⟩⟩
  have hlt : order n < order i := (Relax.levels_post h).2 (i, n) (edge_iff.2 hin)
  obtain ⟨hplen, hp⟩ := List.getElem?_eq_some_iff.1 hp
  obtain ⟨hqlen, hq⟩ := List.getElem?_eq_some_iff.1 hq
  rcases Nat.lt_trichotomy p q with hpq | rfl | hpq
  · exact hpq
  · rw [hp] at hq
    exact absurd hlt (hq ▸ Nat.lt_irrefl _)
  · have hsort := List.pairwise_iff_getElem.1 hl.sorted q p hqlen hplen hpq
    rw [hp, hq] at hsort
    exact absurd hlt (by simpa [compareByOrder] using hsort)

/-- Two inverters between `p` and the output `q`; a round carries the orders one edge further. -/
def inverters : List Node := [
  { name := "p", isInput := true, outputs := [1] },
  { name := "a", cube := "0 1\n", inputs := [0], outputs := [2] },
  { name := "b", cube := "0 1\n", inputs := [1], outputs := [3] },
  { name := "q", cube := "1 1\n", inputs := [2], isOutput := true }]

example : (List.range 4).map (((ofNodes inverters).assignOrder 4 fun _ => 0).getD fun _ => 0) =
    [3, 2, 1, 0] := by decide

end Msyn.Nodecircuit.Circuit
