import Msyn.Circuit.ClusterGraph
import Msyn.Circuit.Numbered

/-!
# The loops of the cones end

The loops behind `GetFaninCone` and `GetFanoutCone`, with `none` for a loop that is not over yet. On
a mirrored circuit they end, whatever its cycles, with the sets that `Circuit/Cone.lean` describes
(`cones_exact`).
-/

namespace Msyn.Nodecircuit.Circuit

open Relation

def fanoutConeLoop (c : Circuit) (fuel : Nat) (n : NodeId) : Option (NodeSet × NodeSet) :=
  (loop (Worklist.drainStep (fun s x => decide (x ∈ s.1))
    (fun x s => (s.1.insert x, if (c.node x).isOutput then s.2.insert x else s.2))
    fun x => (c.node x).outputs) fuel ([n], ((∅, ∅) : NodeSet × NodeSet))).map
      fun s => (s.1.erase n, s.2)

def faninConeLoop (c : Circuit) (fuel : Nat) (n : NodeId) : Option (NodeSet × NodeSet) :=
  (loop (Worklist.drainStep (fun s x => decide (x ∈ s.1))
    (fun x s => if (c.node x).isInput then (s.1, s.2.insert x) else (s.1.insert x, s.2))
    c.faninSucc) fuel ([n], ((∅, ∅) : NodeSet × NodeSet))).map fun s => (s.1.erase n, s.2)

def clusterConeLoop (succ : ClusterId → List ClusterId) (fuel : Nat) (k : ClusterId) :
    Option ClusterSet :=
  (loop (Worklist.drainStep (fun s x => decide (x ∈ s)) (fun x s => s.insert x) succ) fuel
    ([k], (∅ : ClusterSet))).map fun s => s.erase k

/-- A node with `my_cluster` `a` is an input of one with `my_cluster` `b`. -/
def ClusterFanin (c : Circuit) (a b : ClusterId) : Prop :=
  ∃ m n, c.Fanin m n ∧ (c.node m).isInput = false ∧ (c.node n).isInput = false ∧
    (c.node m).myCluster = a ∧ (c.node n).myCluster = b

section
variable {c : Circuit} (h : c.Mirror)
include h

theorem fanoutConeLoop_ends {n : NodeId} (hn : n ∈ c.allNodes) :
    ∃ N, ∀ fuel ≥ N, c.fanoutConeLoop fuel n = some (c.getFanoutCone n) :=
  ⟨_, fun fuel hf => by
    rw [fanoutConeLoop, Worklist.drain_ends c.fanoutSpec h.outs hn (fun y => by simp) hf]
    rfl⟩

theorem faninConeLoop_ends {n : NodeId} (hn : n ∈ c.allNodes) :
    ∃ N, ∀ fuel ≥ N, c.faninConeLoop fuel n = some (c.getFaninCone n) :=
  ⟨_, fun fuel hf => by
    rw [faninConeLoop, Worklist.drain_ends c.faninSpec h.faninSucc_mem hn (fun y => by simp) hf]
    rfl⟩

variable (hp : c.Part) {k : ClusterId} (hk : k ∈ c.allClusters)
include hp hk

theorem clusterFanoutLoop_ends (hpi : c.PisClean) : ∃ N, ∀ fuel ≥ N,
    clusterConeLoop c.clusterFanouts fuel k = some (c.getClusterFanoutCone k) :=
  ⟨_, fun fuel hf => by
    rw [clusterConeLoop, Worklist.drain_ends (clusterSpec _)
      (fun x hx y hy => clusterFanouts_mem h hp hpi hx hy) hk (fun y => by simp) hf]
    rfl⟩

theorem clusterFaninLoop_ends : ∃ N, ∀ fuel ≥ N,
    clusterConeLoop c.clusterFanins fuel k = some (c.getClusterFaninCone k) :=
  ⟨_, fun fuel hf => by
    rw [clusterConeLoop, Worklist.drain_ends (clusterSpec _)
      (fun x hx y hy => clusterFanins_mem h hp hx hy) hk (fun y => by simp) hf]
    rfl⟩

omit hk in
/-- Edges within a cluster do not matter for what is reached. -/
theorem reach_clusterFanin {a b : ClusterId} :
    ReflTransGen c.Precedes a b ↔ ReflTransGen c.ClusterFanin a b := by
  constructor
  · intro hr
    induction hr with
    | refl => exact .refl
    | tail _ hxy ih => exact ih.tail ((precedes_iff hp h.closed).1 hxy).2
  · intro hr
    induction hr with
    | refl => exact .refl
    | @tail x y _ hxy ih =>
      by_cases hne : x = y
      · exact hne ▸ ih
      · exact ih.tail ((precedes_iff hp h.closed).2 ⟨hne, hxy⟩)

end

/-- **The cones** are exact reachability, and their loops end, in cyclic circuits, too. -/
theorem cones_exact {c : Circuit} (h : c.Mirror) (hpi : c.PisClean) :
    (∀ n ∈ c.allNodes, (∃ N, ∀ fuel ≥ N, c.faninConeLoop fuel n = some (c.getFaninCone n)) ∧
      ∀ y, (y ∈ (c.getFaninCone n).1 ↔
          y ≠ n ∧ ReflTransGen c.Fanin y n ∧ (c.node y).isInput = false) ∧
        (y ∈ (c.getFaninCone n).2 ↔ ReflTransGen c.Fanin y n ∧ (c.node y).isInput = true)) ∧
    (∀ n ∈ c.allNodes, (∃ N, ∀ fuel ≥ N, c.fanoutConeLoop fuel n = some (c.getFanoutCone n)) ∧
      ∀ y, (y ∈ (c.getFanoutCone n).1 ↔ y ≠ n ∧ ReflTransGen c.Fanin n y) ∧
        (y ∈ (c.getFanoutCone n).2 ↔ ReflTransGen c.Fanin n y ∧ (c.node y).isOutput = true)) ∧
    (∀ a ∈ c.allNodes, ∀ b ∈ c.allNodes, a ≠ b → (c.node a).isInput = false →
      (c.node b).isInput = false → (a ∈ (c.getFaninCone b).1 ↔ b ∈ (c.getFanoutCone a).1)) ∧
    (c.Part → ∀ k ∈ c.allClusters,
      (∃ N, ∀ fuel ≥ N,
        clusterConeLoop c.clusterFanins fuel k = some (c.getClusterFaninCone k)) ∧
      (∃ N, ∀ fuel ≥ N,
        clusterConeLoop c.clusterFanouts fuel k = some (c.getClusterFanoutCone k)) ∧
      ∀ j, (j ∈ c.getClusterFaninCone k ↔ j ≠ k ∧ ReflTransGen c.ClusterFanin j k) ∧
        (j ∈ c.getClusterFanoutCone k ↔ j ≠ k ∧ ReflTransGen c.ClusterFanin k j)) := by
  refine ⟨fun n hn => ⟨faninConeLoop_ends h hn, fun y => mem_faninCone h hpi hn⟩,
    fun n hn => ⟨fanoutConeLoop_ends h hn, fun y => mem_fanoutCone h hn⟩,
    fun a ha b hb hne hai hbi => ?_, fun hp k hk => ⟨clusterFaninLoop_ends h hp hk,
      clusterFanoutLoop_ends h hp hk hpi, fun j => ⟨?_, ?_⟩⟩⟩
  · rw [(mem_faninCone h hpi hb).1, (mem_fanoutCone h ha).1]
    exact ⟨fun hr => ⟨hne.symm, hr.2.1⟩, fun hr => ⟨hne, hr.2, hai⟩⟩
  · rw [mem_faninCone_iff h hp hk, reach_clusterFanin h hp]
  · rw [mem_fanoutCone_iff h hp hpi hk, reach_clusterFanin h hp]

/-- `a` and `b` read each other. -/
def crossed : List Node := [
  { name := "p", isInput := true, outputs := [1] },
  { name := "a", cube := "11 1\n", inputs := [0, 2], outputs := [2] },
  { name := "b", cube := "1 1\n", inputs := [1], outputs := [1], isOutput := true }]

theorem cones_exact_crossed : ∃ N, ∀ fuel ≥ N,
    (ofNodes crossed).faninConeLoop fuel 1 = some ((ofNodes crossed).getFaninCone 1) := by
  have hm : (ofNodes crossed).Mirror :=
    ⟨by decide, by unfold Closed; decide, by decide, by decide⟩
  have hpi : (ofNodes crossed).PisClean := by unfold PisClean; decide
  exact ((cones_exact hm hpi).1 1 (by decide)).1

end Msyn.Nodecircuit.Circuit
