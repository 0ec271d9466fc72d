import Msyn.Circuit.Remove
import Msyn.Lib.Worklist

/-!
# Fanin and fanout cones

The traversals of `GetFaninCone` and `GetFanoutCone` for nodes and for clusters. On a mirrored
circuit they compute reachability along fanin edges (`mem_fanoutCone`, `mem_faninCone`,
`mem_clusterFanoutCone`).
-/

namespace Msyn.Nodecircuit.Circuit

open Relation

/-- `GetFanoutCone(node, fanout_nodes, fanout_po)` on empty sets. -/
def getFanoutCone (c : Circuit) (n : NodeId) : NodeSet × NodeSet :=
  let s := Worklist.drain (fun s x => decide (x ∈ s.1))
    (fun x s => (s.1.insert x, if (c.node x).isOutput then s.2.insert x else s.2))
    (fun x => (c.node x).outputs) (Worklist.fuelFor (fun x => (c.node x).outputs) c.allNodes)
    [n] (((∅, ∅) : NodeSet × NodeSet))
  (s.1.erase n, s.2)

/-- The inputs that `GetFaninCone` walks to: it stops at primary inputs. -/
def faninSucc (c : Circuit) (n : NodeId) : List NodeId :=
  if (c.node n).isInput then [] else (c.node n).inputs

/-- `GetFaninCone(node, fanin_nodes, fanin_pi)` on empty sets. -/
def getFaninCone (c : Circuit) (n : NodeId) : NodeSet × NodeSet :=
  let s := Worklist.drain (fun s x => decide (x ∈ s.1))
    (fun x s => if (c.node x).isInput then (s.1, s.2.insert x) else (s.1.insert x, s.2))
    c.faninSucc (Worklist.fuelFor c.faninSucc c.allNodes) [n] (((∅, ∅) : NodeSet × NodeSet))
  (s.1.erase n, s.2)

/-- The clusters of the fanouts of the nodes of a cluster. -/
def clusterFanouts (c : Circuit) (k : ClusterId) : List ClusterId :=
  (c.cluster k).nodesC.flatMap fun nd => (c.node nd).outputs.map fun out => (c.node out).myCluster

/-- The clusters of the fanins of the nodes of a cluster, primary inputs left out. -/
def clusterFanins (c : Circuit) (k : ClusterId) : List ClusterId :=
  (c.cluster k).nodesC.flatMap fun nd =>
    ((c.node nd).inputs.filter fun i => !(c.node i).isInput).map fun i => (c.node i).myCluster

/-- `GetFanoutCone(clst, fanout_clsts)` on an empty set. -/
def getClusterFanoutCone (c : Circuit) (k : ClusterId) : ClusterSet :=
  (Worklist.drain (fun s x => decide (x ∈ s)) (fun x s => s.insert x) c.clusterFanouts
    (Worklist.fuelFor c.clusterFanouts c.allClusters) [k] (∅ : ClusterSet)).erase k

/-- `GetFaninCone(clst, fanin_clsts)` on an empty set. -/
def getClusterFaninCone (c : Circuit) (k : ClusterId) : ClusterSet :=
  (Worklist.drain (fun s x => decide (x ∈ s)) (fun x s => s.insert x) c.clusterFanins
    (Worklist.fuelFor c.clusterFanins c.allClusters) [k] (∅ : ClusterSet)).erase k

/-! ## What the traversals record -/

section
variable (c : Circuit)

theorem mem_foldl_fanout (l : List NodeId) (s : NodeSet × NodeSet) (y : NodeId) :
    let t := l.foldl (fun s x =>
      (s.1.insert x, if (c.node x).isOutput then s.2.insert x else s.2)) s
    (y ∈ t.1 ↔ y ∈ s.1 ∨ y ∈ l) ∧ (y ∈ t.2 ↔ y ∈ s.2 ∨ y ∈ l ∧ (c.node y).isOutput = true) := by
  induction l generalizing s with
  | nil => simp
  | cons x l ih =>
    obtain ⟨h1, h2⟩ := ih (s.1.insert x, if (c.node x).isOutput then s.2.insert x else s.2)
    simp only [List.foldl_cons, List.mem_cons] at h1 h2 ⊢
    refine ⟨?_, ?_⟩
    · rw [h1, OrdSet.mem_insert]
      tauto
    · rw [h2]
      by_cases hx : (c.node x).isOutput = true
      · rw [if_pos hx, OrdSet.mem_insert]
        refine ⟨?_, ?_⟩
        · rintro ((rfl | h) | h)
          · exact .inr ⟨.inl rfl, hx⟩
          · exact .inl h
          · exact .inr ⟨.inr h.1, h.2⟩
        · rintro (h | ⟨rfl | h, h'⟩)
          · exact .inl (.inr h)
          · exact .inl (.inl rfl)
          · exact .inr ⟨h, h'⟩
      · rw [if_neg hx]
        refine or_congr_right ⟨fun h => ⟨.inr h.1, h.2⟩, fun ⟨h, h'⟩ => ⟨h.resolve_left ?_, h'⟩⟩
        rintro rfl
        exact hx h'

theorem mem_foldl_fanin (l : List NodeId) (s : NodeSet × NodeSet) (y : NodeId) :
    let t := l.foldl (fun s x =>
      if (c.node x).isInput then (s.1, s.2.insert x) else (s.1.insert x, s.2)) s
    (y ∈ t.1 ↔ y ∈ s.1 ∨ y ∈ l ∧ (c.node y).isInput = false) ∧
      (y ∈ t.2 ↔ y ∈ s.2 ∨ y ∈ l ∧ (c.node y).isInput = true) := by
  induction l generalizing s with
  | nil => simp
  | cons x l ih =>
    have key : ∀ (p q r : Prop), (y = x → (q ↔ True)) → ((y = x ∨ p) ∨ r ∧ q ↔ p ∨ (y = x ∨ r) ∧ q) := by
      intro p q r h
      by_cases hy : y = x
      · have := h hy; tauto
      · tauto
    have key' : ∀ (p q r : Prop), (y = x → (q ↔ False)) → (p ∨ r ∧ q ↔ p ∨ (y = x ∨ r) ∧ q) := by
      intro p q r h
      by_cases hy : y = x
      · have := h hy; tauto
      · tauto
    simp only [List.foldl_cons, List.mem_cons]
    cases hx : (c.node x).isInput
    · simp only [Bool.false_eq_true, if_false]
      obtain ⟨h1, h2⟩ := ih (s.1.insert x, s.2)
      rw [h1, h2, OrdSet.mem_insert]
      exact ⟨key _ _ _ fun h => by simp [h, hx], key' _ _ _ fun h => by simp [h, hx]⟩
    · simp only [if_true]
      obtain ⟨h1, h2⟩ := ih (s.1, s.2.insert x)
      rw [h1, h2, OrdSet.mem_insert]
      exact ⟨key' _ _ _ fun h => by simp [h, hx], key _ _ _ fun h => by simp [h, hx]⟩

theorem fanoutSpec : Worklist.Spec (fun (s : NodeSet × NodeSet) x => decide (x ∈ s.1))
    (fun x s => (s.1.insert x, if (c.node x).isOutput then s.2.insert x else s.2))
    (fun x => (c.node x).outputs) (fun _ => False) :=
  ⟨fun x s y => by simp [or_comm], fun _ h => h.elim⟩

theorem faninSpec : Worklist.Spec (fun (s : NodeSet × NodeSet) x => decide (x ∈ s.1))
    (fun x s => if (c.node x).isInput then (s.1, s.2.insert x) else (s.1.insert x, s.2))
    c.faninSucc (fun x => (c.node x).isInput = true) := by
  refine ⟨fun x s y => ?_, fun x hx => if_pos hx⟩
  cases hx : (c.node x).isInput <;> simp [or_comm]

theorem clusterSpec (succ : ClusterId → List ClusterId) :
    Worklist.Spec (fun (s : ClusterSet) x => decide (x ∈ s)) (fun x s => s.insert x) succ
      (fun _ => False) :=
  ⟨fun x s y => by simp [or_comm], fun _ h => h.elim⟩

theorem mem_foldl_insert (l : List ClusterId) (s : ClusterSet) (y : ClusterId) :
    y ∈ l.foldl (fun s x => s.insert x) s ↔ y ∈ s ∨ y ∈ l := OrdSet.mem_insertAll

end

/-! ## Node cones -/

/-- Primary inputs have no fanins, so that no fanout is a primary input. -/
def PisClean (c : Circuit) : Prop :=
  ∀ i ∈ c.allNodes, (c.node i).isInput = true → (c.node i).inputs = []

theorem PisClean.fanout {c : Circuit} (h : c.PisClean) (hm : c.Mirror) {n m : NodeId}
    (hn : n ∈ c.allNodes) (hmem : m ∈ (c.node n).outputs) : (c.node m).isInput = false := by
  obtain ⟨h1, h2⟩ := hm.fanin hn hmem
  by_contra hi
  rw [h m h1 (by simpa using hi)] at h2
  cases h2

section
variable {c : Circuit} (h : c.Mirror)
include h

theorem reach_outputs {n : NodeId} (hn : n ∈ c.allNodes) {y : NodeId} :
    Worklist.Reach (fun x => (c.node x).outputs) n y ↔ ReflTransGen c.Fanin n y := by
  constructor
  · intro hr
    induction hr with
    | refl => exact .refl
    | @tail b y hb hy ih =>
      refine ih.tail (h.fanin ?_ hy)
      rcases ReflTransGen.cases_tail ih with rfl | ⟨d, -, hd⟩
      · exact hn
      · exact hd.1
  · intro hr
    induction hr with
    | refl => exact .refl
    | tail _ hy ih => exact ih.tail (h.fanout hy).2

/-- **The fanout cone of a node.** -/
theorem mem_fanoutCone {n : NodeId} (hn : n ∈ c.allNodes) {y : NodeId} :
    (y ∈ (c.getFanoutCone n).1 ↔ y ≠ n ∧ ReflTransGen c.Fanin n y) ∧
      (y ∈ (c.getFanoutCone n).2 ↔ ReflTransGen c.Fanin n y ∧ (c.node y).isOutput = true) := by
  obtain ⟨l, he, hl⟩ := Worklist.drain_spec c.fanoutSpec (U := c.allNodes) h.outs hn
    (fun y => by simp : ∀ y, decide (y ∈ ((∅, ∅) : NodeSet × NodeSet).1) = false)
  have hmem := mem_foldl_fanout c l (∅, ∅) y
  rw [getFanoutCone]
  simp only [he, OrdSet.mem_erase] at hmem ⊢
  rw [hmem.1, hmem.2, hl, reach_outputs h hn]
  simp

theorem Mirror.faninSucc_mem : ∀ x ∈ c.allNodes, ∀ y ∈ c.faninSucc x, y ∈ c.allNodes := by
  intro x hx y hy
  unfold faninSucc at hy
  split at hy
  · cases hy
  · exact h.closed x hx y hy

theorem reach_inputs {n : NodeId} (hn : n ∈ c.allNodes) {y : NodeId} :
    Worklist.Reach c.faninSucc n y → ReflTransGen c.Fanin y n := by
  intro hr
  have : y ∈ c.allNodes ∧ ReflTransGen c.Fanin y n := by
    induction hr with
    | refl => exact ⟨hn, .refl⟩
    | @tail b y _ hy ih =>
      unfold faninSucc at hy
      split at hy
      · cases hy
      · exact ⟨h.closed b ih.1 y hy, .head ⟨ih.1, hy⟩ ih.2⟩
  exact this.2

/-- **The fanin cone of a node** of a circuit whose primary inputs have no fanins. -/
theorem mem_faninCone (hpi : c.PisClean) {n : NodeId} (hn : n ∈ c.allNodes) {y : NodeId} :
    (y ∈ (c.getFaninCone n).1 ↔
        y ≠ n ∧ ReflTransGen c.Fanin y n ∧ (c.node y).isInput = false) ∧
      (y ∈ (c.getFaninCone n).2 ↔ ReflTransGen c.Fanin y n ∧ (c.node y).isInput = true) := by
  obtain ⟨l, he, hl⟩ := Worklist.drain_spec c.faninSpec h.faninSucc_mem hn
    (fun y => by simp : ∀ y, decide (y ∈ ((∅, ∅) : NodeSet × NodeSet).1) = false)
  have hreach : Worklist.Reach c.faninSucc n y ↔ ReflTransGen c.Fanin y n := by
    refine ⟨reach_inputs h hn, fun hr => ?_⟩
    induction hr using ReflTransGen.head_induction_on with
    | refl => exact .refl
    | @head a b hab _ ih =>
      refine ih.tail ?_
      unfold faninSucc
      split
      · rename_i hb
        rw [← hpi b hab.1 hb]
        exact hab.2
      · exact hab.2
  have hmem := mem_foldl_fanin c l (∅, ∅) y
  rw [getFaninCone]
  simp only [he, OrdSet.mem_erase] at hmem ⊢
  rw [hmem.1, hmem.2, hl, hreach]
  simp

end

/-! ## Cluster cones -/

section
variable {c : Circuit}

theorem mem_clusterFanouts {k j : ClusterId} : j ∈ c.clusterFanouts k ↔
    ∃ n ∈ (c.cluster k).nodesC, ∃ m ∈ (c.node n).outputs, (c.node m).myCluster = j := by
  simp [clusterFanouts]

theorem mem_clusterFanins {k j : ClusterId} : j ∈ c.clusterFanins k ↔
    ∃ n ∈ (c.cluster k).nodesC, ∃ i ∈ (c.node n).inputs,
      (c.node i).isInput = false ∧ (c.node i).myCluster = j := by
  simp [clusterFanins, and_assoc]

variable (h : c.Mirror) (hp : c.Part) (hpi : c.PisClean)
include h hp hpi

theorem clusterFanouts_mem {k : ClusterId} (hk : k ∈ c.allClusters) {j : ClusterId}
    (hj : j ∈ c.clusterFanouts k) : j ∈ c.allClusters := by
  obtain ⟨n, hn, m, hmem, rfl⟩ := mem_clusterFanouts.1 hj
  have hn' := (hp.mem k hk n hn).1
  exact (hp.covers m (h.outs n hn' m hmem) (hpi.fanout h hn' hmem)).1

omit hpi in
theorem clusterFanins_mem {k : ClusterId} (hk : k ∈ c.allClusters) {j : ClusterId}
    (hj : j ∈ c.clusterFanins k) : j ∈ c.allClusters := by
  obtain ⟨n, hn, i, hi, hii, rfl⟩ := mem_clusterFanins.1 hj
  exact (hp.covers i (h.closed n (hp.mem k hk n hn).1 i hi) hii).1

/-- **The fanout cone of a cluster.** -/
theorem mem_clusterFanoutCone {k : ClusterId} (hk : k ∈ c.allClusters) {j : ClusterId} :
    j ∈ c.getClusterFanoutCone k ↔ j ≠ k ∧ Worklist.Reach c.clusterFanouts k j := by
  obtain ⟨l, he, hl⟩ := Worklist.drain_spec (clusterSpec c.clusterFanouts) (U := c.allClusters)
    (fun _ hx _ hy => clusterFanouts_mem h hp hpi hx hy) hk
    (fun y => by simp : ∀ y, decide (y ∈ (∅ : ClusterSet)) = false)
  rw [getClusterFanoutCone, he, OrdSet.mem_erase, mem_foldl_insert, hl]
  simp

omit hpi in
/-- **The fanin cone of a cluster.** -/
theorem mem_clusterFaninCone {k : ClusterId} (hk : k ∈ c.allClusters) {j : ClusterId} :
    j ∈ c.getClusterFaninCone k ↔ j ≠ k ∧ Worklist.Reach c.clusterFanins k j := by
  obtain ⟨l, he, hl⟩ := Worklist.drain_spec (clusterSpec c.clusterFanins) (U := c.allClusters)
    (fun _ hx _ hy => clusterFanins_mem h hp hx hy) hk
    (fun y => by simp : ∀ y, decide (y ∈ (∅ : ClusterSet)) = false)
  rw [getClusterFaninCone, he, OrdSet.mem_erase, mem_foldl_insert, hl]
  simp

/-- A node that a member of `k` reaches lies in a cluster that `k` reaches. -/
theorem reach_cluster {k : ClusterId} (hk : k ∈ c.allClusters) {n y : NodeId}
    (hn : n ∈ (c.cluster k).nodesC) (hr : ReflTransGen c.Fanin n y) :
    (c.node y).isInput = false ∧ y ∈ c.allNodes ∧
      Worklist.Reach c.clusterFanouts k (c.node y).myCluster := by
  induction hr with
  | refl =>
    obtain ⟨h1, h2, h3⟩ := hp.mem k hk n hn
    exact ⟨h2, h1, h3 ▸ .refl⟩
  | @tail b y _ hby ih =>
    obtain ⟨hbi, hb, hkb⟩ := ih
    have hy := (h.fanout hby).2
    refine ⟨hpi.fanout h hb hy, hby.1, hkb.tail ?_⟩
    exact mem_clusterFanouts.2 ⟨b, (hp.covers b hb hbi).2, y, hy, rfl⟩

end

end Msyn.Nodecircuit.Circuit
