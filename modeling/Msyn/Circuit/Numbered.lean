import Mathlib.Data.List.Sigma
import Msyn.Circuit.Cluster
import Msyn.Circuit.Cone
import Msyn.Circuit.Equivalence

/-!
# Circuits of numbered nodes

`ofNodes l` is the circuit whose `i`-th node is the `i`-th entry of `l`. If the entries refer to
earlier ones, and the two edge lists match (`Ordered`), it is acyclic and mirrored.
-/

namespace Msyn.Nodecircuit.Circuit

/-- The circuit of a list of nodes, without clusters. -/
def ofNodes (l : List Node) : Circuit where
  inputs := (List.range l.length).filter fun n => (l.getD n { name := "" }).isInput
  outputs := (List.range l.length).filter fun n => (l.getD n { name := "" }).isOutput
  allNodes := List.range l.length
  allNodesMap := ((List.range l.length).map fun n =>
    (⟨(l.getD n { name := "" }).name, n⟩ : Sigma fun _ : String => NodeId)).toAList
  node n := l.getD n { name := "" }
  cluster _ := {}

/-- The names are distinct, the inputs of a node have smaller numbers, and the edge lists match. -/
def Ordered (l : List Node) : Prop :=
  let c := ofNodes l
  (l.map Node.name).Nodup ∧ (∀ n ∈ c.allNodes, (∀ i ∈ (c.node n).inputs, i < n) ∧
    (∀ m ∈ (c.node n).outputs, m ∈ c.allNodes) ∧
    ((c.node n).isInput = true → (c.node n).inputs = [])) ∧
  ∀ a ∈ c.allNodes, ∀ b ∈ c.allNodes, (c.node b).inputs.count a = (c.node a).outputs.count b

instance (l : List Node) : Decidable (Ordered l) := by
  unfold Ordered
  infer_instance

theorem ofNodes_getNode {l : List Node} {s : String} {n : NodeId}
    (h : (ofNodes l).getNode s = some n) : n ∈ (ofNodes l).allNodes := by
  have h1 := AList.lookup_to_alist (a := s) ((List.range l.length).map fun n =>
    (⟨(l.getD n { name := "" }).name, n⟩ : Sigma fun _ : String => NodeId))
  have h2 := List.of_mem_dlookup (h1.symm.trans h)
  obtain ⟨m, hm, he⟩ := List.mem_map.1 h2
  cases he
  exact hm

namespace Ordered

variable {l : List Node} (h : Ordered l)
include h

theorem mirror : (ofNodes l).Mirror where
  nodup := List.nodup_range
  closed n hn i hi := by
    have hn' : n < l.length := List.mem_range.1 hn
    exact List.mem_range.2 (((h.2.1 n hn).1 i hi).trans hn')
  outs n hn := (h.2.1 n hn).2.1
  count := h.2.2

theorem acyclic : (ofNodes l).IsAcyclic := Acyclic.of_rank id fun a b hab => (h.2.1 b hab.1).1 a hab.2

theorem pisClean : (ofNodes l).PisClean := fun n hn => (h.2.1 n hn).2.2

theorem ports : Ports (ofNodes l) where
  inputs n := by
    simp only [ofNodes, List.mem_filter]
  outputs n hn := by
    simpa only [ofNodes, List.mem_filter] using hn
  names a ha b hb he := by
    have ha' : a < l.length := List.mem_range.1 ha
    have hb' : b < l.length := List.mem_range.1 hb
    have he' : (l.map Node.name)[a]? = (l.map Node.name)[b]? := by
      simpa [ofNodes, ha', hb'] using he
    exact (List.getElem?_inj (by simpa) h.1).1 he'

omit h in
theorem clustered : SameNet (ofNodes l) ((ofNodes l).initCluster id) :=
  initCluster_sameNet fun _ _ _ _ => id

omit h in
/-- With the clusters in any order. -/
theorem reordered (ks : List ClusterId) :
    SameNet (ofNodes l) { (ofNodes l).initCluster id with allClusters := ks } :=
  ⟨(clustered (l := l)).node, by simp only; rw [(clustered (l := l)).rest]⟩

end Ordered

theorem SameNet.ports {c c' : Circuit} (h : SameNet c c') (hp : Ports c) : Ports c' where
  inputs n := by
    rw [h.pis, h.allNodes, h.isInput]
    exact hp.inputs n
  outputs n hn := by
    rw [h.allNodes, h.isOutput]
    exact hp.outputs n (h.pos ▸ hn)
  names a ha b hb he := by
    rw [h.allNodes] at ha hb
    rw [h.name, h.name] at he
    exact hp.names a ha b hb he

/-- Every circuit has the ports of itself. -/
theorem Interface.refl (c : Circuit) : Interface c c :=
  ⟨fun n hn => ⟨n, hn, rfl⟩, fun n hn => ⟨n, hn, rfl⟩, fun n hn => ⟨n, hn, rfl⟩⟩

end Msyn.Nodecircuit.Circuit
