import Mathlib.Data.List.AList
import Msyn.Lib.OrdMap

/-!
# Nodes, clusters and circuits

The classes of `node.h` and the operations of `node.cpp` that edit a circuit. A pointer is an
index into the heaps `Circuit.node` and `Circuit.cluster`; `all_clusters`, an `unordered_set`, is
the list of its elements in iteration order.

An operation returns `none` where the program is undefined or aborts: an `assert` that fails, an
`erase` of an iterator that a `find` returned as `end()`, an index out of range. Functions that are
declared to return an `int` and end without a `return` are modelled by what they do before that:
`AssignOrder`, `SortByOrder`, `InitCluster`, `Restruct`, `Remove` and the cones of a cluster here, and
later `ReduceColReplace21_Traverse`, `setcover_m::Select` where it succeeds and `getDC::solve_new`. No
caller reads the value.
-/

namespace Msyn.Nodecircuit

abbrev NodeId := Nat
abbrev ClusterId := Nat
abbrev NodeSet := OrdSet NodeId
abbrev ClusterSet := OrdSet ClusterId

structure Node where
  name : String
  cube : String := ""
  cubePre : String := ""
  isInput : Bool := false
  isOutput : Bool := false
  inputs : List NodeId := []
  inputsPre : List NodeId := []
  outputs : List NodeId := []
  myCluster : ClusterId := 0
deriving DecidableEq, Repr

def Node.hasOutput (n : Node) : Bool := !n.outputs.isEmpty

structure Cluster where
  name : String := ""
  nodesC : List NodeId := []
  inputNodes : NodeSet := ∅
deriving DecidableEq

structure Circuit where
  name : String := ""
  inputs : List NodeId := []
  outputs : List NodeId := []
  targets : List NodeId := []
  allNodes : List NodeId := []
  allClusters : List ClusterId := []
  allNodesMap : AList (fun _ : String => NodeId) := ∅
  node : NodeId → Node
  cluster : ClusterId → Cluster

/-- The cube of an on-set: a line of values and an output 1 for each pattern. -/
def writeCube (in2cases : List (OrdMap NodeId Bool)) : String :=
  in2cases.foldl (fun s in2case =>
    in2case.entries.foldl (fun s pair => if pair.2 then s ++ "1" else s ++ "0") s ++ " 1\n") ""

namespace Circuit

/-! ## Heap updates -/

def modNode (c : Circuit) (i : NodeId) (f : Node → Node) : Circuit :=
  { c with node := fun j => if j = i then f (c.node j) else c.node j }

def modCluster (c : Circuit) (k : ClusterId) (f : Cluster → Cluster) : Circuit :=
  { c with cluster := fun j => if j = k then f (c.cluster j) else c.cluster j }

section
variable (c : Circuit) (i : NodeId) (k : ClusterId) (f : Node → Node) (g : Cluster → Cluster)

@[simp] theorem modNode_node (j : NodeId) :
    (c.modNode i f).node j = if j = i then f (c.node j) else c.node j := rfl
@[simp] theorem modNode_cluster : (c.modNode i f).cluster = c.cluster := rfl
@[simp] theorem modNode_allNodes : (c.modNode i f).allNodes = c.allNodes := rfl
@[simp] theorem modNode_allClusters : (c.modNode i f).allClusters = c.allClusters := rfl
@[simp] theorem modNode_targets : (c.modNode i f).targets = c.targets := rfl
@[simp] theorem modNode_inputs : (c.modNode i f).inputs = c.inputs := rfl
@[simp] theorem modNode_outputs : (c.modNode i f).outputs = c.outputs := rfl
@[simp] theorem modNode_allNodesMap : (c.modNode i f).allNodesMap = c.allNodesMap := rfl

@[simp] theorem modCluster_cluster (j : ClusterId) :
    (c.modCluster k g).cluster j = if j = k then g (c.cluster j) else c.cluster j := rfl
@[simp] theorem modCluster_node : (c.modCluster k g).node = c.node := rfl
@[simp] theorem modCluster_allNodes : (c.modCluster k g).allNodes = c.allNodes := rfl
@[simp] theorem modCluster_allClusters : (c.modCluster k g).allClusters = c.allClusters := rfl
@[simp] theorem modCluster_targets : (c.modCluster k g).targets = c.targets := rfl
@[simp] theorem modCluster_inputs : (c.modCluster k g).inputs = c.inputs := rfl
@[simp] theorem modCluster_outputs : (c.modCluster k g).outputs = c.outputs := rfl
@[simp] theorem modCluster_allNodesMap : (c.modCluster k g).allNodesMap = c.allNodesMap := rfl

end

/-- Find a node by name. -/
def getNode (c : Circuit) (name : String) : Option NodeId := c.allNodesMap.lookup name

/-! ## Edges -/

/-- `i->outputs.erase(find(i->outputs.begin(), i->outputs.end(), n))`. -/
def eraseOutput (c : Circuit) (i n : NodeId) : Option Circuit :=
  if n ∈ (c.node i).outputs then
    some (c.modNode i fun nd => { nd with outputs := nd.outputs.erase n })
  else none

/-- `i->outputs.push_back(n)`. -/
def pushOutput (c : Circuit) (i n : NodeId) : Circuit :=
  c.modNode i fun nd => { nd with outputs := nd.outputs ++ [n] }

/-- One round of the loop of `SetTargets`. -/
def setTarget (c : Circuit) (n : NodeId) : Option Circuit := do
  let c ← (c.node n).inputs.foldlM (fun c i => c.eraseOutput i n) c
  some ({ c with targets := c.targets ++ [n] }.modNode n fun nd =>
    { nd with inputsPre := nd.inputs, inputs := [], cubePre := nd.cube, cube := "" })

def setTargets : List NodeId → Circuit → Option Circuit
  | [], c => some c
  | n :: ns, c => if (c.node n).isInput then some c else setTarget c n >>= setTargets ns

/-- `Restruct(target, in2cases)`: the target becomes the cover `in2cases` of its keys. -/
def restruct (c : Circuit) (target : NodeId) (in2cases : List (OrdMap NodeId Bool)) :
    Option Circuit :=
  if target ∈ c.targets then
    match in2cases with
    | [] => none -- `in2cases[0]` of an empty vector
    | in2case :: _ =>
      let c := { c with targets := c.targets.erase target }
      let c := in2case.entries.foldl (fun c pair =>
        (c.pushOutput pair.1 target).modNode target fun nd =>
          { nd with inputs := nd.inputs ++ [pair.1] }) c
      some (c.modNode target fun nd => { nd with cube := writeCube in2cases })
  else none

/-- The node leaves its cluster; a cluster of one node leaves `all_clusters`. -/
def dropFromCluster (c : Circuit) (n : NodeId) : Option Circuit :=
  let k := (c.node n).myCluster
  if (c.cluster k).nodesC.length ≠ 1 then
    if n ∈ (c.cluster k).nodesC then
      some (c.modCluster k fun clst => { clst with nodesC := clst.nodesC.erase n })
    else none
  else if k ∈ c.allClusters then some { c with allClusters := c.allClusters.erase k }
  else none

/-- The node leaves `all_nodes`. -/
def dropNode (c : Circuit) (n : NodeId) : Option Circuit :=
  if n ∈ c.allNodes then some { c with allNodes := c.allNodes.erase n } else none

/-- `Remove` with a bound on the depth of its recursion. -/
def removeF : Nat → Circuit → NodeId → Option Circuit
  | 0, _, _ => none
  | fuel + 1, c, n =>
    if (c.node n).outputs = [] then do
      let c ← c.dropFromCluster n
      let c ← c.dropNode n
      (c.node n).inputs.foldlM (fun c i => do
        let c ← c.eraseOutput i n
        if (c.node i).outputs = [] ∧ (c.node i).isInput = false ∧ (c.node i).isOutput = false then
          removeF fuel c i
        else some c) c
    else none

/-- `Remove(node)`. Every call takes a node out of `all_nodes`, so the recursion is no deeper than
`all_nodes` is long: out of fuel, `all_nodes` is empty and its `find` fails. -/
def remove (c : Circuit) (n : NodeId) : Option Circuit := removeF c.allNodes.length c n

/-- One round of the loop of `Restore`. -/
def restoreTarget (c : Circuit) (t : NodeId) : Option Circuit := do
  let c ← (c.node t).inputs.foldlM (fun c i => c.eraseOutput i t) c
  let c := c.modNode t fun nd =>
    { nd with cube := nd.cubePre, cubePre := "", inputs := nd.inputsPre, inputsPre := [] }
  some ((c.node t).inputs.foldl (fun c i => c.pushOutput i t) c)

def restore (targets : List NodeId) (c : Circuit) : Option Circuit := do
  let c ← targets.foldlM restoreTarget c
  some { c with targets := [] }

/-! ## Clusters -/

/-- `k->append(node)`. -/
def append (c : Circuit) (k : ClusterId) (n : NodeId) : Circuit :=
  (c.modCluster k fun clst =>
    let nodesC := clst.nodesC ++ [n]
    { name := if clst.name = "" then (c.node n).name else clst.name
      nodesC
      inputNodes := nodesC.foldl OrdSet.erase (clst.inputNodes.insertAll (c.node n).inputs) }).modNode
    n fun nd => { nd with myCluster := k }

/-- `InitCluster`: a cluster for every node that is not a primary input. `new n` is the address of
the cluster made for `n`. -/
def initCluster (new : NodeId → ClusterId) (c : Circuit) : Circuit :=
  c.allNodes.foldl (fun c n =>
    if (c.node n).isInput then c
    else
      let c := (c.modCluster (new n) fun _ => {}).append (new n) n
      { c with allClusters := c.allClusters ++ [new n] }) c

/-- The element after `k`: what `erase` of `k` returns and what `++` of an iterator at `k` is. -/
def next (k : ClusterId) : List ClusterId → Option ClusterId
  | [] => none
  | j :: l => if j = k then l.head? else next k l

/-- `Merge(clu1, clu2)`: the nodes of `clu2` join `clu1`. The result is the circuit and the
iterator after `clu2`. The loop over `clu2->nodes_c` appends to the list it walks if the clusters
are the same. -/
def merge (c : Circuit) (clu1 clu2 : ClusterId) : Option (Circuit × Option ClusterId) :=
  if clu2 ∈ c.allClusters ∧ clu1 ≠ clu2 then
    let it := next clu2 c.allClusters
    let c := { c with allClusters := c.allClusters.erase clu2 }
    let c := (c.cluster clu2).nodesC.foldl (fun c n => c.append clu1 n) c
    let c := c.modCluster clu1 fun clst =>
      { clst with inputNodes := clst.nodesC.foldl OrdSet.erase clst.inputNodes }
    some (c, it)
  else none

end Circuit

end Msyn.Nodecircuit
