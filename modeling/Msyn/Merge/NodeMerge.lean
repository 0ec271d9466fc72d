import Msyn.Circuit.Cone
import Msyn.Lib.Sweep

/-!
# The merging passes

The class of `nodemerge.cpp`: `SelectMerge`, `FaninMerge` and `QuickMerge` over the clusters of
the implementation. An iterator of `all_clusters` is the cluster it points at, or `none` at the
end; reading through an iterator whose element was erased is undefined (`none`).

`SelectMerge` asks a `Selector` for the clusters that can take the place of the seed's fanins;
the one the program uses is in `Select/MergeSelection.lean`.
-/

namespace Msyn.NodeMerge

open Nodecircuit Circuit

/-- What `SelectMerge` reads of a `MergeSelection`: `onset` is the result of `GetOnSet`, `none` if
it does not return. -/
structure Selection where
  solutionC : List ClusterId
  solutionInputs : NodeSet
  onset : Option (List (OrdMap NodeId Bool))

/-- The constructor of `MergeSelection` on the circuit with the seed as target, the seed, the
candidates, their inputs and the limit. -/
abbrev Selector := Circuit → ClusterId → List ClusterId → List NodeId → Int → Option Selection

def limitIn : Nat := 6

/-- `InitCand`, cluster version: the candidate clusters and their inputs. -/
def initCand (spec c : Circuit) (seed : ClusterId) : Option (List ClusterId × List NodeId) := do
  let cones := (c.cluster seed).nodesC.map c.getFanoutCone
  let tfoOfSeed := cones.foldl (fun s cone => s.insertAll cone.1.elems) (∅ : NodeSet)
  let poOfSeed := cones.foldl (fun s cone => s.insertAll cone.2.elems) (∅ : NodeSet)
  let clustersTfo := c.getClusterFanoutCone seed
  let cands ← poOfSeed.elems.foldlM (fun cands nOut => do
    let nOutS ← spec.getNode (c.node nOut).name
    (spec.getFaninCone nOutS).2.elems.foldlM (fun cands nPiS => do
      let nPi ← c.getNode (spec.node nPiS).name
      some ((c.getFanoutCone nPi).1.elems.foldl (fun cands nT =>
        if nT ∈ tfoOfSeed then cands else cands.insert nT) cands)) cands) (∅ : NodeSet)
  let found := cands.elems.foldl (fun (s : ClusterSet × NodeSet) candNode =>
    let k := (c.node candNode).myCluster
    if k ∉ clustersTfo ∧ k ≠ seed then
      (s.1.insert k, s.2.insertAll (c.cluster k).inputNodes.elems)
    else s) (∅, ∅)
  some (found.1.elems, found.2.elems)

/-! ## SelectMerge -/

/-- `SelectMerge` commits the selection. -/
def accepts (lmt : Int) (s : Selection) : Bool :=
  s.solutionC.length = 1 ||
  (2 ≤ lmt && s.solutionC.length = 2 && s.solutionInputs.size ≤ limitIn) ||
  (3 ≤ lmt && s.solutionC.length = 3 && s.solutionInputs.size ≤ limitIn)

/-- The clusters of the solution, then the seed, are merged into the first one. -/
def mergeSolution (sol : List ClusterId) (seed : ClusterId) (c : Circuit) :
    Option (Circuit × Option ClusterId) :=
  match sol with
  | [] => none -- `*solution_c.begin()` of an empty vector
  | tar :: rest => do
    let c ← rest.foldlM (fun c k => (c.merge tar k).map Prod.fst) c
    c.merge tar seed

/-- The loop over the old inputs of the seed: those that are not used any more are removed. -/
def removeUnused (inputsPre : List NodeId) (c : Circuit) : Option Circuit :=
  inputsPre.foldlM (fun c nd =>
    if (c.node nd).outputs = [] ∧ (c.node nd).isInput = false ∧ (c.node nd).isOutput = false then
      c.remove nd
    else some c) c

/-- What `SelectMerge` does with an accepted selection for the node `n` of the cluster `seed`. -/
def commit (sol : List ClusterId) (onset : List (OrdMap NodeId Bool)) (seed : ClusterId)
    (n : NodeId) (c : Circuit) : Option (Circuit × Option ClusterId) := do
  let c ← c.restruct n onset
  let (c, it) ← mergeSolution sol seed c
  let c ← removeUnused (c.node n).inputsPre c
  some (c, it)

/-- One iteration of the loop of `SelectMerge` at the cluster `seed`. -/
def selectIter (select : Selector) (spec : Circuit) (lmt : Int) (c : Circuit) (seed : ClusterId) :
    Option (Circuit × Option ClusterId) :=
  if seed ∈ c.allClusters then
    match (c.cluster seed).nodesC with
    | [n] =>
      if (c.node n).hasOutput || (c.node n).isOutput then do
        let (candidates, candidateInputs) ← initCand spec c seed
        let c ← setTargets [n] c
        let sel ← select c seed candidates candidateInputs lmt
        if accepts lmt sel then commit sel.solutionC (← sel.onset) seed n c
        else do
          let c ← restore [n] c
          some (c, next seed c.allClusters)
      else some (c, next seed c.allClusters)
    | _ => some (c, next seed c.allClusters)
  else none

/-- `SelectMerge` from the iterator `it`; `select seed` makes the selection for the cluster `seed`. -/
def selectMergeF (select : ClusterId → Selector) (spec : Circuit) (lmt : Int) :
    Nat → Circuit → Option ClusterId → Option Circuit
  | _, c, none => some c
  | 0, _, some _ => none
  | fuel + 1, c, some seed => do
    let (c, it) ← selectIter (select seed) spec lmt c seed
    selectMergeF select spec lmt fuel c it

/-- `SelectMerge`: the iterator only moves on, so there is an iteration for each cluster at most. -/
def selectMerge (select : ClusterId → Selector) (spec : Circuit) (lmt : Int) (c : Circuit) :
    Option Circuit :=
  selectMergeF select spec lmt c.allClusters.length c c.allClusters.head?

/-! ## FaninMerge -/

/-- The loop that collects `fanin_all` and `fanin_new`. -/
def faninScan (c : Circuit) : List NodeId → NodeSet → NodeSet → NodeSet × NodeSet
  | [], faninAll, faninNew => (faninAll, faninNew)
  | nd :: l, faninAll, faninNew =>
    if (c.node nd).isInput then faninScan c l (faninAll.insert nd) faninNew
    else
      let ins := (c.cluster (c.node nd).myCluster).inputNodes.elems
      if (faninAll.insertAll ins).size > limitIn then
        (faninAll.insertAll ins, faninNew.insertAll ins)
      else faninScan c l (faninAll.insertAll ins) (faninNew.insertAll ins)

/-- One round of the loop that merges the clusters of the inputs into `seed`. -/
def faninAbsorb (seed : ClusterId) (c : Circuit) (nd : NodeId) : Option Circuit :=
  if (c.node nd).isInput then
    some (c.modCluster seed fun clst => { clst with inputNodes := clst.inputNodes.insert nd })
  else if seed = (c.node nd).myCluster then some c
  else (c.merge seed (c.node nd).myCluster).map Prod.fst

/-- One iteration of `FaninMerge` at the cluster `seed`. -/
def faninIter (c : Circuit) (seed : ClusterId) : Option Circuit :=
  if seed ∈ c.allClusters then
    let (faninAll, faninNew) := faninScan c (c.cluster seed).inputNodes.elems ∅ ∅
    if faninAll.size ≤ limitIn ∧ faninNew.size ≠ 0 then
      let inputs := (c.cluster seed).inputNodes.elems
      inputs.foldlM (faninAbsorb seed)
        (c.modCluster seed fun clst => { clst with inputNodes := ∅ })
    else some c
  else none

/-- `FaninMerge` from the iterator `it`. -/
def faninMergeF : Nat → Circuit → Option ClusterId → Option Circuit
  | _, c, none => some c
  | 0, _, some _ => none
  | fuel + 1, c, some seed => do
    let c ← faninIter c seed
    faninMergeF fuel c (next seed c.allClusters)

/-- `FaninMerge`: the iterator only moves on, so there is an iteration for each cluster at most. -/
def faninMerge (c : Circuit) : Option Circuit :=
  faninMergeF c.allClusters.length c c.allClusters.head?

/-! ## QuickMerge -/

/-- The cluster outside both cones that has the fewest inputs jointly with `seed`. -/
def quickSelect (c : Circuit) (seed : ClusterId) : Option ClusterId :=
  let cTfo := c.getClusterFanoutCone seed
  let cTfi := c.getClusterFaninCone seed
  let candC := c.allClusters.filter fun clst => clst ∉ cTfo ∧ clst ∉ cTfi ∧ clst ≠ seed
  (candC.foldl (fun (s : Option ClusterId × Nat) clst =>
    let inputs := ((∅ : NodeSet).insertAll (c.cluster seed).inputNodes.elems).insertAll
      (c.cluster clst).inputNodes.elems
    if inputs.size < s.2 then (some clst, inputs.size) else s) (none, limitIn + 1)).1

/-- The `while` loop of `QuickMerge` for one seed. -/
def quickLoop : Nat → Circuit → ClusterId → Option Circuit
  | 0, _, _ => none
  | fuel + 1, c, seed =>
    if (c.cluster seed).inputNodes.size < limitIn then
      match quickSelect c seed with
      | some selected => do
        let (c, _) ← c.merge seed selected
        quickLoop fuel c seed
      | none => some c
    else some c

def quickMergeF : Nat → Circuit → Option ClusterId → Option Circuit
  | _, c, none => some c
  | 0, _, some _ => none
  | fuel + 1, c, some seed => do
    let c ← quickLoop c.allClusters.length c seed
    quickMergeF fuel c (next seed c.allClusters)

/-- `QuickMerge`: every merge takes a cluster out of `all_clusters`. -/
def quickMerge (c : Circuit) : Option Circuit :=
  quickMergeF c.allClusters.length c c.allClusters.head?

/-! ## Iterators -/

theorem next_mem {k j : ClusterId} : ∀ {l : List ClusterId}, next k l = some j → j ∈ l
  | [], h => by cases h
  | i :: l, h => by
    rw [next] at h
    split at h
    · exact List.mem_cons_of_mem _ (List.mem_of_mem_head? h)
    · exact List.mem_cons_of_mem _ (next_mem h)

theorem next_split {k : ClusterId} {a b : List ClusterId} (h : k ∉ a) :
    next k (a ++ k :: b) = b.head? := by
  induction a with
  | nil => simp [next]
  | cons x a ih =>
    obtain ⟨h1, h2⟩ := not_or.1 (mt List.mem_cons.2 h)
    rw [List.cons_append, next, if_neg (Ne.symm h1), ih h2]

/-- The iterator moves on while clusters other than the one it points at leave. -/
theorem remaining_next {k : ClusterId} {l l' : List ClusterId} (hnd : l.Nodup)
    (hsub : l'.Sublist l) (hk : k ∈ l') : remaining (next k l') l' < remaining (some k) l := by
  obtain ⟨a, b, rfl, hka⟩ := List.eq_append_cons_of_mem (hsub.mem hk)
  obtain ⟨a', b', rfl, hka', hb⟩ := split_sublist hka hsub hnd hk
  rw [next_split hka', remaining_head (hsub.nodup hnd), remaining, dropWhile_split hka,
    List.length_cons]
  exact Nat.lt_succ_of_le hb.length_le

end Msyn.NodeMerge
