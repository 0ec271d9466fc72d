import Msyn.Merge.InputLimit

/-!
# The histogram of main

At the end `main` counts the clusters by their numbers of inputs and outputs in a table of 10 rows
and 100 columns (`ioCnt`). The passes limit the inputs of the clusters they make, not their outputs,
and a cluster that is never merged has the inputs of its gate.

* `countOut_le`: what is counted for some nodes bounds what is counted for fewer of them, or with
  fewer edges that leave them.
* `ioCnt_inside`: the table suffices if no gate has ten inputs and no step makes a cluster of nodes
  that count a hundred outputs.
* `tenInputs_outside`: a gate with ten inputs is counted outside of the table.
-/

namespace Msyn.NodeMerge

open Nodecircuit Circuit

/-! ## The table -/

/-- What `main` counts for the members of a cluster: the outputs, and the nodes with a fanout that
is no member. -/
def countOut (c : Circuit) (nodesC : List NodeId) : Nat :=
  nodesC.foldl (fun out nd =>
    let out := if (c.node nd).isOutput then out + 1 else out
    if (c.node nd).outputs.any (· ∉ nodesC) then out + 1 else out) 0

/-- The loop that fills `io_cnt`; `none` on an access outside of `int io_cnt[10][100]`. -/
def ioCnt (c : Circuit) : Option (Nat × Nat → Nat) :=
  c.allClusters.foldlM (fun cnt clst =>
    let i := (c.cluster clst).inputNodes.size
    let j := countOut c (c.cluster clst).nodesC
    if i < 10 ∧ j < 100 then
      some (Function.update cnt (i, j) (cnt (i, j) + 1))
    else none) fun _ => 0

theorem ioCnt_isSome (c : Circuit) : (ioCnt c).isSome ↔ ∀ k ∈ c.allClusters,
    (c.cluster k).inputNodes.size < 10 ∧ countOut c (c.cluster k).nodesC < 100 := by
  have key : ∀ (l : List ClusterId) (cnt : Nat × Nat → Nat),
      (l.foldlM (fun cnt clst =>
        let i := (c.cluster clst).inputNodes.size
        let j := countOut c (c.cluster clst).nodesC
        if i < 10 ∧ j < 100 then
          some (Function.update cnt (i, j) (cnt (i, j) + 1))
        else none) cnt).isSome ↔ ∀ k ∈ l, (c.cluster k).inputNodes.size < 10 ∧
          countOut c (c.cluster k).nodesC < 100 := by
    intro l
    induction l with
    | nil => simp
    | cons k l ih =>
      intro cnt
      rw [List.foldlM_cons, List.forall_mem_cons]
      by_cases hk : (c.cluster k).inputNodes.size < 10 ∧ countOut c (c.cluster k).nodesC < 100
      · simp only [if_pos hk, Option.bind_eq_bind, Option.bind_some]
        rw [ih]
        exact (and_iff_right hk).symm
      · simp only [if_neg hk, Option.bind_eq_bind, Option.bind_none]
        exact ⟨fun h => (by cases h), fun h => absurd h.1 hk⟩
  exact key _ _

/-! ## What is counted -/

/-- The node has a fanout that is none of `nodes`. -/
def leaves (c : Circuit) (nodes : List NodeId) (n : NodeId) : Bool :=
  (c.node n).outputs.any (· ∉ nodes)

theorem leaves_iff {c : Circuit} {nodes : List NodeId} {n : NodeId} :
    leaves c nodes n = true ↔ ∃ o ∈ (c.node n).outputs, o ∉ nodes := by
  simp [leaves]

theorem countOut_eq (c : Circuit) (nodes : List NodeId) : countOut c nodes =
    nodes.countP (fun n => (c.node n).isOutput) + nodes.countP (leaves c nodes) := by
  have key : ∀ (l : List NodeId) (out : Nat), l.foldl (fun out nd =>
      let out := if (c.node nd).isOutput then out + 1 else out
      if leaves c nodes nd then out + 1 else out) out =
        out + (l.countP (fun n => (c.node n).isOutput) + l.countP (leaves c nodes)) := by
    intro l
    induction l with
    | nil => exact fun _ => rfl
    | cons n l ih =>
      intro out
      rw [List.foldl_cons, ih, List.countP_cons, List.countP_cons]
      cases (c.node n).isOutput <;> cases leaves c nodes n <;> simp <;> omega
  exact (key nodes 0).trans (Nat.zero_add _)

theorem countOut_le {c c' : Circuit} {nodes nodes' : List NodeId} (hnd : nodes'.Nodup)
    (hsub : ∀ n ∈ nodes', n ∈ nodes)
    (hout : ∀ n, (c'.node n).isOutput = (c.node n).isOutput)
    (hleave : ∀ n ∈ nodes', leaves c' nodes' n = true → leaves c nodes n = true) :
    countOut c' nodes' ≤ countOut c nodes := by
  have hperm : nodes'.Subperm nodes := List.subperm_of_subset hnd hsub
  have h1 : nodes'.countP (fun n => (c'.node n).isOutput) ≤
      nodes.countP fun n => (c.node n).isOutput := by
    simp only [hout]
    exact hperm.countP_le _
  have h2 : nodes'.countP (leaves c' nodes') ≤ nodes.countP (leaves c nodes) :=
    (List.countP_mono_left hleave).trans (hperm.countP_le _)
  rw [countOut_eq, countOut_eq]
  exact Nat.add_le_add h1 h2

/-! ## One step -/

namespace PassStep

/-- The nodes of the clusters that a step makes one. -/
def joins (c : Circuit) : PassStep → List NodeId
  | commit sol _ seed _ => (sol ++ [seed]).flatMap fun k => (c.cluster k).nodesC
  | reject _ => []
  | fanin seed =>
    if FaninTakes c seed then
      c.allNodes.filter fun n => !(c.node n).isInput && FaninGroup c seed (c.node n).myCluster
    else []
  | quick seed =>
    match quickSelect c seed with
    | some k => (c.cluster seed).nodesC ++ (c.cluster k).nodesC
    | none => []

/-- Every input of the new cover is an input of a member of a selected cluster. -/
def Current (c : Circuit) : PassStep → Prop
  | commit sol onset _ _ => ∀ i ∈ newInputs onset,
      ∃ k ∈ sol, ∃ n ∈ (c.cluster k).nodesC, i ∈ (c.node n).inputs
  | _ => True

/-- What the step makes one cluster counts less than a hundred outputs. -/
def Narrow (c : Circuit) (s : PassStep) : Prop := countOut c (s.joins c) < 100

end PassStep

/-- Every cluster counts less than a hundred outputs. -/
def OutsFit (c : Circuit) : Prop := ∀ k ∈ c.allClusters, countOut c (c.cluster k).nodesC < 100

section
variable {c c' : Circuit}

theorem OutsFit.reject {t : NodeId} (h : OutsFit c) (hp : c.Part) (hr : Rejected c c' t) :
    OutsFit c' := by
  intro k hk
  rw [hr.allClusters] at hk
  rw [hr.cluster]
  refine (countOut_le (hp.nodesNodup k hk) (fun _ => id) hr.isOutput fun n _ hl => ?_).trans_lt
    (h k hk)
  obtain ⟨o, ho, hok⟩ := leaves_iff.1 hl
  exact leaves_iff.2 ⟨o, (hr.outputs n).mem_iff.1 ho, hok⟩

/-- The same members in the same net. -/
theorem countOut_same {nodes nodes' : List NodeId} (hs : SameNet c c') (hnd : nodes'.Nodup)
    (h : ∀ n, n ∈ nodes' ↔ n ∈ nodes) : countOut c' nodes' ≤ countOut c nodes := by
  refine countOut_le hnd (fun n => (h n).1) hs.isOutput fun n _ hl => ?_
  obtain ⟨o, ho, hok⟩ := leaves_iff.1 hl
  exact leaves_iff.2 ⟨o, hs.outputs n ▸ ho, fun hmem => hok ((h o).2 hmem)⟩

theorem OutsFit.quick {seed k : ClusterId} (h : OutsFit c) (hm : Merged c c' seed k)
    (hp' : c'.Part) (hsel : quickSelect c seed = some k) (hn : (PassStep.quick seed).Narrow c) :
    OutsFit c' := by
  intro j hj
  have hjn := hp'.nodesNodup j hj
  by_cases hjs : j = seed
  · subst hjs
    simp only [PassStep.Narrow, PassStep.joins, hsel] at hn
    exact (countOut_same hm.same hjn fun n => by rw [hm.nodesC]).trans_lt hn
  · have hjc : j ∈ c.allClusters := List.mem_of_mem_erase (hm.allClusters ▸ hj)
    exact (countOut_same hm.same hjn fun n => by rw [hm.other j hjs]).trans_lt (h j hjc)

theorem OutsFit.fanin {seed : ClusterId} (h : OutsFit c) (hp : c.Part)
    (he : faninIter c seed = some c') (hn : (PassStep.fanin seed).Narrow c) : OutsFit c' := by
  obtain ⟨hs, ⟨-, rfl⟩ | ⟨htakes, hg⟩⟩ := faninIter_cases hp he
  · exact h
  intro j hj
  have hjn := hg.part.nodesNodup j hj
  by_cases hjs : j = seed
  · subst hjs
    simp only [PassStep.Narrow, PassStep.joins, if_pos htakes] at hn
    refine (countOut_same hg.same hjn fun n => ?_).trans_lt hn
    rw [List.mem_filter, Bool.and_eq_true, decide_eq_true_eq, Bool.not_eq_true']
    constructor
    · intro hmem
      obtain ⟨h1, h2, -⟩ := hg.part.mem j hj n hmem
      rw [hg.same.allNodes] at h1
      rw [hg.same.isInput] at h2
      exact ⟨h1, h2, (hg.mem_group hp hs h1 h2).1 hmem⟩
    · exact fun ⟨h1, h2, h3⟩ => (hg.mem_group hp hs h1 h2).2 h3
  · exact (countOut_same hg.same hjn fun n => by rw [hg.other j hjs]).trans_lt
      (h j (hg.sub.mem hj))

section
variable {sol : List ClusterId} {onset : List (OrdMap NodeId Bool)} {seed : ClusterId} {t : NodeId}
  (hC : Committed c c' sol onset seed t) (hm : c.Mirror) (hp : c.Part)
  (hM : Mergeable c sol onset seed t)
include hC hm hp hM

/-- The cluster that the seed joins counts no more than the nodes that the step joins. -/
theorem Committed.countOut_target (ht : sol.headD seed ∈ c'.allClusters) :
    countOut c' (c'.cluster (sol.headD seed)).nodesC ≤
      countOut c ((PassStep.commit sol onset seed t).joins c) := by
  obtain ⟨-, hti, htk⟩ := hM.target_mem hp
  have hS : ∀ {k}, k ∈ sol ++ [seed] ↔ k ∈ seed :: sol := fun {k} => by
    rw [List.mem_append, List.mem_singleton, or_comm, ← List.mem_cons]
  have hclusters : ∀ k ∈ seed :: sol, k ∈ c.allClusters := fun k hk => by
    rcases List.mem_cons.1 hk with rfl | hk
    · exact hM.seedMem
    · exact (hM.solMem k hk).1
  refine countOut_le (hC.part.nodesNodup _ ht) (fun n hn => ?_) hC.isOutput fun n hn hl => ?_
  · obtain ⟨hnc, hi, hnS⟩ := (hC.mem_target ht).1 hn
    exact List.mem_flatMap.2 ⟨_, hS.2 hnS, (hp.covers n (hC.sub n hnc) hi).2⟩
  · obtain ⟨o, ho, hoj⟩ := leaves_iff.1 hl
    obtain ⟨hoc, ⟨-, hoo⟩ | ⟨rfl, -⟩⟩ := hC.edge hm ((hC.mem_target ht).1 hn).1 ho
    · refine leaves_iff.2 ⟨o, hoo, fun hou => hoj ?_⟩
      obtain ⟨k, hk, hok⟩ := List.mem_flatMap.1 hou
      obtain ⟨-, hoi, hok⟩ := hp.mem k (hclusters k (hS.1 hk)) o hok
      exact (hC.mem_target ht).2 ⟨hoc, hoi, hok ▸ hS.1 hk⟩
    · exact absurd ((hC.mem_target ht).2 ⟨hoc, hti, by rw [htk]; simp⟩) hoj

/-- Another cluster has its members, and what it gets as a fanout is not new to it: an input of the
cover is an input of a selected cluster already. -/
theorem Committed.countOut_other (hcur : (PassStep.commit sol onset seed t).Current c)
    {j : ClusterId} (hj : j ∈ c'.allClusters) (hjt : j ≠ sol.headD seed) :
    countOut c' (c'.cluster j).nodesC ≤ countOut c (c.cluster j).nodesC := by
  have hjc := hC.subClusters j hj
  refine countOut_le (hC.part.nodesNodup j hj) (fun n hn => ?_) hC.isOutput fun n hn hl => ?_
  · obtain ⟨hnc, hi, hnj, -⟩ := (hC.mem_other hj hjt).1 hn
    exact hnj ▸ (hp.covers n (hC.sub n hnc) hi).2
  · obtain ⟨hnc, -, -, hjS⟩ := (hC.mem_other hj hjt).1 hn
    obtain ⟨o, ho, hoj⟩ := leaves_iff.1 hl
    obtain ⟨hoc, ⟨-, hoo⟩ | ⟨rfl, hnS⟩⟩ := hC.edge hm hnc ho
    · refine leaves_iff.2 ⟨o, hoo, fun hou => hoj ?_⟩
      obtain ⟨-, hoi, hok⟩ := hp.mem j hjc o hou
      exact (hC.mem_other hj hjt).2 ⟨hoc, hoi, hok, hjS⟩
    · obtain ⟨k, hk, m, hmk, hnm⟩ := hcur n hnS
      obtain ⟨hmc, -, hmk'⟩ := hp.mem k (hM.solMem k hk).1 m hmk
      refine leaves_iff.2 ⟨m, (hm.mem_iff (hC.sub n hnc) hmc).1 hnm, fun hmj => hjS ?_⟩
      rw [← (hp.mem j hjc m hmj).2.2, hmk']
      exact List.mem_cons_of_mem _ hk

end

/-- **A committed merge**: only the seed gets new edges, from nodes that leave their clusters
anyway. -/
theorem OutsFit.commit {sol : List ClusterId} {onset : List (OrdMap NodeId Bool)}
    {seed : ClusterId} {t : NodeId} {it : Option ClusterId} (h : OutsFit c) (hm : c.Mirror)
    (hp : c.Part) (hM : Mergeable c sol onset seed t)
    (hcur : (PassStep.commit sol onset seed t).Current c)
    (hn : (PassStep.commit sol onset seed t).Narrow c)
    (he : mergeSeed sol onset seed t c = some (c', it)) : OutsFit c' := by
  have hC := mergeSeed_committed hm hp hM he
  intro j hj
  by_cases hjt : j = sol.headD seed
  · subst hjt
    exact (hC.countOut_target hm hp hM hj).trans_lt hn
  · exact (hC.countOut_other hm hp hM hcur hj hjt).trans_lt (h j (hC.subClusters j hj))

/-! ## Whole runs -/

theorem PassStep.Current.fresh {s : PassStep} (hm : c.Mirror) (hp : c.Part) (hv : s.Valid c)
    (h : s.Current c) : s.Fresh c := by
  cases s with
  | commit sol onset seed t =>
    intro i hi
    obtain ⟨k, hk, n, hn, hin⟩ := h i hi
    exact hm.closed n (hp.mem k (hv.2.2.2.2.1 k hk).mem n hn).1 i hin
  | reject | fanin | quick => trivial

theorem OutsFit.step {s : PassStep} (h : OutsFit c) (hm : c.Mirror) (hp : c.Part) (hp' : c'.Part)
    (hv : s.Valid c) (hcur : s.Current c) (hn : s.Narrow c) (he : s.apply c = some c') :
    OutsFit c' := by
  cases s with
  | commit sol onset seed t =>
    obtain ⟨⟨c1, it⟩, h1, rfl⟩ := Option.map_eq_some_iff.1 he
    exact h.commit hm hp (hv.mergeable (hcur.fresh hm hp hv)) hcur hn h1
  | reject t =>
    obtain ⟨c1, h1, h2⟩ := reject_spec hm hv.1 hv.2
    cases h1.symm.trans he
    exact h.reject hp h2
  | fanin seed => exact h.fanin hp he hn
  | quick seed =>
    simp only [PassStep.apply] at he
    split at he
    · rename_i k hq
      obtain ⟨c1, h1, h2, -⟩ := quick_spec hp hv hq
      rw [h1] at he
      cases he
      exact h.quick h2 hp' hq hn
    · cases he
      exact h

end

theorem Start.outsFit {new : NodeId → ClusterId} {c₀ : Circuit} (h : Start new c₀)
    {l : List ClusterId} (hl : l.Perm (c₀.initCluster new).allClusters) :
    OutsFit { c₀.initCluster new with allClusters := l } := by
  intro k hk
  obtain ⟨n, hn, hi, rfl⟩ := (mem_initClusters h.new h.noClusters).1 (hl.mem_iff.1 hk)
  have hone : ((c₀.initCluster new).cluster (new n)).nodesC = [n] :=
    ((initCluster_spec h.new).cluster n hn hi).1
  show countOut _ ((c₀.initCluster new).cluster (new n)).nodesC < 100
  rw [hone, countOut_eq]
  have h1 := List.countP_le_length (p := fun m => ({ c₀.initCluster new with
    allClusters := l }.node m).isOutput) (l := [n])
  have h2 := List.countP_le_length (p := leaves { c₀.initCluster new with allClusters := l } [n])
    (l := [n])
  rw [List.length_singleton] at h1 h2
  omega

/-- **The histogram stays inside its table** in runs from gates with less than ten inputs whose
steps read no stale cache entry and make no cluster with a hundred outputs. -/
theorem ioCnt_inside {new : NodeId → ClusterId} {c₀ c : Circuit} (h : Start new c₀)
    (hins : ∀ n ∈ c₀.allNodes, (distinctInputs c₀ n).size < 10)
    (hr : Run (fun c s => s.Accepted c ∧ s.Current c ∧ s.Narrow c) new c₀ c) :
    (ioCnt c).isSome = true := by
  have key : (LimitedTo 9 c ∧ c.Mirror ∧ c.Part) ∧ OutsFit c := by
    induction hr with
    | init hl =>
      obtain ⟨hw, -⟩ := h.wf hl
      exact ⟨⟨h.limitedTo (fun n hn => Nat.le_of_lt_succ (hins n hn)) hl, hw.mirror, hw.part⟩,
        h.outsFit hl⟩
    | step _ hv hc he ih =>
      obtain ⟨⟨hlim, hm, hp⟩, hout⟩ := ih
      have hnext := hlim.step (by decide) hm hp hv hc.1 (hc.2.1.fresh hm hp hv) he
      exact ⟨hnext, hout.step hm hp hnext.2.2 hv hc.2.1 hc.2.2 he⟩
  exact (ioCnt_isSome c).2 fun k hk => ⟨Nat.lt_succ_of_le (key.1.1.caches k hk), key.2 k hk⟩

theorem ioCnt_inside_reconvergent : ∃ c,
    (PassStep.commit [2] [OrdMap.tabulate [1] fun _ => true] 3 3).apply reconvergentCircuit =
      some c ∧ (ioCnt c).isSome = true := by
  have hrun : ((PassStep.commit [2] [OrdMap.tabulate [1] fun _ => true] 3 3).apply
      reconvergentCircuit).isSome = true := by
    decide +kernel
  obtain ⟨c, h1⟩ := Option.isSome_iff_exists.1 hrun
  have hstart : Run (fun c s => s.Accepted c ∧ s.Current c ∧ s.Narrow c) id (ofNodes reconvergent)
      reconvergentCircuit := .init (.refl _)
  have hcur : (PassStep.commit [2] [OrdMap.tabulate [1] fun _ => true] 3 3).Current
      reconvergentCircuit := by
    show ∀ i ∈ newInputs [OrdMap.tabulate [1] fun _ => true], ∃ k ∈ [2],
      ∃ n ∈ (reconvergentCircuit.cluster k).nodesC, i ∈ (reconvergentCircuit.node n).inputs
    decide
  have hnarrow : (PassStep.commit [2] [OrdMap.tabulate [1] fun _ => true] 3 3).Narrow
      reconvergentCircuit := by
    unfold PassStep.Narrow
    decide
  exact ⟨c, h1, ioCnt_inside (.ofNodes reconvergent_ordered) (by decide)
    (hstart.step (by decide) ⟨.single _ 2 _ 3 3, hcur, hnarrow⟩ h1)⟩

/-- One gate with ten inputs. -/
def tenInputs : List Node :=
  (List.range 10).map (fun i => { name := toString i, isInput := true, outputs := [10] }) ++
    [{ name := "f", cube := "1111111111 1\n", inputs := List.range 10, isOutput := true }]

/-- The passes: the only cluster finds no other one to be merged with, and it does not fit the limit
of `FaninMerge`. -/
def tenInputsSteps : List PassStep := [.reject 10, .fanin 10, .reject 10, .fanin 10, .quick 10]

/-- Its cluster keeps the ten inputs, and `main` writes to `io_cnt[10]`. -/
theorem tenInputs_outside : Start id (ofNodes tenInputs) ∧
    ∃ c, Run PassStep.Accepted id (ofNodes tenInputs) c ∧ ioCnt c = none := by
  have hrun : ((applyAll tenInputsSteps ((ofNodes tenInputs).initCluster id)).any fun c =>
      (ioCnt c).isNone) = true := by
    decide +kernel
  obtain ⟨c, h1, h2⟩ := (Option.any_eq_true _ _).1 hrun
  have hacc : ∀ s ∈ tenInputsSteps, ∀ c, s.Accepted c := by
    simp only [tenInputsSteps, List.forall_mem_cons, List.not_mem_nil, false_implies, implies_true,
      and_true]
    exact ⟨fun _ => trivial, fun _ => trivial, fun _ => trivial, fun _ => trivial, fun _ => trivial⟩
  exact ⟨.ofNodes (by decide), c, (Run.init (.refl _)).applyAll hacc h1,
    Option.isNone_iff_eq_none.1 h2⟩

end Msyn.NodeMerge
