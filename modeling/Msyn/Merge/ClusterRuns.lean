import Msyn.Merge.Runs

/-!
# The cluster graph in runs of the passes

`Run P new c₀`: the circuits that steps of the passes lead to from `InitCluster` if every step
meets the condition `P`. The cluster graph stays acyclic as long as no path leaves the clusters
that a step merges and returns to them (`clusters_acyclic`); `FaninMerge` does not look for such
paths (`between_cyclic`).
-/

namespace Msyn.NodeMerge

open Nodecircuit Circuit Relation

/-- The circuits after any steps that meet `P` and are defined. -/
inductive Run (P : Circuit → PassStep → Prop) (new : NodeId → ClusterId) (c₀ : Circuit) :
    Circuit → Prop
  | init {l : List ClusterId} : l.Perm (c₀.initCluster new).allClusters →
      Run P new c₀ { c₀.initCluster new with allClusters := l }
  | step {c c' : Circuit} {s : PassStep} : Run P new c₀ c → s.Valid c → P c s →
      s.apply c = some c' → Run P new c₀ c'

instance (c : Circuit) (seed k : ClusterId) : Decidable (Outside c seed k) :=
  decidable_of_iff (k ∈ c.allClusters ∧ k ≠ seed ∧ k ∉ c.getClusterFanoutCone seed)
    ⟨fun h => ⟨h.1, h.2.1, h.2.2⟩, fun h => ⟨h.mem, h.ne, h.cone⟩⟩

instance (c : Circuit) : DecidablePred fun s : PassStep => s.Valid c
  | .commit _ _ _ _ => inferInstanceAs (Decidable (_ ∧ _))
  | .reject _ => inferInstanceAs (Decidable (_ ∧ _))
  | .fanin _ => inferInstanceAs (Decidable (_ ∈ _))
  | .quick _ => inferInstanceAs (Decidable (_ ∈ _))

/-- Valid steps one after the other. -/
def applyAll : List PassStep → Circuit → Option Circuit
  | [], c => some c
  | s :: l, c => if s.Valid c then s.apply c >>= applyAll l else none

theorem Run.applyAll {P : Circuit → PassStep → Prop} {new : NodeId → ClusterId} {c₀ : Circuit} :
    ∀ {l : List PassStep} {c c' : Circuit}, (∀ s ∈ l, ∀ c, P c s) → Run P new c₀ c →
      applyAll l c = some c' → Run P new c₀ c'
  | [], c, c', _, h, he => by
    cases he
    exact h
  | s :: l, c, c', hP, h, he => by
    rw [NodeMerge.applyAll] at he
    split at he
    · rename_i hv
      obtain ⟨c1, h1, h2⟩ := Option.bind_eq_some_iff.1 he
      exact Run.applyAll (fun s hs => hP s (List.mem_cons_of_mem _ hs))
        (h.step hv (hP s (by simp) c) h1) h2
    · cases he

/-- The clusters that `FaninMerge` makes one at `seed`. -/
def FaninGroup (c : Circuit) (seed k : ClusterId) : Prop :=
  k = seed ∨ ∃ i ∈ (c.cluster seed).inputNodes.elems,
    (c.node i).isInput = false ∧ (c.node i).myCluster = k

instance (c : Circuit) (seed : ClusterId) : DecidablePred (FaninGroup c seed) := fun _ =>
  inferInstanceAs (Decidable (_ ∨ _))

/-- No path leaves the clusters that the step merges and returns to them, and every input of the
new cover is an input of a member of a selected cluster. -/
def PassStep.Convex (c : Circuit) : PassStep → Prop
  | commit sol onset _ _ => Msyn.Convex c.Precedes (· ∈ sol) ∧
      ∀ i ∈ newInputs onset, ∃ k ∈ sol, ∃ n ∈ (c.cluster k).nodesC, i ∈ (c.node n).inputs
  | reject _ => True
  | fanin seed => FaninTakes c seed → Msyn.Convex c.Precedes (FaninGroup c seed)
  | quick _ => True

/-! ## What a step does to the graph -/

/-- The circuits on which the steps contract the cluster graph. -/
structure Dag (c : Circuit) : Prop where
  mirror : c.Mirror
  pisClean : c.PisClean
  part : c.Part
  acyclic : c.ClustersAcyclic

section
variable {c c' : Circuit}

/-- What a committed merge leaves: the target has the new fanins, the other nodes keep theirs, and
the members of the seed and of the solution are in one cluster. -/
structure Committed (c c' : Circuit) (sol : List ClusterId) (onset : List (OrdMap NodeId Bool))
    (seed : ClusterId) (t : NodeId) : Prop where
  mirror : c'.Mirror
  part : c'.Part
  sub : ∀ n ∈ c'.allNodes, n ∈ c.allNodes
  subClusters : ∀ k ∈ c'.allClusters, k ∈ c.allClusters
  isInput : ∀ n, (c'.node n).isInput = (c.node n).isInput
  isOutput : ∀ n, (c'.node n).isOutput = (c.node n).isOutput
  inputs : ∀ n, n ≠ t → (c'.node n).inputs = (c.node n).inputs
  inputsSelf : (c'.node t).inputs = newInputs onset
  myCluster : ∀ n ∈ c.allNodes, (c.node n).isInput = false → (c'.node n).myCluster =
    joined (· ∈ seed :: sol) (sol.headD seed) (c.node n).myCluster

/-- The steps up to the clean-up do this, and the clean-up only takes nodes away. -/
theorem mergeSeed_committed {sol : List ClusterId} {onset : List (OrdMap NodeId Bool)}
    {seed : ClusterId} {t : NodeId} {it : Option ClusterId} (hm : c.Mirror) (hp : c.Part)
    (h : Mergeable c sol onset seed t) (he : mergeSeed sol onset seed t c = some (c', it)) :
    Committed c c' sol onset seed t := by
  obtain ⟨c3, h1, h2⟩ := prepare_spec hm hp h
  rw [he] at h2
  obtain ⟨c4, h3, h4⟩ := Option.map_eq_some_iff.1 h2.symm
  cases h4
  have htr := removeUnused_trimmed h1.rewired.mirror h1.part h3
  exact {
    mirror := htr.mirror
    part := htr.part
    sub := fun n hn => h1.rewired.allNodes ▸ htr.sub.mem hn
    subClusters := fun k hk => by
      have hk3 := htr.subClusters.mem hk
      rw [h1.allClusters, mem_foldl_listErase hp.nodup] at hk3
      exact hk3.1
    isInput := fun n => (htr.isInput n).trans (h1.rewired.isInput n)
    isOutput := fun n => by rw [htr.node, h1.rewired.isOutput]
    inputs := fun n hn => (htr.inputs n).trans (h1.rewired.inputs n hn)
    inputsSelf := (htr.inputs t).trans h1.rewired.inputsSelf
    myCluster := fun n hn hi => (htr.myCluster n).trans (h1.myCluster n hn hi) }

namespace Committed

variable {sol : List ClusterId} {onset : List (OrdMap NodeId Bool)} {seed : ClusterId} {t : NodeId}
  (h : Committed c c' sol onset seed t)
include h

/-- The members of the cluster that the seed joins. -/
theorem mem_target (ht : sol.headD seed ∈ c'.allClusters) {n : NodeId} :
    n ∈ (c'.cluster (sol.headD seed)).nodesC ↔
      n ∈ c'.allNodes ∧ (c.node n).isInput = false ∧ (c.node n).myCluster ∈ seed :: sol := by
  have htar : sol.headD seed ∈ seed :: sol := by cases sol <;> simp
  rw [h.part.mem_iff ht, h.isInput]
  refine and_congr_right fun hn => and_congr_right fun hi => ?_
  rw [h.myCluster n (h.sub n hn) hi]
  exact joined_eq_tar htar

/-- The members of another cluster. -/
theorem mem_other {j : ClusterId} (hj : j ∈ c'.allClusters) (hjt : j ≠ sol.headD seed)
    {n : NodeId} : n ∈ (c'.cluster j).nodesC ↔
      n ∈ c'.allNodes ∧ (c.node n).isInput = false ∧
        (c.node n).myCluster = j ∧ j ∉ seed :: sol := by
  rw [h.part.mem_iff hj, h.isInput]
  refine and_congr_right fun hn => and_congr_right fun hi => ?_
  rw [h.myCluster n (h.sub n hn) hi]
  unfold joined
  split
  · rename_i hS
    exact ⟨fun he => absurd he.symm hjt, fun ⟨he, hjS⟩ => absurd (he ▸ hS) hjS⟩
  · rename_i hS
    exact ⟨fun he => ⟨he, he ▸ hS⟩, And.left⟩

/-- An edge that is left is one of before or leads into the target. -/
theorem edge (hm : c.Mirror) {n o : NodeId} (hn : n ∈ c'.allNodes) (ho : o ∈ (c'.node n).outputs) :
    o ∈ c'.allNodes ∧ (o ≠ t ∧ o ∈ (c.node n).outputs ∨ o = t ∧ n ∈ newInputs onset) := by
  have hoc := h.mirror.outs n hn o ho
  have hno := (h.mirror.mem_iff hn hoc).2 ho
  refine ⟨hoc, ?_⟩
  by_cases hot : o = t
  · refine .inr ⟨hot, ?_⟩
    rwa [hot, h.inputsSelf] at hno
  · refine .inl ⟨hot, (hm.mem_iff (h.sub n hn) (h.sub o hoc)).1 ?_⟩
    rwa [h.inputs o hot] at hno

end Committed

theorem PassStep.Valid.mergeable {sol : List ClusterId} {onset : List (OrdMap NodeId Bool)}
    {seed : ClusterId} {t : NodeId} (hv : (PassStep.commit sol onset seed t).Valid c)
    (hkeys : ∀ i ∈ newInputs onset, i ∈ c.allNodes) : Mergeable c sol onset seed t := by
  obtain ⟨h1, h2, h3, h4, h5, h6, -⟩ := hv
  exact ⟨h1, h2, h3, h4, fun k hk => ⟨(h5 k hk).mem, (h5 k hk).ne⟩, h6, hkeys⟩

/-- The edges into the seed go, those into the solution stay, and the seed joins the solution. -/
theorem Dag.commit {sol : List ClusterId} {onset : List (OrdMap NodeId Bool)} {seed : ClusterId}
    {t : NodeId} (h : Dag c) (hv : (PassStep.commit sol onset seed t).Valid c)
    (hc : (PassStep.commit sol onset seed t).Convex c)
    (he : (PassStep.commit sol onset seed t).apply c = some c') : Dag c' := by
  obtain ⟨hconv, hfresh⟩ := hc
  have hkeys : ∀ i ∈ newInputs onset, i ∈ c.allNodes := fun i hi => by
    obtain ⟨k, hk, n, hn, hin⟩ := hfresh i hi
    exact h.mirror.closed n (h.part.mem k (hv.2.2.2.2.1 k hk).mem n hn).1 i hin
  have hM := hv.mergeable hkeys
  obtain ⟨⟨c4, it⟩, he', rfl⟩ := Option.map_eq_some_iff.1 he
  have hC := mergeSeed_committed h.mirror h.part hM he'
  obtain ⟨-, hti, htk⟩ := hM.target_mem h.part
  refine ⟨hC.mirror, fun i hi hii => ?_, hC.part, ?_⟩
  · have hit : i ≠ t := by
      rintro rfl
      rw [hC.isInput, hti] at hii
      cases hii
    rw [hC.inputs i hit]
    exact h.pisClean i (hC.sub i hi) (hC.isInput i ▸ hii)
  have htar : sol.headD seed ∈ seed :: sol := by cases sol <;> simp
  -- no path of the edges that stay leads into the seed, and none from the seed into the solution
  have hseed : ∀ k ∈ sol, ¬TransGen c.Precedes seed k := fun k hk hr =>
    (hv.2.2.2.2.1 k hk).cone ((mem_fanoutCone_iff h.mirror h.part h.pisClean hM.seedMem).2
      ⟨(hM.solMem k hk).2, hr.to_reflTransGen⟩)
  have hac : Acyclic fun a b => c.Precedes a b ∧ b ≠ seed := h.acyclic.mono fun _ _ => And.left
  have hmono : ∀ {a b}, TransGen (fun a b => c.Precedes a b ∧ b ≠ seed) a b →
      TransGen c.Precedes a b := fun {a b} => TransGen.mono (fun _ _ => And.left) a b
  refine acyclic_joined (S := (· ∈ seed :: sol)) hac htar
    (fun x y z hx hy hz hxy hyz => ?_) fun a b hab => ?_
  · obtain ⟨w, -, hwz⟩ := TransGen.tail'_iff.1 hyz
    have hz' : z ∈ sol := (List.mem_cons.1 hz).resolve_left hwz.2
    rcases List.mem_cons.1 hx with rfl | hx
    · exact hseed z hz' (hmono (hxy.trans hyz))
    · exact hconv x y z hx (fun hy' => hy (List.mem_cons_of_mem _ hy')) hz' (hmono hxy) (hmono hyz)
  · obtain ⟨hne, m, n, ⟨hn, hmn⟩, hmi, hni, rfl, rfl⟩ :=
      (precedes_iff hC.part hC.mirror.closed).1 hab
    have hmc := hC.sub m (hC.mirror.closed n hn m hmn)
    have hnc := hC.sub n hn
    rw [hC.isInput] at hmi hni
    rw [hC.myCluster m hmc hmi, hC.myCluster n hnc hni] at hne ⊢
    by_cases hnt : n = t
    · subst hnt
      rw [hC.inputsSelf] at hmn
      obtain ⟨k, hk, n', hn', hin'⟩ := hfresh m hmn
      obtain ⟨h5, h6, h7⟩ := h.part.mem k (hM.solMem k hk).1 n' hn'
      have hkS : joined (· ∈ seed :: sol) (sol.headD seed) k =
          joined (· ∈ seed :: sol) (sol.headD seed) (c.node n).myCluster := by
        rw [(joined_eq_tar htar).2 (List.mem_cons_of_mem _ hk), (joined_eq_tar htar).2 (by simp [htk])]
      refine ⟨hne, _, k, rfl, hkS, (precedes_iff h.part h.mirror.closed).2 ⟨fun hmk => hne ?_, m, n',
        ⟨h5, hin'⟩, hmi, h6, rfl, h7⟩, (hM.solMem k hk).2⟩
      rw [hmk, hkS]
    · rw [hC.inputs n hnt] at hmn
      refine ⟨hne, _, _, rfl, rfl, (precedes_iff h.part h.mirror.closed).2 ⟨fun hmn' => hne ?_, m, n,
        ⟨hnc, hmn⟩, hmi, hni, rfl, rfl⟩, fun hns => hnt ?_⟩
      · rw [hmn']
      · have := (h.part.covers n hnc hni).2
        rw [hns, hM.seedNodes] at this
        exact List.mem_singleton.1 this

/-- The nodes of the clusters that `FaninMerge` makes one are the members of the seed. -/
theorem Gathered.mem_group {seed : ClusterId} (hp : c.Part) (hs : seed ∈ c.allClusters)
    (hg : Gathered c c' seed (c.cluster seed).inputNodes.elems) {n : NodeId} (hn : n ∈ c.allNodes)
    (hi : (c.node n).isInput = false) :
    n ∈ (c'.cluster seed).nodesC ↔ FaninGroup c seed (c.node n).myCluster := by
  rw [hg.members, hp.mem_iff hs]
  constructor
  · rintro (⟨-, -, h1⟩ | ⟨i, h1, h2, h3⟩)
    · exact .inl h1
    · exact .inr ⟨i, h1, h2, (hp.mem _ (hg.joins i h1 h2) n h3).2.2.symm⟩
  · rintro (h1 | ⟨i, h1, h2, h3⟩)
    · exact .inl ⟨hn, hi, h1⟩
    · exact .inr ⟨i, h1, h2, h3 ▸ (hp.covers n hn hi).2⟩

theorem Dag.fanin {seed : ClusterId} (h : Dag c) (hc : (PassStep.fanin seed).Convex c)
    (he : faninIter c seed = some c') : Dag c' := by
  obtain ⟨hs, ⟨-, rfl⟩ | ⟨htakes, hg⟩⟩ := faninIter_cases h.part he
  · exact h
  refine ⟨hg.same.mirror h.mirror, hg.same.pisClean h.pisClean, hg.part,
    h.acyclic.merge h.part h.mirror.closed hg.same hg.part (.inl rfl) (hc htakes) fun n hn hi => ?_⟩
  have hmem := hg.mem_group h.part hs hn hi
  unfold joined
  split
  · rename_i hS
    exact (hg.part.mem seed hg.seedMem n (hmem.2 hS)).2.2
  · rename_i hS
    exact (hg.myCluster n).resolve_right fun h1 => hS (hmem.1 h1.2)

/-- One step. -/
theorem Dag.step {s : PassStep} (h : Dag c) (hv : s.Valid c) (hc : s.Convex c)
    (he : s.apply c = some c') : Dag c' := by
  cases s with
  | commit sol onset seed t => exact h.commit hv hc he
  | reject t =>
    obtain ⟨c1, h1, h2⟩ := reject_spec h.mirror hv.1 hv.2
    cases h1.symm.trans he
    have hm := h2.mirror h.mirror
    refine ⟨hm, fun i hi hii => ?_, h2.part h.part, h.acyclic.mono fun a b hab => ?_⟩
    · rw [h2.inputs]
      exact h.pisClean i (h2.allNodes ▸ hi) (h2.isInput i ▸ hii)
    · obtain ⟨h3, h4, h5, m, h6, n, h7, h8⟩ := hab
      rw [h2.cluster] at h6 h7
      exact ⟨h2.allClusters ▸ h3, h2.allClusters ▸ h4, h5, m, h6, n, h7, h2.inputs n ▸ h8⟩
  | fanin seed => exact h.fanin hc he
  | quick seed =>
    simp only [PassStep.apply] at he
    split at he
    · rename_i k hq
      obtain ⟨c1, h1, h2, h3⟩ := quick_spec h.part hv hq
      rw [h1] at he
      cases he
      exact ⟨h2.same.mirror h.mirror, h2.same.pisClean h.pisClean, h3,
        quick_acyclic h.mirror h.part h.pisClean h.acyclic hv hq h2 h3⟩
    · cases he
      exact h

end

/-! ## Whole runs -/

section
variable {new : NodeId → ClusterId} {c₀ : Circuit} (h : Start new c₀)
include h

theorem Start.dag {l : List ClusterId} (hl : l.Perm (c₀.initCluster new).allClusters) :
    Dag { c₀.initCluster new with allClusters := l } := by
  obtain ⟨hw, -⟩ := h.wf hl
  refine ⟨hw.mirror, hw.pisClean, hw.part,
    (initCluster_acyclic h.new h.noClusters h.mirror.closed h.acyclic).mono fun a b hab => ?_⟩
  obtain ⟨h1, h2, h3, h4⟩ := hab
  exact ⟨hl.mem_iff.1 h1, hl.mem_iff.1 h2, h3, h4⟩

/-- **In runs of convex steps** the clusters form a DAG. -/
theorem clusters_acyclic {c : Circuit} (hr : Run PassStep.Convex new c₀ c) :
    c.ClustersAcyclic := by
  have key : Dag c := by
    induction hr with
    | init hl => exact h.dag hl
    | step _ hv hc he ih => exact ih.step hv hc he
  exact key.acyclic

end

/-- `s` reads `a` and `b`, and `b` reads `x`, a buffer of `a`. -/
def between : List Node := [
  { name := "p", isInput := true, outputs := [2] },
  { name := "q", isInput := true, outputs := [4] },
  { name := "a", cube := "1 1\n", inputs := [0], outputs := [3, 5] },
  { name := "x", cube := "1 1\n", inputs := [2], outputs := [4] },
  { name := "b", cube := "11 1\n", inputs := [3, 1], outputs := [5] },
  { name := "s", cube := "11 1\n", inputs := [2, 4], isOutput := true }]

/-- `FaninMerge` at `s` makes one cluster of `s`, `a` and `b`, and `x` is between them. -/
theorem between_cyclic : Start id (ofNodes between) ∧
    ∃ c, Run (fun _ _ => True) id (ofNodes between) c ∧ ¬c.ClustersAcyclic := by
  have hrun : ((faninIter ((ofNodes between).initCluster id) 5).any fun c => decide
      (3 ∈ c.allClusters ∧ 5 ∈ c.allClusters ∧
        (∃ m ∈ (c.cluster 5).nodesC, ∃ n ∈ (c.cluster 3).nodesC, m ∈ (c.node n).inputs) ∧
        ∃ m ∈ (c.cluster 3).nodesC, ∃ n ∈ (c.cluster 5).nodesC, m ∈ (c.node n).inputs)) = true := by
    decide +kernel
  obtain ⟨c, h1, h2⟩ := (Option.any_eq_true _ _).1 hrun
  obtain ⟨h3, h4, h5, h6⟩ := of_decide_eq_true h2
  have hseed : (PassStep.fanin 5).Valid ((ofNodes between).initCluster id) := by
    show 5 ∈ ((ofNodes between).initCluster id).allClusters
    decide
  refine ⟨.ofNodes (by decide), c, (Run.init (.refl _)).step hseed trivial h1, fun hac => ?_⟩
  exact hac 5 (.tail (.single ⟨h4, h3, by decide, h5⟩) ⟨h3, h4, by decide, h6⟩)

theorem clusters_acyclic_reconvergent : ∃ c,
    (PassStep.commit [2] [OrdMap.tabulate [1] fun _ => true] 3 3).apply reconvergentCircuit =
      some c ∧ c.ClustersAcyclic := by
  have hrun : ((PassStep.commit [2] [OrdMap.tabulate [1] fun _ => true] 3 3).apply
      reconvergentCircuit).isSome = true := by
    decide +kernel
  obtain ⟨c, h1⟩ := Option.isSome_iff_exists.1 hrun
  have hstart : Run PassStep.Convex id (ofNodes reconvergent) reconvergentCircuit :=
    .init (.refl _)
  have hv : (PassStep.commit [2] [OrdMap.tabulate [1] fun _ => true] 3 3).Valid
      reconvergentCircuit := by
    refine ⟨by decide, by decide, by decide, by decide, fun k hk => ?_, by decide, by decide⟩
    rw [List.mem_singleton.1 hk]
    exact ⟨by decide, by decide, by decide⟩
  have hc : (PassStep.commit [2] [OrdMap.tabulate [1] fun _ => true] 3 3).Convex
      reconvergentCircuit := by
    refine ⟨reconvergent_clustersAcyclic.convex fun x y hx hy hne => ?_, by decide⟩
    exact absurd ((List.mem_singleton.1 hx).trans (List.mem_singleton.1 hy).symm) hne
  exact ⟨c, h1, clusters_acyclic (.ofNodes reconvergent_ordered) (hstart.step hv hc h1)⟩

end Msyn.NodeMerge
