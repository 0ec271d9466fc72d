import Msyn.Circuit.ClusterGraph
import Msyn.Circuit.Numbered
import Msyn.Merge.Cleanup

/-!
# A committed merge

`Mergeable` is what `SelectMerge` has at hand when it accepts a selection. From there
`SetTargets`, `Restruct` and the merges of the clusters always succeed (`prepare_spec`): the
circuit before the clean-up is the old one with the fanins of the seed replaced (`Rewired`), and
the clusters are merged (`Prepared`). The clean-up then removes what is lost
(`commit_spec`) unless it reaches a node twice.
-/

namespace Msyn.NodeMerge

open Nodecircuit Circuit Relation

/-- The inputs that `Restruct` gives the target. -/
def newInputs : List (OrdMap NodeId Bool) → List NodeId
  | [] => []
  | in2case :: _ => in2case.keys

/-- A seed cluster of one node, other clusters to merge it with, and an on-set over nodes of the
circuit. -/
structure Mergeable (c : Circuit) (sol : List ClusterId) (onset : List (OrdMap NodeId Bool))
    (seed : ClusterId) (t : NodeId) : Prop where
  seedMem : seed ∈ c.allClusters
  seedNodes : (c.cluster seed).nodesC = [t]
  solNe : sol ≠ []
  solNodup : sol.Nodup
  solMem : ∀ k ∈ sol, k ∈ c.allClusters ∧ k ≠ seed
  onsetNe : onset ≠ []
  keysMem : ∀ i ∈ newInputs onset, i ∈ c.allNodes

/-- The seed is set to target and the selection is committed. -/
def mergeSeed (sol : List ClusterId) (onset : List (OrdMap NodeId Bool)) (seed : ClusterId)
    (t : NodeId) (c : Circuit) : Option (Circuit × Option ClusterId) :=
  setTargets [t] c >>= commit sol onset seed t

/-! ## Merging the clusters -/

theorem mergeFold_spec : ∀ {ks : List ClusterId} {c : Circuit} {tar : ClusterId}, c.Part →
    tar ∈ c.allClusters → (∀ k ∈ ks, k ∈ c.allClusters) → (tar :: ks).Nodup →
    ∃ c', ks.foldlM (fun c k => (c.merge tar k).map Prod.fst) c = some c' ∧ MergedAll c c' tar ks
  | [], c, tar, hp, _, _, _ => ⟨c, rfl, .nil hp tar⟩
  | k :: ks, c, tar, hp, ht, hks, hnd => by
    obtain ⟨hnt, hnd'⟩ := List.nodup_cons.1 hnd
    obtain ⟨hnk, hnd''⟩ := List.nodup_cons.1 hnd'
    have hne : tar ≠ k := fun he => hnt (by simp [he])
    have hnks : tar ∉ ks := fun hm => hnt (List.mem_cons_of_mem _ hm)
    have hk := hks k (by simp)
    obtain ⟨c1, h1, h2⟩ := merge_spec hk hne
    have h2' := MergedAll.single h2 hp ht hk hne
    have hmem : ∀ {j}, j ∈ c.allClusters → j ≠ k → j ∈ c1.allClusters := fun {j} hj hjk => by
      rw [h2.allClusters]; exact (List.mem_erase_of_ne hjk).2 hj
    obtain ⟨c', h3, h4⟩ := mergeFold_spec h2'.part (hmem ht hne)
      (fun j hj => hmem (hks j (by simp [hj])) fun he => hnk (he ▸ hj))
      (List.nodup_cons.2 ⟨hnks, hnd''⟩)
    refine ⟨c', ?_, h2'.trans h4 hnks⟩
    rw [List.foldlM_cons, h1]
    exact h3

/-- The iterator after the merges: the successor of the seed among the clusters left. -/
def nextSeed (c : Circuit) (sol : List ClusterId) (seed : ClusterId) : Option ClusterId :=
  next seed (sol.tail.foldl List.erase c.allClusters)

theorem mergeSolution_spec {c : Circuit} {tar seed : ClusterId} {rest : List ClusterId}
    (hp : c.Part) (hsol : ∀ k ∈ tar :: rest, k ∈ c.allClusters ∧ k ≠ seed)
    (hnd : (tar :: rest).Nodup) (hseed : seed ∈ c.allClusters) :
    ∃ c', mergeSolution (tar :: rest) seed c = some (c', nextSeed c (tar :: rest) seed) ∧
      MergedAll c c' tar (rest ++ [seed]) := by
  obtain ⟨c1, h1, h2⟩ := mergeFold_spec hp (hsol tar (by simp)).1
    (fun k hk => (hsol k (by simp [hk])).1) hnd
  have hne : tar ≠ seed := (hsol tar (by simp)).2
  have htar : tar ∈ c1.allClusters := by
    rw [h2.allClusters, mem_foldl_listErase hp.nodup]
    exact ⟨(hsol tar (by simp)).1, (List.nodup_cons.1 hnd).1⟩
  have hs1 : seed ∈ c1.allClusters := by
    rw [h2.allClusters, mem_foldl_listErase hp.nodup]
    exact ⟨hseed, fun hm => (hsol seed (by simp [hm])).2 rfl⟩
  obtain ⟨c', h3, h4⟩ := merge_spec hs1 hne
  refine ⟨c', ?_, h2.trans (.single h4 h2.part htar hs1 hne) (by simpa using hne)⟩
  rw [mergeSolution, h1]
  simp only [Option.bind_eq_bind, Option.bind_some, h3, h2.allClusters]
  rfl

/-! ## Up to the clean-up -/

/-- The circuit before the clean-up. -/
structure Prepared (c c3 : Circuit) (sol : List ClusterId) (onset : List (OrdMap NodeId Bool))
    (seed : ClusterId) (t : NodeId) : Prop where
  rewired : Rewired c c3 t (newInputs onset)
  part : c3.Part
  allClusters : c3.allClusters = (sol.tail ++ [seed]).foldl List.erase c.allClusters
  inputsPre : (c3.node t).inputsPre = (c.node t).inputs
  cube : ∀ n, (c3.node n).cube = if n = t then writeCube onset else (c.node n).cube
  name : ∀ n, (c3.node n).name = (c.node n).name
  myCluster : ∀ n ∈ c.allNodes, (c.node n).isInput = false → (c3.node n).myCluster =
    if (c.node n).myCluster ∈ seed :: sol then sol.headD seed else (c.node n).myCluster
  targets : c3.targets = (c.targets ++ [t]).erase t
  outputs : c3.outputs = c.outputs
  inputs : c3.inputs = c.inputs
  allNodesMap : c3.allNodesMap = c.allNodesMap
  exact : c.Exact → c3.Exact

/-- `SetTargets` and `Restruct` together replace the fanins of `t`. -/
theorem rewired_spec {c c1 c2 : Circuit} {t : NodeId} {keys : List NodeId} {cube : String}
    (hm : c.Mirror) (ht : t ∈ c.allNodes) (h1 : TargetSet c c1 t)
    (h2 : Restructed c1 c2 t keys cube) (hk : ∀ i ∈ keys, i ∈ c.allNodes) :
    Rewired c c2 t keys where
  allNodes := h2.allNodes.trans h1.allNodes
  isInput n := (h2.isInput n).trans (h1.isInput n)
  isOutput n := (h2.isOutput n).trans (h1.isOutput n)
  inputs n hn := (h2.inputs hn).trans (h1.inputs hn)
  inputsSelf := by rw [h2.inputs_self, h1.inputs_self, List.nil_append]
  outputs n hn m := by
    have hcount := (h1.outputs n).2 m
    rw [h2.outputs, List.mem_append, List.mem_replicate, ← List.count_pos_iff, hcount,
      ← List.count_pos_iff (l := (c.node n).outputs), ← List.count_pos_iff (l := keys)]
    by_cases hmt : m = t
    · subst hmt
      have := hm.count n hn m ht
      simp only [if_true, ne_eq, not_true, false_and, false_or, true_and, and_true]
      omega
    · simp [hmt]
  count n hn m hmt := by
    rw [h2.outputs, List.count_append, (h1.outputs n).2 m, List.count_replicate]
    simp [hmt, Ne.symm hmt]
  away n hn ho := by
    have h3 := (h1.outputs n).1
    rw [ho, List.sublist_nil] at h3
    rw [h2.outputs, h3, List.count_eq_zero_of_not_mem fun hnk => hn (hk n hnk)]
    rfl
  mirror := h2.mirror (h1.mirror hm ht) (h1.allNodes ▸ ht) fun i hi => h1.allNodes ▸ hk i hi

/-- `SetTargets` and `Restruct` of one node. -/
theorem cover_spec {c : Circuit} {t : NodeId} {onset : List (OrdMap NodeId Bool)} (hm : c.Mirror)
    (ht : t ∈ c.allNodes) (hi : (c.node t).isInput = false) (hne : onset ≠ [])
    (hkeys : ∀ i ∈ newInputs onset, i ∈ c.allNodes) :
    ∃ c', (setTargets [t] c >>= fun c => c.restruct t onset) = some c' ∧
      Rewired c c' t (newInputs onset) := by
  obtain ⟨m, cases, rfl⟩ := List.exists_cons_of_ne_nil hne
  obtain ⟨c1, h1, h1s⟩ := setTarget_spec hm ht
  obtain ⟨c2, h2, h2s⟩ := restruct_spec (c := c1) (t := t) (m := m)
    (by rw [h1s.targets]; simp)
  have hset : setTargets [t] c = some c1 := by simp [setTargets, hi, h1]
  exact ⟨c2, by rw [hset]; exact h2, rewired_spec hm ht h1s h2s hkeys⟩

/-- What follows the cover in a step that is defined: the merges and the clean-up. -/
theorem mergeSeed_steps {c c2 c' : Circuit} {sol : List ClusterId}
    {onset : List (OrdMap NodeId Bool)} {seed : ClusterId} {t : NodeId} {it : Option ClusterId}
    (h2 : (setTargets [t] c >>= fun c => c.restruct t onset) = some c2)
    (h : mergeSeed sol onset seed t c = some (c', it)) :
    ∃ c3, mergeSolution sol seed c2 = some (c3, it) ∧
      removeUnused (c3.node t).inputsPre c3 = some c' := by
  rw [mergeSeed] at h
  obtain ⟨c1, h1, h3⟩ := Option.bind_eq_some_iff.1 h
  rw [h1, Option.bind_eq_bind, Option.bind_some] at h2
  rw [commit, h2, Option.bind_eq_bind, Option.bind_some] at h3
  obtain ⟨⟨c3, it'⟩, h4, h5⟩ := Option.bind_eq_some_iff.1 h3
  obtain ⟨c4, h6, h7⟩ := Option.bind_eq_some_iff.1 h5
  cases h7
  exact ⟨c3, h4, h6⟩

/-- They leave the clusters alone. -/
theorem cover_clusters {c c' : Circuit} {t : NodeId} {onset : List (OrdMap NodeId Bool)}
    (hm : c.Mirror) (ht : t ∈ c.allNodes) (hi : (c.node t).isInput = false)
    (h : (setTargets [t] c >>= fun c => c.restruct t onset) = some c') :
    c'.cluster = c.cluster ∧ c'.allClusters = c.allClusters ∧
      (c'.node t).inputsPre = (c.node t).inputs ∧
      ∀ n, (c'.node n).myCluster = (c.node n).myCluster := by
  obtain ⟨c1, h1, h1s⟩ := setTarget_spec hm ht
  have hset : setTargets [t] c = some c1 := by simp [setTargets, hi, h1]
  rw [hset] at h
  cases onset with
  | nil =>
    have : c1.restruct t [] = none := by
      rw [restruct]
      split <;> rfl
    rw [Option.bind_eq_bind, Option.bind_some, this] at h
    cases h
  | cons m cases =>
    have ht1 : t ∈ c1.targets := by rw [h1s.targets]; simp
    obtain ⟨c2, h2, h2s⟩ := restruct_spec (m := m) ht1
    cases h2.symm.trans h
    exact ⟨h2s.cluster.trans h1s.cluster, h2s.allClusters.trans h1s.allClusters,
      (h2s.inputsPre t).trans h1s.inputsPre_self, fun n => (h2s.myCluster n).trans (h1s.myCluster n)⟩

/-- Nor do they change the partition. -/
theorem Rewired.part {c c' : Circuit} {t : NodeId} {keys : List NodeId} (h : Rewired c c' t keys)
    (hp : c.Part) (hclu : c'.cluster = c.cluster) (hcls : c'.allClusters = c.allClusters)
    (hmy : ∀ n, (c'.node n).myCluster = (c.node n).myCluster) : c'.Part := by
  obtain ⟨q1, q2, q3, q4, q5⟩ := hp
  refine ⟨?_, ?_, ?_, ?_, ?_⟩ <;>
    simp only [hcls, hclu, h.allNodes, h.isInput, hmy] <;> assumption

theorem Rewired.same {c c2 c3 : Circuit} {t : NodeId} {keys : List NodeId}
    (h : Rewired c c2 t keys) (hs : SameNet c2 c3) : Rewired c c3 t keys where
  allNodes := hs.allNodes.trans h.allNodes
  isInput n := (hs.isInput n).trans (h.isInput n)
  isOutput n := (hs.isOutput n).trans (h.isOutput n)
  inputs n hn := (hs.inputs n).trans (h.inputs n hn)
  inputsSelf := (hs.inputs t).trans h.inputsSelf
  outputs n hn m := by rw [hs.outputs]; exact h.outputs n hn m
  count n hn m hmt := by rw [hs.outputs]; exact h.count n hn m hmt
  away n hn ho := by rw [hs.outputs]; exact h.away n hn ho
  mirror := hs.mirror h.mirror

/-- **Before the clean-up nothing can fail.** -/
theorem prepare_spec {c : Circuit} {sol : List ClusterId} {onset : List (OrdMap NodeId Bool)}
    {seed : ClusterId} {t : NodeId} (hm : c.Mirror) (hp : c.Part)
    (h : Mergeable c sol onset seed t) :
    ∃ c3, Prepared c c3 sol onset seed t ∧ mergeSeed sol onset seed t c =
      (removeUnused (c.node t).inputs c3).map fun c' => (c', nextSeed c sol seed) := by
  obtain ⟨hsm, hsn, hne, hnd, hsol, hone, hkeys⟩ := h
  obtain ⟨tar, rest, rfl⟩ := List.exists_cons_of_ne_nil hne
  obtain ⟨m, cases, rfl⟩ := List.exists_cons_of_ne_nil hone
  obtain ⟨ht, hti, htk⟩ := hp.mem seed hsm t (by rw [hsn]; simp)
  obtain ⟨c1, h1, h1s⟩ := setTarget_spec hm ht
  obtain ⟨c2, h2, h2s⟩ := restruct_spec (c := c1) (t := t) (m := m)
    (by rw [h1s.targets]; simp)
  have hclu : c2.cluster = c.cluster := h2s.cluster.trans h1s.cluster
  have hcls : c2.allClusters = c.allClusters := h2s.allClusters.trans h1s.allClusters
  have hmy : ∀ n, (c2.node n).myCluster = (c.node n).myCluster := fun n =>
    (h2s.myCluster n).trans (h1s.myCluster n)
  have hre := rewired_spec hm ht h1s h2s hkeys
  have hp2 : c2.Part := hre.part hp hclu hcls hmy
  obtain ⟨c3, h3, h3s⟩ := mergeSolution_spec hp2 (hcls ▸ hsol) hnd (hcls ▸ hsm)
  have htar := hsol tar (by simp)
  have htnot : tar ∉ rest ++ [seed] := by
    simp only [List.mem_append, List.mem_singleton, not_or]
    exact ⟨(List.nodup_cons.1 hnd).1, htar.2⟩
  have hpre : (c3.node t).inputsPre = (c.node t).inputs := by
    rw [h3s.same.inputsPre, h2s.inputsPre, h1s.inputsPre_self]
  refine ⟨c3, ?_, ?_⟩
  · refine ⟨hre.same h3s.same, h3s.part, ?_, hpre, fun n => ?_, fun n => ?_, fun n hn hi => ?_,
      ?_, ?_, ?_, ?_, fun hex => ?_⟩
    · rw [h3s.allClusters, hcls]; rfl
    · rw [h3s.same.cube]
      split
      · rename_i hn; rw [hn, h2s.cube_self]
      · rename_i hn; rw [h2s.cube_other hn, h1s.cube hn]
    · rw [h3s.same.name, h2s.name, h1s.name]
    · rw [h3s.myCluster hp2 (hcls ▸ htar.1) htnot (hre.allNodes ▸ hn)
        ((hre.isInput n).trans hi), hmy]
      simp only [List.mem_append, List.mem_cons, List.headD_cons, List.not_mem_nil, or_false]
      by_cases hk : (c.node n).myCluster = tar
      · rw [hk]; simp
      · simp only [hk, false_or, or_comm]
    · rw [h3s.same.targets, h2s.targets, h1s.targets]
    · rw [h3s.same.pos, h2s.pos, h1s.pos]
    · rw [h3s.same.pis, h2s.pis, h1s.pis]
    · rw [h3s.same.allNodesMap, h2s.allNodesMap, h1s.allNodesMap]
    · intro k hk
      rw [h3s.allClusters, mem_foldl_listErase hp2.nodup, hcls] at hk
      obtain ⟨hk, hk'⟩ := hk
      have hks : k ≠ seed := fun he => hk' (by simp [he])
      refine h3s.exactAt k fun i => ?_
      rw [hclu, hex k hk i]
      refine and_congr_right fun _ => exists_congr fun n => and_congr_right fun hn => ?_
      have hnt : n ≠ t := fun he => hks ((hp.mem k hk n hn).2.2.symm.trans (he ▸ htk))
      rw [hre.inputs n hnt]
  · have hset : setTargets [t] c = some c1 := by simp [setTargets, hti, h1]
    simp only [mergeSeed, hset, Option.bind_eq_bind, Option.bind_some, commit, h2, h3, hpre]
    have hns : nextSeed c2 (tar :: rest) seed = nextSeed c (tar :: rest) seed := by
      rw [nextSeed, nextSeed, hcls]
    rw [hns]
    cases removeUnused (c.node t).inputs c3 <;> rfl

/-! ## The whole step -/

section
variable {c : Circuit} {sol : List ClusterId} {onset : List (OrdMap NodeId Bool)}
  {seed : ClusterId} {t : NodeId} (hm : c.Mirror) (hp : c.Part)
  (h : Mergeable c sol onset seed t)
include hm hp h

omit hm in
theorem Mergeable.target_mem : t ∈ c.allNodes ∧ (c.node t).isInput = false ∧
    (c.node t).myCluster = seed := hp.mem seed h.seedMem t (by rw [h.seedNodes]; simp)

theorem Mergeable.not_lost (hac : c.IsAcyclic) :
    ¬Lost c t (newInputs onset) (c.node t).inputs t :=
  Lost.ne_target hac hm (h.target_mem hp).1 fun _ => id

variable (ht : ¬Lost c t (newInputs onset) (c.node t).inputs t)
include ht

/-- **A committed merge** with a safe clean-up. -/
theorem commit_spec (hsafe : CleanupSafe c t (newInputs onset) (c.node t).inputs) :
    ∃ c3 c', Prepared c c3 sol onset seed t ∧
      mergeSeed sol onset seed t c = some (c', nextSeed c sol seed) ∧
      Cleaned c c3 t (newInputs onset) (c.node t).inputs c' := by
  obtain ⟨c3, h3, he⟩ := prepare_spec hm hp h
  obtain ⟨c', h4, h5⟩ := removeUnused_spec h3.rewired hm (h.target_mem hp).1 h3.part
    (fun _ => id) ht hsafe
  exact ⟨c3, c', h3, by rw [he, h4]; rfl, h5⟩

theorem commit_undefined (hsafe : ¬CleanupSafe c t (newInputs onset) (c.node t).inputs) :
    mergeSeed sol onset seed t c = none := by
  obtain ⟨c3, h3, he⟩ := prepare_spec hm hp h
  rw [he, removeUnused_undefined h3.rewired hm (h.target_mem hp).1 h3.part (fun _ => id) ht hsafe]
  rfl

end

/-! ## The clean-up is exact -/

/-- The node is in the old fanin cone of `t`, neither an input nor an output, and each of its
fanouts, `t` with its new inputs included, is gone or is `t` rewired away from it. -/
def Unused (c c' : Circuit) (t : NodeId) (S : List NodeId) (n : NodeId) : Prop :=
  c.Internal n ∧ TransGen c.Fanin n t ∧ ∀ m, m ∈ (c.node n).outputs ∨ m = t ∧ n ∈ S →
    m ∉ c'.allNodes ∨ m = t ∧ n ∉ S

/-- What is lost is unused, and the other way round. -/
theorem unused_iff_lost {c c3 c' : Circuit} {t : NodeId} {S : List NodeId} (hm : c.Mirror)
    (htc : t ∈ c.allNodes) (hr : Rewired c c3 t S) (ht : ¬Lost c t S (c.node t).inputs t)
    (hc : Cleaned c c3 t S (c.node t).inputs c') {n : NodeId} :
    Unused c c' t S n ↔ Lost c t S (c.node t).inputs n := by
  have hgone : ∀ {m}, m ∈ c.allNodes → (m ∉ c'.allNodes ↔ Lost c t S (c.node t).inputs m) :=
    fun {m} hm => hc.gone m (hr.allNodes ▸ hm)
  constructor
  · rintro ⟨hi, hcone, hall⟩
    have hS : n ∉ S := fun hS => by
      rcases hall t (.inr ⟨rfl, hS⟩) with h1 | ⟨-, h1⟩
      · exact ht ((hgone htc).1 h1)
      · exact h1 hS
    have hout : ∀ m ∈ (c.node n).outputs, m ≠ t → Lost c t S (c.node t).inputs m := by
      intro m hmem hmt
      have hnc : n ∈ c.allNodes := by
        obtain ⟨b, hb, -⟩ := TransGen.head'_iff.1 hcone
        exact fanin_mem hm.closed hb
      exact (hgone (hm.outs n hnc m hmem)).1 ((hall m (.inl hmem)).resolve_right fun h => hmt h.1)
    obtain ⟨b, hnb, -⟩ := TransGen.head'_iff.1 hcone
    by_cases hbt : b = t
    · exact .root (hbt ▸ hnb.2) hi hS hout
    · exact .fanin (hout b (hm.fanout hnb).2 hbt) hnb.2 hi hS hout
  · intro hL
    obtain ⟨hnc, hcone⟩ := hL.cone hm htc fun _ => id
    refine ⟨hL.internal, hcone, ?_⟩
    rintro m (hmem | ⟨-, hS⟩)
    · by_cases hmt : m = t
      · exact .inr ⟨hmt, hL.not_mem_keys⟩
      · exact .inl ((hgone (hm.outs n hnc m hmem)).2 (hL.outputs m hmem hmt))
    · exact absurd hS hL.not_mem_keys

/-- **The clean-up is exact exactly if no entry is lost before its turn.** -/
theorem cleanup_exact_iff {c : Circuit} {sol : List ClusterId} {onset : List (OrdMap NodeId Bool)}
    {seed : ClusterId} {t : NodeId} (hm : c.Mirror) (hp : c.Part) (hac : c.IsAcyclic)
    (h : Mergeable c sol onset seed t) :
    (∃ c' it, mergeSeed sol onset seed t c = some (c', it) ∧
        c'.allNodes.Sublist c.allNodes ∧
        ∀ n ∈ c.allNodes, n ∉ c'.allNodes ↔ Unused c c' t (newInputs onset) n) ↔
      CleanupSafe c t (newInputs onset) (c.node t).inputs := by
  have ht := h.not_lost hm hp hac
  constructor
  · rintro ⟨c', it, h1, -⟩
    by_contra hsafe
    rw [commit_undefined hm hp h ht hsafe] at h1
    cases h1
  · intro hsafe
    obtain ⟨c3, c', h3, h1, hc⟩ := commit_spec hm hp h ht hsafe
    refine ⟨c', _, h1, h3.rewired.allNodes ▸ hc.stripped.sub, fun n hn => ?_⟩
    rw [unused_iff_lost hm (h.target_mem hp).1 h3.rewired ht hc]
    exact hc.gone n (h3.rewired.allNodes ▸ hn)

/-! ## A node that is removed twice -/

/-- `s` is the AND of `b` and of a buffer `a` of `b`. -/
def reconvergent : List Node := [
  { name := "p", isInput := true, outputs := [1] },
  { name := "b", cube := "1 1\n", inputs := [0], outputs := [2, 3] },
  { name := "a", cube := "1 1\n", inputs := [1], outputs := [3] },
  { name := "s", cube := "11 1\n", inputs := [2, 1], isOutput := true }]

/-- The circuit of `reconvergent` with a cluster for each node but `p`. -/
def reconvergentCircuit : Circuit := (ofNodes reconvergent).initCluster id

theorem reconvergent_ordered : Ordered reconvergent := by decide

theorem reconvergent_sameNet : SameNet (ofNodes reconvergent) reconvergentCircuit :=
  initCluster_sameNet fun _ _ _ _ => id

theorem reconvergent_mirror : reconvergentCircuit.Mirror :=
  reconvergent_sameNet.mirror reconvergent_ordered.mirror

theorem reconvergent_part : reconvergentCircuit.Part :=
  initCluster_part (fun _ _ _ _ => id) reconvergent_ordered.mirror.nodup rfl

theorem reconvergent_exact : reconvergentCircuit.Exact :=
  initCluster_exact (fun _ _ _ _ => id) rfl

theorem reconvergent_clustersAcyclic : reconvergentCircuit.ClustersAcyclic :=
  initCluster_acyclic (fun _ _ _ _ => id) rfl reconvergent_ordered.mirror.closed
    reconvergent_ordered.acyclic

theorem reconvergent_acyclic : reconvergentCircuit.IsAcyclic :=
  reconvergent_sameNet.isAcyclic reconvergent_ordered.acyclic

/-- The node `s` merged into the cluster of `b`, as a buffer of `p`. -/
theorem reconvergent_mergeable :
    Mergeable reconvergentCircuit [1] [OrdMap.tabulate [0] fun _ => true] 3 3 := by
  constructor <;> decide

/-- Removing `a` removes `b`, which is the next entry. -/
theorem cleanup_reconvergent : reconvergentCircuit.Mirror ∧ reconvergentCircuit.Part ∧
    reconvergentCircuit.IsAcyclic ∧
    Mergeable reconvergentCircuit [1] [OrdMap.tabulate [0] fun _ => true] 3 3 ∧
    ¬∃ c' it, mergeSeed [1] [OrdMap.tabulate [0] fun _ => true] 3 3 reconvergentCircuit =
        some (c', it) ∧ c'.allNodes.Sublist reconvergentCircuit.allNodes ∧
        ∀ n ∈ reconvergentCircuit.allNodes, n ∉ c'.allNodes ↔
          Unused reconvergentCircuit c' 3 (newInputs [OrdMap.tabulate [0] fun _ => true]) n := by
  refine ⟨reconvergent_mirror, reconvergent_part, reconvergent_acyclic, reconvergent_mergeable, ?_⟩
  rintro ⟨c', it, h, -⟩
  have hnone : (mergeSeed [1] [OrdMap.tabulate [0] fun _ => true] 3 3
      reconvergentCircuit).isNone = true := by decide +kernel
  rw [h] at hnone
  cases hnone

/-- Merged into the cluster of `a`, `s` is a buffer of `b`, which stays. -/
theorem cleanup_exact_iff_reconvergent :
    (∃ c' it, mergeSeed [2] [OrdMap.tabulate [1] fun _ => true] 3 3 reconvergentCircuit =
        some (c', it) ∧ c'.allNodes.Sublist reconvergentCircuit.allNodes ∧
        ∀ n ∈ reconvergentCircuit.allNodes, n ∉ c'.allNodes ↔
          Unused reconvergentCircuit c' 3 (newInputs [OrdMap.tabulate [1] fun _ => true]) n) ↔
      CleanupSafe reconvergentCircuit 3 (newInputs [OrdMap.tabulate [1] fun _ => true])
        (reconvergentCircuit.node 3).inputs :=
  cleanup_exact_iff reconvergent_mirror reconvergent_part reconvergent_acyclic
    (by constructor <;> decide)

end Msyn.NodeMerge
