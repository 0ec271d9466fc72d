import Msyn.Circuit.Rollback
import Msyn.Merge.QuickMerge

/-!
# What the steps of the passes keep

`Wf c`: mirrored edges, no cycle, primary inputs without fanins, clusters that partition the other
nodes. A committed merge with a safe clean-up (`Wf.commit`), a rejected seed (`Wf.reject`), a
step of `FaninMerge` (`Wf.fanin`) and a merge of `QuickMerge` (`Wf.quick`) keep it. All but the
committed merge keep the cached inputs exact; that one does if what the clean-up removes leaves
no stale entry behind (`CachesSafe`, `exact_commit`).
-/

namespace Msyn.NodeMerge

open Nodecircuit Circuit Relation

structure Wf (c : Circuit) : Prop where
  mirror : c.Mirror
  acyclic : c.IsAcyclic
  pisClean : c.PisClean
  part : c.Part
  /-- A name leads to a node of the circuit or to one that was removed. -/
  names : ∀ s n, c.getNode s = some n → n ∈ c.allNodes ∨ (c.node n).outputs = []

/-- A cluster that the seed can be merged with. -/
structure Outside (c : Circuit) (seed k : ClusterId) : Prop where
  mem : k ∈ c.allClusters
  ne : k ≠ seed
  cone : k ∉ c.getClusterFanoutCone seed

/-- The seed reaches no cached input of a cluster outside its cone. -/
theorem Outside.not_reach {c : Circuit} (hw : Wf c) (hex : c.Exact) {seed k : ClusterId}
    (hseed : seed ∈ c.allClusters) (h : Outside c seed k) {t i : NodeId}
    (ht : t ∈ (c.cluster seed).nodesC) (hi : i ∈ (c.cluster k).inputNodes) :
    ¬ReflTransGen c.Fanin t i := by
  intro hr
  obtain ⟨-, m, hm, him⟩ := (hex k h.mem i).1 hi
  obtain ⟨hmc, -, hmk⟩ := hw.part.mem k h.mem m hm
  obtain ⟨-, -, hreach⟩ := reach_cluster hw.mirror hw.part hw.pisClean hseed ht
    (hr.tail ⟨hmc, him⟩)
  rw [hmk] at hreach
  exact h.cone ((mem_clusterFanoutCone hw.mirror hw.part hw.pisClean hseed).2 ⟨h.ne, hreach⟩)

/-! ## Committed merges -/

section
variable {c c3 c' : Circuit} {sol : List ClusterId} {onset : List (OrdMap NodeId Bool)}
  {seed : ClusterId} {t : NodeId}

theorem Rewired.acyclic {S : List NodeId} (h : Rewired c c3 t S) (hac : c.IsAcyclic)
    (hS : ∀ i ∈ S, ¬ReflTransGen c.Fanin t i) : c3.IsAcyclic := by
  refine Acyclic.rewire (t := t) hac (fun a b hab hb => ?_) fun a ha => hS a ?_
  · exact ⟨h.allNodes ▸ hab.1, h.inputs b hb ▸ hab.2⟩
  · rw [← h.inputsSelf]; exact ha.2

theorem Wf.commit (hw : Wf c) (h : Mergeable c sol onset seed t)
    (hS : ∀ i ∈ newInputs onset, ¬ReflTransGen c.Fanin t i) (h3 : Prepared c c3 sol onset seed t)
    {l : List NodeId} (hc : Cleaned c c3 t (newInputs onset) l c') : Wf c' where
  mirror := hc.stripped.mirror
  acyclic := by
    refine (h3.rewired.acyclic hw.acyclic hS).mono fun a b hab => ?_
    exact ⟨hc.stripped.sub.mem hab.1, hc.stripped.inputs b ▸ hab.2⟩
  pisClean i hi hii := by
    have hi' : i ∈ c.allNodes := h3.rewired.allNodes ▸ hc.stripped.sub.mem hi
    rw [hc.stripped.isInput, h3.rewired.isInput] at hii
    have hit : i ≠ t := by
      rintro rfl
      rw [(h.target_mem hw.part).2.1] at hii
      cases hii
    rw [hc.stripped.inputs, h3.rewired.inputs i hit]
    exact hw.pisClean i hi' hii
  part := hc.stripped.part
  names s n hn := by
    have hmap : c'.getNode s = c.getNode s := by
      rw [getNode, getNode, hc.stripped.allNodesMap, h3.allNodesMap]
    rw [hmap] at hn
    by_cases hnc : n ∈ c'.allNodes
    · exact .inl hnc
    · refine .inr ?_
      by_cases hn₀ : n ∈ c.allNodes
      · exact (hc.stripped.dead n (h3.rewired.allNodes ▸ hn₀) hnc).2
      · rw [hc.stripped.away n (h3.rewired.allNodes ▸ hn₀)]
        exact h3.rewired.away n hn₀ ((hw.names s n hn).resolve_left hn₀)

/-- The cluster of a node once the solution and the seed are merged. -/
def clusterAfter (c : Circuit) (sol : List ClusterId) (seed : ClusterId) (n : NodeId) : ClusterId :=
  if (c.node n).myCluster ∈ seed :: sol then sol.headD seed else (c.node n).myCluster

/-- The inputs of a node once the seed `t` has the new inputs `S`. -/
def inputsAfter (c : Circuit) (t : NodeId) (S : List NodeId) (n : NodeId) : List NodeId :=
  if n = t then S else (c.node n).inputs

/-- Of a cluster that loses a node but not all, every outside input of the lost node is also an
input of a node that stays. -/
def CachesSafe (c : Circuit) (sol : List ClusterId) (onset : List (OrdMap NodeId Bool))
    (seed : ClusterId) (t : NodeId) : Prop :=
  let lost := Lost c t (newInputs onset) (c.node t).inputs
  let stays := fun m k => m ∈ c.allNodes ∧ (c.node m).isInput = false ∧ ¬lost m ∧
    clusterAfter c sol seed m = k
  ∀ n, lost n → (∃ m, stays m (clusterAfter c sol seed n)) → ∀ i ∈ (c.node n).inputs,
    (c.node i).isInput = false ∧ clusterAfter c sol seed i = clusterAfter c sol seed n ∨
      ∃ m, stays m (clusterAfter c sol seed n) ∧ i ∈ inputsAfter c t (newInputs onset) m

/-- The members of a cluster before the clean-up. -/
theorem Prepared.mem_cluster (h3 : Prepared c c3 sol onset seed t) {k : ClusterId} {n : NodeId}
    (hk : k ∈ c3.allClusters) : n ∈ (c3.cluster k).nodesC ↔
      n ∈ c.allNodes ∧ (c.node n).isInput = false ∧ clusterAfter c sol seed n = k := by
  rw [h3.part.mem_iff hk, h3.rewired.allNodes, h3.rewired.isInput]
  refine and_congr_right fun hn => and_congr_right fun hi => ?_
  rw [h3.myCluster n hn hi]
  rfl

section
variable {l : List NodeId} (h3 : Prepared c c3 sol onset seed t)
  (hc : Cleaned c c3 t (newInputs onset) l c')
include h3 hc

/-- A cluster keeps the members that are not lost. -/
theorem Cleaned.mem_cluster {k : ClusterId} {n : NodeId} (hk : k ∈ c'.allClusters) :
    n ∈ (c'.cluster k).nodesC ↔
      n ∈ (c3.cluster k).nodesC ∧ ¬Lost c t (newInputs onset) l n := by
  have hall := h3.rewired.allNodes
  rw [hc.stripped.part.mem_iff hk, h3.mem_cluster (hc.stripped.subClusters.mem hk),
    hc.stripped.isInput, h3.rewired.isInput, hc.stripped.myCluster]
  constructor
  · rintro ⟨hn, hi, hnk⟩
    have hn₀ := hc.stripped.sub.mem hn
    have hn1 : n ∈ c.allNodes := hall ▸ hn₀
    exact ⟨⟨hn1, hi, (h3.myCluster n hn1 hi).symm.trans hnk⟩, fun hL => (hc.gone n hn₀).2 hL hn⟩
  · rintro ⟨⟨hn, hi, hnk⟩, hL⟩
    refine ⟨?_, hi, (h3.myCluster n hn hi).trans hnk⟩
    by_contra hn'
    exact hL ((hc.gone n (hall ▸ hn)).1 hn')

theorem Cleaned.inputs (n : NodeId) : (c'.node n).inputs = inputsAfter c t (newInputs onset) n := by
  rw [hc.stripped.inputs, inputsAfter]
  split
  · rename_i hn
    rw [hn, h3.rewired.inputsSelf]
  · rename_i hn
    exact h3.rewired.inputs n hn

end

/-- An input of a node that is not lost is not lost. -/
theorem not_lost_input {l : List NodeId} (hm : c.Mirror) (h3 : Prepared c c3 sol onset seed t)
    {i m : NodeId} (hmc : m ∈ c.allNodes) (him : i ∈ (c3.node m).inputs)
    (hL : ¬Lost c t (newInputs onset) l m) : ¬Lost c t (newInputs onset) l i := by
  intro hLi
  by_cases hmt : m = t
  · subst hmt
    rw [h3.rewired.inputsSelf] at him
    exact hLi.not_mem_keys him
  · rw [h3.rewired.inputs m hmt] at him
    exact hL (hLi.outputs m (hm.fanout ⟨hmc, him⟩).2 hmt)

/-- **The caches after a committed merge.** -/
theorem exact_commit (hw : Wf c) (hex : c.Exact) (h : Mergeable c sol onset seed t)
    (h3 : Prepared c c3 sol onset seed t)
    (hc : Cleaned c c3 t (newInputs onset) (c.node t).inputs c')
    (hsafe : CachesSafe c sol onset seed t) : c'.Exact := by
  intro k hk i
  have hk3 := hc.stripped.subClusters.mem hk
  rw [(hc.stripped.clusters k).1, h3.exact hex k hk3 i]
  constructor
  · rintro ⟨hi, m, hm, him⟩
    have hi' : i ∉ (c'.cluster k).nodesC := fun h => hi ((hc.mem_cluster h3 hk).1 h).1
    refine ⟨hi', ?_⟩
    by_cases hL : Lost c t (newInputs onset) (c.node t).inputs m
    · -- another member has the input of a lost one
      obtain ⟨hmc, hmi, hmk⟩ := (h3.mem_cluster hk3).1 hm
      have hmt : m ≠ t := fun he => h.not_lost hw.mirror hw.part hw.acyclic (he ▸ hL)
      rw [h3.rewired.inputs m hmt] at him
      obtain ⟨s, hs⟩ := List.exists_mem_of_ne_nil _ (hc.stripped.part.nonempty k hk)
      obtain ⟨hs3, hsL⟩ := (hc.mem_cluster h3 hk).1 hs
      obtain ⟨hsc, hsi, hsk⟩ := (h3.mem_cluster hk3).1 hs3
      rcases hsafe m hL ⟨s, hsc, hsi, hsL, by rw [hmk, hsk]⟩ i him with ⟨h1, h2⟩ | ⟨m', h1, h2⟩
      · refine absurd ((h3.mem_cluster hk3).2 ⟨hw.mirror.closed m hmc i him, h1, h2.trans hmk⟩) hi
      · obtain ⟨h4, h5, h6, h7⟩ := h1
        exact ⟨m', (hc.mem_cluster h3 hk).2 ⟨(h3.mem_cluster hk3).2 ⟨h4, h5, h7.trans hmk⟩, h6⟩,
          by rw [hc.inputs h3]; exact h2⟩
    · exact ⟨m, (hc.mem_cluster h3 hk).2 ⟨hm, hL⟩, by rw [hc.stripped.inputs]; exact him⟩
  · rintro ⟨hi, m, hm, him⟩
    obtain ⟨hm3, hmL⟩ := (hc.mem_cluster h3 hk).1 hm
    rw [hc.stripped.inputs] at him
    have hmc := ((h3.mem_cluster hk3).1 hm3).1
    exact ⟨fun hi3 => hi ((hc.mem_cluster h3 hk).2 ⟨hi3, not_lost_input hw.mirror h3 hmc him hmL⟩),
      m, hm3, him⟩

end

/-! ## Rejected seeds -/

/-- What `SetTargets` and `Restore` of one node leave behind. -/
structure Rejected (c c' : Circuit) (t : NodeId) : Prop where
  node : ∀ i, c'.node i = { c.node i with
    outputs := (c'.node i).outputs
    inputsPre := if i = t then [] else (c.node i).inputsPre
    cubePre := if i = t then "" else (c.node i).cubePre }
  outputs : ∀ i, (c'.node i).outputs.Perm (c.node i).outputs
  rest : c' = { c with node := c'.node, targets := [] }

theorem reject_spec {c : Circuit} {t : NodeId} (hm : c.Mirror) (ht : t ∈ c.allNodes)
    (hi : (c.node t).isInput = false) :
    ∃ c', (setTargets [t] c >>= restore [t]) = some c' ∧ Rejected c c' t := by
  obtain ⟨c', h, hr⟩ := rollback_spec hm (List.nodup_singleton t) fun u hu => by
    rw [List.mem_singleton.1 hu]
    exact ⟨ht, hi⟩
  refine ⟨c', h, fun i => ?_, hr.outputs, hr.rest⟩
  have hnode := hr.node i
  simp only [List.mem_singleton] at hnode
  exact hnode

namespace Rejected

variable {c c' : Circuit} {t : NodeId} (h : Rejected c c' t)
include h

theorem allNodes : c'.allNodes = c.allNodes := by rw [h.rest]
theorem allClusters : c'.allClusters = c.allClusters := by rw [h.rest]
theorem cluster : c'.cluster = c.cluster := by rw [h.rest]
theorem inputs (i : NodeId) : (c'.node i).inputs = (c.node i).inputs := by rw [h.node]
theorem isInput (i : NodeId) : (c'.node i).isInput = (c.node i).isInput := by rw [h.node]
theorem isOutput (i : NodeId) : (c'.node i).isOutput = (c.node i).isOutput := by rw [h.node]
theorem cube (i : NodeId) : (c'.node i).cube = (c.node i).cube := by rw [h.node]
theorem name (i : NodeId) : (c'.node i).name = (c.node i).name := by rw [h.node]
theorem myCluster (i : NodeId) : (c'.node i).myCluster = (c.node i).myCluster := by rw [h.node]

theorem mirror (hm : c.Mirror) : c'.Mirror where
  nodup := h.allNodes ▸ hm.nodup
  closed n hn i hi := by
    rw [h.allNodes] at hn ⊢
    exact hm.closed n hn i (h.inputs n ▸ hi)
  outs n hn m hmem := by
    rw [h.allNodes] at hn ⊢
    exact hm.outs n hn m ((h.outputs n).mem_iff.1 hmem)
  count a ha b hb := by
    rw [h.allNodes] at ha hb
    rw [h.inputs, (h.outputs a).count_eq, hm.count a ha b hb]

theorem part (hp : c.Part) : c'.Part := by
  obtain ⟨q1, q2, q3, q4, q5⟩ := hp
  refine ⟨?_, ?_, ?_, ?_, ?_⟩ <;>
    simp only [h.allClusters, h.cluster, h.allNodes, h.isInput, h.myCluster] <;> assumption

end Rejected

/-- **A rejected seed** changes nothing that matters. -/
theorem Wf.reject {c c' : Circuit} {t : NodeId} (hw : Wf c) (h : Rejected c c' t) :
    Wf c' ∧ (c.Exact → c'.Exact) := by
  refine ⟨⟨h.mirror hw.mirror, hw.acyclic.mono fun a b hab => ?_, fun i hi hii => ?_,
    h.part hw.part, fun s n hn => ?_⟩, fun hex k hk i => ?_⟩
  · exact ⟨h.allNodes ▸ hab.1, h.inputs b ▸ hab.2⟩
  · rw [h.inputs]
    exact hw.pisClean i (h.allNodes ▸ hi) (h.isInput i ▸ hii)
  · have hn' : c.getNode s = some n := by rw [← hn, getNode, getNode, h.rest]
    rw [h.allNodes]
    refine (hw.names s n hn').imp_right fun ho => ?_
    have := h.outputs n
    rw [ho] at this
    exact this.eq_nil
  · rw [h.cluster, hex k (h.allClusters ▸ hk)]
    simp only [h.inputs]

/-! ## FaninMerge and QuickMerge -/

theorem SameNet.wf {c c' : Circuit} (hw : Wf c) (h : SameNet c c') (hp : c'.Part) : Wf c' where
  mirror := h.mirror hw.mirror
  acyclic := h.isAcyclic hw.acyclic
  pisClean := h.pisClean hw.pisClean
  part := hp
  names s n hn := by
    rw [h.allNodes, h.outputs]
    refine hw.names s n ?_
    rw [← hn, getNode, getNode, h.allNodesMap]

/-- **A step of `FaninMerge`** keeps the clusters a partition and their caches exact. -/
theorem Wf.fanin {c : Circuit} {seed : ClusterId} (hw : Wf c) (hex : c.Exact)
    (hs : seed ∈ c.allClusters) : ∃ c', faninIter c seed = some c' ∧ Wf c' ∧ c'.Exact := by
  obtain ⟨c', h1, h2, h3, h4, -, -⟩ := faninIter_spec hw.part hw.mirror.closed hex hs
  exact ⟨c', h1, SameNet.wf hw h2 h3, h4⟩

/-- **A merge of `QuickMerge`** keeps the clusters a partition and their caches exact. -/
theorem Wf.quick {c : Circuit} {seed k : ClusterId} (hw : Wf c) (hex : c.Exact)
    (hs : seed ∈ c.allClusters) (hk : quickSelect c seed = some k) :
    ∃ c', c.merge seed k = some (c', next k c.allClusters) ∧ Wf c' ∧ c'.Exact := by
  obtain ⟨c', h1, h2, h3⟩ := quick_spec hw.part hs hk
  exact ⟨c', h1, SameNet.wf hw h2.same h3, h2.exact hex hs⟩

/-! ## The circuit of InitCluster -/

/-- The circuit before `InitCluster`. -/
structure Start (new : NodeId → ClusterId) (c₀ : Circuit) : Prop where
  mirror : c₀.Mirror
  acyclic : c₀.IsAcyclic
  pisClean : c₀.PisClean
  names : ∀ s n, c₀.getNode s = some n → n ∈ c₀.allNodes
  noClusters : c₀.allClusters = []
  new : ∀ a ∈ c₀.allNodes, ∀ b ∈ c₀.allNodes, new a = new b → a = b

theorem Start.ofNodes {l : List Node} (h : Ordered l) : Start id (ofNodes l) where
  mirror := h.mirror
  acyclic := h.acyclic
  pisClean := h.pisClean
  names _ _ := ofNodes_getNode
  noClusters := rfl
  new _ _ _ _ := id

theorem Start.wf {new : NodeId → ClusterId} {c₀ : Circuit} (h : Start new c₀) {l : List ClusterId}
    (hl : l.Perm (c₀.initCluster new).allClusters) :
    Wf { c₀.initCluster new with allClusters := l } ∧
      Exact { c₀.initCluster new with allClusters := l } := by
  have hC := initCluster_sameNet h.new
  have hsame : SameNet c₀ { c₀.initCluster new with allClusters := l } :=
    ⟨hC.node, by simp only; rw [hC.rest]⟩
  have hp := initCluster_part h.new h.mirror.nodup h.noClusters
  refine ⟨⟨hsame.mirror h.mirror, hsame.isAcyclic h.acyclic, hsame.pisClean h.pisClean, ?_, ?_⟩, ?_⟩
  · exact ⟨hl.nodup_iff.2 hp.nodup, fun k hk => hp.nodesNodup k (hl.mem_iff.1 hk),
      fun k hk => hp.nonempty k (hl.mem_iff.1 hk), fun k hk => hp.mem k (hl.mem_iff.1 hk),
      fun n hn hi => ⟨hl.mem_iff.2 (hp.covers n hn hi).1, (hp.covers n hn hi).2⟩⟩
  · intro s n hn
    refine .inl ?_
    rw [hsame.allNodes]
    refine h.names s n ?_
    rw [← hn, getNode, getNode, hsame.allNodesMap]
  · exact fun k hk => initCluster_exact h.new h.noClusters k (hl.mem_iff.1 hk)

end Msyn.NodeMerge
