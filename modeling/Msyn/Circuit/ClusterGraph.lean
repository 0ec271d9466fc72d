import Msyn.Circuit.Cluster
import Msyn.Circuit.Cone

/-!
# The graph of the clusters

`Precedes c a b`: a member of the cluster `a` is an input of a member of the cluster `b`. The cones
of a cluster are what it reaches, and what reaches it, in this graph (`mem_fanoutCone_iff`,
`mem_faninCone_iff`). Merging a set of clusters that no path leaves and returns to keeps the graph
acyclic (`ClustersAcyclic.merge`).
-/

namespace Msyn.Nodecircuit.Circuit

open Relation

structure Precedes (c : Circuit) (a b : ClusterId) : Prop where
  left : a ∈ c.allClusters
  right : b ∈ c.allClusters
  ne : a ≠ b
  edge : ∃ m ∈ (c.cluster a).nodesC, ∃ n ∈ (c.cluster b).nodesC, m ∈ (c.node n).inputs

/-- The clustered netlist is a DAG of multi-output gates. -/
def ClustersAcyclic (c : Circuit) : Prop := Acyclic c.Precedes

/-! ## The graph in terms of the nodes -/

section
variable {c : Circuit} (hp : c.Part)
include hp

theorem precedes_iff (hcl : c.Closed) {a b : ClusterId} : c.Precedes a b ↔ a ≠ b ∧
    ∃ m n, c.Fanin m n ∧ (c.node m).isInput = false ∧ (c.node n).isInput = false ∧
      (c.node m).myCluster = a ∧ (c.node n).myCluster = b := by
  constructor
  · rintro ⟨ha, hb, hne, m, hm, n, hn, hi⟩
    obtain ⟨-, h2, h3⟩ := hp.mem a ha m hm
    obtain ⟨h4, h5, h6⟩ := hp.mem b hb n hn
    exact ⟨hne, m, n, ⟨h4, hi⟩, h2, h5, h3, h6⟩
  · rintro ⟨hne, m, n, ⟨hn, hi⟩, hmi, hni, rfl, rfl⟩
    obtain ⟨h1, h2⟩ := hp.covers m (hcl n hn m hi) hmi
    obtain ⟨h3, h4⟩ := hp.covers n hn hni
    exact ⟨h1, h3, hne, m, h2, n, h4, hi⟩

end

theorem SameNet.pisClean {c c' : Circuit} (h : SameNet c c') (hpi : c.PisClean) : c'.PisClean :=
  fun i hi hii => by
    rw [h.inputs]
    exact hpi i (h.allNodes ▸ hi) (h.isInput i ▸ hii)

/-! ## The cones -/

section
variable {c : Circuit} (h : c.Mirror) (hp : c.Part) (hpi : c.PisClean) {k j : ClusterId}
  (hk : k ∈ c.allClusters)
include h hp hk

omit h hp hk in
theorem Precedes.mem_of_reach (hr : ReflTransGen c.Precedes k j) (hk : k ∈ c.allClusters) :
    j ∈ c.allClusters := by
  rcases ReflTransGen.cases_tail hr with rfl | ⟨b, -, hb⟩
  · exact hk
  · exact hb.right

include hpi in
theorem reach_fanouts : Worklist.Reach c.clusterFanouts k j ↔ ReflTransGen c.Precedes k j := by
  constructor
  · intro hr
    induction hr with
    | refl => exact .refl
    | @tail a b _ hab ih =>
      by_cases hne : a = b
      · exact hne ▸ ih
      · have ha := Precedes.mem_of_reach ih hk
        have hb := clusterFanouts_mem h hp hpi ha hab
        obtain ⟨m, hm, n, hn, hnk⟩ := mem_clusterFanouts.1 hab
        have hmc := (hp.mem a ha m hm).1
        have hni := hpi.fanout h hmc hn
        refine ih.tail ⟨ha, hb, hne, m, hm, n, ?_, (h.fanin hmc hn).2⟩
        exact hnk ▸ (hp.covers n (h.outs m hmc n hn) hni).2
  · intro hr
    induction hr with
    | refl => exact .refl
    | tail _ hab ih =>
      obtain ⟨ha, hb, -, m, hm, n, hn, hi⟩ := hab
      obtain ⟨hnc, -, hnk⟩ := hp.mem _ hb n hn
      exact ih.tail (mem_clusterFanouts.2 ⟨m, hm, n, (h.fanout ⟨hnc, hi⟩).2, hnk⟩)

theorem reach_fanins : Worklist.Reach c.clusterFanins k j ↔ ReflTransGen c.Precedes j k := by
  constructor
  · intro hr
    have : j ∈ c.allClusters ∧ ReflTransGen c.Precedes j k := by
      induction hr with
      | refl => exact ⟨hk, .refl⟩
      | @tail a b _ hab ih =>
        obtain ⟨ha, hr⟩ := ih
        have hb := clusterFanins_mem h hp ha hab
        refine ⟨hb, ?_⟩
        by_cases hne : b = a
        · exact hne ▸ hr
        · obtain ⟨n, hn, m, hi, hmi, hmk⟩ := mem_clusterFanins.1 hab
          refine .head ⟨hb, ha, hne, m, ?_, n, hn, hi⟩ hr
          exact hmk ▸ (hp.covers m (h.closed n (hp.mem a ha n hn).1 m hi) hmi).2
    exact this.2
  · intro hr
    induction hr using ReflTransGen.head_induction_on with
    | refl => exact .refl
    | head hab _ ih =>
      obtain ⟨ha, -, -, m, hm, n, hn, hi⟩ := hab
      obtain ⟨-, hmi, hmk⟩ := hp.mem _ ha m hm
      exact ih.tail (mem_clusterFanins.2 ⟨n, hn, m, hi, hmi, hmk⟩)

include hpi in
/-- **The fanout cone of a cluster** is what it reaches. -/
theorem mem_fanoutCone_iff :
    j ∈ c.getClusterFanoutCone k ↔ j ≠ k ∧ ReflTransGen c.Precedes k j := by
  rw [mem_clusterFanoutCone h hp hpi hk, reach_fanouts h hp hpi hk]

/-- **The fanin cone of a cluster** is what reaches it. -/
theorem mem_faninCone_iff :
    j ∈ c.getClusterFaninCone k ↔ j ≠ k ∧ ReflTransGen c.Precedes j k := by
  rw [mem_clusterFaninCone h hp hk, reach_fanins h hp hk]

end

/-! ## The clusters of InitCluster -/

/-- **The clusters of single nodes** form a DAG as the nodes do. -/
theorem initCluster_acyclic {new : NodeId → ClusterId} {c : Circuit}
    (hnew : ∀ a ∈ c.allNodes, ∀ b ∈ c.allNodes, new a = new b → a = b) (hc : c.allClusters = [])
    (hcl : c.Closed) (hac : c.IsAcyclic) : (c.initCluster new).ClustersAcyclic := by
  obtain ⟨rank, hrank⟩ := hac.exists_rank fun _ _ h => fanin_mem hcl h
  have hs := initCluster_sameNet hnew
  have hone : ∀ {k n}, k ∈ (c.initCluster new).allClusters →
      n ∈ ((c.initCluster new).cluster k).nodesC →
      n ∈ c.allNodes ∧ ((c.initCluster new).cluster k).nodesC = [n] := by
    intro k n hk hn
    obtain ⟨m, hm, hmi, rfl⟩ := (mem_initClusters hnew hc).1 hk
    have h1 := ((initCluster_spec hnew).cluster m hm hmi).1
    rw [h1, List.mem_singleton] at hn
    exact ⟨hn ▸ hm, hn ▸ h1⟩
  refine Acyclic.of_rank (fun k => rank (((c.initCluster new).cluster k).nodesC.headD 0)) ?_
  rintro a b ⟨ha, hb, -, m, hm, n, hn, hi⟩
  rw [(hone ha hm).2, (hone hb hn).2]
  exact hrank m n ⟨(hone hb hn).1, hs.inputs n ▸ hi⟩

/-! ## Merged clusters -/

/-- The cluster of a node of `k` once the clusters `S` are merged into `tar`. -/
def joined (S : ClusterId → Prop) [DecidablePred S] (tar k : ClusterId) : ClusterId :=
  if S k then tar else k

theorem joined_eq_tar {S : ClusterId → Prop} [DecidablePred S] {tar k : ClusterId} (ht : S tar) :
    joined S tar k = tar ↔ S k := by
  unfold joined
  split
  · rename_i hk
    exact ⟨fun _ => hk, fun _ => rfl⟩
  · rename_i hk
    exact ⟨fun he => absurd (he ▸ ht) hk, fun h => absurd h hk⟩

/-- **Merging a convex set of clusters**: every edge of `r'` comes from one of `r` between the
clusters before. -/
theorem acyclic_joined {r r' : ClusterId → ClusterId → Prop} {S : ClusterId → Prop}
    [DecidablePred S] {tar : ClusterId} (h : Acyclic r) (ht : S tar) (hconv : Convex r S)
    (hr : ∀ a b, r' a b → a ≠ b ∧ ∃ x y, joined S tar x = a ∧ joined S tar y = b ∧ r x y) :
    Acyclic r' := by
  refine h.contract (u := tar) (fun x y hxy hx => ?_) (fun x y z hx hy hz => ?_) hr
  · have hxS : ¬S x := fun hS => hx ((joined_eq_tar ht).2 hS)
    have hyS : ¬S y := fun hS => hx (hxy.trans ((joined_eq_tar ht).2 hS))
    simpa [joined, hxS, hyS] using hxy
  · exact hconv x y z ((joined_eq_tar ht).1 hx) (fun hS => hy ((joined_eq_tar ht).2 hS))
      ((joined_eq_tar ht).1 hz)

/-- The same for a step that changes only the clusters. -/
theorem ClustersAcyclic.merge {c c' : Circuit} {S : ClusterId → Prop} [DecidablePred S]
    {tar : ClusterId} (h : c.ClustersAcyclic) (hp : c.Part) (hcl : c.Closed) (hs : SameNet c c')
    (hp' : c'.Part) (ht : S tar) (hconv : Convex c.Precedes S)
    (hmy : ∀ n ∈ c.allNodes, (c.node n).isInput = false →
      (c'.node n).myCluster = joined S tar (c.node n).myCluster) : c'.ClustersAcyclic := by
  refine acyclic_joined h ht hconv fun a b hab => ?_
  obtain ⟨hne, m, n, hmn, hmi, hni, rfl, rfl⟩ := (precedes_iff hp' (hs.closed hcl)).1 hab
  rw [hs.fanin_iff] at hmn
  rw [hs.isInput] at hmi hni
  have hm := hmy m (fanin_mem hcl hmn) hmi
  have hn := hmy n hmn.1 hni
  refine ⟨hne, _, _, hm.symm, hn.symm, (precedes_iff hp hcl).2 ⟨fun he => hne ?_, m, n, hmn, hmi,
    hni, rfl, rfl⟩⟩
  rw [hm, hn, he]

end Msyn.Nodecircuit.Circuit
