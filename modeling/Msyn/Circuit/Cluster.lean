import Msyn.Circuit.Remove

/-!
# Clusters and their cached inputs

`Exact c`: the cached `input_nodes` of every cluster are the outside fanins of its members.
`InitCluster` establishes it with the partition (`initCluster_part`, `initCluster_exact`), and
`Merge` keeps both (`Merged.part`, `Merged.exactAt`). `Remove` keeps the partition but not the
caches: it never takes a node out of `input_nodes`.
-/

namespace Msyn.Nodecircuit.Circuit

/-- The cached inputs of the cluster are the fanins of its members outside it. -/
def ExactAt (c : Circuit) (k : ClusterId) : Prop :=
  ∀ i, i ∈ (c.cluster k).inputNodes ↔
    i ∉ (c.cluster k).nodesC ∧ ∃ n ∈ (c.cluster k).nodesC, i ∈ (c.node n).inputs

def Exact (c : Circuit) : Prop := ∀ k ∈ c.allClusters, c.ExactAt k

/-- Every outside fanin of a member of the cluster is cached. -/
def CoversAt (c : Circuit) (k : ClusterId) : Prop :=
  ∀ n ∈ (c.cluster k).nodesC, ∀ i ∈ (c.node n).inputs,
    i ∈ (c.cluster k).nodesC ∨ i ∈ (c.cluster k).inputNodes

/-! ## Merge -/

theorem mem_foldl_erase {s : NodeSet} {l : List NodeId} {i : NodeId} :
    i ∈ l.foldl OrdSet.erase s ↔ i ∉ l ∧ i ∈ s := by
  induction l generalizing s with
  | nil => simp
  | cons a l ih => rw [List.foldl_cons, ih, OrdSet.mem_erase, List.mem_cons]; tauto

/-- What appending the nodes `l` to the cluster `k` does. -/
structure Appended (c c' : Circuit) (k : ClusterId) (l : List NodeId) : Prop where
  node : ∀ n, c'.node n =
    { c.node n with myCluster := if n ∈ l then k else (c.node n).myCluster }
  nodesC : (c'.cluster k).nodesC = (c.cluster k).nodesC ++ l
  inputNodes : ∀ i, i ∉ (c'.cluster k).nodesC → (i ∈ (c'.cluster k).inputNodes ↔
    i ∈ (c.cluster k).inputNodes ∨ ∃ n ∈ l, i ∈ (c.node n).inputs)
  other : ∀ j, j ≠ k → c'.cluster j = c.cluster j
  rest : c' = { c with node := c'.node, cluster := c'.cluster }

theorem append_spec (k : ClusterId) : ∀ (l : List NodeId) (c : Circuit),
    Appended c (l.foldl (fun c n => c.append k n) c) k l
  | [], c => ⟨fun n => by simp, by simp, fun i _ => by simp, fun _ _ => rfl, rfl⟩
  | n :: l, c => by
    obtain ⟨h1, h2, h3, h4, h5⟩ := append_spec k l (c.append k n)
    have hn1 : ((c.append k n).cluster k).nodesC = (c.cluster k).nodesC ++ [n] := by
      simp [append]
    have hin : ∀ m, ((c.append k n).node m).inputs = (c.node m).inputs := by
      intro m
      simp only [append, modNode_node]
      split <;> rfl
    simp only [List.foldl_cons]
    refine ⟨fun m => ?_, ?_, fun i hi => ?_, fun j hj => ?_, ?_⟩
    · rw [h1]
      simp only [append, modNode_node, List.mem_cons]
      by_cases hm : m = n
      · simp [hm]
      · simp [hm]
    · rw [h2, hn1, List.append_assoc, List.singleton_append]
    · rw [h3 i hi]
      rw [h2, hn1] at hi
      simp only [List.mem_append, List.mem_singleton, not_or] at hi
      have : i ∈ ((c.append k n).cluster k).inputNodes ↔
          i ∈ (c.cluster k).inputNodes ∨ i ∈ (c.node n).inputs := by
        simp only [append, modNode_cluster, modCluster_cluster, if_true, mem_foldl_erase,
          OrdSet.mem_insertAll]
        simp [hi.1.1, hi.1.2]
      simp only [this, hin, List.exists_mem_cons_iff, or_assoc]
    · rw [h4 j hj]
      simp [append, hj]
    · rw [h5]
      rfl

/-- What `Merge` does. -/
structure Merged (c c' : Circuit) (clu1 clu2 : ClusterId) : Prop where
  node : ∀ n, c'.node n = { c.node n with
    myCluster := if n ∈ (c.cluster clu2).nodesC then clu1 else (c.node n).myCluster }
  nodesC : (c'.cluster clu1).nodesC = (c.cluster clu1).nodesC ++ (c.cluster clu2).nodesC
  inputNodes : ∀ i, i ∈ (c'.cluster clu1).inputNodes ↔ i ∉ (c'.cluster clu1).nodesC ∧
    (i ∈ (c.cluster clu1).inputNodes ∨ ∃ n ∈ (c.cluster clu2).nodesC, i ∈ (c.node n).inputs)
  other : ∀ k, k ≠ clu1 → c'.cluster k = c.cluster k
  rest : c' = { c with
    node := c'.node, cluster := c'.cluster, allClusters := c.allClusters.erase clu2 }

theorem merge_spec {c : Circuit} {clu1 clu2 : ClusterId} (h2 : clu2 ∈ c.allClusters)
    (hne : clu1 ≠ clu2) : ∃ c', c.merge clu1 clu2 = some (c', next clu2 c.allClusters) ∧
      Merged c c' clu1 clu2 := by
  obtain ⟨h3, h4, h5, h6, h7⟩ := append_spec clu1 (c.cluster clu2).nodesC
    { c with allClusters := c.allClusters.erase clu2 }
  refine ⟨_, by rw [merge, if_pos ⟨h2, hne⟩], fun n => ?_, ?_, fun i => ?_, fun k hk => ?_, ?_⟩
  · simp only [modCluster_node]
    exact h3 n
  · simp only [modCluster_cluster, if_true]
    exact h4
  · simp only [modCluster_cluster, if_true, mem_foldl_erase]
    exact and_congr_right fun hi => h5 i hi
  · simp only [modCluster_cluster, if_neg hk]
    exact h6 k hk
  · simp only [modCluster]
    rw [h7]

/-- Only the clusters of the nodes differ. -/
structure SameNet (c c' : Circuit) : Prop where
  node : ∀ n, c'.node n = { c.node n with myCluster := (c'.node n).myCluster }
  rest : c' = { c with node := c'.node, cluster := c'.cluster, allClusters := c'.allClusters }

namespace SameNet

variable {c c' c'' : Circuit}

theorem refl (c : Circuit) : SameNet c c := ⟨fun _ => rfl, rfl⟩

theorem trans (h : SameNet c c') (h' : SameNet c' c'') : SameNet c c'' :=
  ⟨fun n => by rw [h'.node n, h.node n], by rw [h'.rest, h.rest]⟩

variable (h : SameNet c c')
include h

theorem allNodes : c'.allNodes = c.allNodes := by rw [h.rest]
theorem targets : c'.targets = c.targets := by rw [h.rest]
theorem pis : c'.inputs = c.inputs := by rw [h.rest]
theorem pos : c'.outputs = c.outputs := by rw [h.rest]
theorem allNodesMap : c'.allNodesMap = c.allNodesMap := by rw [h.rest]
theorem inputs (n : NodeId) : (c'.node n).inputs = (c.node n).inputs := by rw [h.node]
theorem outputs (n : NodeId) : (c'.node n).outputs = (c.node n).outputs := by rw [h.node]
theorem isInput (n : NodeId) : (c'.node n).isInput = (c.node n).isInput := by rw [h.node]
theorem isOutput (n : NodeId) : (c'.node n).isOutput = (c.node n).isOutput := by rw [h.node]
theorem inputsPre (n : NodeId) : (c'.node n).inputsPre = (c.node n).inputsPre := by rw [h.node]
theorem cube (n : NodeId) : (c'.node n).cube = (c.node n).cube := by rw [h.node]
theorem name (n : NodeId) : (c'.node n).name = (c.node n).name := by rw [h.node]

theorem fanin_iff {a b : NodeId} : c'.Fanin a b ↔ c.Fanin a b := by
  rw [Fanin, Fanin, h.allNodes, h.inputs]

theorem closed (hcl : c.Closed) : c'.Closed := fun n hn i hi => by
  rw [h.allNodes] at hn ⊢
  exact hcl n hn i (h.inputs n ▸ hi)

theorem isAcyclic (hac : c.IsAcyclic) : c'.IsAcyclic := hac.mono fun _ _ => h.fanin_iff.1

/-- The edges do not change. -/
theorem mirror (hm : c.Mirror) : c'.Mirror where
  nodup := h.allNodes ▸ hm.nodup
  closed n hn i hi := by
    rw [h.allNodes] at hn ⊢
    exact hm.closed n hn i (h.inputs n ▸ hi)
  outs n hn m hmem := by
    rw [h.allNodes] at hn ⊢
    exact hm.outs n hn m (h.outputs n ▸ hmem)
  count a ha b hb := by
    rw [h.allNodes] at ha hb
    rw [h.inputs, h.outputs, hm.count a ha b hb]

end SameNet

namespace Merged

variable {c c' : Circuit} {clu1 clu2 : ClusterId} (h : Merged c c' clu1 clu2)
include h

theorem allClusters : c'.allClusters = c.allClusters.erase clu2 := by rw [h.rest]

theorem same : SameNet c c' := ⟨fun n => by rw [h.node n], by rw [h.rest]⟩

/-- **The clusters stay a partition.** -/
theorem part (hp : c.Part) (h1 : clu1 ∈ c.allClusters) (h2 : clu2 ∈ c.allClusters)
    (hne : clu1 ≠ clu2) : c'.Part := by
  have hdisj : ∀ {n}, n ∈ (c.cluster clu1).nodesC → n ∉ (c.cluster clu2).nodesC := by
    intro n hn1 hn2
    exact hne ((hp.mem clu1 h1 n hn1).2.2.symm.trans (hp.mem clu2 h2 n hn2).2.2)
  have hk : ∀ {k}, k ∈ c'.allClusters ↔ k ≠ clu2 ∧ k ∈ c.allClusters := by
    intro k; rw [h.allClusters]; exact hp.nodup.mem_erase_iff
  have hcl : ∀ {k}, k ≠ clu1 → c'.cluster k = c.cluster k := fun {k} => h.other k
  refine ⟨?_, fun k hk' => ?_, fun k hk' => ?_, fun k hk' n hn => ?_, fun n hn hi => ?_⟩
  · rw [h.allClusters]; exact hp.nodup.erase clu2
  · by_cases hk1 : k = clu1
    · subst hk1
      rw [h.nodesC]
      exact List.nodup_append.2 ⟨hp.nodesNodup k h1, hp.nodesNodup clu2 h2,
        fun a ha b hb hab => hdisj ha (hab ▸ hb)⟩
    · rw [hcl hk1]; exact hp.nodesNodup k (hk.1 hk').2
  · by_cases hk1 : k = clu1
    · subst hk1
      rw [h.nodesC]
      exact List.append_ne_nil_of_left_ne_nil (hp.nonempty k h1) _
    · rw [hcl hk1]; exact hp.nonempty k (hk.1 hk').2
  · rw [h.same.allNodes, h.same.isInput, h.node]
    by_cases hk1 : k = clu1
    · subst hk1
      rw [h.nodesC, List.mem_append] at hn
      rcases hn with hn | hn
      · obtain ⟨h3, h4, h5⟩ := hp.mem k h1 n hn
        exact ⟨h3, h4, by simp [h5]⟩
      · obtain ⟨h3, h4, -⟩ := hp.mem clu2 h2 n hn
        exact ⟨h3, h4, by simp [hn]⟩
    · rw [hcl hk1] at hn
      obtain ⟨h3, h4, h5⟩ := hp.mem k (hk.1 hk').2 n hn
      refine ⟨h3, h4, ?_⟩
      have : n ∉ (c.cluster clu2).nodesC := fun hn2 =>
        (hk.1 hk').1 (h5.symm.trans (hp.mem clu2 h2 n hn2).2.2)
      simp [this, h5]
  · rw [h.same.allNodes] at hn
    rw [h.same.isInput] at hi
    obtain ⟨h3, h4⟩ := hp.covers n hn hi
    rw [h.node]
    by_cases hn2 : n ∈ (c.cluster clu2).nodesC
    · simp only [if_pos hn2]
      refine ⟨hk.2 ⟨hne, h1⟩, ?_⟩
      rw [h.nodesC]
      exact List.mem_append_right _ hn2
    · simp only [if_neg hn2]
      refine ⟨hk.2 ⟨fun he => hn2 (he ▸ h4), h3⟩, ?_⟩
      by_cases hk1 : (c.node n).myCluster = clu1
      · rw [hk1, h.nodesC]
        exact List.mem_append_left _ (hk1 ▸ h4)
      · rw [hcl hk1]; exact h4

/-- **The cache of the merged cluster is exact** if the cache of the first one was. -/
theorem exactAt (he : c.ExactAt clu1) : c'.ExactAt clu1 := by
  intro i
  rw [h.inputNodes, he]
  simp only [h.nodesC, h.same.inputs, List.mem_append, not_or]
  constructor
  · rintro ⟨hi, ⟨-, n, hn, hin⟩ | ⟨n, hn, hin⟩⟩
    · exact ⟨hi, n, .inl hn, hin⟩
    · exact ⟨hi, n, .inr hn, hin⟩
  · rintro ⟨hi, n, hn | hn, hin⟩
    · exact ⟨hi, .inl ⟨hi.1, n, hn, hin⟩⟩
    · exact ⟨hi, .inr ⟨n, hn, hin⟩⟩

theorem exactAt_other {k : ClusterId} (hk : k ≠ clu1) (he : c.ExactAt k) : c'.ExactAt k := by
  intro i
  rw [h.other k hk, he]
  simp only [h.same.inputs]

theorem exact (he : c.Exact) (h1 : clu1 ∈ c.allClusters) : c'.Exact := by
  intro k hk
  rw [h.allClusters] at hk
  by_cases hk1 : k = clu1
  · exact hk1 ▸ h.exactAt (he clu1 h1)
  · exact h.exactAt_other hk1 (he k (List.mem_of_mem_erase hk))

theorem coversAt (hc : CoversAt c clu1) : CoversAt c' clu1 := by
  intro n hn i hi
  rw [h.same.inputs] at hi
  by_cases him : i ∈ (c'.cluster clu1).nodesC
  · exact .inl him
  · refine .inr ((h.inputNodes i).2 ⟨him, ?_⟩)
    rw [h.nodesC, List.mem_append] at hn him
    rcases hn with hn | hn
    · exact .inl ((hc n hn i hi).resolve_left fun h1 => him (.inl h1))
    · exact .inr ⟨n, hn, hi⟩

theorem coversAt_other {k : ClusterId} (hk : k ≠ clu1) (hc : CoversAt c k) :
    CoversAt c' k := by
  intro n hn i hi
  rw [h.other k hk] at hn ⊢
  exact hc n hn i (h.same.inputs n ▸ hi)

/-- What the merged cluster caches. -/
theorem inputNodes_sub (hc : CoversAt c clu2) {i : NodeId}
    (hi : i ∈ (c'.cluster clu1).inputNodes) :
    i ∈ (c.cluster clu1).inputNodes ∨ i ∈ (c.cluster clu2).inputNodes := by
  obtain ⟨him, h1 | ⟨n, hn, hin⟩⟩ := (h.inputNodes i).1 hi
  · exact .inl h1
  · refine .inr ((hc n hn i hin).resolve_left fun h1 => him ?_)
    rw [h.nodesC]
    exact List.mem_append_right _ h1

end Merged

theorem mem_foldl_listErase {ks l : List ClusterId} (hl : l.Nodup) {k : ClusterId} :
    k ∈ ks.foldl List.erase l ↔ k ∈ l ∧ k ∉ ks := by
  induction ks generalizing l with
  | nil => simp
  | cons j ks ih =>
    rw [List.foldl_cons, ih (hl.erase j), hl.mem_erase_iff, List.mem_cons]
    tauto

/-- What merging the clusters `ks` into `tar` does. -/
structure MergedAll (c c' : Circuit) (tar : ClusterId) (ks : List ClusterId) : Prop where
  same : SameNet c c'
  allClusters : c'.allClusters = ks.foldl List.erase c.allClusters
  nodesC : (c'.cluster tar).nodesC =
    (c.cluster tar).nodesC ++ ks.flatMap fun k => (c.cluster k).nodesC
  other : ∀ k, k ≠ tar → c'.cluster k = c.cluster k
  part : c'.Part
  exactAt : ∀ k, c.ExactAt k → c'.ExactAt k

namespace MergedAll

variable {c c1 c' : Circuit} {tar k : ClusterId} {ks ks' : List ClusterId}

theorem nil (hp : c.Part) (tar : ClusterId) : MergedAll c c tar [] :=
  ⟨.refl c, rfl, by simp, fun _ _ => rfl, hp, fun _ => id⟩

theorem single (h : Merged c c' tar k) (hp : c.Part) (ht : tar ∈ c.allClusters)
    (hk : k ∈ c.allClusters) (hne : tar ≠ k) : MergedAll c c' tar [k] where
  same := h.same
  allClusters := h.allClusters
  nodesC := by rw [h.nodesC]; simp
  other := h.other
  part := h.part hp ht hk hne
  exactAt j he := by
    by_cases hj : j = tar
    · exact hj ▸ h.exactAt (hj ▸ he)
    · exact h.exactAt_other hj he

theorem trans (h : MergedAll c c1 tar ks) (h' : MergedAll c1 c' tar ks') (hks : tar ∉ ks') :
    MergedAll c c' tar (ks ++ ks') where
  same := h.same.trans h'.same
  allClusters := by rw [h'.allClusters, h.allClusters, List.foldl_append]
  nodesC := by
    have : (ks'.flatMap fun k => (c1.cluster k).nodesC) =
        ks'.flatMap fun k => (c.cluster k).nodesC :=
      List.flatMap_congr fun j hj => by rw [h.other j fun he => hks (he ▸ hj)]
    rw [h'.nodesC, h.nodesC, this, List.flatMap_append, List.append_assoc]
  other j hj := by rw [h'.other j hj, h.other j hj]
  part := h'.part
  exactAt j he := h'.exactAt j (h.exactAt j he)

/-- The clusters of the nodes after the merges. -/
theorem myCluster (h : MergedAll c c' tar ks) (hp : c.Part) (ht : tar ∈ c.allClusters)
    (hks : tar ∉ ks) {n : NodeId} (hn : n ∈ c.allNodes) (hi : (c.node n).isInput = false) :
    (c'.node n).myCluster = if (c.node n).myCluster ∈ ks then tar else (c.node n).myCluster := by
  obtain ⟨h1, h2⟩ := hp.covers n hn hi
  have hmem : ∀ {k}, k ∈ c'.allClusters ↔ k ∈ c.allClusters ∧ k ∉ ks := fun {k} => by
    rw [h.allClusters, mem_foldl_listErase hp.nodup]
  have ht' : tar ∈ c'.allClusters := hmem.2 ⟨ht, hks⟩
  split
  · rename_i hk
    refine (h.part.mem tar ht' n ?_).2.2
    rw [h.nodesC]
    exact List.mem_append_right _ (List.mem_flatMap.2 ⟨_, hk, h2⟩)
  · rename_i hk
    refine (h.part.mem _ (hmem.2 ⟨h1, hk⟩) n ?_).2.2
    by_cases he : (c.node n).myCluster = tar
    · rw [he, h.nodesC]
      exact List.mem_append_left _ (he ▸ h2)
    · rw [h.other _ he]
      exact h2

end MergedAll

/-! ## InitCluster -/

/-- What `InitCluster` has done after the nodes `l`. -/
structure Clustered (new : NodeId → ClusterId) (c c' : Circuit) (l : List NodeId) : Prop where
  node : ∀ n, c'.node n = { c.node n with
    myCluster := if n ∈ l ∧ (c.node n).isInput = false then new n else (c.node n).myCluster }
  allClusters : c'.allClusters =
    c.allClusters ++ (l.filter fun n => !(c.node n).isInput).map new
  cluster : ∀ n ∈ l, (c.node n).isInput = false → (c'.cluster (new n)).nodesC = [n] ∧
    ∀ i, i ∈ (c'.cluster (new n)).inputNodes ↔ i ≠ n ∧ i ∈ (c.node n).inputs
  rest : c' = { c with
    node := c'.node, cluster := c'.cluster, allClusters := c'.allClusters }

theorem initCluster_loop (new : NodeId → ClusterId) (c : Circuit) {l : List NodeId}
    (hnew : ∀ a ∈ l, ∀ b ∈ l, new a = new b → a = b) :
    Clustered new c (l.foldl (fun c n =>
      if (c.node n).isInput then c
      else
        let c := (c.modCluster (new n) fun _ => {}).append (new n) n
        { c with allClusters := c.allClusters ++ [new n] }) c) l := by
  induction l using List.reverseRecOn with
  | nil => exact ⟨fun n => by simp, by simp, fun n hn => absurd hn List.not_mem_nil, rfl⟩
  | append_singleton l m ih =>
    obtain ⟨h1, h2, h3, h4⟩ := ih fun a ha b hb =>
      hnew a (List.mem_append_left _ ha) b (List.mem_append_left _ hb)
    rw [List.foldl_append, List.foldl_cons, List.foldl_nil]
    set c1 := l.foldl _ c with hc1
    have hm : (c1.node m).isInput = (c.node m).isInput := by rw [h1]
    cases hi : (c.node m).isInput with
    | true =>
      rw [if_pos (by rw [hm, hi])]
      refine ⟨fun n => ?_, ?_, fun n hn hin => ?_, h4⟩
      · rw [h1]
        by_cases hn : n = m
        · simp [hn, hi]
        · simp [hn]
      · rw [h2]; simp [hi]
      · rcases List.mem_append.1 hn with hn | hn
        · exact h3 n hn hin
        · rw [List.mem_singleton] at hn
          rw [hn, hi] at hin
          cases hin
    | false =>
      rw [if_neg (by rw [hm, hi]; simp)]
      have hinp : ∀ n, (c1.node n).inputs = (c.node n).inputs := fun n => by rw [h1]
      refine ⟨fun n => ?_, ?_, fun n hn hin => ?_, ?_⟩
      · simp only [append, modNode_node, modCluster_node]
        rw [h1]
        by_cases hn : n = m
        · simp [hn, hi]
        · simp [hn]
      · simp [append, h2, hi]
      · simp only [append, modNode_cluster, modCluster_cluster, modCluster_node, hinp]
        by_cases hnm : n = m
        · subst hnm
          refine ⟨by simp, fun i => ?_⟩
          simp only [if_true, List.nil_append, mem_foldl_erase, OrdSet.mem_insertAll,
            List.mem_singleton, OrdSet.not_mem_empty, false_or]
        · have hnl : n ∈ l := (List.mem_append.1 hn).resolve_right (by simpa using hnm)
          have : new n ≠ new m := fun he => hnm (hnew n hn m (by simp) he)
          simp only [if_neg this]
          exact h3 n hnl hin
      · simp only [append, modNode, modCluster]
        rw [h4]

section
variable {new : NodeId → ClusterId} {c : Circuit}
  (hnew : ∀ a ∈ c.allNodes, ∀ b ∈ c.allNodes, new a = new b → a = b)
include hnew

theorem initCluster_spec : Clustered new c (c.initCluster new) c.allNodes :=
  initCluster_loop new c hnew

theorem initCluster_sameNet : SameNet c (c.initCluster new) := by
  have h := initCluster_spec hnew
  exact ⟨fun n => by rw [h.node n], by rw [h.rest]⟩

theorem mem_initClusters (hc : c.allClusters = []) {k : ClusterId} :
    k ∈ (c.initCluster new).allClusters ↔
      ∃ n ∈ c.allNodes, (c.node n).isInput = false ∧ new n = k := by
  rw [(initCluster_spec hnew).allClusters, hc]
  simp [and_assoc]

/-- **`InitCluster` makes a partition.** -/
theorem initCluster_part (hnd : c.allNodes.Nodup) (hc : c.allClusters = []) :
    (c.initCluster new).Part := by
  have h := initCluster_spec hnew
  have hmem := @mem_initClusters new c hnew hc
  have hall : (c.initCluster new).allNodes = c.allNodes := by rw [h.rest]
  refine ⟨?_, fun k hk => ?_, fun k hk => ?_, fun k hk n hn => ?_, fun n hn hi => ?_⟩
  · rw [h.allClusters, hc, List.nil_append]
    exact (hnd.filter _).map_on fun a ha b hb =>
      hnew a (List.mem_filter.1 ha).1 b (List.mem_filter.1 hb).1
  · obtain ⟨n, hn, hi, rfl⟩ := hmem.1 hk
    rw [(h.cluster n hn hi).1]
    exact List.nodup_singleton n
  · obtain ⟨n, hn, hi, rfl⟩ := hmem.1 hk
    rw [(h.cluster n hn hi).1]
    exact List.cons_ne_nil _ _
  · obtain ⟨m, hm, hi, rfl⟩ := hmem.1 hk
    rw [(h.cluster m hm hi).1, List.mem_singleton] at hn
    subst hn
    rw [hall, h.node]
    exact ⟨hm, hi, by simp [hm, hi]⟩
  · rw [hall] at hn
    have hi' : (c.node n).isInput = false := by rw [h.node] at hi; exact hi
    rw [h.node]
    simp only [hn, hi', and_self, if_true]
    exact ⟨hmem.2 ⟨n, hn, hi', rfl⟩, by rw [(h.cluster n hn hi').1]; simp⟩

/-- **`InitCluster` fills the caches.** -/
theorem initCluster_exact (hc : c.allClusters = []) : (c.initCluster new).Exact := by
  have h := initCluster_spec hnew
  intro k hk i
  obtain ⟨n, hn, hi, rfl⟩ := (mem_initClusters hnew hc).1 hk
  obtain ⟨h1, h2⟩ := h.cluster n hn hi
  rw [h1, h2]
  simp [h.node]

end

end Msyn.Nodecircuit.Circuit
