import Msyn.Circuit.Semantics

/-!
# Fanin and fanout lists mirror each other

`Mirror c`: the nodes of `c` refer only to nodes of `c`, and `a` is as often among the inputs of
`b` as `b` is among the outputs of `a`. `SetTargets`, `Restruct` and `Restore` keep it
(`Mirror.setTarget`, `Mirror.restruct`, `Mirror.restoreTarget`), and under it every `find` they
make on a fanout list succeeds. `Remove` is in `Circuit/Remove.lean`.
-/

namespace Msyn.Nodecircuit.Circuit

structure Mirror (c : Circuit) : Prop where
  nodup : c.allNodes.Nodup
  closed : c.Closed
  outs : ∀ n ∈ c.allNodes, ∀ m ∈ (c.node n).outputs, m ∈ c.allNodes
  count : ∀ a ∈ c.allNodes, ∀ b ∈ c.allNodes,
    (c.node b).inputs.count a = (c.node a).outputs.count b

theorem Mirror.mem_iff {c : Circuit} (h : c.Mirror) {a b : NodeId} (ha : a ∈ c.allNodes)
    (hb : b ∈ c.allNodes) : a ∈ (c.node b).inputs ↔ b ∈ (c.node a).outputs := by
  rw [← List.count_pos_iff, ← List.count_pos_iff, h.count a ha b hb]

/-- A fanout edge is a fanin edge. -/
theorem Mirror.fanin {c : Circuit} (h : c.Mirror) {a b : NodeId} (ha : a ∈ c.allNodes)
    (hb : b ∈ (c.node a).outputs) : c.Fanin a b :=
  ⟨h.outs a ha b hb, (h.mem_iff ha (h.outs a ha b hb)).2 hb⟩

theorem Mirror.fanout {c : Circuit} (h : c.Mirror) {a b : NodeId} (hab : c.Fanin a b) :
    a ∈ c.allNodes ∧ b ∈ (c.node a).outputs :=
  ⟨fanin_mem h.closed hab, (h.mem_iff (fanin_mem h.closed hab) hab.1).1 hab.2⟩

/-- An input of a node counts its occurrences as a fanout; a node outside has none. -/
theorem Mirror.count_le {c : Circuit} (h : c.Mirror) {n : NodeId} (hn : n ∈ c.allNodes)
    (i : NodeId) : (c.node n).inputs.count i ≤ (c.node i).outputs.count n := by
  by_cases hi : i ∈ (c.node n).inputs
  · rw [h.count i (h.closed n hn i hi) n hn]
  · rw [List.count_eq_zero_of_not_mem hi]
    exact Nat.zero_le _

/-! ## Frames -/

/-- Only fanout lists differ. -/
structure OutputsOnly (c c' : Circuit) : Prop where
  node : ∀ i, c'.node i = { c.node i with outputs := (c'.node i).outputs }
  rest : c' = { c with node := c'.node }

namespace OutputsOnly

variable {c c' c'' : Circuit}

theorem refl (c : Circuit) : OutputsOnly c c := ⟨fun _ => rfl, rfl⟩

theorem trans (h : OutputsOnly c c') (h' : OutputsOnly c' c'') : OutputsOnly c c'' :=
  ⟨fun i => by rw [h'.node i, h.node i], by rw [h'.rest, h.rest]⟩

variable (h : OutputsOnly c c')
include h

theorem inputs (i : NodeId) : (c'.node i).inputs = (c.node i).inputs := by rw [h.node i]
theorem inputsPre (i : NodeId) : (c'.node i).inputsPre = (c.node i).inputsPre := by rw [h.node i]
theorem isInput (i : NodeId) : (c'.node i).isInput = (c.node i).isInput := by rw [h.node i]
theorem isOutput (i : NodeId) : (c'.node i).isOutput = (c.node i).isOutput := by rw [h.node i]
theorem myCluster (i : NodeId) : (c'.node i).myCluster = (c.node i).myCluster := by rw [h.node i]
theorem cube (i : NodeId) : (c'.node i).cube = (c.node i).cube := by rw [h.node i]
theorem name (i : NodeId) : (c'.node i).name = (c.node i).name := by rw [h.node i]
theorem allNodes : c'.allNodes = c.allNodes := by rw [h.rest]
theorem allClusters : c'.allClusters = c.allClusters := by rw [h.rest]
theorem cluster : c'.cluster = c.cluster := by rw [h.rest]
theorem targets : c'.targets = c.targets := by rw [h.rest]
theorem pis : c'.inputs = c.inputs := by rw [h.rest]
theorem pos : c'.outputs = c.outputs := by rw [h.rest]
theorem allNodesMap : c'.allNodesMap = c.allNodesMap := by rw [h.rest]

end OutputsOnly

theorem outputsOnly_modNode (c : Circuit) (i : NodeId) (f : List NodeId → List NodeId) :
    OutputsOnly c (c.modNode i fun nd => { nd with outputs := f nd.outputs }) :=
  ⟨fun j => by by_cases hj : j = i <;> simp [hj], rfl⟩

/-! ## Erasing and pushing fanouts -/

theorem eraseOutput_spec {c : Circuit} {i n : NodeId} (h : n ∈ (c.node i).outputs) :
    ∃ c', c.eraseOutput i n = some c' ∧ OutputsOnly c c' ∧
      ∀ j, (c'.node j).outputs = if j = i then (c.node j).outputs.erase n else (c.node j).outputs := by
  refine ⟨_, if_pos h, outputsOnly_modNode c i (·.erase n), fun j => ?_⟩
  by_cases hj : j = i <;> simp [hj]

theorem count_erased {c c1 : Circuit} {i n : NodeId}
    (ho : ∀ j, (c1.node j).outputs =
      if j = i then (c.node j).outputs.erase n else (c.node j).outputs) (j b : NodeId) :
    (c1.node j).outputs.count b =
      (c.node j).outputs.count b - if b = n ∧ j = i then 1 else 0 := by
  rw [ho]
  by_cases hj : j = i
  · subst hj
    by_cases hb : b = n
    · subst hb; simp [List.count_erase_self]
    · simp [hb, List.count_erase_of_ne hb]
  · simp [hj]

/-- Erasing `n` once for every element of `l` from the fanouts of that element. -/
theorem eraseOutputs_spec (n : NodeId) : ∀ {l : List NodeId} {c : Circuit},
    (∀ i, l.count i ≤ (c.node i).outputs.count n) →
    ∃ c', l.foldlM (fun c i => c.eraseOutput i n) c = some c' ∧ OutputsOnly c c' ∧
      ∀ i, (c'.node i).outputs.Sublist (c.node i).outputs ∧ ∀ b, (c'.node i).outputs.count b =
        (c.node i).outputs.count b - if b = n then l.count i else 0
  | [], c, _ => ⟨c, rfl, .refl c, fun i => ⟨List.Sublist.refl _, fun b => by simp⟩⟩
  | i :: l, c, h => by
    have hi : n ∈ (c.node i).outputs := by
      have := h i
      rw [List.count_cons_self] at this
      exact List.count_pos_iff.1 (by omega)
    obtain ⟨c1, h1, hf1, ho1⟩ := eraseOutput_spec hi
    have hcount := count_erased ho1
    obtain ⟨c2, h2, hf2, ho2⟩ := eraseOutputs_spec n (l := l) (c := c1) fun j => by
      have := h j
      rw [hcount, List.count_cons] at *
      by_cases hj : j = i
      · subst hj; simp at this ⊢; omega
      · simp [hj, Ne.symm hj] at this ⊢; omega
    refine ⟨c2, by rw [List.foldlM_cons, h1]; exact h2, hf1.trans hf2, fun j => ?_⟩
    refine ⟨(ho2 j).1.trans ?_, fun b => ?_⟩
    · rw [ho1]
      split
      · exact List.erase_sublist
      · exact List.Sublist.refl _
    · rw [(ho2 j).2 b, hcount, List.count_cons]
      by_cases hb : b = n
      · by_cases hj : j = i
        · subst hj; simp [hb]; omega
        · simp [hb, hj, Ne.symm hj]
      · simp [hb]

theorem pushOutputs_spec (n : NodeId) : ∀ (l : List NodeId) (c : Circuit),
    OutputsOnly c (l.foldl (fun c i => c.pushOutput i n) c) ∧
      ∀ i, ((l.foldl (fun c i => c.pushOutput i n) c).node i).outputs =
        (c.node i).outputs ++ List.replicate (l.count i) n
  | [], c => ⟨.refl c, fun i => by simp⟩
  | i :: l, c => by
    obtain ⟨hf, ho⟩ := pushOutputs_spec n l (c.pushOutput i n)
    refine ⟨(outputsOnly_modNode c i (· ++ [n])).trans hf, fun j => ?_⟩
    rw [List.foldl_cons, ho, List.count_cons, pushOutput, modNode_node]
    by_cases hj : j = i
    · subst hj
      simp [List.replicate_succ]
    · simp [hj, Ne.symm hj]

/-! ## SetTargets -/

/-- What `SetTargets` on one node does. -/
structure TargetSet (c c' : Circuit) (t : NodeId) : Prop where
  node : ∀ i, i ≠ t → c'.node i = { c.node i with outputs := (c'.node i).outputs }
  target : c'.node t = { c.node t with
    inputs := [], inputsPre := (c.node t).inputs, cube := "", cubePre := (c.node t).cube,
    outputs := (c'.node t).outputs }
  outputs : ∀ i, (c'.node i).outputs.Sublist (c.node i).outputs ∧ ∀ b, (c'.node i).outputs.count b =
    (c.node i).outputs.count b - if b = t then (c.node t).inputs.count i else 0
  rest : c' = { c with node := c'.node, targets := c.targets ++ [t] }

theorem setTarget_spec {c : Circuit} {t : NodeId} (h : c.Mirror) (ht : t ∈ c.allNodes) :
    ∃ c', c.setTarget t = some c' ∧ TargetSet c c' t := by
  obtain ⟨c1, h1, hf, ho⟩ := eraseOutputs_spec t (h.count_le ht)
  refine ⟨_, by rw [setTarget, h1]; rfl, fun i hi => ?_, ?_, fun i => ?_, ?_⟩
  · simp only [modNode_node, if_neg hi]; exact hf.node i
  · simp only [modNode_node, if_true, hf.inputs, hf.cube]
    rw [hf.node t]
  · simp only [modNode_node]
    have : ((if i = t then { c1.node i with
        inputsPre := (c1.node i).inputs, inputs := [], cubePre := (c1.node i).cube, cube := "" }
        else c1.node i).outputs) = (c1.node i).outputs := by split <;> rfl
    rw [this]
    exact ho i
  · simp only [modNode]
    rw [hf.rest]

namespace TargetSet

variable {c c' : Circuit} {t : NodeId} (h : TargetSet c c' t)
include h

theorem allNodes : c'.allNodes = c.allNodes := by rw [h.rest]
theorem allClusters : c'.allClusters = c.allClusters := by rw [h.rest]
theorem cluster : c'.cluster = c.cluster := by rw [h.rest]
theorem targets : c'.targets = c.targets ++ [t] := by rw [h.rest]
theorem pis : c'.inputs = c.inputs := by rw [h.rest]
theorem pos : c'.outputs = c.outputs := by rw [h.rest]
theorem allNodesMap : c'.allNodesMap = c.allNodesMap := by rw [h.rest]
theorem inputs_self : (c'.node t).inputs = [] := by rw [h.target]
theorem inputsPre_self : (c'.node t).inputsPre = (c.node t).inputs := by rw [h.target]
theorem inputs {i : NodeId} (hi : i ≠ t) : (c'.node i).inputs = (c.node i).inputs := by
  rw [h.node i hi]
theorem cube {i : NodeId} (hi : i ≠ t) : (c'.node i).cube = (c.node i).cube := by
  rw [h.node i hi]
theorem isInput (i : NodeId) : (c'.node i).isInput = (c.node i).isInput := by
  by_cases hi : i = t
  · subst hi; rw [h.target]
  · rw [h.node i hi]
theorem isOutput (i : NodeId) : (c'.node i).isOutput = (c.node i).isOutput := by
  by_cases hi : i = t
  · subst hi; rw [h.target]
  · rw [h.node i hi]
theorem myCluster (i : NodeId) : (c'.node i).myCluster = (c.node i).myCluster := by
  by_cases hi : i = t
  · subst hi; rw [h.target]
  · rw [h.node i hi]
theorem name (i : NodeId) : (c'.node i).name = (c.node i).name := by
  by_cases hi : i = t
  · subst hi; rw [h.target]
  · rw [h.node i hi]

theorem mem_inputs {i n : NodeId} : i ∈ (c'.node n).inputs ↔ n ≠ t ∧ i ∈ (c.node n).inputs := by
  by_cases hn : n = t
  · subst hn; simp [h.inputs_self]
  · simp [h.inputs hn, hn]

/-- **The edges stay mirrored.** -/
theorem mirror (hm : c.Mirror) (ht : t ∈ c.allNodes) : c'.Mirror where
  nodup := h.allNodes ▸ hm.nodup
  closed n hn i hi := by
    rw [h.allNodes] at hn ⊢
    exact hm.closed n hn i (h.mem_inputs.1 hi).2
  outs n hn m hmem := by
    rw [h.allNodes] at hn ⊢
    exact hm.outs n hn m ((h.outputs n).1.mem hmem)
  count a ha b hb := by
    rw [h.allNodes] at ha hb
    rw [(h.outputs a).2 b, ← hm.count a ha b hb]
    by_cases hb' : b = t
    · subst hb'; simp [h.inputs_self]
    · simp [h.inputs hb', hb']

end TargetSet

/-! ## Restruct -/

/-- What `Restruct` of a node without inputs does; `keys` are the new inputs. -/
structure Restructed (c c' : Circuit) (t : NodeId) (keys : List NodeId) (cube : String) : Prop where
  node : ∀ i, i ≠ t → c'.node i = { c.node i with outputs := (c'.node i).outputs }
  target : c'.node t = { c.node t with
    inputs := (c.node t).inputs ++ keys, cube := cube, outputs := (c'.node t).outputs }
  outputs : ∀ i, (c'.node i).outputs = (c.node i).outputs ++ List.replicate (keys.count i) t
  rest : c' = { c with node := c'.node, targets := c.targets.erase t }

theorem restruct_loop (t : NodeId) : ∀ (l : List (NodeId × Bool)) (c : Circuit),
    let c' := l.foldl (fun c pair => (c.pushOutput pair.1 t).modNode t fun nd =>
      { nd with inputs := nd.inputs ++ [pair.1] }) c
    Restructed { c with targets := c.targets } { c' with targets := c.targets.erase t } t
      (l.map Prod.fst) (c.node t).cube ∧ c'.targets = c.targets
  | [], c => ⟨⟨fun _ _ => rfl, by simp, fun _ => by simp, rfl⟩, rfl⟩
  | p :: l, c => by
    obtain ⟨⟨hn, ht, ho, hr⟩, htg⟩ := restruct_loop t l ((c.pushOutput p.1 t).modNode t fun nd =>
      { nd with inputs := nd.inputs ++ [p.1] })
    refine ⟨⟨fun i hi => ?_, ?_, fun i => ?_, ?_⟩, ?_⟩
    · simp only [List.foldl_cons]
      have := hn i hi
      simp only [modNode_node, pushOutput, if_neg hi] at this ⊢
      rw [this]
      by_cases hi' : i = p.1 <;> simp [hi']
    · simp only [List.foldl_cons]
      simp only [modNode_node, pushOutput, if_true] at ht ⊢
      rw [ht]
      by_cases hi' : t = p.1 <;> simp [hi']
    · simp only [List.foldl_cons]
      have := ho i
      simp only [modNode_node, pushOutput] at this ⊢
      rw [this, List.map_cons, List.count_cons]
      by_cases hi : i = p.1
      · by_cases hit : i = t
        · subst hit; simp [← hi, List.replicate_succ]
        · subst hi; simp [hit, List.replicate_succ]
      · by_cases hit : i = t
        · subst hit; simp [hi, Ne.symm hi]
        · simp [hi, hit, Ne.symm hi]
    · simp only [List.foldl_cons]
      simpa [pushOutput, modNode] using hr
    · simpa [pushOutput] using htg

theorem restruct_spec {c : Circuit} {t : NodeId} {m : OrdMap NodeId Bool}
    {cases : List (OrdMap NodeId Bool)} (ht : t ∈ c.targets) :
    ∃ c', c.restruct t (m :: cases) = some c' ∧
      Restructed c c' t m.keys (writeCube (m :: cases)) := by
  obtain ⟨⟨hn, htar, ho, hr⟩, htg⟩ := restruct_loop t m.entries { c with targets := c.targets.erase t }
  refine ⟨_, by rw [restruct, if_pos ht], fun i hi => ?_, ?_, fun i => ?_, ?_⟩
  · simp only [modNode_node, if_neg hi]
    exact hn i hi
  · simp only [modNode_node, if_true]
    simp only at htar
    rw [htar]
    rfl
  · simp only [modNode_node]
    have := ho i
    simp only at this
    split <;> simp [this, OrdMap.keys]
  · simp only [modNode]
    have h2 := hr
    simp only at h2 htg
    rw [Circuit.mk.injEq] at h2 ⊢
    simp only at h2 ⊢
    tauto

namespace Restructed

variable {c c' : Circuit} {t : NodeId} {keys : List NodeId} {cube : String}
  (h : Restructed c c' t keys cube)
include h

theorem allNodes : c'.allNodes = c.allNodes := by rw [h.rest]
theorem allClusters : c'.allClusters = c.allClusters := by rw [h.rest]
theorem cluster : c'.cluster = c.cluster := by rw [h.rest]
theorem targets : c'.targets = c.targets.erase t := by rw [h.rest]
theorem pis : c'.inputs = c.inputs := by rw [h.rest]
theorem pos : c'.outputs = c.outputs := by rw [h.rest]
theorem allNodesMap : c'.allNodesMap = c.allNodesMap := by rw [h.rest]
theorem inputs {i : NodeId} (hi : i ≠ t) : (c'.node i).inputs = (c.node i).inputs := by
  rw [h.node i hi]
theorem inputs_self : (c'.node t).inputs = (c.node t).inputs ++ keys := by rw [h.target]
theorem cube_self : (c'.node t).cube = cube := by rw [h.target]
theorem cube_other {i : NodeId} (hi : i ≠ t) : (c'.node i).cube = (c.node i).cube := by
  rw [h.node i hi]
theorem inputsPre (i : NodeId) : (c'.node i).inputsPre = (c.node i).inputsPre := by
  by_cases hi : i = t
  · subst hi; rw [h.target]
  · rw [h.node i hi]
theorem isInput (i : NodeId) : (c'.node i).isInput = (c.node i).isInput := by
  by_cases hi : i = t
  · subst hi; rw [h.target]
  · rw [h.node i hi]
theorem isOutput (i : NodeId) : (c'.node i).isOutput = (c.node i).isOutput := by
  by_cases hi : i = t
  · subst hi; rw [h.target]
  · rw [h.node i hi]
theorem myCluster (i : NodeId) : (c'.node i).myCluster = (c.node i).myCluster := by
  by_cases hi : i = t
  · subst hi; rw [h.target]
  · rw [h.node i hi]
theorem name (i : NodeId) : (c'.node i).name = (c.node i).name := by
  by_cases hi : i = t
  · subst hi; rw [h.target]
  · rw [h.node i hi]

/-- **The edges stay mirrored.** -/
theorem mirror (hm : c.Mirror) (ht : t ∈ c.allNodes) (hk : ∀ i ∈ keys, i ∈ c.allNodes) :
    c'.Mirror where
  nodup := h.allNodes ▸ hm.nodup
  closed n hn i hi := by
    rw [h.allNodes] at hn ⊢
    by_cases hnt : n = t
    · subst hnt
      rw [h.inputs_self, List.mem_append] at hi
      exact hi.elim (hm.closed n hn i) (hk i)
    · exact hm.closed n hn i (h.inputs hnt ▸ hi)
  outs n hn m hmem := by
    rw [h.allNodes] at hn ⊢
    rw [h.outputs, List.mem_append] at hmem
    rcases hmem with h1 | h1
    · exact hm.outs n hn m h1
    · rw [(List.mem_replicate.1 h1).2]; exact ht
  count a ha b hb := by
    rw [h.allNodes] at ha hb
    rw [h.outputs, List.count_append, ← hm.count a ha b hb, List.count_replicate]
    by_cases hbt : b = t
    · subst hbt; simp [h.inputs_self]
    · simp [h.inputs hbt, Ne.symm hbt]

end Restructed

/-! ## Restore -/

/-- What `Restore` of a node set to target does. -/
structure Restored (c c' : Circuit) (t : NodeId) : Prop where
  node : ∀ i, i ≠ t → c'.node i = { c.node i with outputs := (c'.node i).outputs }
  target : c'.node t = { c.node t with
    inputs := (c.node t).inputsPre, inputsPre := [], cube := (c.node t).cubePre, cubePre := "",
    outputs := (c'.node t).outputs }
  outputs : ∀ i, (c'.node i).outputs =
    (c.node i).outputs ++ List.replicate ((c.node t).inputsPre.count i) t
  rest : c' = { c with node := c'.node }

theorem restoreTarget_spec {c : Circuit} {t : NodeId} (ht : (c.node t).inputs = []) :
    ∃ c', c.restoreTarget t = some c' ∧ Restored c c' t := by
  set c1 := c.modNode t fun nd =>
    { nd with cube := nd.cubePre, cubePre := "", inputs := nd.inputsPre, inputsPre := [] } with hc1
  obtain ⟨hf, ho⟩ := pushOutputs_spec t (c1.node t).inputs c1
  have hout : ∀ i, (c1.node i).outputs = (c.node i).outputs := fun i => by
    simp only [hc1, modNode_node]; split <;> rfl
  have hin : (c1.node t).inputs = (c.node t).inputsPre := by simp [hc1]
  refine ⟨_, by rw [restoreTarget, ht]; rfl, fun i hi => ?_, ?_, fun i => ?_, ?_⟩
  · rw [hf.node i]; simp [hc1, hi]
  · rw [hf.node t]; simp [hc1]
  · rw [ho, hout, hin]
  · rw [hf.rest]; rfl

namespace Restored

variable {c c' : Circuit} {t : NodeId} (h : Restored c c' t)
include h

theorem allNodes : c'.allNodes = c.allNodes := by rw [h.rest]
theorem allClusters : c'.allClusters = c.allClusters := by rw [h.rest]
theorem cluster : c'.cluster = c.cluster := by rw [h.rest]
theorem targets : c'.targets = c.targets := by rw [h.rest]
theorem pis : c'.inputs = c.inputs := by rw [h.rest]
theorem pos : c'.outputs = c.outputs := by rw [h.rest]
theorem allNodesMap : c'.allNodesMap = c.allNodesMap := by rw [h.rest]
theorem inputs {i : NodeId} (hi : i ≠ t) : (c'.node i).inputs = (c.node i).inputs := by
  rw [h.node i hi]
theorem inputs_self : (c'.node t).inputs = (c.node t).inputsPre := by rw [h.target]

/-- **The edges stay mirrored.** -/
theorem mirror (hm : c.Mirror) (ht : t ∈ c.allNodes) (hin : (c.node t).inputs = [])
    (hk : ∀ i ∈ (c.node t).inputsPre, i ∈ c.allNodes) : c'.Mirror where
  nodup := h.allNodes ▸ hm.nodup
  closed n hn i hi := by
    rw [h.allNodes] at hn ⊢
    by_cases hnt : n = t
    · subst hnt
      exact hk i (h.inputs_self ▸ hi)
    · exact hm.closed n hn i (h.inputs hnt ▸ hi)
  outs n hn m hmem := by
    rw [h.allNodes] at hn ⊢
    rw [h.outputs, List.mem_append] at hmem
    rcases hmem with h1 | h1
    · exact hm.outs n hn m h1
    · rw [(List.mem_replicate.1 h1).2]; exact ht
  count a ha b hb := by
    rw [h.allNodes] at ha hb
    rw [h.outputs, List.count_append, ← hm.count a ha b hb, List.count_replicate]
    by_cases hbt : b = t
    · subst hbt; simp [h.inputs_self, hin]
    · simp [h.inputs hbt, Ne.symm hbt]

end Restored

end Msyn.Nodecircuit.Circuit
