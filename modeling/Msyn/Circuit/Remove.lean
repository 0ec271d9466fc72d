import Msyn.Circuit.Edges

/-!
# Deleting dead logic

`Remove` deletes a node without fanouts and recurses into the fanins that lose their last fanout.
While the fanins of a deleted node are processed, the circuit still has *pending* edges: fanout
entries of nodes that are gone. `Stripped c₀ D c P` says what a circuit `c` reached from `c₀` by
deletions looks like: only nodes of `D` are gone, and the fanout lists hold the edges of `c` and
the pending edges `P`.

* `removeF_spec`: from such a circuit, `Remove` of a node of `D` without fanouts succeeds, keeps
  `Stripped`, and leaves no internal node without fanouts that had some in `c₀` (`Clean`).
* `Part c`: the clusters partition the nodes that are not primary inputs; `Remove` keeps it.
-/

namespace Msyn.Nodecircuit.Circuit

/-! ## The clusters as a partition -/

/-- The `nodes_c` of the clusters partition the non-input nodes, and `my_cluster` names the block. -/
structure Part (c : Circuit) : Prop where
  nodup : c.allClusters.Nodup
  nodesNodup : ∀ k ∈ c.allClusters, (c.cluster k).nodesC.Nodup
  nonempty : ∀ k ∈ c.allClusters, (c.cluster k).nodesC ≠ []
  mem : ∀ k ∈ c.allClusters, ∀ n ∈ (c.cluster k).nodesC,
    n ∈ c.allNodes ∧ (c.node n).isInput = false ∧ (c.node n).myCluster = k
  covers : ∀ n ∈ c.allNodes, (c.node n).isInput = false →
    (c.node n).myCluster ∈ c.allClusters ∧ n ∈ (c.cluster (c.node n).myCluster).nodesC

theorem Part.mem_iff {c : Circuit} (h : c.Part) {k : ClusterId} {n : NodeId}
    (hk : k ∈ c.allClusters) : n ∈ (c.cluster k).nodesC ↔
      n ∈ c.allNodes ∧ (c.node n).isInput = false ∧ (c.node n).myCluster = k :=
  ⟨h.mem k hk n, fun ⟨hn, hi, hk'⟩ => hk' ▸ (h.covers n hn hi).2⟩

section
variable {c : Circuit} {n : NodeId} (h : c.Part) (hnd : c.allNodes.Nodup)
include h hnd

/-- The clusters partition the nodes without `n` if they are left with their other members. -/
theorem Part.without {c2 : Circuit} (hnode : c2.node = c.node)
    (hall : c2.allNodes = c.allNodes.erase n) (hsub : c2.allClusters.Sublist c.allClusters)
    (hnodup : ∀ k ∈ c2.allClusters, (c2.cluster k).nodesC.Nodup)
    (hmem : ∀ k ∈ c2.allClusters, ∀ m,
      m ∈ (c2.cluster k).nodesC ↔ m ∈ (c.cluster k).nodesC ∧ m ≠ n)
    (hstay : ∀ m ∈ c.allNodes, m ≠ n → (c.node m).isInput = false →
      (c.node m).myCluster ∈ c2.allClusters)
    (hother : ∀ k ∈ c2.allClusters, ∃ m ∈ (c.cluster k).nodesC, m ≠ n) : c2.Part where
  nodup := h.nodup.sublist hsub
  nodesNodup := hnodup
  nonempty k hk := by
    obtain ⟨m, hm, hmn⟩ := hother k hk
    exact List.ne_nil_of_mem ((hmem k hk m).2 ⟨hm, hmn⟩)
  mem k hk m hm := by
    obtain ⟨hmk, hmn⟩ := (hmem k hk m).1 hm
    obtain ⟨h1, h2, h3⟩ := h.mem k (hsub.mem hk) m hmk
    rw [hall, hnode]
    exact ⟨(List.mem_erase_of_ne hmn).2 h1, h2, h3⟩
  covers m hm hmi := by
    rw [hall, hnd.mem_erase_iff] at hm
    rw [hnode] at hmi ⊢
    have hk := hstay m hm.2 hm.1 hmi
    exact ⟨hk, (hmem _ hk m).2 ⟨(h.covers m hm.2 hmi).2, hm.1⟩⟩

/-- `n` leaves its cluster and `all_nodes`: the clusters partition what is left. -/
theorem drop_spec (hn : n ∈ c.allNodes) (hi : (c.node n).isInput = false) :
    ∃ c1 c2, c.dropFromCluster n = some c1 ∧ c1.dropNode n = some c2 ∧
      c2 = { c with
        allNodes := c.allNodes.erase n, allClusters := c2.allClusters, cluster := c2.cluster } ∧
      (∀ k, (c2.cluster k).inputNodes = (c.cluster k).inputNodes ∧
        (c2.cluster k).name = (c.cluster k).name) ∧
      c2.allClusters.Sublist c.allClusters ∧ c2.Part := by
  obtain ⟨hk, hmem⟩ := h.covers n hn hi
  set k := (c.node n).myCluster with hkdef
  -- `n` is in no other cluster
  have hnot : ∀ j ∈ c.allClusters, j ≠ k → ∀ m ∈ (c.cluster j).nodesC, m ≠ n :=
    fun j hj hjk m hm he => hjk ((h.mem j hj m hm).2.2.symm.trans (he ▸ hkdef.symm))
  by_cases hl : (c.cluster k).nodesC.length ≠ 1
  · -- the cluster keeps another node
    have h1 : c.dropFromCluster n = some (c.modCluster k fun clst =>
        { clst with nodesC := clst.nodesC.erase n }) := by
      simp only [dropFromCluster, ← hkdef, if_pos hl, if_pos hmem]
    refine ⟨_, _, h1, if_pos hn, rfl, fun j => ?_, List.Sublist.refl _,
      h.without hnd rfl rfl (List.Sublist.refl _) (fun j hj => ?_) (fun j hj m => ?_)
        (fun m hm _ hmi => (h.covers m hm hmi).1) fun j hj => ?_⟩
    · simp only [modCluster_cluster]
      split <;> exact ⟨rfl, rfl⟩
    · simp only [modCluster_cluster]
      split
      · exact (h.nodesNodup j hj).erase n
      · exact h.nodesNodup j hj
    · simp only [modCluster_cluster]
      split
      · rw [(h.nodesNodup j hj).mem_erase_iff, and_comm]
      · rename_i hjk
        exact (and_iff_left_of_imp (hnot j hj hjk m)).symm
    · by_cases hjk : j = k
      · by_contra hall
        push Not at hall
        refine hl ?_
        rw [← hjk] at hmem ⊢
        exact List.length_eq_one_iff.2 ⟨n, List.perm_singleton.1
          ((List.perm_ext_iff_of_nodup (h.nodesNodup j hj) (List.nodup_singleton n)).2 fun m =>
            ⟨fun hm => List.mem_singleton.2 (hall m hm), fun hm => List.mem_singleton.1 hm ▸ hmem⟩)⟩
      · obtain ⟨m, hm⟩ := List.exists_mem_of_ne_nil _ (h.nonempty j hj)
        exact ⟨m, hm, hnot j hj hjk m hm⟩
  · -- the node was the whole cluster
    have h1 : c.dropFromCluster n = some { c with allClusters := c.allClusters.erase k } := by
      simp only [dropFromCluster, ← hkdef, if_neg hl, if_pos hk]
    have hsing : (c.cluster k).nodesC = [n] := by
      obtain ⟨a, ha⟩ := List.length_eq_one_iff.1 (not_not.1 hl)
      rw [ha, List.mem_singleton] at hmem
      rw [ha, hmem]
    have hsub : ∀ j ∈ c.allClusters.erase k, j ∈ c.allClusters ∧ j ≠ k := fun j hj =>
      (h.nodup.mem_erase_iff.1 hj).symm
    refine ⟨_, _, h1, if_pos hn, rfl, fun _ => ⟨rfl, rfl⟩, List.erase_sublist,
      h.without hnd rfl rfl List.erase_sublist (fun j hj => h.nodesNodup j (hsub j hj).1)
        (fun j hj m => (and_iff_left_of_imp (hnot j (hsub j hj).1 (hsub j hj).2 m)).symm)
        (fun m hm hmn hmi => ?_) fun j hj => ?_⟩
    · obtain ⟨h2, h3⟩ := h.covers m hm hmi
      refine (List.mem_erase_of_ne fun he => hmn ?_).2 h2
      have h4 : m ∈ (c.cluster k).nodesC := he ▸ h3
      rwa [hsing, List.mem_singleton] at h4
    · obtain ⟨hj, hjk⟩ := hsub j hj
      obtain ⟨m, hm⟩ := List.exists_mem_of_ne_nil _ (h.nonempty j hj)
      exact ⟨m, hm, hnot j hj hjk m hm⟩

end

/-- `Remove` of a node that is not in the circuit is undefined. -/
theorem remove_gone {c : Circuit} {n : NodeId} (hn : n ∉ c.allNodes) : c.remove n = none := by
  have hdrop : ∀ c', c.dropFromCluster n = some c' → c'.allNodes = c.allNodes := by
    intro c' h
    simp only [dropFromCluster] at h
    split at h
    · split at h <;> cases h
      rfl
    · split at h <;> cases h
      rfl
  unfold remove
  cases c.allNodes.length with
  | zero => rfl
  | succ fuel =>
    rw [removeF]
    split
    · cases h : c.dropFromCluster n with
      | none => rfl
      | some c' =>
        simp only [Option.bind_eq_bind, Option.bind_some, dropNode, hdrop c' h, if_neg hn]
        rfl
    · rfl

/-! ## Circuits reached by deletions -/

/-- Neither a primary input nor a primary output. -/
def Internal (c : Circuit) (n : NodeId) : Prop :=
  (c.node n).isInput = false ∧ (c.node n).isOutput = false

instance (c : Circuit) (n : NodeId) : Decidable (c.Internal n) := inferInstanceAs (Decidable (_ ∧ _))

/-- Internal nodes only; with all its fanouts, and at least one, a node is in. -/
structure DeadSet (c : Circuit) (D : NodeId → Prop) : Prop where
  internal : ∀ n, D n → c.Internal n
  closed : ∀ n ∈ c.allNodes, c.Internal n → (c.node n).outputs ≠ [] →
    (∀ m ∈ (c.node n).outputs, D m) → D n

/-- The edges `P` and, for every `a`, the edges to `n` from the elements of `l`. -/
def pendWith (P : NodeId → NodeId → Nat) (n : NodeId) (l : List NodeId) : NodeId → NodeId → Nat :=
  fun a b => if b = n then l.count a else P a b

/-- `c` is `c₀` without some nodes of `D`, with pending edges `P` (module doc). -/
structure Stripped (c₀ : Circuit) (D : NodeId → Prop) (c : Circuit) (P : NodeId → NodeId → Nat) :
    Prop where
  node : ∀ i, c.node i = { c₀.node i with outputs := (c.node i).outputs }
  clusters : ∀ k, (c.cluster k).inputNodes = (c₀.cluster k).inputNodes ∧
    (c.cluster k).name = (c₀.cluster k).name
  away : ∀ n, n ∉ c₀.allNodes → (c.node n).outputs = (c₀.node n).outputs
  targets : c.targets = c₀.targets
  pos : c.outputs = c₀.outputs
  pis : c.inputs = c₀.inputs
  allNodesMap : c.allNodesMap = c₀.allNodesMap
  nodup : c.allNodes.Nodup
  sub : c.allNodes.Sublist c₀.allNodes
  subClusters : c.allClusters.Sublist c₀.allClusters
  dead : ∀ n ∈ c₀.allNodes, n ∉ c.allNodes → D n ∧ (c.node n).outputs = []
  part : c.Part
  closed : c.Closed
  count : ∀ a ∈ c.allNodes, ∀ b, (c.node a).outputs.count b =
    if b ∈ c.allNodes then (c.node b).inputs.count a else P a b
  pend : ∀ a b, 0 < P a b → a ∈ c.allNodes ∧ b ∉ c.allNodes ∧ b ∈ c₀.allNodes

/-- No internal node but `n` lost its last fanout. -/
def CleanBut (c₀ c : Circuit) (n : NodeId) : Prop :=
  ∀ a ∈ c.allNodes, c₀.Internal a → (c.node a).outputs = [] → (c₀.node a).outputs = [] ∨ a = n

/-- No internal node lost its last fanout. -/
def Clean (c₀ c : Circuit) : Prop :=
  ∀ a ∈ c.allNodes, c₀.Internal a → (c.node a).outputs = [] → (c₀.node a).outputs = []

section
variable {c₀ c : Circuit} {D : NodeId → Prop} {P : NodeId → NodeId → Nat}

theorem Stripped.inputs (h : Stripped c₀ D c P) (i : NodeId) :
    (c.node i).inputs = (c₀.node i).inputs := by rw [h.node i]
theorem Stripped.isInput (h : Stripped c₀ D c P) (i : NodeId) :
    (c.node i).isInput = (c₀.node i).isInput := by rw [h.node i]
theorem Stripped.isOutput (h : Stripped c₀ D c P) (i : NodeId) :
    (c.node i).isOutput = (c₀.node i).isOutput := by rw [h.node i]
theorem Stripped.myCluster (h : Stripped c₀ D c P) (i : NodeId) :
    (c.node i).myCluster = (c₀.node i).myCluster := by rw [h.node i]

/-- Nothing deleted yet. -/
theorem Stripped.start (hm : c₀.Mirror) (hp : c₀.Part) : Stripped c₀ D c₀ (fun _ _ => 0) where
  node _ := rfl
  clusters _ := ⟨rfl, rfl⟩
  away _ _ := rfl
  targets := rfl
  pos := rfl
  pis := rfl
  allNodesMap := rfl
  nodup := hm.nodup
  sub := List.Sublist.refl _
  subClusters := List.Sublist.refl _
  dead n hn hn' := absurd hn hn'
  part := hp
  closed := hm.closed
  count a ha b := by
    split
    · rename_i hb; rw [hm.count a ha b hb]
    · rename_i hb
      exact List.count_eq_zero_of_not_mem fun h => hb (hm.outs a ha b h)
  pend a b h := by omega

/-- Without pending edges the edges are mirrored. -/
theorem Stripped.mirror (h : Stripped c₀ D c fun _ _ => 0) : c.Mirror where
  nodup := h.nodup
  closed := h.closed
  outs n hn m hm := by
    have := h.count n hn m
    by_contra hmc
    rw [if_neg hmc] at this
    exact List.count_eq_zero.1 this hm
  count a ha b hb := by rw [h.count a ha b, if_pos hb]

/-- An internal node all of whose fanouts in `c₀` are gone is dead. -/
theorem Stripped.dead_of_empty (h : Stripped c₀ D c P) (hD : DeadSet c₀ D) (hm : c₀.Mirror)
    {i : NodeId} (hi : i ∈ c.allNodes) (hint : c₀.Internal i) (ho : (c.node i).outputs = [])
    (hne : (c₀.node i).outputs ≠ []) : D i := by
  have hi₀ := h.sub.mem hi
  refine hD.closed i hi₀ hint hne fun m hmem => ?_
  have hm₀ := hm.outs i hi₀ m hmem
  by_contra hDm
  have hmc : m ∈ c.allNodes := by
    by_contra hmc
    exact hDm (h.dead m hm₀ hmc).1
  have := h.count i hi m
  rw [ho, List.count_nil, if_pos hmc, h.inputs, hm.count i hi₀ m hm₀] at this
  exact List.count_eq_zero.1 this.symm hmem

/-- The node leaves; its fanin edges become pending. -/
theorem Stripped.drop (h : Stripped c₀ D c P) {n : NodeId} (hn : n ∈ c.allNodes)
    (ho : (c.node n).outputs = []) (hDn : D n) (hint : c₀.Internal n) :
    ∃ c1 c2, c.dropFromCluster n = some c1 ∧ c1.dropNode n = some c2 ∧ c2.node = c.node ∧
      c2.allNodes = c.allNodes.erase n ∧ Stripped c₀ D c2 (pendWith P n (c₀.node n).inputs) := by
  obtain ⟨c1, c2, h1, h2, h3, h4, h5, h6⟩ :=
    drop_spec h.part h.nodup hn (by rw [h.isInput]; exact hint.1)
  have hnode : c2.node = c.node := by rw [h3]
  have hall : c2.allNodes = c.allNodes.erase n := by rw [h3]
  have hmem : ∀ {a}, a ∈ c2.allNodes ↔ a ≠ n ∧ a ∈ c.allNodes := by
    intro a; rw [hall]; exact h.nodup.mem_erase_iff
  have hself : ∀ m ∈ c.allNodes, n ∉ (c.node m).inputs := by
    intro m hm hin
    have := h.count n hn m
    rw [ho, List.count_nil, if_pos hm] at this
    exact List.count_eq_zero.1 this.symm hin
  have hnP : ∀ b, P n b = 0 := by
    intro b
    by_contra hpos
    obtain ⟨-, hb, -⟩ := h.pend n b (Nat.pos_of_ne_zero hpos)
    have := h.count n hn b
    rw [ho, List.count_nil, if_neg hb] at this
    exact hpos this.symm
  refine ⟨c1, c2, h1, h2, hnode, hall, ?_⟩
  refine ⟨fun i => by rw [hnode]; exact h.node i, fun k => ?_,
    fun m hm => by rw [hnode]; exact h.away m hm, by rw [h3]; exact h.targets,
    by rw [h3]; exact h.pos, by rw [h3]; exact h.pis, by rw [h3]; exact h.allNodesMap, ?_, ?_,
    h5.trans h.subClusters, fun m hm hm' => ?_, h6, fun m hm i hi => ?_, fun a ha b => ?_,
    fun a b hp => ?_⟩
  · exact ⟨(h4 k).1.trans (h.clusters k).1, (h4 k).2.trans (h.clusters k).2⟩
  · rw [hall]; exact h.nodup.erase n
  · rw [hall]; exact List.erase_sublist.trans h.sub
  · rw [hnode]
    by_cases hmn : m = n
    · subst hmn; exact ⟨hDn, ho⟩
    · exact h.dead m hm fun hc => hm' (hmem.2 ⟨hmn, hc⟩)
  · rw [hnode] at hi
    obtain ⟨-, hm⟩ := hmem.1 hm
    exact hmem.2 ⟨fun he => hself m hm (he ▸ hi), h.closed m hm i hi⟩
  · obtain ⟨-, ha⟩ := hmem.1 ha
    rw [hnode, h.count a ha b, pendWith]
    by_cases hb : b = n
    · subst hb
      rw [if_pos hn, if_neg (fun hc => (hmem.1 hc).1 rfl), if_pos rfl, h.inputs]
    · by_cases hbc : b ∈ c.allNodes
      · rw [if_pos hbc, if_pos (hmem.2 ⟨hb, hbc⟩)]
      · rw [if_neg hbc, if_neg (fun hc => hbc (hmem.1 hc).2), if_neg hb]
  · unfold pendWith at hp
    split at hp
    · rename_i hb
      have ha : a ∈ (c.node n).inputs := by rw [h.inputs]; exact List.count_pos_iff.1 hp
      refine ⟨hmem.2 ⟨fun he => hself n hn (he ▸ ha), h.closed n hn a ha⟩, fun hc => ?_, ?_⟩
      · exact (hmem.1 hc).1 hb
      · exact hb ▸ h.sub.mem hn
    · obtain ⟨h1, h2, h3⟩ := h.pend a b hp
      refine ⟨hmem.2 ⟨fun he => ?_, h1⟩, fun hc => h2 (hmem.1 hc).2, h3⟩
      rw [he, hnP] at hp
      omega

/-- One pending edge is erased. -/
theorem Stripped.erase {n i : NodeId} {l : List NodeId}
    (h : Stripped c₀ D c (pendWith P n (i :: l))) :
    ∃ c', c.eraseOutput i n = some c' ∧ c'.allNodes = c.allNodes ∧ i ∈ c.allNodes ∧
      (∀ j, j ≠ i → (c'.node j).outputs = (c.node j).outputs) ∧
      Stripped c₀ D c' (pendWith P n l) := by
  have hpos : 0 < pendWith P n (i :: l) i n := by simp [pendWith]
  obtain ⟨hi, hn, hn₀⟩ := h.pend i n hpos
  have hmem : n ∈ (c.node i).outputs := by
    rw [← List.count_pos_iff, h.count i hi n, if_neg hn]
    exact hpos
  obtain ⟨c', h1, hf, ho⟩ := eraseOutput_spec hmem
  refine ⟨c', h1, hf.allNodes, hi, fun j hj => by rw [ho, if_neg hj], ?_⟩
  refine ⟨fun j => ?_, fun k => ?_, fun m hm => ?_, by rw [hf.targets]; exact h.targets,
    by rw [hf.pos]; exact h.pos, by rw [hf.pis]; exact h.pis,
    by rw [hf.allNodesMap]; exact h.allNodesMap, ?_, ?_, ?_, fun m hm hm' => ?_, ?_, fun m hm j hj => ?_,
    fun a ha b => ?_, fun a b hp => ?_⟩
  · rw [hf.node j, h.node j]
  · rw [hf.cluster]; exact h.clusters k
  · rw [ho, if_neg fun he : m = i => hm (he ▸ h.sub.mem hi)]
    exact h.away m hm
  · rw [hf.allNodes]; exact h.nodup
  · rw [hf.allNodes]; exact h.sub
  · rw [hf.allClusters]; exact h.subClusters
  · rw [hf.allNodes] at hm'
    obtain ⟨h2, h3⟩ := h.dead m hm hm'
    refine ⟨h2, ?_⟩
    rw [ho, if_neg fun he : m = i => hm' (he ▸ hi)]
    exact h3
  · obtain ⟨h2, h3, h4, h5, h6⟩ := h.part
    refine ⟨?_, ?_, ?_, ?_, ?_⟩ <;>
      simp only [hf.allClusters, hf.cluster, hf.allNodes, hf.isInput, hf.myCluster] <;> assumption
  · rw [hf.allNodes] at hm ⊢
    exact h.closed m hm j (hf.inputs m ▸ hj)
  · rw [hf.allNodes] at ha
    have := h.count a ha b
    rw [hf.allNodes, hf.inputs, ho]
    unfold pendWith at this ⊢
    by_cases hai : a = i
    · subst hai
      rw [if_pos rfl]
      by_cases hb : b = n
      · subst hb
        rw [if_neg hn, if_pos rfl, List.count_cons_self] at this
        rw [if_neg hn, if_pos rfl, List.count_erase_self]
        omega
      · rw [List.count_erase_of_ne hb, this, if_neg hb, if_neg hb]
    · rw [if_neg hai, this]
      simp only [List.count_cons_of_ne (Ne.symm hai)]
  · rw [hf.allNodes]
    refine h.pend a b ?_
    unfold pendWith at hp ⊢
    split
    · rename_i hb
      rw [if_pos hb] at hp
      rw [List.count_cons]
      omega
    · rename_i hb
      rwa [if_neg hb] at hp

theorem pendWith_nil {n : NodeId} (h : ∀ a, P a n = 0) : pendWith P n [] = P := by
  funext a b
  unfold pendWith
  split
  · rename_i hb; subst hb; simp [h]
  · rfl

/-- What a call of `Remove` on `n` achieves. -/
structure Deleted (c₀ : Circuit) (D : NodeId → Prop) (P : NodeId → NodeId → Nat) (c c' : Circuit)
    (n : NodeId) : Prop where
  stripped : Stripped c₀ D c' P
  clean : Clean c₀ c'
  sub : c'.allNodes.Sublist c.allNodes
  gone : n ∉ c'.allNodes

/-- Calls of `Remove` with this fuel delete dead logic. -/
def Removes (c₀ : Circuit) (D : NodeId → Prop) (fuel : Nat) : Prop :=
  ∀ {c : Circuit} {P : NodeId → NodeId → Nat} {n : NodeId},
    Stripped c₀ D c P → n ∈ c.allNodes → (c.node n).outputs = [] → D n → CleanBut c₀ c n →
    c.allNodes.length ≤ fuel → ∃ c', removeF fuel c n = some c' ∧ Deleted c₀ D P c c' n

/-- The loop over the inputs of a deleted node, one pending edge after the other. -/
theorem Removes.loop {fuel : Nat} (hrec : Removes c₀ D fuel) (hD : DeadSet c₀ D) (hm : c₀.Mirror)
    {n : NodeId} (hPn : ∀ a, P a n = 0) : ∀ (l : List NodeId) (c : Circuit),
      (∀ i ∈ l, i ∈ (c₀.node n).inputs) → Stripped c₀ D c (pendWith P n l) → Clean c₀ c →
      c.allNodes.length ≤ fuel →
      ∃ c', l.foldlM (fun c i => do
          let c ← c.eraseOutput i n
          if (c.node i).outputs = [] ∧ (c.node i).isInput = false ∧ (c.node i).isOutput = false
          then removeF fuel c i else some c) c = some c' ∧
        Stripped c₀ D c' P ∧ Clean c₀ c' ∧ c'.allNodes.Sublist c.allNodes
  | [], c, _, hc, hclc, _ => ⟨c, rfl, pendWith_nil hPn ▸ hc, hclc, List.Sublist.refl _⟩
  | i :: l, c, hin, hc, hclc, hlc => by
    obtain ⟨c3, h4, hall3, hi, hoth, h5⟩ := hc.erase
    have hclBut : CleanBut c₀ c3 i := by
      intro a ha hint hoa
      by_cases hai : a = i
      · exact .inr hai
      · rw [hoth a hai] at hoa
        exact .inl (hclc a (hall3 ▸ ha) hint hoa)
    have hlc3 : c3.allNodes.length ≤ fuel := by rw [hall3]; exact hlc
    have hin' : ∀ j ∈ l, j ∈ (c₀.node n).inputs := fun j hj => hin j (List.mem_cons_of_mem _ hj)
    rw [List.foldlM_cons, h4]
    simp only [Option.bind_eq_bind, Option.bind_some]
    by_cases hif : (c3.node i).outputs = [] ∧ (c3.node i).isInput = false ∧
        (c3.node i).isOutput = false
    · rw [if_pos hif]
      obtain ⟨hoi, hint⟩ := hif
      rw [h5.isInput, h5.isOutput] at hint
      have hi3 : i ∈ c3.allNodes := hall3 ▸ hi
      have hne : (c₀.node i).outputs ≠ [] := by
        obtain ⟨-, -, hn₀⟩ := hc.pend i n (by simp [pendWith])
        exact List.ne_nil_of_mem ((hm.mem_iff (h5.sub.mem hi3) hn₀).1 (hin i List.mem_cons_self))
      have hDi : D i := h5.dead_of_empty hD hm hi3 hint hoi hne
      obtain ⟨c4, h6, h7⟩ := hrec h5 hi3 hoi hDi hclBut hlc3
      obtain ⟨c5, h8, h9, h10, h11⟩ := hrec.loop hD hm hPn l c4 hin' h7.stripped h7.clean
        (h7.sub.length_le.trans hlc3)
      rw [h6]
      exact ⟨c5, h8, h9, h10, h11.trans (hall3 ▸ h7.sub)⟩
    · rw [if_neg hif]
      have hcl3 : Clean c₀ c3 := by
        intro a ha hint hoa
        refine (hclBut a ha hint hoa).resolve_right fun hai => hif ?_
        subst hai
        rw [h5.isInput, h5.isOutput]
        exact ⟨hoa, hint⟩
      obtain ⟨c5, h8, h9, h10, h11⟩ := hrec.loop hD hm hPn l c3 hin' h5 hcl3 hlc3
      exact ⟨c5, h8, h9, h10, hall3 ▸ h11⟩

/-- **`Remove` deletes dead logic.** -/
theorem removeF_spec (hD : DeadSet c₀ D) (hm : c₀.Mirror) : ∀ {fuel : Nat}, Removes c₀ D fuel
  | 0, c, P, n, _, hn, _, _, _, hlen => by
    have := List.length_pos_of_mem hn
    omega
  | fuel + 1, c, P, n, h, hn, ho, hDn, hcl, hlen => by
    obtain ⟨c1, c2, h1, h2, hnode, hall, h3⟩ := h.drop hn ho hDn (hD.internal n hDn)
    have hPn : ∀ a, P a n = 0 := by
      intro a
      by_contra hpos
      exact (h.pend a n (Nat.pos_of_ne_zero hpos)).2.1 hn
    have hclean2 : Clean c₀ c2 := by
      intro a ha hint hoa
      rw [hall, h.nodup.mem_erase_iff] at ha
      rw [hnode] at hoa
      exact (hcl a ha.2 hint hoa).resolve_right ha.1
    have hlen2 : c2.allNodes.length ≤ fuel := by
      rw [hall, List.length_erase_of_mem hn]
      omega
    have hrec : Removes c₀ D fuel := removeF_spec hD hm
    obtain ⟨c', h4, h5, h6, h7⟩ := hrec.loop hD hm hPn _ c2 (fun _ => id) h3 hclean2 hlen2
    refine ⟨c', ?_, h5, h6, (hall ▸ h7).trans List.erase_sublist, fun hc => ?_⟩
    · rw [removeF, if_pos ho, h1]
      simp only [Option.bind_eq_bind, Option.bind_some, h2]
      rw [h3.inputs]
      exact h4
    · exact h.nodup.not_mem_erase ((hall ▸ h7).mem hc)

end

end Msyn.Nodecircuit.Circuit
