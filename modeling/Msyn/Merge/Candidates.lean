import Msyn.Merge.Steps

/-!
# The candidates of a seed

`InitCand` returns clusters that the seed does not reach, with all their cached inputs
(`initCand_spec`), so that the seed can read any of these without closing a loop
(`initCand_acyclic`).
-/

namespace Msyn.NodeMerge

open Nodecircuit Circuit Relation

section
variable {c : Circuit} (hw : Wf c)
include hw

/-- The fanout cone of a node found by name lies in the circuit, and has no primary inputs. -/
theorem fanoutCone_of_name {s : String} {n y : NodeId} (hn : c.getNode s = some n)
    (hy : y ∈ (c.getFanoutCone n).1) : y ∈ c.allNodes ∧ (c.node y).isInput = false := by
  by_cases hnc : n ∈ c.allNodes
  · obtain ⟨hne, hr⟩ := (mem_fanoutCone hw.mirror hnc).1.1 hy
    rcases ReflTransGen.cases_tail hr with h1 | ⟨b, hb, hby⟩
    · exact absurd h1 hne
    · refine ⟨hby.1, ?_⟩
      exact hw.pisClean.fanout hw.mirror (hw.mirror.fanout hby).1 (hw.mirror.fanout hby).2
  · have ho := (hw.names s n hn).resolve_left hnc
    have h2 : 2 ≤ Worklist.fuelFor (fun x => (c.node x).outputs) c.allNodes := by
      unfold Worklist.fuelFor
      exact Nat.mul_le_mul (Nat.le_add_right 1 _) (Nat.le_add_right 2 _)
    obtain ⟨fuel, hf⟩ : ∃ fuel, Worklist.fuelFor (fun x => (c.node x).outputs) c.allNodes =
        fuel + 1 + 1 := ⟨_, (Nat.sub_add_cancel h2).symm⟩
    exfalso
    rw [getFanoutCone, hf] at hy
    simp [Worklist.drain, ho] at hy

variable {spec : Circuit} {seed : ClusterId} {cl : List ClusterId} {ci : List NodeId}

theorem initCand_cands {cands : NodeSet} {po : List NodeId} {tfo : NodeSet}
    (h : po.foldlM (fun cands nOut => do
      let nOutS ← spec.getNode (c.node nOut).name
      (spec.getFaninCone nOutS).2.elems.foldlM (fun cands nPiS => do
        let nPi ← c.getNode (spec.node nPiS).name
        some ((c.getFanoutCone nPi).1.elems.foldl (fun cands nT =>
          if nT ∈ tfo then cands else cands.insert nT) cands)) cands) (∅ : NodeSet) = some cands) :
    ∀ y ∈ cands, y ∈ c.allNodes ∧ (c.node y).isInput = false := by
  let P : NodeSet → Prop := fun s => ∀ y ∈ s, y ∈ c.allNodes ∧ (c.node y).isInput = false
  refine foldlM_inv (P := P)
    (fun s s' nOut _ hs h => ?_) (fun y hy => absurd hy (OrdSet.not_mem_empty y)) h
  cases hS : spec.getNode (c.node nOut).name with
  | none => rw [hS] at h; cases h
  | some nOutS =>
    rw [hS] at h
    refine foldlM_inv (P := P) (fun s s' nPiS _ hs h => ?_) hs h
    cases hP : c.getNode (spec.node nPiS).name with
    | none => rw [hP] at h; cases h
    | some nPi =>
      rw [hP] at h
      cases h
      have key : ∀ (l : List NodeId) (s : NodeSet),
          (∀ y ∈ s, y ∈ c.allNodes ∧ (c.node y).isInput = false) →
          (∀ y ∈ l, y ∈ c.allNodes ∧ (c.node y).isInput = false) →
          ∀ y ∈ l.foldl (fun cands nT => if nT ∈ tfo then cands else cands.insert nT) s,
            y ∈ c.allNodes ∧ (c.node y).isInput = false := by
        intro l
        induction l with
        | nil => exact fun s hs _ => hs
        | cons a l ih =>
          intro s hs hl
          refine ih _ (fun y hy => ?_) fun y hy => hl y (by simp [hy])
          dsimp only at hy
          split at hy
          · exact hs y hy
          · rcases OrdSet.mem_insert.1 hy with rfl | hy
            · exact hl y (by simp)
            · exact hs y hy
      exact key _ s hs fun y hy => fanoutCone_of_name hw hP hy

omit hw in
/-- What the last loop of `InitCand` collects. -/
theorem initCand_collect (seed : ClusterId) (tfo : ClusterSet) (l : List NodeId)
    (s : ClusterSet × NodeSet) (k : ClusterId) (i : NodeId) :
    let f := l.foldl (fun (s : ClusterSet × NodeSet) candNode =>
      if (c.node candNode).myCluster ∉ tfo ∧ (c.node candNode).myCluster ≠ seed then
        (s.1.insert (c.node candNode).myCluster,
          s.2.insertAll (c.cluster (c.node candNode).myCluster).inputNodes.elems)
      else s) s
    (k ∈ f.1 ↔ k ∈ s.1 ∨ k ∉ tfo ∧ k ≠ seed ∧ ∃ n ∈ l, (c.node n).myCluster = k) ∧
      (i ∈ f.2 ↔ i ∈ s.2 ∨ ∃ n ∈ l, (c.node n).myCluster ∉ tfo ∧ (c.node n).myCluster ≠ seed ∧
        i ∈ (c.cluster (c.node n).myCluster).inputNodes) := by
  induction l generalizing s with
  | nil => simp
  | cons a l ih =>
    dsimp only at ih ⊢
    rw [List.foldl_cons]
    split
    · rename_i ha
      rw [(ih _).1, (ih _).2]
      simp only [OrdSet.mem_insert, OrdSet.mem_insertAll, ← OrdSet.mem_def,
        List.exists_mem_cons_iff]
      constructor
      · constructor
        · rintro ((rfl | h) | h)
          · exact .inr ⟨ha.1, ha.2, .inl rfl⟩
          · exact .inl h
          · exact .inr ⟨h.1, h.2.1, .inr h.2.2⟩
        · rintro (h | ⟨h1, h2, h3 | h3⟩)
          · exact .inl (.inr h)
          · exact .inl (.inl h3.symm)
          · exact .inr ⟨h1, h2, h3⟩
      · constructor
        · rintro ((h | h) | h)
          · exact .inl h
          · exact .inr (.inl ⟨ha.1, ha.2, h⟩)
          · exact .inr (.inr h)
        · rintro (h | h | h)
          · exact .inl (.inl h)
          · exact .inl (.inr h.2.2)
          · exact .inr h
    · rename_i ha
      rw [(ih _).1, (ih _).2]
      simp only [List.exists_mem_cons_iff]
      constructor
      · refine or_congr_right ⟨fun h => ⟨h.1, h.2.1, .inr h.2.2⟩, ?_⟩
        rintro ⟨h1, h2, rfl | h3⟩
        · exact absurd ⟨h1, h2⟩ ha
        · exact ⟨h1, h2, h3⟩
      · refine or_congr_right ⟨.inr, ?_⟩
        rintro (h | h)
        · exact absurd ⟨h.1, h.2.1⟩ ha
        · exact h

/-- **The candidates lie outside the fanout cone of the seed**, and their inputs are collected. -/
theorem initCand_spec (h : initCand spec c seed = some (cl, ci)) :
    (∀ k ∈ cl, Outside c seed k) ∧
      ∀ i, i ∈ ci ↔ ∃ k ∈ cl, i ∈ (c.cluster k).inputNodes := by
  unfold initCand at h
  simp only [Option.bind_eq_bind, Option.bind_eq_some_iff, Option.some.injEq, Prod.mk.injEq] at h
  obtain ⟨cands, h1, rfl, rfl⟩ := h
  have hc := initCand_cands hw h1
  have hcol := initCand_collect (c := c) seed (c.getClusterFanoutCone seed) cands.elems (∅, ∅)
  simp only [OrdSet.not_mem_empty, false_or] at hcol
  refine ⟨fun k hk => ?_, fun i => ?_⟩
  · obtain ⟨h2, h3, n, hn, rfl⟩ := ((hcol k 0).1.1 hk)
    exact ⟨(hw.part.covers n (hc n hn).1 (hc n hn).2).1, h3, h2⟩
  · refine ((hcol 0 i).2).trans ⟨?_, ?_⟩
    · rintro ⟨n, hn, h2, h3, h4⟩
      exact ⟨_, (hcol _ 0).1.2 ⟨h2, h3, n, hn, rfl⟩, h4⟩
    · rintro ⟨k, hk, hi⟩
      obtain ⟨h2, h3, n, hn, rfl⟩ := ((hcol k 0).1.1 hk)
      exact ⟨n, hn, h2, h3, hi⟩

/-- **Candidates never close a loop.** -/
theorem initCand_acyclic {t : NodeId} (hex : c.Exact) (hseed : seed ∈ c.allClusters)
    (ht : (c.cluster seed).nodesC = [t]) (h : initCand spec c seed = some (cl, ci)) :
    (∀ k ∈ cl, k ≠ seed ∧ ¬TransGen c.Precedes seed k) ∧
      (∀ i ∈ ci, i ≠ t ∧ ¬TransGen c.Fanin t i) ∧
      (∀ k ∈ cl, ∀ i ∈ (c.cluster k).inputNodes, i ∈ ci) ∧
      ∀ onset, onset ≠ [] → (∀ i ∈ newInputs onset, i ∈ ci) →
        ∃ c', (setTargets [t] c >>= fun c => c.restruct t onset) = some c' ∧ c'.IsAcyclic := by
  obtain ⟨hout, hin⟩ := initCand_spec hw h
  have htn : t ∈ (c.cluster seed).nodesC := by rw [ht]; simp
  obtain ⟨htc, hti, -⟩ := hw.part.mem seed hseed t htn
  have hreach : ∀ i ∈ ci, ¬ReflTransGen c.Fanin t i := fun i hi => by
    obtain ⟨k, hk, hik⟩ := (hin i).1 hi
    exact (hout k hk).not_reach hw hex hseed htn hik
  refine ⟨fun k hk => ⟨(hout k hk).ne, fun hr => ?_⟩, fun i hi => ⟨?_, fun hr => ?_⟩,
    fun k hk i hi => (hin i).2 ⟨k, hk, hi⟩, fun onset hne hS => ?_⟩
  · exact (hout k hk).cone ((mem_fanoutCone_iff hw.mirror hw.part hw.pisClean hseed).2
      ⟨(hout k hk).ne, hr.to_reflTransGen⟩)
  · rintro rfl
    exact hreach i hi .refl
  · exact hreach i hi hr.to_reflTransGen
  · have hS' : ∀ i ∈ newInputs onset, i ∈ c.allNodes := fun i hi => by
      obtain ⟨k, hk, hik⟩ := (hin i).1 (hS i hi)
      obtain ⟨-, n, hn, hni⟩ := (hex k (hout k hk).mem i).1 hik
      exact hw.mirror.closed n (hw.part.mem k (hout k hk).mem n hn).1 i hni
    obtain ⟨c', h1, h2⟩ := cover_spec hw.mirror htc hti hne hS'
    exact ⟨c', h1, h2.acyclic hw.acyclic fun i hi => hreach i (hS i hi)⟩

end

theorem reconvergent_wf : Wf reconvergentCircuit :=
  ((Start.ofNodes reconvergent_ordered).wf (.refl _)).1

/-- The candidates of `s` are the clusters of `a` and `b`. -/
theorem initCand_acyclic_reconvergent : ∃ ci,
    initCand (ofNodes reconvergent) reconvergentCircuit 3 = some ([1, 2], ci) ∧
    (∀ k ∈ [1, 2], k ≠ 3 ∧ ¬TransGen reconvergentCircuit.Precedes 3 k) ∧
    (∀ i ∈ ci, i ≠ 3 ∧ ¬TransGen reconvergentCircuit.Fanin 3 i) ∧
    (∀ k ∈ [1, 2], ∀ i ∈ (reconvergentCircuit.cluster k).inputNodes, i ∈ ci) ∧
    ∀ onset, onset ≠ [] → (∀ i ∈ newInputs onset, i ∈ ci) →
      ∃ c', (setTargets [3] reconvergentCircuit >>= fun c => c.restruct 3 onset) = some c' ∧
        c'.IsAcyclic := by
  have hrun : ((initCand (ofNodes reconvergent) reconvergentCircuit 3).any fun r => decide
      (r.1 = [1, 2])) = true := by
    decide +kernel
  obtain ⟨⟨cl, ci⟩, h1, h2⟩ := (Option.any_eq_true _ _).1 hrun
  cases of_decide_eq_true h2
  exact ⟨ci, h1, initCand_acyclic reconvergent_wf reconvergent_exact (by decide) (by decide) h1⟩

end Msyn.NodeMerge
