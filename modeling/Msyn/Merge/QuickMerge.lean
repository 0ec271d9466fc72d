import Msyn.Merge.FaninMerge

/-!
# QuickMerge

`quickSelect` takes a cluster outside both cones of the seed that fits the input limit
(`quickSelect_spec`). Merging two clusters neither of which reaches the other keeps the cluster
graph acyclic, so that every merge of `QuickMerge` does, and the pass ends (`quickMerge_sound`).
-/

namespace Msyn.NodeMerge

open Nodecircuit Circuit Relation

/-- The inputs of two clusters. -/
def jointInputs (c : Circuit) (k j : ClusterId) : NodeSet :=
  ((∅ : NodeSet).insertAll (c.cluster k).inputNodes.elems).insertAll (c.cluster j).inputNodes.elems

theorem mem_jointInputs {c : Circuit} {k j : ClusterId} {i : NodeId} : i ∈ jointInputs c k j ↔
    i ∈ (c.cluster k).inputNodes ∨ i ∈ (c.cluster j).inputNodes := by
  rw [jointInputs, OrdSet.mem_insertAll, OrdSet.mem_insertAll]
  simp [OrdSet.mem_def]

/-- What `QuickMerge` selects for `seed`. -/
structure QuickCand (c : Circuit) (seed k : ClusterId) : Prop where
  mem : k ∈ c.allClusters
  ne : k ≠ seed
  fanout : k ∉ c.getClusterFanoutCone seed
  fanin : k ∉ c.getClusterFaninCone seed
  size : (jointInputs c seed k).size ≤ limitIn

theorem quickSelect_spec {c : Circuit} {seed k : ClusterId} (h : quickSelect c seed = some k) :
    QuickCand c seed k := by
  let P : Option ClusterId × Nat → Prop := fun s => s.2 ≤ limitIn + 1 ∧
    ∀ k, s.1 = some k → QuickCand c seed k
  have key : ∀ (l : List ClusterId), (∀ k ∈ l, k ∈ c.allClusters ∧ k ∉ c.getClusterFanoutCone seed ∧
      k ∉ c.getClusterFaninCone seed ∧ k ≠ seed) → ∀ s, P s →
      P (l.foldl (fun s clst => if (jointInputs c seed clst).size < s.2 then
        (some clst, (jointInputs c seed clst).size) else s) s) := by
    intro l
    induction l with
    | nil => exact fun _ s hs => hs
    | cons j l ih =>
      intro hl s hs
      obtain ⟨h1, h2, h3, h4⟩ := hl j (by simp)
      refine ih (fun k hk => hl k (List.mem_cons_of_mem _ hk)) _ ?_
      show P (if (jointInputs c seed j).size < s.2 then (some j, (jointInputs c seed j).size) else s)
      by_cases hlt : (jointInputs c seed j).size < s.2
      · have hle : (jointInputs c seed j).size ≤ limitIn := by
          have := hs.1
          omega
        rw [if_pos hlt]
        refine ⟨hle.trans (Nat.le_succ _), fun k hk => ?_⟩
        cases hk
        exact ⟨h1, h4, h2, h3, hle⟩
      · rw [if_neg hlt]
        exact hs
  refine (key _ (fun k hk => ?_) (none, limitIn + 1) ⟨Nat.le_refl _, fun k hk => by cases hk⟩).2 k h
  have := List.mem_filter.1 hk
  simp only [decide_eq_true_eq] at this
  exact ⟨this.1, this.2⟩

/-! ## One merge -/

section
variable {c : Circuit} {seed k : ClusterId}

/-- Neither of two clusters reaches the other. -/
theorem QuickCand.convex (h : QuickCand c seed k) (hm : c.Mirror) (hp : c.Part)
    (hpi : c.PisClean) (hac : c.ClustersAcyclic) (hs : seed ∈ c.allClusters) :
    Convex c.Precedes fun j => j = seed ∨ j = k := by
  have h1 : ¬ReflTransGen c.Precedes seed k := fun hr =>
    h.fanout ((mem_fanoutCone_iff hm hp hpi hs).2 ⟨h.ne, hr⟩)
  have h2 : ¬ReflTransGen c.Precedes k seed := fun hr =>
    h.fanin ((mem_faninCone_iff hm hp hs).2 ⟨h.ne, hr⟩)
  refine Acyclic.convex hac ?_
  rintro x y (rfl | rfl) (rfl | rfl) hne hr
  · exact hne rfl
  · exact h1 hr.to_reflTransGen
  · exact h2 hr.to_reflTransGen
  · exact hne rfl

/-- **A merge of `QuickMerge`.** -/
theorem quick_spec (hp : c.Part) (hs : seed ∈ c.allClusters) (h : quickSelect c seed = some k) :
    ∃ c', c.merge seed k = some (c', next k c.allClusters) ∧ Merged c c' seed k ∧ c'.Part := by
  have hk := quickSelect_spec h
  obtain ⟨c', h1, h2⟩ := merge_spec hk.mem hk.ne.symm
  exact ⟨c', h1, h2, h2.part hp hs hk.mem hk.ne.symm⟩

theorem quick_acyclic {c' : Circuit} (hm : c.Mirror) (hp : c.Part) (hpi : c.PisClean)
    (hac : c.ClustersAcyclic) (hs : seed ∈ c.allClusters) (h : quickSelect c seed = some k)
    (h' : Merged c c' seed k) (hp' : c'.Part) : c'.ClustersAcyclic := by
  have hk := quickSelect_spec h
  refine hac.merge hp hm.closed h'.same hp' (.inl rfl) (hk.convex hm hp hpi hac hs)
    fun n hn hi => ?_
  have hnk : n ∈ (c.cluster k).nodesC ↔ (c.node n).myCluster = k := by
    rw [hp.mem_iff hk.mem]
    exact ⟨fun h => h.2.2, fun h => ⟨hn, hi, h⟩⟩
  rw [h'.node]
  simp only [hnk, joined]
  by_cases h1 : (c.node n).myCluster = k
  · simp [h1]
  · by_cases h2 : (c.node n).myCluster = seed
    · simp [h2]
    · simp [h1, h2]

end

/-! ## The pass -/

/-- The circuits and the iterator at the head of the `while` loop of `QuickMerge`. -/
inductive QuickHead (c₀ : Circuit) : Circuit → Option ClusterId → Prop
  | begin : QuickHead c₀ c₀ c₀.allClusters.head?
  | merge {c c' : Circuit} {seed selected : ClusterId} {it : Option ClusterId} :
      QuickHead c₀ c (some seed) → (c.cluster seed).inputNodes.size < limitIn →
      quickSelect c seed = some selected → c.merge seed selected = some (c', it) →
      QuickHead c₀ c' (some seed)
  | next {c : Circuit} {seed : ClusterId} : QuickHead c₀ c (some seed) →
      ((c.cluster seed).inputNodes.size < limitIn → quickSelect c seed = none) →
      QuickHead c₀ c (next seed c.allClusters)

theorem quickMergeF_eq : ∀ (fuel : Nat) (c : Circuit) (it : Option ClusterId),
    quickMergeF fuel c it = sweep (fun (c : Circuit) seed => quickLoop c.allClusters.length c seed)
      (fun c k => next k c.allClusters) fuel c it
  | fuel, c, none => by cases fuel <;> rfl
  | 0, _, some _ => rfl
  | fuel + 1, c, some seed => by
    simp only [quickMergeF, sweep]
    exact congrArg _ (funext fun c => quickMergeF_eq fuel c _)

section
variable {c : Circuit} (hm : c.Mirror) (hpi : c.PisClean) (hp : c.Part) (hex : c.Exact)
  (hac : c.ClustersAcyclic)
include hm hpi hp hex hac

theorem QuickHead.sound {c' : Circuit} {it : Option ClusterId} (h : QuickHead c c' it) :
    SameNet c c' ∧ c'.Part ∧ c'.Exact ∧ c'.ClustersAcyclic ∧ ∀ k, it = some k → k ∈ c'.allClusters := by
  induction h with
  | begin => exact ⟨.refl c, hp, hex, hac, fun k hk => List.mem_of_mem_head? hk⟩
  | @merge c1 c2 seed k it _ _ hsel hmer ih =>
    obtain ⟨h1, h2, h3, h4, h5⟩ := ih
    have hs := h5 seed rfl
    obtain ⟨c3, h6, h7, h8⟩ := quick_spec h2 hs hsel
    rw [hmer] at h6
    cases h6
    refine ⟨h1.trans h7.same, h8, h7.exact h3 hs,
      quick_acyclic (h1.mirror hm) h2 (h1.pisClean hpi) h4 hs hsel h7 h8, fun j hj => ?_⟩
    cases hj
    rw [h7.allClusters]
    exact (List.mem_erase_of_ne (quickSelect_spec hsel).ne.symm).2 hs
  | next _ _ ih =>
    obtain ⟨h1, h2, h3, h4, -⟩ := ih
    exact ⟨h1, h2, h3, h4, fun k hk => next_mem hk⟩

/-- The `while` loop ends: every merge takes a cluster away. -/
theorem quickLoop_total : ∀ {fuel : Nat} {c1 : Circuit} {seed : ClusterId},
    QuickHead c c1 (some seed) → c1.allClusters.length ≤ fuel →
    ∃ c2, quickLoop fuel c1 seed = some c2 ∧ QuickHead c c2 (next seed c2.allClusters) ∧
      c2.allClusters.Sublist c1.allClusters ∧ seed ∈ c2.allClusters
  | 0, c1, seed, h, hf => by
    have := List.length_pos_of_mem ((h.sound hm hpi hp hex hac).2.2.2.2 seed rfl)
    omega
  | fuel + 1, c1, seed, h, hf => by
    obtain ⟨-, h2, -, -, h5⟩ := h.sound hm hpi hp hex hac
    have hs := h5 seed rfl
    rw [quickLoop]
    split
    · rename_i hsize
      cases hsel : quickSelect c1 seed with
      | none => exact ⟨c1, rfl, h.next fun _ => hsel, .refl _, hs⟩
      | some k =>
        obtain ⟨c2, h6, h7, -⟩ := quick_spec h2 hs hsel
        have hk := (quickSelect_spec hsel).mem
        have hlen : c2.allClusters.length ≤ fuel := by
          rw [h7.allClusters, List.length_erase_of_mem hk]
          omega
        obtain ⟨c3, h8, h9, h10, h11⟩ := quickLoop_total (h.merge hsize hsel h6) hlen
        refine ⟨c3, by simp only [h6]; exact h8, h9, h10.trans ?_, h11⟩
        rw [h7.allClusters]
        exact List.erase_sublist
    · rename_i hsize
      exact ⟨c1, rfl, h.next fun hlt => absurd hlt hsize, .refl _, hs⟩

/-- **`QuickMerge` ends, and after every merge the cluster graph is acyclic** and the clusters are
a partition with exact caches. -/
theorem quickMerge_sound : (∃ c', quickMerge c = some c' ∧ QuickHead c c' none) ∧
    ∀ c' it, QuickHead c c' it → c'.ClustersAcyclic ∧ c'.Part ∧ c'.Exact := by
  constructor
  · have hbody : ∀ c1 k, QuickHead c c1 (some k) →
        ∃ c2, quickLoop c1.allClusters.length c1 k = some c2 ∧
        QuickHead c c2 (next k c2.allClusters) ∧
        remaining (next k c2.allClusters) c2.allClusters < remaining (some k) c1.allClusters := by
      intro c1 k h
      obtain ⟨c2, h1, h2, h3, h4⟩ := quickLoop_total hm hpi hp hex hac h (Nat.le_refl _)
      exact ⟨c2, h1, h2, remaining_next (h.sound hm hpi hp hex hac).2.1.nodup h3 h4⟩
    have hpos : ∀ c1 k, QuickHead c c1 (some k) → 0 < remaining (some k) c1.allClusters :=
      fun c1 k h => remaining_pos ((h.sound hm hpi hp hex hac).2.2.2.2 k rfl)
    obtain ⟨c', h1, h2⟩ := sweep_total (fun (c : Circuit) it => remaining it c.allClusters) hpos
      hbody .begin (remaining_le _ _)
    exact ⟨c', by rw [quickMerge, quickMergeF_eq]; exact h1, h2⟩
  · intro c' it h
    obtain ⟨-, h2, h3, h4, -⟩ := h.sound hm hpi hp hex hac
    exact ⟨h4, h2, h3⟩

end

theorem quickMerge_sound_reconvergent : (∃ c', quickMerge reconvergentCircuit = some c' ∧
      QuickHead reconvergentCircuit c' none) ∧
    ∀ c' it, QuickHead reconvergentCircuit c' it → c'.ClustersAcyclic ∧ c'.Part ∧ c'.Exact :=
  quickMerge_sound reconvergent_mirror (reconvergent_sameNet.pisClean reconvergent_ordered.pisClean)
    reconvergent_part reconvergent_exact reconvergent_clustersAcyclic

end Msyn.NodeMerge
