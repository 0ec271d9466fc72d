import Msyn.Merge.Runs

/-!
# QuickMerge leaves nothing to merge

`Settled c s`: no cluster apart from `s` fits the input limit jointly with it, or `s` itself is full.
The `while` loop leaves its seed settled, and later merges keep it so: merging two clusters that are
apart only adds paths (`merged_reach`) and inputs (`merged_grows`). At the end every cluster was a
seed (`quickMerge_maximal`). Nothing here needs an acyclic cluster graph.
-/

namespace Msyn.NodeMerge

open Nodecircuit Circuit Relation

/-- Neither cluster reaches the other. -/
def Apart (c : Circuit) (k j : ClusterId) : Prop :=
  ¬ReflTransGen c.Precedes k j ∧ ¬ReflTransGen c.Precedes j k

/-- `QuickMerge` merges nothing into the cluster. -/
def Settled (c : Circuit) (s : ClusterId) : Prop :=
  limitIn ≤ (c.cluster s).inputNodes.size ∨
    ∀ k ∈ c.allClusters, Apart c s k → limitIn < (jointInputs c s k).size

/-! ## What is selected -/

/-- Every candidate that fits is a reason to select one. -/
theorem quickSelect_none {c : Circuit} {seed : ClusterId} (h : quickSelect c seed = none) :
    ∀ k ∈ c.allClusters, k ∉ c.getClusterFanoutCone seed → k ∉ c.getClusterFaninCone seed →
      k ≠ seed → limitIn < (jointInputs c seed k).size := by
  let f : Option ClusterId × Nat → ClusterId → Option ClusterId × Nat := fun s clst =>
    if (jointInputs c seed clst).size < s.2 then (some clst, (jointInputs c seed clst).size) else s
  -- once a candidate is taken there is one to the end
  have hsome : ∀ (l : List ClusterId) s, (l.foldl f s).1 = none → s.1 = none ∧
      ∀ k ∈ l, s.2 ≤ (jointInputs c seed k).size := by
    intro l
    induction l with
    | nil => exact fun s hs => ⟨hs, fun k hk => absurd hk List.not_mem_nil⟩
    | cons j l ih =>
      intro s hs
      obtain ⟨h1, h2⟩ := ih (f s j) hs
      by_cases hlt : (jointInputs c seed j).size < s.2
      · simp only [f, if_pos hlt] at h1
        cases h1
      · simp only [f, if_neg hlt] at h1 h2
        refine ⟨h1, fun k hk => ?_⟩
        rcases List.mem_cons.1 hk with rfl | hk
        · exact Nat.le_of_not_lt hlt
        · exact h2 k hk
  intro k hk h1 h2 h3
  refine (hsome _ _ h).2 k (List.mem_filter.2 ⟨hk, ?_⟩)
  exact decide_eq_true ⟨h1, h2, h3⟩

section
variable {c c' : Circuit} {seed k : ClusterId}

/-- The `while` loop leaves its seed settled. -/
theorem settled_of_none (hm : c.Mirror) (hpi : c.PisClean) (hp : c.Part) (hs : seed ∈ c.allClusters)
    (h : (c.cluster seed).inputNodes.size < limitIn → quickSelect c seed = none) :
    Settled c seed := by
  by_cases hsize : (c.cluster seed).inputNodes.size < limitIn
  · refine .inr fun k hk hap => quickSelect_none (h hsize) k hk (fun hf => ?_) (fun hf => ?_)
      fun he => ?_
    · exact hap.1 ((mem_fanoutCone_iff hm hp hpi hs).1 hf).2
    · exact hap.2 ((mem_faninCone_iff hm hp hs).1 hf).2
    · exact hap.1 (he ▸ .refl)
  · exact .inl (Nat.le_of_not_lt hsize)

/-! ## A merge keeps the others settled -/

/-- Paths stay, through the merged cluster. -/
theorem merged_reach (hp : c.Part) (hcl : c.Closed) (h : Merged c c' seed k)
    (hk : k ∈ c.allClusters) (hp' : c'.Part) {a b : ClusterId}
    (hr : ReflTransGen c.Precedes a b) :
    ReflTransGen c'.Precedes (joined (· = k) seed a) (joined (· = k) seed b) := by
  have hmy : ∀ n ∈ c.allNodes, (c.node n).isInput = false →
      (c'.node n).myCluster = joined (· = k) seed (c.node n).myCluster := by
    intro n hn hi
    have hnk : n ∈ (c.cluster k).nodesC ↔ (c.node n).myCluster = k := by
      rw [hp.mem_iff hk]
      exact ⟨fun h => h.2.2, fun h => ⟨hn, hi, h⟩⟩
    rw [h.node]
    simp only [hnk, joined]
  refine ReflTransGen.lift' (joined (· = k) seed) (fun x y hxy => ?_) a b hr
  show ReflTransGen c'.Precedes (joined (· = k) seed x) (joined (· = k) seed y)
  obtain ⟨hne, m, n, hmn, hmi, hni, rfl, rfl⟩ := (precedes_iff hp hcl).1 hxy
  rw [← hmy m (fanin_mem hcl hmn) hmi, ← hmy n hmn.1 hni]
  by_cases he : (c'.node m).myCluster = (c'.node n).myCluster
  · rw [he]
  · refine .single ((precedes_iff hp' (h.same.closed hcl)).2 ⟨he, m, n, h.same.fanin_iff.2 hmn, ?_, ?_,
      rfl, rfl⟩)
    · rw [h.same.isInput, hmi]
    · rw [h.same.isInput, hni]

variable (hm : c.Mirror) (hpi : c.PisClean) (hp : c.Part) (hex : c.Exact) (hs : seed ∈ c.allClusters)
  (hk : QuickCand c seed k) (h : Merged c c' seed k) (hp' : c'.Part)
include hm hp hex hs hk h

/-- The merged cluster has the inputs of the seed. -/
theorem merged_grows {i : NodeId} (hi : i ∈ (c.cluster seed).inputNodes) :
    i ∈ (c'.cluster seed).inputNodes := by
  refine (h.inputNodes i).2 ⟨fun hin => ?_, .inl hi⟩
  obtain ⟨hout, n, hn, hni⟩ := (hex seed hs i).1 hi
  rw [h.nodesC] at hin
  have hik := (List.mem_append.1 hin).resolve_left hout
  -- else the other cluster would be a fanin of the seed
  exact hk.fanin ((mem_faninCone_iff hm hp hs).2
    ⟨hk.ne, .single ⟨hk.mem, hs, hk.ne, i, hik, n, hn, hni⟩⟩)

include hp'

/-- **A merge keeps the other clusters settled.** -/
theorem Settled.merge {s : ClusterId} (hset : Settled c s) (hsc : s ∈ c'.allClusters)
    (hne : s ≠ seed) : Settled c' s := by
  have hall : ∀ {x}, x ∈ c'.allClusters → x ∈ c.allClusters ∧ x ≠ k := by
    intro x hx
    rw [h.allClusters] at hx
    exact ⟨List.mem_of_mem_erase hx, fun he => (hp.nodup.mem_erase_iff.1 hx).1 he⟩
  have hjoin : ∀ {x}, x ≠ k → joined (· = k) seed x = x := fun hx => if_neg hx
  have hapart : ∀ {x}, x ∈ c'.allClusters → Apart c' s x → Apart c s x := by
    intro x hx hap
    have hx' := hjoin (hall hx).2
    have hs' := hjoin (hall hsc).2
    refine ⟨fun hr => hap.1 ?_, fun hr => hap.2 ?_⟩
    · have := merged_reach hp hm.closed h hk.mem hp' hr
      rwa [hx', hs'] at this
    · have := merged_reach hp hm.closed h hk.mem hp' hr
      rwa [hx', hs'] at this
  refine hset.imp (fun hfull => ?_) fun hno x hx hap => ?_
  · rw [h.other s hne]
    exact hfull
  · refine Nat.lt_of_lt_of_le (hno x (hall hx).1 (hapart hx hap)) (OrdSet.size_le_of_subset ?_)
    intro i hi
    rw [mem_jointInputs] at hi ⊢
    rw [h.other s hne]
    refine hi.imp_right fun hi => ?_
    by_cases hxs : x = seed
    · rw [hxs] at hi ⊢
      exact merged_grows hm hp hex hs hk h hi
    · rwa [h.other x hxs]

end

/-! ## The pass -/

/-- What holds at the heads of the `while` loop: the clusters before the seed are settled. -/
structure QuickKept (c c' : Circuit) (it : Option ClusterId) : Prop where
  same : SameNet c c'
  part : c'.Part
  exact : c'.Exact
  done : ∃ a b, c'.allClusters = a ++ b ∧ it = b.head? ∧ ∀ s ∈ a, Settled c' s

theorem QuickKept.mem {c c' : Circuit} {seed : ClusterId} (h : QuickKept c c' (some seed)) :
    seed ∈ c'.allClusters := by
  obtain ⟨a, b, h1, h2, -⟩ := h.done
  rw [h1]
  exact List.mem_append_right _ (List.mem_of_mem_head? h2.symm)

section
variable {c : Circuit} (hm : c.Mirror) (hpi : c.PisClean) (hp : c.Part) (hex : c.Exact)
include hm hpi hp hex

theorem QuickHead.kept {c' : Circuit} {it : Option ClusterId} (h : QuickHead c c' it) :
    QuickKept c c' it := by
  induction h with
  | begin => exact ⟨.refl c, hp, hex, [], _, rfl, rfl, fun s hs => absurd hs List.not_mem_nil⟩
  | @merge c1 c2 seed k it _ _ hsel hmer ih =>
    have hs := ih.mem
    have hk := quickSelect_spec hsel
    obtain ⟨c3, h6, h7, h8⟩ := quick_spec ih.part hs hsel
    rw [hmer] at h6
    cases h6
    obtain ⟨a, b, h1, h2, h3⟩ := ih.done
    obtain ⟨b, rfl⟩ : ∃ b', b = seed :: b' := by
      cases b with
      | nil => cases h2
      | cons x b =>
        cases h2
        exact ⟨b, rfl⟩
    have hnd := ih.part.nodup
    refine ⟨ih.same.trans h7.same, h8, h7.exact ih.exact hs, ?_⟩
    have hsplit : ∃ a' b', c2.allClusters = a' ++ seed :: b' ∧ ∀ s ∈ a', s ∈ a := by
      rw [h7.allClusters, h1]
      by_cases hka : k ∈ a
      · exact ⟨a.erase k, b, List.erase_append_left _ hka, fun s hs => List.mem_of_mem_erase hs⟩
      · refine ⟨a, b.erase k, ?_, fun s hs => hs⟩
        rw [List.erase_append_right _ hka, List.erase_cons_tail (by simpa using hk.ne.symm)]
    obtain ⟨a', b', h9, h10⟩ := hsplit
    refine ⟨a', seed :: b', h9, rfl, fun s hsa => ?_⟩
    have hne : s ≠ seed := by
      rintro rfl
      rw [h1] at hnd
      exact (List.nodup_append.1 hnd).2.2 s (h10 s hsa) s (by simp) rfl
    exact Settled.merge (ih.same.mirror hm) ih.part ih.exact hs hk h7 h8 (h3 s (h10 s hsa))
      (h9 ▸ List.mem_append_left _ hsa) hne
  | @next c1 seed _ hend ih =>
    obtain ⟨a, b, h1, h2, h3⟩ := ih.done
    cases b with
    | nil => cases h2
    | cons x b =>
      cases h2
      have hnd := ih.part.nodup
      rw [h1] at hnd
      have hsa : seed ∉ a := fun hsa => (List.nodup_append.1 hnd).2.2 seed hsa seed (by simp) rfl
      refine ⟨ih.same, ih.part, ih.exact, a ++ [seed], b, by rw [h1]; simp, ?_, fun s hs => ?_⟩
      · rw [h1, next_split hsa]
      · rcases List.mem_append.1 hs with hs | hs
        · exact h3 s hs
        · rw [List.mem_singleton.1 hs]
          exact settled_of_none (ih.same.mirror hm) (ih.same.pisClean hpi) ih.part ih.mem hend

/-- The `while` loop ends: every merge takes a cluster away. -/
theorem quickLoop_ends : ∀ {fuel : Nat} {c1 : Circuit} {seed : ClusterId},
    QuickHead c c1 (some seed) → c1.allClusters.length ≤ fuel →
    ∃ c2, quickLoop fuel c1 seed = some c2 ∧ QuickHead c c2 (next seed c2.allClusters) ∧
      c2.allClusters.Sublist c1.allClusters ∧ seed ∈ c2.allClusters
  | 0, c1, seed, h, hf => by
    have := List.length_pos_of_mem (h.kept hm hpi hp hex).mem
    omega
  | fuel + 1, c1, seed, h, hf => by
    have hkept := h.kept hm hpi hp hex
    rw [quickLoop]
    split
    · rename_i hsize
      cases hsel : quickSelect c1 seed with
      | none => exact ⟨c1, rfl, h.next fun _ => hsel, .refl _, hkept.mem⟩
      | some k =>
        obtain ⟨c2, h1, h2, -⟩ := quick_spec hkept.part hkept.mem hsel
        have hk := (quickSelect_spec hsel).mem
        have hlen : c2.allClusters.length ≤ fuel := by
          rw [h2.allClusters, List.length_erase_of_mem hk]
          omega
        obtain ⟨c3, h3, h4, h5, h6⟩ := quickLoop_ends (h.merge hsize hsel h1) hlen
        refine ⟨c3, by simp only [h1]; exact h3, h4, h5.trans ?_, h6⟩
        rw [h2.allClusters]
        exact List.erase_sublist
    · rename_i hsize
      exact ⟨c1, rfl, h.next fun hlt => absurd hlt hsize, .refl _, hkept.mem⟩

theorem quickMerge_ends : ∃ c', quickMerge c = some c' ∧ QuickHead c c' none := by
  have hbody : ∀ c1 k, QuickHead c c1 (some k) →
      ∃ c2, quickLoop c1.allClusters.length c1 k = some c2 ∧
      QuickHead c c2 (next k c2.allClusters) ∧
      remaining (next k c2.allClusters) c2.allClusters < remaining (some k) c1.allClusters := by
    intro c1 k h
    obtain ⟨c2, h1, h2, h3, h4⟩ := quickLoop_ends hm hpi hp hex h (Nat.le_refl _)
    exact ⟨c2, h1, h2, remaining_next (h.kept hm hpi hp hex).part.nodup h3 h4⟩
  obtain ⟨c', h1, h2⟩ := sweep_total (fun (c : Circuit) it => remaining it c.allClusters)
    (fun c1 k h => remaining_pos (h.kept hm hpi hp hex).mem) hbody .begin (remaining_le _ _)
  exact ⟨c', by rw [quickMerge, quickMergeF_eq]; exact h1, h2⟩

/-- **`QuickMerge` ends, and leaves nothing to merge**: two clusters apart, one of which is not full,
have more inputs jointly than a cluster may have. -/
theorem quickMerge_maximal : ∃ c', quickMerge c = some c' ∧ SameNet c c' ∧ c'.Part ∧ c'.Exact ∧
    ∀ k ∈ c'.allClusters, ∀ j ∈ c'.allClusters, Apart c' k j →
      (c'.cluster k).inputNodes.size < limitIn → limitIn < (jointInputs c' k j).size := by
  obtain ⟨c', h1, h2⟩ := quickMerge_ends hm hpi hp hex
  obtain ⟨h3, h4, h5, a, b, h6, h7, h8⟩ := h2.kept hm hpi hp hex
  refine ⟨c', h1, h3, h4, h5, fun k hk j hj hap hsize => ?_⟩
  have hb : b = [] := List.head?_eq_none_iff.1 h7.symm
  rw [h6, hb, List.append_nil] at hk
  exact ((h8 k hk).resolve_left fun hfull => Nat.not_le_of_lt hsize hfull) j hj hap

end

/-- The cluster of `u` takes in that of `a`, which the cluster of `s` reads. -/
theorem quickMerge_maximal_twoBuffers : ∃ c', quickMerge (twoBuffersCircuit [1, 2, 3]) = some c' ∧
    SameNet (twoBuffersCircuit [1, 2, 3]) c' ∧ c'.Part ∧ c'.Exact ∧
    ∀ k ∈ c'.allClusters, ∀ j ∈ c'.allClusters, Apart c' k j →
      (c'.cluster k).inputNodes.size < limitIn → limitIn < (jointInputs c' k j).size := by
  obtain ⟨hw, hex⟩ := twoBuffers_wf (l := [1, 2, 3]) (by decide)
  exact quickMerge_maximal hw.mirror hw.pisClean hw.part hex

end Msyn.NodeMerge
