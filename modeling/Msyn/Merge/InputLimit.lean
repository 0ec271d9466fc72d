import Msyn.Merge.ClusterRuns

/-!
# The input limit

`Limited c`: the cached inputs of a cluster hold every outside fanin of its members, and there are
at most `limitIn` of them; a node has at most `limitIn` distinct inputs. Each pass checks the limit
on a set that holds the inputs of the cluster it is about to make, so that every step keeps it
(`inputs_limited`) if the new inputs of a committed merge are still in the circuit. One that was
removed before is not seen by `FaninMerge` (`stale_exceeds`). A cluster that is not merged may have
more inputs, as many as its gate had (`LimitedTo`).
-/

namespace Msyn.NodeMerge

open Nodecircuit Circuit

/-- The different inputs of a node. -/
def distinctInputs (c : Circuit) (n : NodeId) : NodeSet := .ofList (c.node n).inputs

structure Limited (c : Circuit) : Prop where
  covers : ∀ k ∈ c.allClusters, CoversAt c k
  caches : ∀ k ∈ c.allClusters, (c.cluster k).inputNodes.size ≤ limitIn
  nodes : ∀ n ∈ c.allNodes, (distinctInputs c n).size ≤ limitIn

/-- The same with a bound that clusters and nodes which are not merged may reach. -/
structure LimitedTo (N : Nat) (c : Circuit) : Prop where
  covers : ∀ k ∈ c.allClusters, CoversAt c k
  caches : ∀ k ∈ c.allClusters, (c.cluster k).inputNodes.size ≤ N
  nodes : ∀ n ∈ c.allNodes, (distinctInputs c n).size ≤ N

theorem limitedTo_iff {c : Circuit} : LimitedTo limitIn c ↔ Limited c :=
  ⟨fun h => ⟨h.covers, h.caches, h.nodes⟩, fun h => ⟨h.covers, h.caches, h.nodes⟩⟩

section
variable {c c' : Circuit} {N : Nat}

theorem distinctInputs_congr {n : NodeId} (h : (c'.node n).inputs = (c.node n).inputs) :
    distinctInputs c' n = distinctInputs c n := by
  rw [distinctInputs, h]
  rfl

theorem Trimmed.coversAt (h : Trimmed c c') (hp : c.Part) {k : ClusterId}
    (hk : k ∈ c'.allClusters) (hc : CoversAt c k) : CoversAt c' k := by
  intro n hn i hi
  obtain ⟨hn1, hn2⟩ := (h.mem_nodesC hp hk).1 hn
  have hic := h.mirror.closed n hn2 i hi
  rw [h.caches]
  exact (hc n hn1 i (h.inputs n ▸ hi)).imp_left fun h1 => (h.mem_nodesC hp hk).2 ⟨h1, hic⟩

theorem Trimmed.limited (h : Trimmed c c') (hp : c.Part) (hl : LimitedTo N c) : LimitedTo N c' where
  covers k hk := h.coversAt hp hk (hl.covers k (h.subClusters.mem hk))
  caches k hk := h.caches k ▸ hl.caches k (h.subClusters.mem hk)
  nodes n hn := distinctInputs_congr (h.inputs n) ▸ hl.nodes n (h.sub.mem hn)

/-! ## QuickMerge and FaninMerge -/

theorem LimitedTo.quick {seed k : ClusterId} (hl : LimitedTo N c) (hN : limitIn ≤ N)
    (hs : seed ∈ c.allClusters) (hk : QuickCand c seed k) (h : Merged c c' seed k) :
    LimitedTo N c' := by
  have hmem : ∀ {j}, j ∈ c'.allClusters → j ∈ c.allClusters := fun {j} hj =>
    List.mem_of_mem_erase (h.allClusters ▸ hj)
  refine ⟨fun j hj => ?_, fun j hj => ?_, fun n hn => ?_⟩
  · by_cases hjs : j = seed
    · exact hjs ▸ h.coversAt (hl.covers seed hs)
    · exact h.coversAt_other hjs (hl.covers j (hmem hj))
  · by_cases hjs : j = seed
    · subst hjs
      refine le_trans (OrdSet.size_le_of_subset fun i hi => ?_) (hk.size.trans hN)
      exact mem_jointInputs.2 (h.inputNodes_sub (hl.covers k hk.mem) hi)
    · rw [h.other j hjs]
      exact hl.caches j (hmem hj)
  · exact distinctInputs_congr (h.same.inputs n) ▸ hl.nodes n (h.same.allNodes ▸ hn)

/-- If the scan ends below the limit, it has seen every input. -/
theorem faninScan_mem : ∀ {l : List NodeId} {a b : NodeSet},
    (faninScan c l a b).1.size ≤ limitIn → ∀ i, (i ∈ a ∨ ∃ nd ∈ l,
      if (c.node nd).isInput then i = nd
      else i ∈ (c.cluster (c.node nd).myCluster).inputNodes) → i ∈ (faninScan c l a b).1
  | [], a, b, _, i, hi => hi.resolve_right (by simp)
  | nd :: l, a, b, h, i, hi => by
    rw [faninScan] at h ⊢
    simp only [List.exists_mem_cons_iff] at hi
    split at h
    · rename_i hnd
      rw [if_pos hnd] at hi
      rw [if_pos hnd]
      refine faninScan_mem h i ?_
      rw [OrdSet.mem_insert]
      tauto
    · rename_i hnd
      rw [if_neg hnd] at hi
      rw [if_neg hnd]
      dsimp only at h ⊢
      split at h
      · rename_i hbig
        exact absurd h (by simpa using hbig)
      · rename_i hbig
        rw [if_neg hbig]
        refine faninScan_mem h i ?_
        rw [OrdSet.mem_insertAll, ← OrdSet.mem_def]
        tauto

theorem LimitedTo.fanin {seed : ClusterId} (hl : LimitedTo N c) (hN : limitIn ≤ N) (hp : c.Part)
    (hcl : c.Closed) (h : faninIter c seed = some c') : LimitedTo N c' := by
  obtain ⟨hs, ⟨-, rfl⟩ | ⟨htakes, hg⟩⟩ := faninIter_cases hp h
  · exact hl
  refine ⟨fun k hk => ?_, fun k hk => ?_, fun n hn => ?_⟩
  · by_cases hks : k = seed
    · subst hks
      intro n hn i hi
      rw [hg.same.inputs] at hi
      by_cases him : i ∈ (c'.cluster k).nodesC
      · exact .inl him
      refine .inr ((hg.inputNodes i).2 ⟨him, ?_⟩)
      by_cases hnc : n ∈ (c.cluster k).nodesC
      · -- a cached input of an old member: an absorbed one would be a member
        have hic := (hl.covers k hs n hnc i hi).resolve_left fun h1 =>
          him ((hg.members i).2 (.inl h1))
        refine .inl ⟨hic, ?_⟩
        by_contra hii
        have hii' : (c.node i).isInput = false := by simpa using hii
        have hi' := hcl n (hp.mem k hs n hnc).1 i hi
        exact him ((hg.members i).2 (.inr ⟨i, hic, hii', (hp.covers i hi' hii').2⟩))
      · exact .inr ⟨n, hn, hnc, hi⟩
    · intro n hn i hi
      rw [hg.other k hks] at hn ⊢
      exact hl.covers k (hg.sub.mem hk) n hn i (hg.same.inputs n ▸ hi)
  · by_cases hks : k = seed
    · subst hks
      refine le_trans (OrdSet.size_le_of_subset fun i hi => ?_) (htakes.1.trans hN)
      refine faninScan_mem htakes.1 i (.inr ?_)
      obtain ⟨him, ⟨h1, h2⟩ | ⟨n, hn, hnc, hin⟩⟩ := (hg.inputNodes i).1 hi
      · exact ⟨i, h1, by rw [if_pos h2]⟩
      · obtain ⟨j, h1, h2, h3⟩ := ((hg.members n).1 hn).resolve_left hnc
        refine ⟨j, h1, ?_⟩
        rw [if_neg (by simp [h2])]
        exact (hl.covers _ (hg.joins j h1 h2) n h3 i hin).resolve_left fun h4 =>
          him ((hg.members i).2 (.inr ⟨j, h1, h2, h4⟩))
    · rw [hg.other k hks]
      exact hl.caches k (hg.sub.mem hk)
  · exact distinctInputs_congr (hg.same.inputs n) ▸ hl.nodes n (hg.same.allNodes ▸ hn)

/-! ## Committed merges -/

/-- While the clusters of a solution are merged into `tar`: its cache covers its fanins and stays
in `U`. -/
structure Joining (c c' : Circuit) (tar : ClusterId) (U : NodeId → Prop) : Prop where
  same : SameNet c c'
  part : c'.Part
  tarMem : tar ∈ c'.allClusters
  sub : c'.allClusters.Sublist c.allClusters
  other : ∀ k, k ≠ tar → c'.cluster k = c.cluster k
  covers : CoversAt c' tar
  within : ∀ i ∈ (c'.cluster tar).inputNodes, U i

/-- The outside fanins of the members of the cluster lie in `U`. -/
def FaninsIn (c : Circuit) (k : ClusterId) (U : NodeId → Prop) : Prop :=
  ∀ n ∈ (c.cluster k).nodesC, ∀ i ∈ (c.node n).inputs, i ∈ (c.cluster k).nodesC ∨ U i

theorem Joining.merge {c1 c2 : Circuit} {tar k : ClusterId} {U : NodeId → Prop}
    {it : Option ClusterId} (h : Joining c c1 tar U) (hk : FaninsIn c k U)
    (he : c1.merge tar k = some (c2, it)) : Joining c c2 tar U := by
  by_cases hd : k ∈ c1.allClusters ∧ tar ≠ k
  · obtain ⟨hkm, hne⟩ := hd
    obtain ⟨c3, h1, h2⟩ := merge_spec hkm hne
    cases h1.symm.trans he
    have hclu := h.other k hne.symm
    refine ⟨h.same.trans h2.same, h2.part h.part h.tarMem hkm hne, ?_, ?_, fun j hj => ?_,
      h2.coversAt h.covers, fun i hi => ?_⟩
    · rw [h2.allClusters]
      exact (List.mem_erase_of_ne hne).2 h.tarMem
    · rw [h2.allClusters]
      exact List.erase_sublist.trans h.sub
    · rw [h2.other j hj, h.other j hj]
    · obtain ⟨him, h3 | ⟨n, hn, hin⟩⟩ := (h2.inputNodes i).1 hi
      · exact h.within i h3
      · rw [hclu] at hn
        refine (hk n hn i (h.same.inputs n ▸ hin)).resolve_left fun h4 => him ?_
        rw [h2.nodesC, hclu]
        exact List.mem_append_right _ h4
  · rw [Circuit.merge, if_neg hd] at he
    cases he

theorem Joining.solution {c1 : Circuit} {tar seed : ClusterId} {rest : List ClusterId}
    {U : NodeId → Prop} {it : Option ClusterId} (h : Joining c c tar U)
    (hrest : ∀ k ∈ rest, FaninsIn c k U) (hseed : FaninsIn c seed U)
    (he : mergeSolution (tar :: rest) seed c = some (c1, it)) : Joining c c1 tar U := by
  obtain ⟨c2, h1, h2⟩ := Option.bind_eq_some_iff.1 he
  have h3 : Joining c c2 tar U := by
    refine foldlM_inv (P := fun c2 => Joining c c2 tar U) (fun c3 c4 k hk h3 h4 => ?_) h h1
    obtain ⟨⟨c5, it⟩, h5, rfl⟩ := Option.map_eq_some_iff.1 h4
    exact h3.merge (hrest k hk) h5
  exact h3.merge hseed h2

section
variable {c2 c3 : Circuit} {t : NodeId} {S : List NodeId} {seed tar : ClusterId} {V : NodeSet}
  (hl : LimitedTo N c) (hre : Rewired c c2 t S) (hclu : c2.cluster = c.cluster)
include hl hre hclu

/-- The new cover of `t` leaves the other clusters as they are. -/
theorem LimitedTo.coversAt_cover (hp : c.Part) (htk : (c.node t).myCluster = seed) {k : ClusterId}
    (hk : k ∈ c.allClusters) (hks : k ≠ seed) : CoversAt c2 k := by
  intro n hn i hi
  rw [hclu] at hn ⊢
  have hnt : n ≠ t := fun he => hks ((hp.mem k hk n hn).2.2.symm.trans (he ▸ htk))
  exact hl.covers k hk n hn i (hre.inputs n hnt ▸ hi)

/-- The limit after the merges: the joined cluster and `t` have their inputs in `V`. -/
theorem LimitedTo.joining (hcls : c2.allClusters = c.allClusters)
    (hj : Joining c2 c3 tar (· ∈ V))
    (hcov : ∀ k ∈ c3.allClusters, k ≠ tar → CoversAt c2 k) (hSV : ∀ i ∈ S, i ∈ V)
    (hsize : V.size ≤ N) : LimitedTo N c3 := by
  refine ⟨fun k hk => ?_, fun k hk => ?_, fun n hn => ?_⟩
  · by_cases hkt : k = tar
    · exact hkt ▸ hj.covers
    · intro n hn i hi
      rw [hj.other k hkt] at hn ⊢
      exact hcov k hk hkt n hn i (hj.same.inputs n ▸ hi)
  · by_cases hkt : k = tar
    · subst hkt
      exact (OrdSet.size_le_of_subset hj.within).trans hsize
    · rw [hj.other k hkt, hclu]
      exact hl.caches k (hcls ▸ hj.sub.mem hk)
  · rw [distinctInputs_congr (hj.same.inputs n)]
    by_cases hnt : n = t
    · subst hnt
      refine (OrdSet.size_le_of_subset fun i hi => hSV i ?_).trans hsize
      rwa [distinctInputs, OrdSet.mem_ofList, hre.inputsSelf] at hi
    · rw [distinctInputs_congr (hre.inputs n hnt)]
      exact hl.nodes n (hre.allNodes ▸ hj.same.allNodes ▸ hn)

end

/-- **A committed merge** whose solution fits the limit. -/
theorem LimitedTo.commit {sol : List ClusterId} {onset : List (OrdMap NodeId Bool)}
    {seed : ClusterId} {t : NodeId} {it : Option ClusterId} {V : NodeSet} (hl : LimitedTo N c)
    (hm : c.Mirror) (hp : c.Part) (h : Mergeable c sol onset seed t)
    (hS : ∀ i ∈ newInputs onset, ∃ k ∈ sol, i ∈ (c.cluster k).inputNodes)
    (hV : ∀ k ∈ sol, ∀ i ∈ (c.cluster k).inputNodes, i ∈ V) (hsize : V.size ≤ N)
    (he : mergeSeed sol onset seed t c = some (c', it)) :
    LimitedTo N c' ∧ c'.Mirror ∧ c'.Part := by
  obtain ⟨hs, hst, hne, hnd, hsol, hone, hkeys⟩ := h
  obtain ⟨htc, hti, htk⟩ := hp.mem seed hs t (by rw [hst]; simp)
  obtain ⟨tar, rest, rfl⟩ := List.exists_cons_of_ne_nil hne
  have hSV : ∀ i ∈ newInputs onset, i ∈ V := fun i hi => by
    obtain ⟨k, hk, hik⟩ := hS i hi
    exact hV k hk i hik
  -- the new cover
  obtain ⟨c2, h1, hre⟩ := cover_spec hm htc hti hone hkeys
  obtain ⟨hclu, hcls, -, hmy⟩ := cover_clusters hm htc hti h1
  have hp2 := hre.part hp hclu hcls hmy
  have hcov : ∀ k ∈ c.allClusters, k ≠ seed → CoversAt c2 k := fun k =>
    hl.coversAt_cover hre hclu hp htk
  -- the merges
  obtain ⟨c3, h2, h3⟩ := mergeSeed_steps h1 he
  have htar := hsol tar (by simp)
  have hstart : Joining c2 c2 tar (· ∈ V) := by
    refine ⟨.refl c2, hp2, hcls ▸ htar.1, .refl _, fun _ _ => rfl, hcov tar htar.1 htar.2,
      fun i hi => hV tar (by simp) i ?_⟩
    rwa [hclu] at hi
  have hfan : ∀ k ∈ tar :: rest, FaninsIn c2 k (· ∈ V) := by
    intro k hk n hn i hi
    refine (hcov k (hsol k hk).1 (hsol k hk).2 n hn i hi).imp_right fun h2 => hV k hk i ?_
    rwa [hclu] at h2
  have hseed : FaninsIn c2 seed (· ∈ V) := by
    intro n hn i hi
    rw [hclu, hst, List.mem_singleton] at hn
    rw [hn, hre.inputsSelf] at hi
    exact .inr (hSV i hi)
  have hj := hstart.solution (fun k hk => hfan k (List.mem_cons_of_mem _ hk)) hseed h2
  have hgone : seed ∉ c3.allClusters := by
    obtain ⟨c4, h4, h5⟩ := mergeSolution_spec hp2 (hcls ▸ hsol) hnd (hcls ▸ hs)
    cases h2.symm.trans h4
    rw [h5.allClusters, mem_foldl_listErase hp2.nodup]
    exact fun h6 => h6.2 (by simp)
  have hl3 : LimitedTo N c3 := hl.joining hre hclu hcls hj
    (fun k hk _ => hcov k (hcls ▸ hj.sub.mem hk) fun he => hgone (he ▸ hk)) hSV hsize
  -- the clean-up
  have htr := removeUnused_trimmed (hj.same.mirror hre.mirror) hj.part h3
  exact ⟨htr.limited hj.part hl3, htr.mirror, htr.part⟩

end

/-! ## Whole runs -/

namespace PassStep

/-- What `SelectMerge` checks of a selection: one cluster, or clusters whose inputs fit the limit. -/
def Accepted (c : Circuit) : PassStep → Prop
  | commit sol onset _ _ => ∃ lmt inputs,
      (∀ i, i ∈ inputs ↔ ∃ k ∈ sol, i ∈ (c.cluster k).inputNodes) ∧
        accepts lmt ⟨sol, inputs, some onset⟩ = true
  | _ => True

/-- The new inputs are still in the circuit. -/
def Fresh (c : Circuit) : PassStep → Prop
  | commit _ onset _ _ => ∀ i ∈ newInputs onset, i ∈ c.allNodes
  | _ => True

end PassStep

theorem accepts_size {lmt : Int} {sel : Selection} (h : accepts lmt sel = true) :
    sel.solutionC.length = 1 ∨ sel.solutionInputs.size ≤ limitIn := by
  simp only [accepts, Bool.or_eq_true, Bool.and_eq_true, decide_eq_true_eq] at h
  tauto

/-- One step. -/
theorem LimitedTo.step {c c' : Circuit} {N : Nat} {s : PassStep} (hl : LimitedTo N c)
    (hN : limitIn ≤ N) (hm : c.Mirror) (hp : c.Part) (hv : s.Valid c) (ha : s.Accepted c)
    (hf : s.Fresh c) (he : s.apply c = some c') : LimitedTo N c' ∧ c'.Mirror ∧ c'.Part := by
  cases s with
  | commit sol onset seed t =>
    have hM := hv.mergeable hf
    obtain ⟨⟨c1, it⟩, h1, rfl⟩ := Option.map_eq_some_iff.1 he
    obtain ⟨lmt, inputs, hin, hacc⟩ := ha
    rcases accepts_size hacc with hone | hsize
    · -- one cluster: its cache is within the limit already
      obtain ⟨k, rfl⟩ := List.length_eq_one_iff.1 hone
      exact hl.commit hm hp hM hv.2.2.2.2.2.2 (fun j hj i hi => List.mem_singleton.1 hj ▸ hi)
        (hl.caches k (hM.solMem k (by simp)).1) h1
    · exact hl.commit hm hp hM hv.2.2.2.2.2.2 (fun j hj i hi => (hin i).2 ⟨j, hj, hi⟩)
        (hsize.trans hN) h1
  | reject t =>
    obtain ⟨c1, h1, h2⟩ := reject_spec hm hv.1 hv.2
    cases h1.symm.trans he
    refine ⟨⟨fun k hk n hn i hi => ?_, fun k hk => ?_, fun n hn => ?_⟩, h2.mirror hm, h2.part hp⟩
    · rw [h2.cluster] at hn ⊢
      exact hl.covers k (h2.allClusters ▸ hk) n hn i (h2.inputs n ▸ hi)
    · rw [h2.cluster]
      exact hl.caches k (h2.allClusters ▸ hk)
    · exact distinctInputs_congr (h2.inputs n) ▸ hl.nodes n (h2.allNodes ▸ hn)
  | fanin seed =>
    refine ⟨hl.fanin hN hp hm.closed he, ?_⟩
    obtain ⟨-, ⟨-, rfl⟩ | ⟨-, hg⟩⟩ := faninIter_cases hp he
    · exact ⟨hm, hp⟩
    · exact ⟨hg.same.mirror hm, hg.part⟩
  | quick seed =>
    simp only [PassStep.apply] at he
    split at he
    · rename_i k hq
      obtain ⟨c1, h1, h2, h3⟩ := quick_spec hp hv hq
      rw [h1] at he
      cases he
      exact ⟨hl.quick hN hv (quickSelect_spec hq) h2, h2.same.mirror hm, h3⟩
    · cases he
      exact ⟨hl, hm, hp⟩

section
variable {new : NodeId → ClusterId} {c₀ : Circuit} (h : Start new c₀)
include h

theorem Start.limitedTo {N : Nat} (hlim : ∀ n ∈ c₀.allNodes, (distinctInputs c₀ n).size ≤ N)
    {l : List ClusterId} (hl : l.Perm (c₀.initCluster new).allClusters) :
    LimitedTo N { c₀.initCluster new with allClusters := l } := by
  obtain ⟨hw, hex⟩ := h.wf hl
  have hs := initCluster_sameNet h.new
  refine ⟨fun k hk n hn i hi => ?_, fun k hk => ?_, fun n hn => ?_⟩
  · by_cases him : i ∈ ((c₀.initCluster new).cluster k).nodesC
    · exact .inl him
    · exact .inr ((hex k hk i).2 ⟨him, n, hn, hi⟩)
  · obtain ⟨n, hn, hi, rfl⟩ := (mem_initClusters h.new h.noClusters).1 (hl.mem_iff.1 hk)
    refine (OrdSet.size_le_of_subset fun i hik => ?_).trans (hlim n hn)
    rw [distinctInputs, OrdSet.mem_ofList]
    exact (((initCluster_spec h.new).cluster n hn hi).2 i).1 hik |>.2
  · have hn' : n ∈ c₀.allNodes := hs.allNodes ▸ hn
    have heq : distinctInputs { c₀.initCluster new with allClusters := l } n = distinctInputs c₀ n :=
      distinctInputs_congr (hs.inputs n)
    exact heq ▸ hlim n hn'

variable (hlim : ∀ n ∈ c₀.allNodes, (distinctInputs c₀ n).size ≤ limitIn)
include hlim

/-- **In runs whose committed merges read nodes that are still there** every cluster caches at most
`limitIn` inputs, and every node has at most so many. -/
theorem inputs_limited {c : Circuit}
    (hr : Run (fun c s => s.Accepted c ∧ s.Fresh c) new c₀ c) :
    (∀ k ∈ c.allClusters, (c.cluster k).inputNodes.size ≤ limitIn) ∧
      ∀ n ∈ c.allNodes, (distinctInputs c n).size ≤ limitIn := by
  have key : LimitedTo limitIn c ∧ c.Mirror ∧ c.Part := by
    induction hr with
    | init hl =>
      obtain ⟨hw, -⟩ := h.wf hl
      exact ⟨h.limitedTo hlim hl, hw.mirror, hw.part⟩
    | step _ hv hc he ih => exact ih.1.step le_rfl ih.2.1 ih.2.2 hv hc.1 hc.2 he
  have hl := limitedTo_iff.1 key.1
  exact ⟨hl.caches, hl.nodes⟩

end

theorem PassStep.Accepted.single (c : Circuit) (k : ClusterId) (onset : List (OrdMap NodeId Bool))
    (seed : ClusterId) (t : NodeId) : (PassStep.commit [k] onset seed t).Accepted c :=
  ⟨1, (c.cluster k).inputNodes, fun i => by simp, rfl⟩

theorem inputs_limited_reconvergent : ∃ c,
    (PassStep.commit [2] [OrdMap.tabulate [1] fun _ => true] 3 3).apply reconvergentCircuit =
      some c ∧ (∀ k ∈ c.allClusters, (c.cluster k).inputNodes.size ≤ limitIn) ∧
        ∀ n ∈ c.allNodes, (distinctInputs c n).size ≤ limitIn := by
  have hrun : ((PassStep.commit [2] [OrdMap.tabulate [1] fun _ => true] 3 3).apply
      reconvergentCircuit).isSome = true := by
    decide +kernel
  obtain ⟨c, h1⟩ := Option.isSome_iff_exists.1 hrun
  have hstart : Run (fun c s => s.Accepted c ∧ s.Fresh c) id (ofNodes reconvergent)
      reconvergentCircuit := .init (.refl _)
  have hfresh : (PassStep.commit [2] [OrdMap.tabulate [1] fun _ => true] 3 3).Fresh
      reconvergentCircuit := by
    show ∀ i ∈ newInputs [OrdMap.tabulate [1] fun _ => true], i ∈ reconvergentCircuit.allNodes
    decide
  exact ⟨c, h1, inputs_limited (.ofNodes reconvergent_ordered) (by decide)
    (hstart.step (by decide) ⟨.single _ 2 _ 3 3, hfresh⟩ h1)⟩

/-! ## A removed node that is read again -/

/-- `i` and `x` are buffers of `z`, `w` reads `x` and `v`, and only `s` reads `w`. -/
def staleInputs : List Node := [
  { name := "q1", isInput := true, outputs := [6, 12] },
  { name := "q2", isInput := true, outputs := [6, 12] },
  { name := "q3", isInput := true, outputs := [6, 12] },
  { name := "p", isInput := true, outputs := [9, 12, 13] },
  { name := "g", isInput := true, outputs := [9, 12, 13] },
  { name := "r", isInput := true, outputs := [11, 12, 14] },
  { name := "z", cube := "111 1\n", inputs := [0, 1, 2], outputs := [7, 14], isOutput := true },
  { name := "i", cube := "1 1\n", inputs := [6], outputs := [8] },
  { name := "x", cube := "1 1\n", inputs := [7], outputs := [10] },
  { name := "v", cube := "11 1\n", inputs := [3, 4], outputs := [10], isOutput := true },
  { name := "w", cube := "11 1\n", inputs := [8, 9], outputs := [11] },
  { name := "s", cube := "11 1\n", inputs := [10, 5], isOutput := true },
  { name := "u", cube := "111111 1\n", inputs := [3, 4, 0, 1, 2, 5], isOutput := true },
  { name := "t", cube := "11 1\n", inputs := [3, 4], isOutput := true },
  { name := "y", cube := "11 1\n", inputs := [6, 5], isOutput := true }]

/-- `w` absorbs `x` and `v`; `s` is merged with `u`, which removes `w`, `x` and `i`; `t` is merged
with what is left of the cluster of `w`, and reads `i`. -/
def staleSteps : List PassStep := [
  .fanin 7, .fanin 10,
  .commit [12] [OrdMap.tabulate [0, 1, 2, 3, 4, 5] fun _ => true] 11 11,
  .commit [10] [OrdMap.tabulate [3, 4, 7] fun i => i ≠ 7] 13 13,
  .fanin 10, .fanin 14]

theorem staleInputs_accepted : ∀ s ∈ staleSteps, ∀ c, s.Accepted c := by
  simp only [staleSteps, List.forall_mem_cons, List.not_mem_nil, false_implies, implies_true,
    and_true]
  exact ⟨fun _ => trivial, fun _ => trivial, fun c => .single c _ _ _ _,
    fun c => .single c _ _ _ _, fun _ => trivial, fun _ => trivial⟩

/-- The cluster of `y` has seven inputs in the end. -/
theorem stale_exceeds : Start id (ofNodes staleInputs) ∧
    (∀ n ∈ (ofNodes staleInputs).allNodes,
      (distinctInputs (ofNodes staleInputs) n).size ≤ limitIn) ∧
    ∃ c, Run PassStep.Accepted id (ofNodes staleInputs) c ∧
      ∃ k ∈ c.allClusters, limitIn < (c.cluster k).inputNodes.size := by
  have hrun : ((applyAll staleSteps ((ofNodes staleInputs).initCluster id)).any fun c => decide
      (14 ∈ c.allClusters ∧ limitIn < (c.cluster 14).inputNodes.size)) = true := by
    decide +kernel
  obtain ⟨c, h1, h2⟩ := (Option.any_eq_true _ _).1 hrun
  obtain ⟨h3, h4⟩ := of_decide_eq_true h2
  exact ⟨.ofNodes (by decide), by decide, c,
    (Run.init (.refl _)).applyAll staleInputs_accepted h1, 14, h3, h4⟩

end Msyn.NodeMerge
