import Msyn.Merge.Candidates
import Msyn.Select.Selector

/-!
# Runs of the passes

`Reached`: the circuits that the steps of the passes lead to from `InitCluster`, where a step is a
committed merge, a rejected seed, a step of `FaninMerge` or a merge of `QuickMerge`
(`clusters_sound`). `Head`: the circuit and the iterator at the head of the loop of `SelectMerge`
(`cursor_sound`).
-/

namespace Msyn.NodeMerge

open Nodecircuit Circuit Relation

/-! ## All passes -/

inductive PassStep where
  | commit (sol : List ClusterId) (onset : List (OrdMap NodeId Bool)) (seed : ClusterId) (t : NodeId)
  | reject (t : NodeId)
  | fanin (seed : ClusterId)
  | quick (seed : ClusterId)

namespace PassStep

/-- `none` where the program is undefined. -/
def apply (c : Circuit) : PassStep → Option Circuit
  | commit sol onset seed t => (mergeSeed sol onset seed t c).map Prod.fst
  | reject t => setTargets [t] c >>= restore [t]
  | fanin seed => faninIter c seed
  | quick seed =>
    match quickSelect c seed with
    | some selected => (c.merge seed selected).map Prod.fst
    | none => some c

/-- What the passes guarantee of a step: the clusters merged with the seed lie outside its fanout
cone, and the inputs of the new cover are cached inputs of theirs. -/
def Valid (c : Circuit) : PassStep → Prop
  | commit sol onset seed t => seed ∈ c.allClusters ∧ (c.cluster seed).nodesC = [t] ∧
      sol ≠ [] ∧ sol.Nodup ∧ (∀ k ∈ sol, Outside c seed k) ∧ onset ≠ [] ∧
      ∀ i ∈ newInputs onset, ∃ k ∈ sol, i ∈ (c.cluster k).inputNodes
  | reject t => t ∈ c.allNodes ∧ (c.node t).isInput = false
  | fanin seed => seed ∈ c.allClusters
  | quick seed => seed ∈ c.allClusters

/-- The clean-up of a committed merge takes no node twice and leaves no stale cached input. -/
def Clean (c : Circuit) : PassStep → Prop
  | commit sol onset seed t => CleanupSafe c t (newInputs onset) (c.node t).inputs ∧
      CachesSafe c sol onset seed t
  | _ => True

end PassStep

/-- The circuits after any clean steps from the clusters of `InitCluster`, which the unordered set
holds in any order. -/
inductive Reached (new : NodeId → ClusterId) (c₀ : Circuit) : Option Circuit → Prop
  | init {l : List ClusterId} : l.Perm (c₀.initCluster new).allClusters →
      Reached new c₀ (some { c₀.initCluster new with allClusters := l })
  | step {c : Circuit} {s : PassStep} : Reached new c₀ (some c) → s.Valid c → s.Clean c →
      Reached new c₀ (s.apply c)

theorem Wf.mergeable {c : Circuit} {sol : List ClusterId} {onset : List (OrdMap NodeId Bool)}
    {seed : ClusterId} {t : NodeId} (hw : Wf c) (hex : c.Exact)
    (h : (PassStep.commit sol onset seed t).Valid c) :
    Mergeable c sol onset seed t ∧ ∀ i ∈ newInputs onset, ¬ReflTransGen c.Fanin t i := by
  obtain ⟨h1, h2, h3, h4, h5, h6, h7⟩ := h
  refine ⟨⟨h1, h2, h3, h4, fun k hk => ⟨(h5 k hk).mem, (h5 k hk).ne⟩, h6, fun i hi => ?_⟩,
    fun i hi => ?_⟩
  · obtain ⟨k, hk, hik⟩ := h7 i hi
    obtain ⟨-, n, hn, hin⟩ := (hex k (h5 k hk).mem i).1 hik
    exact hw.mirror.closed n (hw.part.mem k (h5 k hk).mem n hn).1 i hin
  · obtain ⟨k, hk, hik⟩ := h7 i hi
    exact (h5 k hk).not_reach hw hex h1 (by rw [h2]; simp) hik

/-- One clean step. -/
theorem Wf.step {c : Circuit} {s : PassStep} (hw : Wf c) (hex : c.Exact) (hv : s.Valid c)
    (hc : s.Clean c) : ∃ c', s.apply c = some c' ∧ Wf c' ∧ c'.Exact := by
  cases s with
  | commit sol onset seed t =>
    obtain ⟨h1, h2⟩ := hw.mergeable hex hv
    obtain ⟨c3, c', h3, h4, h5⟩ := commit_spec hw.mirror hw.part h1
      (h1.not_lost hw.mirror hw.part hw.acyclic) hc.1
    exact ⟨c', by rw [PassStep.apply, h4]; rfl, hw.commit h1 h2 h3 h5,
      exact_commit hw hex h1 h3 h5 hc.2⟩
  | reject t =>
    obtain ⟨c', h1, h2⟩ := reject_spec hw.mirror hv.1 hv.2
    exact ⟨c', h1, (hw.reject h2).1, (hw.reject h2).2 hex⟩
  | fanin seed => exact hw.fanin hex hv
  | quick seed =>
    cases hq : quickSelect c seed with
    | none => exact ⟨c, by rw [PassStep.apply, hq], hw, hex⟩
    | some k =>
      obtain ⟨c', h1, h2, h3⟩ := hw.quick hex hv hq
      exact ⟨c', by rw [PassStep.apply, hq]; simp only [h1]; rfl, h2, h3⟩

/-- **In runs of clean steps** the program is defined, the clusters partition the nodes, and the
cached inputs are exact. -/
theorem clusters_sound {new : NodeId → ClusterId} {c₀ : Circuit} (h : Start new c₀)
    {o : Option Circuit} (hr : Reached new c₀ o) :
    ∃ c, o = some c ∧ c.Part ∧ c.Exact ∧
      ∀ k ∈ c.allClusters, ∀ i ∈ (c.cluster k).inputNodes, i ∈ c.allNodes := by
  have key : ∃ c, o = some c ∧ Wf c ∧ c.Exact := by
    induction hr with
    | init hl => exact ⟨_, rfl, h.wf hl⟩
    | @step c s _ hv hc ih =>
      obtain ⟨c', he, hw, hex⟩ := ih
      cases he
      exact hw.step hex hv hc
  obtain ⟨c, he, hw, hex⟩ := key
  refine ⟨c, he, hw.part, hex, fun k hk i hi => ?_⟩
  obtain ⟨-, n, hn, hin⟩ := (hex k hk i).1 hi
  exact hw.mirror.closed n (hw.part.mem k hk n hn).1 i hin

/-- `x` shares a cluster with `y`, and only `s` reads it. -/
def sharedCluster : List Node := [
  { name := "p", isInput := true, outputs := [2, 4] },
  { name := "q", isInput := true, outputs := [2, 3] },
  { name := "u", cube := "11 1\n", inputs := [0, 1], isOutput := true },
  { name := "y", cube := "1 1\n", inputs := [1], outputs := [4], isOutput := true },
  { name := "x", cube := "11 1\n", inputs := [3, 0], outputs := [5] },
  { name := "s", cube := "1 1\n", inputs := [4], isOutput := true }]

/-- The pattern where both `p` and `q` are 1. -/
def bothOnes : OrdMap NodeId Bool := OrdMap.tabulate [0, 1] fun _ => true

/-- `s` is merged with `u`, and `x` is removed: its input `p` stays among those of `y`. -/
theorem sharedCluster_stale : Start id (ofNodes sharedCluster) ∧
    ∃ c1 c2, Reached id (ofNodes sharedCluster) (some c1) ∧
      (PassStep.commit [2] [bothOnes] 5 5).Valid c1 ∧
      (PassStep.commit [2] [bothOnes] 5 5).apply c1 = some c2 ∧ ¬c2.Exact := by
  have hstart : Start id (ofNodes sharedCluster) := .ofNodes (by decide)
  have hrun : ((faninIter ((ofNodes sharedCluster).initCluster id) 4).any fun c1 => decide
      ((5 ∈ c1.allClusters ∧ (c1.cluster 5).nodesC = [5] ∧ 2 ∈ c1.allClusters ∧
        2 ∉ c1.getClusterFanoutCone 5 ∧ ∀ i ∈ newInputs [bothOnes], i ∈ (c1.cluster 2).inputNodes) ∧
      ((PassStep.commit [2] [bothOnes] 5 5).apply c1).any (fun c2 => decide
        (4 ∈ c2.allClusters ∧ 0 ∈ (c2.cluster 4).inputNodes ∧
          ∀ n ∈ (c2.cluster 4).nodesC, 0 ∉ (c2.node n).inputs)) = true)) = true := by
    decide +kernel
  obtain ⟨c1, h1, hc1⟩ := (Option.any_eq_true _ _).1 hrun
  obtain ⟨⟨h2, h3, h4, h5, h6⟩, h7⟩ := of_decide_eq_true hc1
  obtain ⟨c2, h8, hc2⟩ := (Option.any_eq_true _ _).1 h7
  obtain ⟨h9, h10, h11⟩ := of_decide_eq_true hc2
  refine ⟨hstart, c1, c2, ?_, ⟨h2, h3, by decide, by decide, fun k hk => ?_, by decide, fun i hi =>
    ⟨2, by decide, h6 i hi⟩⟩, h8, fun hex => ?_⟩
  · have h0 : Reached id (ofNodes sharedCluster) (some ((ofNodes sharedCluster).initCluster id)) :=
      .init (.refl _)
    have h4 : 4 ∈ ((ofNodes sharedCluster).initCluster id).allClusters := by decide
    exact h1 ▸ h0.step (s := .fanin 4) h4 trivial
  · rw [List.mem_singleton.1 hk]
    exact ⟨h4, by decide, h5⟩
  · obtain ⟨-, n, hn, hi⟩ := (hex 4 h9 0).1 h10
    exact h11 n hn hi

/-- `s` as a buffer of `b`: only `a` is lost. -/
theorem reconvergent_lost {n : NodeId}
    (h : Lost reconvergentCircuit 3 [1] (reconvergentCircuit.node 3).inputs n) : n = 2 := by
  have hmem := h.mem reconvergent_mirror (reconvergent_mirror.closed 3 (by decide))
  have hi := h.internal
  have hS := h.not_mem_keys
  have key : ∀ n ∈ reconvergentCircuit.allNodes, reconvergentCircuit.Internal n → n ∉ [1] → n = 2 := by
    decide
  exact key n hmem hi hS

theorem reconvergent_clean :
    (PassStep.commit [2] [OrdMap.tabulate [1] fun _ => true] 3 3).Clean reconvergentCircuit := by
  have hin : newInputs [OrdMap.tabulate [1] fun _ => true] = [1] := by decide
  refine ⟨?_, ?_⟩
  · rw [hin]
    intro a x b he hL
    have := reconvergent_lost (hL.mono fun n hn => he ▸ List.mem_append_left _ hn)
    subst this
    rcases a with _ | ⟨y, a⟩
    · exact not_lost_nil hL
    · have : (2 : NodeId) ∈ [1] := by
        have he' : (reconvergentCircuit.node 3).inputs = [2, 1] := by decide
        rw [he', List.cons_append, List.cons.injEq] at he
        rw [he.2]
        simp
      simp at this
  · simp only [CachesSafe, hin]
    intro n hn _ i hi
    obtain rfl := reconvergent_lost hn
    refine .inr ⟨3, ⟨by decide, by decide, fun h => ?_, by decide⟩, ?_⟩
    · cases reconvergent_lost h
    · exact (by decide : ∀ i ∈ (reconvergentCircuit.node 2).inputs,
        i ∈ inputsAfter reconvergentCircuit 3 [1] 3) i hi

theorem clusters_sound_reconvergent :
    ∃ c, (PassStep.commit [2] [OrdMap.tabulate [1] fun _ => true] 3 3).apply reconvergentCircuit =
      some c ∧ c.Part ∧ c.Exact ∧
      ∀ k ∈ c.allClusters, ∀ i ∈ (c.cluster k).inputNodes, i ∈ c.allNodes := by
  refine clusters_sound (.ofNodes reconvergent_ordered)
    ((Reached.init (.refl _)).step ⟨by decide, by decide, by decide, by decide, fun k hk => ?_,
      by decide, by decide⟩ reconvergent_clean)
  rw [List.mem_singleton.1 hk]
  exact ⟨by decide, by decide, by decide⟩

/-! ## The iterator of SelectMerge -/

/-- What `MergeSelection` guarantees of a selection: pairwise different clusters, none of them the
seed, and a cover whose inputs are cached inputs of theirs. -/
structure Offered (c : Circuit) (seed : ClusterId) (sel : Selection) : Prop where
  nodup : sel.solutionC.Nodup
  mem : ∀ k ∈ sel.solutionC, k ∈ c.allClusters ∧ k ≠ seed
  inputs : ∀ onset, sel.onset = some onset →
    ∀ i ∈ newInputs onset, ∃ k ∈ sel.solutionC, i ∈ (c.cluster k).inputNodes

/-- If the selection is committed: its cached inputs are still in the circuit, the clean-up does
not reach the seed, and the cluster after the seed keeps a node. -/
def CursorSafe (c : Circuit) (seed : ClusterId) (sel : Selection) : Prop :=
  ∀ t onset, (c.cluster seed).nodesC = [t] → sel.onset = some onset →
    (∀ i ∈ newInputs onset, i ∈ c.allNodes) ∧
    ¬Lost c t (newInputs onset) (c.node t).inputs t ∧
    ∀ k, nextSeed c sel.solutionC seed = some k → ∃ n ∈ c.allNodes, (c.node n).isInput = false ∧
      ¬Lost c t (newInputs onset) (c.node t).inputs n ∧ clusterAfter c sel.solutionC seed n = k

/-- The heads of the loop of `SelectMerge`: the circuit and the saved iterator. -/
inductive Head (spec : Circuit) (lmt : Int) (c₀ : Circuit) : Circuit → Option ClusterId → Prop
  | begin : Head spec lmt c₀ c₀ c₀.allClusters.head?
  | next {c c' : Circuit} {seed : ClusterId} {it : Option ClusterId} {sel : Selection} :
      Head spec lmt c₀ c (some seed) → Offered c seed sel →
      (accepts lmt sel = true → CursorSafe c seed sel) →
      selectIter (fun _ _ _ _ _ => some sel) spec lmt c seed = some (c', it) →
      Head spec lmt c₀ c' it

/-- **What one iteration does**: it moves on, commits the selection, or rejects the seed. -/
theorem selectIter_cases {select : Selector} {spec c c' : Circuit} {lmt : Int} {seed : ClusterId}
    {it : Option ClusterId} (h : selectIter select spec lmt c seed = some (c', it)) :
    seed ∈ c.allClusters ∧ (c' = c ∧ it = next seed c.allClusters ∨
      ∃ t cl ci c1 sel, (c.cluster seed).nodesC = [t] ∧
        ((c.node t).hasOutput || (c.node t).isOutput) = true ∧
        initCand spec c seed = some (cl, ci) ∧ setTargets [t] c = some c1 ∧
        select c1 seed cl ci lmt = some sel ∧
        ((accepts lmt sel = true ∧ ∃ onset, sel.onset = some onset ∧
            mergeSeed sel.solutionC onset seed t c = some (c', it)) ∨
          (accepts lmt sel = false ∧ (setTargets [t] c >>= restore [t]) = some c' ∧
            it = next seed c'.allClusters))) := by
  unfold selectIter at h
  split at h
  · rename_i hseed
    refine ⟨hseed, ?_⟩
    split at h
    · rename_i t hn
      split at h
      · rename_i hout
        simp only [Option.bind_eq_bind, Option.bind_eq_some_iff, Prod.exists] at h
        obtain ⟨cl, ci, hi, c1, h1, sel, h2, h3⟩ := h
        refine .inr ⟨t, cl, ci, c1, sel, hn, hout, hi, h1, h2, ?_⟩
        split at h3
        · rename_i hacc
          obtain ⟨onset, h4, h5⟩ := Option.bind_eq_some_iff.1 h3
          exact .inl ⟨hacc, onset, h4, by rw [mergeSeed, h1]; exact h5⟩
        · rename_i hacc
          obtain ⟨c2, h4, h5⟩ := Option.bind_eq_some_iff.1 h3
          cases h5
          exact .inr ⟨by simpa using hacc, by rw [h1]; exact h4, rfl⟩
      · cases h
        exact .inl ⟨rfl, rfl⟩
    · cases h
      exact .inl ⟨rfl, rfl⟩
  · cases h

theorem accepts_ne {lmt : Int} {sel : Selection} (h : accepts lmt sel = true) :
    sel.solutionC ≠ [] := by
  intro he
  simp [accepts, he] at h

theorem mergeSeed_onset {sol : List ClusterId} {onset : List (OrdMap NodeId Bool)}
    {seed : ClusterId} {t : NodeId} {c : Circuit} {r : Circuit × Option ClusterId}
    (h : mergeSeed sol onset seed t c = some r) : onset ≠ [] := by
  rintro rfl
  obtain ⟨c1, -, h⟩ := Option.bind_eq_some_iff.1 h
  have : c1.restruct t [] = none := by
    rw [restruct]
    split <;> rfl
  rw [commit, this] at h
  cases h

/-- One iteration. -/
theorem selectIter_cursor {spec c c' : Circuit} {lmt : Int} {seed : ClusterId}
    {it : Option ClusterId} {sel : Selection} (hm : c.Mirror) (hp : c.Part)
    (ho : Offered c seed sel) (hs : accepts lmt sel = true → CursorSafe c seed sel)
    (h : selectIter (fun _ _ _ _ _ => some sel) spec lmt c seed = some (c', it)) :
    c'.Mirror ∧ c'.Part ∧ ∀ k, it = some k → k ∈ c'.allClusters := by
  obtain ⟨hseed, ⟨rfl, rfl⟩ | ⟨t, cl, ci, c1, _, hn, -, -, -, he, h⟩⟩ := selectIter_cases h
  · exact ⟨hm, hp, fun k hk => next_mem hk⟩
  cases he
  obtain ⟨htc, hti, -⟩ := hp.mem seed hseed t (by rw [hn]; simp)
  rcases h with ⟨hacc, onset, hon, hmerge⟩ | ⟨-, hrej, rfl⟩
  · obtain ⟨hkeys, hlost, hnext⟩ := hs hacc t onset hn hon
    have hM : Mergeable c sel.solutionC onset seed t :=
      ⟨hseed, hn, accepts_ne hacc, ho.nodup, ho.mem, mergeSeed_onset hmerge, hkeys⟩
    have hsafe : CleanupSafe c t (newInputs onset) (c.node t).inputs := by
      by_contra hsafe
      rw [commit_undefined hm hp hM hlost hsafe] at hmerge
      cases hmerge
    obtain ⟨c3, c4, h3, h4, h5⟩ := commit_spec hm hp hM hlost hsafe
    rw [h4] at hmerge
    cases hmerge
    refine ⟨h5.stripped.mirror, h5.stripped.part, fun k hk => ?_⟩
    -- the node that the cluster keeps
    obtain ⟨n, hnc, hni, hnl, hnk⟩ := hnext k hk
    have hn' : n ∈ c'.allNodes := by
      by_contra hn'
      exact hnl ((h5.gone n (h3.rewired.allNodes ▸ hnc)).1 hn')
    have hk' : (c'.node n).myCluster = k := by
      rw [h5.stripped.myCluster, h3.myCluster n hnc hni]
      exact hnk
    have hi' : (c'.node n).isInput = false := by
      rw [h5.stripped.isInput, h3.rewired.isInput]
      exact hni
    exact hk' ▸ (h5.stripped.part.covers n hn' hi').1
  · obtain ⟨c2, h1, h2⟩ := reject_spec hm htc hti
    rw [h1] at hrej
    cases hrej
    exact ⟨h2.mirror hm, h2.part hp, fun k hk => next_mem hk⟩

/-- **In runs where the next cluster always keeps a node** the iterator never dangles. -/
theorem cursor_sound {spec c₀ c : Circuit} {lmt : Int} {it : Option ClusterId} (hm : c₀.Mirror)
    (hp : c₀.Part) (h : Head spec lmt c₀ c it) : ∀ k, it = some k → k ∈ c.allClusters := by
  have key : c.Mirror ∧ c.Part ∧ ∀ k, it = some k → k ∈ c.allClusters := by
    induction h with
    | begin => exact ⟨hm, hp, fun k hk => List.mem_of_mem_head? hk⟩
    | next _ ho hs h ih => exact selectIter_cursor ih.1 ih.2.1 ho hs h
  exact key.2.2

/-- `s` reads `p` through `a`, and `u` is a buffer of `p` too. -/
def twoBuffers : List Node := [
  { name := "p", isInput := true, outputs := [1, 2] },
  { name := "u", cube := "1 1\n", inputs := [0], isOutput := true },
  { name := "a", cube := "1 1\n", inputs := [0], outputs := [3] },
  { name := "s", cube := "1 1\n", inputs := [2], isOutput := true }]

/-- The circuit of `twoBuffers` with its clusters in the order `l`. -/
def twoBuffersCircuit (l : List ClusterId) : Circuit :=
  { (ofNodes twoBuffers).initCluster id with allClusters := l }

theorem twoBuffers_ordered : Ordered twoBuffers := by decide

theorem twoBuffers_wf {l : List ClusterId} (hl : l.Perm [1, 2, 3]) :
    Wf (twoBuffersCircuit l) ∧ (twoBuffersCircuit l).Exact :=
  (Start.ofNodes twoBuffers_ordered).wf (hl.trans (by decide))

/-- `s` is merged with `u`, and the cluster after that of `s` is that of `a`, which is removed. -/
theorem twoBuffers_dangling : (twoBuffersCircuit [3, 2, 1]).Mirror ∧
    (twoBuffersCircuit [3, 2, 1]).Part ∧ (twoBuffersCircuit [3, 2, 1]).Exact ∧
    (twoBuffersCircuit [3, 2, 1]).allClusters.head? = some 3 ∧
    ∃ c' k, selectIter (MergeSelection.mergeSelection MergeSelection.plainEnv 60 (ofNodes twoBuffers))
        (ofNodes twoBuffers) 1 (twoBuffersCircuit [3, 2, 1]) 3 = some (c', some k) ∧
      k ∉ c'.allClusters := by
  obtain ⟨hw, hex⟩ := twoBuffers_wf (l := [3, 2, 1]) (by decide)
  have hrun : ((selectIter (MergeSelection.mergeSelection MergeSelection.plainEnv 60 (ofNodes twoBuffers))
      (ofNodes twoBuffers) 1 (twoBuffersCircuit [3, 2, 1]) 3).any fun r => decide
        (r.2 = some 2 ∧ 2 ∉ r.1.allClusters)) = true := by
    decide +kernel
  obtain ⟨⟨c', it⟩, h1, h2⟩ := (Option.any_eq_true _ _).1 hrun
  obtain ⟨rfl, h3⟩ := of_decide_eq_true h2
  exact ⟨hw.mirror, hw.part, hex, rfl, c', 2, h1, h3⟩

/-- With the cluster of `u` after that of `s` the iterator is fine. -/
theorem cursor_sound_twoBuffers : ∃ c' it,
    selectIter (fun _ _ _ _ _ => some ⟨[1], .ofList [0], some [OrdMap.tabulate [0] fun _ => true]⟩)
        (ofNodes twoBuffers) 1 (twoBuffersCircuit [3, 1, 2]) 3 = some (c', it) ∧
      it = some 1 ∧ ∀ k, it = some k → k ∈ c'.allClusters := by
  obtain ⟨hw, -⟩ := twoBuffers_wf (l := [3, 1, 2]) (by decide)
  have hrun : ((selectIter
      (fun _ _ _ _ _ => some ⟨[1], .ofList [0], some [OrdMap.tabulate [0] fun _ => true]⟩)
      (ofNodes twoBuffers) 1 (twoBuffersCircuit [3, 1, 2]) 3).any fun r => decide
        (r.2 = some 1)) = true := by
    decide +kernel
  obtain ⟨⟨c', it⟩, h1, h2⟩ := (Option.any_eq_true _ _).1 hrun
  refine ⟨c', it, h1, of_decide_eq_true h2, ?_⟩
  refine cursor_sound hw.mirror hw.part (Head.begin.next ⟨by decide, by decide, ?_⟩ ?_ h1)
  · intro onset ho i hi
    cases ho
    exact ⟨1, by decide, (by decide : ∀ i ∈ newInputs [OrdMap.tabulate [0] fun _ => true],
      i ∈ ((twoBuffersCircuit [3, 1, 2]).cluster 1).inputNodes) i hi⟩
  · intro _ t onset ht ho
    cases ho
    obtain rfl : t = 3 := by
      have : ((twoBuffersCircuit [3, 1, 2]).cluster 3).nodesC = [3] := by decide
      rw [this] at ht
      cases ht
      rfl
    refine ⟨by decide, Lost.ne_target hw.acyclic hw.mirror (by decide) fun _ => id, fun k hk => ?_⟩
    have : nextSeed (twoBuffersCircuit [3, 1, 2]) [1] 3 = some 1 := by decide
    cases this.symm.trans hk
    exact ⟨1, by decide, by decide, fun h => absurd h.internal.2 (by decide), by decide⟩

end Msyn.NodeMerge
