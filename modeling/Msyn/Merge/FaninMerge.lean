import Msyn.Merge.Commit

/-!
# FaninMerge

`Gathered c c' seed done`: what the loop over the inputs `done` of the cluster `seed` of `c` has
led to. Every iteration keeps the clusters a partition and their caches exact (`faninIter_spec`),
and so does the pass (`faninMerge_sound`).
-/

namespace Msyn.NodeMerge

open Nodecircuit Circuit Relation

/-! ## The loop over the inputs -/

/-- The clusters of the inputs `done` have joined `seed`, which caches the primary inputs among
them and the inputs of the nodes that joined. -/
structure Gathered (c c' : Circuit) (seed : ClusterId) (done : List NodeId) : Prop where
  same : SameNet c c'
  part : c'.Part
  sub : c'.allClusters.Sublist c.allClusters
  seedMem : seed ∈ c'.allClusters
  other : ∀ k, k ≠ seed → c'.cluster k = c.cluster k
  joins : ∀ i ∈ done, (c.node i).isInput = false → (c.node i).myCluster ∈ c.allClusters
  members : ∀ n, n ∈ (c'.cluster seed).nodesC ↔ n ∈ (c.cluster seed).nodesC ∨
    ∃ i ∈ done, (c.node i).isInput = false ∧ n ∈ (c.cluster (c.node i).myCluster).nodesC
  myCluster : ∀ n, (c'.node n).myCluster = (c.node n).myCluster ∨
    (c'.node n).myCluster = seed ∧ n ∈ (c'.cluster seed).nodesC
  inputNodes : ∀ i, i ∈ (c'.cluster seed).inputNodes ↔ i ∉ (c'.cluster seed).nodesC ∧
    (i ∈ done ∧ (c.node i).isInput = true ∨
      ∃ n ∈ (c'.cluster seed).nodesC, n ∉ (c.cluster seed).nodesC ∧ i ∈ (c.node n).inputs)

section
variable {c c' c'' : Circuit} {seed : ClusterId} {done : List NodeId} {nd : NodeId}

/-- The loop starts with the cache of `seed` cleared. -/
theorem Gathered.start (hp : c.Part) (hs : seed ∈ c.allClusters) :
    Gathered c (c.modCluster seed fun clst => { clst with inputNodes := ∅ }) seed [] := by
  have hn : ∀ k, ((c.modCluster seed fun clst => { clst with inputNodes := ∅ }).cluster k).nodesC =
      (c.cluster k).nodesC := fun k => by
    simp only [modCluster_cluster]
    split <;> rfl
  refine ⟨⟨fun _ => rfl, rfl⟩, ?_, .refl _, hs, fun k hk => by simp [hk],
    fun i hi => absurd hi List.not_mem_nil, fun n => by simp, fun _ => .inl rfl, fun i => ?_⟩
  · obtain ⟨q1, q2, q3, q4, q5⟩ := hp
    refine ⟨q1, ?_, ?_, ?_, ?_⟩ <;>
      simp only [hn, modCluster_allClusters, modCluster_node, modCluster_allNodes] <;> assumption
  · simp only [modCluster_cluster, if_true, OrdSet.not_mem_empty, List.not_mem_nil, false_and,
      false_or, false_iff, not_and, not_exists]
    exact fun _ n hn hn' => absurd hn hn'

theorem Gathered.input (h : Gathered c c' seed done) (hi : (c.node nd).isInput = true) :
    Gathered c (c'.modCluster seed fun clst =>
      { clst with inputNodes := clst.inputNodes.insert nd }) seed (done ++ [nd]) := by
  have hn : ∀ k, ((c'.modCluster seed fun clst =>
      { clst with inputNodes := clst.inputNodes.insert nd }).cluster k).nodesC =
      (c'.cluster k).nodesC := fun k => by
    simp only [modCluster_cluster]
    split <;> rfl
  have hnot : ∀ {P : NodeId → Prop}, (∃ i ∈ done ++ [nd], (c.node i).isInput = false ∧ P i) ↔
      ∃ i ∈ done, (c.node i).isInput = false ∧ P i := fun {P} => by simp [hi]
  have hnd : nd ∉ (c'.cluster seed).nodesC := fun hm => by
    rw [← h.same.isInput, (h.part.mem seed h.seedMem nd hm).2.1] at hi
    cases hi
  refine ⟨⟨h.same.node, by rw [h.same.rest]; rfl⟩, ?_, h.sub, h.seedMem, fun k hk => ?_,
    fun i hm hii => ?_, fun n => ?_, fun n => ?_, fun i => ?_⟩
  · obtain ⟨q1, q2, q3, q4, q5⟩ := h.part
    refine ⟨q1, ?_, ?_, ?_, ?_⟩ <;>
      simp only [hn, modCluster_allClusters, modCluster_node, modCluster_allNodes] <;> assumption
  · simp only [modCluster_cluster, if_neg hk]
    exact h.other k hk
  · rcases List.mem_append.1 hm with hm | hm
    · exact h.joins i hm hii
    · rw [List.mem_singleton.1 hm, hi] at hii
      cases hii
  · rw [hn, h.members, hnot]
  · rw [hn]
    exact h.myCluster n
  · rw [hn]
    simp only [modCluster_cluster, if_true, OrdSet.mem_insert, h.inputNodes i, List.mem_append,
      List.mem_singleton]
    constructor
    · rintro (rfl | ⟨h1, h2 | h2⟩)
      · exact ⟨hnd, .inl ⟨.inr rfl, hi⟩⟩
      · exact ⟨h1, .inl ⟨.inl h2.1, h2.2⟩⟩
      · exact ⟨h1, .inr h2⟩
    · rintro ⟨h1, ⟨h2 | h2, h3⟩ | h2⟩
      · exact .inr ⟨h1, .inl ⟨h2, h3⟩⟩
      · exact .inl h2
      · exact .inr ⟨h1, .inr h2⟩

/-- The cluster of the input joined before. -/
theorem Gathered.skip (h : Gathered c c' seed done) (hp : c.Part)
    (hi : (c.node nd).isInput = false) (hs : seed = (c'.node nd).myCluster) :
    Gathered c c' seed (done ++ [nd]) := by
  have hseed : seed ∈ c.allClusters := h.sub.mem h.seedMem
  -- the cluster of `nd` is `seed`, or that of an input before
  have hnd : (c.node nd).myCluster = seed ∨ ∃ i ∈ done, (c.node i).isInput = false ∧
      (c.node i).myCluster = (c.node nd).myCluster := by
    rcases h.myCluster nd with h1 | ⟨-, h1⟩
    · exact .inl (h1.symm.trans hs.symm)
    · rcases (h.members nd).1 h1 with h2 | ⟨i, h2, h3, h4⟩
      · exact .inl (hp.mem seed hseed nd h2).2.2
      · exact .inr ⟨i, h2, h3, (hp.mem _ (h.joins i h2 h3) nd h4).2.2.symm⟩
  refine ⟨h.same, h.part, h.sub, h.seedMem, h.other, fun i hm hii => ?_, fun n => ?_, h.myCluster,
    fun i => ?_⟩
  · rcases List.mem_append.1 hm with hm | hm
    · exact h.joins i hm hii
    · rw [List.mem_singleton.1 hm]
      rcases hnd with h1 | ⟨j, h1, h2, h3⟩
      · rwa [h1]
      · exact h3 ▸ h.joins j h1 h2
  · rw [h.members]
    constructor
    · rintro (h1 | ⟨i, h1, h2⟩)
      · exact .inl h1
      · exact .inr ⟨i, by simp [h1], h2⟩
    · rintro (h1 | ⟨i, h1, h2, h3⟩)
      · exact .inl h1
      · rcases List.mem_append.1 h1 with h1 | h1
        · exact .inr ⟨i, h1, h2, h3⟩
        · rw [List.mem_singleton.1 h1] at h3
          rcases hnd with h4 | ⟨j, h4, h5, h6⟩
          · exact .inl (h4 ▸ h3)
          · exact .inr ⟨j, h4, h5, h6 ▸ h3⟩
  · rw [h.inputNodes i]
    refine and_congr_right fun _ => or_congr_left ⟨fun h1 => ⟨by simp [h1.1], h1.2⟩, ?_⟩
    rintro ⟨h1, h2⟩
    rcases List.mem_append.1 h1 with h1 | h1
    · exact ⟨h1, h2⟩
    · rw [List.mem_singleton.1 h1, hi] at h2
      cases h2

/-- The cluster of the input joins. -/
theorem Gathered.merge (h : Gathered c c' seed done) (hi : (c.node nd).isInput = false)
    (hs : seed ≠ (c'.node nd).myCluster) (hk : (c'.node nd).myCluster ∈ c'.allClusters)
    (hm : Merged c' c'' seed (c'.node nd).myCluster) : Gathered c c'' seed (done ++ [nd]) := by
  have hmy : (c'.node nd).myCluster = (c.node nd).myCluster :=
    (h.myCluster nd).resolve_right fun h1 => hs h1.1.symm
  rw [hmy] at hs hk hm
  have hclu : c'.cluster (c.node nd).myCluster = c.cluster (c.node nd).myCluster :=
    h.other _ hs.symm
  have hnodes := hm.nodesC
  rw [hclu] at hnodes
  refine ⟨h.same.trans hm.same, hm.part h.part h.seedMem hk hs, ?_, ?_,
    fun k hk' => by rw [hm.other k hk', h.other k hk'], fun i hmem hii => ?_, fun n => ?_,
    fun n => ?_, fun i => ?_⟩
  · rw [hm.allClusters]
    exact List.erase_sublist.trans h.sub
  · rw [hm.allClusters]
    exact (List.mem_erase_of_ne hs).2 h.seedMem
  · rcases List.mem_append.1 hmem with hmem | hmem
    · exact h.joins i hmem hii
    · rw [List.mem_singleton.1 hmem]
      exact h.sub.mem hk
  · rw [hnodes, List.mem_append, h.members]
    simp only [List.mem_append, List.mem_singleton]
    constructor
    · rintro ((h1 | ⟨i, h1, h2⟩) | h1)
      · exact .inl h1
      · exact .inr ⟨i, .inl h1, h2⟩
      · exact .inr ⟨nd, .inr rfl, hi, h1⟩
    · rintro (h1 | ⟨i, h1 | rfl, h2, h3⟩)
      · exact .inl (.inl h1)
      · exact .inl (.inr ⟨i, h1, h2, h3⟩)
      · exact .inr h3
  · rw [hm.node]
    simp only [hclu]
    split
    · rename_i hn
      exact .inr ⟨rfl, by rw [hnodes]; exact List.mem_append_right _ hn⟩
    · refine (h.myCluster n).imp_right fun h1 => ⟨h1.1, ?_⟩
      rw [hnodes]
      exact List.mem_append_left _ h1.2
  · -- the members of the merged cluster are new, their inputs are added
    have hnew : ∀ n ∈ (c.cluster (c.node nd).myCluster).nodesC, n ∉ (c.cluster seed).nodesC :=
      fun n hn hn' => hs ((h.part.mem seed h.seedMem n ((h.members n).2 (.inl hn'))).2.2.symm.trans
        (h.part.mem _ hk n (hclu ▸ hn)).2.2)
    rw [hm.inputNodes i, h.inputNodes i]
    simp only [hnodes, hclu, h.same.inputs, List.mem_append, List.mem_singleton, not_or]
    constructor
    · rintro ⟨h5, ⟨h6, ⟨h7, h8⟩ | ⟨n, h7, h8⟩⟩ | ⟨n, h6, h7⟩⟩
      · exact ⟨h5, .inl ⟨.inl h7, h8⟩⟩
      · exact ⟨h5, .inr ⟨n, .inl h7, h8⟩⟩
      · exact ⟨h5, .inr ⟨n, .inr h6, hnew n h6, h7⟩⟩
    · rintro ⟨h5, ⟨h6 | rfl, h7⟩ | ⟨n, h6 | h6, h7, h8⟩⟩
      · exact ⟨h5, .inl ⟨h5.1, .inl ⟨h6, h7⟩⟩⟩
      · rw [hi] at h7
        cases h7
      · exact ⟨h5, .inl ⟨h5.1, .inr ⟨n, h6, h7, h8⟩⟩⟩
      · exact ⟨h5, .inr ⟨n, h6, h8⟩⟩

/-- **One round of the loop.** -/
theorem faninAbsorb_spec (hp : c.Part) (h : Gathered c c' seed done)
    (he : faninAbsorb seed c' nd = some c'') : Gathered c c'' seed (done ++ [nd]) := by
  unfold faninAbsorb at he
  rw [h.same.isInput] at he
  split at he
  · rename_i hi
    cases he
    exact h.input hi
  · rename_i hi
    have hi' : (c.node nd).isInput = false := by simpa using hi
    split at he
    · rename_i hs
      cases he
      exact h.skip hp hi' hs
    · rename_i hs
      by_cases hk : (c'.node nd).myCluster ∈ c'.allClusters
      · obtain ⟨c1, h1, h2⟩ := merge_spec hk hs
        rw [h1] at he
        cases he
        exact h.merge hi' hs hk h2
      · rw [Circuit.merge, if_neg fun h1 => hk h1.1] at he
        cases he

/-- A round over a node of the circuit never fails. -/
theorem Gathered.defined (h : Gathered c c' seed done) (hnd : nd ∈ c.allNodes) :
    ∃ c'', faninAbsorb seed c' nd = some c'' := by
  unfold faninAbsorb
  split
  · exact ⟨_, rfl⟩
  · rename_i hi
    split
    · exact ⟨_, rfl⟩
    · rename_i hs
      have hk := (h.part.covers nd (h.same.allNodes ▸ hnd) (by simpa using hi)).1
      obtain ⟨c'', h1, -⟩ := merge_spec hk hs
      exact ⟨c'', by rw [h1]; rfl⟩

theorem faninAbsorb_loop (hp : c.Part) : ∀ {l done : List NodeId} {c' c'' : Circuit},
    Gathered c c' seed done → l.foldlM (faninAbsorb seed) c' = some c'' →
    Gathered c c'' seed (done ++ l)
  | [], done, c', c'', h, he => by
    cases he
    rwa [List.append_nil]
  | nd :: l, done, c', c'', h, he => by
    rw [List.foldlM_cons] at he
    obtain ⟨c1, h1, h2⟩ := Option.bind_eq_some_iff.1 he
    have h3 := faninAbsorb_loop hp (faninAbsorb_spec hp h h1) h2
    rwa [List.append_assoc] at h3

theorem faninAbsorb_defined (hp : c.Part) : ∀ {l done : List NodeId} {c' : Circuit},
    Gathered c c' seed done → (∀ nd ∈ l, nd ∈ c.allNodes) →
    ∃ c'', l.foldlM (faninAbsorb seed) c' = some c''
  | [], _, c', _, _ => ⟨c', rfl⟩
  | nd :: l, done, c', h, hl => by
    obtain ⟨c1, h1⟩ := h.defined (hl nd (by simp))
    obtain ⟨c'', h2⟩ := faninAbsorb_defined hp (faninAbsorb_spec hp h h1)
      fun n hn => hl n (List.mem_cons_of_mem _ hn)
    exact ⟨c'', by rw [List.foldlM_cons, h1]; exact h2⟩

end

/-! ## One iteration -/

/-- `FaninMerge` absorbs the inputs of the cluster `seed`. -/
def FaninTakes (c : Circuit) (seed : ClusterId) : Prop :=
  (faninScan c (c.cluster seed).inputNodes.elems ∅ ∅).1.size ≤ limitIn ∧
    (faninScan c (c.cluster seed).inputNodes.elems ∅ ∅).2.size ≠ 0

instance (c : Circuit) (seed : ClusterId) : Decidable (FaninTakes c seed) :=
  inferInstanceAs (Decidable (_ ∧ _))

/-- The circuit at the head of the loop over the inputs. -/
def clearInputs (c : Circuit) (seed : ClusterId) : Circuit :=
  c.modCluster seed fun clst => { clst with inputNodes := ∅ }

section
variable {c c' : Circuit} {seed : ClusterId} (hp : c.Part)

theorem faninIter_eq (hs : seed ∈ c.allClusters) : faninIter c seed =
    if FaninTakes c seed then
      (c.cluster seed).inputNodes.elems.foldlM (faninAbsorb seed) (clearInputs c seed)
    else some c := by
  rw [faninIter, if_pos hs]
  rfl

include hp

theorem faninIter_cases (h : faninIter c seed = some c') : seed ∈ c.allClusters ∧
    (¬FaninTakes c seed ∧ c' = c ∨
      FaninTakes c seed ∧ Gathered c c' seed (c.cluster seed).inputNodes.elems) := by
  by_cases hs : seed ∈ c.allClusters
  · refine ⟨hs, ?_⟩
    rw [faninIter_eq hs] at h
    split at h
    · rename_i ht
      exact .inr ⟨ht, faninAbsorb_loop hp (.start hp hs) h⟩
    · rename_i ht
      cases h
      exact .inl ⟨ht, rfl⟩
  · rw [faninIter, if_neg hs] at h
    cases h

/-- The loop over the inputs leaves the caches exact. -/
theorem Gathered.exact (hcl : c.Closed) (hex : c.Exact)
    (h : Gathered c c' seed (c.cluster seed).inputNodes.elems) : c'.Exact := by
  intro k hk i
  simp only [h.same.inputs]
  by_cases hks : k = seed
  · subst hks
    have hkc : k ∈ c.allClusters := h.sub.mem hk
    rw [h.inputNodes i]
    refine and_congr_right fun hi => ⟨?_, ?_⟩
    · rintro (⟨h3, -⟩ | ⟨n, h3, -, h4⟩)
      · obtain ⟨-, n, hn, hin⟩ := (hex k hkc i).1 h3
        exact ⟨n, (h.members n).2 (.inl hn), hin⟩
      · exact ⟨n, h3, h4⟩
    · rintro ⟨n, hn, hin⟩
      by_cases hnc : n ∈ (c.cluster k).nodesC
      · -- an input of an old member is cached, and its cluster has joined
        have h3 : i ∈ (c.cluster k).inputNodes :=
          (hex k hkc i).2 ⟨fun h4 => hi ((h.members i).2 (.inl h4)), n, hnc, hin⟩
        refine .inl ⟨h3, ?_⟩
        by_contra hii
        have hii' : (c.node i).isInput = false := by simpa using hii
        have hic : i ∈ c.allNodes := hcl n (hp.mem k hkc n hnc).1 i hin
        exact hi ((h.members i).2 (.inr ⟨i, h3, hii', (hp.covers i hic hii').2⟩))
      · exact .inr ⟨n, hn, hnc, hin⟩
  · rw [h.other k hks]
    exact hex k (h.sub.mem hk) i

/-- **An iteration of `FaninMerge`** keeps the clusters a partition and their caches exact. -/
theorem faninIter_spec (hcl : c.Closed) (hex : c.Exact) (hs : seed ∈ c.allClusters) :
    ∃ c', faninIter c seed = some c' ∧ SameNet c c' ∧ c'.Part ∧ c'.Exact ∧
      c'.allClusters.Sublist c.allClusters ∧ seed ∈ c'.allClusters := by
  rw [faninIter_eq hs]
  split
  · have hin : ∀ nd ∈ (c.cluster seed).inputNodes.elems, nd ∈ c.allNodes := fun nd hnd => by
      obtain ⟨-, n, hn, hi⟩ := (hex seed hs nd).1 hnd
      exact hcl n (hp.mem seed hs n hn).1 nd hi
    obtain ⟨c', h1⟩ := faninAbsorb_defined hp (.start hp hs) hin
    have h2 := faninAbsorb_loop hp (.start hp hs) h1
    rw [List.nil_append] at h2
    exact ⟨c', h1, h2.same, h2.part, h2.exact hp hcl hex, h2.sub, h2.seedMem⟩
  · exact ⟨c, rfl, .refl c, hp, hex, .refl _, hs⟩

end

/-! ## The pass -/

/-- The heads of the loop of `FaninMerge`. -/
inductive FaninHead (c₀ : Circuit) : Circuit → Option ClusterId → Prop
  | begin : FaninHead c₀ c₀ c₀.allClusters.head?
  | next {c c' : Circuit} {seed : ClusterId} : FaninHead c₀ c (some seed) →
      faninIter c seed = some c' → FaninHead c₀ c' (next seed c'.allClusters)

/-- `FaninMerge` calls `Merge(clu1, clu2)` on the circuit `c1`: in the loop over the inputs of the
cluster `clu1`, at an input of the cluster `clu2`. -/
inductive FaninCall (c₀ c1 : Circuit) (clu1 clu2 : ClusterId) : Prop
  | call {c : Circuit} {l r : List NodeId} {nd : NodeId} : FaninHead c₀ c (some clu1) →
      FaninTakes c clu1 → (c.cluster clu1).inputNodes.elems = l ++ nd :: r →
      l.foldlM (faninAbsorb clu1) (clearInputs c clu1) = some c1 →
      (c1.node nd).isInput = false → (c1.node nd).myCluster = clu2 → clu1 ≠ clu2 →
      FaninCall c₀ c1 clu1 clu2

theorem faninMergeF_eq : ∀ (fuel : Nat) (c : Circuit) (it : Option ClusterId),
    faninMergeF fuel c it = sweep faninIter (fun c k => next k c.allClusters) fuel c it
  | fuel, c, none => by cases fuel <;> rfl
  | 0, _, some _ => rfl
  | fuel + 1, c, some seed => by
    simp only [faninMergeF, sweep]
    exact congrArg _ (funext fun c => faninMergeF_eq fuel c _)

section
variable {c : Circuit} (hp : c.Part) (hcl : c.Closed) (hex : c.Exact)
include hp hcl hex

theorem FaninHead.sound {c' : Circuit} {it : Option ClusterId} (h : FaninHead c c' it) :
    SameNet c c' ∧ c'.Part ∧ c'.Exact ∧ ∀ k, it = some k → k ∈ c'.allClusters := by
  induction h with
  | begin => exact ⟨.refl c, hp, hex, fun k hk => List.mem_of_mem_head? hk⟩
  | @next c1 c' seed _ h1 ih =>
    obtain ⟨h2, h3, h4, h5⟩ := ih
    obtain ⟨c2, h6, h7, h8, h9, -, -⟩ := faninIter_spec h3 (h2.closed hcl) h4 (h5 seed rfl)
    rw [h1] at h6
    cases h6
    exact ⟨h2.trans h7, h8, h9, fun k hk => next_mem hk⟩

/-- **`FaninMerge` keeps the cluster invariant**, and merges only different clusters that are both
there. -/
theorem faninMerge_sound :
    (∃ c', faninMerge c = some c' ∧ SameNet c c' ∧ c'.Part ∧ c'.Exact) ∧
      ∀ c1 clu1 clu2, FaninCall c c1 clu1 clu2 →
        clu1 ≠ clu2 ∧ clu1 ∈ c1.allClusters ∧ clu2 ∈ c1.allClusters := by
  constructor
  · have hbody : ∀ c1 k, FaninHead c c1 (some k) → ∃ c2, faninIter c1 k = some c2 ∧
        FaninHead c c2 (next k c2.allClusters) ∧
        remaining (next k c2.allClusters) c2.allClusters < remaining (some k) c1.allClusters := by
      intro c1 k h
      obtain ⟨h3, h4, h5, h6⟩ := h.sound hp hcl hex
      obtain ⟨c2, h7, -, -, -, h8, h9⟩ := faninIter_spec h4 (h3.closed hcl) h5 (h6 k rfl)
      exact ⟨c2, h7, h.next h7, remaining_next h4.nodup h8 h9⟩
    have hpos : ∀ c1 k, FaninHead c c1 (some k) → 0 < remaining (some k) c1.allClusters :=
      fun c1 k h => remaining_pos ((h.sound hp hcl hex).2.2.2 k rfl)
    obtain ⟨c', h1, h2⟩ := sweep_total (fun (c : Circuit) it => remaining it c.allClusters) hpos
      hbody .begin (remaining_le _ _)
    obtain ⟨h3, h4, h5, -⟩ := h2.sound hp hcl hex
    exact ⟨c', by rw [faninMerge, faninMergeF_eq]; exact h1, h3, h4, h5⟩
  · rintro c1 clu1 clu2 ⟨hh, ht, hin, hl, hi, hk, hne⟩
    obtain ⟨h3, h4, h5, h6⟩ := hh.sound hp hcl hex
    have h7 := faninAbsorb_loop h4 (.start h4 (h6 clu1 rfl)) hl
    refine ⟨hne, h7.seedMem, hk ▸ (h7.part.covers _ ?_ hi).1⟩
    obtain ⟨-, n, hn, hni⟩ := (h5 clu1 (h6 clu1 rfl) _).1
      (OrdSet.mem_def.2 (hin ▸ List.mem_append_right _ List.mem_cons_self))
    rw [h7.same.allNodes]
    exact h3.closed hcl n (h4.mem clu1 (h6 clu1 rfl) n hn).1 _ hni

end

/-- `s` absorbs `a` and `b`, which share a cluster by then. -/
theorem faninMerge_sound_reconvergent :
    (∃ c', faninMerge reconvergentCircuit = some c' ∧ SameNet reconvergentCircuit c' ∧ c'.Part ∧
      c'.Exact) ∧ ∀ c1 clu1 clu2, FaninCall reconvergentCircuit c1 clu1 clu2 →
        clu1 ≠ clu2 ∧ clu1 ∈ c1.allClusters ∧ clu2 ∈ c1.allClusters :=
  faninMerge_sound reconvergent_part reconvergent_mirror.closed reconvergent_exact

end Msyn.NodeMerge
