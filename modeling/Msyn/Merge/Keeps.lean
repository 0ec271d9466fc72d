import Msyn.Merge.SelectMerge
import Msyn.Parser.Reread

/-!
# What the passes keep of the circuit that was read

`Keeps p c`: the circuit `c` has the names, flags, ports and constants of the circuit `p` that was
read, and no other nodes. All steps keep it (`Keeps.sameNet`, `Keeps.reject`, `Keeps.commit`). No
merge replaces a constant, since the seed must be 1 somewhere (`Selects.must`). What is written for
such a circuit is read back (`Keeps.written`).
-/

namespace Msyn.NodeMerge

open Nodecircuit Circuit CNFgen MergeSelection Msyn.Parser Relation

/-! ## The invariant -/

/-- A primary input or one of the constants that the writers write themselves. -/
def Bare (p : Circuit) (n : NodeId) : Prop :=
  (p.node n).isInput = true ∨ (p.node n).name = "zero" ∨ (p.node n).name = "one"

/-- What the passes keep of the circuit `p` that was read. -/
structure Keeps (p c : Circuit) : Prop where
  name : c.name = p.name
  pis : c.inputs = p.inputs
  pos : c.outputs = p.outputs
  map : c.allNodesMap = p.allNodesMap
  names : ∀ n, (c.node n).name = (p.node n).name
  isInput : ∀ n, (c.node n).isInput = (p.node n).isInput
  isOutput : ∀ n, (c.node n).isOutput = (p.node n).isOutput
  sub : ∀ n ∈ c.allNodes, n ∈ p.allNodes
  ports : ∀ n ∈ p.allNodes, ¬p.Internal n → n ∈ c.allNodes
  cube : ∀ n ∈ p.allNodes, IsCover (c.node n).cube
  bare : ∀ n ∈ p.allNodes, Bare p n → (c.node n).inputs = [] ∧ (c.node n).cube = ""

theorem Keeps.refl {p : Circuit} (h : Writable p) : Keeps p p where
  name := rfl
  pis := rfl
  pos := rfl
  map := rfl
  names _ := rfl
  isInput _ := rfl
  isOutput _ := rfl
  sub _ hn := hn
  ports _ hn _ := hn
  cube := h.cube
  bare n hn := by
    rintro (hi | hc)
    · exact h.leaf n hn hi
    · exact h.const n hn hc

/-- A line for each pattern. -/
theorem isCover_writeCube (onset : List (OrdMap NodeId Bool)) : IsCover (writeCube onset) := by
  refine ⟨onset.map fun m => m.entries.map (bit ·.2) ++ [' ', '1'], fun s hs => ?_, ?_⟩
  · obtain ⟨m, -, rfl⟩ := List.mem_map.1 hs
    refine ⟨m.entries.map (bit ·.2), ' ', '1', rfl, fun ch hch => ?_, .inl rfl, .inr rfl⟩
    obtain ⟨q, -, rfl⟩ := List.mem_map.1 hch
    cases q.2
    · exact .inl rfl
    · exact .inr (.inl rfl)
  · rw [writeCube, writeCube_fold, String.toList_empty, List.nil_append, List.flatMap_map,
      List.flatMap_def]
    simp

section
variable {p c c' : Circuit} (h : Keeps p c)
include h

/-- The net of nodes with other clusters. -/
theorem Keeps.sameNet (hs : SameNet c c') : Keeps p c' := by
  obtain ⟨e1, e2, e3, e4, e5, e6, e7, e8, e9, e10, e11⟩ := h
  have hrest := hs.rest
  refine ⟨?_, ?_, ?_, hs.allNodesMap.trans e4, fun n => ?_, fun n => (hs.isInput n).trans (e6 n),
    fun n => (hs.isOutput n).trans (e7 n), fun n hn => e8 n (hs.allNodes ▸ hn),
    fun n hn hi => hs.allNodes.symm ▸ e9 n hn hi, fun n hn => ?_, fun n hn hb => ?_⟩
  · rw [hrest]
    exact e1
  · rw [hrest]
    exact e2
  · rw [hrest]
    exact e3
  · rw [hs.node n]
    exact e5 n
  · rw [hs.node n]
    exact e10 n hn
  · rw [hs.node n]
    exact e11 n hn hb

/-- Another order of the nodes. -/
theorem Keeps.perm {ns : List NodeId} (hp : ns.Perm c.allNodes) :
    Keeps p { c with allNodes := ns } :=
  { h with
    sub := fun n hn => h.sub n (hp.mem_iff.1 hn)
    ports := fun n hn hi => hp.mem_iff.2 (h.ports n hn hi) }

theorem Keeps.reject {t : NodeId} (hr : Rejected c c' t) : Keeps p c' := by
  obtain ⟨e1, e2, e3, e4, e5, e6, e7, e8, e9, e10, e11⟩ := h
  have hrest := hr.rest
  refine ⟨?_, ?_, ?_, ?_, fun n => (hr.name n).trans (e5 n), fun n => (hr.isInput n).trans (e6 n),
    fun n => (hr.isOutput n).trans (e7 n), fun n hn => e8 n (hr.allNodes ▸ hn),
    fun n hn hi => hr.allNodes.symm ▸ e9 n hn hi, fun n hn => hr.cube n ▸ e10 n hn,
    fun n hn hb => ?_⟩
  · rw [hrest]
    exact e1
  · rw [hrest]
    exact e2
  · rw [hrest]
    exact e3
  · rw [hrest]
    exact e4
  · rw [hr.inputs, hr.cube]
    exact e11 n hn hb

/-- A committed merge of a node that is not bare. -/
theorem Keeps.commit {c3 : Circuit} {sol : List ClusterId} {onset : List (OrdMap NodeId Bool)}
    {seed : ClusterId} {t : NodeId} {l : List NodeId} {it : Option ClusterId}
    (h3 : Prepared c c3 sol onset seed t) (hc : Cleaned c c3 t (newInputs onset) l c')
    (he : mergeSeed sol onset seed t c = some (c', it)) (ht : ¬Bare p t) : Keeps p c' where
  name := (mergeSeed_iterator he).1.trans h.name
  pis := hc.stripped.pis.trans (h3.inputs.trans h.pis)
  pos := hc.stripped.pos.trans (h3.outputs.trans h.pos)
  map := hc.stripped.allNodesMap.trans (h3.allNodesMap.trans h.map)
  names n := by
    rw [hc.stripped.node n]
    exact (h3.name n).trans (h.names n)
  isInput n := (hc.stripped.isInput n).trans ((h3.rewired.isInput n).trans (h.isInput n))
  isOutput n := (hc.stripped.isOutput n).trans ((h3.rewired.isOutput n).trans (h.isOutput n))
  sub n hn := h.sub n (h3.rewired.allNodes ▸ hc.stripped.sub.mem hn)
  ports n hn hi := by
    have hnc := h.ports n hn hi
    by_contra hn'
    refine hi ?_
    have hint := ((hc.gone n (h3.rewired.allNodes ▸ hnc)).1 hn').internal
    rw [Internal, h.isInput, h.isOutput] at hint
    exact hint
  cube n hn := by
    rw [hc.stripped.node n]
    show IsCover (c3.node n).cube
    rw [h3.cube]
    split
    · exact isCover_writeCube onset
    · exact h.cube n hn
  bare n hn hb := by
    have hnt : n ≠ t := fun he => ht (he ▸ hb)
    rw [hc.stripped.node n]
    show (c3.node n).inputs = [] ∧ (c3.node n).cube = ""
    rw [h3.rewired.inputs n hnt, h3.cube, if_neg hnt]
    exact h.bare n hn hb

end

/-! ## No merge replaces a constant -/

/-- Clusters are only selected for a seed that must be 1 somewhere. -/
theorem mergeSelection_must {env : Env} {fuel : Nat} {specC c : Circuit} {t : NodeId}
    {seed : ClusterId} {candidates : List ClusterId} {candInputs : List NodeId} {limit : Int}
    (h : Problem env.abc c specC t candInputs)
    (hcands : ∀ k ∈ candidates, ∀ n ∈ (c.cluster k).inputNodes, n ∈ candInputs) (hex : env.Exact)
    (hseed : (c.cluster seed).nodesC = [t]) {sel : Selection}
    (hsel : mergeSelection env fuel specC c seed candidates candInputs limit = some sel)
    (hne : sel.solutionC ≠ []) : ∃ x v v' w, MustBe c specC t true x v v' w := by
  rw [mergeSelection] at hsel
  simp only [hseed, Option.bind_eq_bind, Option.bind_eq_some_iff, Option.some.injEq] at hsel
  obtain ⟨o, ho, r, rfl, rfl⟩ := hsel
  have hout : c.outputs ≠ [] := by
    intro hnil
    obtain ⟨r', hr', -, hs⟩ := solveC_of_unsat (hex.solver 0) fun m => makeSolver_unsat hnil m
    cases loop_unique ho hr'
    exact hne hs
  have hinj : ∀ a ∈ candInputs, ∀ b ∈ candInputs, (c.node a).name = (c.node b).name → a = b :=
    fun a ha b hb => h.ports.names a (h.cands a ha) b (h.cands b hb)
  obtain ⟨fuel', o, ho', he⟩ := solveC_spec (h.names hout) hinj hcands hex.solver env.flag
  cases loop_unique ho ho'
  have hfound : r.found = true := by
    by_contra hf
    exact hne (he.empty r rfl (by simpa using hf))
  obtain ⟨m, m', s, hmust⟩ := he.must r rfl hfound
  obtain ⟨x, v, v', w, hb, -⟩ := mustBe_of_must h hmust
  exact ⟨x, v, v', w, hb⟩

/-- **The seed of a merge is no constant 0**: it must be 1 somewhere. -/
theorem Selects.not_constant {env : Env} {fuel : Nat} {spec c c1 : Circuit} {seed : ClusterId}
    {t : NodeId} {cl : List ClusterId} {ci : List NodeId} {lmt : Int} {sel : Selection}
    {onset : List (OrdMap NodeId Bool)} (hw : Wf c) (hex : c.Exact) (hp : Paired c spec)
    (hs : Selects env fuel spec c c1 seed t cl ci lmt sel onset) :
    ¬((c.node t).inputs = [] ∧ (c.node t).cube = "") := by
  rintro ⟨hin, hcube⟩
  have ho := hs.offer
  have hset := ho.targetSet hw
  have hclus := hset.cluster
  obtain ⟨x, v, v', w, hb⟩ := mergeSelection_must (ho.problem hw hex hp hs.translates)
    (fun k hk n hn => ((initCand_spec hw ho.cands).2 n).2 ⟨k, hk, hclus ▸ hn⟩) hs.exact
    (by rw [hclus]; exact ho.nodes) hs.selected hs.nonempty
  -- the valuation with the seed at 0 is one of the circuit
  have hv : c.Valuation [] x v' := by
    intro n hn _
    by_cases hnt : n = t
    · rw [hnt, hb.target', eval, (ho.node hw).2, hin, hcube]
      rfl
    · rw [hb.val' n (hset.allNodes ▸ hn) (by simpa using hnt), eval, eval, hset.isInput, hset.name,
        hset.inputs hnt, hset.cube hnt]
  exact hb.differ ((ho.restricts hw).agree.2 (hp.equivalent x v' w hv hb.valSpec))

/-! ## What is written -/

/-- A lookup in the map of the names of some nodes. -/
theorem lookup_names {c : Circuit} {ns : List NodeId}
    (hnd : (ns.map fun n => (c.node n).name).Nodup) : ∃ m : AList fun _ : String => NodeId,
      ∀ s n, m.lookup s = some n ↔ n ∈ ns ∧ (c.node n).name = s := by
  have hkeys : (ns.map fun n => (⟨(c.node n).name, n⟩ : Sigma fun _ : String => NodeId)).NodupKeys := by
    rw [List.NodupKeys, List.keys, List.map_map]
    exact hnd
  refine ⟨⟨_, hkeys⟩, fun s n => ?_⟩
  have hmem := List.mem_dlookup_iff (a := s) (b := n) hkeys
  rw [Option.mem_def] at hmem
  refine hmem.trans ?_
  rw [List.mem_map]
  constructor
  · rintro ⟨m, hm, he⟩
    cases he
    exact ⟨hm, rfl⟩
  · rintro ⟨hn, rfl⟩
    exact ⟨n, hn, rfl⟩

/-- The constants that were removed; they are still written. -/
def removedConsts (p c : Circuit) : List NodeId :=
  p.allNodes.filter fun n =>
    n ∉ c.allNodes ∧ ((p.node n).name = "zero" ∨ (p.node n).name = "one")

/-- The circuit with the constants that were removed, and a map of its own names. -/
def restored (p c : Circuit) (m : AList fun _ : String => NodeId) : Circuit :=
  { c with allNodes := c.allNodes ++ removedConsts p c, allNodesMap := m }

theorem mem_removedConsts {p c : Circuit} {n : NodeId} : n ∈ removedConsts p c ↔
    n ∈ p.allNodes ∧ n ∉ c.allNodes ∧ ((p.node n).name = "zero" ∨ (p.node n).name = "one") := by
  rw [removedConsts, List.mem_filter, decide_eq_true_eq]

section
variable {p c : Circuit} (h : Keeps p c) (hp : Writable p) (hw : Wf c)
  {m : AList fun _ : String => NodeId}
include h

theorem Keeps.restored_sub {n : NodeId} (hn : n ∈ (restored p c m).allNodes) : n ∈ p.allNodes :=
  (List.mem_append.1 hn).elim (h.sub n) fun hn => (mem_removedConsts.1 hn).1

/-- A fanin of the circuit with its constants is one of the circuit. -/
theorem Keeps.restored_fanin {i n : NodeId} (hf : (restored p c m).Fanin i n) : c.Fanin i n := by
  obtain ⟨hn, hi⟩ := hf
  rcases List.mem_append.1 hn with hn | hn
  · exact ⟨hn, hi⟩
  · obtain ⟨h1, -, h2⟩ := mem_removedConsts.1 hn
    have hnil : ((restored p c m).node n).inputs = [] := (h.bare n h1 (.inr h2)).1
    rw [hnil] at hi
    cases hi

theorem Keeps.restored_port {n : NodeId} (hio : (p.node n).isInput = true ∨ (p.node n).isOutput = true) :
    n ∈ (restored p c m).allNodes ↔ n ∈ p.allNodes := by
  refine ⟨h.restored_sub, fun hn => List.mem_append_left _ (h.ports n hn fun hi => ?_)⟩
  rcases hio with hio | hio
  · rw [hi.1] at hio
    cases hio
  · rw [hi.2] at hio
    cases hio

include hp hw

theorem Keeps.restored_distinct :
    ((c.allNodes ++ removedConsts p c).map fun n => (c.node n).name).Nodup := by
  have hnd : (c.allNodes ++ removedConsts p c).Nodup := List.nodup_append.2 ⟨hw.mirror.nodup,
    (hp.distinct.of_map _).filter _, fun a ha b hb hab => (mem_removedConsts.1 hb).2.1 (hab ▸ ha)⟩
  simp only [h.names]
  refine hnd.map_on fun a ha b hb hab => hp.nameOf_inj (h.restored_sub (m := ∅) ha) ?_ hab
  exact h.restored_sub (m := ∅) hb

theorem Keeps.restored_writable (hm : ∀ s n, m.lookup s = some n ↔
    n ∈ (restored p c m).allNodes ∧ (c.node n).name = s) : Writable (restored p c m) where
  ident := by
    refine ⟨h.name.symm ▸ hp.ident.1, fun n hn => ?_⟩
    rw [show (restored p c m).node = c.node from rfl, h.names]
    exact hp.ident.2 n (h.restored_sub hn)
  distinct := h.restored_distinct hp hw
  map := hm
  inputs n := by
    rw [show (restored p c m).inputs = p.inputs from h.pis,
      show ((restored p c m).node n).isInput = (p.node n).isInput from h.isInput n, hp.inputs]
    exact and_congr_left fun hi => (h.restored_port (.inl hi)).symm
  outputs n := by
    rw [show (restored p c m).outputs = p.outputs from h.pos,
      show ((restored p c m).node n).isOutput = (p.node n).isOutput from h.isOutput n, hp.outputs]
    exact and_congr_left fun hi => (h.restored_port (.inr hi)).symm
  once := by
    rw [show (restored p c m).inputs = p.inputs from h.pis,
      show (restored p c m).outputs = p.outputs from h.pos]
    exact hp.once
  disjoint n hn := by
    rw [show ((restored p c m).node n).isInput = (p.node n).isInput from h.isInput n,
      show ((restored p c m).node n).isOutput = (p.node n).isOutput from h.isOutput n]
    exact hp.disjoint n (h.restored_sub hn)
  closed n hn i hi :=
    List.mem_append_left _ (fanin_mem hw.mirror.closed (h.restored_fanin ⟨hn, hi⟩))
  leaf n hn hi := h.bare n (h.restored_sub hn) (.inl ((h.isInput n).symm.trans hi))
  irrefl n hn hi := hw.acyclic n (.single (h.restored_fanin ⟨hn, hi⟩))
  cube n hn := h.cube n (h.restored_sub hn)
  const n hn hc := by
    rw [show ((restored p c m).node n).name = (p.node n).name from h.names n] at hc
    exact h.bare n (h.restored_sub hn) (.inr hc)

omit hp hw in
/-- The constants are not written with the nodes. -/
theorem Keeps.restored_written :
    ((restored p c m).allNodes.filter fun n => (restored p c m).Written n) =
      c.allNodes.filter fun n => c.Written n := by
  have hskip : (removedConsts p c).filter (fun n => c.Written n) = [] := by
    refine List.filter_eq_nil_iff.2 fun n hn => ?_
    rw [decide_eq_true_eq]
    have hc := (mem_removedConsts.1 hn).2.2
    rw [← h.names] at hc
    exact fun hno => hno (.inr hc.symm)
  show (c.allNodes ++ removedConsts p c).filter (fun n => c.Written n) = _
  rw [List.filter_append, hskip, List.append_nil]

omit hw in
theorem Keeps.restored_head (hd : Writable (restored p c m)) :
    (restored p c m).headChars = c.headChars := by
  -- both know the constants of the circuit that was read
  have hknown : ∀ s, s = "zero" ∨ s = "one" →
      ((restored p c m).getNode s ≠ none ↔ c.getNode s ≠ none) := by
    intro s hs
    have hmap : c.getNode s = p.getNode s := by rw [getNode, getNode, h.map]
    rw [hd.known, hmap, hp.known]
    constructor
    · rintro ⟨n, hn, he⟩
      exact ⟨n, h.restored_sub hn, (h.names n).symm.trans he⟩
    · rintro ⟨n, hn, he⟩
      refine ⟨n, ?_, (h.names n).trans he⟩
      by_cases hnc : n ∈ c.allNodes
      · exact List.mem_append_left _ hnc
      · exact List.mem_append_right _ (mem_removedConsts.2 ⟨hn, hnc, he ▸ hs⟩)
  exact headChars_congr rfl rfl rfl (hknown _ (.inl rfl)) (hknown _ (.inr rfl))

/-- **What is written of the circuit** is what is written of one that can be written. -/
theorem Keeps.written : ∃ d, Writable d ∧ Grouped d ∧ d.writeBlif = c.writeBlif ∧
    d.writeBlifM = c.writeBlifM ∧ d.IsAcyclic ∧ d.inputs = c.inputs ∧ d.outputs = c.outputs ∧
    d.node = c.node ∧ ∀ n ∈ c.allNodes, n ∈ d.allNodes := by
  obtain ⟨m, hm⟩ := lookup_names (h.restored_distinct hp hw)
  have hd : Writable (restored p c m) := h.restored_writable hp hw hm
  have hhead := h.restored_head hp hd
  refine ⟨restored p c m, hd, ?_, ?_, ?_, hw.acyclic.mono fun i n => h.restored_fanin, rfl, rfl, rfl,
    fun n hn => List.mem_append_left _ hn⟩
  · rw [Grouped, h.restored_written]
    exact grouped_of_part hw.mirror.nodup hw.part
  · refine writeBlif_congr hhead ?_
    rw [h.restored_written]
    rfl
  · exact writeBlifM_congr hhead rfl

end

end Msyn.NodeMerge
