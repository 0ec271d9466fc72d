import Msyn.Circuit.Resubstitution
import Msyn.Merge.Runs

/-!
# Committed merges keep the function of the circuit

`Paired c spec`: the circuit has the ports of the specification and computes its outputs. A seed
whose fanins are replaced by a selection that can be trusted leaves the circuit so, with a safe
clean-up (`commit_equivalent`); without timeouts that is the only condition
(`merge_equivalent_iff`). Over whole runs of `SelectMerge` (`Passed`) the circuit stays equivalent
if each merge rests on exact caches and on no call that timed out (`passed_equivalent`).
-/

namespace Msyn.NodeMerge

open Nodecircuit Circuit CNFgen MergeSelection Relation

/-- The implementation has the ports of the specification and computes its outputs. -/
structure Paired (c spec : Circuit) : Prop where
  ports : Ports c
  portsSpec : Ports spec
  interface : Interface c spec
  equivalent : Equivalent c spec

/-- What `SelectMerge` has at hand for a seed cluster: its node, the candidates, and the circuit
with the node as target. -/
structure Offer (spec c c1 : Circuit) (seed : ClusterId) (t : NodeId) (cl : List ClusterId)
    (ci : List NodeId) : Prop where
  mem : seed ∈ c.allClusters
  nodes : (c.cluster seed).nodesC = [t]
  cands : initCand spec c seed = some (cl, ci)
  target : setTargets [t] c = some c1

/-- ABC returns netlists of the circuits. -/
structure Translates (abc : Circuit → List NodeId → List NodeId → Netlist) (spec c1 : Circuit)
    (t : NodeId) (ci : List NodeId) : Prop where
  impl : Delivers (abc c1 [t] ci) c1 [t] ci
  spec : Delivers (abc spec [] []) spec [] []

section
variable {spec c c1 : Circuit} {seed : ClusterId} {t : NodeId} {cl : List ClusterId} {ci : List NodeId}
  (hw : Wf c) (ho : Offer spec c c1 seed t cl ci)
include hw ho

theorem Offer.node : t ∈ c.allNodes ∧ (c.node t).isInput = false :=
  ⟨(hw.part.mem seed ho.mem t (by rw [ho.nodes]; simp)).1,
    (hw.part.mem seed ho.mem t (by rw [ho.nodes]; simp)).2.1⟩

theorem Offer.targetSet : TargetSet c c1 t := by
  obtain ⟨ht, hi⟩ := ho.node hw
  obtain ⟨c1', h1, h2⟩ := setTarget_spec hw.mirror ht
  have h3 : setTargets [t] c = some c1' := by simp [setTargets, hi, h1]
  rw [ho.target] at h3
  cases h3
  exact h2

/-- Only the fanins of the target are cut. -/
theorem Offer.restricts : Restricts c c1 t where
  allNodes _ hn := (ho.targetSet hw).allNodes ▸ hn
  pis := (ho.targetSet hw).pis
  pos := (ho.targetSet hw).pos
  name := (ho.targetSet hw).name
  isInput := (ho.targetSet hw).isInput
  inputs _ hn := (ho.targetSet hw).inputs hn
  cube _ hn := (ho.targetSet hw).cube hn

theorem Offer.fanin {a b : NodeId} (h : c1.Fanin a b) : c.Fanin a b := by
  obtain ⟨hb, ha⟩ := h
  exact ⟨(ho.targetSet hw).allNodes ▸ hb, ((ho.targetSet hw).mem_inputs.1 ha).2⟩

theorem Offer.acyclic : c1.IsAcyclic := hw.acyclic.mono fun _ _ => ho.fanin hw

theorem Offer.closed : c1.Closed := fun n hn i hi => by
  rw [(ho.targetSet hw).allNodes]
  exact fanin_mem hw.mirror.closed (ho.fanin hw ⟨hn, hi⟩)

/-- The inputs of the candidates are nodes that the target does not reach. -/
theorem Offer.inputs (hex : c.Exact) {i : NodeId} (hi : i ∈ ci) :
    i ∈ c.allNodes ∧ ¬ReflTransGen c.Fanin t i := by
  obtain ⟨hout, hin⟩ := initCand_spec hw ho.cands
  obtain ⟨k, hk, hik⟩ := (hin i).1 hi
  obtain ⟨-, n, hn, hni⟩ := (hex k (hout k hk).mem i).1 hik
  exact ⟨hw.mirror.closed n (hw.part.mem k (hout k hk).mem n hn).1 i hni,
    (hout k hk).not_reach hw hex ho.mem (by rw [ho.nodes]; simp) hik⟩

theorem Offer.independent (hex : c.Exact) : Independent c1 t ci := by
  intro x v v' hv hv' i hi
  obtain ⟨hic, hr⟩ := ho.inputs hw hex hi
  refine hv.indep (ho.acyclic hw) (ho.closed hw) hv' i ((ho.targetSet hw).allNodes ▸ hic) ?_
  intro s hs hsi
  rw [List.mem_singleton.1 hs] at hsi
  exact hr (ReflTransGen.mono (fun _ _ h => ho.fanin hw h) t i hsi)

theorem Offer.ports (hp : Ports c) : Ports c1 := by
  have hs := ho.targetSet hw
  refine ⟨fun n => ?_, fun n hn => ?_, fun a ha b hb he => ?_⟩
  · rw [hs.pis, hs.allNodes, hs.isInput]
    exact hp.inputs n
  · rw [hs.allNodes, hs.isOutput]
    exact hp.outputs n (hs.pos ▸ hn)
  · rw [hs.allNodes] at ha hb
    rw [hs.name, hs.name] at he
    exact hp.names a ha b hb he

theorem Offer.problem (hex : c.Exact) (hp : Paired c spec)
    {abc : Circuit → List NodeId → List NodeId → Netlist} (hT : Translates abc spec c1 t ci) :
    Problem abc c1 spec t ci where
  ports := ho.ports hw hp.ports
  portsSpec := hp.portsSpec
  interface := (ho.restricts hw).interface hp.interface
  target := (ho.targetSet hw).allNodes ▸ (ho.node hw).1
  notInput := ((ho.targetSet hw).isInput t).trans (ho.node hw).2
  cands _ hi := (ho.targetSet hw).allNodes ▸ (ho.inputs hw hex hi).1
  delivers := hT.impl
  deliversSpec := hT.spec

end

/-! ## One merge -/

/-- The new inputs are the nodes of the patterns. -/
theorem newInputs_eq {sigs : NodeSet} {onset : List (OrdMap NodeId Bool)} (hne : onset ≠ [])
    (hover : ∀ p ∈ onset, ∃ f, p = OrdMap.tabulate sigs.elems f) :
    newInputs onset = sigs.elems := by
  obtain ⟨m, cases, rfl⟩ := List.exists_cons_of_ne_nil hne
  obtain ⟨f, rfl⟩ := hover m (by simp)
  rw [newInputs, OrdMap.keys, OrdMap.entries_tabulate sigs.sorted, List.map_map]
  exact List.map_id _

section
variable {spec c c1 : Circuit} {seed : ClusterId} {t : NodeId} {cl : List ClusterId} {ci : List NodeId}
  {env : Env} {fuel : Nat} {lmt : Int} {sel : Selection} {onset : List (OrdMap NodeId Bool)}

/-- `SelectMerge` selects for the seed. -/
structure Selects (env : Env) (fuel : Nat) (spec c c1 : Circuit) (seed : ClusterId) (t : NodeId)
    (cl : List ClusterId) (ci : List NodeId) (lmt : Int) (sel : Selection)
    (onset : List (OrdMap NodeId Bool)) : Prop where
  offer : Offer spec c c1 seed t cl ci
  translates : Translates env.abc spec c1 t ci
  exact : env.Exact
  selected : mergeSelection env fuel spec c1 seed cl ci lmt = some sel
  nonempty : sel.solutionC ≠ []
  onset : sel.onset = some onset

section
variable (hw : Wf c) (hex : c.Exact) (hp : Paired c spec)
  (hs : Selects env fuel spec c c1 seed t cl ci lmt sel onset)
  (htr : Trusted env fuel spec c1 t cl ci lmt)
include hw hex hp hs htr

theorem Selects.chosen : Chosen c1 cl sel.solutionC sel.solutionInputs ∧
    (∀ sig ∈ sel.solutionInputs, sig ∈ ci) ∧ Covers c1 spec t sel.solutionInputs onset := by
  have ho := hs.offer
  have hclus := (ho.targetSet hw).cluster
  obtain ⟨hch, hsub, hcov⟩ := mergeSelection_spec (ho.problem hw hex hp hs.translates)
    (ho.acyclic hw) (ho.closed hw) (ho.independent hw hex)
    (fun k hk n hn => ((initCand_spec hw ho.cands).2 n).2 ⟨k, hk, hclus ▸ hn⟩) hs.exact
    (by rw [hclus]; exact ho.nodes) hs.selected hs.nonempty
  exact ⟨hch, hsub, hcov htr onset hs.onset⟩

theorem Selects.newInputs : newInputs onset = sel.solutionInputs.elems := by
  obtain ⟨-, -, hcov⟩ := hs.chosen hw hex hp htr
  exact newInputs_eq hcov.nonempty hcov.shape

theorem Selects.not_reach {i : NodeId} (hi : i ∈ NodeMerge.newInputs onset) :
    i ∈ c.allNodes ∧ ¬ReflTransGen c.Fanin t i := by
  obtain ⟨-, hsub, -⟩ := hs.chosen hw hex hp htr
  rw [hs.newInputs hw hex hp htr] at hi
  exact hs.offer.inputs hw hex (hsub i hi)

theorem Selects.mergeable : Mergeable c sel.solutionC onset seed t := by
  obtain ⟨hch, -, hcov⟩ := hs.chosen hw hex hp htr
  refine ⟨hs.offer.mem, hs.offer.nodes, hch.nonempty, hch.nodup, fun k hk => ?_, hcov.nonempty,
    fun i hi => (hs.not_reach hw hex hp htr hi).1⟩
  have hout := (initCand_spec hw hs.offer.cands).1 k (hch.mem k hk)
  exact ⟨hout.mem, hout.ne⟩

/-- **A committed merge** with a safe clean-up keeps the circuit well formed and equivalent. -/
theorem commit_equivalent (hsafe : CleanupSafe c t (newInputs onset) (c.node t).inputs) :
    ∃ c' it, mergeSeed sel.solutionC onset seed t c = some (c', it) ∧ Wf c' ∧ Paired c' spec := by
  have hM := hs.mergeable hw hex hp htr
  obtain ⟨hch, hsub, hcov⟩ := hs.chosen hw hex hp htr
  have hlost := hM.not_lost hw.mirror hw.part hw.acyclic
  obtain ⟨c3, c', h3, h4, h5⟩ := commit_spec hw.mirror hw.part hM hlost hsafe
  have hw' := hw.commit hM (fun i hi => (hs.not_reach hw hex hp htr hi).2) h3 h5
  have ht := (hs.offer.node hw).1
  have hset := hs.offer.targetSet hw
  have hall : c3.allNodes = c.allNodes := h3.rewired.allNodes
  have hname : ∀ n, (c'.node n).name = (c.node n).name := fun n => by
    rw [h5.stripped.node n]
    exact h3.name n
  have hin : ∀ n, (c'.node n).isInput = (c.node n).isInput := fun n =>
    (h5.stripped.isInput n).trans (h3.rewired.isInput n)
  have hcube : ∀ n, (c'.node n).cube = if n = t then writeCube onset else (c.node n).cube := by
    intro n
    rw [h5.stripped.node n]
    exact h3.cube n
  have hpis : c'.inputs = c.inputs := h5.stripped.pis.trans h3.inputs
  have hpos : c'.outputs = c.outputs := h5.stripped.pos.trans h3.outputs
  have hsubN : ∀ n ∈ c'.allNodes, n ∈ c.allNodes := fun n hn => hall ▸ h5.stripped.sub.mem hn
  -- the ports stay
  have hstay : ∀ n ∈ c.allNodes, ¬c.Internal n → n ∈ c'.allNodes := fun n hn hi => by
    by_contra hn'
    exact hi ((h5.gone n (hall ▸ hn)).1 hn').internal
  have hports : Ports c' := by
    refine ⟨fun n => ?_, fun n hn => ?_, fun a ha b hb he => ?_⟩
    · rw [hpis, hin, hp.ports.inputs n]
      refine ⟨fun ⟨h1, h2⟩ => ⟨hstay n h1 fun hi => ?_, h2⟩, fun ⟨h1, h2⟩ => ⟨hsubN n h1, h2⟩⟩
      rw [hi.1] at h2
      cases h2
    · obtain ⟨h1, h2⟩ := hp.ports.outputs n (hpos ▸ hn)
      refine ⟨hstay n h1 fun hi => ?_, (h5.stripped.isOutput n).trans ((h3.rewired.isOutput n).trans h2)⟩
      rw [hi.2] at h2
      cases h2
    · rw [hname, hname] at he
      exact hp.ports.names a (hsubN a ha) b (hsubN b hb) he
  have hr : Restricts c1 c' t := by
    refine ⟨fun n hn => hset.allNodes ▸ hsubN n hn, hpis.trans hset.pis.symm,
      hpos.trans hset.pos.symm, fun n => (hname n).trans (hset.name n).symm,
      fun n => (hin n).trans (hset.isInput n).symm, fun n hn => ?_, fun n hn => ?_⟩
    · rw [h5.stripped.inputs, h3.rewired.inputs n hn, hset.inputs hn]
    · rw [hcube, if_neg hn, hset.cube hn]
  refine ⟨c', _, h4, hw', hports, hp.portsSpec,
    hr.interface ((hs.offer.restricts hw).interface hp.interface), ?_⟩
  have htc : t ∈ c'.allNodes := by
    by_contra hn
    exact hlost ((h5.gone t (hall ▸ ht)).1 hn)
  refine equivalent_of_onSet (hs.offer.acyclic hw) (hs.offer.closed hw) hw'.acyclic hw'.mirror.closed
    hr htc ((hin t).trans (hs.offer.node hw).2) (fun po hpo => (hports.outputs po hpo).1)
    (fun x w hx => ?_) (fun x v v' hv hv' i hi =>
      hs.offer.independent hw hex x v v' hv hv' i (hsub i hi)) ?_ ?_ hcov.shape hcov.covers hcov.avoids
  · obtain ⟨v, hv, -⟩ := exists_valuation hw.acyclic hw.mirror.closed [] x fun _ => false
    exact ⟨v, (hs.offer.restricts hw).valuation (hv.mono [t]),
      (hs.offer.restricts hw).agree.2 (hp.equivalent x v w hv hx)⟩
  · rw [h5.stripped.inputs, h3.rewired.inputsSelf, hs.newInputs hw hex hp htr]
  · rw [hcube, if_pos rfl]

end

/-- **A committed merge keeps the function of the circuit exactly if its clean-up is safe**, when no
call times out. -/
theorem merge_equivalent_iff (hw : Wf c) (hex : c.Exact) (hp : Paired c spec) (hq : env.Quiet)
    (hs : Selects env fuel spec c c1 seed t cl ci lmt sel onset) :
    (∃ c' it, mergeSeed sel.solutionC onset seed t c = some (c', it) ∧ c'.IsAcyclic ∧
        Equivalent c' spec) ↔
      CleanupSafe c t (newInputs onset) (c.node t).inputs := by
  constructor
  · rintro ⟨c', it, h1, -⟩
    by_contra hsafe
    have hM := hs.mergeable hw hex hp hq.trusted
    rw [commit_undefined hw.mirror hw.part hM (hM.not_lost hw.mirror hw.part hw.acyclic) hsafe] at h1
    cases h1
  · intro hsafe
    obtain ⟨c', it, h1, h2, h3⟩ := commit_equivalent hw hex hp hs hq.trusted hsafe
    exact ⟨c', it, h1, h2.acyclic, h3.equivalent⟩

end

/-! ## A clean-up that fails -/

/-- Every circuit computes its own outputs. -/
theorem Paired.refl {c : Circuit} (hp : Ports c) (hac : c.IsAcyclic) (hcl : c.Closed) :
    Paired c c where
  ports := hp
  portsSpec := hp
  interface := .refl c
  equivalent _ _ _ hv hw po hpo qo hqo he := by
    obtain ⟨hpc, -⟩ := hp.outputs po hpo
    obtain ⟨hqc, -⟩ := hp.outputs qo hqo
    rw [hp.names qo hqc po hpc he]
    exact hv.unique hac hcl hw (fun _ ht => absurd ht List.not_mem_nil) po hpc

/-- ABC that returns the circuits as they are. -/
theorem Offer.translates {spec c c1 : Circuit} {seed : ClusterId} {t : NodeId}
    {cl : List ClusterId} {ci : List NodeId} (hw : Wf c) (hex : c.Exact) (hp : Paired c spec)
    (hcl : spec.Closed) (ho : Offer spec c c1 seed t cl ci) (hs : (netlistOf c1 [t] ci).Simple)
    (hs' : (netlistOf spec [] []).Simple) : Translates netlistOf spec c1 t ci where
  impl := netlistOf_delivers (ho.ports hw hp.ports) (ho.closed hw) hs fun i hi => by
    rw [(ho.targetSet hw).allNodes]
    rcases List.mem_append.1 hi with hi | hi
    · exact List.mem_singleton.1 hi ▸ (ho.node hw).1
    · exact (ho.inputs hw hex hi).1
  spec := netlistOf_delivers hp.portsSpec hcl hs' (by simp)

/-- What `SelectMerge` has selected for the seed when it accepts. -/
def selected (env : Env) (fuel : Nat) (spec c : Circuit) (seed : ClusterId) (t : NodeId) (lmt : Int) :
    Option (List ClusterId × List NodeId × Circuit × Selection × List (OrdMap NodeId Bool)) := do
  let (cl, ci) ← initCand spec c seed
  let c1 ← setTargets [t] c
  let sel ← mergeSelection env fuel spec c1 seed cl ci lmt
  let onset ← sel.onset
  some (cl, ci, c1, sel, onset)

theorem selected_selects {spec c c1 : Circuit} {seed : ClusterId} {t : NodeId} {cl : List ClusterId}
    {ci : List NodeId} {fuel : Nat} {lmt : Int} {sel : Selection} {onset : List (OrdMap NodeId Bool)}
    (hw : Wf c) (hex : c.Exact) (hp : Paired c spec) (hcl : spec.Closed) (hmem : seed ∈ c.allClusters)
    (hn : (c.cluster seed).nodesC = [t])
    (h : selected plainEnv fuel spec c seed t lmt = some (cl, ci, c1, sel, onset))
    (hs : (netlistOf c1 [t] ci).Simple) (hs' : (netlistOf spec [] []).Simple)
    (hne : sel.solutionC ≠ []) : Selects plainEnv fuel spec c c1 seed t cl ci lmt sel onset := by
  simp only [selected, Option.bind_eq_bind, Option.bind_eq_some_iff, Option.some.injEq,
    Prod.mk.injEq, Prod.exists] at h
  obtain ⟨cl', ci', h1, c1', h2, sel', h3, onset', h4, rfl, rfl, rfl, rfl, rfl⟩ := h
  have ho : Offer spec c c1' seed t cl' ci' := ⟨hmem, hn, h1, h2⟩
  exact ⟨ho, ho.translates hw hex hp hcl hs hs', plainEnv_exact, h3, hne, h4⟩

/-- `SelectMerge` selects the cluster of `b` for `s`, and the clean-up removes `b` twice. -/
theorem merge_reconvergent : ∃ c1 cl ci sel onset,
    Wf reconvergentCircuit ∧ reconvergentCircuit.Exact ∧
    Paired reconvergentCircuit reconvergentCircuit ∧ plainEnv.Quiet ∧
    Selects plainEnv 50 reconvergentCircuit reconvergentCircuit c1 3 3 cl ci 1 sel onset ∧
    ¬∃ c' it, mergeSeed sel.solutionC onset 3 3 reconvergentCircuit = some (c', it) ∧
      c'.IsAcyclic ∧ Equivalent c' reconvergentCircuit := by
  obtain ⟨hw, hex⟩ := (Start.ofNodes reconvergent_ordered).wf (.refl _)
  have hp := Paired.refl (reconvergent_sameNet.ports reconvergent_ordered.ports)
    reconvergent_acyclic reconvergent_mirror.closed
  have hrun : ((selected plainEnv 50 reconvergentCircuit reconvergentCircuit 3 3 1).any fun r =>
      decide ((netlistOf r.2.2.1 [3] r.2.1).Simple ∧ r.2.2.2.1.solutionC ≠ [] ∧
        (mergeSeed r.2.2.2.1.solutionC r.2.2.2.2 3 3 reconvergentCircuit).isNone = true)) = true := by
    decide +kernel
  obtain ⟨⟨cl, ci, c1, sel, onset⟩, h1, h2⟩ := (Option.any_eq_true _ _).1 hrun
  obtain ⟨h3, h4, h5⟩ := of_decide_eq_true h2
  refine ⟨c1, cl, ci, sel, onset, hw, hex, hp, plainEnv_quiet, selected_selects hw hex hp
    reconvergent_mirror.closed (by decide) (by decide) h1 h3 (by decide) h4, ?_⟩
  rintro ⟨c', it, h6, -⟩
  rw [h6] at h5
  cases h5

/-- The seed `s` of `twoBuffers`. -/
theorem merge_equivalent_iff_twoBuffers : ∃ (sel : Selection) (onset : List (OrdMap NodeId Bool)),
    ((∃ c' it, mergeSeed sel.solutionC onset 3 3 (twoBuffersCircuit [1, 2, 3]) = some (c', it) ∧
        c'.IsAcyclic ∧ Equivalent c' (twoBuffersCircuit [1, 2, 3])) ↔
      CleanupSafe (twoBuffersCircuit [1, 2, 3]) 3 (newInputs onset)
        ((twoBuffersCircuit [1, 2, 3]).node 3).inputs) := by
  obtain ⟨hw, hex⟩ := twoBuffers_wf (l := [1, 2, 3]) (by decide)
  have hp := Paired.refl ((Ordered.reordered _).ports twoBuffers_ordered.ports) hw.acyclic
    hw.mirror.closed
  have hrun : ((selected plainEnv 50 (twoBuffersCircuit [1, 2, 3]) (twoBuffersCircuit [1, 2, 3])
      3 3 1).any fun r => decide ((netlistOf r.2.2.1 [3] r.2.1).Simple ∧
        r.2.2.2.1.solutionC ≠ [])) = true := by
    decide +kernel
  obtain ⟨⟨cl, ci, c1, sel, onset⟩, h1, h2⟩ := (Option.any_eq_true _ _).1 hrun
  obtain ⟨h3, h4⟩ := of_decide_eq_true h2
  exact ⟨sel, onset, merge_equivalent_iff hw hex hp plainEnv_quiet (selected_selects hw hex hp
    hw.mirror.closed (by decide) (by decide) h1 h3 (by decide) h4)⟩

/-! ## Runs with timeouts -/

/-- The solvers answer exactly unless the timer strikes, and ABC is faithful where the caches are
exact, so that the candidates are nodes. -/
structure Answers (env : Env) (spec c : Circuit) (seed : ClusterId) : Prop where
  exact : env.Exact
  translates : c.Exact → ∀ t cl ci c1, Offer spec c c1 seed t cl ci →
    Translates env.abc spec c1 t ci

/-- If a selection is accepted, the caches are exact and the timer did not strike the calls that it
rests on. -/
def Spared (env : Env) (fuel : Nat) (spec : Circuit) (lmt : Int) (c : Circuit) (seed : ClusterId) :
    Prop :=
  ∀ t cl ci c1 sel, Offer spec c c1 seed t cl ci →
    mergeSelection env fuel spec c1 seed cl ci lmt = some sel → accepts lmt sel = true →
    c.Exact ∧ Trusted env fuel spec c1 t cl ci lmt

/-- The heads of the loop of `SelectMerge`, where the timer spares what a merge rests on. -/
inductive Passed (spec : Circuit) (lmt : Int) (c₀ : Circuit) : Circuit → Option ClusterId → Prop
  | begin : Passed spec lmt c₀ c₀ c₀.allClusters.head?
  | next {c c' : Circuit} {seed : ClusterId} {it : Option ClusterId} {env : Env} {fuel : Nat} :
      Passed spec lmt c₀ c (some seed) → Answers env spec c seed → Spared env fuel spec lmt c seed →
      selectIter (mergeSelection env fuel spec) spec lmt c seed = some (c', it) →
      Passed spec lmt c₀ c' it

namespace Rejected

variable {c c' spec : Circuit} {t : NodeId} (h : Rejected c c' t)
include h

theorem restricts : Restricts c c' t where
  allNodes n hn := h.allNodes ▸ hn
  pis := by rw [h.rest]
  pos := by rw [h.rest]
  name := h.name
  isInput := h.isInput
  inputs n _ := h.inputs n
  cube n _ := h.cube n

theorem valuation {x : String → Bool} {v : NodeId → Bool} (hv : c'.Valuation [] x v) :
    c.Valuation [] x v := by
  intro n hn hf
  rw [hv n (h.allNodes ▸ hn) hf, eval, eval, h.isInput, h.name, h.inputs, h.cube]

theorem paired (hp : Paired c spec) : Paired c' spec where
  ports := by
    refine ⟨fun n => ?_, fun n hn => ?_, fun a ha b hb he => ?_⟩
    · rw [h.restricts.pis, h.allNodes, h.isInput]
      exact hp.ports.inputs n
    · rw [h.allNodes, h.isOutput]
      exact hp.ports.outputs n (h.restricts.pos ▸ hn)
    · rw [h.allNodes] at ha hb
      rw [h.name, h.name] at he
      exact hp.ports.names a ha b hb he
  portsSpec := hp.portsSpec
  interface := h.restricts.interface hp.interface
  equivalent x v w hv hx := h.restricts.agree.2 (hp.equivalent x v w (h.valuation hv) hx)

end Rejected

/-- One iteration. -/
theorem selectIter_equivalent {spec c c' : Circuit} {lmt : Int} {seed : ClusterId}
    {it : Option ClusterId} {env : Env} {fuel : Nat} (hw : Wf c) (hp : Paired c spec)
    (ha : Answers env spec c seed) (hs : Spared env fuel spec lmt c seed)
    (h : selectIter (mergeSelection env fuel spec) spec lmt c seed = some (c', it)) :
    Wf c' ∧ Paired c' spec := by
  obtain ⟨hseed, ⟨rfl, -⟩ | ⟨t, cl, ci, c1, sel, hn, -, hi, h1, hsel, h⟩⟩ := selectIter_cases h
  · exact ⟨hw, hp⟩
  have ho : Offer spec c c1 seed t cl ci := ⟨hseed, hn, hi, h1⟩
  rcases h with ⟨hacc, onset, hon, hmerge⟩ | ⟨-, hrej, -⟩
  · obtain ⟨hex, htr⟩ := hs t cl ci c1 sel ho hsel hacc
    have hS : Selects env fuel spec c c1 seed t cl ci lmt sel onset :=
      ⟨ho, ha.translates hex t cl ci c1 ho, ha.exact, hsel, accepts_ne hacc, hon⟩
    have hM := hS.mergeable hw hex hp htr
    have hsafe : CleanupSafe c t (newInputs onset) (c.node t).inputs := by
      by_contra hsafe
      rw [commit_undefined hw.mirror hw.part hM (hM.not_lost hw.mirror hw.part hw.acyclic) hsafe]
        at hmerge
      cases hmerge
    obtain ⟨c2, it2, h2, h3, h4⟩ := commit_equivalent hw hex hp hS htr hsafe
    rw [h2] at hmerge
    cases hmerge
    exact ⟨h3, h4⟩
  · obtain ⟨ht, hti⟩ := ho.node hw
    obtain ⟨c2, h2, h3⟩ := reject_spec hw.mirror ht hti
    rw [h2] at hrej
    cases hrej
    exact ⟨(hw.reject h3).1, h3.paired hp⟩

/-- **In runs where the timer spares what a merge rests on** every circuit is equivalent to the
specification. -/
theorem passed_equivalent {spec c₀ c : Circuit} {lmt : Int} {it : Option ClusterId} (hw : Wf c₀)
    (hp : Paired c₀ spec) (h : Passed spec lmt c₀ c it) : c.IsAcyclic ∧ Equivalent c spec := by
  have key : Wf c ∧ Paired c spec := by
    induction h with
    | begin => exact ⟨hw, hp⟩
    | next _ ha hs h ih => exact selectIter_equivalent ih.1 ih.2 ha hs h
  exact ⟨key.1.acyclic, key.2.equivalent⟩

/-- The seed `s` is the OR of `p` and `q`; `u` and `w` are buffers of them. -/
def orAndBuffers : List Node := [
  { name := "p", isInput := true, outputs := [2, 4] },
  { name := "q", isInput := true, outputs := [3, 4] },
  { name := "u", cube := "1 1\n", inputs := [0], isOutput := true },
  { name := "w", cube := "1 1\n", inputs := [1], isOutput := true },
  { name := "s", cube := "00 0\n", inputs := [0, 1], isOutput := true }]

/-- The circuit of `orAndBuffers` with the cluster of `s` first. -/
def orAndBuffersCircuit : Circuit :=
  { (ofNodes orAndBuffers).initCluster id with allClusters := [4, 2, 3] }

/-- Every call of the solver of `Solve_c` but the first times out. -/
def stubbornEnv : Env := { plainEnv with alarm := fun i => decide (i ≠ 0) }

theorem orAndBuffers_ordered : Ordered orAndBuffers := by decide

theorem orAndBuffers_wf : Wf orAndBuffersCircuit ∧ orAndBuffersCircuit.Exact ∧
    Paired orAndBuffersCircuit orAndBuffersCircuit := by
  obtain ⟨hw, hex⟩ := (Start.ofNodes orAndBuffers_ordered).wf (l := [4, 2, 3]) (by decide)
  exact ⟨hw, hex, .refl ((Ordered.reordered _).ports orAndBuffers_ordered.ports) hw.acyclic
    hw.mirror.closed⟩

/-- ABC returns the circuits as they are. -/
theorem answers_netlistOf {env : Env} {spec c : Circuit} {seed : ClusterId} {t : NodeId}
    (habc : env.abc = netlistOf) (hex : env.Exact) (hw : Wf c) (hp : Paired c spec)
    (hcl : spec.Closed) (hn : (c.cluster seed).nodesC = [t]) (hs : (netlistOf spec [] []).Simple)
    (hall : ((initCand spec c seed).all fun r => (setTargets [t] c).all fun c1 =>
      decide (netlistOf c1 [t] r.2).Simple) = true) : Answers env spec c seed := by
  refine ⟨hex, fun hc t' cl ci c1 ho => ?_⟩
  obtain rfl : t' = t := by simpa using ho.nodes.symm.trans hn
  rw [ho.cands, Option.all_some, ho.target, Option.all_some] at hall
  rw [habc]
  exact ho.translates hw hc hp hcl (of_decide_eq_true hall) hs

/-- `s` becomes a buffer of `q`, which is wrong where only `p` is 1. -/
theorem passed_timeouts : Wf orAndBuffersCircuit ∧ orAndBuffersCircuit.Exact ∧
    Paired orAndBuffersCircuit orAndBuffersCircuit ∧
    orAndBuffersCircuit.allClusters.head? = some 4 ∧
    Answers stubbornEnv orAndBuffersCircuit orAndBuffersCircuit 4 ∧
    ∃ c' it, selectIter (mergeSelection stubbornEnv 50 orAndBuffersCircuit) orAndBuffersCircuit 1
      orAndBuffersCircuit 4 = some (c', it) ∧ ¬Equivalent c' orAndBuffersCircuit := by
  obtain ⟨hw, hex, hp⟩ := orAndBuffers_wf
  refine ⟨hw, hex, hp, rfl, answers_netlistOf rfl ⟨plainEnv_exact.1, plainEnv_exact.2,
    plainEnv_exact.3⟩ hw hp hw.mirror.closed (t := 4) (by decide) (by decide)
    (by decide +kernel), ?_⟩
  have hrun : ((selectIter (mergeSelection stubbornEnv 50 orAndBuffersCircuit) orAndBuffersCircuit 1
      orAndBuffersCircuit 4).any fun r => decide
        (r.1.Valuation [] (fun s => decide (s = "p")) (fun i => decide (i = 0 ∨ i = 2)) ∧
          ¬Agree r.1 orAndBuffersCircuit (fun i => decide (i = 0 ∨ i = 2))
            fun i => decide (i = 0 ∨ i = 2 ∨ i = 4))) = true := by
    decide +kernel
  obtain ⟨⟨c', it⟩, h1, h2⟩ := (Option.any_eq_true _ _).1 hrun
  obtain ⟨h3, h4⟩ := of_decide_eq_true h2
  exact ⟨c', it, h1, fun h => h4 (h _ _ _ h3 (by decide))⟩

/-- Without timeouts `s` of `twoBuffers` becomes a buffer of `p`. -/
theorem passed_equivalent_twoBuffers : ∃ c' it,
    selectIter (mergeSelection plainEnv 50 (twoBuffersCircuit [3, 1, 2])) (twoBuffersCircuit [3, 1, 2])
      1 (twoBuffersCircuit [3, 1, 2]) 3 = some (c', it) ∧ (c'.node 3).inputs = [0] ∧
      c'.IsAcyclic ∧ Equivalent c' (twoBuffersCircuit [3, 1, 2]) := by
  obtain ⟨hw, hex⟩ := twoBuffers_wf (l := [3, 1, 2]) (by decide)
  have hp := Paired.refl ((Ordered.reordered _).ports twoBuffers_ordered.ports) hw.acyclic
    hw.mirror.closed
  have hrun : ((selectIter (mergeSelection plainEnv 50 (twoBuffersCircuit [3, 1, 2]))
      (twoBuffersCircuit [3, 1, 2]) 1 (twoBuffersCircuit [3, 1, 2]) 3).any fun r =>
        decide ((r.1.node 3).inputs = [0])) = true := by
    decide +kernel
  obtain ⟨⟨c', it⟩, h1, h2⟩ := (Option.any_eq_true _ _).1 hrun
  refine ⟨c', it, h1, of_decide_eq_true h2, passed_equivalent hw hp (Passed.begin.next
    (answers_netlistOf rfl plainEnv_exact hw hp hw.mirror.closed (t := 3) (by decide) (by decide)
      (by decide +kernel)) (fun _ _ _ _ _ _ _ _ => ⟨hex, plainEnv_quiet.trusted⟩) h1)⟩

end Msyn.NodeMerge
