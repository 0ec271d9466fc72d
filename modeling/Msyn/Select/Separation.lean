import Msyn.Circuit.Numbered
import Msyn.Select.SolveC
import Msyn.Sat.Encodes

/-!
# What the selection means for the circuits

On the CNFs that `MergeSelection` makes of the circuits, the pairs of models that `Must` describes
are the pairs of valuations that `MustBe` describes (`must_of_mustBe`, `mustBe_of_must`). So the
selection of `Solve_c` tells the assignments where the seed must be 0 from those where it must be 1
(`solveC_separates`).
-/

namespace Msyn.MergeSelection

open Nodecircuit Circuit Cnf CNFgen Glucose GInterface

/-- What `MergeSelection` is called on; `abc` returns netlists of the circuits. -/
structure Problem (abc : Circuit → List NodeId → List NodeId → Netlist) (c specC : Circuit)
    (t : NodeId) (candInputs : List NodeId) : Prop where
  ports : Ports c
  portsSpec : Ports specC
  interface : Interface c specC
  target : t ∈ c.allNodes
  notInput : (c.node t).isInput = false
  cands : ∀ sig ∈ candInputs, sig ∈ c.allNodes
  delivers : Delivers (abc c [t] candInputs) c [t] candInputs
  deliversSpec : Delivers (abc specC [] []) specC [] []

/-- The CNF of the implementation. -/
abbrev implCnf (abc : Circuit → List NodeId → List NodeId → Netlist) (c : Circuit) (t : NodeId)
    (candInputs : List NodeId) : CNFGenerator := CNFGenerator.init abc c [t] candInputs

/-- The CNF of the specification. -/
abbrev specCnf (abc : Circuit → List NodeId → List NodeId → Netlist) (specC : Circuit) :
    CNFGenerator := CNFGenerator.init abc specC [] []

/-- The CNFs of a circuit with the nodes `free` left open and of its specification. -/
structure Coupled (impl spec : CNFGenerator) (c specC : Circuit) (free named : List NodeId) : Prop where
  ports : Ports c
  portsSpec : Ports specC
  interface : Interface c specC
  notFree : ∀ n ∈ c.inputs, n ∉ free
  sub : ∀ n ∈ c.inputs ++ c.outputs, n ∈ named
  encodes : Describes impl c free named
  encodesSpec : Describes spec specC [] (specC.inputs ++ specC.outputs)

namespace Coupled

/-- The variable of a port in the CNF of the specification. -/
theorem varOf_eq {spec : CNFGenerator} {c specC : Circuit} {n q : NodeId}
    (he : (specC.node q).name = (c.node n).name) :
    varOf c spec n = spec.var (specC.node q).name := by
  rw [varOf, he]

variable {impl spec : CNFGenerator} {c specC : Circuit} {free named : List NodeId}
  (h : Coupled impl spec c specC free named)
include h

/-- The ports of the specification under the names of the implementation. -/
theorem port {n : NodeId} (hn : n ∈ c.inputs ∨ n ∈ c.outputs) :
    ∃ q ∈ specC.inputs ++ specC.outputs, (specC.node q).name = (c.node n).name := by
  rcases hn with hn | hn
  · obtain ⟨q, hq, he⟩ := h.interface.inputs n hn
    exact ⟨q, List.mem_append_left _ hq, he⟩
  · obtain ⟨q, hq, he⟩ := h.interface.outputs n hn
    exact ⟨q, List.mem_append_right _ hq, he⟩

/-- The ports of a valuation of each circuit, in models that read them. -/
theorem ports_iff {x : String → Bool} {v w : NodeId → Bool} {m s : Model}
    (hv : c.Valuation free x v) (hw : specC.Valuation [] x w)
    (hm : ∀ n ∈ named, m (varOf c impl n) = v n)
    (hs : ∀ q ∈ specC.inputs ++ specC.outputs, s (spec.var (specC.node q).name) = w q) :
    (∀ pi ∈ c.inputs, m (varOf c impl pi) = s (varOf c spec pi)) ∧
    ((∀ po ∈ c.outputs, m (varOf c impl po) = s (varOf c spec po)) ↔ Agree c specC v w) := by
  have hport : ∀ n, n ∈ c.inputs ∨ n ∈ c.outputs → m (varOf c impl n) = v n := fun n hn =>
    hm n (h.sub n (List.mem_append.2 hn))
  refine ⟨fun pi hpi => ?_, fun hall po hpo qo hqo he => ?_, fun hag po hpo => ?_⟩
  · obtain ⟨qi, hqi, he⟩ := h.interface.inputs pi hpi
    rw [hport pi (.inl hpi), varOf_eq he, hs qi (by simp [hqi]),
      hv.input h.ports hpi (h.notFree pi hpi), hw.input h.portsSpec hqi (by simp), he]
  · rw [← hport po (.inr hpo), hall po hpo, varOf_eq he, hs qo (by simp [hqo])]
  · obtain ⟨qo, hqo, he⟩ := h.interface.outputs po hpo
    rw [hport po (.inr hpo), varOf_eq he, hs qo (by simp [hqo])]
    exact hag po hpo qo hqo he

/-- A model with the primary inputs of a valuation of the specification. -/
theorem valuation_of_model {x : String → Bool} {w : NodeId → Bool} {m s : Model}
    (hw : specC.Valuation [] x w)
    (hs : ∀ q ∈ specC.inputs ++ specC.outputs, s (spec.var (specC.node q).name) = w q)
    (hm : Sat m impl.cnf) (hin : ∀ pi ∈ c.inputs, m (varOf c impl pi) = s (varOf c spec pi)) :
    ∃ v, c.Valuation free x v ∧ ∀ n ∈ named, m (varOf c impl n) = v n := by
  obtain ⟨x', v, hv, hmv⟩ := h.encodes.sound m hm
  have hmv : ∀ n ∈ named, m (varOf c impl n) = v n := hmv
  refine ⟨v, valuation_congr (fun n hn _ hi => ?_) hv, hmv⟩
  have hpi := (h.ports.inputs n).2 ⟨hn, hi⟩
  obtain ⟨qi, hqi, he⟩ := h.interface.inputs n hpi
  have := hin n hpi
  rwa [hmv n (h.sub n (by simp [hpi])), hv.input h.ports hpi (h.notFree n hpi), varOf_eq he,
    hs qi (by simp [hqi]), hw.input h.portsSpec hqi (by simp), he] at this

/-- Two models with the same primary inputs are two valuations under one assignment. -/
theorem valuations {m m' : Model} (hm : Sat m impl.cnf) (hm' : Sat m' impl.cnf)
    (hin : ∀ pi ∈ c.inputs, m (varOf c impl pi) = m' (varOf c impl pi)) :
    ∃ x v v', c.Valuation free x v ∧ c.Valuation free x v' ∧
      (∀ n ∈ named, m (varOf c impl n) = v n) ∧ ∀ n ∈ named, m' (varOf c impl n) = v' n := by
  obtain ⟨x, v, hv, hmv⟩ := h.encodes.sound m hm
  obtain ⟨x', v', hv', hmv'⟩ := h.encodes.sound m' hm'
  have hmv : ∀ n ∈ named, m (varOf c impl n) = v n := hmv
  have hmv' : ∀ n ∈ named, m' (varOf c impl n) = v' n := hmv'
  refine ⟨x, v, v', hv, valuation_congr (fun n hn _ hi => ?_) hv', hmv, hmv'⟩
  have hn' := (h.ports.inputs n).2 ⟨hn, hi⟩
  have hnm := h.sub n (by simp [hn'])
  have := hin n hn'
  rw [hmv n hnm, hmv' n hnm, hv.input h.ports hn' (h.notFree n hn'),
    hv'.input h.ports hn' (h.notFree n hn')] at this
  exact this.symm

end Coupled

/-- The nodes tell the assignments where `t` must be 0 from those where it must be 1: their values
with `t` at 0 differ. -/
def Distinguishes (c specC : Circuit) (t : NodeId) (sigs : NodeSet) : Prop :=
  ¬∃ x0 v0 v0' w0 x1 v1 v1' w1, MustBe c specC t false x0 v0 v0' w0 ∧
    MustBe c specC t true x1 v1 v1' w1 ∧ ∀ sig ∈ sigs, v0 sig = v1' sig

section
variable {abc : Circuit → List NodeId → List NodeId → Netlist} {c specC : Circuit} {t : NodeId}
  {candInputs : List NodeId} (h : Problem abc c specC t candInputs)
include h

theorem Problem.encodes : Encodes (implCnf abc c t candInputs) c [t]
    (c.inputs ++ c.outputs ++ [t] ++ candInputs) := CNFGenerator.encodes_init h.delivers

theorem Problem.encodesSpec : Encodes (specCnf abc specC) specC []
    (specC.inputs ++ specC.outputs) := by
  have := CNFGenerator.encodes_init h.deliversSpec
  simpa only [List.append_nil] using this

theorem Problem.not_target {n : NodeId} (hn : n ∈ c.inputs) : n ∉ [t] := by
  rw [List.mem_singleton]
  rintro rfl
  have := ((h.ports.inputs n).1 hn).2
  rw [h.notInput] at this
  cases this

theorem Problem.coupled : Coupled (implCnf abc c t candInputs) (specCnf abc specC) c specC [t]
    (c.inputs ++ c.outputs ++ [t] ++ candInputs) where
  ports := h.ports
  portsSpec := h.portsSpec
  interface := h.interface
  notFree _ hn := h.not_target hn
  sub _ hn := List.mem_append_left _ (List.mem_append_left _ hn)
  encodes := h.encodes.describes
  encodesSpec := h.encodesSpec.describes

/-- The ports of the specification under the names of the implementation. -/
theorem Problem.knownSpec {n : NodeId} (hn : n ∈ c.inputs ∨ n ∈ c.outputs) :
    ∃ q ∈ specC.inputs ++ specC.outputs, (specC.node q).name = (c.node n).name :=
  h.coupled.port hn

theorem Problem.names (hne : c.outputs ≠ []) :
    Names (implCnf abc c t candInputs) (specCnf abc specC) c t candInputs := by
  have hk := h.encodes.known
  have hS : ∀ n, n ∈ c.inputs ∨ n ∈ c.outputs → (specCnf abc specC).Known (c.node n).name := by
    intro n hn
    obtain ⟨q, hq, he⟩ := h.knownSpec hn
    exact he ▸ h.encodesSpec.known q hq
  exact ⟨h.encodes.below, h.encodesSpec.below, hk t (by simp),
    fun pi hpi => ⟨hk pi (by simp [hpi]), hS pi (.inl hpi)⟩,
    fun po hpo => ⟨hk po (by simp [hpo]), hS po (.inr hpo)⟩,
    fun sig hsig => hk sig (by simp [hsig]), hne⟩

omit h in
/-- The variable of a port in the CNF of the specification. -/
theorem varOf_spec {n q : NodeId} (he : (specC.node q).name = (c.node n).name) :
    varOf c (specCnf abc specC) n = (specCnf abc specC).var (specC.node q).name := by
  rw [varOf, he]

/-- The model has the values of the valuation on the nodes that `impl` knows. -/
def Reads (abc : Circuit → List NodeId → List NodeId → Netlist) (c : Circuit) (t : NodeId)
    (candInputs : List NodeId) (m : Model) (v : NodeId → Bool) : Prop :=
  ∀ n ∈ c.inputs ++ c.outputs ++ [t] ++ candInputs, m (varOf c (implCnf abc c t candInputs) n) = v n

/-- The ports of a valuation of each circuit, in models that read them. -/
theorem Problem.ports_iff {x : String → Bool} {v w : NodeId → Bool} {m s : Model}
    (hv : c.Valuation [t] x v) (hw : specC.Valuation [] x w) (hm : Reads abc c t candInputs m v)
    (hs : ∀ q ∈ specC.inputs ++ specC.outputs, s ((specCnf abc specC).var (specC.node q).name) = w q) :
    (∀ pi ∈ c.inputs, m (varOf c (implCnf abc c t candInputs) pi) =
      s (varOf c (specCnf abc specC) pi)) ∧
    ((∀ po ∈ c.outputs, m (varOf c (implCnf abc c t candInputs) po) =
      s (varOf c (specCnf abc specC) po)) ↔ Agree c specC v w) :=
  h.coupled.ports_iff hv hw hm hs

/-- A model with the primary inputs of a valuation of the specification. -/
theorem Problem.valuation_of_model {x : String → Bool} {w : NodeId → Bool} {m s : Model}
    (hw : specC.Valuation [] x w)
    (hs : ∀ q ∈ specC.inputs ++ specC.outputs, s ((specCnf abc specC).var (specC.node q).name) = w q)
    (hm : Sat m (implCnf abc c t candInputs).cnf)
    (hin : ∀ pi ∈ c.inputs, m (varOf c (implCnf abc c t candInputs) pi) =
      s (varOf c (specCnf abc specC) pi)) :
    ∃ v, c.Valuation [t] x v ∧ Reads abc c t candInputs m v :=
  h.coupled.valuation_of_model hw hs hm hin

/-- **Valuations become models.** -/
theorem must_of_mustBe {b : Bool} {x : String → Bool} {v v' w : NodeId → Bool}
    (hb : MustBe c specC t b x v v' w) :
    ∃ m m' s, Must (implCnf abc c t candInputs) (specCnf abc specC) c t b m m' s ∧
      Reads abc c t candInputs m v ∧ Reads abc c t candInputs m' v' := by
  obtain ⟨m, hm, hmv⟩ := h.encodes.complete x v hb.val
  obtain ⟨m', hm', hmv'⟩ := h.encodes.complete x v' hb.val'
  obtain ⟨s, hs, hsw⟩ := h.encodesSpec.complete x w hb.valSpec
  have hmv : Reads abc c t candInputs m v := hmv
  have hmv' : Reads abc c t candInputs m' v' := hmv'
  obtain ⟨hin, hout⟩ := Problem.ports_iff h hb.val hb.valSpec hmv hsw
  obtain ⟨hin', hout'⟩ := Problem.ports_iff h hb.val' hb.valSpec hmv' hsw
  refine ⟨m, m', s, ⟨hm, hm', hs, (hmv t (by simp)).trans hb.target,
    (hmv' t (by simp)).trans hb.target', fun pi hpi => ⟨hin pi hpi, hin' pi hpi⟩,
    hout.2 hb.agree, ?_⟩, hmv, hmv'⟩
  by_contra hne
  refine hb.differ (hout'.1 fun po hpo => ?_)
  by_contra hd
  exact hne ⟨po, hpo, hd⟩

/-- **Models become valuations.** -/
theorem mustBe_of_must {b : Bool} {m m' s : Model}
    (hb : Must (implCnf abc c t candInputs) (specCnf abc specC) c t b m m' s) :
    ∃ x v v' w, MustBe c specC t b x v v' w ∧
      Reads abc c t candInputs m v ∧ Reads abc c t candInputs m' v' := by
  obtain ⟨x, w, hw, hsw⟩ := h.encodesSpec.sound s hb.satS
  obtain ⟨v, hv, hmv⟩ := Problem.valuation_of_model h hw hsw hb.sat fun pi hpi => (hb.inputs pi hpi).1
  obtain ⟨v', hv', hmv'⟩ :=
    Problem.valuation_of_model h hw hsw hb.sat' fun pi hpi => (hb.inputs pi hpi).2
  obtain ⟨-, hout⟩ := Problem.ports_iff h hv hw hmv hsw
  obtain ⟨-, hout'⟩ := Problem.ports_iff h hv' hw hmv' hsw
  refine ⟨x, v, v', w, ⟨hv, hv', hw, (hmv t (by simp)).symm.trans hb.seedAt,
    (hmv' t (by simp)).symm.trans hb.seedAt', hout.1 hb.outputs, fun hag => ?_⟩, hmv, hmv'⟩
  obtain ⟨po, hpo, hd⟩ := hb.outputs'
  exact hd (hout'.2 hag po hpo)

/-- What separates the models distinguishes the assignments. -/
theorem Separates.distinguishes {sigs : NodeSet} (hsigs : ∀ sig ∈ sigs, sig ∈ candInputs)
    (hs : Separates (implCnf abc c t candInputs) (specCnf abc specC) c t sigs) :
    Distinguishes c specC t sigs := by
  rintro ⟨x0, v0, v0', w0, x1, v1, v1', w1, h0, h1, hagree⟩
  obtain ⟨m0, m1, s0, k0, hv0, -⟩ := must_of_mustBe h h0
  obtain ⟨m3, m2, s1, k1, -, hv1⟩ := must_of_mustBe h h1
  refine hs ⟨m0, m1, m2, m3, s0, s1, k0, k1, fun sig hsig => ?_⟩
  rw [hv0 sig (by simp [hsigs sig hsig]), hv1 sig (by simp [hsigs sig hsig])]
  exact hagree sig hsig

end

/-! ## Circuits without outputs -/

/-- The triggers keep the clauses. -/
theorem sat_of_triggers {impl : CNFGenerator} {c : Circuit} {m : Model} {cands : List NodeId}
    {s : GInterface × OrdMap NodeId Nat}
    (h : Sat m (cands.foldl (addTrigger impl c) s).1.clauses) : Sat m s.1.clauses := by
  induction cands generalizing s with
  | nil => exact h
  | cons cand cands ih => exact ((ifTrueThenEQ_adds s.1 _ _ _).sat m).1 (ih h) |>.1

/-- Without outputs none can differ. -/
theorem makeSolver_unsat {impl spec : CNFGenerator} {c : Circuit} {seed : NodeId}
    {candInputs : List NodeId} (hnil : c.outputs = []) (m : Model) :
    ¬Sat m (makeSolver impl spec c seed candInputs).glu.clauses := by
  intro h
  have h1 : Sat m (makeNEqual1 impl spec c seed).clauses := sat_of_triggers h
  rw [makeNEqual1, (setNEqual_adds _ _ _).sat] at h1
  obtain ⟨-, -, i, hi, -⟩ := h1
  simp [outs, hnil] at hi

/-- The loop ends at once if its formula is unsatisfiable. -/
theorem solveC_of_unsat {impl spec : CNFGenerator} {c : Circuit} {seed : NodeId}
    {cands : List ClusterId} {candInputs : List NodeId} {limit : Int} {solver : Nat → Solve}
    {alarm : Nat → Bool} {flag : Bool} (hex : Exact (solver 0))
    (h : ∀ m, ¬Sat m (makeSolver impl spec c seed candInputs).glu.clauses) :
    ∃ r, solveC impl spec c seed cands candInputs limit solver alarm 1 flag = some (some r) ∧
      r.found = false ∧ r.solutionC = [] := by
  refine ⟨⟨false, [], ∅, 1⟩, loop_leave _ ?_ 0, rfl, rfl⟩
  unfold solveStep
  cases ha : alarm 0 with
  | true => simp [start, ha, onUnsat, State.outcome]
  | false =>
    have hans := hex (start impl spec c seed cands candInputs flag).made.glu.clauses
      (assumptions { start impl spec c seed cands candInputs flag with calls := 1 })
    cases hs : solver 0 (start impl spec c seed cands candInputs flag).made.glu.clauses
        (assumptions { start impl spec c seed cands candInputs flag with calls := 1 }) with
    | some m =>
      rw [hs] at hans
      exact absurd hans.1 (h m)
    | none =>
      simp only [start] at hs
      simp [start, ha, hs, onUnsat, State.outcome]

/-! ## The selection -/

/-- **`Solve_c` ends, and a solution it finds distinguishes** the assignments where the seed must
be 0 from those where it must be 1; it is empty otherwise. -/
theorem solveC_separates {abc : Circuit → List NodeId → List NodeId → Netlist} {c specC : Circuit}
    {t : NodeId} {cands : List ClusterId} {candInputs : List NodeId} {limit : Int}
    {solver : Nat → Solve} (h : Problem abc c specC t candInputs)
    (hcands : ∀ n, n ∈ candInputs ↔ ∃ k ∈ cands, n ∈ (c.cluster k).inputNodes)
    (hex : ∀ i, Exact (solver i)) (flag : Bool) :
    ∃ fuel r, solveC (implCnf abc c t candInputs) (specCnf abc specC) c t cands candInputs limit
        solver (fun _ => false) fuel flag = some (some r) ∧
      (r.found = true → Distinguishes c specC t r.solutionInputs) ∧
      (r.found = false → r.solutionC = []) := by
  by_cases hne : c.outputs = []
  · obtain ⟨r, hr, hf, hs⟩ := solveC_of_unsat (hex 0) fun m => makeSolver_unsat hne m
    exact ⟨1, r, hr, fun hc => (by rw [hf] at hc; cases hc), fun _ => hs⟩
  have hinj : ∀ a ∈ candInputs, ∀ b ∈ candInputs, (c.node a).name = (c.node b).name → a = b :=
    fun a ha b hb => h.ports.names a (h.cands a ha) b (h.cands b hb)
  obtain ⟨fuel, o, ho, he⟩ := solveC_spec (h.names hne) hinj
    (fun k hk n hn => (hcands n).2 ⟨k, hk, hn⟩) hex flag
  obtain ⟨r, rfl⟩ := he.returns
  refine ⟨fuel, r, ho, fun hf => ?_, fun hf => he.empty r rfl hf⟩
  obtain ⟨-, hsub, -, hsep⟩ := he.chosen r rfl hf
  exact Separates.distinguishes h hsub (hsep rfl rfl)

/-- A buffer `u` of `p`, and a target `t`. -/
def bufferAndTarget : List Node := [
  { name := "p", isInput := true, outputs := [1] },
  { name := "u", cube := "1 1\n", inputs := [0], isOutput := true },
  { name := "t", isOutput := true }]

/-- Both outputs are `p`. -/
def bufferAndBuffer : List Node := [
  { name := "p", isInput := true, outputs := [1, 2] },
  { name := "u", cube := "1 1\n", inputs := [0], isOutput := true },
  { name := "t", cube := "1 1\n", inputs := [0], isOutput := true }]

/-- The only candidate is the cluster of `u`. -/
theorem solveC_separates_buffer :
    let c := (ofNodes bufferAndTarget).initCluster id
    let specC := ofNodes bufferAndBuffer
    ∃ fuel r, solveC (implCnf netlistOf c 2 [0]) (specCnf netlistOf specC) c 2 [1] [0] 1
        (fun _ => dpllSolve) (fun _ => false) fuel true = some (some r) ∧
      (r.found = true → Distinguishes c specC 2 r.solutionInputs) ∧
      (r.found = false → r.solutionC = []) := by
  have ho : Ordered bufferAndTarget := by decide
  have hs : Ordered bufferAndBuffer := by decide
  have hc : SameNet (ofNodes bufferAndTarget) ((ofNodes bufferAndTarget).initCluster id) :=
    Ordered.clustered
  refine solveC_separates ⟨hc.ports ho.ports, hs.ports, by constructor <;> decide, by decide,
    by decide, by decide, ?_, ?_⟩ (fun n => ?_) (fun _ => dpll_exact) true
  · exact netlistOf_delivers (hc.ports ho.ports) (hc.mirror ho.mirror).closed (by decide) (by decide)
  · exact netlistOf_delivers hs.ports hs.mirror.closed (by decide) (by decide)
  · have hin : (((ofNodes bufferAndTarget).initCluster id).cluster 1).inputNodes.elems = [0] := by
      decide
    simp [OrdSet.mem_def, hin]

end Msyn.MergeSelection
