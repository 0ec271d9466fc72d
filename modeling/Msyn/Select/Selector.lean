import Msyn.Merge.NodeMerge
import Msyn.Select.OnSet

/-!
# The selector of SelectMerge

The constructor of `MergeSelection` and `GetOnSet` together: the selection of `Solve_c`, and the
on-set that `getDC::solve` finds for its inputs. What the program does not decide (the netlists of
ABC, the models of the solvers, the timeouts, an uninitialised flag) is an `Env`. Unless the timer
struck one of the calls that a selection rests on (`Trusted`), its inputs distinguish the
assignments of the two kinds and its on-set is complete (`mergeSelection_spec`).
-/

namespace Msyn.MergeSelection

open Nodecircuit Circuit Cnf CNFgen Glucose GInterface NodeMerge Relation

/-- What `MergeSelection` gets from outside. -/
structure Env where
  abc : Circuit → List NodeId → List NodeId → Netlist
  solver : Nat → Solve
  alarm : Nat → Bool
  flag : Bool
  solverMain : Nat → Solve
  solverCheck : Nat → Solve
  alarmMain : Nat → Bool

/-- The solvers answer truthfully. -/
structure Env.Exact (env : Env) : Prop where
  solver : ∀ i, Cnf.Exact (env.solver i)
  main : ∀ i, Cnf.Exact (env.solverMain i)
  check : ∀ i, Cnf.Exact (env.solverCheck i)

/-- The timer never strikes. -/
def Env.Quiet (env : Env) : Prop := ∀ i, env.alarm i = false ∧ env.alarmMain i = false

/-- ABC leaves the circuit as it is, and the timer never strikes. -/
def plainEnv : Env where
  abc := netlistOf
  solver _ := dpllSolve
  alarm _ := false
  flag := false
  solverMain _ := dpllSolve
  solverCheck _ := dpllSolve
  alarmMain _ := false

theorem plainEnv_exact : plainEnv.Exact :=
  ⟨fun _ => dpll_exact, fun _ => dpll_exact, fun _ => dpll_exact⟩

theorem plainEnv_quiet : plainEnv.Quiet := fun _ => ⟨rfl, rfl⟩

section
variable (env : Env) (fuel : Nat) (specC c : Circuit) (t : NodeId)

/-- `Solve_c` on the circuit `c` with the target `t`. -/
def runSolve (candidates : List ClusterId) (candInputs : List NodeId) (limit : Int) :
    Option (Option Outcome) :=
  solveC (implCnf env.abc c t candInputs) (specCnf env.abc specC) c t candidates candInputs limit
    env.solver env.alarm fuel env.flag

/-- `getDC::solve` for the inputs of a solution. -/
def runDC (candInputs : List NodeId) (solutionInputs : NodeSet) : Option (Option DC.State) :=
  DC.solve (implCnf env.abc c t candInputs) (specCnf env.abc specC) c t solutionInputs.elems
    env.solverMain env.solverCheck env.alarmMain fuel

/-- `GetOnSet`. -/
def getOnSet (candInputs : List NodeId) (solutionInputs : NodeSet) :
    Option (List (OrdMap NodeId Bool)) := do
  let st ← (← runDC env fuel specC c t candInputs solutionInputs)
  some st.in2cases

end

/-- The selector that `SelectMerge` uses. For a seed of several nodes nothing is selected. -/
def mergeSelection (env : Env) (fuel : Nat) (specC : Circuit) : Selector :=
  fun c seed candidates candInputs limit =>
    match (c.cluster seed).nodesC with
    | [t] => do
      let r ← (← runSolve env fuel specC c t candidates candInputs limit)
      some { solutionC := r.solutionC, solutionInputs := r.solutionInputs
             onset := getOnSet env fuel specC c t candInputs r.solutionInputs }
    | _ => some { solutionC := [], solutionInputs := ∅, onset := none }

/-- The timer did not strike the last two calls of `Solve_c`, nor the last call of `main` in
`getDC::solve`. -/
def Trusted (env : Env) (fuel : Nat) (specC c : Circuit) (t : NodeId) (candidates : List ClusterId)
    (candInputs : List NodeId) (limit : Int) : Prop :=
  ∀ r, runSolve env fuel specC c t candidates candInputs limit = some (some r) →
    env.alarm (r.calls - 1) = false ∧ env.alarm (r.calls - 2) = false ∧
      ∀ st, runDC env fuel specC c t candInputs r.solutionInputs = some (some st) →
        env.alarmMain (st.calls - 1) = false

theorem Env.Quiet.trusted {env : Env} (h : env.Quiet) {fuel : Nat} {specC c : Circuit} {t : NodeId}
    {candidates : List ClusterId} {candInputs : List NodeId} {limit : Int} :
    Trusted env fuel specC c t candidates candInputs limit :=
  fun _ _ => ⟨(h _).1, (h _).1, fun _ _ => (h _).2⟩

/-- Patterns over sorted nodes between those that must be 1 and those that must be 0. -/
structure Covers (c specC : Circuit) (t : NodeId) (sigs : NodeSet)
    (onset : List (OrdMap NodeId Bool)) : Prop where
  nonempty : onset ≠ []
  shape : ∀ p ∈ onset, ∃ f, p = OrdMap.tabulate sigs.elems f
  covers : ∀ x v v' w, MustBe c specC t true x v v' w → OrdMap.tabulate sigs.elems v ∈ onset
  avoids : ∀ x v v' w, MustBe c specC t false x v v' w → OrdMap.tabulate sigs.elems v ∉ onset

section
variable {env : Env} {fuel : Nat} {specC c : Circuit} {t : NodeId} {seed : ClusterId}
  {candidates : List ClusterId} {candInputs : List NodeId} {limit : Int}

/-- **A non-empty selection**: clusters of the candidates, with all their inputs, and if it can be
trusted an on-set that covers what it must. -/
theorem mergeSelection_spec (h : Problem env.abc c specC t candInputs) (hac : c.IsAcyclic)
    (hcl : c.Closed) (hind : Independent c t candInputs)
    (hcands : ∀ k ∈ candidates, ∀ n ∈ (c.cluster k).inputNodes, n ∈ candInputs) (hex : env.Exact)
    (hseed : (c.cluster seed).nodesC = [t]) {sel : Selection}
    (hsel : mergeSelection env fuel specC c seed candidates candInputs limit = some sel)
    (hne : sel.solutionC ≠ []) :
    Chosen c candidates sel.solutionC sel.solutionInputs ∧
      (∀ sig ∈ sel.solutionInputs, sig ∈ candInputs) ∧
      (Trusted env fuel specC c t candidates candInputs limit → ∀ onset, sel.onset = some onset →
        Covers c specC t sel.solutionInputs onset) := by
  rw [mergeSelection] at hsel
  simp only [hseed, Option.bind_eq_bind, Option.bind_eq_some_iff, Option.some.injEq] at hsel
  obtain ⟨o, ho, r, rfl, rfl⟩ := hsel
  simp only at hne
  -- without outputs the selection is empty
  have hout : c.outputs ≠ [] := by
    intro hnil
    obtain ⟨r', hr', -, hs⟩ := solveC_of_unsat
      (hex.solver 0) fun m => makeSolver_unsat hnil m
    cases loop_unique ho hr'
    exact hne hs
  have hinj : ∀ a ∈ candInputs, ∀ b ∈ candInputs, (c.node a).name = (c.node b).name → a = b :=
    fun a ha b hb => h.ports.names a (h.cands a ha) b (h.cands b hb)
  obtain ⟨fuel', o, ho', he⟩ := solveC_spec (h.names hout) hinj
    hcands hex.solver env.flag
  cases loop_unique ho ho'
  have hfound : r.found = true := by
    by_contra hf
    exact hne (he.empty r rfl (by simpa using hf))
  obtain ⟨hch, hsub, -, hsep⟩ := he.chosen r rfl hfound
  obtain ⟨m, m', s, hmust⟩ := he.must r rfl hfound
  refine ⟨hch, hsub, fun htr onset hon => ?_⟩
  obtain ⟨ha1, ha2, hdc⟩ := htr r ho
  have hdist := Separates.distinguishes h hsub (hsep ha1 ha2)
  simp only [getOnSet, Option.bind_eq_bind, Option.bind_eq_some_iff, Option.some.injEq] at hon
  obtain ⟨o, hdc', st, rfl, rfl⟩ := hon
  have hS := DC.Problem.setting h hac hcl hsub
    fun x v v' hv hv' sig hs => hind x v v' hv hv' sig (hsub sig hs)
  obtain ⟨hi, hall⟩ := DC.solve_sound hS hex.main hex.check hdc'
  have hall := hall (hdc st hdc')
  have hneed : ∀ {b p}, DC.Needed (implCnf env.abc c t candInputs) (specCnf env.abc specC) c t
      r.solutionInputs.elems b p ↔ DC.Required c specC t r.solutionInputs.elems b p := fun {b p} =>
    DC.needed_iff h hsub
  -- no pattern is required at both values
  have hcons : ∀ p, ¬(DC.Required c specC t r.solutionInputs.elems false p ∧
      DC.Required c specC t r.solutionInputs.elems true p) := by
    rintro p ⟨⟨x0, v0, v0', w0, h0, rfl⟩, x1, v1, v1', w1, h1, he⟩
    refine hdist ⟨x0, v0, v0', w0, x1, v1, v1', w1, h0, h1, fun sig hs => ?_⟩
    rw [OrdMap.tabulate_inj.1 he sig hs]
    exact hind x1 v1 v1' h1.val h1.val' sig (hsub sig hs)
  have hmem : ∀ {x v v' w}, MustBe c specC t true x v v' w →
      OrdMap.tabulate r.solutionInputs.elems v ∈ st.in2cases := fun {x v v' w} hb => by
    have hreq : DC.Required c specC t r.solutionInputs.elems true
        (OrdMap.tabulate r.solutionInputs.elems v) := ⟨x, v, v', w, hb, rfl⟩
    exact (List.mem_append.1 (hall _ _ (hneed.2 hreq))).resolve_left fun h1 =>
      hcons _ ⟨hneed.1 (hi.needed1 _ h1), hreq⟩
  refine ⟨?_, fun p hp => ?_, fun x v v' w hb => hmem hb, fun x v v' w hb hp => ?_⟩
  · obtain ⟨x, v, v', w, hb, -⟩ := mustBe_of_must h hmust
    exact List.ne_nil_of_mem (hmem hb)
  · obtain ⟨m, -, -, -, rfl⟩ := hi.needed2 p hp
    exact ⟨_, rfl⟩
  · exact hcons _ ⟨⟨x, v, v', w, hb, rfl⟩, hneed.1 (hi.needed2 _ hp)⟩

end

end Msyn.MergeSelection
