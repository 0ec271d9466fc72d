import Msyn.Lib.AllSat
import Msyn.Lib.SwapErase
import Msyn.Sat.Encoders
import Msyn.Select.Formulas

/-!
# The cases of solve_new

`solve_new` puts three circuits into one solver: the implementation with the target at 0, with the
target at 1, and the specification. `control1` and `control2` say whether the outputs of the two
copies are those of the specification. Four phases enumerate the patterns for the values of the
controls, and five passes drop patterns from the lists by moving the last one into their place
(`cleanUp_spec`).

The timer is left out: the calls of the solver return.
-/

namespace Msyn.DC

open Nodecircuit Circuit Cnf CNFgen Glucose GInterface MergeSelection AllSat

/-- The lists of patterns that the passes shrink. -/
structure Cases where
  in1cases : List Pattern
  in2cases : List Pattern
  dccases : List Pattern

def Cases.drop (s : Cases) (tmp : Pattern) : Cases where
  in1cases := scanErase s.in1cases tmp
  in2cases := scanErase s.in2cases tmp
  dccases := scanErase s.dccases tmp

/-- What `solve_new` leaves in the object. -/
structure NewCases extends Cases where
  in1dccases : List Pattern
  in2dccases : List Pattern

/-- The passes `2` to `6`. -/
def cleanUp (ffcases : List Pattern) (s : Cases) : NewCases :=
  let s := ffcases.foldl Cases.drop s
  let listInter := s.in1cases.flatMap fun line1 => s.in2cases.filter fun line2 => line1 = line2
  let s := listInter.foldl Cases.drop s
  let dccases := s.in1cases.foldl scanErase s.dccases
  let dccases := s.in2cases.foldl scanErase dccases
  { in1cases := s.in1cases
    in2cases := s.in2cases
    dccases
    in1dccases := s.in1cases ++ dccases
    in2dccases := s.in2cases ++ dccases }

section
variable (fcnf gcnf : CNFGenerator) (c : Circuit) (target : NodeId) (signals : List NodeId)

/-- One round of the loop over the inputs of `solve_new`. -/
def tieThree (solver : GInterface) (pin : NodeId) : GInterface :=
  (solver.setEqual (idx fcnf c pin) (idx fcnf c pin + (fcnf.numVars : Int))).setEqual
    (idx fcnf c pin) (gcnf.getIndex (c.node pin).name + ((fcnf.numVars * 2 : Nat) : Int))

/-- The solver before the outputs are compared. -/
def newBase : GInterface :=
  let solver := (({} : GInterface).addCNF fcnf ((0 : Nat) : Int)).addCNF fcnf (fcnf.numVars : Int)
  let solver := solver.addCNF gcnf ((fcnf.numVars * 2 : Nat) : Int)
  let solver := solver.addClause [(idx fcnf c target, false)]
  let solver := solver.addClause [(idx fcnf c target + (fcnf.numVars : Int), true)]
  c.inputs.foldl (tieThree fcnf gcnf c) solver

def control1 : Nat := (newBase fcnf gcnf c target).nVars

def control2 : Nat := (newBase fcnf gcnf c target).nVars + 1

/-- `enable1` to `enable4`. -/
def enable (i : Nat) : Nat := (newBase fcnf gcnf c target).nVars + 1 + i

/-- The solver before the first phase. -/
def makeNew : GInterface :=
  let outs1 := c.outputs.map (idx fcnf c)
  let outs2 := c.outputs.map fun pout => idx fcnf c pout + (fcnf.numVars : Int)
  let specouts := c.outputs.map fun pout =>
    gcnf.getIndex (c.node pout).name + ((fcnf.numVars * 2 : Nat) : Int)
  let solver := (newBase fcnf gcnf c target).genLit ((enable fcnf gcnf c target 4 : Int), true)
  (solver.ifTrueThenEQElseNEQ outs1 specouts (control1 fcnf gcnf c target)).ifTrueThenEQElseNEQ
    outs2 specouts (control2 fcnf gcnf c target)

/-- The pattern of a model of the solver. -/
def newPattern (m : Model) : Pattern := OrdMap.tabulate signals fun sig => m (idx fcnf c sig).natAbs

/-- The clause `elim`. -/
def elim (i : Nat) (solver : GInterface) (m : Model) : GInterface :=
  solver.addClause (((enable fcnf gcnf c target i : Int), false) ::
    signals.map fun sig => (idx fcnf c sig, !m (idx fcnf c sig).natAbs))

/-- The assumptions of a phase: the values of the controls, and its literal `enable`. -/
def assumptions (b1 b2 : Bool) (i : Nat) : List Lit :=
  [(control1 fcnf gcnf c target, b1), (control2 fcnf gcnf c target, b2),
    (enable fcnf gcnf c target i, true)]

variable (solve : Nat → Solve)

/-- A phase with a bound on the number of its rounds. -/
def phase (fuel : Nat) (b1 b2 : Bool) (i : Nat) (solver : GInterface) (calls : Nat) :
    Option (AllSat.State GInterface Pattern) :=
  enum solve GInterface.clauses (assumptions fcnf gcnf c target b1 b2 i) (newPattern fcnf c signals)
    (elim fcnf gcnf c target signals i) fuel solver calls

/-- The phases FF, TF, FT and TT, and the passes. -/
def solveNew (fuel : Nat) : Option NewCases := do
  let ff ← phase fcnf gcnf c target signals solve fuel false false 1 (makeNew fcnf gcnf c target) 0
  let solver := ff.solver.addClause [((enable fcnf gcnf c target 1 : Int), false)]
  let tf ← phase fcnf gcnf c target signals solve fuel true false 2 solver ff.calls
  let solver := tf.solver.addClause [((enable fcnf gcnf c target 2 : Int), false)]
  let ft ← phase fcnf gcnf c target signals solve fuel false true 3 solver tf.calls
  let solver := ft.solver.addClause [((enable fcnf gcnf c target 3 : Int), false)]
  let tt ← phase fcnf gcnf c target signals solve fuel true true 4 solver ft.calls
  return cleanUp ff.found ⟨tf.found, ft.found, tt.found⟩

end

/-! ## The passes -/

theorem foldl_drop (ps : List Pattern) (s : Cases) : ps.foldl Cases.drop s =
    ⟨ps.foldl scanErase s.in1cases, ps.foldl scanErase s.in2cases, ps.foldl scanErase s.dccases⟩ := by
  induction ps generalizing s with
  | nil => rfl
  | cons p ps ih => exact ih (s.drop p)

theorem mem_listInter {in1cases in2cases : List Pattern} {p : Pattern} :
    p ∈ (in1cases.flatMap fun line1 => in2cases.filter fun line2 => line1 = line2) ↔
      p ∈ in1cases ∧ p ∈ in2cases := by
  simp only [List.mem_flatMap, List.mem_filter, decide_eq_true_eq]
  constructor
  · rintro ⟨q, hq, hp, rfl⟩
    exact ⟨hq, hp⟩
  · exact fun h => ⟨p, h.1, h.2, rfl⟩

/-- What is left of the patterns that the phases find. -/
structure Cleaned (ffcases : List Pattern) (s : Cases) (r : NewCases) : Prop where
  nodup1 : r.in1cases.Nodup
  nodup2 : r.in2cases.Nodup
  nodupDC : r.dccases.Nodup
  mem1 : ∀ p, p ∈ r.in1cases ↔ p ∈ s.in1cases ∧ p ∉ ffcases ∧ p ∉ s.in2cases
  mem2 : ∀ p, p ∈ r.in2cases ↔ p ∈ s.in2cases ∧ p ∉ ffcases ∧ p ∉ s.in1cases
  memDC : ∀ p, p ∈ r.dccases ↔ p ∈ s.dccases ∧ p ∉ ffcases ∧ p ∉ s.in1cases ∧ p ∉ s.in2cases

/-- **The passes** leave each pattern that is in one list only, and not in `ffcases`. -/
theorem cleanUp_spec (ffcases : List Pattern) {s : Cases} (h1 : s.in1cases.Nodup)
    (h2 : s.in2cases.Nodup) (h3 : s.dccases.Nodup) : Cleaned ffcases s (cleanUp ffcases s) := by
  obtain ⟨n1, m1⟩ := foldl_scanErase_spec ffcases h1
  obtain ⟨n2, m2⟩ := foldl_scanErase_spec ffcases h2
  obtain ⟨n3, m3⟩ := foldl_scanErase_spec ffcases h3
  unfold cleanUp
  simp only [foldl_drop]
  generalize ffcases.foldl scanErase s.in1cases = a at n1 m1
  generalize ffcases.foldl scanErase s.in2cases = b at n2 m2
  generalize ffcases.foldl scanErase s.dccases = d at n3 m3
  have hinter : ∀ p, p ∈ (a.flatMap fun line1 => b.filter fun line2 => line1 = line2) ↔
      p ∈ a ∧ p ∈ b := fun p => mem_listInter
  generalize (a.flatMap fun line1 => b.filter fun line2 => line1 = line2) = l at hinter
  obtain ⟨n1', m1'⟩ := foldl_scanErase_spec l n1
  obtain ⟨n2', m2'⟩ := foldl_scanErase_spec l n2
  obtain ⟨n3', m3'⟩ := foldl_scanErase_spec l n3
  obtain ⟨n4, m4⟩ := foldl_scanErase_spec (l.foldl scanErase a) n3'
  obtain ⟨n5, m5⟩ := foldl_scanErase_spec (l.foldl scanErase b) n4
  refine ⟨n1', n2', n5, fun p => ?_, fun p => ?_, fun p => ?_⟩
  · rw [m1', hinter, m1, m2]
    tauto
  · rw [m2', hinter, m1, m2]
    tauto
  · rw [m5, m4, m3', m1', m2', hinter, m1, m2, m3]
    tauto

/-! ## The formula -/

/-- Models of the implementation with the target at 0 and at 1 and of the specification, with the
same primary inputs. -/
structure Copies (fcnf gcnf : CNFGenerator) (c : Circuit) (target : NodeId) (m1 m2 s : Model) :
    Prop where
  sat1 : Sat m1 fcnf.cnf
  sat2 : Sat m2 fcnf.cnf
  satS : Sat s gcnf.cnf
  target1 : m1 (varOf c fcnf target) = false
  target2 : m2 (varOf c fcnf target) = true
  inputs : ∀ pi ∈ c.inputs, m1 (varOf c fcnf pi) = m2 (varOf c fcnf pi) ∧
    m1 (varOf c fcnf pi) = s (varOf c gcnf pi)

/-- The outputs are those of the specification. -/
def SameOutputs (fcnf gcnf : CNFGenerator) (c : Circuit) (m s : Model) : Prop :=
  ∀ po ∈ c.outputs, m (varOf c fcnf po) = s (varOf c gcnf po)

/-- The pattern of a model where the target works at 0 and at 1 as `b1` and `b2` say. -/
def Found (fcnf gcnf : CNFGenerator) (c : Circuit) (target : NodeId) (signals : List NodeId)
    (b1 b2 : Bool) (p : Pattern) : Prop :=
  ∃ m1 m2 s, Copies fcnf gcnf c target m1 m2 s ∧ (b1 = true ↔ SameOutputs fcnf gcnf c m1 s) ∧
    (b2 = true ↔ SameOutputs fcnf gcnf c m2 s) ∧ p = patternAt fcnf c signals m1

/-- What `solve_new` relies on beyond `getDC`: the outputs of the specification are a function of
the primary inputs, and the circuits have models. -/
structure SettingNew (fcnf gcnf : CNFGenerator) (c : Circuit) (target : NodeId)
    (signals : List NodeId) : Prop extends Setting fcnf gcnf c target signals where
  detSpec : ∀ s s', Sat s gcnf.cnf → Sat s' gcnf.cnf →
    (∀ pi ∈ c.inputs, s (varOf c gcnf pi) = s' (varOf c gcnf pi)) →
    ∀ po ∈ c.outputs, s (varOf c gcnf po) = s' (varOf c gcnf po)
  models : ∃ m1 m2 s, Copies fcnf gcnf c target m1 m2 s

/-- Three models in one. -/
def three (n : Nat) (m1 m2 s : Model) : Model := fun v =>
  if v < n then m1 v else if v < n * 2 then m2 (v - n) else s (v - n * 2)

theorem three_first {n : Nat} {m1 m2 s : Model} {v : Nat} (hv : v < n) :
    three n m1 m2 s v = m1 v := if_pos hv

theorem three_second {n : Nat} {m1 m2 s : Model} {v : Nat} (hv : v < n) :
    three n m1 m2 s (v + n) = m2 v := by
  rw [three, if_neg (by omega), if_pos (by omega), Nat.add_sub_cancel]

theorem three_third (n : Nat) (m1 m2 s : Model) (v : Nat) :
    three n m1 m2 s (v + n * 2) = s v := by
  rw [three, if_neg (by omega), if_neg (by omega), Nat.add_sub_cancel]

section
variable {fcnf gcnf : CNFGenerator} {c : Circuit} {target : NodeId} {signals : List NodeId}

section
variable {pin : NodeId} (hk : fcnf.Known (c.node pin).name ∧
  fcnf.getIndexNode pin (c.node pin).name = fcnf.getIndex (c.node pin).name)
  (hkS : gcnf.Known (c.node pin).name)

include hk in
theorem natAbs_of_known (k : Nat) :
    (idx fcnf c pin + (k : Int)).natAbs = varOf c fcnf pin + k := by
  rw [idx, hk.2]
  exact hk.1.natAbs_add k

include hk hkS

theorem tieThree_adds (g : GInterface) : Adds g (tieThree fcnf gcnf c g pin) fun m =>
    m (varOf c fcnf pin) = m (varOf c fcnf pin + fcnf.numVars) ∧
      m (varOf c fcnf pin) = m (varOf c gcnf pin + fcnf.numVars * 2) := by
  have h1 := natAbs_of_known hk 0
  have h2 := natAbs_of_known hk fcnf.numVars
  have h3 := hkS.natAbs_add (fcnf.numVars * 2)
  rw [Nat.cast_zero, Int.add_zero, Nat.add_zero] at h1
  refine ((setEqual_adds g _ _).trans (setEqual_adds _ _ _)).congr fun m => ?_
  rw [h1, h2, h3]
  exact Iff.rfl

/-- The copies of an input are variables of the solver. -/
theorem tieThree_lt (g : GInterface) : varOf c fcnf pin < (tieThree fcnf gcnf c g pin).nVars ∧
    varOf c fcnf pin + fcnf.numVars < (tieThree fcnf gcnf c g pin).nVars ∧
    varOf c gcnf pin + fcnf.numVars * 2 < (tieThree fcnf gcnf c g pin).nVars := by
  have e1 := natAbs_of_known hk 0
  have e2 := natAbs_of_known hk fcnf.numVars
  have e3 : (gcnf.getIndex (c.node pin).name + ((fcnf.numVars * 2 : Nat) : Int)).natAbs =
      varOf c gcnf pin + fcnf.numVars * 2 := hkS.natAbs_add (fcnf.numVars * 2)
  have hpos : varOf c fcnf pin < fcnf.numVars := hk.1.lt
  rw [Nat.cast_zero, Int.add_zero, Nat.add_zero] at e1
  obtain ⟨l1, l2⟩ := setEqual_lt (g := g) (a := idx fcnf c pin)
    (b := idx fcnf c pin + (fcnf.numVars : Int)) (by omega)
  obtain ⟨l3, l4⟩ := setEqual_lt
    (g := g.setEqual (idx fcnf c pin) (idx fcnf c pin + (fcnf.numVars : Int)))
    (a := idx fcnf c pin) (b := gcnf.getIndex (c.node pin).name + ((fcnf.numVars * 2 : Nat) : Int))
    (by omega)
  have hle := (setEqual_adds (g.setEqual (idx fcnf c pin) (idx fcnf c pin + (fcnf.numVars : Int)))
    (idx fcnf c pin) (gcnf.getIndex (c.node pin).name + ((fcnf.numVars * 2 : Nat) : Int))).le
  rw [e1] at l1 l3
  rw [e2] at l2
  rw [e3] at l4
  exact ⟨l3, l2.trans_le hle, l4⟩

end

section
variable (h : Setting fcnf gcnf c target signals)
include h

theorem tieThree_known {pin : NodeId} (hpin : pin ∈ c.inputs) :
    (fcnf.Known (c.node pin).name ∧
      fcnf.getIndexNode pin (c.node pin).name = fcnf.getIndex (c.node pin).name) ∧
    gcnf.Known (c.node pin).name :=
  ⟨h.known pin (by simp [hpin]), h.knownSpec pin (by simp [hpin])⟩

theorem newBase_adds : Adds {} (newBase fcnf gcnf c target) fun m => Copies fcnf gcnf c target m
    (fun v => m (v + fcnf.numVars)) (fun v => m (v + fcnf.numVars * 2)) := by
  obtain ⟨h1, h2⟩ := natAbs_idx h (n := target) (by simp)
  refine ((((((addCNF_adds {} fcnf 0).trans (addCNF_adds _ fcnf fcnf.numVars)).trans
    (addCNF_adds _ gcnf (fcnf.numVars * 2))).trans (addClause_adds _ _)).trans
    (addClause_adds _ _)).trans (Adds.foldl (f := tieThree fcnf gcnf c)
      (fun pin hpin g => tieThree_adds (tieThree_known h hpin).1 (tieThree_known h hpin).2 g)
      _)).congr fun m => ?_
  simp only [List.mem_singleton, exists_eq_left, h1, h2, Nat.add_zero]
  constructor
  · rintro ⟨⟨⟨⟨⟨s1, s2⟩, s3⟩, t1⟩, t2⟩, hin⟩
    exact ⟨s1, s2, s3, t1, t2, hin⟩
  · exact fun hc => ⟨⟨⟨⟨⟨hc.sat1, hc.sat2⟩, hc.satS⟩, hc.target1⟩, hc.target2⟩, hc.inputs⟩

/-- The ports are variables of the solver. -/
theorem newBase_lt : varOf c fcnf target < (newBase fcnf gcnf c target).nVars ∧
    varOf c fcnf target + fcnf.numVars < (newBase fcnf gcnf c target).nVars ∧
    ∀ pi ∈ c.inputs, varOf c fcnf pi < (newBase fcnf gcnf c target).nVars ∧
      varOf c fcnf pi + fcnf.numVars < (newBase fcnf gcnf c target).nVars ∧
      varOf c gcnf pi + fcnf.numVars * 2 < (newBase fcnf gcnf c target).nVars := by
  have hmono : ∀ b ∈ c.inputs, ∀ g, g.nVars ≤ (tieThree fcnf gcnf c g b).nVars := fun b hb g =>
    (tieThree_adds (tieThree_known h hb).1 (tieThree_known h hb).2 g).le
  have hle : ∀ g, g.nVars ≤ (c.inputs.foldl (tieThree fcnf gcnf c) g).nVars := fun g =>
    (Adds.foldl (f := tieThree fcnf gcnf c) (fun pin hpin g =>
      tieThree_adds (tieThree_known h hpin).1 (tieThree_known h hpin).2 g) g).le
  obtain ⟨h1, h2⟩ := natAbs_idx h (n := target) (by simp)
  let g := ((({} : GInterface).addCNF fcnf ((0 : Nat) : Int)).addCNF fcnf (fcnf.numVars : Int)).addCNF
    gcnf ((fcnf.numVars * 2 : Nat) : Int)
  have ht1 := addClause_lt g [(idx fcnf c target, false)] _ (List.mem_singleton.2 rfl)
  have ht2 := addClause_lt (g.addClause [(idx fcnf c target, false)])
    [(idx fcnf c target + (fcnf.numVars : Int), true)] _ (List.mem_singleton.2 rfl)
  have hstep := (addClause_adds (g.addClause [(idx fcnf c target, false)])
    [(idx fcnf c target + (fcnf.numVars : Int), true)]).le
  rw [h1] at ht1
  rw [h2] at ht2
  refine ⟨(ht1.trans_le hstep).trans_le (hle _), ht2.trans_le (hle _), fun pi hpi => ?_⟩
  have key := tieThree_lt (tieThree_known h hpi).1 (tieThree_known h hpi).2
  exact ⟨foldl_lt hmono hpi (fun g => (key g).1) _, foldl_lt hmono hpi (fun g => (key g).2.1) _,
    foldl_lt hmono hpi (fun g => (key g).2.2) _⟩

end

variable (h : SettingNew fcnf gcnf c target signals)
include h

theorem newBase_below :
    Below (newBase fcnf gcnf c target).nVars (newBase fcnf gcnf c target).clauses :=
  (newBase_adds h.toSetting).below fun _ hcl => (by cases hcl)

theorem three_sat {m1 m2 s : Model} (hc : Copies fcnf gcnf c target m1 m2 s) :
    Sat (three fcnf.numVars m1 m2 s) (newBase fcnf gcnf c target).clauses := by
  have h1 : ∀ v < fcnf.numVars, three fcnf.numVars m1 m2 s v = m1 v := fun v => three_first
  have h2 : ∀ v < fcnf.numVars, three fcnf.numVars m1 m2 s (v + fcnf.numVars) = m2 v := fun v =>
    three_second
  have hlt : ∀ n ∈ c.inputs ++ c.outputs ++ [target] ++ signals, varOf c fcnf n < fcnf.numVars :=
    fun n => DC.varOf_lt h.toSetting
  refine ((newBase_adds h.toSetting).sat _).2 ⟨sat_nil _, (sat_congr h.below h1).2 hc.sat1,
    (sat_congr h.below h2).2 hc.sat2, ?_, ?_, ?_, fun pi hpi => ?_⟩
  · simp only [three_third]
    exact hc.satS
  · rw [h1 _ (hlt target (by simp))]
    exact hc.target1
  · rw [h2 _ (hlt target (by simp))]
    exact hc.target2
  · rw [h1 _ (hlt pi (by simp [hpi])), h2 _ (hlt pi (by simp [hpi])), three_third]
    exact hc.inputs pi hpi

/-- The outputs are variables of the solver: they are functions of the inputs and the target. -/
theorem newBase_outputs_lt {po : NodeId} (hpo : po ∈ c.outputs) :
    varOf c fcnf po < (newBase fcnf gcnf c target).nVars ∧
      varOf c fcnf po + fcnf.numVars < (newBase fcnf gcnf c target).nVars ∧
      varOf c gcnf po + fcnf.numVars * 2 < (newBase fcnf gcnf c target).nVars := by
  obtain ⟨m1, m2, s, hc⟩ := h.models
  obtain ⟨t1, t2, hin⟩ := newBase_lt h.toSetting
  have hb := newBase_below h
  have hsat := three_sat h hc
  obtain ⟨-, hm⟩ := ((newBase_adds h.toSetting).sat _).1 hsat
  have hcopies := fun m' hm' => (((newBase_adds h.toSetting).sat m').1 hm').2
  refine ⟨lt_of_determined hb hsat fun m' hm' hag => ?_, lt_of_determined hb hsat fun m' hm' hag => ?_,
    lt_of_determined hb hsat fun m' hm' hag => ?_⟩
  · exact h.det _ _ (hcopies m' hm').sat1 hm.sat1 (fun pi hpi => hag _ (hin pi hpi).1) (hag _ t1)
      po hpo
  · exact h.det _ _ (hcopies m' hm').sat2 hm.sat2 (fun pi hpi => hag _ (hin pi hpi).2.1) (hag _ t2)
      po hpo
  · exact h.detSpec _ _ (hcopies m' hm').satS hm.satS (fun pi hpi => hag _ (hin pi hpi).2.2) po hpo

/-- **The formula of the phases**: each control says whether the outputs of its copy are right. -/
theorem makeNew_encodes :
    Encodes ((newBase fcnf gcnf c target).genLit ((enable fcnf gcnf c target 4 : Int), true))
      (makeNew fcnf gcnf c target) fun m =>
        (m (control1 fcnf gcnf c target) = true ↔ SameOutputs fcnf gcnf c m
          fun v => m (v + fcnf.numVars * 2)) ∧
        (m (control2 fcnf gcnf c target) = true ↔ SameOutputs fcnf gcnf c
          (fun v => m (v + fcnf.numVars)) fun v => m (v + fcnf.numVars * 2)) := by
  let g := (newBase fcnf gcnf c target).genLit ((enable fcnf gcnf c target 4 : Int), true)
  have hnv : g.nVars = (newBase fcnf gcnf c target).nVars + 6 := by
    simp only [g, genLit, enable, Int.natAbs_natCast]
    omega
  have hbelow : Below g.nVars g.clauses := (newBase_below h).mono (by omega)
  have e1 : ∀ po ∈ c.outputs, (idx fcnf c po).natAbs = varOf c fcnf po ∧
      (idx fcnf c po + (fcnf.numVars : Int)).natAbs = varOf c fcnf po + fcnf.numVars := fun po hpo =>
    natAbs_idx h.toSetting (by simp [hpo])
  have e3 : ∀ po ∈ c.outputs, (gcnf.getIndex (c.node po).name +
      ((fcnf.numVars * 2 : Nat) : Int)).natAbs = varOf c gcnf po + fcnf.numVars * 2 := fun po hpo =>
    (h.knownSpec po (by simp [hpo])).natAbs_add _
  have hlt : ∀ po ∈ c.outputs, varOf c fcnf po < g.nVars ∧
      varOf c fcnf po + fcnf.numVars < g.nVars ∧ varOf c gcnf po + fcnf.numVars * 2 < g.nVars := by
    intro po hpo
    have := newBase_outputs_lt h hpo
    omega
  have h1 : ∀ x ∈ c.outputs.map (idx fcnf c), x.natAbs < g.nVars := by
    rw [List.forall_mem_map]
    exact fun po hpo => (e1 po hpo).1 ▸ (hlt po hpo).1
  have h2 : ∀ x ∈ c.outputs.map fun pout => idx fcnf c pout + (fcnf.numVars : Int),
      x.natAbs < g.nVars := by
    rw [List.forall_mem_map]
    exact fun po hpo => (e1 po hpo).2 ▸ (hlt po hpo).2.1
  have h3 : ∀ x ∈ c.outputs.map fun pout => gcnf.getIndex (c.node pout).name +
      ((fcnf.numVars * 2 : Nat) : Int), x.natAbs < g.nVars := by
    rw [List.forall_mem_map]
    exact fun po hpo => e3 po hpo ▸ (hlt po hpo).2.2
  have hc1 : ((control1 fcnf gcnf c target : Nat) : Int).natAbs < g.nVars := by
    rw [Int.natAbs_natCast, control1]
    omega
  have hc2 : ((control2 fcnf gcnf c target : Nat) : Int).natAbs < g.nVars := by
    rw [Int.natAbs_natCast, control2]
    omega
  have hlen : ∀ f f' : NodeId → Int, (c.outputs.map f).length = (c.outputs.map f').length := by
    intro f f'
    rw [List.length_map, List.length_map]
  have enc1 := ifTrueThenEQElseNEQ_encodes hbelow (hlen _ _) h1 h3 hc1
  have hle := enc1.le
  have enc2 := ifTrueThenEQElseNEQ_encodes enc1.below (hlen _ _) (fun x hx => (h2 x hx).trans_le hle)
    (fun x hx => (h3 x hx).trans_le hle) (hc2.trans_le hle)
  refine (enc1.trans enc2 (flag_local (R := fun b u v => b = true ↔ u = v) h2 h3 hc2)).congr
    fun m => ?_
  simp only [vectorValue, List.map_map, List.map_inj_left, Int.natAbs_natCast, Function.comp]
  refine and_congr (iff_congr Iff.rfl (forall₂_congr fun po hpo => ?_))
    (iff_congr Iff.rfl (forall₂_congr fun po hpo => ?_))
  · rw [(e1 po hpo).1, e3 po hpo]
  · rw [(e1 po hpo).2, e3 po hpo]

theorem found_of_model {b1 b2 : Bool} {i : Nat} {m : Model}
    (hm : Sat m (makeNew fcnf gcnf c target).clauses)
    (has : Holds m (assumptions fcnf gcnf c target b1 b2 i)) :
    Found fcnf gcnf c target signals b1 b2 (newPattern fcnf c signals m) := by
  obtain ⟨hb, hc1, hc2⟩ := (makeNew_encodes h).sound m hm
  obtain ⟨-, hcopies⟩ := ((newBase_adds h.toSetting).sat m).1 hb
  simp only [assumptions, holds_cons] at has
  rw [has.1] at hc1
  rw [has.2.1] at hc2
  refine ⟨_, _, _, hcopies, hc1, hc2, OrdMap.tabulate_inj.2 fun sig hsig => ?_⟩
  rw [(natAbs_idx h.toSetting (n := sig) (by simp [hsig])).1]

/-- A found pattern is that of a model in which the other literals `enable` are false. -/
theorem model_of_found {b1 b2 : Bool} {i : Nat} (hpos : 1 ≤ i) (hi : i ≤ 4) {p : Pattern}
    (hp : Found fcnf gcnf c target signals b1 b2 p) :
    ∃ m, Sat m (makeNew fcnf gcnf c target).clauses ∧
      Holds m (assumptions fcnf gcnf c target b1 b2 i) ∧
      (∀ j, 1 ≤ j → j < i → m (enable fcnf gcnf c target j) = false) ∧
      newPattern fcnf c signals m = p := by
  obtain ⟨m1, m2, s, hc, hb1, hb2, rfl⟩ := hp
  have hlt : ∀ n ∈ c.inputs ++ c.outputs ++ [target] ++ signals, varOf c fcnf n < fcnf.numVars :=
    fun n => DC.varOf_lt h.toSetting
  have hout := fun po (hpo : po ∈ c.outputs) => newBase_outputs_lt h hpo
  have hin := (newBase_lt h.toSetting).2.2
  have henc := makeNew_encodes h
  have hbelow := newBase_below h
  have hthree := three_sat h hc
  simp only [assumptions, holds_cons, holds_nil, and_true]
  simp only [control1, control2, enable, SameOutputs, genLit, Int.natAbs_natCast] at henc ⊢
  generalize hN : (newBase fcnf gcnf c target).nVars = N at hout hin henc hbelow ⊢
  -- the three models, then the controls and the literals `enable`
  let m : Model := fun v =>
    if v < N then three fcnf.numVars m1 m2 s v
    else if v = N then b1
    else if v = N + 1 then b2
    else decide (v = N + 1 + i)
  have hold : ∀ v < N, m v = three fcnf.numVars m1 m2 s v := fun v hv => if_pos hv
  have hc1 : m N = b1 := by simp [m]
  have hc2 : m (N + 1) = b2 := by simp [m]
  have hen : ∀ j, 1 ≤ j → m (N + 1 + j) = decide (j = i) := by
    intro j hj
    have h1 : ¬N + 1 + j < N := by omega
    have h2 : ¬N + 1 + j = N := by omega
    have h3 : ¬N + 1 + j = N + 1 := by omega
    simp only [m, if_neg h1, if_neg h2, if_neg h3, Nat.add_left_cancel_iff]
  have hvals : ∀ po ∈ c.outputs, m (varOf c fcnf po) = m1 (varOf c fcnf po) ∧
      m (varOf c fcnf po + fcnf.numVars) = m2 (varOf c fcnf po) ∧
      m (varOf c gcnf po + fcnf.numVars * 2) = s (varOf c gcnf po) := by
    intro po hpo
    obtain ⟨l1, l2, l3⟩ := hout po hpo
    have hv := hlt po (by simp [hpo])
    exact ⟨(hold _ l1).trans (three_first hv), (hold _ l2).trans (three_second hv),
      (hold _ l3).trans (three_third _ _ _ _ _)⟩
  obtain ⟨m', hag, hsat⟩ := henc.extend m ((sat_congr hbelow hold).2 hthree)
    ⟨by
      rw [hc1, hb1]
      exact forall₂_congr fun po hpo => by rw [(hvals po hpo).1, (hvals po hpo).2.2],
    by
      rw [hc2, hb2]
      exact forall₂_congr fun po hpo => by rw [(hvals po hpo).2.1, (hvals po hpo).2.2]⟩
  have hnew : ∀ v < N + 6, m' v = m v := fun v hv => hag v (by
    show v < max N (N + 1 + 4 + 1)
    omega)
  refine ⟨m', hsat, ⟨(hnew _ (by omega)).trans hc1, (hnew _ (by omega)).trans hc2,
    (hnew _ (by omega)).trans ((hen i hpos).trans (decide_eq_true rfl))⟩, fun j hj hji => ?_, ?_⟩
  · exact (hnew _ (by omega)).trans ((hen j hj).trans (decide_eq_false (by omega)))
  · have hcopies := (((newBase_adds h.toSetting).sat m').1 (henc.sound m' hsat).1).2
    refine OrdMap.tabulate_inj.2 fun sig hsig => ?_
    rw [(natAbs_idx h.toSetting (n := sig) (by simp [hsig])).1]
    refine h.free m' m1 hcopies.sat1 hc.sat1 (fun pi hpi => ?_) sig hsig
    have := (hin pi hpi).1
    exact (hnew _ (by omega)).trans ((hold _ this).trans (three_first (hlt pi (by simp [hpi]))))

/-! ## The phases -/

/-- The solver when phase `i` begins: the literals of the phases before are false. -/
def Started (fcnf gcnf : CNFGenerator) (c : Circuit) (target : NodeId) (i : Nat)
    (solver : GInterface) : Prop :=
  ∀ m, Sat m solver.clauses ↔ Sat m (makeNew fcnf gcnf c target).clauses ∧
    ∀ j, 1 ≤ j → j < i → m (enable fcnf gcnf c target j) = false

omit h in
theorem Started.first : Started fcnf gcnf c target 1 (makeNew fcnf gcnf c target) :=
  fun _ => (and_iff_left fun j h1 h2 => absurd h1 (by omega)).symm

omit h in
theorem elim_sat (i : Nat) (solver : GInterface) (m0 m : Model) :
    Sat m (elim fcnf gcnf c target signals i solver m0).clauses ↔ Sat m solver.clauses ∧
      (m (enable fcnf gcnf c target i) = false ∨
        newPattern fcnf c signals m ≠ newPattern fcnf c signals m0) := by
  rw [elim, (addClause_adds solver _).sat]
  simp only [List.exists_mem_cons_iff, Int.natAbs_natCast, List.mem_map, exists_exists_and_eq_and]
  refine and_congr_right fun _ => or_congr_right ?_
  rw [newPattern, newPattern, ne_eq, OrdMap.tabulate_inj]
  push Not
  refine exists_congr fun sig => and_congr_right fun _ => ?_
  cases m (idx fcnf c sig).natAbs <;> cases m0 (idx fcnf c sig).natAbs <;> simp

/-- **A phase** finds the patterns of its kind, each once. -/
theorem phase_spec {solve : Nat → Solve} (hex : ∀ i, Exact (solve i)) (b1 b2 : Bool) {i : Nat}
    (hpos : 1 ≤ i) (hi : i ≤ 4) {solver : GInterface} (hs : Started fcnf gcnf c target i solver)
    (calls : Nat) :
    ∃ fuel st, phase fcnf gcnf c target signals solve fuel b1 b2 i solver calls = some st ∧
      Started fcnf gcnf c target (i + 1)
        (st.solver.addClause [((enable fcnf gcnf c target i : Int), false)]) ∧
      st.found.Nodup ∧ ∀ p, p ∈ st.found ↔ Found fcnf gcnf c target signals b1 b2 p := by
  have hblock : Excludes GInterface.clauses (assumptions fcnf gcnf c target b1 b2 i)
      (newPattern fcnf c signals) (elim fcnf gcnf c target signals i) := by
    intro g m0 m has
    simp only [assumptions, holds_cons] at has
    rw [elim_sat, has.2.2.1]
    simp
  -- the clauses of a phase mean nothing when its literal is false
  obtain ⟨fuel, st, hst, hI, hnd, hmem⟩ := enum_total hblock hex (l := patterns signals)
    (fun m => tabulate_mem signals _)
    (I := fun g _ => ∀ m, m (enable fcnf gcnf c target i) = false →
      (Sat m g.clauses ↔ Sat m solver.clauses))
    (fun g _ m0 hg m hm => by rw [elim_sat, hg m hm]; simp [hm]) (fun _ _ => Iff.rfl) calls
  refine ⟨fuel, st, hst, fun m => ?_, hnd, fun p => (hmem p).trans ⟨?_, fun hp => ?_⟩⟩
  · rw [(addClause_adds st.solver _).sat]
    simp only [List.mem_singleton, exists_eq_left, Int.natAbs_natCast]
    rw [and_congr_left (hI m), hs m, and_assoc]
    refine and_congr_right fun _ => ⟨fun hm j h1 h2 => ?_, fun hm => ⟨fun j h1 h2 =>
      hm j h1 (by omega), hm i hpos (by omega)⟩⟩
    rcases Nat.lt_succ_iff_lt_or_eq.1 h2 with h2 | rfl
    · exact hm.1 j h1 h2
    · exact hm.2
  · rintro ⟨m, h1, h2, rfl⟩
    exact found_of_model h ((hs m).1 h1).1 h2
  · obtain ⟨m, h1, h2, h3, h4⟩ := model_of_found h hpos hi hp
    exact ⟨m, (hs m).2 ⟨h1, h3⟩, h2, h4⟩

/-- What `solve_new` returns, in terms of the patterns that the phases find. -/
structure Classified (fcnf gcnf : CNFGenerator) (c : Circuit) (target : NodeId)
    (signals : List NodeId) (r : NewCases) : Prop where
  nodup1 : r.in1cases.Nodup
  nodup2 : r.in2cases.Nodup
  nodupDC : r.dccases.Nodup
  mem1 : ∀ p, p ∈ r.in1cases ↔ Found fcnf gcnf c target signals true false p ∧
    ¬Found fcnf gcnf c target signals false false p ∧
    ¬Found fcnf gcnf c target signals false true p
  mem2 : ∀ p, p ∈ r.in2cases ↔ Found fcnf gcnf c target signals false true p ∧
    ¬Found fcnf gcnf c target signals false false p ∧
    ¬Found fcnf gcnf c target signals true false p
  memDC : ∀ p, p ∈ r.dccases ↔ Found fcnf gcnf c target signals true true p ∧
    ¬Found fcnf gcnf c target signals false false p ∧
    ¬Found fcnf gcnf c target signals true false p ∧ ¬Found fcnf gcnf c target signals false true p

/-- **`solve_new` ends** with the patterns of one kind each. -/
theorem solveNew_classified {solve : Nat → Solve} (hex : ∀ i, Exact (solve i)) :
    ∃ fuel r, solveNew fcnf gcnf c target signals solve fuel = some r ∧
      Classified fcnf gcnf c target signals r := by
  obtain ⟨f1, ff, h1, s1, -, m1⟩ := phase_spec h hex false false (i := 1) (by omega) (by omega)
    Started.first 0
  obtain ⟨f2, tf, h2, s2, n2, m2⟩ := phase_spec h hex true false (by omega) (by omega) s1 ff.calls
  obtain ⟨f3, ft, h3, s3, n3, m3⟩ := phase_spec h hex false true (by omega) (by omega) s2 tf.calls
  obtain ⟨f4, tt, h4, -, n4, m4⟩ := phase_spec h hex true true (by omega) (by omega) s3 ft.calls
  have hmono : ∀ {fuel b1 b2 i solver calls st},
      phase fcnf gcnf c target signals solve fuel b1 b2 i solver calls = some st →
      ∀ {fuel'}, fuel ≤ fuel' →
        phase fcnf gcnf c target signals solve fuel' b1 b2 i solver calls = some st :=
    fun h _ hle => enum_mono h hle
  obtain ⟨n1, n2, n3, k1, k2, k3⟩ := cleanUp_spec ff.found (s := ⟨tf.found, ft.found, tt.found⟩)
    n2 n3 n4
  simp only [m1, m2, m3, m4] at k1 k2 k3
  refine ⟨f1 + f2 + f3 + f4, _, ?_, n1, n2, n3, k1, k2, k3⟩
  unfold solveNew
  rw [hmono h1 (by omega)]
  simp only [bind, Option.bind]
  rw [hmono h2 (by omega)]
  simp only
  rw [hmono h3 (by omega)]
  simp only
  rw [hmono h4 (by omega)]
  rfl

end

end Msyn.DC
