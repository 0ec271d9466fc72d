import Mathlib.Data.Nat.Bitwise
import Msyn.Select.Classify

/-!
# The don't-cares of solve_additional

`solve_additional` runs through all `1 << signals->size()` patterns of the signals. For each one that
`solve` did not record it asks whether the outputs can differ from those of the specification, the
target being free (`query_iff`). So the lists of `solve` and the don't-cares part the patterns, and
a list with the don't-cares holds the patterns for which its value of the target is right
(`solveAdditional_classifies`). Where they occur, the don't-cares are those of `solve_new`
(`solve_agrees_solveNew`).
-/

namespace Msyn.DC

open Nodecircuit Circuit Cnf CNFgen Glucose GInterface MergeSelection

/-! ## The function solve_additional -/

/-- The pattern `i`: `tmp[(*signals)[j]] = i & (1 << j)`. -/
def numbered (signals : List NodeId) (i : Nat) : Pattern :=
  signals.zipIdx.foldl (fun tmp e => tmp.set e.1 (i.testBit e.2)) ∅

/-- All patterns in the order of the first loop. -/
def allPatterns (signals : List NodeId) : List Pattern :=
  (List.range (1 <<< signals.length)).map (numbered signals)

def needCheck (signals : List NodeId) (in1cases in2cases : List Pattern) : List Pattern :=
  (allPatterns signals).filter fun tmp => tmp ∉ in1cases ∧ tmp ∉ in2cases

section
variable (fcnf gcnf : CNFGenerator) (c : Circuit) (signals : List NodeId)

def additionalOuts1 : List Int := c.outputs.map (idx fcnf c)

def additionalOuts2 : List Int := c.outputs.map fun pout =>
  gcnf.getIndex (c.node pout).name + (fcnf.numVars : Int)

/-- The solver up to the outputs that must differ. -/
def additionalBase : GInterface :=
  c.inputs.foldl (tiePort fcnf gcnf c)
    ((({} : GInterface).addCNF fcnf ((0 : Nat) : Int)).addCNF gcnf (fcnf.numVars : Int))

def makeAdditional : GInterface :=
  (additionalBase fcnf gcnf c).setNEqual (additionalOuts1 fcnf c) (additionalOuts2 fcnf gcnf c)

/-- The assumptions for a pattern. -/
def patternLits (pat : Pattern) : List (Int × Bool) :=
  pat.entries.map fun lit => (idx fcnf c lit.1, lit.2)

/-- The solver, the number of its calls and the lists. -/
structure Additional where
  solver : GInterface
  calls : Nat := 0
  dccases : List Pattern := []
  in1dccases : List Pattern
  in2dccases : List Pattern

variable (solve : Nat → Solve)

/-- One round of the loop over `needCheck`. -/
def additionalStep (st : Additional) (pat : Pattern) : Additional :=
  let tmp := patternLits fcnf c pat
  let solver := tmp.foldl genLit st.solver
  let next := { st with solver, calls := st.calls + 1 }
  match solve st.calls solver.clauses (tmp.map mkLit) with
  | none => { next with
      dccases := next.dccases ++ [pat]
      in1dccases := next.in1dccases ++ [pat]
      in2dccases := next.in2dccases ++ [pat] }
  | some _ => next

/-- `solve_additional` on the lists that `solve` left. -/
def solveAdditional (in1cases in2cases : List Pattern) : Additional :=
  (needCheck signals in1cases in2cases).foldl (additionalStep fcnf c solve)
    { solver := makeAdditional fcnf gcnf c, in1dccases := in1cases, in2dccases := in2cases }

/-- The outputs can differ from those of the specification under the pattern. -/
def Differs (p : Pattern) : Prop :=
  ∃ m s, Sat m fcnf.cnf ∧ Sat s gcnf.cnf ∧
    (∀ pi ∈ c.inputs, m (varOf c fcnf pi) = s (varOf c gcnf pi)) ∧
    ¬SameOutputs fcnf gcnf c m s ∧ p = patternAt fcnf c signals m

end

/-! ## All patterns -/

section
variable {signals : List NodeId} (hnd : signals.Nodup)
include hnd

theorem numbered_eq (i : Nat) : numbered signals i =
    OrdMap.tabulate signals fun sig => i.testBit (signals.idxOf sig) := by
  have hzip : signals.zipIdx = signals.map fun sig => (sig, signals.idxOf sig) := by
    apply List.ext_getElem (by simp)
    intro j h1 h2
    rw [List.getElem_zipIdx, List.getElem_map, hnd.idxOf_getElem]
    simp
  rw [numbered, hzip, List.foldl_map]
  rfl

/-- **The loop over the numbers** runs through each pattern once. -/
theorem allPatterns_spec :
    (allPatterns signals).Nodup ∧ ∀ p, p ∈ allPatterns signals ↔ Over signals p := by
  have hbits : ∀ i j, numbered signals i = numbered signals j →
      ∀ k < signals.length, i.testBit k = j.testBit k := by
    intro i j he k hk
    rw [numbered_eq hnd, numbered_eq hnd, OrdMap.tabulate_inj] at he
    have := he _ (List.getElem_mem hk)
    rwa [hnd.idxOf_getElem] at this
  constructor
  · apply List.Nodup.map_on _ List.nodup_range
    intro i hi j hj he
    rw [List.mem_range, Nat.one_shiftLeft] at hi hj
    apply Nat.eq_of_testBit_eq
    intro k
    by_cases hk : k < signals.length
    · exact hbits i j he k hk
    · have hle : 2 ^ signals.length ≤ 2 ^ k := Nat.pow_le_pow_right (by decide) (by omega)
      rw [Nat.testBit_lt_two_pow (hi.trans_le hle), Nat.testBit_lt_two_pow (hj.trans_le hle)]
  · intro p
    rw [allPatterns, List.mem_map]
    constructor
    · intro hp
      obtain ⟨i, -, rfl⟩ := hp
      exact ⟨_, numbered_eq hnd i⟩
    · intro hp
      obtain ⟨f, rfl⟩ := hp
      -- the number with these bits
      refine ⟨Nat.ofBits fun k : Fin signals.length => f signals[k], ?_, ?_⟩
      · rw [List.mem_range, Nat.one_shiftLeft]
        exact Nat.ofBits_lt_two_pow _
      · rw [numbered_eq hnd, OrdMap.tabulate_inj]
        intro sig hsig
        have hlt := List.idxOf_lt_length_iff.2 hsig
        rw [Nat.testBit_ofBits_lt _ _ hlt]
        exact congrArg f (List.getElem_idxOf hlt)

end

/-! ## One query -/

section
variable {fcnf gcnf : CNFGenerator} {c : Circuit} {target : NodeId} {signals : List NodeId}
  (h : SettingNew fcnf gcnf c target signals)
include h

theorem natAbs_spec {n : NodeId} (hn : n ∈ c.inputs ++ c.outputs) :
    (gcnf.getIndex (c.node n).name + (fcnf.numVars : Int)).natAbs =
      varOf c gcnf n + fcnf.numVars := (h.knownSpec n hn).natAbs_add _

theorem tiePort_adds {pin : NodeId} (hpin : pin ∈ c.inputs) (g : GInterface) :
    Adds g (tiePort fcnf gcnf c g pin) fun m =>
      m (varOf c fcnf pin) = m (varOf c gcnf pin + fcnf.numVars) := by
  apply (setEqual_adds g _ _).congr
  intro m
  rw [(natAbs_idx h.toSetting (n := pin) (by simp [hpin])).1, natAbs_spec h (by simp [hpin])]

/-- The models before the outputs are compared. -/
theorem additionalBase_adds : Adds {} (additionalBase fcnf gcnf c) fun m =>
    Sat m fcnf.cnf ∧ Sat (fun v => m (v + fcnf.numVars)) gcnf.cnf ∧
      ∀ pi ∈ c.inputs, m (varOf c fcnf pi) = m (varOf c gcnf pi + fcnf.numVars) := by
  apply (((addCNF_adds {} fcnf 0).trans (addCNF_adds _ gcnf fcnf.numVars)).trans
    (Adds.foldl (f := tiePort fcnf gcnf c) (fun pin hpin g => tiePort_adds h hpin g) _)).congr
  intro m
  exact and_assoc

theorem additionalBase_below :
    Below (additionalBase fcnf gcnf c).nVars (additionalBase fcnf gcnf c).clauses :=
  (additionalBase_adds h).below fun _ hcl => (by cases hcl)

/-- The two models side by side. -/
theorem additionalBase_sat {m s : Model} (hm : Sat m fcnf.cnf) (hs : Sat s gcnf.cnf)
    (hin : ∀ pi ∈ c.inputs, m (varOf c fcnf pi) = s (varOf c gcnf pi)) :
    Sat (fun v => if v < fcnf.numVars then m v else s (v - fcnf.numVars))
      (additionalBase fcnf gcnf c).clauses := by
  apply ((additionalBase_adds h).sat _).2
  refine ⟨sat_nil _, (sat_congr h.below fun v hv => if_pos hv).2 hm, ?_, fun pi hpi => ?_⟩
  · simp only [Nat.not_lt.2 (Nat.le_add_left _ _), if_false, Nat.add_sub_cancel]
    exact hs
  · have hlt := DC.varOf_lt h.toSetting (n := pi) (by simp [hpi])
    simp only [if_pos hlt, Nat.not_lt.2 (Nat.le_add_left _ _), if_false, Nat.add_sub_cancel]
    exact hin pi hpi

/-- The outputs are variables of the solver, also where no clause mentions the target. -/
theorem additionalBase_lt {po : NodeId} (hpo : po ∈ c.outputs) :
    fcnf.numVars ≤ (additionalBase fcnf gcnf c).nVars ∧
      varOf c gcnf po + fcnf.numVars < (additionalBase fcnf gcnf c).nVars := by
  have hin : ∀ pi ∈ c.inputs,
      varOf c gcnf pi + fcnf.numVars < (additionalBase fcnf gcnf c).nVars := fun pi hpi => by
    apply foldl_lt (f := tiePort fcnf gcnf c) (fun b hb g => (tiePort_adds h hb g).le) hpi
    intro g
    have hne : idx fcnf c pi ≠ gcnf.getIndex (c.node pi).name + (fcnf.numVars : Int) := by
      have h1 := (natAbs_idx h.toSetting (n := pi) (by simp [hpi])).1
      have h2 := natAbs_spec h (n := pi) (by simp [hpi])
      have h3 := DC.varOf_lt h.toSetting (n := pi) (by simp [hpi])
      omega
    have := (setEqual_lt (g := g) hne).2
    rwa [natAbs_spec h (n := pi) (by simp [hpi])] at this
  obtain ⟨m1, m2, s, hc⟩ := h.models
  have hbase := additionalBase_sat h hc.sat1 hc.satS fun pi hpi => (hc.inputs pi hpi).2
  have hmodel := fun m' hm' => (((additionalBase_adds h).sat m').1 hm').2
  -- the outputs of the specification are functions of its inputs
  have hout : varOf c gcnf po + fcnf.numVars < (additionalBase fcnf gcnf c).nVars := by
    apply lt_of_determined (additionalBase_below h) hbase
    intro m' hm' hag
    exact h.detSpec _ _ (hmodel m' hm').2.1 (hmodel _ hbase).2.1 (fun pi hpi => hag _ (hin pi hpi)) po hpo
  exact ⟨by omega, hout⟩

theorem outs_differ (m : Model) :
    vectorValue m (additionalOuts1 fcnf c) ≠ vectorValue m (additionalOuts2 fcnf gcnf c) ↔
      ¬SameOutputs fcnf gcnf c m fun v => m (v + fcnf.numVars) := by
  rw [Ne, vectorValue_eq_iff (by simp [additionalOuts1, additionalOuts2]), additionalOuts1,
    additionalOuts2, List.zip_map', List.forall_mem_map]
  refine not_congr (forall₂_congr fun po hpo => ?_)
  rw [(natAbs_idx h.toSetting (n := po) (by simp [hpo])).1, natAbs_spec h (by simp [hpo])]

theorem makeAdditional_encodes :
    Encodes (additionalBase fcnf gcnf c) (makeAdditional fcnf gcnf c) fun m =>
      ¬SameOutputs fcnf gcnf c m fun v => m (v + fcnf.numVars) := by
  refine (setNEqual_encodes (additionalBase_below h) (by simp [additionalOuts1, additionalOuts2]) ?_
    ?_).congr fun m => outs_differ h m
  · intro x hx
    obtain ⟨po, hpo, rfl⟩ := List.mem_map.1 hx
    rw [(natAbs_idx h.toSetting (n := po) (by simp [hpo])).1]
    exact (DC.varOf_lt h.toSetting (n := po) (by simp [hpo])).trans_le (additionalBase_lt h hpo).1
  · intro x hx
    obtain ⟨po, hpo, rfl⟩ := List.mem_map.1 hx
    rw [natAbs_spec h (by simp [hpo])]
    exact (additionalBase_lt h hpo).2

theorem holds_patternLits {p : Pattern} (hp : Over signals p) (m : Model) :
    Holds m ((patternLits fcnf c p).map mkLit) ↔ p = patternAt fcnf c signals m := by
  obtain ⟨f, rfl⟩ := hp
  have hkey : ∀ sig ∈ signals, (mkLit (idx fcnf c sig, f sig)).1 = varOf c fcnf sig := fun sig hsig =>
    (natAbs_idx h.toSetting (n := sig) (by simp [hsig])).1
  rw [patternAt, OrdMap.tabulate_inj]
  constructor
  · intro hm sig hsig
    have he : (sig, f sig) ∈ (OrdMap.tabulate signals f).entries := by
      rw [OrdMap.mem_entries, OrdMap.find_tabulate, if_pos hsig]
    have := hm _ (List.mem_map_of_mem (List.mem_map_of_mem he))
    rw [hkey sig hsig] at this
    exact this.symm
  · intro hm l hl
    obtain ⟨e, hpat, rfl⟩ := List.mem_map.1 hl
    obtain ⟨⟨sig, b⟩, he, rfl⟩ := List.mem_map.1 hpat
    rw [OrdMap.mem_entries, OrdMap.find_tabulate] at he
    split at he
    · rename_i hsig
      cases he
      rw [hkey sig hsig, ← hm sig hsig]
      rfl
    · cases he

/-- **A query** is satisfiable exactly if the outputs can differ under the pattern. -/
theorem query_iff {p : Pattern} (hp : Over signals p) :
    (∃ m, Sat m (makeAdditional fcnf gcnf c).clauses ∧
      Holds m ((patternLits fcnf c p).map mkLit)) ↔ Differs fcnf gcnf c signals p := by
  have henc := makeAdditional_encodes h
  constructor
  · intro hq
    obtain ⟨m, hm, hp'⟩ := hq
    obtain ⟨hbase, hne⟩ := henc.sound m hm
    obtain ⟨-, h1, h2, h3⟩ := ((additionalBase_adds h).sat m).1 hbase
    exact ⟨m, _, h1, h2, h3, hne, (holds_patternLits h hp m).1 hp'⟩
  · intro hd
    obtain ⟨m, s, h1, h2, h3, hne, rfl⟩ := hd
    have hbase := additionalBase_sat h h1 h2 h3
    have hlow : ∀ n ∈ c.inputs ++ c.outputs ++ [target] ++ signals,
        (if varOf c fcnf n < fcnf.numVars then m (varOf c fcnf n)
          else s (varOf c fcnf n - fcnf.numVars)) = m (varOf c fcnf n) := fun n hn =>
      if_pos (DC.varOf_lt h.toSetting hn)
    obtain ⟨m', hag, hm'⟩ := henc.extend _ hbase fun hsame => hne fun po hpo => by
      have := hsame po hpo
      simp only [hlow po (by simp [hpo]), Nat.not_lt.2 (Nat.le_add_left _ _), if_false,
        Nat.add_sub_cancel] at this
      exact this
    refine ⟨m', hm', (holds_patternLits h hp m').2 (OrdMap.tabulate_inj.2 fun sig hsig => ?_)⟩
    -- there is an output, and so the signals are variables of the solver
    obtain ⟨po, hpo, -⟩ : ∃ po ∈ c.outputs, m (varOf c fcnf po) ≠ s (varOf c gcnf po) := by
      by_contra hno
      push Not at hno
      exact hne hno
    have hsig' := DC.varOf_lt h.toSetting (n := sig) (by simp [hsig])
    rw [hag _ (hsig'.trans_le (additionalBase_lt h hpo).1)]
    exact (hlow sig (by simp [hsig])).symm

/-- **The loop** finds the patterns under which the outputs cannot differ. -/
theorem additional_loop {solve : Nat → Solve} (hex : ∀ i, Exact (solve i)) {ps : List Pattern}
    (hps : ∀ p ∈ ps, Over signals p) (st : Additional)
    (hcl : st.solver.clauses = (makeAdditional fcnf gcnf c).clauses) : ∃ found : List Pattern,
      found.Sublist ps ∧ (∀ p ∈ ps, p ∈ found ↔ ¬Differs fcnf gcnf c signals p) ∧
      (ps.foldl (additionalStep fcnf c solve) st).dccases = st.dccases ++ found ∧
      (ps.foldl (additionalStep fcnf c solve) st).in1dccases = st.in1dccases ++ found ∧
      (ps.foldl (additionalStep fcnf c solve) st).in2dccases = st.in2dccases ++ found := by
  induction ps generalizing st with
  | nil => exact ⟨[], .refl _, by simp, by simp, by simp, by simp⟩
  | cons p ps ih =>
    have hrest : ∀ p ∈ ps, Over signals p := fun q hq => hps q (List.mem_cons_of_mem _ hq)
    have hcl' : ((patternLits fcnf c p).foldl genLit st.solver).clauses =
        (makeAdditional fcnf gcnf c).clauses := (foldl_genLit _ _).2.1.trans hcl
    have hans := hex st.calls (makeAdditional fcnf gcnf c).clauses ((patternLits fcnf c p).map mkLit)
    have hq := query_iff h (hps p List.mem_cons_self)
    rw [List.foldl_cons, additionalStep]
    simp only [hcl']
    cases hs : solve st.calls (makeAdditional fcnf gcnf c).clauses
        ((patternLits fcnf c p).map mkLit) with
    | none =>
      rw [hs] at hans
      have hno : ¬Differs fcnf gcnf c signals p := fun hd => hans (hq.2 hd)
      obtain ⟨found, h1, h2, h3, h4, h5⟩ := ih hrest {
        solver := (patternLits fcnf c p).foldl genLit st.solver
        calls := st.calls + 1
        dccases := st.dccases ++ [p]
        in1dccases := st.in1dccases ++ [p]
        in2dccases := st.in2dccases ++ [p] } hcl'
      refine ⟨p :: found, h1.cons_cons p, fun q hqm => ?_, ?_, ?_, ?_⟩
      · by_cases he : q = p
        · subst he
          exact iff_of_true List.mem_cons_self hno
        · rw [List.mem_cons, or_iff_right he]
          exact h2 q ((List.mem_cons.1 hqm).resolve_left he)
      · rw [h3, List.append_assoc, List.singleton_append]
      · rw [h4, List.append_assoc, List.singleton_append]
      · rw [h5, List.append_assoc, List.singleton_append]
    | some m =>
      rw [hs] at hans
      have hyes : Differs fcnf gcnf c signals p := hq.1 ⟨m, hans⟩
      obtain ⟨found, h1, h2, h3, h4, h5⟩ := ih hrest { st with
        solver := (patternLits fcnf c p).foldl genLit st.solver
        calls := st.calls + 1 } hcl'
      refine ⟨found, h1.cons p, fun q hqm => ?_, h3, h4, h5⟩
      by_cases he : q ∈ ps
      · exact h2 q he
      · obtain rfl : q = p := (List.mem_cons.1 hqm).resolve_right he
        exact iff_of_false (fun hf => he (h1.subset hf)) fun hn => hn hyes

end

/-! ## The patterns and the values that are right -/

/-- The value of the target is right wherever the pattern occurs. -/
def RightFor (c specC : Circuit) (t : NodeId) (signals : List NodeId) (b : Bool) (p : Pattern) : Prop :=
  ∀ x, HasPattern c t signals x p → Works c specC t b x

section
variable {abc : Circuit → List NodeId → List NodeId → Netlist} {c specC : Circuit} {t : NodeId}
  {candInputs signals : List NodeId} (h : Problem abc c specC t candInputs) (hac : c.IsAcyclic)
  (hcl : c.Closed) (hacS : specC.IsAcyclic) (hclS : specC.Closed)
  (hind : Independent c t signals)
include h hac hcl hacS hclS

/-- An assignment where the target must have the value. -/
theorem mustBe_iff {b : Bool} {x : String → Bool} : (∃ v v' w, MustBe c specC t b x v v' w) ↔
    Works c specC t b x ∧ ¬Works c specC t (!b) x := by
  constructor
  · intro hm
    obtain ⟨v, v', w, hm⟩ := hm
    refine ⟨⟨v, w, hm.val, hm.target, hm.valSpec, hm.agree⟩, fun hw => hm.differ ?_⟩
    exact (works_iff h hac hcl hacS hclS hm.val' hm.target' hm.valSpec).1 hw
  · intro hw
    obtain ⟨⟨v, w, hv, ht, hsw, hag⟩, hnot⟩ := hw
    obtain ⟨v', hv', ht'⟩ := exists_valuation hac hcl [t] x fun _ => !b
    have ht' : v' t = !b := ht' t (by simp)
    refine ⟨v, v', w, hv, hv', hsw, ht, ht', hag, fun hag' => hnot ?_⟩
    exact ⟨v', w, hv', ht', hsw, hag'⟩

include hind

theorem required_iff {b : Bool} {p : Pattern} : Required c specC t signals b p ↔
    ∃ x, HasPattern c t signals x p ∧ Works c specC t b x ∧ ¬Works c specC t (!b) x := by
  constructor
  · intro hr
    obtain ⟨x, v, v', w, hm, rfl⟩ := hr
    exact ⟨x, ⟨v, hm.val, rfl⟩, (mustBe_iff h hac hcl hacS hclS).1 ⟨v, v', w, hm⟩⟩
  · intro hr
    obtain ⟨x, ⟨v0, hv0, rfl⟩, hw⟩ := hr
    obtain ⟨v, v', w, hm⟩ := (mustBe_iff h hac hcl hacS hclS).2 hw
    exact ⟨x, v, v', w, hm, OrdMap.tabulate_inj.2 fun sig hsig => hind x v0 v hv0 hm.val sig hsig⟩

/-- What `solve_additional` asks for, for the circuits. -/
theorem differs_iff (hsig : ∀ sig ∈ signals, sig ∈ candInputs) {p : Pattern} :
    Differs (implCnf abc c t candInputs) (specCnf abc specC) c signals p ↔
      ¬(RightFor c specC t signals false p ∧ RightFor c specC t signals true p) := by
  have hboth : (RightFor c specC t signals false p ∧ RightFor c specC t signals true p) ↔
      ∀ b, RightFor c specC t signals b p := by
    rw [Bool.forall_bool]
  rw [hboth]
  constructor
  · intro hd hall
    obtain ⟨m, s, hm, hs, hin, hne, rfl⟩ := hd
    obtain ⟨x, w, hw, hsw⟩ := h.encodesSpec.sound s hs
    obtain ⟨v, hv, hmv⟩ := Problem.valuation_of_model h hw hsw hm hin
    have hpat : HasPattern c t signals x (patternAt (implCnf abc c t candInputs) c signals m) :=
      ⟨v, hv, OrdMap.tabulate_inj.2 fun sig hs => hmv sig (by simp [hsig sig hs])⟩
    have hworks := hall (v t) x hpat
    rw [works_iff h hac hcl hacS hclS hv rfl hw] at hworks
    exact hne ((Problem.ports_iff h hv hw hmv hsw).2.2 hworks)
  · intro hno
    obtain ⟨b, hb⟩ := not_forall.1 hno
    obtain ⟨x, hx⟩ := not_forall.1 hb
    obtain ⟨⟨v0, hv0, rfl⟩, hnot⟩ := Classical.not_imp.1 hx
    obtain ⟨v, hv, ht⟩ := exists_valuation hac hcl [t] x fun _ => b
    obtain ⟨w, hw, -⟩ := exists_valuation hacS hclS [] x fun _ => false
    have ht : v t = b := ht t (by simp)
    rw [works_iff h hac hcl hacS hclS hv ht hw] at hnot
    obtain ⟨m, hm, hmv⟩ := h.encodes.complete x v hv
    obtain ⟨s, hs, hsw⟩ := h.encodesSpec.complete x w hw
    have hmv : Reads abc c t candInputs m v := hmv
    obtain ⟨hin, hout⟩ := Problem.ports_iff h hv hw hmv hsw
    refine ⟨m, s, hm, hs, hin, fun hsame => hnot (hout.1 hsame), OrdMap.tabulate_inj.2 fun sig hs => ?_⟩
    exact (hind x v0 v hv0 hv sig hs).trans (hmv sig (by simp [hsig sig hs])).symm

variable (hfix : ∀ p, ∃ b, RightFor c specC t signals b p)
include hfix

/-- A value is required exactly if it is right and the other one is not. -/
theorem required_iff_right {b : Bool} {p : Pattern} : Required c specC t signals b p ↔
    RightFor c specC t signals b p ∧ ¬RightFor c specC t signals (!b) p := by
  rw [required_iff h hac hcl hacS hclS hind]
  constructor
  · intro hr
    obtain ⟨x, hx, -, hnot⟩ := hr
    have hwrong : ¬RightFor c specC t signals (!b) p := fun hr => hnot (hr x hx)
    obtain ⟨b', hb'⟩ := hfix p
    refine ⟨?_, hwrong⟩
    by_cases he : b' = b
    · exact he ▸ hb'
    · exact absurd (Bool.eq_not.2 he ▸ hb') hwrong
  · intro hr
    obtain ⟨x, hx⟩ := not_forall.1 hr.2
    obtain ⟨hx, hnot⟩ := Classical.not_imp.1 hx
    exact ⟨x, hx, hr.1 x hx, hnot⟩

omit h hac hcl hacS hclS hind in
theorem repairable_of_right : Repairable c specC t := by
  intro x v v' hv hv' hne
  obtain ⟨b, hb⟩ := hfix (OrdMap.tabulate signals v)
  obtain ⟨v'', w, h1, -, h2, h3⟩ := hb x ⟨v, hv, rfl⟩
  exact ⟨v'', w, h1, h2, h3⟩

variable (hsig : ∀ sig ∈ signals, sig ∈ candInputs) (hlen : signals.length < 31)
  {solver solverCheck : Nat → Solve} (hex : ∀ i, Exact (solver i)) (hexC : ∀ i, Exact (solverCheck i))
include hsig hlen hex hexC

/-- `solve` ends with the patterns for which one value alone is right; `1 << signals->size()` leaves
no room for codes that collide. -/
theorem solve_right : ∃ fuel st, solve (implCnf abc c t candInputs) (specCnf abc specC) c t signals
      solver solverCheck (fun _ => false) fuel = some (some st) ∧ st.in1cases.Nodup ∧
    st.in2cases.Nodup ∧
    (∀ p, p ∈ st.in1cases ↔
      RightFor c specC t signals false p ∧ ¬RightFor c specC t signals true p) ∧
    ∀ p, p ∈ st.in2cases ↔
      RightFor c specC t signals true p ∧ ¬RightFor c specC t signals false p := by
  have hS := Problem.setting h hac hcl hsig hind
  have hneed : ∀ b p, Needed (implCnf abc c t candInputs) (specCnf abc specC) c t signals b p ↔
      RightFor c specC t signals b p ∧ ¬RightFor c specC t signals (!b) p := fun b p =>
    (needed_iff h hsig).trans (required_iff_right h hac hcl hacS hclS hind hfix)
  have hcons : ∀ p, ¬(Needed (implCnf abc c t candInputs) (specCnf abc specC) c t signals false p ∧
      Needed (implCnf abc c t candInputs) (specCnf abc specC) c t signals true p) := fun p hp =>
    ((hneed false p).1 hp.1).2 ((hneed true p).1 hp.2).1
  have hcoded : Coded (implCnf abc c t candInputs) (specCnf abc specC) c t signals := by
    intro b b' p q hp hq hag
    rw [show signals.length - 32 = 0 by omega, List.drop_zero] at hag
    exact Over.ext hp.over hq.over hag
  obtain ⟨fuel, st, h1, h2⟩ := solve_complete hS hcons
    ((fixable_iff h hac hcl).2 (repairable_of_right hfix)) hcoded hex hexC
  exact ⟨fuel, st, h1, h2.nodup1, h2.nodup2, fun p => (h2.mem1 p).trans (hneed false p),
    fun p => (h2.mem2 p).trans (hneed true p)⟩

variable (hnd : signals.Nodup) {ask : Nat → Solve} (hexA : ∀ i, Exact (ask i))
include hnd hexA

/-- The don't-cares of `solve_additional` after `solve`. -/
theorem additional_right : ∃ fuel st found, solve (implCnf abc c t candInputs) (specCnf abc specC) c t
      signals solver solverCheck (fun _ => false) fuel = some (some st) ∧
    (let r := solveAdditional (implCnf abc c t candInputs) (specCnf abc specC) c signals ask
      st.in1cases st.in2cases
    r.dccases = found ∧ r.in1dccases = st.in1cases ++ found ∧ r.in2dccases = st.in2cases ++ found) ∧
    st.in1cases.Nodup ∧ st.in2cases.Nodup ∧ found.Nodup ∧
    (∀ p, p ∈ st.in1cases ↔
      RightFor c specC t signals false p ∧ ¬RightFor c specC t signals true p) ∧
    (∀ p, p ∈ st.in2cases ↔
      RightFor c specC t signals true p ∧ ¬RightFor c specC t signals false p) ∧
    ∀ p, p ∈ found ↔ Over signals p ∧
      RightFor c specC t signals false p ∧ RightFor c specC t signals true p := by
  obtain ⟨fuel, st, hst, n1, n2, m1, m2⟩ :=
    solve_right h hac hcl hacS hclS hind hfix hsig hlen hex hexC
  obtain ⟨hall, hover⟩ := allPatterns_spec hnd
  have hcheck : ∀ p, p ∈ needCheck signals st.in1cases st.in2cases ↔
      Over signals p ∧ p ∉ st.in1cases ∧ p ∉ st.in2cases := fun p => by
    rw [needCheck, List.mem_filter, decide_eq_true_eq, hover]
  obtain ⟨found, hsub, hmem, h1, h2, h3⟩ := additional_loop
    (Problem.settingNew h hac hcl hacS hclS hsig hind) hexA (fun p hp => ((hcheck p).1 hp).1)
    { solver := makeAdditional (implCnf abc c t candInputs) (specCnf abc specC) c
      in1dccases := st.in1cases
      in2dccases := st.in2cases } rfl
  refine ⟨fuel, st, found, hst, ⟨h1, h2, h3⟩, n1, n2, hsub.nodup (hall.filter _), m1, m2, fun p => ?_⟩
  have hd := differs_iff h hac hcl hacS hclS hind hsig (p := p)
  constructor
  · intro hp
    have hc := hsub.subset hp
    have := (hmem p hc).1 hp
    rw [hd, not_not] at this
    exact ⟨((hcheck p).1 hc).1, this⟩
  · intro hp
    obtain ⟨ho, h0, h1⟩ := hp
    have hc : p ∈ needCheck signals st.in1cases st.in2cases := (hcheck p).2
      ⟨ho, fun hin => ((m1 p).1 hin).2 h1, fun hin => ((m2 p).1 hin).2 h0⟩
    rw [hmem p hc, hd, not_not]
    exact ⟨h0, h1⟩

/-- **`solve` and `solve_additional` classify every pattern**: their lists part the patterns of the
signals, and the lists with the don't-cares hold those for which 0 and 1 are right. -/
theorem solveAdditional_classifies : ∃ fuel st, solve (implCnf abc c t candInputs)
      (specCnf abc specC) c t signals solver solverCheck (fun _ => false) fuel = some (some st) ∧
    let r := solveAdditional (implCnf abc c t candInputs) (specCnf abc specC) c signals ask
      st.in1cases st.in2cases
    (st.in1cases ++ st.in2cases ++ r.dccases).Perm (allPatterns signals) ∧
    ∀ p ∈ allPatterns signals, (p ∈ r.in1dccases ↔ RightFor c specC t signals false p) ∧
      (p ∈ r.in2dccases ↔ RightFor c specC t signals true p) := by
  obtain ⟨fuel, st, found, hst, ⟨h1, h2, h3⟩, n1, n2, n3, m1, m2, m3⟩ :=
    additional_right h hac hcl hacS hclS hind hfix hsig hlen hex hexC hnd hexA
  obtain ⟨hall, hover⟩ := allPatterns_spec hnd
  refine ⟨fuel, st, hst, ?_, fun p hp => ?_⟩
  · simp only [h1]
    -- the lists are disjoint, and some value is right for every pattern
    have h12 : (st.in1cases ++ st.in2cases).Nodup := by
      refine List.nodup_append.2 ⟨n1, n2, fun a ha b hb he => ?_⟩
      subst he
      exact ((m1 a).1 ha).2 ((m2 a).1 hb).1
    have h123 : (st.in1cases ++ st.in2cases ++ found).Nodup := by
      refine List.nodup_append.2 ⟨h12, n3, fun a ha b hb he => ?_⟩
      subst he
      obtain ⟨-, hr⟩ := (m3 a).1 hb
      rcases List.mem_append.1 ha with ha | ha
      · exact ((m1 a).1 ha).2 hr.2
      · exact ((m2 a).1 ha).2 hr.1
    apply (List.perm_ext_iff_of_nodup h123 hall).2
    intro p
    rw [List.mem_append, List.mem_append, m1, m2, m3, hover]
    constructor
    · intro hp
      rcases hp with (hp | hp) | hp
      · obtain ⟨x, v, -, -, -, rfl⟩ := (required_iff_right h hac hcl hacS hclS hind hfix (b := false)).2 hp
        exact ⟨v, rfl⟩
      · obtain ⟨x, v, -, -, -, rfl⟩ := (required_iff_right h hac hcl hacS hclS hind hfix (b := true)).2 hp
        exact ⟨v, rfl⟩
      · exact hp.1
    · intro ho
      obtain ⟨b, hb⟩ := hfix p
      by_cases hnb : RightFor c specC t signals (!b) p
      · cases b
        · exact .inr ⟨ho, hb, hnb⟩
        · exact .inr ⟨ho, hnb, hb⟩
      · cases b
        · exact .inl (.inl ⟨hb, hnb⟩)
        · exact .inl (.inr ⟨hb, hnb⟩)
  · simp only [h2, h3, List.mem_append, m1, m2, m3]
    have ho := (hover p).1 hp
    constructor
    · by_cases h1 : RightFor c specC t signals true p
      · simp [ho, h1]
      · simp [h1]
    · by_cases h0 : RightFor c specC t signals false p
      · simp [ho, h0]
      · simp [h0]

/-- **The two classifications agree**: `solve` and `solve_new` record the same patterns for 0 and for
1, and the don't-cares of `solve_new` are those of `solve_additional` that occur. -/
theorem solve_agrees_solveNew : ∃ fuel fuel' st r, solve (implCnf abc c t candInputs)
      (specCnf abc specC) c t signals solver solverCheck (fun _ => false) fuel = some (some st) ∧
    solveNew (implCnf abc c t candInputs) (specCnf abc specC) c t signals ask fuel' = some r ∧
    st.in1cases.Perm r.in1cases ∧ st.in2cases.Perm r.in2cases ∧
    ∀ p, p ∈ r.dccases ↔ (∃ x, HasPattern c t signals x p) ∧
      p ∈ (solveAdditional (implCnf abc c t candInputs) (specCnf abc specC) c signals ask
        st.in1cases st.in2cases).dccases := by
  obtain ⟨fuel, st, found, hst, ⟨h1, -, -⟩, n1, n2, -, m1, m2, m3⟩ :=
    additional_right h hac hcl hacS hclS hind hfix hsig hlen hex hexC hnd hexA
  obtain ⟨fuel', r, hr, hc⟩ :=
    solveNew_classified (Problem.settingNew h hac hcl hacS hclS hsig hind) hexA
  have hF := fun b1 b2 p => found_iff h hac hcl hacS hclS hsig hind b1 b2 (p := p)
  -- a value that is right where the pattern occurs is found to work there
  have hright : ∀ {b : Bool} {b1 b2 : Bool} {p}, RightFor c specC t signals b p →
      Found (implCnf abc c t candInputs) (specCnf abc specC) c t signals b1 b2 p →
        (if b then b2 else b1) = true := by
    intro b b1 b2 p hb hf
    obtain ⟨x, hx, e1, e2⟩ := (hF b1 b2 p).1 hf
    cases b
    · exact e1.2 (hb x hx)
    · exact e2.2 (hb x hx)
  have hwrong : ∀ {b : Bool} {p}, ¬RightFor c specC t signals b p → ∃ b1 b2,
      Found (implCnf abc c t candInputs) (specCnf abc specC) c t signals b1 b2 p ∧
        (if b then b2 else b1) = false := by
    intro b p hb
    classical
    obtain ⟨x, hx⟩ := not_forall.1 hb
    obtain ⟨hx, hnot⟩ := Classical.not_imp.1 hx
    refine ⟨decide (Works c specC t false x), decide (Works c specC t true x),
      (hF _ _ p).2 ⟨x, hx, decide_eq_true_iff, decide_eq_true_iff⟩, ?_⟩
    cases b
    · exact decide_eq_false hnot
    · exact decide_eq_false hnot
  have hone : ∀ {p} {b : Bool}, RightFor c specC t signals b p → ¬RightFor c specC t signals (!b) p →
      Found (implCnf abc c t candInputs) (specCnf abc specC) c t signals (!b) b p := by
    intro p b hb hnb
    obtain ⟨b1, b2, hf, he⟩ := hwrong hnb
    have hb' := hright hb hf
    cases b
    · cases hb'
      cases he
      exact hf
    · cases hb'
      cases he
      exact hf
  refine ⟨fuel, fuel', st, r, hst, hr, ?_, ?_, fun p => ?_⟩
  · apply (List.perm_ext_iff_of_nodup n1 hc.nodup1).2
    intro p
    rw [m1, hc.mem1]
    constructor
    · intro hp
      refine ⟨hone (b := false) hp.1 hp.2, fun hf => ?_, fun hf => ?_⟩
      · cases hright hp.1 hf
      · cases hright hp.1 hf
    · intro hp
      have hnot : ¬RightFor c specC t signals true p := fun h1 => by cases hright h1 hp.1
      refine ⟨?_, hnot⟩
      obtain ⟨b, hb⟩ := hfix p
      cases b
      · exact hb
      · exact absurd hb hnot
  · apply (List.perm_ext_iff_of_nodup n2 hc.nodup2).2
    intro p
    rw [m2, hc.mem2]
    constructor
    · intro hp
      refine ⟨hone (b := true) hp.1 hp.2, fun hf => ?_, fun hf => ?_⟩
      · cases hright hp.1 hf
      · cases hright hp.1 hf
    · intro hp
      have hnot : ¬RightFor c specC t signals false p := fun h1 => by cases hright h1 hp.1
      refine ⟨?_, hnot⟩
      obtain ⟨b, hb⟩ := hfix p
      cases b
      · exact absurd hb hnot
      · exact hb
  · simp only [h1]
    rw [hc.memDC, m3]
    constructor
    · intro hp
      obtain ⟨htt, hff, htf, hft⟩ := hp
      obtain ⟨x, hx, -⟩ := (hF true true p).1 htt
      have hall : ∀ b, RightFor c specC t signals b p := by
        intro b
        by_contra hb
        obtain ⟨b1, b2, hf, he⟩ := hwrong hb
        cases b1 <;> cases b2
        · exact hff hf
        · exact hft hf
        · exact htf hf
        · cases b <;> cases he
      obtain ⟨v, hv, rfl⟩ := hx
      exact ⟨⟨x, v, hv, rfl⟩, ⟨v, rfl⟩, hall false, hall true⟩
    · intro hp
      obtain ⟨⟨x, hx⟩, -, h0, h1⟩ := hp
      refine ⟨(hF true true p).2 ⟨x, hx, iff_of_true rfl (h0 x hx), iff_of_true rfl (h1 x hx)⟩,
        fun hf => ?_, fun hf => ?_, fun hf => ?_⟩
      · cases hright h0 hf
      · cases hright h1 hf
      · cases hright h0 hf

end

/-! ## One signal -/

/-- The target must be the signal. -/
theorem openTarget_right (p : Pattern) : ∃ b,
    RightFor (ofNodes (openTarget 1)) (ofNodes (firstInput 1)) 1 (List.range 1) b p := by
  refine ⟨p.at 0, fun x hx => ?_⟩
  obtain ⟨v, hv, rfl⟩ := hx
  rw [Pattern.at_tabulate (List.mem_range.2 Nat.one_pos),
    inputsAnd_value hv Nat.one_pos (by decide)]
  -- all nodes have the value of the input
  have h1 : ∀ b : Bool, (ofNodes (openTarget 1)).Valuation [1] (fun _ => b) fun _ => b := by decide
  have h2 : ∀ b : Bool, (ofNodes (firstInput 1)).Valuation [] (fun _ => b) fun _ => b := by decide
  have h3 : ∀ n ∈ (ofNodes (openTarget 1)).allNodes, ((ofNodes (openTarget 1)).node n).isInput = true →
      ((ofNodes (openTarget 1)).node n).name = String.ofList (List.replicate 1 'p') := by decide
  have h4 : ∀ n ∈ (ofNodes (firstInput 1)).allNodes, ((ofNodes (firstInput 1)).node n).isInput = true →
      ((ofNodes (firstInput 1)).node n).name = String.ofList (List.replicate 1 'p') := by decide
  refine ⟨_, _, valuation_congr (fun n hn _ hi => ?_) (h1 _), rfl,
    valuation_congr (fun n hn _ hi => ?_) (h2 _), fun _ _ _ _ _ => rfl⟩
  · rw [h3 n hn hi]
  · rw [h4 n hn hi]

theorem openTarget_one : Problem netlistOf (ofNodes (openTarget 1)) (ofNodes (firstInput 1)) 1
    (List.range 1) ∧ (ofNodes (openTarget 1)).IsAcyclic ∧ (ofNodes (openTarget 1)).Closed ∧
    (ofNodes (firstInput 1)).IsAcyclic ∧ (ofNodes (firstInput 1)).Closed := by
  have ho : Ordered (openTarget 1) := by decide
  have hs : Ordered (firstInput 1) := by decide
  have hi : Interface (ofNodes (openTarget 1)) (ofNodes (firstInput 1)) := by
    constructor <;> decide
  exact ⟨openTarget_problem ho hs hi (by decide) (by decide), ho.acyclic, ho.mirror.closed, hs.acyclic,
    hs.mirror.closed⟩

theorem solveAdditional_classifies_buffer : ∃ fuel st,
    solve (implCnf netlistOf (ofNodes (openTarget 1)) 1 (List.range 1))
      (specCnf netlistOf (ofNodes (firstInput 1))) (ofNodes (openTarget 1)) 1 (List.range 1)
      (fun _ => dpllSolve) (fun _ => dpllSolve) (fun _ => false) fuel = some (some st) ∧
    let r := solveAdditional (implCnf netlistOf (ofNodes (openTarget 1)) 1 (List.range 1))
      (specCnf netlistOf (ofNodes (firstInput 1))) (ofNodes (openTarget 1)) (List.range 1)
      (fun _ => dpllSolve) st.in1cases st.in2cases
    (st.in1cases ++ st.in2cases ++ r.dccases).Perm (allPatterns (List.range 1)) ∧
    ∀ p ∈ allPatterns (List.range 1),
      (p ∈ r.in1dccases ↔
        RightFor (ofNodes (openTarget 1)) (ofNodes (firstInput 1)) 1 (List.range 1) false p) ∧
      (p ∈ r.in2dccases ↔
        RightFor (ofNodes (openTarget 1)) (ofNodes (firstInput 1)) 1 (List.range 1) true p) := by
  obtain ⟨hP, hac, hcl, hacS, hclS⟩ := openTarget_one
  exact solveAdditional_classifies hP hac hcl hacS hclS openTarget_independent openTarget_right
    (fun _ => id) (by decide) (fun _ => dpll_exact) (fun _ => dpll_exact) (by decide)
    fun _ => dpll_exact

theorem solve_agrees_solveNew_buffer : ∃ fuel fuel' st r,
    solve (implCnf netlistOf (ofNodes (openTarget 1)) 1 (List.range 1))
      (specCnf netlistOf (ofNodes (firstInput 1))) (ofNodes (openTarget 1)) 1 (List.range 1)
      (fun _ => dpllSolve) (fun _ => dpllSolve) (fun _ => false) fuel = some (some st) ∧
    solveNew (implCnf netlistOf (ofNodes (openTarget 1)) 1 (List.range 1))
      (specCnf netlistOf (ofNodes (firstInput 1))) (ofNodes (openTarget 1)) 1 (List.range 1)
      (fun _ => dpllSolve) fuel' = some r ∧
    st.in1cases.Perm r.in1cases ∧ st.in2cases.Perm r.in2cases ∧
    ∀ p, p ∈ r.dccases ↔ (∃ x, HasPattern (ofNodes (openTarget 1)) 1 (List.range 1) x p) ∧
      p ∈ (solveAdditional (implCnf netlistOf (ofNodes (openTarget 1)) 1 (List.range 1))
        (specCnf netlistOf (ofNodes (firstInput 1))) (ofNodes (openTarget 1)) (List.range 1)
        (fun _ => dpllSolve) st.in1cases st.in2cases).dccases := by
  obtain ⟨hP, hac, hcl, hacS, hclS⟩ := openTarget_one
  exact solve_agrees_solveNew hP hac hcl hacS hclS openTarget_independent openTarget_right
    (fun _ => id) (by decide) (fun _ => dpll_exact) (fun _ => dpll_exact) (by decide)
    fun _ => dpll_exact

end Msyn.DC
