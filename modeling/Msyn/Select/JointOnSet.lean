import Msyn.Circuit.Numbered
import Msyn.Select.GetDCMulti
import Msyn.Select.Separation

/-!
# Joint on-sets of the targets

`getDCMulti` records a pattern for all targets or for none, so that in the repaired circuit the
targets are all 1 or all 0. The repair is right exactly if for each pattern one of these two vectors
is right wherever the pattern occurs (`getDCMulti_repairs_iff`).
-/

namespace Msyn.DC

open Nodecircuit Circuit Cnf CNFgen Glucose GInterface MergeSelection

/-- What `getDCMulti` is called on. `abc` and `ntk` are the netlists that ABC returns; that of the
specification has the targets and the signals as further ports and is otherwise that of the
specification, as no node of it has the name of a target. -/
structure ProblemMulti (abc : Circuit → List NodeId → List NodeId → Netlist) (ntk : Netlist)
    (c specC : Circuit) (targets signals : List NodeId) : Prop where
  ports : Ports c
  portsSpec : Ports specC
  interface : Interface c specC
  notInput : ∀ t ∈ targets, (c.node t).isInput = false
  delivers : Delivers (abc c targets signals) c targets signals
  deliversSpec : Delivers ntk specC [] []
  nets : ∀ n ∈ targets ++ signals, (c.node n).name ∈ ntk.nets

/-- The CNF of the implementation. -/
abbrev multiCnf (abc : Circuit → List NodeId → List NodeId → Netlist) (c : Circuit)
    (targets signals : List NodeId) : CNFGenerator := CNFGenerator.init abc c targets signals

/-- The CNF of the specification. -/
abbrev multiSpecCnf (ntk : Netlist) (c specC : Circuit) (targets signals : List NodeId) :
    CNFGenerator := CNFGenerator.initAlso ntk specC c targets signals

section
variable (c specC : Circuit) (targets signals : List NodeId)

/-- With the values `b` of the targets the outputs are those of the specification. -/
def WorksWith (b : NodeId → Bool) (x : String → Bool) : Prop :=
  ∃ v w, c.Valuation targets x v ∧ (∀ t ∈ targets, v t = b t) ∧ specC.Valuation [] x w ∧
    Agree c specC v w

/-- The pattern of the signals under an assignment. -/
def Shows (x : String → Bool) (p : Pattern) : Prop :=
  ∃ v, c.Valuation targets x v ∧ p = OrdMap.tabulate signals v

/-- The values `b` of the targets are right wherever the pattern occurs. -/
def RightOn (b : NodeId → Bool) (p : Pattern) : Prop :=
  ∀ x, Shows c targets signals x p → WorksWith c specC targets b x

/-- The signals do not depend on the targets. -/
def IndependentOf : Prop :=
  ∀ x v v', c.Valuation targets x v → c.Valuation targets x v' → ∀ sig ∈ signals, v sig = v' sig

/-- With every target replaced by the function that is 1 on its on-set the circuit computes the
outputs of the specification. -/
def Repairs (in2cases : List (List Pattern)) : Prop :=
  ∀ x v w, c.Valuation targets x v →
    (∀ i < targets.length,
      v (targets.getD i 0) = decide (OrdMap.tabulate signals v ∈ in2cases.getD i [])) →
    specC.Valuation [] x w → Agree c specC v w

end

/-- The valuations of an assignment tell whether the values of the targets are right. -/
theorem worksWith_agree {c specC : Circuit} {targets : List NodeId} (hp : Ports c)
    (hpS : Ports specC) (hac : c.IsAcyclic) (hcl : c.Closed) (hacS : specC.IsAcyclic)
    (hclS : specC.Closed) {b : NodeId → Bool} {x : String → Bool} {v w : NodeId → Bool}
    (hv : c.Valuation targets x v) (ht : ∀ t ∈ targets, v t = b t) (hw : specC.Valuation [] x w) :
    WorksWith c specC targets b x ↔ Agree c specC v w := by
  refine ⟨fun ⟨v', w', hv', ht', hw', hag⟩ po hpo qo hqo he => ?_, fun hag => ⟨v, w, hv, ht, hw, hag⟩⟩
  have h1 := hv.unique hac hcl hv' (fun t htt => (ht t htt).trans (ht' t htt).symm) po
    (hp.outputs po hpo).1
  have h2 := hw.unique hacS hclS hw' (fun a ha => absurd ha List.not_mem_nil) qo
    (hpS.outputs qo hqo).1
  rw [h1, h2]
  exact hag po hpo qo hqo he

section
variable {abc : Circuit → List NodeId → List NodeId → Netlist} {ntk : Netlist} {c specC : Circuit}
  {targets signals : List NodeId} (h : ProblemMulti abc ntk c specC targets signals)
include h

theorem ProblemMulti.coupled : Coupled (multiCnf abc c targets signals)
    (multiSpecCnf ntk c specC targets signals) c specC targets
    (c.inputs ++ c.outputs ++ targets ++ signals) where
  ports := h.ports
  portsSpec := h.portsSpec
  interface := h.interface
  notFree n hn ht := by
    have := ((h.ports.inputs n).1 hn).2
    rw [h.notInput n ht] at this
    cases this
  sub _ hn := List.mem_append_left _ (List.mem_append_left _ hn)
  encodes := (CNFGenerator.encodes_init h.delivers).describes
  encodesSpec := CNFGenerator.describes_initAlso h.deliversSpec h.nets

variable (hac : c.IsAcyclic) (hcl : c.Closed) (hind : IndependentOf c targets signals)

include hac hcl hind in
theorem ProblemMulti.setting : SettingMulti (multiCnf abc c targets signals)
    (multiSpecCnf ntk c specC targets signals) c targets signals where
  below := h.coupled.encodes.below
  known n hn := ⟨h.coupled.encodes.known n hn, (CNFGenerator.encodes_init h.delivers).pointer n hn⟩
  knownSpec n hn := by
    obtain ⟨q, hq, he⟩ := h.coupled.port (List.mem_append.1 hn)
    exact he ▸ h.coupled.encodesSpec.known q hq
  det m m' hm hm' hin ht po hpo := by
    obtain ⟨x, v, v', hv, hv', hmv, hmv'⟩ := h.coupled.valuations hm hm' hin
    rw [hmv po (by simp [hpo]), hmv' po (by simp [hpo])]
    refine hv.unique hac hcl hv' (fun t htt => ?_) po (h.ports.outputs po hpo).1
    rw [← hmv t (by simp [htt]), ← hmv' t (by simp [htt])]
    exact ht t htt
  free m m' hm hm' hin sig hs := by
    obtain ⟨x, v, v', hv, hv', hmv, hmv'⟩ := h.coupled.valuations hm hm' hin
    rw [hmv sig (by simp [hs]), hmv' sig (by simp [hs])]
    exact hind x v v' hv hv' sig hs

variable (hacS : specC.IsAcyclic) (hclS : specC.Closed)
include hac hcl hacS hclS

/-- The valuations of an assignment tell whether the values of the targets are right. -/
theorem worksWith_iff {b : NodeId → Bool} {x : String → Bool} {v w : NodeId → Bool}
    (hv : c.Valuation targets x v) (ht : ∀ t ∈ targets, v t = b t) (hw : specC.Valuation [] x w) :
    WorksWith c specC targets b x ↔ Agree c specC v w :=
  worksWith_agree h.ports h.portsSpec hac hcl hacS hclS hv ht hw

include hind

/-- **What is found**, for the circuits. -/
theorem foundMulti_iff {p : Pattern} : FoundMulti (multiCnf abc c targets signals)
    (multiSpecCnf ntk c specC targets signals) c targets signals p ↔
    ∃ x, Shows c targets signals x p ∧ (∃ b, WorksWith c specC targets b x) ∧
      ¬WorksWith c specC targets (fun _ => false) x := by
  constructor
  · rintro ⟨m1, m2, s, hc, hne, rfl⟩
    obtain ⟨x, w, hw, hsw⟩ := h.coupled.encodesSpec.sound s hc.satS
    obtain ⟨v1, hv1, hm1⟩ := h.coupled.valuation_of_model hw hsw hc.sat1 fun pi hpi =>
      (hc.inputs pi hpi).2
    obtain ⟨v2, hv2, hm2⟩ := h.coupled.valuation_of_model hw hsw hc.sat2 fun pi hpi =>
      (hc.inputs pi hpi).1.symm.trans (hc.inputs pi hpi).2
    have hzero : ∀ t ∈ targets, v2 t = (fun _ => false) t := fun t ht =>
      (hm2 t (by simp [ht])).symm.trans (hc.targets t ht)
    refine ⟨x, ⟨v1, hv1, OrdMap.tabulate_inj.2 fun sig hs => hm1 sig (by simp [hs])⟩, ⟨v1, v1, w, hv1,
      fun _ _ => rfl, hw, (h.coupled.ports_iff hv1 hw hm1 hsw).2.1 hc.outputs⟩, fun hworks => hne ?_⟩
    rw [worksWith_iff h hac hcl hacS hclS hv2 hzero hw] at hworks
    exact (h.coupled.ports_iff hv2 hw hm2 hsw).2.2 hworks
  · rintro ⟨x, ⟨v, hv, rfl⟩, ⟨b, v1, w, hv1, -, hw, hag⟩, hnot⟩
    obtain ⟨v2, hv2, hzero⟩ := exists_valuation hac hcl targets x fun _ => false
    rw [worksWith_iff h hac hcl hacS hclS hv2 hzero hw] at hnot
    obtain ⟨m1, k1, hm1⟩ := h.coupled.encodes.complete x v1 hv1
    obtain ⟨m2, k2, hm2⟩ := h.coupled.encodes.complete x v2 hv2
    obtain ⟨s, ks, hsw⟩ := h.coupled.encodesSpec.complete x w hw
    obtain ⟨hin1, hout1⟩ := h.coupled.ports_iff hv1 hw hm1 hsw
    obtain ⟨hin2, hout2⟩ := h.coupled.ports_iff hv2 hw hm2 hsw
    refine ⟨m1, m2, s, ⟨k1, k2, ks, fun pi hpi => ⟨(hin1 pi hpi).trans (hin2 pi hpi).symm, hin1 pi hpi⟩,
      fun t ht => (hm2 t (by simp [ht])).trans (hzero t ht), hout1.2 hag⟩,
      fun hsame => hnot (hout2.1 hsame), OrdMap.tabulate_inj.2 fun sig hs => ?_⟩
    have hm1' : m1 (varOf c (multiCnf abc c targets signals) sig) = v1 sig := hm1 sig (by simp [hs])
    rw [hm1']
    exact hind x v v1 hv hv1 sig hs

/-- The repair by one on-set for all targets. -/
theorem repairs_iff {found : List Pattern} (hfix : ∀ p, ∃ b, RightOn c specC targets signals b p)
    (hfound : ∀ p, p ∈ found ↔ ∃ x, Shows c targets signals x p ∧
      (∃ b, WorksWith c specC targets b x) ∧ ¬WorksWith c specC targets (fun _ => false) x) :
    Repairs c specC targets signals (targets.map fun _ => found) ↔
      ∀ p, RightOn c specC targets signals (fun _ => false) p ∨
        RightOn c specC targets signals (fun _ => true) p := by
  have hset : ∀ {i : Nat}, i < targets.length →
      (targets.map fun _ => found).getD i [] = found := by
    intro i hi
    rw [List.getD_eq_getElem _ _ (by rwa [List.length_map]), List.getElem_map]
  have hall : ∀ (v : NodeId → Bool) (b : Bool), (∀ i < targets.length,
      v (targets.getD i 0) = b) ↔ ∀ t ∈ targets, v t = b := by
    intro v b
    constructor
    · intro hv t ht
      obtain ⟨i, hi, rfl⟩ := List.getElem_of_mem ht
      have := hv i hi
      rwa [List.getD_eq_getElem _ _ hi] at this
    · intro hv i hi
      rw [List.getD_eq_getElem _ _ hi]
      exact hv _ (List.getElem_mem hi)
  have hrep : Repairs c specC targets signals (targets.map fun _ => found) ↔
      ∀ x v w, c.Valuation targets x v →
        (∀ t ∈ targets, v t = decide (OrdMap.tabulate signals v ∈ found)) →
        specC.Valuation [] x w → Agree c specC v w := by
    refine forall₃_congr fun x v w => imp_congr_right fun _ => imp_congr ?_ Iff.rfl
    rw [← hall v]
    exact forall₂_congr fun i hi => by rw [hset hi]
  rw [hrep]
  constructor
  · -- if the zeros are wrong somewhere, the pattern is found and the targets are all 1
    intro hR p
    by_cases hzero : RightOn c specC targets signals (fun _ => false) p
    · exact .inl hzero
    · refine .inr fun x hx => ?_
      obtain ⟨y, hy⟩ := not_forall.1 hzero
      obtain ⟨hy, hnot⟩ := Classical.not_imp.1 hy
      obtain ⟨b, hb⟩ := hfix p
      have hp : p ∈ found := (hfound p).2 ⟨y, hy, ⟨b, hb y hy⟩, hnot⟩
      obtain ⟨v0, hv0, rfl⟩ := hx
      obtain ⟨v, hv, hones⟩ := exists_valuation hac hcl targets x fun _ => true
      obtain ⟨w, hw, -⟩ := exists_valuation hacS hclS [] x fun _ => false
      have hpat : OrdMap.tabulate signals v = OrdMap.tabulate signals v0 :=
        OrdMap.tabulate_inj.2 fun sig hs => hind x v v0 hv hv0 sig hs
      refine ⟨v, w, hv, hones, hw, hR x v w hv (fun t ht => ?_) hw⟩
      rw [hpat, decide_eq_true hp]
      exact hones t ht
  · intro hor x v w hv ht hw
    have hshow : Shows c targets signals x (OrdMap.tabulate signals v) := ⟨v, hv, rfl⟩
    by_cases hp : OrdMap.tabulate signals v ∈ found
    · rw [decide_eq_true hp] at ht
      obtain ⟨y, hy, -, hnot⟩ := (hfound _).1 hp
      have hone := (hor (OrdMap.tabulate signals v)).resolve_left fun hz => hnot (hz y hy)
      exact (worksWith_iff h hac hcl hacS hclS (b := fun _ => true) hv ht hw).1 (hone x hshow)
    · rw [decide_eq_false hp] at ht
      by_contra hag
      obtain ⟨b, hb⟩ := hfix (OrdMap.tabulate signals v)
      refine hp ((hfound _).2 ⟨x, hshow, ⟨b, hb x hshow⟩, fun hz => hag ?_⟩)
      exact (worksWith_iff h hac hcl hacS hclS (b := fun _ => false) hv ht hw).1 hz

/-- **The on-sets of `getDCMulti` repair the circuit** exactly if for each pattern all targets at 0
or all targets at 1 are right wherever it occurs. -/
theorem getDCMulti_repairs_iff (hfix : ∀ p, ∃ b, RightOn c specC targets signals b p)
    {solve : Nat → Solve} (hex : ∀ i, Exact (solve i)) :
    ∃ fuel st, solveMulti (multiCnf abc c targets signals)
        (multiSpecCnf ntk c specC targets signals) c targets signals solve fuel = some st ∧
      (Repairs c specC targets signals st.in2cases ↔
        ∀ p, RightOn c specC targets signals (fun _ => false) p ∨
          RightOn c specC targets signals (fun _ => true) p) := by
  obtain ⟨fuel, st, found, hst, he, -, hmem⟩ := solveMulti_spec (h.setting hac hcl hind) hex
  simp only [foundMulti_iff h hac hcl hind hacS hclS] at hmem
  refine ⟨fuel, st, hst, ?_⟩
  rw [he]
  exact repairs_iff h hac hcl hind hacS hclS hfix hmem

end

/-! ## Two targets with different values -/

/-- `Circuit2Abc` on a specification no node of which has the name of a node of `exIn`. -/
def netlistAlso (specC c : Circuit) (exIn exOut : List NodeId) : Netlist :=
  { netlistOf specC [] [] with
    pis := specC.inputs.map (fun n => (specC.node n).name) ++
      (exIn.filter fun n => (c.node n).isInput = false).map fun n => (c.node n).name
    pos := specC.outputs.map (fun n => (specC.node n).name) ++
      (exOut.filter fun n => (c.node n).isOutput = false).map fun n => (c.node n).name }

theorem netlistAlso_delivers {c specC : Circuit} {exIn exOut : List NodeId} (hp : Ports specC)
    (hcl : specC.Closed) (hs : (netlistOf specC [] []).Simple) :
    Delivers (netlistAlso specC c exIn exOut) specC [] [] := by
  have hd : Delivers (netlistOf specC [] []) specC [] [] := netlistOf_delivers hp hcl hs (by simp)
  obtain ⟨h1, h2, h3, h4⟩ := hd
  refine ⟨h1, fun n hn => ?_, h3, h4⟩
  have := h2 n hn
  simp only [Netlist.nets, netlistAlso, netlistOf, List.append_nil, List.mem_append] at this ⊢
  rcases this with (h | h) | h
  · exact .inl (.inl (.inl h))
  · exact .inl (.inr (.inl h))
  · exact .inr h

/-- The outputs are buffers of the targets `t` and `u`. -/
def twoTargets : List Node := [
  { name := "p", isInput := true },
  { name := "t", outputs := [3] },
  { name := "u", outputs := [4] },
  { name := "o", cube := "1 1\n", inputs := [1], isOutput := true },
  { name := "q", cube := "1 1\n", inputs := [2], isOutput := true }]

/-- The outputs are the input and its negation. -/
def inputAndNegation : List Node := [
  { name := "p", isInput := true, outputs := [1, 2] },
  { name := "o", cube := "1 1\n", inputs := [0], isOutput := true },
  { name := "q", cube := "0 1\n", inputs := [0], isOutput := true }]

theorem twoTargets_problem : ProblemMulti netlistOf
    (netlistAlso (ofNodes inputAndNegation) (ofNodes twoTargets) [1, 2] [0]) (ofNodes twoTargets)
    (ofNodes inputAndNegation) [1, 2] [0] := by
  have ho : Ordered twoTargets := by decide
  have hs : Ordered inputAndNegation := by decide
  refine ⟨ho.ports, hs.ports, by constructor <;> decide, by decide, ?_, ?_, by decide⟩
  · exact netlistOf_delivers ho.ports ho.mirror.closed (by decide) (by decide)
  · exact netlistAlso_delivers hs.ports hs.mirror.closed (by decide)

/-- The values of the nodes depend on the input `p` only. -/
theorem twoTargets_valuation {x : String → Bool} {v : NodeId → Bool}
    (hv : (ofNodes twoTargets).Valuation [1, 2] (fun _ => x "p") v) :
    (ofNodes twoTargets).Valuation [1, 2] x v := by
  have hname : ∀ n ∈ (ofNodes twoTargets).allNodes, ((ofNodes twoTargets).node n).isInput = true →
      ((ofNodes twoTargets).node n).name = "p" := by decide
  exact valuation_congr (fun n hn _ hi => by rw [hname n hn hi]) hv

theorem inputAndNegation_valuation {x : String → Bool} {w : NodeId → Bool}
    (hw : (ofNodes inputAndNegation).Valuation [] (fun _ => x "p") w) :
    (ofNodes inputAndNegation).Valuation [] x w := by
  have hname : ∀ n ∈ (ofNodes inputAndNegation).allNodes,
      ((ofNodes inputAndNegation).node n).isInput = true →
      ((ofNodes inputAndNegation).node n).name = "p" := by decide
  exact valuation_congr (fun n hn _ hi => by rw [hname n hn hi]) hw

theorem twoTargets_input {x : String → Bool} {v : NodeId → Bool}
    (hv : (ofNodes twoTargets).Valuation [1, 2] x v) : v 0 = x "p" :=
  hv.input (Ordered.ports (l := twoTargets) (by decide)) (n := 0) (by decide) (by decide)

theorem twoTargets_independent : IndependentOf (ofNodes twoTargets) [1, 2] [0] := by
  intro x v v' hv hv' sig hsig
  rw [List.mem_singleton.1 hsig, twoTargets_input hv, twoTargets_input hv']

/-- The targets must be the input and its negation. -/
theorem twoTargets_fixable (p : Pattern) :
    ∃ b, RightOn (ofNodes twoTargets) (ofNodes inputAndNegation) [1, 2] [0] b p := by
  refine ⟨fun n => if n = 1 then p.at 0 else !p.at 0, fun x hx => ?_⟩
  obtain ⟨v, hv, rfl⟩ := hx
  rw [Pattern.at_tabulate (List.mem_singleton.2 rfl), twoTargets_input hv]
  have h1 : ∀ b : Bool, (ofNodes twoTargets).Valuation [1, 2] (fun _ => b) fun n =>
      if n = 0 ∨ n = 1 ∨ n = 3 then b else !b := by decide
  have h2 : ∀ b : Bool, (ofNodes inputAndNegation).Valuation [] (fun _ => b) fun n =>
      if n = 2 then !b else b := by decide
  have h3 : ∀ b : Bool, ∀ t ∈ [1, 2], (if t = 0 ∨ t = 1 ∨ t = 3 then b else !b) =
      if t = 1 then b else !b := by decide
  have h4 : ∀ b : Bool, Agree (ofNodes twoTargets) (ofNodes inputAndNegation)
      (fun n => if n = 0 ∨ n = 1 ∨ n = 3 then b else !b) fun n => if n = 2 then !b else b := by decide
  exact ⟨_, _, twoTargets_valuation (h1 (x "p")), h3 (x "p"), inputAndNegation_valuation (h2 (x "p")),
    h4 (x "p")⟩

/-- If the input is 1, neither 0 for both targets nor 1 for both is right. -/
theorem twoTargets_differ (b : Bool) : ¬RightOn (ofNodes twoTargets) (ofNodes inputAndNegation) [1, 2]
    [0] (fun _ => b) (OrdMap.tabulate [0] fun _ => true) := by
  have ho : Ordered twoTargets := by decide
  have hs : Ordered inputAndNegation := by decide
  have h1 : ∀ b : Bool, (ofNodes twoTargets).Valuation [1, 2] (fun _ => true) fun n =>
      if n = 0 then true else b := by decide
  have h2 : (ofNodes inputAndNegation).Valuation [] (fun _ => true) fun n => decide (n ≠ 2) := by
    decide
  have h3 : ∀ b : Bool, ¬Agree (ofNodes twoTargets) (ofNodes inputAndNegation)
      (fun n => if n = 0 then true else b) fun n => decide (n ≠ 2) := by decide
  have h4 : ∀ b : Bool, ∀ t ∈ [1, 2], (if t = 0 then true else b) = b := by decide
  intro hR
  have hworks := hR (fun _ => true) ⟨_, h1 b, OrdMap.tabulate_inj.2 fun sig hsig => by
    rw [List.mem_singleton.1 hsig, if_pos rfl]⟩
  rw [worksWith_iff twoTargets_problem ho.acyclic ho.mirror.closed hs.acyclic hs.mirror.closed (h1 b)
    (h4 b) h2] at hworks
  exact h3 b hworks

theorem getDCMulti_repairs_iff_two :
    ∃ fuel st, solveMulti (multiCnf netlistOf (ofNodes twoTargets) [1, 2] [0])
        (multiSpecCnf (netlistAlso (ofNodes inputAndNegation) (ofNodes twoTargets) [1, 2] [0])
          (ofNodes twoTargets) (ofNodes inputAndNegation) [1, 2] [0])
        (ofNodes twoTargets) [1, 2] [0] (fun _ => dpllSolve) fuel = some st ∧
      (Repairs (ofNodes twoTargets) (ofNodes inputAndNegation) [1, 2] [0] st.in2cases ↔
        ∀ p, RightOn (ofNodes twoTargets) (ofNodes inputAndNegation) [1, 2] [0] (fun _ => false) p ∨
          RightOn (ofNodes twoTargets) (ofNodes inputAndNegation) [1, 2] [0] (fun _ => true) p) := by
  have ho : Ordered twoTargets := by decide
  have hs : Ordered inputAndNegation := by decide
  exact getDCMulti_repairs_iff twoTargets_problem ho.acyclic ho.mirror.closed twoTargets_independent
    hs.acyclic hs.mirror.closed twoTargets_fixable fun _ => dpll_exact

/-- The targets must differ, and both get the same on-set. -/
theorem getDCMulti_misses : (∀ p, ∃ b, RightOn (ofNodes twoTargets) (ofNodes inputAndNegation) [1, 2]
      [0] b p) ∧
    ∃ fuel st, solveMulti (multiCnf netlistOf (ofNodes twoTargets) [1, 2] [0])
        (multiSpecCnf (netlistAlso (ofNodes inputAndNegation) (ofNodes twoTargets) [1, 2] [0])
          (ofNodes twoTargets) (ofNodes inputAndNegation) [1, 2] [0])
        (ofNodes twoTargets) [1, 2] [0] (fun _ => dpllSolve) fuel = some st ∧
      ¬Repairs (ofNodes twoTargets) (ofNodes inputAndNegation) [1, 2] [0] st.in2cases := by
  have ho : Ordered twoTargets := by decide
  have hs : Ordered inputAndNegation := by decide
  have hP := twoTargets_problem
  obtain ⟨fuel, st, found, hst, he, -, hmem⟩ := solveMulti_spec
    (hP.setting ho.acyclic ho.mirror.closed twoTargets_independent) fun _ => dpll_exact
  simp only [foundMulti_iff hP ho.acyclic ho.mirror.closed twoTargets_independent hs.acyclic
    hs.mirror.closed] at hmem
  refine ⟨twoTargets_fixable, fuel, st, hst, fun hR => ?_⟩
  rw [he, repairs_iff hP ho.acyclic ho.mirror.closed twoTargets_independent hs.acyclic
    hs.mirror.closed twoTargets_fixable hmem] at hR
  rcases hR (OrdMap.tabulate [0] fun _ => true) with h | h
  · exact twoTargets_differ false h
  · exact twoTargets_differ true h

end Msyn.DC
