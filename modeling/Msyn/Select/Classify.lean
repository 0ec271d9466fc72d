import Msyn.Select.OnSet
import Msyn.Select.SolveNew

/-!
# What solve_new classifies

The target `Works` at a value under an assignment if the outputs are then those of the
specification. On the CNFs of the circuits the phases of `solve_new` find the patterns of the
assignments under which it works as the controls say (`found_iff`), so that the lists are disjoint
and each pattern is in the list of the values that it needs (`solveNew_classifies`).
-/

namespace Msyn.DC

open Nodecircuit Circuit Cnf CNFgen Glucose GInterface MergeSelection

/-- With the target at `b` the outputs are those of the specification. -/
def Works (c specC : Circuit) (t : NodeId) (b : Bool) (x : String → Bool) : Prop :=
  ∃ v w, c.Valuation [t] x v ∧ v t = b ∧ specC.Valuation [] x w ∧ Agree c specC v w

/-- The pattern of the signals under an assignment. -/
def HasPattern (c : Circuit) (t : NodeId) (signals : List NodeId) (x : String → Bool)
    (p : Pattern) : Prop :=
  ∃ v, c.Valuation [t] x v ∧ p = OrdMap.tabulate signals v

/-- The lists hold, without duplicates, the patterns for which the target must be 0, must be 1 and
may be either. -/
structure ByValue (c specC : Circuit) (t : NodeId) (signals : List NodeId) (r : NewCases) : Prop where
  nodup1 : r.in1cases.Nodup
  nodup2 : r.in2cases.Nodup
  nodupDC : r.dccases.Nodup
  disjoint12 : r.in1cases.Disjoint r.in2cases
  disjoint1DC : r.in1cases.Disjoint r.dccases
  disjoint2DC : r.in2cases.Disjoint r.dccases
  mem1 : ∀ p, p ∈ r.in1cases ↔
    (∃ x, HasPattern c t signals x p ∧ Works c specC t false x ∧ ¬Works c specC t true x) ∧
    ∀ x, HasPattern c t signals x p →
      ¬(¬Works c specC t false x ∧ ¬Works c specC t true x) ∧
      ¬(¬Works c specC t false x ∧ Works c specC t true x)
  mem2 : ∀ p, p ∈ r.in2cases ↔
    (∃ x, HasPattern c t signals x p ∧ ¬Works c specC t false x ∧ Works c specC t true x) ∧
    ∀ x, HasPattern c t signals x p →
      ¬(¬Works c specC t false x ∧ ¬Works c specC t true x) ∧
      ¬(Works c specC t false x ∧ ¬Works c specC t true x)
  memDC : ∀ p, p ∈ r.dccases ↔ (∃ x, HasPattern c t signals x p) ∧
    ∀ x, HasPattern c t signals x p → Works c specC t false x ∧ Works c specC t true x

theorem not_exists_and_iff {α : Type*} {p a b : α → Prop} :
    (¬(∃ x, p x ∧ a x) ∧ ¬∃ x, p x ∧ b x) ↔ ∀ x, p x → ¬a x ∧ ¬b x := by
  constructor
  · intro h x hx
    exact ⟨fun ha => h.1 ⟨x, hx, ha⟩, fun hb => h.2 ⟨x, hx, hb⟩⟩
  · intro h
    exact ⟨fun ⟨x, hx, ha⟩ => (h x hx).1 ha, fun ⟨x, hx, hb⟩ => (h x hx).2 hb⟩

section
variable {abc : Circuit → List NodeId → List NodeId → Netlist} {c specC : Circuit} {t : NodeId}
  {candInputs signals : List NodeId} (h : Problem abc c specC t candInputs) (hac : c.IsAcyclic)
  (hcl : c.Closed) (hacS : specC.IsAcyclic) (hclS : specC.Closed)
include h hac hcl hacS hclS

/-- The valuations of an assignment tell whether the target works. -/
theorem works_iff {b : Bool} {x : String → Bool} {v w : NodeId → Bool} (hv : c.Valuation [t] x v)
    (ht : v t = b) (hw : specC.Valuation [] x w) : Works c specC t b x ↔ Agree c specC v w := by
  refine ⟨fun ⟨v', w', hv', ht', hw', hag⟩ po hpo qo hqo he => ?_, fun hag => ⟨v, w, hv, ht, hw, hag⟩⟩
  have h1 := hv.unique hac hcl hv' (fun a ha => by rw [List.mem_singleton.1 ha, ht, ht']) po
    (h.ports.outputs po hpo).1
  have h2 := hw.unique hacS hclS hw' (fun a ha => absurd ha List.not_mem_nil) qo
    (h.portsSpec.outputs qo hqo).1
  rw [h1, h2]
  exact hag po hpo qo hqo he

/-- **What a phase finds**, for the circuits. -/
theorem found_iff (hsig : ∀ sig ∈ signals, sig ∈ candInputs) (hind : Independent c t signals)
    (b1 b2 : Bool) {p : Pattern} :
    Found (implCnf abc c t candInputs) (specCnf abc specC) c t signals b1 b2 p ↔
      ∃ x, HasPattern c t signals x p ∧ (b1 = true ↔ Works c specC t false x) ∧
        (b2 = true ↔ Works c specC t true x) := by
  constructor
  · rintro ⟨m1, m2, s, hc, hb1, hb2, rfl⟩
    obtain ⟨x, w, hw, hsw⟩ := h.encodesSpec.sound s hc.satS
    obtain ⟨v1, hv1, hm1⟩ := Problem.valuation_of_model h hw hsw hc.sat1 fun pi hpi =>
      (hc.inputs pi hpi).2
    obtain ⟨v2, hv2, hm2⟩ := Problem.valuation_of_model h hw hsw hc.sat2 fun pi hpi =>
      (hc.inputs pi hpi).1.symm.trans (hc.inputs pi hpi).2
    have ht1 : v1 t = false := (hm1 t (by simp)).symm.trans hc.target1
    have ht2 : v2 t = true := (hm2 t (by simp)).symm.trans hc.target2
    refine ⟨x, ⟨v1, hv1, OrdMap.tabulate_inj.2 fun sig hs => hm1 sig (by simp [hsig sig hs])⟩, ?_, ?_⟩
    · rw [hb1, works_iff h hac hcl hacS hclS hv1 ht1 hw]
      exact (Problem.ports_iff h hv1 hw hm1 hsw).2
    · rw [hb2, works_iff h hac hcl hacS hclS hv2 ht2 hw]
      exact (Problem.ports_iff h hv2 hw hm2 hsw).2
  · rintro ⟨x, ⟨v, hv, rfl⟩, hb1, hb2⟩
    obtain ⟨v1, hv1, ht1⟩ := exists_valuation hac hcl [t] x fun _ => false
    obtain ⟨v2, hv2, ht2⟩ := exists_valuation hac hcl [t] x fun _ => true
    obtain ⟨w, hw, -⟩ := exists_valuation hacS hclS [] x fun _ => false
    have ht1 : v1 t = false := ht1 t (by simp)
    have ht2 : v2 t = true := ht2 t (by simp)
    obtain ⟨m1, k1, hm1⟩ := h.encodes.complete x v1 hv1
    obtain ⟨m2, k2, hm2⟩ := h.encodes.complete x v2 hv2
    obtain ⟨s, ks, hsw⟩ := h.encodesSpec.complete x w hw
    have hm1 : Reads abc c t candInputs m1 v1 := hm1
    have hm2 : Reads abc c t candInputs m2 v2 := hm2
    obtain ⟨hin1, hout1⟩ := Problem.ports_iff h hv1 hw hm1 hsw
    obtain ⟨hin2, hout2⟩ := Problem.ports_iff h hv2 hw hm2 hsw
    rw [works_iff h hac hcl hacS hclS hv1 ht1 hw, ← hout1] at hb1
    rw [works_iff h hac hcl hacS hclS hv2 ht2 hw, ← hout2] at hb2
    refine ⟨m1, m2, s, ⟨k1, k2, ks, (hm1 t (by simp)).trans ht1, (hm2 t (by simp)).trans ht2,
      fun pi hpi => ⟨(hin1 pi hpi).trans (hin2 pi hpi).symm, hin1 pi hpi⟩⟩, hb1, hb2, ?_⟩
    refine OrdMap.tabulate_inj.2 fun sig hs => ?_
    rw [hm1 sig (by simp [hsig sig hs])]
    exact hind x v v1 hv hv1 sig hs

theorem Problem.settingNew (hsig : ∀ sig ∈ signals, sig ∈ candInputs)
    (hind : Independent c t signals) :
    SettingNew (implCnf abc c t candInputs) (specCnf abc specC) c t signals where
  toSetting := Problem.setting h hac hcl hsig hind
  detSpec s s' hs hs' hin po hpo := by
    obtain ⟨x, w, hw, hsw⟩ := h.encodesSpec.sound s hs
    obtain ⟨x', w', hw', hsw'⟩ := h.encodesSpec.sound s' hs'
    have hx : ∀ n ∈ specC.allNodes, n ∉ ([] : List NodeId) → (specC.node n).isInput = true →
        x' (specC.node n).name = x (specC.node n).name := by
      intro n hn hf hi
      have hn' := (h.portsSpec.inputs n).2 ⟨hn, hi⟩
      obtain ⟨pi, hpi, he⟩ := h.interface.inputs' n hn'
      have := hin pi hpi
      rw [varOf_spec he.symm, hsw n (by simp [hn']), hsw' n (by simp [hn']),
        hw.input h.portsSpec hn' hf, hw'.input h.portsSpec hn' hf] at this
      exact this.symm
    obtain ⟨qo, hqo, he⟩ := h.interface.outputs po hpo
    rw [varOf_spec he, hsw qo (by simp [hqo]), hsw' qo (by simp [hqo])]
    exact hw.unique hacS hclS (valuation_congr hx hw') (fun a ha => absurd ha List.not_mem_nil) qo
      (h.portsSpec.outputs qo hqo).1
  models := by
    obtain ⟨v, hv, -⟩ := exists_valuation hac hcl [t] (fun _ => false) fun _ => false
    have hF : ∀ b1 b2 : Bool, (b1 = true ↔ Works c specC t false fun _ => false) →
        (b2 = true ↔ Works c specC t true fun _ => false) →
        ∃ m1 m2 s, Copies (implCnf abc c t candInputs) (specCnf abc specC) c t m1 m2 s := by
      intro b1 b2 hb1 hb2
      obtain ⟨m1, m2, s, hc, -⟩ := (found_iff h hac hcl hacS hclS hsig hind b1
        b2).2 ⟨fun _ => false, ⟨v, hv, rfl⟩, hb1, hb2⟩
      exact ⟨m1, m2, s, hc⟩
    classical
    exact hF (decide (Works c specC t false fun _ => false))
      (decide (Works c specC t true fun _ => false)) decide_eq_true_iff decide_eq_true_iff

/-- **`solve_new` classifies the patterns** by the values of the target that work. -/
theorem solveNew_classifies (hsig : ∀ sig ∈ signals, sig ∈ candInputs)
    (hind : Independent c t signals) {solve : Nat → Solve} (hex : ∀ i, Exact (solve i)) :
    ∃ fuel r, solveNew (implCnf abc c t candInputs) (specCnf abc specC) c t signals solve fuel =
      some r ∧ ByValue c specC t signals r := by
  obtain ⟨fuel, r, hr, hc⟩ := solveNew_classified (Problem.settingNew h hac hcl hacS hclS hsig hind) hex
  obtain ⟨n1, n2, n3, m1, m2, m3⟩ := hc
  simp only [found_iff h hac hcl hacS hclS hsig hind, Bool.false_eq_true, false_iff, true_iff] at m1 m2 m3
  refine ⟨fuel, r, hr, n1, n2, n3, fun p h1 h2 => ?_, fun p h1 h3 => ?_, fun p h2 h3 => ?_,
    fun p => ?_, fun p => ?_, fun p => ?_⟩
  · exact ((m1 p).1 h1).2.2 ((m2 p).1 h2).1
  · exact ((m3 p).1 h3).2.2.1 ((m1 p).1 h1).1
  · exact ((m3 p).1 h3).2.2.2 ((m2 p).1 h2).1
  · rw [m1, not_exists_and_iff]
  · rw [m2, not_exists_and_iff]
  · rw [m3]
    constructor
    · rintro ⟨⟨x, hx, -⟩, h1, h2, h3⟩
      refine ⟨⟨x, hx⟩, fun y hy => ?_⟩
      by_cases w0 : Works c specC t false y
      · by_cases w1 : Works c specC t true y
        · exact ⟨w0, w1⟩
        · exact absurd ⟨y, hy, w0, w1⟩ h2
      · by_cases w1 : Works c specC t true y
        · exact absurd ⟨y, hy, w0, w1⟩ h3
        · exact absurd ⟨y, hy, w0, w1⟩ h1
    · rintro ⟨⟨x, hx⟩, hall⟩
      refine ⟨⟨x, hx, hall x hx⟩, ?_, ?_, ?_⟩
      · exact fun ⟨y, hy, hn, _⟩ => hn (hall y hy).1
      · exact fun ⟨y, hy, _, hn⟩ => hn (hall y hy).2
      · exact fun ⟨y, hy, hn, _⟩ => hn (hall y hy).1

end

/-- One signal, which the specification passes to the target. -/
theorem solveNew_classifies_buffer :
    ∃ fuel r, solveNew (implCnf netlistOf (ofNodes (openTarget 1)) 1 (List.range 1))
        (specCnf netlistOf (ofNodes (firstInput 1))) (ofNodes (openTarget 1)) 1 (List.range 1)
        (fun _ => dpllSolve) fuel = some r ∧
      ByValue (ofNodes (openTarget 1)) (ofNodes (firstInput 1)) 1 (List.range 1) r := by
  have ho : Ordered (openTarget 1) := by decide
  have hs : Ordered (firstInput 1) := by decide
  have hi : Interface (ofNodes (openTarget 1)) (ofNodes (firstInput 1)) := by
    constructor <;> decide
  exact solveNew_classifies (openTarget_problem ho hs hi (by decide) (by decide)) ho.acyclic
    ho.mirror.closed hs.acyclic hs.mirror.closed (fun _ => id) openTarget_independent
    fun _ => dpll_exact

end Msyn.DC
