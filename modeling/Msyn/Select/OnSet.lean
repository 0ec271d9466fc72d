import Msyn.Circuit.Numbered
import Msyn.Select.Enumeration

/-!
# The on-set of a node of a circuit

On the CNFs of the circuits, what `getDC::solve` enumerates are the `Required` patterns: those that
the signals have under an assignment where the target must have the value. The enumeration ends with
all of them exactly if the circuit is `Repairable` at the target and no two required patterns agree
on the last 32 signals (`getDC_complete_iff`).
-/

namespace Msyn.DC

open Nodecircuit Circuit Cnf CNFgen Glucose GInterface MergeSelection Relation

/-- The pattern occurs under an assignment where the target must be `b`. -/
def Required (c specC : Circuit) (t : NodeId) (signals : List NodeId) (b : Bool) (p : Pattern) : Prop :=
  ∃ x v v' w, MustBe c specC t b x v v' w ∧ p = OrdMap.tabulate signals v

/-- Where the outputs depend on the target, some value of it gives those of the specification. -/
def Repairable (c specC : Circuit) (t : NodeId) : Prop :=
  ∀ x v v', c.Valuation [t] x v → c.Valuation [t] x v' → (∃ po ∈ c.outputs, v po ≠ v' po) →
    ∃ v'' w, c.Valuation [t] x v'' ∧ specC.Valuation [] x w ∧ Agree c specC v'' w

/-- No two required patterns agree on the last 32 signals. -/
def Separable (c specC : Circuit) (t : NodeId) (signals : List NodeId) : Prop :=
  ∀ b b' p q, Required c specC t signals b p → Required c specC t signals b' q →
    (∀ sig ∈ signals.drop (signals.length - 32), p.at sig = q.at sig) → p = q

section
variable {abc : Circuit → List NodeId → List NodeId → Netlist} {c specC : Circuit} {t : NodeId}
  {candInputs signals : List NodeId} (h : Problem abc c specC t candInputs)
include h

/-- Two models with the same primary inputs are two valuations under one assignment. -/
theorem Problem.valuations {m m' : Model} (hm : Sat m (implCnf abc c t candInputs).cnf)
    (hm' : Sat m' (implCnf abc c t candInputs).cnf)
    (hin : ∀ pi ∈ c.inputs, m (varOf c (implCnf abc c t candInputs) pi) =
      m' (varOf c (implCnf abc c t candInputs) pi)) :
    ∃ x v v', c.Valuation [t] x v ∧ c.Valuation [t] x v' ∧
      Reads abc c t candInputs m v ∧ Reads abc c t candInputs m' v' :=
  h.coupled.valuations hm hm' hin

theorem Problem.setting (hac : c.IsAcyclic) (hcl : c.Closed) (hsig : ∀ sig ∈ signals, sig ∈ candInputs)
    (hind : Independent c t signals) :
    Setting (implCnf abc c t candInputs) (specCnf abc specC) c t signals where
  below := h.encodes.below
  belowSpec := h.encodesSpec.below
  known n hn := by
    have hn' : n ∈ c.inputs ++ c.outputs ++ [t] ++ candInputs := by
      rcases List.mem_append.1 hn with hn | hn
      · exact List.mem_append_left _ hn
      · exact List.mem_append_right _ (hsig n hn)
    exact ⟨h.encodes.known n hn', h.encodes.pointer n hn'⟩
  knownSpec n hn := by
    obtain ⟨q, hq, he⟩ := h.knownSpec (List.mem_append.1 hn)
    exact he ▸ h.encodesSpec.known q hq
  det m m' hm hm' hin ht po hpo := by
    obtain ⟨x, v, v', hv, hv', hmv, hmv'⟩ := Problem.valuations h hm hm' hin
    rw [hmv po (by simp [hpo]), hmv' po (by simp [hpo])]
    refine hv.unique hac hcl hv' (fun a ha => ?_) po (h.ports.outputs po hpo).1
    rw [List.mem_singleton.1 ha, ← hmv t (by simp), ← hmv' t (by simp)]
    exact ht
  free m m' hm hm' hin sig hs := by
    obtain ⟨x, v, v', hv, hv', hmv, hmv'⟩ := Problem.valuations h hm hm' hin
    have hmem := hsig sig hs
    rw [hmv sig (by simp [hmem]), hmv' sig (by simp [hmem])]
    exact hind x v v' hv hv' sig hs

theorem needed_iff (hsig : ∀ sig ∈ signals, sig ∈ candInputs) {b : Bool} {p : Pattern} :
    Needed (implCnf abc c t candInputs) (specCnf abc specC) c t signals b p ↔
      Required c specC t signals b p := by
  constructor
  · rintro ⟨m, m', s, hm, rfl⟩
    obtain ⟨x, v, v', w, hb, hmv, -⟩ := mustBe_of_must h hm
    exact ⟨x, v, v', w, hb, OrdMap.tabulate_inj.2 fun sig hs => hmv sig (by simp [hsig sig hs])⟩
  · rintro ⟨x, v, v', w, hb, rfl⟩
    obtain ⟨m, m', s, hm, hmv, -⟩ := must_of_mustBe h hb
    exact ⟨m, m', s, hm, OrdMap.tabulate_inj.2 fun sig hs => (hmv sig (by simp [hsig sig hs])).symm⟩

theorem coded_iff (hsig : ∀ sig ∈ signals, sig ∈ candInputs) :
    Coded (implCnf abc c t candInputs) (specCnf abc specC) c t signals ↔
      Separable c specC t signals := by
  simp only [Coded, Separable, needed_iff h hsig]

/-- Two valuations with different outputs differ at the target. -/
theorem Problem.target_ne (hac : c.IsAcyclic) (hcl : c.Closed) {x : String → Bool}
    {v v' : NodeId → Bool} (hv : c.Valuation [t] x v) (hv' : c.Valuation [t] x v') {po : NodeId}
    (hpo : po ∈ c.outputs) (hne : v po ≠ v' po) : v' t = !v t := by
  by_contra ht
  have ht : v t = v' t := by revert ht; cases v t <;> cases v' t <;> simp
  refine hne (hv.unique hac hcl hv' (fun a ha => ?_) po (h.ports.outputs po hpo).1)
  rw [List.mem_singleton.1 ha, ht]

theorem fixable_iff (hac : c.IsAcyclic) (hcl : c.Closed) :
    Fixable (implCnf abc c t candInputs) (specCnf abc specC) c t ↔ Repairable c specC t := by
  constructor
  · intro hf
    -- the valuation with the target at 1 first
    have key : ∀ x v v', c.Valuation [t] x v → c.Valuation [t] x v' → v t = true →
        (∃ po ∈ c.outputs, v po ≠ v' po) →
        ∃ v'' w, c.Valuation [t] x v'' ∧ specC.Valuation [] x w ∧ Agree c specC v'' w := by
      rintro x v v' hv hv' ht ⟨po, hpo, hne⟩
      have ht' := Problem.target_ne h hac hcl hv hv' hpo hne
      obtain ⟨m1, hm1, hmv⟩ := h.encodes.complete x v hv
      obtain ⟨m0, hm0, hmv'⟩ := h.encodes.complete x v' hv'
      have hmv : Reads abc c t candInputs m1 v := hmv
      have hmv' : Reads abc c t candInputs m0 v' := hmv'
      obtain ⟨m, s, hmatch, hin⟩ := hf m1 m0 ⟨hm1, hm0, by rw [hmv t (by simp), ht],
        by rw [hmv' t (by simp), ht', ht]; rfl, fun pi hpi => by
          rw [hmv pi (by simp [hpi]), hmv' pi (by simp [hpi]),
            hv.input h.ports hpi (h.not_target hpi), hv'.input h.ports hpi (h.not_target hpi)],
        po, hpo, by rw [hmv po (by simp [hpo]), hmv' po (by simp [hpo])]; exact hne⟩
      obtain ⟨x', w, hw, hsw⟩ := h.encodesSpec.sound s hmatch.satS
      obtain ⟨v'', hv'', hmv''⟩ :=
        Problem.valuation_of_model h hw hsw hmatch.sat hmatch.inputs
      have hag := (Problem.ports_iff h hv'' hw hmv'' hsw).2.1 hmatch.outputs
      have hx : ∀ pi ∈ c.inputs, x' (c.node pi).name = x (c.node pi).name := by
        intro pi hpi
        have := hin pi hpi
        rwa [hmv'' pi (by simp [hpi]), hmv pi (by simp [hpi]),
          hv''.input h.ports hpi (h.not_target hpi), hv.input h.ports hpi (h.not_target hpi)] at this
      refine ⟨v'', w, valuation_congr (fun n hn _ hi => hx n ((h.ports.inputs n).2 ⟨hn, hi⟩)) hv'',
        valuation_congr (fun n hn _ hi => ?_) hw, hag⟩
      obtain ⟨pi, hpi, he⟩ := h.interface.inputs' n ((h.portsSpec.inputs n).2 ⟨hn, hi⟩)
      rw [← he]
      exact hx pi hpi
    rintro x v v' hv hv' ⟨po, hpo, hne⟩
    cases ht : v t with
    | true => exact key x v v' hv hv' ht ⟨po, hpo, hne⟩
    | false =>
      have ht' := Problem.target_ne h hac hcl hv hv' hpo hne
      exact key x v' v hv' hv (by rw [ht', ht]; rfl) ⟨po, hpo, hne.symm⟩
  · intro hr m1 m0 hd
    obtain ⟨x, v, v', hv, hv', hmv, hmv'⟩ := Problem.valuations h hd.sat1 hd.sat0 hd.inputs
    obtain ⟨po, hpo, hne⟩ := hd.outputs
    rw [hmv po (by simp [hpo]), hmv' po (by simp [hpo])] at hne
    obtain ⟨v'', w, hv'', hw, hag⟩ := hr x v v' hv hv' ⟨po, hpo, hne⟩
    obtain ⟨m, hm, hmv''⟩ := h.encodes.complete x v'' hv''
    obtain ⟨s, hs, hsw⟩ := h.encodesSpec.complete x w hw
    have hmv'' : Reads abc c t candInputs m v'' := hmv''
    obtain ⟨hin, hout⟩ := Problem.ports_iff h hv'' hw hmv'' hsw
    refine ⟨m, s, ⟨hm, hs, hin, hout.2 hag⟩, fun pi hpi => ?_⟩
    rw [hmv'' pi (by simp [hpi]), hmv pi (by simp [hpi]),
      hv''.input h.ports hpi (h.not_target hpi), hv.input h.ports hpi (h.not_target hpi)]

/-- **`getDC::solve` ends with precisely the required patterns**, whatever models the solvers pick,
exactly if the circuit is repairable and no two required patterns agree on the last 32 signals. -/
theorem getDC_complete_iff (hac : c.IsAcyclic) (hcl : c.Closed)
    (hsig : ∀ sig ∈ signals, sig ∈ candInputs) (hind : Independent c t signals)
    (hcons : ∀ p, ¬(Required c specC t signals false p ∧ Required c specC t signals true p)) :
    (∀ solver solverCheck : Nat → Solve, (∀ i, Exact (solver i)) → (∀ i, Exact (solverCheck i)) →
      ∃ fuel st, solve (implCnf abc c t candInputs) (specCnf abc specC) c t signals solver solverCheck
          (fun _ => false) fuel = some (some st) ∧ st.in1cases.Nodup ∧ st.in2cases.Nodup ∧
        (∀ p, p ∈ st.in1cases ↔ Required c specC t signals false p) ∧
        ∀ p, p ∈ st.in2cases ↔ Required c specC t signals true p) ↔
    Repairable c specC t ∧ Separable c specC t signals := by
  have hS := Problem.setting h hac hcl hsig hind
  rw [← fixable_iff h hac hcl, ← coded_iff h hsig, ← solve_complete_iff hS fun p hp =>
    hcons p ⟨(needed_iff h hsig).1 hp.1, (needed_iff h hsig).1 hp.2⟩]
  refine forall₂_congr fun solver solverCheck => forall₂_congr fun _ _ => exists₂_congr fun fuel st =>
    and_congr_right fun _ => ?_
  simp only [← needed_iff h hsig]
  exact ⟨fun ⟨h1, h2, h3, h4⟩ => ⟨h1, h2, h3, h4⟩, fun h => ⟨h.nodup1, h.nodup2, h.mem1, h.mem2⟩⟩

end

/-! ## Patterns of 33 signals -/

/-- `n` inputs, the first with the fanouts `outs`, and the node `t`. -/
def inputsAnd (n : Nat) (outs : List NodeId) (t : Node) : List Node :=
  ((List.range n).map fun i =>
    { name := String.ofList (List.replicate (i + 1) 'p')
      isInput := true
      outputs := if i = 0 then outs else [] }) ++ [t]

/-- The target is the only output. -/
abbrev openTarget (n : Nat) : List Node := inputsAnd n [] { name := "t", isOutput := true }

/-- The output is the first input. -/
abbrev firstInput (n : Nat) : List Node :=
  inputsAnd n [n] { name := "t", cube := "1 1\n", inputs := [0], isOutput := true }

section
variable {n : Nat} {outs : List NodeId} {t : Node}

theorem inputsAnd_input {i : Nat} (hi : i < n) :
    i ∈ (ofNodes (inputsAnd n outs t)).allNodes ∧
      ((ofNodes (inputsAnd n outs t)).node i).isInput = true ∧
      ((ofNodes (inputsAnd n outs t)).node i).name = String.ofList (List.replicate (i + 1) 'p') := by
  refine ⟨List.mem_range.2 (by simp [inputsAnd]; omega), ?_, ?_⟩ <;>
    simp [ofNodes, inputsAnd, List.getElem?_append_left, hi]

theorem inputsAnd_last : n ∈ (ofNodes (inputsAnd n outs t)).allNodes ∧
    (ofNodes (inputsAnd n outs t)).node n = t ∧
    (t.isOutput = true → n ∈ (ofNodes (inputsAnd n outs t)).outputs) := by
  have hn : (ofNodes (inputsAnd n outs t)).node n = t := by simp [ofNodes, inputsAnd]
  have hm : n ∈ (ofNodes (inputsAnd n outs t)).allNodes :=
    List.mem_range.2 (by simp [inputsAnd])
  exact ⟨hm, hn, fun h => List.mem_filter.2 ⟨hm, (congrArg Node.isOutput hn).trans h⟩⟩

/-- The value of an input. -/
theorem inputsAnd_value {free : List NodeId} {x : String → Bool} {v : NodeId → Bool}
    (hv : (ofNodes (inputsAnd n outs t)).Valuation free x v) {i : NodeId} (hi : i < n)
    (hf : i ∉ free) : v i = x (String.ofList (List.replicate (i + 1) 'p')) := by
  obtain ⟨h1, h2, h3⟩ := inputsAnd_input (t := t) hi
  rw [hv i h1 hf, eval, if_pos h2, h3]

theorem openTarget_independent :
    Independent (ofNodes (openTarget n)) n (List.range n) := fun x v v' hv hv' sig hsig => by
  have hlt := List.mem_range.1 hsig
  have hf : sig ∉ [n] := by simpa using hlt.ne
  rw [inputsAnd_value hv hlt hf, inputsAnd_value hv' hlt hf]

/-- A required pattern has the value of the target at the first input. -/
theorem required_first (hn : 0 < n) {b : Bool} {p : Pattern}
    (h : Required (ofNodes (openTarget n)) (ofNodes (firstInput n)) n (List.range n) b p) :
    p.at 0 = b := by
  obtain ⟨x, v, v', w, hb, rfl⟩ := h
  obtain ⟨-, ht, hto⟩ := inputsAnd_last (n := n) (t := { name := "t", isOutput := true })
  obtain ⟨hm, hs, hso⟩ := inputsAnd_last (n := n)
    (t := { name := "t", cube := "1 1\n", inputs := [0], isOutput := true })
  have hw : w n = w 0 := by
    rw [hb.valSpec n hm (by simp), eval, hs]
    cases h0 : w 0 <;> simp [h0] <;> decide
  rw [Pattern.at_tabulate (List.mem_range.2 hn), inputsAnd_value hb.val hn (by simpa using hn.ne),
    ← inputsAnd_value hb.valSpec hn (by simp), ← hw, ← hb.target]
  exact (hb.agree n (hto rfl) n (hso rfl) (by rw [hs, ht])).symm

theorem openTarget_problem (ho : Ordered (openTarget n)) (hs : Ordered (firstInput n))
    (hi : Interface (ofNodes (openTarget n)) (ofNodes (firstInput n)))
    (hd : (netlistOf (ofNodes (openTarget n)) [n] (List.range n)).Simple)
    (hd' : (netlistOf (ofNodes (firstInput n)) [] []).Simple) :
    Problem netlistOf (ofNodes (openTarget n)) (ofNodes (firstInput n)) n (List.range n) where
  ports := ho.ports
  portsSpec := hs.ports
  interface := hi
  target := inputsAnd_last.1
  notInput := by rw [inputsAnd_last.2.1]
  cands sig hsig := (inputsAnd_input (List.mem_range.1 hsig)).1
  delivers := netlistOf_delivers ho.ports ho.mirror.closed hd fun i hi => by
    rcases List.mem_append.1 hi with hi | hi
    · exact List.mem_singleton.1 hi ▸ inputsAnd_last.1
    · exact (inputsAnd_input (List.mem_range.1 hi)).1
  deliversSpec := netlistOf_delivers hs.ports hs.mirror.closed hd' (by simp)

theorem openTarget_consistent (hn : 0 < n) (p : Pattern) :
    ¬(Required (ofNodes (openTarget n)) (ofNodes (firstInput n)) n (List.range n) false p ∧
      Required (ofNodes (openTarget n)) (ofNodes (firstInput n)) n (List.range n) true p) :=
  fun ⟨h0, h1⟩ => Bool.false_ne_true ((required_first hn h0).symm.trans (required_first hn h1))

end

/-- The patterns `0…0` and `10…0` of 33 signals have one code, so that one of them is not recorded. -/
theorem getDC_codes_collide :
    Problem netlistOf (ofNodes (openTarget 33)) (ofNodes (firstInput 33)) 33 (List.range 33) ∧
    (ofNodes (openTarget 33)).IsAcyclic ∧
    Independent (ofNodes (openTarget 33)) 33 (List.range 33) ∧
    (∀ p, ¬(Required (ofNodes (openTarget 33)) (ofNodes (firstInput 33)) 33 (List.range 33) false p ∧
      Required (ofNodes (openTarget 33)) (ofNodes (firstInput 33)) 33 (List.range 33) true p)) ∧
    ¬∀ solver solverCheck : Nat → Solve, (∀ i, Exact (solver i)) → (∀ i, Exact (solverCheck i)) →
      ∃ fuel st, solve (implCnf netlistOf (ofNodes (openTarget 33)) 33 (List.range 33))
          (specCnf netlistOf (ofNodes (firstInput 33))) (ofNodes (openTarget 33)) 33 (List.range 33)
          solver solverCheck (fun _ => false) fuel = some (some st) ∧
        st.in1cases.Nodup ∧ st.in2cases.Nodup ∧
        (∀ p, p ∈ st.in1cases ↔ Required (ofNodes (openTarget 33)) (ofNodes (firstInput 33)) 33
          (List.range 33) false p) ∧
        ∀ p, p ∈ st.in2cases ↔ Required (ofNodes (openTarget 33)) (ofNodes (firstInput 33)) 33
          (List.range 33) true p := by
  have ho : Ordered (openTarget 33) := by decide +kernel
  have hi : Interface (ofNodes (openTarget 33)) (ofNodes (firstInput 33)) := by
    constructor <;> decide +kernel
  have hP := openTarget_problem ho (by decide +kernel) hi (by decide +kernel) (by decide +kernel)
  have hsub : ∀ sig ∈ List.range 33, sig ∈ List.range 33 := fun _ => id
  have hcons := openTarget_consistent (n := 33) (by decide)
  refine ⟨hP, ho.acyclic, openTarget_independent, hcons, fun hall => ?_⟩
  have hS := Problem.setting hP ho.acyclic ho.mirror.closed hsub openTarget_independent
  -- the target must be 0 if all inputs are 0, and 1 if only the first is 1
  have h0 : Required (ofNodes (openTarget 33)) (ofNodes (firstInput 33)) 33 (List.range 33) false
      (OrdMap.tabulate (List.range 33) fun _ => false) :=
    ⟨fun _ => false, fun _ => false, fun i => decide (i = 33), fun _ => false,
      ⟨by decide +kernel, by decide +kernel, by decide +kernel, rfl, rfl,
        by decide +kernel, by decide +kernel⟩, rfl⟩
  have h1 : Required (ofNodes (openTarget 33)) (ofNodes (firstInput 33)) 33 (List.range 33) true
      (OrdMap.tabulate (List.range 33) fun i => decide (i = 0 ∨ i = 33)) :=
    ⟨fun s => decide (s = "p"), fun i => decide (i = 0 ∨ i = 33), fun i => decide (i = 0),
      fun i => decide (i = 0 ∨ i = 33),
      ⟨by decide +kernel, by decide +kernel, by decide +kernel, rfl, rfl,
        by decide +kernel, by decide +kernel⟩, rfl⟩
  obtain ⟨-, hcoded⟩ := (solve_complete_iff hS fun p hp =>
    hcons p ⟨(needed_iff hP hsub).1 hp.1, (needed_iff hP hsub).1 hp.2⟩).1 fun solver check hs hc => by
      obtain ⟨fuel, st, h, h2, h3, h4, h5⟩ := hall solver check hs hc
      exact ⟨fuel, st, h, h2, h3, fun p => (h4 p).trans (needed_iff hP hsub).symm,
        fun p => (h5 p).trans (needed_iff hP hsub).symm⟩
  have heq := (coded_iff hP hsub).1 hcoded _ _ _ _ h0 h1 fun sig hsig => by
    have hmem : sig ∈ List.range 33 := List.mem_of_mem_drop hsig
    rw [Pattern.at_tabulate hmem, Pattern.at_tabulate hmem]
    have hr : ∀ sig ∈ (List.range 33).drop ((List.range 33).length - 32),
        decide (sig = 0 ∨ sig = 33) = false := by decide
    exact (hr sig hsig).symm
  exact Bool.false_ne_true (OrdMap.tabulate_inj.1 heq 0 (by decide))

/-- One signal. -/
theorem getDC_complete_iff_buffer :
    (∀ solver solverCheck : Nat → Solve, (∀ i, Exact (solver i)) → (∀ i, Exact (solverCheck i)) →
      ∃ fuel st, solve (implCnf netlistOf (ofNodes (openTarget 1)) 1 (List.range 1))
          (specCnf netlistOf (ofNodes (firstInput 1))) (ofNodes (openTarget 1)) 1 (List.range 1)
          solver solverCheck (fun _ => false) fuel = some (some st) ∧
        st.in1cases.Nodup ∧ st.in2cases.Nodup ∧
        (∀ p, p ∈ st.in1cases ↔ Required (ofNodes (openTarget 1)) (ofNodes (firstInput 1)) 1
          (List.range 1) false p) ∧
        ∀ p, p ∈ st.in2cases ↔ Required (ofNodes (openTarget 1)) (ofNodes (firstInput 1)) 1
          (List.range 1) true p) ↔
    Repairable (ofNodes (openTarget 1)) (ofNodes (firstInput 1)) 1 ∧
      Separable (ofNodes (openTarget 1)) (ofNodes (firstInput 1)) 1 (List.range 1) := by
  have ho : Ordered (openTarget 1) := by decide
  have hi : Interface (ofNodes (openTarget 1)) (ofNodes (firstInput 1)) := by
    constructor <;> decide
  exact getDC_complete_iff (openTarget_problem ho (by decide) hi (by decide) (by decide)) ho.acyclic
    ho.mirror.closed (fun _ => id) openTarget_independent (openTarget_consistent (by decide))

end Msyn.DC
