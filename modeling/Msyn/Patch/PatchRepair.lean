import Msyn.Patch.PatchBlif
import Msyn.Select.SolveAdditional

/-!
# The patch repairs the circuit

From the patterns that `getDC::solve` leaves, a list is made for a target, and from it a patch. The
circuit that the lexer reads from its file, with the signals at its inputs, drives the target so
that the outputs are those of the specification, exactly if the list holds all patterns for which
only 1 is right and none for which only 0 is (`patch_repairs_iff`). So the don't-cares of
`solve_additional` may be in it or not.
-/

namespace Msyn.PatchData

open Nodecircuit Circuit Cnf CNFgen Glucose MergeSelection DC Msyn.Parser

/-- With the target driven by the patch, which reads the signals by their names, the outputs are
those of the specification. -/
def Repairs (c specC : Circuit) (t : NodeId) (signals : List NodeId) (patch : Circuit) : Prop :=
  ∀ x v w y u, c.Valuation [t] x v → specC.Valuation [] x w →
    (∀ sig ∈ signals, y (c.node sig).name = v sig) → patch.Valuation [] y u →
    v t = u ((patch.getNode (c.node t).name).getD 0) → Agree c specC v w

/-- The names can be read, and only that of the target begins with `t`. -/
structure PatchNames (c : Circuit) (t : NodeId) (signals : List NodeId) : Prop where
  target : IsId (c.node t).name.toList
  signal : ∀ sig ∈ signals, IsId (c.node sig).name.toList
  other : ∀ sig ∈ signals, isTarget (c.node sig).name = false
  notTarget : ∀ sig ∈ signals, (c.node sig).name ≠ (c.node t).name
  distinct : ∀ sig ∈ signals, ∀ sig' ∈ signals, (c.node sig).name = (c.node sig').name → sig = sig'

/-- The data of the target. -/
def targetOf (c : Circuit) (t : NodeId) (inxcases : List Pattern) : TargetData where
  name := (c.node t).name
  inxcases

section
variable {c : Circuit} {t : NodeId} {signals : List NodeId} {inxcases : List Pattern}
  (ha : PatchNames c t signals) (hover : ∀ p ∈ inxcases, Over signals p)
include hover

/-- The signals of the first pattern are those of all. -/
theorem mem_signals (p : Pattern) (hp : p ∈ inxcases) (sig : NodeId) :
    sig ∈ (targetOf c t inxcases).signals ↔ sig ∈ signals := by
  cases inxcases with
  | nil => cases hp
  | cons q qs =>
    obtain ⟨f, hf⟩ := hover q List.mem_cons_self
    show sig ∈ q.keys ↔ sig ∈ signals
    rw [hf, ← OrdMap.find_isSome, OrdMap.find_tabulate]
    split
    · rename_i hs
      exact iff_of_true rfl hs
    · rename_i hs
      exact iff_of_false (fun h => (by cases h)) hs

theorem signals_sub (sig : NodeId) (hs : sig ∈ (targetOf c t inxcases).signals) :
    sig ∈ signals := by
  cases hc : inxcases with
  | nil =>
    rw [hc] at hs
    cases hs
  | cons q qs => exact (mem_signals hover q (hc ▸ List.mem_cons_self) sig).1 hs

include ha

omit hover in
/-- Inputs for the patch with the values of the signals. -/
theorem exists_inputs (v : NodeId → Bool) :
    ∃ y : String → Bool, ∀ sig ∈ signals, y (c.node sig).name = v sig := by
  classical
  refine ⟨fun s => if hs : ∃ sig ∈ signals, (c.node sig).name = s then v hs.choose else false,
    fun sig hsig => ?_⟩
  have hs : ∃ sig' ∈ signals, (c.node sig').name = (c.node sig).name := ⟨sig, hsig, rfl⟩
  simp only [dif_pos hs]
  rw [ha.distinct _ hs.choose_spec.1 sig hsig hs.choose_spec.2]

theorem targetOf_readable : Readable c [targetOf c t inxcases] where
  target d hd := by
    rw [List.mem_singleton.1 hd]
    exact ha.target
  signal d hd sig hs := by
    rw [List.mem_singleton.1 hd] at hs
    exact ha.signal sig (signals_sub hover sig hs)
  distinct := List.nodup_singleton _
  own d hd sig hs := by
    rw [List.mem_singleton.1 hd] at hs ⊢
    exact ha.notTarget sig (signals_sub hover sig hs)
  known d hd sig hs := by
    rw [List.mem_singleton.1 hd] at hs
    have hsig := signals_sub hover sig hs
    rw [ha.other sig hsig]
    apply iff_of_false Bool.false_ne_true
    intro hmem
    exact ha.notTarget sig hsig (List.mem_singleton.1 hmem)

/-- **The patch of a list of patterns**: an acyclic circuit, which drives the target with 1 exactly
where the pattern is in the list. -/
theorem lex_patch : ∃ p l, patchData c [[targetOf c t inxcases]] = some p ∧
    lex p.generateBlif = some l ∧ l.circuit.IsAcyclic ∧ l.circuit.Closed ∧
    l.circuit.outputs.map l.nameOf = [(c.node t).name] ∧
    ∀ (v : NodeId → Bool) y u, (∀ sig ∈ signals, y (c.node sig).name = v sig) →
      l.circuit.Valuation [] y u →
      (u ((l.circuit.getNode (c.node t).name).getD 0) = true ↔
        OrdMap.tabulate signals v ∈ inxcases) := by
  have hr := targetOf_readable ha hover
  have hin := mem_inputs c [targetOf c t inxcases]
  obtain ⟨l, hl, hb⟩ := Patch.lex_generateBlif hr.complete
  refine ⟨_, l, patchData_singles c [_], hl, Patch.acyclic hr.complete ?_ hb, hb.mirror.closed,
    (Patch.ports hb).2, ?_⟩
  · intro b hbn s hs
    rw [List.mem_singleton.1 (show b ∈ [_] from hbn)] at hs
    obtain ⟨sig, hsig, rfl⟩ := List.mem_map.1 hs
    have hmem := signals_sub hover sig hsig
    exact (hin _).2 ⟨_, List.mem_cons_self, sig, hsig, rfl, ha.other sig hmem⟩
  · intro v y u hy hu
    obtain ⟨hin', hval⟩ := hr.holds_iff.1 (hb.valuation_iff.1 hu)
    apply (hval _ List.mem_cons_self).trans
    -- the inputs have the values of the signals
    have hread : ∀ sig ∈ (targetOf c t inxcases).signals,
        u ((l.circuit.getNode (c.node sig).name).getD 0) = v sig := by
      intro sig hs
      have hsig := signals_sub hover sig hs
      rw [hin' _ ((hin _).2 ⟨_, List.mem_cons_self, sig, hs, rfl, ha.other sig hsig⟩)]
      exact hy sig hsig
    constructor
    · intro hm
      obtain ⟨q, hq, hag⟩ := hm
      have : q = OrdMap.tabulate signals v := by
        apply Over.ext (hover q hq) ⟨v, rfl⟩
        intro sig hs
        have hmem : sig ∈ (targetOf c t inxcases).signals := (mem_signals hover q hq sig).2 hs
        rw [hag sig hmem, hread sig hmem, Pattern.at_tabulate hs]
      exact this ▸ hq
    · intro hm
      refine ⟨_, hm, fun sig hs => ?_⟩
      rw [hread sig hs, Pattern.at_tabulate (signals_sub hover sig hs)]

end

section
variable {abc : Circuit → List NodeId → List NodeId → CNFgen.Netlist} {c specC : Circuit}
  {t : NodeId} {candInputs signals : List NodeId} (h : Problem abc c specC t candInputs) (hac : c.IsAcyclic)
  (hcl : c.Closed) (hacS : specC.IsAcyclic) (hclS : specC.Closed) (hind : Independent c t signals)
  (ha : PatchNames c t signals)
include h hac hcl hacS hclS hind ha

/-- **Which lists repair the circuit**: wherever a pattern occurs, the value that the list gives the
target works. -/
theorem repairs_iff {inxcases : List Pattern} (hover : ∀ p ∈ inxcases, Over signals p) :
    ∃ p l, patchData c [[targetOf c t inxcases]] = some p ∧ lex p.generateBlif = some l ∧
      l.circuit.IsAcyclic ∧ l.circuit.Closed ∧ l.circuit.outputs.map l.nameOf = [(c.node t).name] ∧
      (Repairs c specC t signals l.circuit ↔ (∀ p ∈ inxcases, RightFor c specC t signals true p) ∧
        ∀ p, p ∉ inxcases → RightFor c specC t signals false p) := by
  obtain ⟨p, l, hp, hl, hacl, hcll, hout, hval⟩ := lex_patch ha hover
  refine ⟨p, l, hp, hl, hacl, hcll, hout, ?_⟩
  have hvalue : ∀ (v : NodeId → Bool) y u, (∀ sig ∈ signals, y (c.node sig).name = v sig) →
      l.circuit.Valuation [] y u →
      u ((l.circuit.getNode (c.node t).name).getD 0) =
        decide (OrdMap.tabulate signals v ∈ inxcases) := by
    intro v y u hy hu
    rw [Bool.eq_iff_iff, hval v y u hy hu, decide_eq_true_eq]
  constructor
  · intro hr
    -- with the target at the value of the list the outputs agree
    have hworks : ∀ x q, HasPattern c t signals x q →
        Works c specC t (decide (q ∈ inxcases)) x := by
      intro x q hq
      obtain ⟨v0, hv0, rfl⟩ := hq
      obtain ⟨v, hv, ht⟩ := exists_valuation hac hcl [t] x fun _ =>
        decide (OrdMap.tabulate signals v0 ∈ inxcases)
      obtain ⟨w, hw, -⟩ := exists_valuation hacS hclS [] x fun _ => false
      obtain ⟨y, hy⟩ := exists_inputs ha v
      obtain ⟨u, hu, -⟩ := exists_valuation hacl hcll [] y fun _ => false
      have he : OrdMap.tabulate signals v = OrdMap.tabulate signals v0 :=
        OrdMap.tabulate_inj.2 fun sig hs => hind x v v0 hv hv0 sig hs
      have ht : v t = decide (OrdMap.tabulate signals v0 ∈ inxcases) := ht t (by simp)
      rw [works_iff h hac hcl hacS hclS hv ht hw]
      apply hr x v w y u hv hw hy hu
      rw [ht, hvalue v y u hy hu, he]
    constructor
    · intro q hq x hx
      have := hworks x q hx
      rwa [decide_eq_true hq] at this
    · intro q hq x hx
      have := hworks x q hx
      rwa [decide_eq_false hq] at this
  · intro hb x v w y u hv hw hy hu ht
    rw [hvalue v y u hy hu] at ht
    rw [← works_iff h hac hcl hacS hclS hv ht hw]
    by_cases hm : OrdMap.tabulate signals v ∈ inxcases
    · rw [decide_eq_true hm]
      exact hb.1 _ hm x ⟨v, hv, rfl⟩
    · rw [decide_eq_false hm]
      exact hb.2 _ hm x ⟨v, hv, rfl⟩

variable (hfix : ∀ p, ∃ b, RightFor c specC t signals b p)
  (hsig : ∀ sig ∈ signals, sig ∈ candInputs) (hlen : signals.length < 31)
  {solver solverCheck : Nat → Solve} (hex : ∀ i, Exact (solver i))
  (hexC : ∀ i, Exact (solverCheck i))
include hfix hsig hlen hex hexC

/-- **From `solve` to the patched circuit**: `solve` ends, and the patch that is made from a list of
patterns repairs the circuit exactly if the list holds all of `in2cases` and none of `in1cases`. -/
theorem patch_repairs_iff : ∃ fuel st, DC.solve (implCnf abc c t candInputs) (specCnf abc specC) c t
      signals solver solverCheck (fun _ => false) fuel = some (some st) ∧
    ∀ inxcases : List Pattern, (∀ p ∈ inxcases, Over signals p) →
      ∃ p l, patchData c [[targetOf c t inxcases]] = some p ∧ lex p.generateBlif = some l ∧
        l.circuit.IsAcyclic ∧ l.circuit.Closed ∧
        l.circuit.outputs.map l.nameOf = [(c.node t).name] ∧
        (Repairs c specC t signals l.circuit ↔
          (∀ q ∈ st.in2cases, q ∈ inxcases) ∧ ∀ q ∈ st.in1cases, q ∉ inxcases) := by
  obtain ⟨fuel, st, hst, -, -, h1, h2⟩ :=
    solve_right h hac hcl hacS hclS hind hfix hsig hlen hex hexC
  refine ⟨fuel, st, hst, fun inxcases hover => ?_⟩
  obtain ⟨p, l, hp, hl, hacl, hcll, hout, hrep⟩ := repairs_iff h hac hcl hacS hclS hind ha hover
  refine ⟨p, l, hp, hl, hacl, hcll, hout, hrep.trans ?_⟩
  constructor
  · intro hr
    constructor
    · intro q hq
      by_contra hno
      exact ((h2 q).1 hq).2 (hr.2 q hno)
    · intro q hq hmem
      exact ((h1 q).1 hq).2 (hr.1 q hmem)
  · intro hr
    -- where the other value is right only, the pattern is recorded
    have hright : ∀ b q, ¬RightFor c specC t signals b q → RightFor c specC t signals (!b) q := by
      intro b q hb
      obtain ⟨b', hb'⟩ := hfix q
      by_cases he : b' = b
      · exact absurd (he ▸ hb') hb
      · exact Bool.eq_not.2 he ▸ hb'
    constructor
    · intro q hq
      by_contra hno
      exact hr.2 q ((h1 q).2 ⟨hright true q hno, hno⟩) hq
    · intro q hq
      by_contra hno
      exact hq (hr.1 q ((h2 q).2 ⟨hright false q hno, hno⟩))

end

/-- The target must be the signal. -/
theorem patch_repairs_iff_buffer : ∃ fuel st,
    DC.solve (implCnf netlistOf (ofNodes (openTarget 1)) 1 (List.range 1))
      (specCnf netlistOf (ofNodes (firstInput 1))) (ofNodes (openTarget 1)) 1 (List.range 1)
      (fun _ => dpllSolve) (fun _ => dpllSolve) (fun _ => false) fuel = some (some st) ∧
    ∀ inxcases : List Pattern, (∀ p ∈ inxcases, Over (List.range 1) p) →
      ∃ p l, patchData (ofNodes (openTarget 1)) [[targetOf (ofNodes (openTarget 1)) 1 inxcases]] =
          some p ∧ lex p.generateBlif = some l ∧ l.circuit.IsAcyclic ∧ l.circuit.Closed ∧
        l.circuit.outputs.map l.nameOf = [((ofNodes (openTarget 1)).node 1).name] ∧
        (Repairs (ofNodes (openTarget 1)) (ofNodes (firstInput 1)) 1 (List.range 1) l.circuit ↔
          (∀ q ∈ st.in2cases, q ∈ inxcases) ∧ ∀ q ∈ st.in1cases, q ∉ inxcases) := by
  obtain ⟨hP, hac, hcl, hacS, hclS⟩ := openTarget_one
  have hnames : PatchNames (ofNodes (openTarget 1)) 1 (List.range 1) := by
    refine ⟨⟨'t', [], by decide, .inl (by decide), by simp⟩, fun sig hs => ?_, by decide, by decide,
      by decide⟩
    obtain rfl : sig = 0 := by simpa using hs
    exact ⟨'p', [], by decide, .inl (by decide), by simp⟩
  exact patch_repairs_iff hP hac hcl hacS hclS openTarget_independent hnames openTarget_right
    (fun _ => id) (by decide) (fun _ => dpll_exact) fun _ => dpll_exact

end Msyn.PatchData
