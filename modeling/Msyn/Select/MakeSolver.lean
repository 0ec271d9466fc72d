import Msyn.Sat.GInterface

/-!
# The formula of MakeSolver

`MergeSelection::MakeSolver` asks for two assignments of the primary inputs: one where the seed
must be 0 and one where it must be 1. `Must b m m' s` says that the seed must be `b` at the inputs
of `s`: the models `m` and `m'` of the implementation have the seed at `b` and at the opposite
value, and only the outputs of `m` are those of the model `s` of the specification. The formula is
satisfiable exactly if there are models of both kinds that agree on the triggered candidates
(`makeSolver_sat`), and its groups of variables are disjoint (`groups_ascending`).
-/

namespace Msyn.MergeSelection

open Nodecircuit Cnf CNFgen Glucose GInterface

/-- What `MakeSolver` sets up. -/
structure Made where
  glu : GInterface
  enIn0 : Nat
  enIn1 : Nat
  eqTrigger : OrdMap NodeId Nat

/-- `eq_trigger[sig]`. -/
def Made.eq (made : Made) (sig : NodeId) : Nat := (made.eqTrigger.find sig).getD 0

section
variable (impl spec : CNFGenerator) (c : Circuit) (seed : NodeId) (candInputs : List NodeId)

/-- Four copies of the implementation, two of the specification. -/
def addCopies (glu : GInterface) : GInterface :=
  let glu := (List.range 4).foldl (fun glu i => glu.addCNF impl ((impl.numVars * i : Nat) : Int)) glu
  let glu := glu.addCNF spec ((impl.numVars * 4 : Nat) : Int)
  glu.addCNF spec ((impl.numVars * 4 + spec.numVars : Nat) : Int)

/-- The seed is 0, 1, 0, 1 in the copies. -/
def setSeed (glu : GInterface) : GInterface :=
  (List.range 4).foldl (fun glu i => glu.addClause
    [(impl.getIndex (c.node seed).name + ((impl.numVars * i : Nat) : Int), i % 2 != 0)]) glu

/-- One round of the loop over the inputs. -/
def tieInput (glu : GInterface) (pi : NodeId) : GInterface :=
  let a := impl.getIndex (c.node pi).name
  let b := spec.getIndex (c.node pi).name
  let glu := glu.setEqual a (b + ((impl.numVars * 4 : Nat) : Int))
  let glu := glu.setEqual (a + (impl.numVars : Int)) (b + ((impl.numVars * 4 : Nat) : Int))
  let glu := glu.setEqual (a + ((impl.numVars * 2 : Nat) : Int))
    (b + ((impl.numVars * 4 + spec.numVars : Nat) : Int))
  glu.setEqual (a + ((impl.numVars * 3 : Nat) : Int))
    (b + ((impl.numVars * 4 + spec.numVars : Nat) : Int))

def setInputs (glu : GInterface) : GInterface := c.inputs.foldl (tieInput impl spec c) glu

/-- The outputs in the copy of `cnf` at the offset. -/
def outs (cnf : CNFGenerator) (offset : Nat) : List Int :=
  c.outputs.map fun po => cnf.getIndex (c.node po).name + (offset : Int)

/-- The formula up to the outputs that must agree. -/
def makeBase : GInterface :=
  let glu := addCopies impl spec {}
  let glu := setSeed impl c seed glu
  let glu := setInputs impl spec c glu
  let glu := glu.setEquals (outs c impl 0) (outs c spec (impl.numVars * 4))
  glu.setEquals (outs c impl (impl.numVars * 3)) (outs c spec (impl.numVars * 4 + spec.numVars))

def makeNEqual0 : GInterface :=
  (makeBase impl spec c seed).setNEqual (outs c impl impl.numVars)
    (outs c spec (impl.numVars * 4))

def makeNEqual1 : GInterface :=
  (makeNEqual0 impl spec c seed).setNEqual (outs c impl (impl.numVars * 2))
    (outs c spec (impl.numVars * 4 + spec.numVars))

/-- One round of the loop over the candidates. -/
def addTrigger (s : GInterface × OrdMap NodeId Nat) (cand : NodeId) :
    GInterface × OrdMap NodeId Nat :=
  let eq := s.1.nVars
  (s.1.ifTrueThenEQ [impl.getIndex (c.node cand).name]
    [impl.getIndex (c.node cand).name + ((impl.numVars * 2 : Nat) : Int)] eq, s.2.set cand eq)

/-- The enables `en_in0` and `en_in1` are the next two variables. -/
def makeEnables : GInterface :=
  let glu := makeNEqual1 impl spec c seed
  (glu.genLit ((glu.nVars : Nat), true)).genLit ((glu.nVars + 1 : Nat), true)

def makeSolver : Made :=
  let (glu, eqTrigger) := candInputs.foldl (addTrigger impl c) (makeEnables impl spec c seed, ∅)
  { glu, enIn0 := (makeNEqual1 impl spec c seed).nVars
    enIn1 := (makeNEqual1 impl spec c seed).nVars + 1, eqTrigger }

/-! ## What the formula says -/

/-- The clauses are over the variables of their CNF, and the index maps know the names. -/
structure Names : Prop where
  implBelow : Below impl.numVars impl.cnf
  specBelow : Below spec.numVars spec.cnf
  seed : impl.Known (c.node seed).name
  inputs : ∀ pi ∈ c.inputs, impl.Known (c.node pi).name ∧ spec.Known (c.node pi).name
  outputs : ∀ po ∈ c.outputs, impl.Known (c.node po).name ∧ spec.Known (c.node po).name
  cands : ∀ sig ∈ candInputs, impl.Known (c.node sig).name
  nonempty : c.outputs ≠ []

/-- The variable of a node. -/
def varOf (cnf : CNFGenerator) (n : NodeId) : Nat := cnf.var (c.node n).name

/-- `m` and `m'` are models of the implementation with the seed at `b` and at its negation, under
the inputs of the model `s` of the specification; `m` has its outputs, `m'` has not. -/
structure Must (b : Bool) (m m' s : Model) : Prop where
  sat : Sat m impl.cnf
  sat' : Sat m' impl.cnf
  satS : Sat s spec.cnf
  seedAt : m (varOf c impl seed) = b
  seedAt' : m' (varOf c impl seed) = !b
  inputs : ∀ pi ∈ c.inputs, m (varOf c impl pi) = s (varOf c spec pi) ∧
    m' (varOf c impl pi) = s (varOf c spec pi)
  outputs : ∀ po ∈ c.outputs, m (varOf c impl po) = s (varOf c spec po)
  outputs' : ∃ po ∈ c.outputs, m' (varOf c impl po) ≠ s (varOf c spec po)

/-- The model of a copy of the implementation. -/
def implModel (m : Model) (k : Nat) : Model := fun v => m (v + impl.numVars * k)

/-- The model of a copy of the specification. -/
def specModel (m : Model) (k : Nat) : Model := fun v => m (v + (impl.numVars * 4 + spec.numVars * k))

/-- The variables mentioned for a copy of `cnf`: those of its clauses and of the nodes. -/
def mentioned (cnf : CNFGenerator) (nodes : List NodeId) (offset : Nat) : List Nat :=
  (cnf.cnf.flatten.map Prod.fst ++ nodes.map (varOf c cnf)).map (· + offset)

/-- The variables of the copies, of the comparisons and of the enables. -/
def fixedGroups : List (List Nat) :=
  (List.range 4).map (fun k =>
    mentioned c impl (seed :: c.inputs ++ c.outputs ++ candInputs) (impl.numVars * k)) ++
  (List.range 2).map (fun k =>
    mentioned c spec (c.inputs ++ c.outputs) (impl.numVars * 4 + spec.numVars * k)) ++
  [(List.range c.outputs.length).map ((makeBase impl spec c seed).nVars + ·),
    (List.range c.outputs.length).map ((makeNEqual0 impl spec c seed).nVars + ·),
    [(makeSolver impl spec c seed candInputs).enIn0],
    [(makeSolver impl spec c seed candInputs).enIn1]]

/-- The variables that the loop over the candidates makes. -/
def triggers : List NodeId → GInterface × OrdMap NodeId Nat → List Nat
  | [], _ => []
  | cand :: l, s => s.1.nVars :: triggers l (addTrigger impl c s cand)

/-- All variables of the formula, by their use. -/
def groups : List (List Nat) :=
  fixedGroups impl spec c seed candInputs ++
    (triggers impl c candInputs (makeEnables impl spec c seed, ∅)).map fun e => [e]

end

variable {impl spec : CNFGenerator} {c : Circuit} {seed : NodeId} {candInputs : List NodeId}

/-- What `makeBase` asks of a model. -/
structure Base (impl spec : CNFGenerator) (c : Circuit) (seed : NodeId) (m : Model) : Prop where
  sat : ∀ k < 4, Sat (implModel impl m k) impl.cnf
  satS : ∀ k < 2, Sat (specModel impl spec m k) spec.cnf
  seedAt : ∀ k < 4, implModel impl m k (varOf c impl seed) = (k % 2 != 0)
  inputs : ∀ pi ∈ c.inputs, ∀ k < 4,
    implModel impl m k (varOf c impl pi) = specModel impl spec m (k / 2) (varOf c spec pi)
  outputs0 : ∀ po ∈ c.outputs,
    implModel impl m 0 (varOf c impl po) = specModel impl spec m 0 (varOf c spec po)
  outputs1 : ∀ po ∈ c.outputs,
    implModel impl m 3 (varOf c impl po) = specModel impl spec m 1 (varOf c spec po)

theorem varOf_lt {cnf : CNFGenerator} {n : NodeId} (h : cnf.Known (c.node n).name) :
    varOf c cnf n < cnf.numVars := h.lt

theorem forall_lt_four {p : Nat → Prop} : (∀ k < 4, p k) ↔ p 0 ∧ p 1 ∧ p 2 ∧ p 3 := by
  refine ⟨fun h => ⟨h 0 (by omega), h 1 (by omega), h 2 (by omega), h 3 (by omega)⟩, ?_⟩
  rintro ⟨h0, h1, h2, h3⟩ k hk
  match k, hk with
  | 0, _ => exact h0
  | 1, _ => exact h1
  | 2, _ => exact h2
  | 3, _ => exact h3

theorem addCopies_adds (glu : GInterface) : Adds glu (addCopies impl spec glu) fun m =>
    (∀ k < 4, Sat (implModel impl m k) impl.cnf) ∧
      ∀ k < 2, Sat (specModel impl spec m k) spec.cnf := by
  refine (((Adds.foldl (l := List.range 4)
    (fun i _ g => addCNF_adds g impl (impl.numVars * i)) glu).trans
    (addCNF_adds _ spec (impl.numVars * 4))).trans
    (addCNF_adds _ spec (impl.numVars * 4 + spec.numVars))).congr fun m => ?_
  have h2 : (∀ k < 2, Sat (specModel impl spec m k) spec.cnf) ↔
      Sat (specModel impl spec m 0) spec.cnf ∧ Sat (specModel impl spec m 1) spec.cnf := by
    refine ⟨fun h => ⟨h 0 (by omega), h 1 (by omega)⟩, ?_⟩
    rintro ⟨h0, h1⟩ k hk
    match k, hk with
    | 0, _ => exact h0
    | 1, _ => exact h1
  have h3 : specModel impl spec m 1 = fun v => m (v + (impl.numVars * 4 + spec.numVars)) := by
    funext v
    rw [specModel, Nat.mul_one]
  rw [h2, h3, and_assoc]
  simp only [List.mem_range]
  rfl

theorem setSeed_adds (hseed : impl.Known (c.node seed).name) (glu : GInterface) :
    Adds glu (setSeed impl c seed glu) fun m =>
      ∀ k < 4, implModel impl m k (varOf c impl seed) = (k % 2 != 0) := by
  refine (Adds.foldl (l := List.range 4) (fun i _ g => addClause_adds g
    [(impl.getIndex (c.node seed).name + ((impl.numVars * i : Nat) : Int), i % 2 != 0)])
    glu).congr fun m => ?_
  simp only [List.mem_range, List.mem_singleton, exists_eq_left, hseed.natAbs_add, implModel, varOf]

theorem tieInput_adds {pi : NodeId} (h1 : impl.Known (c.node pi).name)
    (h2 : spec.Known (c.node pi).name) (glu : GInterface) :
    Adds glu (tieInput impl spec c glu pi) fun m => ∀ k < 4,
      implModel impl m k (varOf c impl pi) = specModel impl spec m (k / 2) (varOf c spec pi) := by
  refine ((((setEqual_adds glu _ _).trans (setEqual_adds _ _ _)).trans
    (setEqual_adds _ _ _)).trans (setEqual_adds _ _ _)).congr fun m => ?_
  simp only [h1.natAbs, h1.natAbs_add, h2.natAbs_add, forall_lt_four, implModel, specModel, varOf,
    and_assoc, Nat.mul_zero, Nat.add_zero, Nat.mul_one, Nat.reduceDiv, Nat.zero_div]

theorem setInputs_adds (hin : ∀ pi ∈ c.inputs, impl.Known (c.node pi).name ∧
    spec.Known (c.node pi).name) (glu : GInterface) :
    Adds glu (setInputs impl spec c glu) fun m => ∀ pi ∈ c.inputs, ∀ k < 4,
      implModel impl m k (varOf c impl pi) = specModel impl spec m (k / 2) (varOf c spec pi) :=
  Adds.foldl (fun pi hpi g => tieInput_adds (hin pi hpi).1 (hin pi hpi).2 g) glu

theorem zip_outs (cnf cnf' : CNFGenerator) (k k' : Nat) :
    (outs c cnf k).zip (outs c cnf' k') = c.outputs.map fun po =>
      (cnf.getIndex (c.node po).name + (k : Int), cnf'.getIndex (c.node po).name + (k' : Int)) := by
  rw [outs, outs, List.zip_map']

theorem makeBase_adds (hn : Names impl spec c seed candInputs) :
    Adds {} (makeBase impl spec c seed) (Base impl spec c seed) := by
  refine (((((addCopies_adds {}).trans (setSeed_adds hn.seed _)).trans
    (setInputs_adds hn.inputs _)).trans (setEquals_adds _ _ _)).trans
    (setEquals_adds _ _ _)).congr fun m => ?_
  have hout : ∀ k j, (∀ p ∈ (outs c impl (impl.numVars * k)).zip
      (outs c spec (impl.numVars * 4 + spec.numVars * j)), m p.1.natAbs = m p.2.natAbs) ↔
      ∀ po ∈ c.outputs,
        implModel impl m k (varOf c impl po) = specModel impl spec m j (varOf c spec po) := by
    intro k j
    rw [zip_outs, List.forall_mem_map]
    refine forall₂_congr fun po hpo => ?_
    obtain ⟨h1, h2⟩ := hn.outputs po hpo
    simp only [h1.natAbs_add, h2.natAbs_add, implModel, specModel, varOf]
  have h0 := hout 0 0
  have h1 := hout 3 1
  rw [Nat.mul_zero, Nat.mul_zero, Nat.add_zero] at h0
  rw [Nat.mul_one] at h1
  rw [h0, h1]
  refine ⟨?_, fun h => ⟨⟨⟨⟨⟨h.sat, h.satS⟩, h.seedAt⟩, h.inputs⟩, h.outputs0⟩, h.outputs1⟩⟩
  rintro ⟨⟨⟨⟨⟨a, b⟩, c⟩, d⟩, e⟩, f⟩
  exact ⟨a, b, c, d, e, f⟩

/-! ## Six models as one -/

/-- The models `mi` of the implementation and `ms` of the specification in their copies. -/
def six (impl spec : CNFGenerator) (mi ms : Nat → Model) : Model := fun v =>
  if v < impl.numVars * 4 then mi (v / impl.numVars) (v % impl.numVars)
  else ms ((v - impl.numVars * 4) / spec.numVars) ((v - impl.numVars * 4) % spec.numVars)

theorem six_impl {mi ms : Nat → Model} {k i : Nat} (hk : k < 4) (hi : i < impl.numVars) :
    implModel impl (six impl spec mi ms) k i = mi k i := by
  have h1 : i + impl.numVars * k < impl.numVars * 4 := calc
    i + impl.numVars * k < impl.numVars + impl.numVars * k := by omega
    _ = impl.numVars * (k + 1) := by rw [Nat.mul_succ, Nat.add_comm]
    _ ≤ impl.numVars * 4 := Nat.mul_le_mul_left _ hk
  have h2 : (i + impl.numVars * k) / impl.numVars = k := by
    rw [Nat.add_mul_div_left _ _ (by omega), Nat.div_eq_of_lt hi, Nat.zero_add]
  rw [implModel, six, if_pos h1, h2, Nat.add_mul_mod_self_left, Nat.mod_eq_of_lt hi]

theorem six_spec {mi ms : Nat → Model} {k i : Nat} (hi : i < spec.numVars) :
    specModel impl spec (six impl spec mi ms) k i = ms k i := by
  have h1 : ¬i + (impl.numVars * 4 + spec.numVars * k) < impl.numVars * 4 := by omega
  have h2 : i + (impl.numVars * 4 + spec.numVars * k) - impl.numVars * 4 = i + spec.numVars * k := by
    omega
  have h3 : (i + spec.numVars * k) / spec.numVars = k := by
    rw [Nat.add_mul_div_left _ _ (by omega), Nat.div_eq_of_lt hi, Nat.zero_add]
  rw [specModel, six, if_neg h1, h2, h3, Nat.add_mul_mod_self_left, Nat.mod_eq_of_lt hi]

section
variable (hn : Names impl spec c seed candInputs)
include hn

theorem six_base {mi ms : Nat → Model} (h0 : Must impl spec c seed false (mi 0) (mi 1) (ms 0))
    (h1 : Must impl spec c seed true (mi 3) (mi 2) (ms 1)) :
    Base impl spec c seed (six impl spec mi ms) where
  sat k hk := by
    have hm : Sat (mi k) impl.cnf := by
      match k, hk with
      | 0, _ => exact h0.sat
      | 1, _ => exact h0.sat'
      | 2, _ => exact h1.sat'
      | 3, _ => exact h1.sat
    exact (sat_congr hn.implBelow fun v hv => six_impl hk hv).2 hm
  satS k hk := by
    have hm : Sat (ms k) spec.cnf := by
      match k, hk with
      | 0, _ => exact h0.satS
      | 1, _ => exact h1.satS
    exact (sat_congr hn.specBelow fun v hv => six_spec hv).2 hm
  seedAt k hk := by
    rw [six_impl hk (varOf_lt hn.seed)]
    match k, hk with
    | 0, _ => exact h0.seedAt
    | 1, _ => exact h0.seedAt'
    | 2, _ => exact h1.seedAt'
    | 3, _ => exact h1.seedAt
  inputs pi hpi k hk := by
    obtain ⟨h2, h3⟩ := hn.inputs pi hpi
    rw [six_impl hk (varOf_lt h2), six_spec (varOf_lt h3)]
    match k, hk with
    | 0, _ => exact (h0.inputs pi hpi).1
    | 1, _ => exact (h0.inputs pi hpi).2
    | 2, _ => exact (h1.inputs pi hpi).2
    | 3, _ => exact (h1.inputs pi hpi).1
  outputs0 po hpo := by
    obtain ⟨h2, h3⟩ := hn.outputs po hpo
    rw [six_impl (by omega) (varOf_lt h2), six_spec (varOf_lt h3)]
    exact h0.outputs po hpo
  outputs1 po hpo := by
    obtain ⟨h2, h3⟩ := hn.outputs po hpo
    rw [six_impl (by omega) (varOf_lt h2), six_spec (varOf_lt h3)]
    exact h1.outputs po hpo

/-- The outputs of the last copy are variables of `makeBase`, so all copies before are below. -/
theorem makeBase_lt {po : NodeId} (hpo : po ∈ c.outputs) :
    varOf c spec po + (impl.numVars * 4 + spec.numVars) < (makeBase impl spec c seed).nVars := by
  obtain ⟨h1, h2⟩ := hn.outputs po hpo
  have hlt : impl.var (c.node po).name < impl.numVars := h1.lt
  have hp : (impl.getIndex (c.node po).name + ((impl.numVars * 3 : Nat) : Int),
      spec.getIndex (c.node po).name + ((impl.numVars * 4 + spec.numVars : Nat) : Int)) ∈
      (outs c impl (impl.numVars * 3)).zip (outs c spec (impl.numVars * 4 + spec.numVars)) := by
    rw [zip_outs]
    exact List.mem_map.2 ⟨po, hpo, rfl⟩
  have := (setEquals_lt (g := ((setInputs impl spec c (setSeed impl c seed
    (addCopies impl spec {}))).setEquals (outs c impl 0) (outs c spec (impl.numVars * 4)))) hp
    (by simp only [h1.getIndex, h2.getIndex]; omega)).2
  rwa [h2.natAbs_add] at this

theorem outputs_lt : ∀ po ∈ c.outputs,
    (varOf c impl po + impl.numVars < (makeBase impl spec c seed).nVars ∧
      varOf c spec po + impl.numVars * 4 < (makeBase impl spec c seed).nVars) ∧
    varOf c impl po + impl.numVars * 2 < (makeBase impl spec c seed).nVars ∧
      varOf c spec po + (impl.numVars * 4 + spec.numVars) < (makeBase impl spec c seed).nVars := by
  intro po hpo
  have h1 := makeBase_lt hn hpo
  have h2 : varOf c impl po < impl.numVars := (hn.outputs po hpo).1.lt
  have h3 : varOf c spec po < spec.numVars := (hn.outputs po hpo).2.lt
  omega

/-- What the comparison of two copies asks of a model. -/
theorem neq_adds (g : GInterface) (k k' : Nat) :
    (∀ m, Sat m (g.setNEqual (outs c impl k) (outs c spec k')).clauses → Sat m g.clauses ∧
      ∃ po ∈ c.outputs, m (varOf c impl po + k) ≠ m (varOf c spec po + k')) ∧
    ((∀ po ∈ c.outputs, varOf c impl po + k < g.nVars ∧ varOf c spec po + k' < g.nVars) →
      Below g.nVars g.clauses → ∀ m, Sat m g.clauses →
      (∃ po ∈ c.outputs, m (varOf c impl po + k) ≠ m (varOf c spec po + k')) →
      ∃ m', (∀ v < g.nVars, m' v = m v) ∧
        Sat m' (g.setNEqual (outs c impl k) (outs c spec k')).clauses) := by
  have hnat : ∀ po ∈ c.outputs,
      (impl.getIndex (c.node po).name + (k : Int)).natAbs = varOf c impl po + k ∧
      (spec.getIndex (c.node po).name + (k' : Int)).natAbs = varOf c spec po + k' :=
    fun po hpo => ⟨(hn.outputs po hpo).1.natAbs_add k, (hn.outputs po hpo).2.natAbs_add k'⟩
  refine ⟨fun m hm => ?_, fun hlt hb m hm hne => setNEqual_map_extend hb hm ?_ ?_⟩
  · obtain ⟨h1, po, hpo, hd⟩ := setNEqual_differ hm
    rw [(hnat po hpo).1, (hnat po hpo).2] at hd
    exact ⟨h1, po, hpo, hd⟩
  · intro po hpo
    rw [(hnat po hpo).1, (hnat po hpo).2]
    exact hlt po hpo
  · obtain ⟨po, hpo, hd⟩ := hne
    refine ⟨po, hpo, ?_⟩
    rw [(hnat po hpo).1, (hnat po hpo).2]
    exact hd

end

/-! ## Triggers -/

/-- The loop over the candidates from `g` to `g'`: a new variable for each, which forces the
candidate to be equal in the first and the third copy. -/
structure Triggered (impl : CNFGenerator) (c : Circuit) (cands : List NodeId) (g g' : GInterface)
    (trig : OrdMap NodeId Nat) : Prop where
  le : g.nVars ≤ g'.nVars
  below : Below g'.nVars g'.clauses
  fresh : ∀ n e, trig.find n = some e → n ∈ cands ∧ g.nVars ≤ e ∧ e < g'.nVars
  inj : ∀ n n' e, trig.find n = some e → trig.find n' = some e → n = n'
  dom : ∀ n ∈ cands, ∃ e, trig.find n = some e
  sound : ∀ m, Sat m g'.clauses → Sat m g.clauses ∧ ∀ n e, trig.find n = some e → m e = true →
    implModel impl m 0 (varOf c impl n) = implModel impl m 2 (varOf c impl n)
  extend : ∀ m, Sat m g.clauses → ∃ m', (∀ v < g.nVars, m' v = m v) ∧ Sat m' g'.clauses ∧
    ∀ n e, trig.find n = some e →
      m' e = (implModel impl m 0 (varOf c impl n) == implModel impl m 2 (varOf c impl n))

theorem addTrigger_adds {cand : NodeId} (h : impl.Known (c.node cand).name)
    (s : GInterface × OrdMap NodeId Nat) :
    Adds s.1 (addTrigger impl c s cand).1 (fun m => m s.1.nVars = true →
      implModel impl m 0 (varOf c impl cand) = implModel impl m 2 (varOf c impl cand)) ∧
    s.1.nVars < (addTrigger impl c s cand).1.nVars := by
  refine ⟨(ifTrueThenEQ_adds _ _ _ _).congr fun m => ?_, ?_⟩
  · simp only [List.zip_cons_cons, List.zip_nil_right, List.mem_singleton, forall_eq,
      Int.natAbs_natCast, h.natAbs, h.natAbs_add]
    rfl
  · exact addClause_lt _ _ ((s.1.nVars : Int), false) (by simp)

theorem Triggered.snoc {cands : List NodeId} {g : GInterface} {s : GInterface × OrdMap NodeId Nat}
    (ht : Triggered impl c cands g s.1 s.2) {cand : NodeId} (h : impl.Known (c.node cand).name)
    (hlt : varOf c impl cand + impl.numVars * 2 < g.nVars) :
    Triggered impl c (cands ++ [cand]) g (addTrigger impl c s cand).1
      (addTrigger impl c s cand).2 := by
  obtain ⟨hadd, hnew⟩ := addTrigger_adds h s
  have hfind : ∀ n e, (addTrigger impl c s cand).2.find n = some e →
      n = cand ∧ e = s.1.nVars ∨ n ≠ cand ∧ s.2.find n = some e := by
    intro n e he
    simp only [addTrigger, OrdMap.find_set] at he
    split at he
    · rename_i hn
      exact .inl ⟨hn, (Option.some.inj he).symm⟩
    · rename_i hn
      exact .inr ⟨hn, he⟩
  refine ⟨ht.le.trans hadd.le, hadd.below ht.below, fun n e he => ?_, fun n n' e he he' => ?_,
    fun n hn => ?_, fun m hm => ?_, fun m hm => ?_⟩
  · rcases hfind n e he with ⟨rfl, rfl⟩ | ⟨-, he⟩
    · exact ⟨by simp, ht.le, hnew⟩
    · obtain ⟨h1, h2, h3⟩ := ht.fresh n e he
      exact ⟨by simp [h1], h2, h3.trans hnew⟩
  · rcases hfind n e he with ⟨h1, h2⟩ | ⟨-, h2⟩ <;> rcases hfind n' e he' with ⟨h3, h4⟩ | ⟨-, h4⟩
    · rw [h1, h3]
    · exact absurd (h2 ▸ (ht.fresh n' e h4).2.2) (Nat.lt_irrefl _)
    · exact absurd (h4 ▸ (ht.fresh n e h2).2.2) (Nat.lt_irrefl _)
    · exact ht.inj n n' e h2 h4
  · simp only [addTrigger, OrdMap.find_set]
    by_cases hc : n = cand
    · exact ⟨s.1.nVars, if_pos hc⟩
    · rw [if_neg hc]
      exact ht.dom n (by simpa [hc] using hn)
  · obtain ⟨h1, h2⟩ := (hadd.sat m).1 hm
    obtain ⟨h3, h4⟩ := ht.sound m h1
    refine ⟨h3, fun n e he => ?_⟩
    rcases hfind n e he with ⟨rfl, rfl⟩ | ⟨-, he⟩
    · exact h2
    · exact h4 n e he
  · obtain ⟨m1, h1, h2, h3⟩ := ht.extend m hm
    let eq := implModel impl m 0 (varOf c impl cand) == implModel impl m 2 (varOf c impl cand)
    let m2 : Model := fun v => if v = s.1.nVars then eq else m1 v
    have hm2 : ∀ v < s.1.nVars, m2 v = m1 v := fun v hv => if_neg (Nat.ne_of_lt hv)
    have hold : ∀ v < g.nVars, m2 v = m v := fun v hv =>
      (hm2 v (hv.trans_le ht.le)).trans (h1 v hv)
    have hnv : m2 s.1.nVars = eq := if_pos rfl
    refine ⟨m2, hold, (hadd.sat m2).2 ⟨(sat_congr ht.below hm2).2 h2, fun he => ?_⟩,
      fun n e he => ?_⟩
    · have e0 : implModel impl m2 0 (varOf c impl cand) = implModel impl m 0 (varOf c impl cand) :=
        hold _ (by omega)
      have e2 : implModel impl m2 2 (varOf c impl cand) = implModel impl m 2 (varOf c impl cand) :=
        hold _ hlt
      rw [hnv] at he
      rw [e0, e2]
      exact beq_iff_eq.1 he
    · rcases hfind n e he with ⟨rfl, rfl⟩ | ⟨-, he⟩
      · exact hnv
      · rw [hm2 e (ht.fresh n e he).2.2]
        exact h3 n e he

theorem addTrigger_foldl {g : GInterface} (hb : Below g.nVars g.clauses) {cands : List NodeId}
    (h : ∀ n ∈ cands, impl.Known (c.node n).name ∧
      varOf c impl n + impl.numVars * 2 < g.nVars) :
    Triggered impl c cands g (cands.foldl (addTrigger impl c) (g, ∅)).1
      (cands.foldl (addTrigger impl c) (g, ∅)).2 := by
  induction cands using List.reverseRecOn with
  | nil => exact ⟨le_rfl, hb, by simp, by simp, by simp, by simp, fun m hm => ⟨m, by simp, hm, by simp⟩⟩
  | append_singleton cands cand ih =>
    rw [List.foldl_append]
    have hc := h cand (by simp)
    exact (ih fun n hn => h n (by simp [hn])).snoc hc.1 hc.2

/-! ## The whole formula -/

section
variable (hn : Names impl spec c seed candInputs)
include hn

/-- The parts of the formula, with the variables that each has. -/
theorem makeSolver_parts :
    Below (makeBase impl spec c seed).nVars (makeBase impl spec c seed).clauses ∧
    Below (makeNEqual0 impl spec c seed).nVars (makeNEqual0 impl spec c seed).clauses ∧
    (makeBase impl spec c seed).nVars ≤ (makeNEqual0 impl spec c seed).nVars ∧
    (makeNEqual0 impl spec c seed).nVars ≤ (makeNEqual1 impl spec c seed).nVars ∧
    (makeEnables impl spec c seed).nVars = (makeNEqual1 impl spec c seed).nVars + 2 ∧
    (makeEnables impl spec c seed).clauses = (makeNEqual1 impl spec c seed).clauses ∧
    Triggered impl c candInputs (makeEnables impl spec c seed)
      (makeSolver impl spec c seed candInputs).glu
      (makeSolver impl spec c seed candInputs).eqTrigger := by
  have hA := (makeBase_adds hn).below (fun _ h => by cases h)
  have hB : Adds _ (makeNEqual0 impl spec c seed) _ := setNEqual_adds (makeBase impl spec c seed)
    (outs c impl impl.numVars) (outs c spec (impl.numVars * 4))
  have hC : Adds _ (makeNEqual1 impl spec c seed) _ := setNEqual_adds (makeNEqual0 impl spec c seed)
    (outs c impl (impl.numVars * 2)) (outs c spec (impl.numVars * 4 + spec.numVars))
  have hv : (makeEnables impl spec c seed).nVars = (makeNEqual1 impl spec c seed).nVars + 2 := by
    simp only [makeEnables, genLit, Int.natAbs_natCast]
    omega
  have hcl : (makeEnables impl spec c seed).clauses = (makeNEqual1 impl spec c seed).clauses := rfl
  refine ⟨hA, hB.below hA, hB.le, hC.le, hv, hcl, addTrigger_foldl ?_ fun n hnc => ⟨hn.cands n hnc, ?_⟩⟩
  · rw [hv, hcl]
    exact (hC.below (hB.below hA)).mono (by omega)
  · obtain ⟨po, hpo⟩ := List.exists_mem_of_ne_nil _ hn.nonempty
    have h1 := makeBase_lt hn hpo
    have h2 := varOf_lt (hn.cands n hnc)
    have h3 := hB.le
    have h4 := hC.le
    omega

theorem makeSolver_sound {m : Model}
    (hm : Sat m (makeSolver impl spec c seed candInputs).glu.clauses) :
    Must impl spec c seed false (implModel impl m 0) (implModel impl m 1) (specModel impl spec m 0) ∧
    Must impl spec c seed true (implModel impl m 3) (implModel impl m 2) (specModel impl spec m 1) ∧
    ∀ sig ∈ candInputs, m ((makeSolver impl spec c seed candInputs).eq sig) = true →
      implModel impl m 0 (varOf c impl sig) = implModel impl m 2 (varOf c impl sig) := by
  obtain ⟨-, -, -, -, -, hcl, ht⟩ := makeSolver_parts hn
  obtain ⟨h1, h2⟩ := ht.sound m hm
  rw [hcl] at h1
  obtain ⟨h3, po1, hpo1, h4⟩ := (neq_adds hn _ _ _).1 m h1
  obtain ⟨h5, po0, hpo0, h6⟩ := (neq_adds hn _ _ _).1 m h3
  have hB := (((makeBase_adds hn).sat m).1 h5).2
  refine ⟨⟨hB.sat 0 (by omega), hB.sat 1 (by omega), hB.satS 0 (by omega), hB.seedAt 0 (by omega),
    hB.seedAt 1 (by omega), fun pi hpi => ⟨hB.inputs pi hpi 0 (by omega),
      hB.inputs pi hpi 1 (by omega)⟩, hB.outputs0, ⟨po0, hpo0, ?_⟩⟩,
    ⟨hB.sat 3 (by omega), hB.sat 2 (by omega), hB.satS 1 (by omega), hB.seedAt 3 (by omega),
    hB.seedAt 2 (by omega), fun pi hpi => ⟨hB.inputs pi hpi 3 (by omega),
      hB.inputs pi hpi 2 (by omega)⟩, hB.outputs1, ⟨po1, hpo1, ?_⟩⟩, fun sig hsig he => ?_⟩
  · simpa only [implModel, specModel, Nat.mul_one, Nat.mul_zero, Nat.add_zero] using h6
  · simpa only [implModel, specModel, Nat.mul_one] using h4
  · obtain ⟨e, hf⟩ := ht.dom sig hsig
    rw [Made.eq, hf] at he
    exact h2 sig e hf he

theorem makeSolver_extend (mi ms : Nat → Model)
    (h0 : Must impl spec c seed false (mi 0) (mi 1) (ms 0))
    (h1 : Must impl spec c seed true (mi 3) (mi 2) (ms 1)) (b0 b1 : Bool) :
    ∃ m, Sat m (makeSolver impl spec c seed candInputs).glu.clauses ∧
      m (makeSolver impl spec c seed candInputs).enIn0 = b0 ∧
      m (makeSolver impl spec c seed candInputs).enIn1 = b1 ∧
      (∀ k < 4, ∀ i < impl.numVars, implModel impl m k i = mi k i) ∧
      ∀ sig ∈ candInputs, m ((makeSolver impl spec c seed candInputs).eq sig) =
        (mi 0 (varOf c impl sig) == mi 2 (varOf c impl sig)) := by
  obtain ⟨hA, hB, hle0, hle1, hv, hcl, ht⟩ := makeSolver_parts hn
  have hsix : ((makeBase impl spec c seed).nVars ≥ impl.numVars * 4) := by
    obtain ⟨po, hpo⟩ := List.exists_mem_of_ne_nil _ hn.nonempty
    have := makeBase_lt hn hpo
    omega
  have hkk : ∀ k < 4, ∀ i < impl.numVars, i + impl.numVars * k < impl.numVars * 4 := by
    intro k hk i hi
    calc
      i + impl.numVars * k < impl.numVars + impl.numVars * k := by omega
      _ = impl.numVars * (k + 1) := by rw [Nat.mul_succ, Nat.add_comm]
      _ ≤ impl.numVars * 4 := Nat.mul_le_mul_left _ hk
  have hm0 := ((makeBase_adds hn).sat (six impl spec mi ms)).2 ⟨by simp, six_base hn h0 h1⟩
  have hlt := outputs_lt hn
  have himpl : ∀ k < 4, ∀ i < impl.numVars, implModel impl (six impl spec mi ms) k i = mi k i :=
    fun k hk i hi => six_impl hk hi
  have hspec : ∀ k, ∀ i < spec.numVars, specModel impl spec (six impl spec mi ms) k i = ms k i :=
    fun k i hi => six_spec hi
  -- the two comparisons
  obtain ⟨m1, hm1, hs1⟩ := (neq_adds hn (makeBase impl spec c seed) impl.numVars
    (impl.numVars * 4)).2 (fun po hpo => (hlt po hpo).1) hA _ hm0 (by
      obtain ⟨po, hpo, hd⟩ := h0.outputs'
      have e1 := himpl 1 (by omega) _ (varOf_lt (hn.outputs po hpo).1)
      have e2 := hspec 0 _ (varOf_lt (hn.outputs po hpo).2)
      simp only [implModel, specModel, Nat.mul_one, Nat.mul_zero, Nat.add_zero] at e1 e2
      exact ⟨po, hpo, by rw [e1, e2]; exact hd⟩)
  obtain ⟨m2, hm2, hs2⟩ := (neq_adds hn (makeNEqual0 impl spec c seed) (impl.numVars * 2)
    (impl.numVars * 4 + spec.numVars)).2
    (fun po hpo => ⟨(hlt po hpo).2.1.trans_le hle0, (hlt po hpo).2.2.trans_le hle0⟩) hB _ hs1 (by
      obtain ⟨po, hpo, hd⟩ := h1.outputs'
      have e1 := himpl 2 (by omega) _ (varOf_lt (hn.outputs po hpo).1)
      have e2 := hspec 1 _ (varOf_lt (hn.outputs po hpo).2)
      simp only [implModel, specModel, Nat.mul_one] at e1 e2
      refine ⟨po, hpo, ?_⟩
      rw [hm1 _ (hlt po hpo).2.1, hm1 _ (hlt po hpo).2.2, e1, e2]
      exact hd)
  have hold2 : ∀ v < impl.numVars * 4, m2 v = six impl spec mi ms v := fun v hv =>
    (hm2 v ((hv.trans_le hsix).trans_le hle0)).trans (hm1 v (hv.trans_le hsix))
  -- the enables
  let nv := (makeNEqual1 impl spec c seed).nVars
  let m3 : Model := fun v => if v = nv then b0 else if v = nv + 1 then b1 else m2 v
  have hm3 : ∀ v < nv, m3 v = m2 v := fun v hv => by
    have h2 : v ≠ nv := by omega
    have h3 : v ≠ nv + 1 := by omega
    simp only [m3, if_neg h2, if_neg h3]
  have hs3 : Sat m3 (makeEnables impl spec c seed).clauses := by
    rw [hcl]
    refine (sat_congr ?_ hm3).2 hs2
    exact (setNEqual_adds _ _ _).below hB
  obtain ⟨m4, hm4, hs4, htr⟩ := ht.extend m3 hs3
  have hold : ∀ k < 4, ∀ i < impl.numVars, implModel impl m3 k i = mi k i := by
    intro k hk i hi
    have h4 := hkk k hk i hi
    rw [← himpl k hk i hi, implModel, implModel,
      hm3 _ (by omega), hold2 _ h4]
  refine ⟨m4, hs4, ?_, ?_, fun k hk i hi => ?_, fun sig hsig => ?_⟩
  · have : m4 nv = m3 nv := hm4 nv (by omega)
    exact this.trans (if_pos rfl)
  · have h2 : m4 (nv + 1) = m3 (nv + 1) := hm4 (nv + 1) (by omega)
    have h3 : m3 (nv + 1) = b1 := by
      have h4 : nv + 1 ≠ nv := by omega
      simp only [m3, if_neg h4, if_pos]
    exact h2.trans h3
  · have h4 := hkk k hk i hi
    rw [← hold k hk i hi, implModel, implModel, hm4 _ (by omega)]
  · obtain ⟨e, hf⟩ := ht.dom sig hsig
    have hlt' := varOf_lt (hn.cands sig hsig)
    rw [Made.eq, hf, Option.getD_some, htr sig e hf, hold 0 (by omega) _ hlt',
      hold 2 (by omega) _ hlt']

end

/-! ## The groups of variables -/

/-- Every group lies above the ones before. -/
def Ascending : Nat → List (List Nat) → Nat → Prop
  | lo, [], hi => lo ≤ hi
  | lo, A :: gs, hi => ∃ mid, lo ≤ mid ∧ (∀ a ∈ A, lo ≤ a ∧ a < mid) ∧ Ascending mid gs hi

theorem ascending_spec : ∀ {gs : List (List Nat)} {lo hi : Nat}, Ascending lo gs hi →
    lo ≤ hi ∧ gs.Pairwise List.Disjoint ∧ ∀ A ∈ gs, ∀ a ∈ A, lo ≤ a ∧ a < hi
  | [], _, _, h => ⟨h, .nil, by simp⟩
  | A :: gs, lo, hi, ⟨mid, h1, h2, h3⟩ => by
    obtain ⟨h4, h5, h6⟩ := ascending_spec h3
    refine ⟨h1.trans h4, List.pairwise_cons.2 ⟨fun B hB a ha hb => ?_, h5⟩, fun B hB a ha => ?_⟩
    · have := (h2 a ha).2
      have := (h6 B hB a hb).1
      omega
    · rcases List.mem_cons.1 hB with rfl | hB
      · exact ⟨(h2 a ha).1, (h2 a ha).2.trans_le h4⟩
      · exact ⟨h1.trans (h6 B hB a ha).1, (h6 B hB a ha).2⟩

theorem Ascending.append : ∀ {gs gs' : List (List Nat)} {lo mid hi : Nat}, Ascending lo gs mid →
    Ascending mid gs' hi → Ascending lo (gs ++ gs') hi
  | [], [], _, _, _, h, h' => Nat.le_trans h h'
  | [], _ :: _, _, _, _, h, ⟨m, h1, h2, h3⟩ =>
    ⟨m, Nat.le_trans h h1, fun a ha => ⟨Nat.le_trans h (h2 a ha).1, (h2 a ha).2⟩, h3⟩
  | _ :: _, _, _, _, _, ⟨m, h1, h2, h3⟩, h' => ⟨m, h1, h2, h3.append h'⟩

theorem triggers_ascending : ∀ {cands : List NodeId},
    (∀ n ∈ cands, impl.Known (c.node n).name) → ∀ s : GInterface × OrdMap NodeId Nat,
      Ascending s.1.nVars ((triggers impl c cands s).map fun e => [e])
        (cands.foldl (addTrigger impl c) s).1.nVars
  | [], _, _ => le_rfl
  | cand :: cands, h, s => by
    have hlt := (addTrigger_adds (h cand (by simp)) s).2
    refine ⟨_, hlt.le, fun a ha => ?_, triggers_ascending (fun n hn => h n (by simp [hn])) _⟩
    rw [List.mem_singleton.1 ha]
    exact ⟨le_rfl, hlt⟩

theorem triggers_over {V : Nat → Prop} : ∀ {cands : List NodeId} {s : GInterface × OrdMap NodeId Nat},
    (∀ n ∈ cands, impl.Known (c.node n).name) → Over V s.1.clauses →
    (∀ e ∈ triggers impl c cands s, V e) →
    (∀ n ∈ cands, V (varOf c impl n) ∧ V (varOf c impl n + impl.numVars * 2)) →
    Over V (cands.foldl (addTrigger impl c) s).1.clauses
  | [], _, _, h, _, _ => h
  | cand :: cands, s, hk, h, he, hv => by
    have hc := hk cand (by simp)
    refine triggers_over (s := addTrigger impl c s cand) (fun n hn => hk n (by simp [hn]))
      (h.ifTrueThenEQ ?_ ?_) (fun e h' => he e (List.mem_cons_of_mem _ h'))
      fun n hn => hv n (by simp [hn])
    · simp only [List.zip_cons_cons, List.zip_nil_right, List.mem_singleton, forall_eq, hc.natAbs,
        hc.natAbs_add]
      exact hv cand (by simp)
    · rw [Int.natAbs_natCast]
      exact he _ (by simp [triggers])

theorem mem_mentioned {cnf : CNFGenerator} {nodes : List NodeId} {offset a : Nat} :
    a ∈ mentioned c cnf nodes offset ↔
      (∃ cl ∈ cnf.cnf, ∃ l ∈ cl, l.1 + offset = a) ∨ ∃ n ∈ nodes, varOf c cnf n + offset = a := by
  simp only [mentioned, List.map_append, List.map_map, List.mem_append, List.mem_map,
    List.mem_flatten, Function.comp]
  refine or_congr ⟨?_, ?_⟩ Iff.rfl
  · rintro ⟨l, ⟨cl, hcl, hl⟩, he⟩
    exact ⟨cl, hcl, l, hl, he⟩
  · rintro ⟨cl, hcl, l, hl, he⟩
    exact ⟨l, ⟨cl, hcl, hl⟩, he⟩

theorem mentioned_lt {cnf : CNFGenerator} {nodes : List NodeId} {offset a : Nat}
    (hb : Below cnf.numVars cnf.cnf) (hk : ∀ n ∈ nodes, cnf.Known (c.node n).name)
    (ha : a ∈ mentioned c cnf nodes offset) : offset ≤ a ∧ a < offset + cnf.numVars := by
  rcases mem_mentioned.1 ha with ⟨cl, hcl, l, hl, rfl⟩ | ⟨n, hnn, rfl⟩
  · have := hb cl hcl l hl
    omega
  · have := varOf_lt (hk n hnn)
    omega

section
variable (hn : Names impl spec c seed candInputs)
include hn

theorem mentioned_impl {k a : Nat} (ha : a ∈ mentioned c impl
    (seed :: c.inputs ++ c.outputs ++ candInputs) (impl.numVars * k)) :
    impl.numVars * k ≤ a ∧ a < impl.numVars * (k + 1) := by
  refine mentioned_lt hn.implBelow (fun n h => ?_) ha
  simp only [List.cons_append, List.mem_cons, List.mem_append] at h
  rcases h with rfl | (h | h) | h
  · exact hn.seed
  · exact (hn.inputs n h).1
  · exact (hn.outputs n h).1
  · exact hn.cands n h

theorem mentioned_spec {k a : Nat} (ha : a ∈ mentioned c spec (c.inputs ++ c.outputs) k) :
    k ≤ a ∧ a < k + spec.numVars := by
  refine mentioned_lt hn.specBelow (fun n h => ?_) ha
  rcases List.mem_append.1 h with h | h
  · exact (hn.inputs n h).2
  · exact (hn.outputs n h).2

/-- What is mentioned for the last copy is a variable before the comparisons begin. -/
theorem mentioned_base {a : Nat} (ha : a ∈ mentioned c spec (c.inputs ++ c.outputs)
    (impl.numVars * 4 + spec.numVars)) : a < (makeBase impl spec c seed).nVars := by
  have hout : ∀ g : GInterface, g.nVars ≤ ((g.setEquals (outs c impl 0)
      (outs c spec (impl.numVars * 4))).setEquals (outs c impl (impl.numVars * 3))
      (outs c spec (impl.numVars * 4 + spec.numVars))).nVars := fun g =>
    (setEquals_adds _ _ _).le.trans (setEquals_adds _ _ _).le
  rcases mem_mentioned.1 ha with ⟨cl, hcl, l, hl, rfl⟩ | ⟨n, hnn, rfl⟩
  · have h1 := addCNF_lt (((List.range 4).foldl (fun glu i =>
      addCNF glu impl ((impl.numVars * i : Nat) : Int)) {}).addCNF spec
      ((impl.numVars * 4 : Nat) : Int)) spec (impl.numVars * 4 + spec.numVars) hcl hl
    exact h1.trans_le (((setSeed_adds hn.seed _).le.trans (setInputs_adds hn.inputs _).le).trans
      (hout _))
  · rcases List.mem_append.1 hnn with h | h
    · refine Nat.lt_of_lt_of_le ?_ (hout _)
      obtain ⟨h1, h2⟩ := hn.inputs n h
      refine foldl_lt (fun b hb g => (tieInput_adds (hn.inputs b hb).1 (hn.inputs b hb).2 g).le) h
        (fun g => ?_) _
      have hlt : impl.var (c.node n).name < impl.numVars := h1.lt
      have := (setEqual_lt (g := ((g.setEqual (impl.getIndex (c.node n).name)
        (spec.getIndex (c.node n).name + ((impl.numVars * 4 : Nat) : Int))).setEqual
        (impl.getIndex (c.node n).name + (impl.numVars : Int))
        (spec.getIndex (c.node n).name + ((impl.numVars * 4 : Nat) : Int))).setEqual
        (impl.getIndex (c.node n).name + ((impl.numVars * 2 : Nat) : Int))
        (spec.getIndex (c.node n).name + ((impl.numVars * 4 + spec.numVars : Nat) : Int)))
        (a := impl.getIndex (c.node n).name + ((impl.numVars * 3 : Nat) : Int))
        (b := spec.getIndex (c.node n).name + ((impl.numVars * 4 + spec.numVars : Nat) : Int))
        (by rw [h1.getIndex, h2.getIndex]; omega)).2
      rwa [h2.natAbs_add] at this
    · exact makeBase_lt hn h

theorem fixedGroups_ascending : Ascending 0 (fixedGroups impl spec c seed candInputs)
    ((makeNEqual1 impl spec c seed).nVars + 2) := by
  have haux : ∀ (g : GInterface) (k k' : Nat),
      ∀ a ∈ (List.range c.outputs.length).map (g.nVars + ·),
        g.nVars ≤ a ∧ a < (g.setNEqual (outs c impl k) (outs c spec k')).nVars := by
    intro g k k' a ha
    obtain ⟨i, hi, rfl⟩ := List.mem_map.1 ha
    exact ⟨Nat.le_add_right _ _, setNEqual_lt _ _ _ (by
      rw [outs, List.length_map]; exact List.mem_range.1 hi)⟩
  have hS0 : ∀ a ∈ mentioned c spec (c.inputs ++ c.outputs) (impl.numVars * 4 + spec.numVars * 0),
      impl.numVars * 4 ≤ a ∧ a < impl.numVars * 4 + spec.numVars := fun a ha => by
    have := mentioned_spec hn ha
    omega
  have hS1 : ∀ a ∈ mentioned c spec (c.inputs ++ c.outputs) (impl.numVars * 4 + spec.numVars * 1),
      impl.numVars * 4 + spec.numVars ≤ a ∧ a < (makeBase impl spec c seed).nVars := fun a ha => by
    rw [Nat.mul_one] at ha
    exact ⟨(mentioned_spec hn ha).1, mentioned_base hn ha⟩
  have hle : impl.numVars * 4 + spec.numVars ≤ (makeBase impl spec c seed).nVars := by
    obtain ⟨po, hpo⟩ := List.exists_mem_of_ne_nil _ hn.nonempty
    have := makeBase_lt hn hpo
    omega
  obtain ⟨-, -, hle0, hle1, -⟩ := makeSolver_parts hn
  refine ⟨impl.numVars * 1, by omega, fun a ha => mentioned_impl hn ha,
    impl.numVars * 2, by omega, fun a ha => mentioned_impl hn ha,
    impl.numVars * 3, by omega, fun a ha => mentioned_impl hn ha,
    impl.numVars * 4, by omega, fun a ha => mentioned_impl hn ha,
    impl.numVars * 4 + spec.numVars, by omega, hS0,
    (makeBase impl spec c seed).nVars, hle, hS1,
    (makeNEqual0 impl spec c seed).nVars, hle0, haux _ _ _,
    (makeNEqual1 impl spec c seed).nVars, hle1, haux _ _ _,
    (makeNEqual1 impl spec c seed).nVars + 1, by omega, ?_,
    (makeNEqual1 impl spec c seed).nVars + 2, by omega, ?_, le_rfl⟩
  · intro a ha
    rw [List.mem_singleton.1 ha]
    exact ⟨le_rfl, Nat.lt_succ_self _⟩
  · intro a ha
    rw [List.mem_singleton.1 ha]
    exact ⟨le_rfl, Nat.lt_succ_self _⟩

theorem groups_ascending : Ascending 0 (groups impl spec c seed candInputs)
    (makeSolver impl spec c seed candInputs).glu.nVars := by
  obtain ⟨-, -, -, -, hv, -⟩ := makeSolver_parts hn
  refine (fixedGroups_ascending hn).append ?_
  rw [← hv]
  exact triggers_ascending hn.cands (makeEnables impl spec c seed, ∅)

/-- Every variable of the formula has a use. -/
theorem makeSolver_over : Over (fun v => ∃ A ∈ groups impl spec c seed candInputs, v ∈ A)
    (makeSolver impl spec c seed candInputs).glu.clauses := by
  let V : Nat → Prop := fun v => ∃ A ∈ groups impl spec c seed candInputs, v ∈ A
  have hfix : ∀ A ∈ fixedGroups impl spec c seed candInputs, ∀ v ∈ A, V v := fun A hA v hv =>
    ⟨A, List.mem_append_left _ hA, hv⟩
  have hI : ∀ k < 4, ∀ v ∈ mentioned c impl (seed :: c.inputs ++ c.outputs ++ candInputs)
      (impl.numVars * k), V v := fun k hk => hfix _ (by
    rw [fixedGroups, List.append_assoc]
    exact List.mem_append_left _ (List.mem_map.2 ⟨k, List.mem_range.2 hk, rfl⟩))
  have hS : ∀ k < 2, ∀ v ∈ mentioned c spec (c.inputs ++ c.outputs)
      (impl.numVars * 4 + spec.numVars * k), V v := fun k hk => hfix _ (by
    rw [fixedGroups, List.append_assoc]
    exact List.mem_append_right _ (List.mem_append_left _
      (List.mem_map.2 ⟨k, List.mem_range.2 hk, rfl⟩)))
  have hX : ∀ v, (∃ i < c.outputs.length, (makeBase impl spec c seed).nVars + i = v ∨
      (makeNEqual0 impl spec c seed).nVars + i = v) → V v := by
    rintro v ⟨i, hi, rfl | rfl⟩
    · exact hfix ((List.range c.outputs.length).map ((makeBase impl spec c seed).nVars + ·))
        (by simp [fixedGroups]) _ (List.mem_map.2 ⟨i, List.mem_range.2 hi, rfl⟩)
    · exact hfix ((List.range c.outputs.length).map ((makeNEqual0 impl spec c seed).nVars + ·))
        (by simp [fixedGroups]) _ (List.mem_map.2 ⟨i, List.mem_range.2 hi, rfl⟩)
  -- the variables of the nodes in the copies
  have hIn : ∀ k < 4, ∀ n ∈ seed :: c.inputs ++ c.outputs ++ candInputs,
      V (varOf c impl n + impl.numVars * k) := fun k hk n h =>
    hI k hk _ (mem_mentioned.2 (.inr ⟨n, h, rfl⟩))
  have hSn : ∀ k < 2, ∀ n ∈ c.inputs ++ c.outputs,
      V (varOf c spec n + (impl.numVars * 4 + spec.numVars * k)) := fun k hk n h =>
    hS k hk _ (mem_mentioned.2 (.inr ⟨n, h, rfl⟩))
  have hout : ∀ k < 4, ∀ j < 2, ∀ p ∈ (outs c impl (impl.numVars * k)).zip
      (outs c spec (impl.numVars * 4 + spec.numVars * j)), V p.1.natAbs ∧ V p.2.natAbs := by
    intro k hk j hj
    rw [zip_outs, List.forall_mem_map]
    intro po hpo
    rw [(hn.outputs po hpo).1.natAbs_add, (hn.outputs po hpo).2.natAbs_add]
    exact ⟨hIn k hk po (by simp [hpo]), hSn j hj po (by simp [hpo])⟩
  have h00 := hout 0 (by omega) 0 (by omega)
  have h10 := hout 1 (by omega) 0 (by omega)
  have h21 := hout 2 (by omega) 1 (by omega)
  have h31 := hout 3 (by omega) 1 (by omega)
  rw [Nat.mul_zero, Nat.mul_zero, Nat.add_zero] at h00
  rw [Nat.mul_one, Nat.mul_zero, Nat.add_zero] at h10
  rw [Nat.mul_one] at h21 h31
  have hcopies : Over V (addCopies impl spec {}).clauses := by
    refine ((Over.foldl (fun c hc => by cases hc) fun k hk g hg => hg.addCNF fun cl hcl l hl =>
      hI k (List.mem_range.1 hk) _ (mem_mentioned.2 (.inl ⟨cl, hcl, l, hl, rfl⟩))).addCNF
      fun cl hcl l hl => hS 0 (by omega) _ (mem_mentioned.2 (.inl ⟨cl, hcl, l, hl, rfl⟩))).addCNF
      fun cl hcl l hl => hS 1 (by omega) _ (mem_mentioned.2 (.inl ⟨cl, hcl, l, hl, ?_⟩))
    rw [Nat.mul_one]
  have hseed : Over V (setSeed impl c seed (addCopies impl spec {})).clauses := by
    refine Over.foldl hcopies fun k hk g hg => hg.addClause fun l hl => ?_
    rw [List.mem_singleton.1 hl, hn.seed.natAbs_add]
    exact hIn k (List.mem_range.1 hk) seed (by simp)
  have hinputs :
      Over V (setInputs impl spec c (setSeed impl c seed (addCopies impl spec {}))).clauses := by
    refine Over.foldl hseed fun pi hpi g hg => ?_
    obtain ⟨k1, k2⟩ := hn.inputs pi hpi
    have e0 := hIn 0 (by omega) pi (by simp [hpi])
    have e1 := hIn 1 (by omega) pi (by simp [hpi])
    have e2 := hIn 2 (by omega) pi (by simp [hpi])
    have e3 := hIn 3 (by omega) pi (by simp [hpi])
    have s0 := hSn 0 (by omega) pi (by simp [hpi])
    have s1 := hSn 1 (by omega) pi (by simp [hpi])
    rw [Nat.mul_one] at e1 s1
    refine (((hg.setEqual ?_ ?_).setEqual ?_ ?_).setEqual ?_ ?_).setEqual ?_ ?_ <;>
      simp only [k1.natAbs, k1.natAbs_add, k2.natAbs_add]
    all_goals assumption
  have hbase : Over V (makeBase impl spec c seed).clauses := (hinputs.setEquals h00).setEquals h31
  have hneq : Over V (makeNEqual1 impl spec c seed).clauses :=
    (hbase.setNEqual h10 fun i hi => hX _ ⟨i, by rwa [outs, List.length_map] at hi, .inl rfl⟩).setNEqual
      h21 fun i hi => hX _ ⟨i, by rwa [outs, List.length_map] at hi, .inr rfl⟩
  refine triggers_over hn.cands (s := (makeEnables impl spec c seed, ∅)) hneq (fun e he => ?_)
    fun n hnc => ⟨hIn 0 (by omega) n (by simp [hnc]), hIn 2 (by omega) n (by simp [hnc])⟩
  exact ⟨[e], List.mem_append_right _ (List.mem_map.2 ⟨e, he, rfl⟩), by simp⟩

/-- **The formula of `MakeSolver`**: with the triggers of `sigs` set it asks for an assignment where
the seed must be 0 and one where it must be 1 that agree on `sigs`. No variable has two uses. -/
theorem makeSolver_sat {sigs : List NodeId} (hsigs : ∀ sig ∈ sigs, sig ∈ candInputs) (b0 b1 : Bool) :
    ((∃ m, Sat m (makeSolver impl spec c seed candInputs).glu.clauses ∧
      Holds m (sigs.map (fun sig => ((makeSolver impl spec c seed candInputs).eq sig, true)) ++
        [((makeSolver impl spec c seed candInputs).enIn0, b0),
          ((makeSolver impl spec c seed candInputs).enIn1, b1)])) ↔
      ∃ m0 m1 m2 m3 s0 s1, Must impl spec c seed false m0 m1 s0 ∧
        Must impl spec c seed true m3 m2 s1 ∧
        ∀ sig ∈ sigs, m0 (varOf c impl sig) = m2 (varOf c impl sig)) ∧
    (groups impl spec c seed candInputs).Pairwise List.Disjoint ∧
    ∀ cl ∈ (makeSolver impl spec c seed candInputs).glu.clauses, ∀ l ∈ cl,
      ∃ A ∈ groups impl spec c seed candInputs, l.1 ∈ A := by
  refine ⟨⟨?_, ?_⟩, (ascending_spec (groups_ascending hn)).2.1, makeSolver_over hn⟩
  · rintro ⟨m, hm, has⟩
    obtain ⟨h0, h1, h2⟩ := makeSolver_sound hn hm
    exact ⟨_, _, _, _, _, _, h0, h1, fun sig hsig => h2 sig (hsigs sig hsig)
      (has _ (List.mem_append_left _ (List.mem_map.2 ⟨sig, hsig, rfl⟩)))⟩
  · rintro ⟨m0, m1, m2, m3, s0, s1, h0, h1, h2⟩
    obtain ⟨m, hm, he0, he1, -, htr⟩ := makeSolver_extend hn
      (fun k => [m0, m1, m2, m3].getD k m0) (fun k => [s0, s1].getD k s0) h0 h1 b0 b1
    refine ⟨m, hm, ?_⟩
    simp only [holds_append, holds_cons, he0, he1, holds_nil, and_true]
    intro l hl
    obtain ⟨sig, hsig, rfl⟩ := List.mem_map.1 hl
    rw [htr sig (hsigs sig hsig)]
    exact beq_iff_eq.2 (h2 sig hsig)

end

/-- The seed `t` is the only output, and `a` the only input. -/
def seedOnly : Circuit where
  inputs := [0]
  outputs := [1]
  allNodes := [0, 1]
  node n := if n = 0 then { name := "a", isInput := true } else { name := "t", isOutput := true }
  cluster _ := {}

/-- Variables for `a` and `t` and the clauses of `t` in terms of `a`. -/
def portsCnf (clauses : List (OrdMap Nat Bool)) : CNFGenerator :=
  { clauses, signals := ((∅ : AList fun _ : String => Nat).insert "a" 0).insert "t" 1 }

/-- The CNF of the specification makes `t` a buffer of `a`. -/
def bufferCnf : CNFGenerator := portsCnf (CNFGenerator.nodeClauses "1 1\n" [0] 1)

theorem seedOnly_names : Names (portsCnf []) bufferCnf seedOnly 1 [0] := by
  have hi : ∀ n ∈ [0, 1], (portsCnf []).Known (seedOnly.node n).name := by
    intro n hn
    rcases List.mem_pair.1 hn with rfl | rfl
    · exact ⟨0, by decide, by decide⟩
    · exact ⟨1, by decide, by decide⟩
  have hs : ∀ n ∈ [0, 1], bufferCnf.Known (seedOnly.node n).name := by
    intro n hn
    rcases List.mem_pair.1 hn with rfl | rfl
    · exact ⟨0, by decide, by decide⟩
    · exact ⟨1, by decide, by decide⟩
  refine ⟨by unfold Below; decide, by unfold Below; decide, hi 1 (by simp), fun n hn => ?_,
    fun n hn => ?_, fun n hn => ?_, List.cons_ne_nil _ _⟩
  · rw [List.mem_singleton.1 hn]
    exact ⟨hi 0 (by simp), hs 0 (by simp)⟩
  · rw [List.mem_singleton.1 hn]
    exact ⟨hi 1 (by simp), hs 1 (by simp)⟩
  · rw [List.mem_singleton.1 hn]
    exact hi 0 (by simp)

/-- The formula with the trigger of `a` set. -/
theorem makeSolver_sat_seedOnly :
    let made := makeSolver (portsCnf []) bufferCnf seedOnly 1 [0]
    (∃ m, Sat m made.glu.clauses ∧
      Holds m ([0].map (fun sig => (made.eq sig, true)) ++
        [(made.enIn0, false), (made.enIn1, false)])) ↔
      ∃ m0 m1 m2 m3 s0 s1, Must (portsCnf []) bufferCnf seedOnly 1 false m0 m1 s0 ∧
        Must (portsCnf []) bufferCnf seedOnly 1 true m3 m2 s1 ∧
        ∀ sig ∈ [0], m0 (varOf seedOnly (portsCnf []) sig) =
          m2 (varOf seedOnly (portsCnf []) sig) :=
  (makeSolver_sat seedOnly_names (fun _ => id) false false).1

end Msyn.MergeSelection
