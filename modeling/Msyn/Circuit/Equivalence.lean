import Msyn.Circuit.Semantics

/-!
# Circuits that compute the outputs of a specification

A circuit is compared with its specification by the names of the ports. `Equivalent c spec`: under
every assignment of the primary inputs the outputs agree. `MustBe c spec t b x v v' w`: under `x`
the node `t` must be `b` for that.
-/

namespace Msyn.Nodecircuit

namespace Circuit

/-- The ports of a circuit are nodes of it, and names are distinct. -/
structure Ports (c : Circuit) : Prop where
  inputs : ∀ n, n ∈ c.inputs ↔ n ∈ c.allNodes ∧ (c.node n).isInput = true
  outputs : ∀ n ∈ c.outputs, n ∈ c.allNodes ∧ (c.node n).isOutput = true
  names : ∀ a ∈ c.allNodes, ∀ b ∈ c.allNodes, (c.node a).name = (c.node b).name → a = b

/-- The specification has the ports of the implementation, and reads no other input. -/
structure Interface (c spec : Circuit) : Prop where
  inputs : ∀ pi ∈ c.inputs, ∃ qi ∈ spec.inputs, (spec.node qi).name = (c.node pi).name
  inputs' : ∀ qi ∈ spec.inputs, ∃ pi ∈ c.inputs, (c.node pi).name = (spec.node qi).name
  outputs : ∀ po ∈ c.outputs, ∃ qo ∈ spec.outputs, (spec.node qo).name = (c.node po).name

/-- The outputs of the implementation have the values of those of the specification. -/
def Agree (c spec : Circuit) (v w : NodeId → Bool) : Prop :=
  ∀ po ∈ c.outputs, ∀ qo ∈ spec.outputs, (spec.node qo).name = (c.node po).name → v po = w qo

instance (c spec : Circuit) (v w : NodeId → Bool) : Decidable (Agree c spec v w) :=
  inferInstanceAs (Decidable (∀ po ∈ c.outputs, ∀ qo ∈ spec.outputs,
    (spec.node qo).name = (c.node po).name → v po = w qo))

/-- The circuit computes the outputs of the specification. -/
def Equivalent (c spec : Circuit) : Prop :=
  ∀ x v w, c.Valuation [] x v → spec.Valuation [] x w → Agree c spec v w

/-- The node `t` must be `b` under the assignment `x`: of the valuations `v` and `v'` with `t` at
`b` and at its negation only `v` has the outputs of the specification. -/
structure MustBe (c spec : Circuit) (t : NodeId) (b : Bool) (x : String → Bool)
    (v v' w : NodeId → Bool) : Prop where
  val : c.Valuation [t] x v
  val' : c.Valuation [t] x v'
  valSpec : spec.Valuation [] x w
  target : v t = b
  target' : v' t = !b
  agree : Agree c spec v w
  differ : ¬Agree c spec v' w

/-- A valuation reads the assignment at the primary inputs only. -/
theorem valuation_congr {c : Circuit} {free : List NodeId} {x x' : String → Bool}
    {v : NodeId → Bool} (h : ∀ n ∈ c.allNodes, n ∉ free → (c.node n).isInput = true →
      x (c.node n).name = x' (c.node n).name) (hv : c.Valuation free x v) :
    c.Valuation free x' v := by
  intro n hn hf
  rw [hv n hn hf, eval, eval]
  split
  · rename_i hi
    exact h n hn hf hi
  · rfl

/-- The value of a primary input. -/
theorem Valuation.input {c : Circuit} (hp : Ports c) {free : List NodeId} {x : String → Bool}
    {v : NodeId → Bool} (hv : c.Valuation free x v) {n : NodeId} (hn : n ∈ c.inputs)
    (hf : n ∉ free) : v n = x (c.node n).name := by
  obtain ⟨hnc, hi⟩ := (hp.inputs n).1 hn
  rw [hv n hnc hf, eval, if_pos hi]

/-- The nodes do not depend on `t`. -/
def Independent (c : Circuit) (t : NodeId) (sigs : List NodeId) : Prop :=
  ∀ x v v', c.Valuation [t] x v → c.Valuation [t] x v' → ∀ sig ∈ sigs, v sig = v' sig

/-- `c'` has the nodes of `c` or fewer, and differs from it in the fanins of `t` only. -/
structure Restricts (c c' : Circuit) (t : NodeId) : Prop where
  allNodes : ∀ n ∈ c'.allNodes, n ∈ c.allNodes
  pis : c'.inputs = c.inputs
  pos : c'.outputs = c.outputs
  name : ∀ n, (c'.node n).name = (c.node n).name
  isInput : ∀ n, (c'.node n).isInput = (c.node n).isInput
  inputs : ∀ n, n ≠ t → (c'.node n).inputs = (c.node n).inputs
  cube : ∀ n, n ≠ t → (c'.node n).cube = (c.node n).cube

namespace Restricts

variable {c c' spec : Circuit} {t : NodeId} (h : Restricts c c' t)
include h

theorem valuation {x : String → Bool} {v : NodeId → Bool} (hv : c.Valuation [t] x v) :
    c'.Valuation [t] x v := by
  intro n hn hf
  have hnt : n ≠ t := by simpa using hf
  rw [hv n (h.allNodes n hn) hf, eval, eval, h.isInput, h.name, h.inputs n hnt, h.cube n hnt]

theorem agree {v w : NodeId → Bool} : Agree c' spec v w ↔ Agree c spec v w := by
  simp only [Agree, h.pos, h.name]

theorem interface (hf : Interface c spec) : Interface c' spec where
  inputs pi hpi := by
    rw [h.name]
    exact hf.inputs pi (h.pis ▸ hpi)
  inputs' qi hqi := by
    obtain ⟨pi, hpi, he⟩ := hf.inputs' qi hqi
    exact ⟨pi, h.pis ▸ hpi, (h.name pi).trans he⟩
  outputs po hpo := by
    rw [h.name]
    exact hf.outputs po (h.pos ▸ hpo)

end Restricts

theorem Valuation.mono {c : Circuit} {x : String → Bool} {v : NodeId → Bool} (free : List NodeId)
    (hv : c.Valuation [] x v) : c.Valuation free x v := fun n hn _ => hv n hn (by simp)

end Circuit

end Msyn.Nodecircuit
