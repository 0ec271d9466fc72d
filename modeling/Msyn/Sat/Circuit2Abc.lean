import Msyn.Circuit.Numbered
import Msyn.Sat.Encodes

/-!
# From a circuit to ABC and back as a CNF

`Circuit2Abc` writes the circuit into an ABC network, node by node; `Init` lets ABC restructure the
network and makes the CNF of what comes back. ABC's commands are the parameter `opt`: if they keep
the valuations of the network on its ports (`Reexpresses`), the CNF has the valuations of the circuit
(`initCircuit_encodes`).
-/

namespace Msyn.CNFgen

open Nodecircuit Cnf

/-- What `assert(flag == 1)` asks of a cube, and that `pSop` has room for it. -/
def SopText (cube : String) : Prop := '\n' ∈ cube.toList ∧ cube.utf8ByteSize < 99999

instance (cube : String) : Decidable (SopText cube) :=
  inferInstanceAs (Decidable ('\n' ∈ cube.toList ∧ cube.utf8ByteSize < 99999))

/-- The node that `Io_ReadCreateNode` and `Abc_ObjSetData` make of a node. -/
def abcNode (c : Circuit) (n : NodeId) : AbcNode where
  fanins := (c.node n).inputs.map fun i => (c.node i).name
  fanout := (c.node n).name
  data := (c.node n).cube

/-- The body of the loop over the nodes: the node it creates, if any. -/
def readCreateNode (c : Circuit) (exIn : List NodeId) (n : NodeId) : Option (List AbcNode) :=
  let node := c.node n
  let ignoreFlag := (exIn ++ c.inputs).any fun e =>
    node.name == (c.node e).name && node.inputs.length != 0
  if ignoreFlag then some []
  else if node.isInput then some []
  else if exIn.all (· != n) then
    if SopText node.cube then some [abcNode c n] else none
  else some []

/-- `Circuit2Abc`; `none` where the assertion fails. -/
def circuit2Abc (c : Circuit) (exIn exOut : List NodeId) : Option Netlist := do
  let nodes ← c.allNodes.mapM (readCreateNode c exIn)
  return {
    pis := (c.inputs ++ exIn.filter fun n => !(c.node n).isInput).map fun n => (c.node n).name
    pos := (c.outputs ++ exOut.filter fun n => !(c.node n).isOutput).map fun n => (c.node n).name
    nodes := nodes.flatten }

/-- The constructor and `Init`; `opt` is what ABC's commands make of a network. -/
def CNFGenerator.initCircuit (opt : Netlist → Netlist) (c : Circuit) (exIn exOut : List NodeId) :
    Option CNFGenerator := do
  let ntk ← circuit2Abc c exIn exOut
  return (abc2Cnf2 (opt ntk)).finalize c exIn exOut

/-- The second network is of two-input nodes and has the valuations of the first on its ports. -/
structure Reexpresses (ntk ntk' : Netlist) : Prop where
  simple : ntk'.Simple
  nets : ∀ a ∈ ntk.pis ++ ntk.pos, a ∈ ntk'.nets
  sound : ∀ w', ntk'.Valuation w' → ∃ w, ntk.Valuation w ∧ ∀ a ∈ ntk.pis ++ ntk.pos, w' a = w a
  complete : ∀ w, ntk.Valuation w → ∃ w', ntk'.Valuation w' ∧ ∀ a ∈ ntk.pis ++ ntk.pos, w' a = w a

theorem Reexpresses.refl {ntk : Netlist} (h : ntk.Simple) : Reexpresses ntk ntk where
  simple := h
  nets a ha := by
    simp only [Netlist.nets, List.mem_append] at ha ⊢
    exact .inl ha
  sound w hw := ⟨w, hw, fun _ _ => rfl⟩
  complete w hw := ⟨w, hw, fun _ _ => rfl⟩

section
variable {c : Circuit} {exIn exOut : List NodeId}

/-- The nodes ignored for their name are inputs of the network: names are distinct. -/
theorem readCreateNode_eq (hp : Circuit.Ports c) (hex : ∀ n ∈ exIn, n ∈ c.allNodes) {n : NodeId}
    (hn : n ∈ c.allNodes) : readCreateNode c exIn n =
      if (c.node n).isInput = false ∧ n ∉ exIn then
        if SopText (c.node n).cube then some [abcNode c n] else none
      else some [] := by
  have hall : (exIn.all (· != n)) = decide (n ∉ exIn) := by
    rw [Bool.eq_iff_iff]
    simp only [List.all_eq_true, bne_iff_ne, decide_eq_true_eq]
    exact ⟨fun h hm => h n hm rfl, fun h x hx he => h (he ▸ hx)⟩
  unfold readCreateNode
  simp only
  by_cases hc : (c.node n).isInput = false ∧ n ∉ exIn
  · obtain ⟨hi, hf⟩ := hc
    have hig : ((exIn ++ c.inputs).any fun e =>
        (c.node n).name == (c.node e).name && (c.node n).inputs.length != 0) = false := by
      rw [List.any_eq_false]
      intro e he h
      simp only [Bool.and_eq_true, beq_iff_eq] at h
      rcases List.mem_append.1 he with hm | hm
      · have := hp.names n hn e (hex e hm) h.1
        exact hf (this ▸ hm)
      · obtain ⟨hec, hei⟩ := (hp.inputs e).1 hm
        have := hp.names n hn e hec h.1
        rw [this, hei] at hi
        cases hi
    rw [hig, hi, hall]
    simp [hf]
  · rw [if_neg hc]
    split
    · rfl
    · split
      · rfl
      · rename_i hi
        have hm : n ∈ exIn := by
          by_contra hf
          exact hc ⟨by simpa using hi, hf⟩
        rw [hall]
        simp [hm]

/-- The loop over the nodes. -/
theorem mapM_readCreateNode (hp : Circuit.Ports c) (hex : ∀ n ∈ exIn, n ∈ c.allNodes)
    {l : List NodeId} (hl : ∀ n ∈ l, n ∈ c.allNodes) :
    (l.mapM (readCreateNode c exIn)).map List.flatten =
      if ∀ n ∈ l, (c.node n).isInput = false ∧ n ∉ exIn → SopText (c.node n).cube then
        some ((l.filter fun n => (c.node n).isInput = false ∧ n ∉ exIn).map (abcNode c))
      else none := by
  induction l with
  | nil => simp
  | cons n l ih =>
    have hih := ih fun m hm => hl m (List.mem_cons_of_mem n hm)
    rw [List.mapM_cons, readCreateNode_eq hp hex (hl n List.mem_cons_self)]
    simp only [List.forall_mem_cons, List.filter_cons]
    by_cases hc : (c.node n).isInput = false ∧ n ∉ exIn
    · by_cases ht : SopText (c.node n).cube
      · rw [if_pos hc, if_pos ht]
        by_cases hr : ∀ m ∈ l, (c.node m).isInput = false ∧ m ∉ exIn → SopText (c.node m).cube
        · rw [if_pos hr] at hih
          obtain ⟨ns, hns, hflat⟩ := Option.map_eq_some_iff.1 hih
          rw [if_pos ⟨fun _ => ht, hr⟩, hns, if_pos (decide_eq_true hc)]
          simp [hflat]
        · rw [if_neg hr] at hih
          rw [if_neg fun h => hr h.2, Option.map_eq_none_iff.1 hih]
          rfl
      · rw [if_pos hc, if_neg ht, if_neg fun h => ht (h.1 hc)]
        rfl
    · have hd : ¬ decide ((c.node n).isInput = false ∧ n ∉ exIn) = true := fun h =>
        hc (of_decide_eq_true h)
      rw [if_neg hc, if_neg hd, if_congr (and_iff_right fun h => absurd h hc) rfl rfl, ← hih]
      cases l.mapM (readCreateNode c exIn) <;> rfl

/-- **The network of a circuit**: the assertion fails at a created node whose cube is no text of a
SOP, and otherwise the nodes are those of `netlistOf`. -/
theorem circuit2Abc_eq (hp : Circuit.Ports c) (hex : ∀ n ∈ exIn, n ∈ c.allNodes) :
    circuit2Abc c exIn exOut =
      if ∀ n ∈ c.allNodes, (c.node n).isInput = false ∧ n ∉ exIn → SopText (c.node n).cube then
        some {
          pis := (c.inputs ++ exIn.filter fun n => !(c.node n).isInput).map fun n => (c.node n).name
          pos := (c.outputs ++ exOut.filter fun n => !(c.node n).isOutput).map
            fun n => (c.node n).name
          nodes := (netlistOf c exIn exOut).nodes }
      else none := by
  have h := mapM_readCreateNode hp hex fun n (hn : n ∈ c.allNodes) => hn
  unfold circuit2Abc
  split <;> rename_i hc
  · rw [if_pos hc] at h
    obtain ⟨ns, hns, hflat⟩ := Option.map_eq_some_iff.1 h
    rw [hns]
    simp only [Option.bind_eq_bind, Option.bind_some, hflat]
    rfl
  · rw [if_neg hc] at h
    rw [Option.map_eq_none_iff.1 h]
    rfl

/-- The ports of the network. -/
theorem circuit2Abc_ports (hp : Circuit.Ports c) (hex : ∀ n ∈ exIn, n ∈ c.allNodes)
    (hout : ∀ n ∈ exOut, (c.node n).isOutput = true → n ∈ c.outputs) {ntk : Netlist}
    (h : circuit2Abc c exIn exOut = some ntk) {n : NodeId}
    (hn : n ∈ c.inputs ++ c.outputs ++ exIn ++ exOut) :
    (c.node n).name ∈ ntk.pis ++ ntk.pos := by
  rw [circuit2Abc_eq hp hex] at h
  split at h
  swap
  · cases h
  cases h
  rw [List.mem_append]
  simp only [List.mem_append, List.append_assoc] at hn
  rcases hn with hn | hn | hn | hn
  · exact .inl (List.mem_map_of_mem (List.mem_append_left _ hn))
  · exact .inr (List.mem_map_of_mem (List.mem_append_left _ hn))
  · refine .inl (List.mem_map_of_mem ?_)
    cases hi : (c.node n).isInput with
    | false => exact List.mem_append_right _ (List.mem_filter.2 ⟨hn, by rw [hi]; rfl⟩)
    | true => exact List.mem_append_left _ ((hp.inputs n).2 ⟨hex n hn, hi⟩)
  · refine .inr (List.mem_map_of_mem ?_)
    cases ho : (c.node n).isOutput with
    | false => exact List.mem_append_right _ (List.mem_filter.2 ⟨hn, by rw [ho]; rfl⟩)
    | true => exact List.mem_append_left _ (hout n hn ho)

/-- What ABC makes of the network has the valuations of the circuit. -/
theorem circuit2Abc_delivers (hp : Circuit.Ports c) (hcl : c.Closed)
    (hex : ∀ n ∈ exIn ++ exOut, n ∈ c.allNodes)
    (hout : ∀ n ∈ exOut, (c.node n).isOutput = true → n ∈ c.outputs) {ntk ntk' : Netlist}
    (h : circuit2Abc c exIn exOut = some ntk) (hr : Reexpresses ntk ntk') :
    Delivers ntk' c exIn exOut := by
  have hexIn : ∀ n ∈ exIn, n ∈ c.allNodes := fun n hn => hex n (List.mem_append_left _ hn)
  have hport := fun n (hn : n ∈ c.inputs ++ c.outputs ++ exIn ++ exOut) =>
    circuit2Abc_ports hp hexIn hout h hn
  have hnodes : ntk.nodes = (netlistOf c exIn exOut).nodes := by
    rw [circuit2Abc_eq hp hexIn] at h
    split at h
    · cases h
      rfl
    · cases h
  have hval : ∀ w, ntk.Valuation w ↔ (netlistOf c exIn exOut).Valuation w := fun w => by
    rw [Netlist.Valuation, Netlist.Valuation, hnodes]
  refine ⟨hr.simple, fun n hn => hr.nets _ (hport n hn), fun w' hw' => ?_, fun x v hv => ?_⟩
  · obtain ⟨w, hw, he⟩ := hr.sound w' hw'
    exact ⟨w, _, netlistOf_sound ((hval w).1 hw), fun n hn => he _ (hport n hn)⟩
  · obtain ⟨w, hw, he⟩ := netlistOf_complete exOut hp hcl hv
    obtain ⟨w', hw', he'⟩ := hr.complete w ((hval w).2 hw)
    exact ⟨w', hw', fun n hn =>
      (he' _ (hport n hn)).trans (he n (ports_mem hp hex n hn))⟩

end

namespace CNFGenerator

/-- **`Init` on a circuit**: it fails exactly at a created node whose cube is no text of a SOP, and
otherwise the models of its CNF are, on the ports, the valuations of the circuit with `exIn` left
open. -/
theorem initCircuit_encodes {opt : Netlist → Netlist} {c : Circuit} {exIn exOut : List NodeId}
    (hp : Circuit.Ports c) (hcl : c.Closed) (hex : ∀ n ∈ exIn ++ exOut, n ∈ c.allNodes)
    (hout : ∀ n ∈ exOut, (c.node n).isOutput = true → n ∈ c.outputs)
    (hopt : ∀ ntk, circuit2Abc c exIn exOut = some ntk → Reexpresses ntk (opt ntk)) :
    (initCircuit opt c exIn exOut = none ↔
      ∃ n ∈ c.allNodes, (c.node n).isInput = false ∧ n ∉ exIn ∧ ¬ SopText (c.node n).cube) ∧
    ∀ g, initCircuit opt c exIn exOut = some g →
      Encodes g c exIn (c.inputs ++ c.outputs ++ exIn ++ exOut) := by
  have hexIn : ∀ n ∈ exIn, n ∈ c.allNodes := fun n hn => hex n (List.mem_append_left _ hn)
  constructor
  · have hnone : initCircuit opt c exIn exOut = none ↔ circuit2Abc c exIn exOut = none := by
      unfold initCircuit
      cases circuit2Abc c exIn exOut <;> simp
    rw [hnone, circuit2Abc_eq hp hexIn]
    split <;> rename_i hc
    · refine iff_of_false (fun h => by cases h) fun h => ?_
      obtain ⟨n, hn, hi, hf, ht⟩ := h
      exact ht (hc n hn ⟨hi, hf⟩)
    · refine iff_of_true rfl ?_
      simp only [not_forall] at hc
      obtain ⟨n, hn, h, ht⟩ := hc
      exact ⟨n, hn, h.1, h.2, ht⟩
  · intro g hg
    unfold initCircuit at hg
    cases hntk : circuit2Abc c exIn exOut with
    | none =>
      rw [hntk] at hg
      cases hg
    | some ntk =>
      rw [hntk] at hg
      cases hg
      have hd := circuit2Abc_delivers hp hcl hex hout hntk (hopt ntk hntk)
      exact @encodes_init (fun _ _ _ => opt ntk) _ _ _ hd

/-- The inputs `a` and `b`, their conjunction `t` and its negation `o`. -/
def nandGate : List Node :=
  [{ name := "a", isInput := true, outputs := [2] },
    { name := "b", isInput := true, outputs := [2] },
    { name := "t", inputs := [0, 1], outputs := [3], cube := "11 1\n" },
    { name := "o", isOutput := true, inputs := [2], cube := "0 1\n" }]

/-- With `t` as a further input the network has the one node `o`. -/
theorem initCircuit_encodes_nandGate :
    (initCircuit id (Circuit.ofNodes nandGate) [2] [0] = none ↔
      ∃ n ∈ (Circuit.ofNodes nandGate).allNodes,
        ((Circuit.ofNodes nandGate).node n).isInput = false ∧ n ∉ [2] ∧
        ¬ SopText ((Circuit.ofNodes nandGate).node n).cube) ∧
    ∀ g, initCircuit id (Circuit.ofNodes nandGate) [2] [0] = some g →
      Encodes g (Circuit.ofNodes nandGate) [2] ((Circuit.ofNodes nandGate).inputs ++
        (Circuit.ofNodes nandGate).outputs ++ [2] ++ [0]) := by
  have ho : Circuit.Ordered nandGate := by decide
  have hs : ((circuit2Abc (Circuit.ofNodes nandGate) [2] [0]).all fun ntk =>
      decide ntk.Simple) = true := by decide
  refine initCircuit_encodes ho.ports ho.mirror.closed (by decide) (by decide) fun ntk h => ?_
  rw [h] at hs
  exact Reexpresses.refl (of_decide_eq_true hs)

end CNFGenerator

end Msyn.CNFgen
