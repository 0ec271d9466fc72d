import Msyn.Circuit.Equivalence
import Msyn.Sat.CNFGenerator

/-!
# CNFs of circuits

`Encodes cnf c free named`: on the named nodes the models of the CNF are the valuations of the
circuit with the nodes `free` left open. ABC is a parameter: if the netlist it returns has these
valuations (`Delivers`), the CNF that `Init` makes of it encodes the circuit (`encodes_init`).
`netlistOf` is the netlist of a circuit whose nodes ABC can leave as they are.
-/

namespace Msyn.CNFgen

open Nodecircuit Cnf

/-- The netlist has the valuations of the circuit on the nets of the ports. -/
structure Delivers (ntk : Netlist) (c : Circuit) (exIn exOut : List NodeId) : Prop where
  simple : ntk.Simple
  nets : ∀ n ∈ c.inputs ++ c.outputs ++ exIn ++ exOut, (c.node n).name ∈ ntk.nets
  sound : ∀ w, ntk.Valuation w → ∃ x v, c.Valuation exIn x v ∧
    ∀ n ∈ c.inputs ++ c.outputs ++ exIn ++ exOut, w (c.node n).name = v n
  complete : ∀ x v, c.Valuation exIn x v → ∃ w, ntk.Valuation w ∧
    ∀ n ∈ c.inputs ++ c.outputs ++ exIn ++ exOut, w (c.node n).name = v n

/-- The CNF has the valuations of the circuit on the named nodes. -/
structure Encodes (cnf : CNFGenerator) (c : Circuit) (free named : List NodeId) : Prop where
  below : Below cnf.numVars cnf.cnf
  known : ∀ n ∈ named, cnf.Known (c.node n).name
  pointer : ∀ n ∈ named, cnf.getIndexNode n (c.node n).name = cnf.getIndex (c.node n).name
  sound : ∀ m, Sat m cnf.cnf → ∃ x v, c.Valuation free x v ∧
    ∀ n ∈ named, m (cnf.var (c.node n).name) = v n
  complete : ∀ x v, c.Valuation free x v → ∃ m, Sat m cnf.cnf ∧
    ∀ n ∈ named, m (cnf.var (c.node n).name) = v n

/-- The same for a CNF that is asked for names only. -/
structure Describes (cnf : CNFGenerator) (c : Circuit) (free named : List NodeId) : Prop where
  below : Below cnf.numVars cnf.cnf
  known : ∀ n ∈ named, cnf.Known (c.node n).name
  sound : ∀ m, Sat m cnf.cnf → ∃ x v, c.Valuation free x v ∧
    ∀ n ∈ named, m (cnf.var (c.node n).name) = v n
  complete : ∀ x v, c.Valuation free x v → ∃ m, Sat m cnf.cnf ∧
    ∀ n ∈ named, m (cnf.var (c.node n).name) = v n

theorem Encodes.describes {cnf : CNFGenerator} {c : Circuit} {free named : List NodeId}
    (h : Encodes cnf c free named) : Describes cnf c free named :=
  ⟨h.below, h.known, h.sound, h.complete⟩

/-- The circuit as a netlist. -/
def netlistOf (c : Circuit) (exIn exOut : List NodeId) : Netlist where
  pis := (c.inputs ++ exIn).map fun n => (c.node n).name
  pos := (c.outputs ++ exOut).map fun n => (c.node n).name
  nodes := (c.allNodes.filter fun n => (c.node n).isInput = false ∧ n ∉ exIn).map fun n =>
    { fanins := (c.node n).inputs.map fun i => (c.node i).name
      fanout := (c.node n).name
      data := (c.node n).cube }

/-- A valuation of the netlist of a circuit, read at the names of the nodes. -/
theorem netlistOf_sound {c : Circuit} {exIn exOut : List NodeId} {w : String → Bool}
    (hw : (netlistOf c exIn exOut).Valuation w) :
    c.Valuation exIn w fun n => w (c.node n).name := by
  intro n hn hf
  rw [Circuit.eval]
  split
  · rfl
  · rename_i hi
    have hmem : n ∈ c.allNodes.filter fun n => (c.node n).isInput = false ∧ n ∉ exIn := by
      simp [hn, hf, hi]
    have := hw _ (List.mem_map_of_mem hmem)
    rwa [List.map_map] at this

/-- A valuation of a circuit, as one of its netlist. -/
theorem netlistOf_complete {c : Circuit} {exIn : List NodeId} (exOut : List NodeId) (hp : c.Ports)
    (hcl : c.Closed) {x : String → Bool} {v : NodeId → Bool} (hv : c.Valuation exIn x v) :
    ∃ w, (netlistOf c exIn exOut).Valuation w ∧ ∀ n ∈ c.allNodes, w (c.node n).name = v n := by
  classical
  let w : String → Bool := fun s =>
    if h : ∃ n ∈ c.allNodes, (c.node n).name = s then v h.choose else false
  have hw : ∀ n ∈ c.allNodes, w (c.node n).name = v n := by
    intro n hn
    have hex : ∃ m ∈ c.allNodes, (c.node m).name = (c.node n).name := ⟨n, hn, rfl⟩
    simp only [w, dif_pos hex]
    rw [hp.names _ hex.choose_spec.1 n hn hex.choose_spec.2]
  refine ⟨w, fun nd hnd => ?_, hw⟩
  obtain ⟨n, hn, rfl⟩ := List.mem_map.1 hnd
  obtain ⟨hnc, h1⟩ := List.mem_filter.1 hn
  obtain ⟨hi, hf⟩ := of_decide_eq_true h1
  simp only [List.map_map]
  rw [hw n hnc, hv n hnc hf, Circuit.eval, hi, if_neg Bool.false_ne_true]
  exact congrArg _ (List.map_congr_left fun i hin => (hw i (hcl n hnc i hin)).symm)

/-- The ports are nodes of the circuit. -/
theorem ports_mem {c : Circuit} {exIn exOut : List NodeId} (hp : Circuit.Ports c)
    (hex : ∀ n ∈ exIn ++ exOut, n ∈ c.allNodes) :
    ∀ n ∈ c.inputs ++ c.outputs ++ exIn ++ exOut, n ∈ c.allNodes := by
  intro n hn
  simp only [List.mem_append] at hn hex
  rcases hn with ((hn | hn) | hn) | hn
  · exact ((hp.inputs n).1 hn).1
  · exact (hp.outputs n hn).1
  · exact hex n (.inl hn)
  · exact hex n (.inr hn)

/-- **The netlist of a circuit** has its valuations. -/
theorem netlistOf_delivers {c : Circuit} {exIn exOut : List NodeId} (hp : Circuit.Ports c)
    (hcl : c.Closed) (hs : (netlistOf c exIn exOut).Simple)
    (hex : ∀ n ∈ exIn ++ exOut, n ∈ c.allNodes) :
    Delivers (netlistOf c exIn exOut) c exIn exOut where
  simple := hs
  nets n hn := by
    simp only [List.mem_append] at hn
    simp only [Netlist.nets, netlistOf, List.mem_append, List.mem_map]
    rcases hn with ((hn | hn) | hn) | hn
    · exact .inl (.inl ⟨n, .inl hn, rfl⟩)
    · exact .inl (.inr ⟨n, .inl hn, rfl⟩)
    · exact .inl (.inl ⟨n, .inr hn, rfl⟩)
    · exact .inl (.inr ⟨n, .inr hn, rfl⟩)
  sound w hw := ⟨w, _, netlistOf_sound hw, fun n _ => rfl⟩
  complete x v hv := by
    obtain ⟨w, hw, hval⟩ := netlistOf_complete exOut hp hcl hv
    exact ⟨w, hw, fun n hn => hval n (ports_mem hp hex n hn)⟩

namespace CNFGenerator

/-- `Init` on a circuit whose further ports are nodes of another circuit `c'`. -/
def initAlso (ntk : Netlist) (c c' : Circuit) (exIn exOut : List NodeId) : CNFGenerator :=
  (exIn ++ exOut).foldl (cache c') ((abc2Cnf2 ntk).finalize c [] [])

/-- The generator has the clauses of `g`, and numbers the names as it does. -/
structure Numbers (g g' : CNFGenerator) : Prop where
  signals : g'.signals = g.signals
  clauses : g'.clauses = g.clauses
  string : ∀ a i, g'.cacheString.lookup a = some i → g.signals.lookup a = some i

section
variable {g g' : CNFGenerator}

theorem Numbers.refl (h : g.cacheString = ∅) : Numbers g g where
  signals := rfl
  clauses := rfl
  string a i hi := by
    rw [h] at hi
    cases hi

theorem Numbers.getIndex (h : Numbers g g') {a : String} {i : Nat}
    (ha : g.signals.lookup a = some i) : g'.getIndex a = i := by
  unfold CNFGenerator.getIndex
  cases hl : g'.cacheString.lookup a with
  | none => simp only [h.signals, ha]
  | some j =>
    have := h.string a j hl
    rw [ha] at this
    cases this
    rfl

/-- A port that has a net enters no name. -/
theorem Numbers.cache (h : Numbers g g') {c : Circuit} {n : NodeId}
    (hn : (g.signals.lookup (c.node n).name).isSome) : Numbers g (cache c g' n) := by
  obtain ⟨i, hi⟩ := Option.isSome_iff_exists.1 hn
  have hi' := hi
  rw [← h.signals] at hi'
  have he : CNFGenerator.cache c g' n = { g' with
      cacheNode := g'.cacheNode.insert n i
      cacheString := g'.cacheString.insert (c.node n).name i } := by
    simp only [CNFGenerator.cache, hi', Option.getD_some]
  rw [he]
  refine ⟨h.signals, h.clauses, fun a j hj => ?_⟩
  simp only at hj
  by_cases ha : a = (c.node n).name
  · rw [ha, AList.lookup_insert] at hj
    rw [ha, hi, hj]
  · rw [AList.lookup_insert_ne ha] at hj
    exact h.string a j hj

theorem Numbers.caches {c : Circuit} {l : List NodeId}
    (hl : ∀ n ∈ l, (g.signals.lookup (c.node n).name).isSome) (h : Numbers g g') :
    Numbers g (l.foldl (CNFGenerator.cache c) g') := by
  induction l generalizing g' with
  | nil => exact h
  | cons n l ih => exact ih (fun m hm => hl m (by simp [hm])) (h.cache (hl n (by simp)))

/-- A generator that numbers the names of the netlist as `Abc2CNF2` does has its valuations. -/
theorem Numbers.describes {ntk : Netlist} {c : Circuit} {exIn exOut : List NodeId}
    (h : Delivers ntk c exIn exOut) (hN : Numbers (abc2Cnf2 ntk) g) :
    Describes g c exIn (c.inputs ++ c.outputs ++ exIn ++ exOut) := by
  obtain ⟨hnum, hdom, -⟩ := abc2Cnf2_spec ntk
  have hnv : g.numVars = (abc2Cnf2 ntk).numVars := by rw [numVars, numVars, hN.signals]
  have hcnf : g.cnf = (abc2Cnf2 ntk).cnf := by
    rw [cnf, cnf]
    exact congrArg _ hN.clauses
  have hlook : ∀ n ∈ c.inputs ++ c.outputs ++ exIn ++ exOut, ∃ i,
      (abc2Cnf2 ntk).signals.lookup (c.node n).name = some i := fun n hn =>
    Option.isSome_iff_exists.1 ((hdom _).2 (h.nets n hn))
  have hvar : ∀ n ∈ c.inputs ++ c.outputs ++ exIn ++ exOut,
      g.var (c.node n).name = (abc2Cnf2 ntk).idx (c.node n).name := by
    intro n hn
    obtain ⟨i, hi⟩ := hlook n hn
    rw [var, hN.getIndex hi, idx_eq hi]
    rfl
  refine ⟨?_, fun n hn => ?_, fun m hm => ?_, fun x v hv => ?_⟩
  · rw [hnv, hcnf]
    exact abc2Cnf2_below
  · obtain ⟨i, hi⟩ := hlook n hn
    exact ⟨i, hnv ▸ hnum.lt _ i hi, hN.getIndex hi⟩
  · rw [hcnf, abc2Cnf2_sat h.simple] at hm
    obtain ⟨x, v, hv, hval⟩ := h.sound _ hm
    exact ⟨x, v, hv, fun n hn => by rw [hvar n hn]; exact hval n hn⟩
  · obtain ⟨w, hw, hval⟩ := h.complete x v hv
    -- the value of a variable is that of the net it numbers
    choose net hnet using hnum.onto
    let m : Model := fun i => if hi : i < (abc2Cnf2 ntk).numVars then w (net i hi) else false
    have hm : ∀ a ∈ ntk.nets, m ((abc2Cnf2 ntk).idx a) = w a := by
      intro a ha
      obtain ⟨i, hi⟩ := Option.isSome_iff_exists.1 ((hdom a).2 ha)
      have hlt := hnum.lt a i hi
      rw [idx_eq hi]
      simp only [m, dif_pos hlt]
      rw [hnum.inj _ a i (hnet i hlt) hi]
    refine ⟨m, ?_, fun n hn => ?_⟩
    · rw [hcnf, abc2Cnf2_sat h.simple]
      intro nd hnd
      simp only
      rw [hm _ (mem_nets hnd (by simp)), List.map_congr_left fun a ha =>
        hm a (mem_nets hnd (by simp [ha]))]
      exact hw nd hnd
    · rw [hvar n hn, hm _ (h.nets n hn)]
      exact hval n hn

end

theorem finalize_numbers {ntk : Netlist} {c : Circuit} {exIn exOut : List NodeId}
    (h : ∀ n ∈ c.inputs ++ c.outputs ++ exIn ++ exOut, (c.node n).name ∈ ntk.nets) :
    Numbers (abc2Cnf2 ntk) ((abc2Cnf2 ntk).finalize c exIn exOut) :=
  Numbers.caches (fun n hn => ((abc2Cnf2_spec ntk).2.1 _).2 (h n hn)) (.refl (abc2Cnf2_caches ntk).1)

/-- **`Init` makes a CNF of the circuit** if ABC returns a netlist of it. -/
theorem encodes_init {abc : Circuit → List NodeId → List NodeId → Netlist} {c : Circuit}
    {exIn exOut : List NodeId} (h : Delivers (abc c exIn exOut) c exIn exOut) :
    Encodes (init abc c exIn exOut) c exIn (c.inputs ++ c.outputs ++ exIn ++ exOut) := by
  obtain ⟨hc1, hc2⟩ := abc2Cnf2_caches (abc c exIn exOut)
  obtain ⟨-, hdom, -⟩ := abc2Cnf2_spec (abc c exIn exOut)
  have hC := finalize_spec (c := c) hc1 hc2 exIn exOut
  obtain ⟨h1, h2, h3, h4⟩ := (finalize_numbers h.nets).describes h
  refine ⟨h1, h2, fun n hn => ?_, h3, h4⟩
  obtain ⟨i, hi⟩ := Option.isSome_iff_exists.1 ((hdom _).2 (h.nets n hn))
  exact (hC.getIndexNode hi).trans (hC.getIndex hi).symm

/-- The same with further ports, if they have nets. -/
theorem describes_initAlso {ntk : Netlist} {c c' : Circuit} {exIn exOut : List NodeId}
    (h : Delivers ntk c [] []) (hnets : ∀ n ∈ exIn ++ exOut, (c'.node n).name ∈ ntk.nets) :
    Describes (initAlso ntk c c' exIn exOut) c [] (c.inputs ++ c.outputs) := by
  have := ((finalize_numbers h.nets).caches (c := c') fun n hn =>
    ((abc2Cnf2_spec ntk).2.1 _).2 (hnets n hn)).describes h
  rwa [List.append_nil, List.append_nil] at this

end CNFGenerator

end Msyn.CNFgen
