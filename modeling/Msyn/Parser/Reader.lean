import Mathlib.Logic.Function.Basic
import Msyn.Parser.Tokens

/-!
# Reading by names

The same actions as those of the lexer on a netlist of names, without nodes (`Reader`). The lexer
always follows it in the names that it enters (`Reads.step`), and while no name is declared that
has fanins or a cube, also in these (`Reads.looked_step`).
-/

namespace Msyn.Parser

open Nodecircuit Circuit

/-- A netlist by names. -/
structure Netlist where
  name : String := ""
  inputs : List String := []
  outputs : List String := []
  nodes : List String := []
  fanins : String → List String := fun _ => []
  cube : String → String := fun _ => ""

structure Reader where
  net : Netlist := {}
  current : Option String := none
  pending : List String := []
  mode : Mode := .start

namespace Reader

/-- A section of names declares, a `.names` line refers. -/
def id (text : String) (r : Reader) : Reader :=
  match r.mode with
  | .model => { r with net := { r.net with name := text }, mode := .start }
  | .outputs => { r with
      net := { r.net with outputs := r.net.outputs ++ [text], nodes := r.net.nodes ++ [text] }
      current := some text }
  | .inputs => { r with
      net := { r.net with inputs := r.net.inputs ++ [text], nodes := r.net.nodes ++ [text] }
      current := some text }
  | .names => { r with
      net := { r.net with
        nodes := if text ∈ r.net.nodes then r.net.nodes else r.net.nodes ++ [text] }
      current := some text
      pending := r.pending ++ [text] }
  | _ => r

section
variable {r : Reader} {text : String}

theorem id_model (h : r.mode = .model) :
    r.id text = { r with net := { r.net with name := text }, mode := .start } := by
  unfold Reader.id
  rw [h]

theorem id_outputs (h : r.mode = .outputs) : r.id text = { r with
    net := { r.net with outputs := r.net.outputs ++ [text], nodes := r.net.nodes ++ [text] }
    current := some text } := by
  unfold Reader.id
  rw [h]

theorem id_inputs (h : r.mode = .inputs) : r.id text = { r with
    net := { r.net with inputs := r.net.inputs ++ [text], nodes := r.net.nodes ++ [text] }
    current := some text } := by
  unfold Reader.id
  rw [h]

theorem id_names (h : r.mode = .names) : r.id text = { r with
    net := { r.net with
      nodes := if text ∈ r.net.nodes then r.net.nodes else r.net.nodes ++ [text] }
    current := some text
    pending := r.pending ++ [text] } := by
  unfold Reader.id
  rw [h]

theorem id_other (h : r.mode = .cover ∨ r.mode = .start ∨ r.mode = .done) : r.id text = r := by
  unfold Reader.id
  rcases h with h | h | h <;> rw [h]

end

/-- The end of a `.names` line: the last name gets the others as fanins. -/
def newline (r : Reader) : Option Reader :=
  if r.mode = .names then
    match r.current, r.pending with
    | _, [] => some { r with mode := .cover }
    | none, _ :: _ => none
    | some cur, pending => some { r with
        net := { r.net with
          fanins := Function.update r.net.fanins cur
            (r.net.fanins cur ++ pending.filter fun s => cur ≠ s) }
        pending := []
        mode := .cover }
  else some r

def array (text : String) (r : Reader) : Option Reader :=
  if r.mode = .cover then
    match r.current with
    | none => none
    | some cur => some { r with
        net := { r.net with cube := Function.update r.net.cube cur (r.net.cube cur ++ text ++ "\n") } }
  else some r

def step (r : Reader) (t : Token) : Option Reader :=
  match t.1 with
  | 1 => some { r with mode := .done }
  | 2 => some { r with mode := .model }
  | 3 => some { r with mode := .outputs }
  | 4 => some { r with mode := .inputs }
  | 5 => some { r with mode := .names }
  | 6 => some (r.id t.2)
  | 7 => r.newline
  | 8 => r.array t.2
  | _ => some r

end Reader

/-- The name of a node of the circuit that is read. -/
def Lexer.nameOf (l : Lexer) (n : NodeId) : String := (l.circuit.node n).name

/-- The lexer has read the names of the reader. -/
structure Reads (l : Lexer) (r : Reader) : Prop where
  sound : l.Sound
  mode : l.mode = r.mode
  name : l.circuit.name = r.net.name
  nodes : l.circuit.allNodes.map l.nameOf = r.net.nodes
  inputs : l.circuit.inputs.map l.nameOf = r.net.inputs
  outputs : l.circuit.outputs.map l.nameOf = r.net.outputs
  inputsMem : ∀ n ∈ l.circuit.inputs, n ∈ l.circuit.allNodes
  outputsMem : ∀ n ∈ l.circuit.outputs, n ∈ l.circuit.allNodes
  found : ∀ s n, l.circuit.getNode s = some n → l.nameOf n = s
  entered : ∀ n ∈ l.circuit.allNodes, l.circuit.getNode (l.nameOf n) ≠ none
  current : l.currentNode.map l.nameOf = r.current
  pending : l.nodes.map l.nameOf = r.pending

/-- The nodes have the fanins and the cubes of the reader. -/
structure Contents (l : Lexer) (r : Reader) : Prop where
  fanins : ∀ n ∈ l.circuit.allNodes,
    (l.circuit.node n).inputs.map l.nameOf = r.net.fanins (l.nameOf n)
  cube : ∀ n ∈ l.circuit.allNodes, (l.circuit.node n).cube = r.net.cube (l.nameOf n)
  unread : ∀ s, s ∉ r.net.nodes → r.net.fanins s = [] ∧ r.net.cube s = ""

/-! ## A new node -/

theorem newNode_getNode (l : Lexer) (text : String) (i o : Bool) (s : String) :
    (l.newNode text i o).circuit.getNode s =
      if s = text then some l.free else l.circuit.getNode s := by
  simp only [getNode, Lexer.newNode]
  split
  · rename_i he
    rw [he, AList.lookup_insert]
  · rename_i he
    rw [AList.lookup_insert_ne he]

namespace Reads

variable {l : Lexer} {r : Reader} (h : Reads l r)
include h

theorem free_notMem : l.free ∉ l.circuit.allNodes := fun hm => (h.sound.below _ hm).false

theorem nameOf_newNode (text : String) (i o : Bool) {n : NodeId} (hn : n ∈ l.circuit.allNodes) :
    (l.newNode text i o).nameOf n = l.nameOf n := by
  have hne : n ≠ l.free := fun he => h.free_notMem (he ▸ hn)
  simp [Lexer.nameOf, Lexer.newNode, hne]

omit h in
theorem nameOf_free (text : String) (i o : Bool) : (l.newNode text i o).nameOf l.free = text := by
  simp [Lexer.nameOf, Lexer.newNode]

theorem map_newNode (text : String) (i o : Bool) {ns : List NodeId}
    (hns : ∀ n ∈ ns, n ∈ l.circuit.allNodes) :
    ns.map (l.newNode text i o).nameOf = ns.map l.nameOf :=
  List.map_congr_left fun n hn => h.nameOf_newNode text i o (hns n hn)

/-- A name is known if a node has it. -/
theorem getNode_none_iff (text : String) : l.circuit.getNode text = none ↔ text ∉ r.net.nodes := by
  rw [← h.nodes, List.mem_map]
  constructor
  · rintro hnone ⟨n, hn, rfl⟩
    exact h.entered n hn hnone
  · intro hno
    cases hg : l.circuit.getNode text with
    | none => rfl
    | some n => exact absurd ⟨n, h.sound.names _ _ hg, h.found _ _ hg⟩ hno

/-- What is read of a new node, whatever list it is entered in besides. -/
theorem newNode (text : String) (i o : Bool) :
    Reads (l.newNode text i o) { r with
      net := { r.net with nodes := r.net.nodes ++ [text] }
      current := some text } := by
  refine ⟨h.sound.newNode text i o, h.mode, h.name, ?_, ?_, ?_, fun n hn => ?_, fun n hn => ?_,
    fun s n hs => ?_, fun n hn => ?_, ?_, ?_⟩
  · show (l.circuit.allNodes ++ [l.free]).map _ = _
    rw [List.map_append, h.map_newNode text i o fun _ hn => hn, h.nodes, List.map_singleton,
      nameOf_free]
  · exact (h.map_newNode text i o h.inputsMem).trans h.inputs
  · exact (h.map_newNode text i o h.outputsMem).trans h.outputs
  · exact List.mem_append.2 (.inl (h.inputsMem n hn))
  · exact List.mem_append.2 (.inl (h.outputsMem n hn))
  · rw [newNode_getNode] at hs
    split at hs
    · rename_i he
      cases hs
      rw [he]
      exact nameOf_free _ i o
    · rw [h.nameOf_newNode text i o (h.sound.names s n hs)]
      exact h.found s n hs
  · rw [newNode_getNode]
    split
    · exact Option.some_ne_none _
    · rename_i he
      rcases List.mem_append.1 hn with hn | hn
      · rw [h.nameOf_newNode text i o hn]
        exact h.entered n hn
      · rw [List.mem_singleton.1 hn, nameOf_free] at he
        exact absurd rfl he
  · show some _ = _
    rw [nameOf_free]
  · exact (h.map_newNode text i o h.sound.nodes).trans h.pending

theorem id (text : String) : Reads (l.id text) (r.id text) := by
  have hsound := h.sound.id text
  have hmode := h.mode
  cases hm : l.mode with
  | model =>
    rw [Lexer.id_model hm] at hsound ⊢
    rw [Reader.id_model (hmode.symm.trans hm)]
    exact { h with mode := rfl, name := rfl, sound := hsound }
  | outputs =>
    rw [Lexer.id_outputs hm] at hsound ⊢
    rw [Reader.id_outputs (hmode.symm.trans hm)]
    refine { h.newNode text false true with sound := hsound, outputs := ?_, outputsMem := ?_ }
    · show (l.circuit.outputs ++ [l.free]).map (l.newNode text false true).nameOf = _
      rw [List.map_append, h.map_newNode text false true h.outputsMem, h.outputs,
        List.map_singleton, nameOf_free]
    · intro n hn
      exact List.mem_append.2 ((List.mem_append.1 hn).imp_left (h.outputsMem n))
  | inputs =>
    rw [Lexer.id_inputs hm] at hsound ⊢
    rw [Reader.id_inputs (hmode.symm.trans hm)]
    refine { h.newNode text true false with sound := hsound, inputs := ?_, inputsMem := ?_ }
    · show (l.circuit.inputs ++ [l.free]).map (l.newNode text true false).nameOf = _
      rw [List.map_append, h.map_newNode text true false h.inputsMem, h.inputs,
        List.map_singleton, nameOf_free]
    · intro n hn
      exact List.mem_append.2 ((List.mem_append.1 hn).imp_left (h.inputsMem n))
  | names =>
    rw [Reader.id_names (hmode.symm.trans hm)]
    cases hg : l.circuit.getNode text with
    | none =>
      rw [Lexer.id_new hm hg] at hsound ⊢
      rw [if_neg ((h.getNode_none_iff text).1 hg)]
      refine { h.newNode text false false with sound := hsound, pending := ?_ }
      show (l.nodes ++ [l.free]).map (l.newNode text false false).nameOf = _
      rw [List.map_append, h.map_newNode text false false h.sound.nodes, h.pending,
        List.map_singleton, nameOf_free]
    | some n =>
      have hin : text ∈ r.net.nodes := by
        by_contra hno
        rw [(h.getNode_none_iff text).2 hno] at hg
        cases hg
      rw [Lexer.id_known hm hg] at hsound ⊢
      rw [if_pos hin]
      refine { h with sound := hsound, current := ?_, pending := ?_ }
      · exact congrArg some (h.found _ _ hg)
      · show (l.nodes ++ [n]).map l.nameOf = _
        rw [List.map_append, h.pending, List.map_singleton, h.found _ _ hg]
  | cover | start | done =>
    rw [Lexer.id_other (by simp [hm]), Reader.id_other (by simp [← hmode, hm])]
    exact h

end Reads

/-! ## The end of a line -/

/-- What connecting the nodes of a line to the last one leaves. -/
theorem foldl_connect (cur : NodeId) (ns : List NodeId) (c : Circuit) :
    let c' := ns.foldl (fun c i => if cur ≠ i then Lexer.connect cur i c else c) c
    (c'.allNodes = c.allNodes ∧ c'.allNodesMap = c.allNodesMap ∧ c'.name = c.name ∧
      c'.inputs = c.inputs ∧ c'.outputs = c.outputs) ∧
    ∀ n, (c'.node n).name = (c.node n).name ∧ (c'.node n).cube = (c.node n).cube ∧
      (c'.node n).inputs =
        if n = cur then (c.node n).inputs ++ ns.filter (fun i => cur ≠ i) else (c.node n).inputs := by
  induction ns generalizing c with
  | nil => exact ⟨⟨rfl, rfl, rfl, rfl, rfl⟩, fun n => ⟨rfl, rfl, by simp⟩⟩
  | cons i ns ih =>
    rw [List.foldl_cons]
    by_cases hci : cur ≠ i
    · rw [if_pos hci]
      obtain ⟨⟨h1, h2, h3, h4, h5⟩, hn⟩ := ih (Lexer.connect cur i c)
      refine ⟨⟨h1, h2, h3, h4, h5⟩, fun n => ?_⟩
      obtain ⟨e1, e2, e3⟩ := hn n
      have hnode : ((Lexer.connect cur i c).node n).name = (c.node n).name ∧
          ((Lexer.connect cur i c).node n).cube = (c.node n).cube ∧
          ((Lexer.connect cur i c).node n).inputs =
            if n = cur then (c.node n).inputs ++ [i] else (c.node n).inputs := by
        simp only [Lexer.connect, pushOutput, modNode_node]
        split_ifs <;> exact ⟨rfl, rfl, rfl⟩
      have hf : (i :: ns).filter (fun i => cur ≠ i) = i :: ns.filter fun i => cur ≠ i :=
        List.filter_cons_of_pos (by simpa using hci)
      refine ⟨e1.trans hnode.1, e2.trans hnode.2.1, e3.trans ?_⟩
      rw [hnode.2.2, hf]
      split <;> simp
    · have hf : (i :: ns).filter (fun i => cur ≠ i) = ns.filter fun i => cur ≠ i :=
        List.filter_cons_of_neg (by simpa using hci)
      rw [if_neg hci, hf]
      exact ih c

namespace Reads

variable {l : Lexer} {r : Reader} (h : Reads l r)
include h

/-- The actions fail together, and otherwise the names stay the same. -/
theorem newline : Option.Rel Reads l.newline r.newline := by
  have hcur := h.current
  have hpend := h.pending
  unfold Lexer.newline Reader.newline
  rw [← h.mode]
  split
  · rename_i hm
    cases hn : l.nodes with
    | nil =>
      rw [hn, List.map_nil] at hpend
      rw [← hpend]
      exact .some { h with
        sound := ⟨h.sound.mirror, h.sound.below, fun n hn => absurd hn List.not_mem_nil,
          h.sound.current, h.sound.names⟩
        mode := rfl
        pending := rfl }
    | cons i ns =>
      rw [hn, List.map_cons] at hpend
      rw [← hpend]
      cases hc : l.currentNode with
      | none =>
        rw [hc] at hcur
        rw [← hcur]
        exact .none
      | some cur =>
        rw [hc] at hcur
        rw [← hcur]
        have hsound := @Lexer.Sound.newline l h.sound _ (by rw [Lexer.newline, if_pos hm, hn, hc])
        obtain ⟨⟨e1, e2, e3, e4, e5⟩, hnode⟩ := foldl_connect cur (i :: ns) l.circuit
        have hname : ∀ ns' : List NodeId, ns'.map (fun n =>
            (((i :: ns).foldl (fun c i => if cur ≠ i then Lexer.connect cur i c else c)
              l.circuit).node n).name) = ns'.map l.nameOf :=
          fun ns' => List.map_congr_left fun n _ => (hnode n).1
        refine .some ⟨hsound, rfl, e3.trans h.name, ?_, ?_, ?_, fun n hn => ?_, fun n hn => ?_,
          fun s n hs => ?_, fun n hn => ?_, ?_, rfl⟩
        · exact (hname _).trans ((congrArg _ e1).trans h.nodes)
        · exact (hname _).trans ((congrArg _ e4).trans h.inputs)
        · exact (hname _).trans ((congrArg _ e5).trans h.outputs)
        · exact e1 ▸ h.inputsMem n (e4 ▸ hn)
        · exact e1 ▸ h.outputsMem n (e5 ▸ hn)
        · exact (hnode n).1.trans (h.found s n (by rw [← hs, getNode, getNode, e2]))
        · have := h.entered n (e1 ▸ hn)
          show AList.lookup _ _ ≠ none
          rw [e2]
          show AList.lookup (((i :: ns).foldl (fun c i => if cur ≠ i then Lexer.connect cur i c
            else c) l.circuit).node n).name _ ≠ none
          rw [(hnode n).1]
          exact this
        · exact congrArg some (hnode cur).1
  · exact .some h

theorem array (text : String) : Option.Rel Reads (l.array text) (r.array text) := by
  have hcur := h.current
  have hs : ∀ l' : Lexer, l.array text = some l' → l'.Sound := fun l' => h.sound.array
  unfold Lexer.array Reader.array at *
  rw [← h.mode]
  split
  · rename_i hm
    cases hc : l.currentNode with
    | none =>
      rw [hc] at hcur
      rw [← hcur]
      exact .none
    | some cur =>
      rw [hc] at hcur
      rw [← hcur]
      have hsound := hs _ (by rw [if_pos hm, hc])
      have hname : ∀ n, ((l.circuit.modNode cur fun nd =>
          { nd with cube := nd.cube ++ text ++ "\n" }).node n).name = l.nameOf n := fun n => by
        simp only [modNode_node]
        split <;> rfl
      have hmap : ∀ ns : List NodeId, ns.map (fun n => ((l.circuit.modNode cur fun nd =>
          { nd with cube := nd.cube ++ text ++ "\n" }).node n).name) = ns.map l.nameOf :=
        fun ns => List.map_congr_left fun n _ => hname n
      refine .some ⟨hsound, rfl, h.name, (hmap _).trans h.nodes, (hmap _).trans h.inputs,
        (hmap _).trans h.outputs, h.inputsMem, h.outputsMem, fun s n hs => ?_, fun n hn => ?_, ?_,
        (hmap _).trans h.pending⟩
      · exact (hname n).trans (h.found s n hs)
      · show AList.lookup ((l.circuit.modNode cur fun nd =>
          { nd with cube := nd.cube ++ text ++ "\n" }).node n).name _ ≠ none
        rw [hname]
        exact h.entered n hn
      · exact congrArg some (hname cur)
  · exact .some h

/-- **One token**: both fail, or the lexer has still read the names of the reader. -/
theorem step (t : Token) : Option.Rel Reads (l.step t) (r.step t) := by
  have hmode : ∀ m, Reads { l with mode := m } { r with mode := m } := fun m =>
    { h with
      mode := rfl
      sound := ⟨h.sound.mirror, h.sound.below, h.sound.nodes, h.sound.current, h.sound.names⟩ }
  obtain ⟨rule, text⟩ := t
  match rule with
  | 0 => exact .some h
  | 1 => exact .some (hmode .done)
  | 2 => exact .some (hmode .model)
  | 3 => exact .some (hmode .outputs)
  | 4 => exact .some (hmode .inputs)
  | 5 => exact .some (hmode .names)
  | 6 => exact .some (h.id text)
  | 7 => exact h.newline
  | 8 => exact h.array text
  | _ + 9 => exact .some h

/-- A run: both fail, or the lexer has read the names of the reader. -/
theorem run (ts : List Token) : Option.Rel Reads (ts.foldlM Lexer.step l) (ts.foldlM Reader.step r) := by
  induction ts generalizing l r with
  | nil => exact .some h
  | cons t ts ih =>
    rw [List.foldlM_cons, List.foldlM_cons]
    have hstep := h.step t
    revert hstep
    generalize l.step t = l', r.step t = r'
    rintro (h' | -)
    · exact ih h'
    · exact .none

end Reads

/-! ## Fanins and cubes -/

/-- No name is forgotten. -/
theorem Reader.step_nodes {r r' : Reader} {t : Token} (h : r.step t = some r') :
    r.net.nodes <+: r'.net.nodes := by
  obtain ⟨rule, text⟩ := t
  have hsame : ∀ {m}, some { r with mode := m } = some r' → r.net.nodes <+: r'.net.nodes := by
    rintro m ⟨⟩
    exact List.prefix_rfl
  match rule with
  | 1 | 2 | 3 | 4 | 5 => exact hsame h
  | 0 | _ + 9 => exact hsame h
  | 6 =>
    cases h
    unfold Reader.id
    split
    · exact List.prefix_rfl
    · exact List.prefix_append _ _
    · exact List.prefix_append _ _
    · show _ <+: if _ then _ else _
      split
      · exact List.prefix_rfl
      · exact List.prefix_append _ _
    · exact List.prefix_rfl
  | 7 =>
    replace h : r.newline = some r' := h
    unfold Reader.newline at h
    split at h
    · split at h <;> cases h <;> exact List.prefix_rfl
    · cases h
      exact List.prefix_rfl
  | 8 =>
    replace h : r.array text = some r' := h
    unfold Reader.array at h
    split at h
    · split at h <;> cases h
      exact List.prefix_rfl
    · cases h
      exact List.prefix_rfl

namespace Reads

variable {l : Lexer} {r : Reader} (h : Reads l r)
include h

/-- Names that differ pairwise tell the nodes apart. -/
theorem nameOf_inj (hnd : r.net.nodes.Nodup) {a b : NodeId} (ha : a ∈ l.circuit.allNodes)
    (hb : b ∈ l.circuit.allNodes) (hab : l.nameOf a = l.nameOf b) : a = b := by
  rw [← h.nodes] at hnd
  exact List.inj_on_of_nodup_map hnd ha hb hab

/-- A name enters a new node, or refers to the one that it stands for. -/
theorem id_cases (text : String) :
    ((r.id text).net.fanins = r.net.fanins ∧ (r.id text).net.cube = r.net.cube) ∧
    ((∃ i o, (l.id text).circuit.node = (l.newNode text i o).circuit.node ∧
        (l.id text).circuit.allNodesMap = (l.newNode text i o).circuit.allNodesMap ∧
        (l.id text).currentNode = some l.free ∧
        (∀ n ∈ (l.id text).nodes, n ∈ l.nodes ∨ n = l.free) ∧
        (r.id text).net.nodes = r.net.nodes ++ [text] ∧
        (r.mode = .inputs ∨ r.mode = .outputs ∨ text ∉ r.net.nodes)) ∨
      (l.id text).circuit.node = l.circuit.node ∧
        (l.id text).circuit.allNodesMap = l.circuit.allNodesMap ∧
        (∀ n, (l.id text).currentNode = some n →
          l.currentNode = some n ∨ l.circuit.getNode text = some n) ∧
        (∀ n ∈ (l.id text).nodes, n ∈ l.nodes ∨ l.circuit.getNode text = some n) ∧
        (r.id text).net.nodes = r.net.nodes) := by
  unfold Lexer.id Reader.id
  rw [← h.mode]
  cases hm : l.mode with
  | outputs =>
    exact ⟨⟨rfl, rfl⟩, .inl ⟨false, true, rfl, rfl, rfl, fun _ => .inl, rfl, .inr (.inl rfl)⟩⟩
  | inputs => exact ⟨⟨rfl, rfl⟩, .inl ⟨true, false, rfl, rfl, rfl, fun _ => .inl, rfl, .inl rfl⟩⟩
  | names =>
    refine ⟨⟨rfl, rfl⟩, ?_⟩
    cases hg : l.circuit.getNode text with
    | none =>
      have hnew : text ∉ r.net.nodes := (h.getNode_none_iff text).1 hg
      refine .inl ⟨false, false, rfl, rfl, rfl, fun n hn => ?_, if_neg hnew, .inr (.inr hnew)⟩
      exact (List.mem_append.1 hn).imp_right List.mem_singleton.1
    | some n =>
      have hin : text ∈ r.net.nodes := by
        by_contra hno
        rw [(h.getNode_none_iff text).2 hno] at hg
        cases hg
      refine .inr ⟨rfl, rfl, fun m hm => .inr hm, fun m hm => ?_, if_pos hin⟩
      rcases List.mem_append.1 hm with hm | hm
      · exact .inl hm
      · exact .inr (congrArg some (List.mem_singleton.1 hm).symm)
  | model | cover | start | done =>
    exact ⟨⟨rfl, rfl⟩, .inr ⟨rfl, rfl, fun _ => .inl, fun _ => .inl, rfl⟩⟩

end Reads

/-- The nodes that the names stand for have the fanins and the cubes of the reader, and the lexer
is about such nodes. -/
structure Looked (l : Lexer) (r : Reader) : Prop where
  fanins : ∀ s n, l.circuit.getNode s = some n →
    (l.circuit.node n).inputs.map l.nameOf = r.net.fanins s
  cube : ∀ s n, l.circuit.getNode s = some n → (l.circuit.node n).cube = r.net.cube s
  unread : ∀ s, s ∉ r.net.nodes → r.net.fanins s = [] ∧ r.net.cube s = ""
  current : ∀ n, l.currentNode = some n → l.circuit.getNode (l.nameOf n) = some n
  pending : ∀ n ∈ l.nodes, l.circuit.getNode (l.nameOf n) = some n

/-- The token does not declare a name that has fanins or a cube, or is on the line that is read. -/
def Fresh (r : Reader) (t : Token) : Prop :=
  t.1 = 6 → r.mode = .inputs ∨ r.mode = .outputs →
    r.net.fanins t.2 = [] ∧ r.net.cube t.2 = "" ∧ t.2 ∉ r.pending

namespace Reads

section
variable {l : Lexer} {r : Reader} (h : Reads l r) {cur : NodeId}
include h

/-- A change at the name of the current node is a change at that node. -/
theorem update_current {α : Type} {s : String} {n : NodeId}
    (hself : l.circuit.getNode (l.nameOf cur) = some cur) (hs : l.circuit.getNode s = some n)
    (f : String → α) (x : α) :
    Function.update f (l.nameOf cur) x s = if n = cur then x else f s := by
  have hname : s = l.nameOf cur ↔ n = cur := by
    constructor
    · intro he
      rw [he, hself] at hs
      exact (Option.some.inj hs).symm
    · intro he
      rw [← he]
      exact (h.found s n hs).symm
  rw [Function.update_apply]
  exact if_congr hname rfl rfl

theorem ne_current {s : String} (hs : s ∉ r.net.nodes) (hcn : l.currentNode = some cur) :
    s ≠ l.nameOf cur := by
  intro he
  refine hs ?_
  rw [he, ← h.nodes]
  exact List.mem_map_of_mem (h.sound.current cur hcn)

end

variable {l : Lexer} {r : Reader} (h : Reads l r) (hk : Looked l r)
include h hk

theorem looked_id {text : String} (hf : Fresh r (6, text)) : Looked (l.id text) (r.id text) := by
  obtain ⟨⟨hfan, hcube⟩, ⟨i, o, hnode, hmap, hcur, hpend, hnodes, hnew⟩ |
    ⟨hnode, hmap, hcur, hpend, hnodes⟩⟩ := h.id_cases text
  · have hget : ∀ s, (l.id text).circuit.getNode s =
        if s = text then some l.free else l.circuit.getNode s := fun s => by
      rw [← newNode_getNode l text i o s, getNode, getNode, hmap]
    have hname : (l.id text).nameOf = (l.newNode text i o).nameOf := by
      unfold Lexer.nameOf
      rw [hnode]
    have hold : ∀ n ∈ l.circuit.allNodes, (l.id text).circuit.node n = l.circuit.node n :=
      fun n hn => by
        have hne : n ≠ l.free := fun he => h.free_notMem (he ▸ hn)
        rw [hnode]
        simp [Lexer.newNode, hne]
    have hfree : (l.id text).circuit.node l.free =
        { name := text, isInput := i, isOutput := o } := by
      rw [hnode]
      simp [Lexer.newNode]
    -- a new node has nothing to match
    have hempty : r.net.fanins text = [] ∧ r.net.cube text = "" ∧ text ∉ r.pending := by
      rcases hnew with hm | hm | hm
      · exact hf rfl (.inl hm)
      · exact hf rfl (.inr hm)
      · refine ⟨(hk.unread text hm).1, (hk.unread text hm).2, fun hp => hm ?_⟩
        rw [← h.pending] at hp
        obtain ⟨n, hn, rfl⟩ := List.mem_map.1 hp
        rw [← h.nodes]
        exact List.mem_map_of_mem (h.sound.nodes n hn)
    refine ⟨fun s n hn => ?_, fun s n hn => ?_, fun s hs => ?_, fun n hn => ?_, fun n hn => ?_⟩
    · rw [hget] at hn
      rw [hfan, hname]
      split at hn
      · rename_i he
        cases hn
        rw [hfree, he, hempty.1]
        rfl
      · have hmem := h.sound.names s n hn
        rw [hold n hmem, h.map_newNode text i o (h.sound.mirror.closed n hmem)]
        exact hk.fanins s n hn
    · rw [hget] at hn
      rw [hcube]
      split at hn
      · rename_i he
        cases hn
        rw [hfree, he, hempty.2.1]
      · rw [hold n (h.sound.names s n hn)]
        exact hk.cube s n hn
    · rw [hfan, hcube]
      exact hk.unread s fun hin => hs (hnodes ▸ List.mem_append.2 (.inl hin))
    · rw [hcur] at hn
      cases hn
      rw [hname, nameOf_free, hget, if_pos rfl]
    · rw [hname]
      rcases hpend n hn with hn | rfl
      · have hne : l.nameOf n ≠ text := fun he => hempty.2.2 (by
          rw [← he, ← h.pending]
          exact List.mem_map_of_mem hn)
        rw [h.nameOf_newNode text i o (h.sound.nodes n hn), hget, if_neg hne]
        exact hk.pending n hn
      · rw [nameOf_free, hget, if_pos rfl]
  · have hname : (l.id text).nameOf = l.nameOf := by
      unfold Lexer.nameOf
      rw [hnode]
    have hget : ∀ s, (l.id text).circuit.getNode s = l.circuit.getNode s := fun s => by
      rw [getNode, getNode, hmap]
    have hself : ∀ n, l.circuit.getNode text = some n →
        l.circuit.getNode (l.nameOf n) = some n := fun n hn => by
      rw [h.found text n hn]
      exact hn
    refine ⟨fun s n hn => ?_, fun s n hn => ?_, fun s hs => ?_, fun n hn => ?_, fun n hn => ?_⟩
    · rw [hnode, hname, hfan]
      exact hk.fanins s n ((hget s).symm.trans hn)
    · rw [hnode, hcube]
      exact hk.cube s n ((hget s).symm.trans hn)
    · rw [hfan, hcube]
      exact hk.unread s (hnodes ▸ hs)
    · rw [hname, hget]
      exact (hcur n hn).elim (hk.current n) (hself n)
    · rw [hname, hget]
      exact (hpend n hn).elim (hk.pending n) (hself n)

theorem looked_newline {l' : Lexer} {r' : Reader} (hl : l.newline = some l')
    (hr : r.newline = some r') : Looked l' r' := by
  have hcur := h.current
  have hpend := h.pending
  unfold Lexer.newline at hl
  unfold Reader.newline at hr
  rw [← h.mode] at hr
  split at hl
  · rename_i hm
    rw [if_pos hm] at hr
    cases hn : l.nodes with
    | nil =>
      rw [hn] at hl hpend
      rw [← hpend] at hr
      cases hl
      cases hr
      exact ⟨hk.fanins, hk.cube, hk.unread, hk.current, by simp⟩
    | cons i ns =>
      rw [hn] at hl hpend
      rw [← hpend, ← hcur] at hr
      cases hcn : l.currentNode with
      | none =>
        rw [hcn] at hl
        cases hl
      | some cur =>
        rw [hcn] at hl hr
        cases hl
        cases hr
        obtain ⟨⟨-, e2, -, -, -⟩, hnode⟩ := foldl_connect cur (i :: ns) l.circuit
        have hself := hk.current cur hcn
        have hline : ∀ j ∈ i :: ns, l.circuit.getNode (l.nameOf j) = some j := hn ▸ hk.pending
        have hmap : ∀ ns' : List NodeId, ns'.map (fun n =>
            (((i :: ns).foldl (fun c i => if cur ≠ i then Lexer.connect cur i c else c)
              l.circuit).node n).name) = ns'.map l.nameOf :=
          fun ns' => List.map_congr_left fun n _ => (hnode n).1
        have hget : ∀ s, getNode ((i :: ns).foldl
            (fun c i => if cur ≠ i then Lexer.connect cur i c else c) l.circuit) s =
              l.circuit.getNode s := fun s => by rw [getNode, getNode, e2]
        refine ⟨fun s n hs => ?_, fun s n hs => ?_, fun s hs => ⟨?_, (hk.unread s hs).2⟩,
          fun n hcn' => ?_, by simp⟩
        · have hs := (hget s).symm.trans hs
          refine (hmap _).trans ?_
          show _ = Function.update r.net.fanins (l.nameOf cur) (r.net.fanins (l.nameOf cur) ++
            ((i :: ns).map l.nameOf).filter fun s => l.nameOf cur ≠ s) s
          rw [(hnode n).2.2, h.update_current hself hs]
          by_cases he : n = cur
          · have hsn : s = l.nameOf cur := by rw [← he]; exact (h.found s n hs).symm
            rw [if_pos he, if_pos he, List.map_append, hk.fanins s n hs, hsn, List.filter_map]
            refine congrArg (r.net.fanins (l.nameOf cur) ++ List.map l.nameOf ·) ?_
            refine List.filter_congr fun j hj => ?_
            refine decide_eq_decide.2 ⟨fun hne hname => hne ?_, fun hne he => hne (congrArg _ he)⟩
            exact Option.some.inj (hself.symm.trans (hname ▸ hline j hj))
          · rw [if_neg he, if_neg he]
            exact hk.fanins s n hs
        · exact (hnode n).2.1.trans (hk.cube s n ((hget s).symm.trans hs))
        · exact (Function.update_of_ne (h.ne_current hs hcn) _ _).trans (hk.unread s hs).1
        · refine (hget _).trans ((congrArg l.circuit.getNode (hnode n).1).trans ?_)
          exact hk.current n (hcn.trans hcn')
  · rename_i hm
    rw [if_neg hm] at hr
    cases hl
    cases hr
    exact hk

theorem looked_array {text : String} {l' : Lexer} {r' : Reader} (hl : l.array text = some l')
    (hr : r.array text = some r') : Looked l' r' := by
  have hcur := h.current
  unfold Lexer.array at hl
  unfold Reader.array at hr
  rw [← h.mode] at hr
  split at hl
  · rename_i hm
    rw [if_pos hm, ← hcur] at hr
    cases hcn : l.currentNode with
    | none =>
      rw [hcn] at hl
      cases hl
    | some cur =>
      rw [hcn] at hl hr
      cases hl
      cases hr
      have hself := hk.current cur hcn
      have hnode : ∀ n, ((l.circuit.modNode cur fun nd =>
          { nd with cube := nd.cube ++ text ++ "\n" }).node n).name = l.nameOf n ∧
          ((l.circuit.modNode cur fun nd =>
            { nd with cube := nd.cube ++ text ++ "\n" }).node n).inputs =
              (l.circuit.node n).inputs ∧
          ((l.circuit.modNode cur fun nd =>
            { nd with cube := nd.cube ++ text ++ "\n" }).node n).cube =
              if n = cur then (l.circuit.node n).cube ++ text ++ "\n" else (l.circuit.node n).cube := by
        intro n
        simp only [modNode_node]
        split_ifs <;> exact ⟨rfl, rfl, rfl⟩
      refine ⟨fun s n hs => ?_, fun s n hs => ?_, fun s hs => ⟨(hk.unread s hs).1, ?_⟩,
        fun n hcn' => ?_, fun n hn => ?_⟩
      · refine (List.map_congr_left fun j _ => (hnode j).1).trans ?_
        rw [(hnode n).2.1]
        exact hk.fanins s n hs
      · show _ = Function.update r.net.cube (l.nameOf cur)
          (r.net.cube (l.nameOf cur) ++ text ++ "\n") s
        rw [(hnode n).2.2, h.update_current hself hs, ← hk.cube s n hs]
        split
        · rename_i he
          have hsn : s = l.nameOf cur := by rw [← he]; exact (h.found s n hs).symm
          rw [← hsn, hk.cube s n hs]
        · rfl
      · exact (Function.update_of_ne (h.ne_current hs hcn) _ _).trans (hk.unread s hs).2
      · exact (congrArg l.circuit.getNode (hnode n).1).trans (hk.current n (hcn.trans hcn'))
      · exact (congrArg l.circuit.getNode (hnode n).1).trans (hk.pending n hn)
  · rename_i hm
    rw [if_neg hm] at hr
    cases hl
    cases hr
    exact hk

/-- **One token** keeps the fanins and the cubes, unless it declares a name that has some. -/
theorem looked_step {t : Token} {l' : Lexer} {r' : Reader} (hf : Fresh r t)
    (hl : l.step t = some l') (hr : r.step t = some r') : Looked l' r' := by
  obtain ⟨rule, text⟩ := t
  match rule with
  | 1 | 2 | 3 | 4 | 5 =>
    cases hl
    cases hr
    exact ⟨hk.fanins, hk.cube, hk.unread, hk.current, hk.pending⟩
  | 6 =>
    cases hl
    cases hr
    exact h.looked_id hk hf
  | 7 => exact h.looked_newline hk hl hr
  | 8 => exact h.looked_array hk hl hr
  | 0 | _ + 9 =>
    cases hl
    cases hr
    exact hk

end Reads

/-- No token of the run declares a name that has fanins or a cube. -/
def FreshRun : List Token → Reader → Prop
  | [], _ => True
  | t :: ts, r => Fresh r t ∧ ∀ r', r.step t = some r' → FreshRun ts r'

/-- **A run** keeps the fanins and the cubes. -/
theorem Reads.looked_run {ts : List Token} {l : Lexer} {r r' : Reader} (h : Reads l r)
    (hk : Looked l r) (hr : ts.foldlM Reader.step r = some r') (hf : FreshRun ts r) :
    ∃ l', ts.foldlM Lexer.step l = some l' ∧ Reads l' r' ∧ Looked l' r' := by
  induction ts generalizing l r with
  | nil =>
    cases hr
    exact ⟨l, rfl, h, hk⟩
  | cons t ts ih =>
    rw [List.foldlM_cons] at hr ⊢
    obtain ⟨r1, h1, h2⟩ := Option.bind_eq_some_iff.1 hr
    have hstep := h.step t
    rw [h1] at hstep
    cases hl : l.step t with
    | none =>
      rw [hl] at hstep
      cases hstep
    | some l1 =>
      rw [hl] at hstep
      cases hstep with
      | some hreads => exact ih hreads (h.looked_step hk hf.1 hl h1) h2 (hf.2 r1 h1)

/-! ## Names that differ pairwise -/

theorem Reader.run_nodes {ts : List Token} {r r' : Reader} (h : ts.foldlM Reader.step r = some r') :
    r.net.nodes <+: r'.net.nodes := by
  induction ts generalizing r with
  | nil =>
    cases h
    exact List.prefix_rfl
  | cons t ts ih =>
    rw [List.foldlM_cons] at h
    obtain ⟨r1, h1, h2⟩ := Option.bind_eq_some_iff.1 h
    exact (Reader.step_nodes h1).trans (ih h2)

/-- A name that is entered once is not declared after it was read. -/
theorem freshRun_of_nodup {ts : List Token} {l : Lexer} {r r' : Reader} (h : Reads l r)
    (hk : Looked l r) (hr : ts.foldlM Reader.step r = some r') (hnd : r'.net.nodes.Nodup) :
    FreshRun ts r := by
  induction ts generalizing l r with
  | nil => trivial
  | cons t ts ih =>
    rw [List.foldlM_cons] at hr
    obtain ⟨r1, h1, h2⟩ := Option.bind_eq_some_iff.1 hr
    have hfresh : Fresh r t := by
      intro ht hm
      have hnew : t.2 ∉ r.net.nodes := by
        obtain ⟨rule, text⟩ := t
        cases ht
        cases h1
        have hnd1 := hnd.sublist (Reader.run_nodes h2).sublist
        have hnodes : (r.id text).net.nodes = r.net.nodes ++ [text] := by
          rcases hm with hm | hm
          · rw [Reader.id_inputs hm]
          · rw [Reader.id_outputs hm]
        rw [hnodes] at hnd1
        exact fun hin => (List.nodup_append.1 hnd1).2.2 text hin text (by simp) rfl
      refine ⟨(hk.unread _ hnew).1, (hk.unread _ hnew).2, fun hp => hnew ?_⟩
      rw [← h.pending] at hp
      obtain ⟨n, hn, he⟩ := List.mem_map.1 hp
      rw [← he, ← h.nodes]
      exact List.mem_map_of_mem (h.sound.nodes n hn)
    refine ⟨hfresh, fun r2 hr2 => ?_⟩
    rw [h1] at hr2
    cases hr2
    have hstep := h.step t
    rw [h1] at hstep
    cases hl : l.step t with
    | none =>
      rw [hl] at hstep
      cases hstep
    | some l1 =>
      rw [hl] at hstep
      cases hstep with
      | some hreads => exact ih hreads (h.looked_step hk hfresh hl h1) h2

section
variable {l : Lexer} {r : Reader} (h : Reads l r) (hnd : r.net.nodes.Nodup)
include h hnd

theorem Reads.getNode_nameOf {n : NodeId} (hn : n ∈ l.circuit.allNodes) :
    l.circuit.getNode (l.nameOf n) = some n := by
  cases hg : l.circuit.getNode (l.nameOf n) with
  | none => exact absurd hg (h.entered n hn)
  | some m => rw [h.nameOf_inj hnd (h.sound.names _ _ hg) hn (h.found _ _ hg)]

/-- Where the names differ pairwise, each node is the one that its name stands for. -/
theorem Reads.looked_iff : Looked l r ↔ Contents l r := by
  constructor
  · intro hk
    exact ⟨fun n hn => hk.fanins _ n (h.getNode_nameOf hnd hn),
      fun n hn => hk.cube _ n (h.getNode_nameOf hnd hn), hk.unread⟩
  · intro hc
    refine ⟨fun s n hs => ?_, fun s n hs => ?_, hc.unread, fun n hn => ?_, fun n hn => ?_⟩
    · rw [hc.fanins n (h.sound.names s n hs), h.found s n hs]
    · rw [hc.cube n (h.sound.names s n hs), h.found s n hs]
    · exact h.getNode_nameOf hnd (h.sound.current n hn)
    · exact h.getNode_nameOf hnd (h.sound.nodes n hn)

end

/-- **A run** reads the names of the reader, and where these differ pairwise also its fanins and
cubes. -/
theorem Reads.contents_run {ts : List Token} {l : Lexer} {r r' : Reader} (h : Reads l r)
    (hc : Contents l r) (hr : ts.foldlM Reader.step r = some r') (hnd : r'.net.nodes.Nodup) :
    ∃ l', ts.foldlM Lexer.step l = some l' ∧ Reads l' r' ∧ Contents l' r' := by
  have hnd0 : r.net.nodes.Nodup := hnd.sublist (Reader.run_nodes hr).sublist
  have hk := (h.looked_iff hnd0).2 hc
  obtain ⟨l', hl, hreads, hk'⟩ := h.looked_run hk hr (freshRun_of_nodup h hk hr hnd)
  exact ⟨l', hl, hreads, (hreads.looked_iff hnd).1 hk'⟩

/-- The lexer before the first token. -/
theorem reads_init : Reads .init {} ∧ Contents .init {} := by
  refine ⟨⟨init_sound, rfl, rfl, rfl, rfl, rfl, ?_, ?_, ?_, ?_, rfl, rfl⟩, ?_, ?_, fun _ _ => ⟨rfl, rfl⟩⟩
  · intro n hn; cases hn
  · intro n hn; cases hn
  · intro s n hn; cases hn
  · intro n hn; cases hn
  · intro n hn; cases hn
  · intro n hn; cases hn

end Msyn.Parser
