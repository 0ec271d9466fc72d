import Msyn.Circuit.Cluster
import Msyn.Circuit.Equivalence
import Msyn.Circuit.Remove
import Msyn.Circuit.WriteBlifM
import Msyn.Parser.Accepted

/-!
# Reading back what both writers write

`Reread c l`: the lexer has read the netlist of the circuit `c`, with names that identify nodes. The
texts of `WriteBlif` and of `WriteBlif_m`, which differ in the order of the nodes and in lines that
no rule takes, are both read so (`Writable.rereads`, `lex_writeBlifM`), and what is read computes
what the circuit computes (`Reread.valuation`).
-/

namespace Msyn.Parser

open Nodecircuit Circuit Relation

/-- The lexer has built the circuit of the netlist. -/
structure Built (net : Netlist) (l : Lexer) : Prop where
  name : l.circuit.name = net.name
  inputs : l.circuit.inputs.map l.nameOf = net.inputs
  outputs : l.circuit.outputs.map l.nameOf = net.outputs
  nodes : l.circuit.allNodes.map l.nameOf = net.nodes
  fanins : ∀ n ∈ l.circuit.allNodes, (l.circuit.node n).inputs.map l.nameOf = net.fanins (l.nameOf n)
  cube : ∀ n ∈ l.circuit.allNodes, (l.circuit.node n).cube = net.cube (l.nameOf n)
  named : Named l.circuit
  formed : l.Formed
  mirror : l.circuit.Mirror

/-- A text that makes a netlist without a name twice is read as its circuit. -/
theorem lex_built {text : String} {f : Netlist → Netlist} (hf : ReadsAs text.toList f)
    (hnd : (f {}).nodes.Nodup) : ∃ l, lex text = some l ∧ Built (f {}) l := by
  obtain ⟨ts, htok, hrun⟩ := hf
  obtain ⟨r, hr, hnet, -⟩ := hrun {} rfl
  have hts : tokens text.toList = ts := by
    have := htok []
    rwa [List.append_nil, show tokens [] = [] from rfl, List.append_nil] at this
  rw [← hnet] at hnd ⊢
  obtain ⟨hreads, hc⟩ := reads_init
  obtain ⟨l, hl, hreads, hc⟩ := hreads.contents_run hc hr hnd
  have hlex : lex text = some l := by rw [lex_eq, hts, hl]
  exact ⟨l, hlex, hreads.name, hreads.inputs, hreads.outputs, hreads.nodes, hc.fanins, hc.cube,
    hreads.named_iff.2 hnd, lex_formed hlex, lex_mirror hlex⟩

/-- What a netlist computes, by names. -/
def Netlist.Holds (net : Netlist) (x val : String → Bool) : Prop :=
  ∀ s ∈ net.nodes, val s = if s ∈ net.inputs then x s else evalCube (net.cube s) ((net.fanins s).map val)

section
variable {net : Netlist} {l : Lexer} (hb : Built net l)
include hb

/-- The value that a valuation of the circuit gives to a name. -/
theorem Built.isInput {n : NodeId} (hn : n ∈ l.circuit.allNodes) :
    (l.circuit.node n).isInput = true ↔ l.nameOf n ∈ net.inputs := by
  have hmem : n ∈ l.circuit.inputs ↔ (l.circuit.node n).isInput = true := by
    rw [hb.formed.inputs, List.mem_filter, and_iff_right hn]
  rw [← hmem, ← hb.inputs, List.mem_map]
  refine ⟨fun hi => ⟨n, hi, rfl⟩, fun hi => ?_⟩
  obtain ⟨m, hm, he⟩ := hi
  have hmc : m ∈ l.circuit.allNodes := by
    rw [hb.formed.inputs] at hm
    exact (List.mem_filter.1 hm).1
  exact List.inj_on_of_nodup_map hb.named.distinct hmc hn he ▸ hm

/-- **The valuations of the circuit** are those of the netlist. -/
theorem Built.valuation_iff {x : String → Bool} {w : NodeId → Bool} :
    l.circuit.Valuation [] x w ↔ net.Holds x fun s => w ((l.circuit.getNode s).getD 0) := by
  have hval : ∀ n ∈ l.circuit.allNodes, w ((l.circuit.getNode (l.nameOf n)).getD 0) = w n := fun n hn => by
    rw [(hb.named.lookup (l.nameOf n) n).2 ⟨hn, rfl⟩]
    rfl
  have hins : ∀ n ∈ l.circuit.allNodes, (l.circuit.node n).inputs.map w =
      (net.fanins (l.nameOf n)).map fun s => w ((l.circuit.getNode s).getD 0) := fun n hn => by
    rw [← hb.fanins n hn, List.map_map]
    refine List.map_congr_left fun i hi => ?_
    exact (hval i (hb.mirror.closed n hn i hi)).symm
  have heval : ∀ n ∈ l.circuit.allNodes, l.circuit.eval x w n =
      if l.nameOf n ∈ net.inputs then x (l.nameOf n) else evalCube (net.cube (l.nameOf n))
        ((net.fanins (l.nameOf n)).map fun s => w ((l.circuit.getNode s).getD 0)) := fun n hn => by
    rw [eval, hins n hn, hb.cube n hn]
    exact if_congr (hb.isInput hn) rfl rfl
  rw [Netlist.Holds, ← hb.nodes, List.forall_mem_map]
  refine forall₂_congr fun n hn => ?_
  rw [hval n hn, heval n hn]
  exact forall_prop_of_true List.not_mem_nil

end

/-- The lexer has read the netlist of the circuit. -/
structure Reread (c : Circuit) (l : Lexer) : Prop where
  same : SameNetlist c l.circuit
  named : Named l.circuit
  formed : l.Formed
  mirror : l.circuit.Mirror

/-- A text that makes the netlist of the circuit is read so. -/
theorem Writable.reread {c : Circuit} (h : Writable c) {text : String} {f : Netlist → Netlist}
    (hf : ReadsAs text.toList f) (hn : f {} = netlistOf c) : ∃ l, lex text = some l ∧ Reread c l := by
  obtain ⟨hnd, hnodes, hcontents⟩ := h.netlistOf_spec
  obtain ⟨l, hlex, hb⟩ := lex_built hf (hn ▸ hnd)
  rw [hn] at hb
  obtain ⟨e1, e2, e3⟩ := foldl_addGate_lists (gatesOf c) {
    name := c.name
    inputs := c.inputs.map fun n => (c.node n).name
    outputs := c.outputs.map fun n => (c.node n).name
    nodes := (c.inputs.map fun n => (c.node n).name) ++ c.outputs.map fun n => (c.node n).name }
  refine ⟨l, hlex, ⟨hb.name.trans e1, hb.inputs.trans e2, hb.outputs.trans e3, fun s => ?_,
    fun n hn n' hn' he => ?_⟩, hb.named, hb.formed, hb.mirror⟩
  · rw [← hnodes, ← hb.nodes, List.mem_map]
    rfl
  · obtain ⟨h1, h2⟩ := hcontents n hn
    have he : l.nameOf n' = (c.node n).name := he
    exact ⟨(hb.fanins n' hn').trans (by rw [he, h1]), (hb.cube n' hn').trans (by rw [he, h2])⟩

theorem Writable.rereads {c : Circuit} (h : Writable c) :
    ∃ l, lex c.writeBlif = some l ∧ Reread c l := by
  obtain ⟨f, hf, hn⟩ := h.readsAs
  exact h.reread hf hn

/-! ## What is read computes the same -/

/-- The node that is read for a node of the circuit. -/
theorem Reread.exists_node {c : Circuit} {l : Lexer} (hr : Reread c l) {n : NodeId} (hn : n ∈ c.allNodes) :
    ∃ n' ∈ l.circuit.allNodes, (l.circuit.node n').name = (c.node n).name :=
  (hr.same.nodes _).2 ⟨n, hn, rfl⟩

section
variable {c : Circuit} (h : Writable c) {l : Lexer} (hr : Reread c l)
include h hr

theorem Reread.isInput {n n' : NodeId} (hn : n ∈ c.allNodes) (hn' : n' ∈ l.circuit.allNodes)
    (he : (l.circuit.node n').name = (c.node n).name) :
    (l.circuit.node n').isInput = (c.node n).isInput := by
  have hmem : n' ∈ l.circuit.inputs ↔ n ∈ c.inputs := by
    constructor
    · intro hi
      have hname : (c.node n).name ∈ c.inputs.map fun n => (c.node n).name := by
        rw [← hr.same.inputs, ← he]
        exact List.mem_map_of_mem hi
      obtain ⟨m, hm, hmn⟩ := List.mem_map.1 hname
      exact h.nameOf_inj ((h.inputs m).1 hm).1 hn hmn ▸ hm
    · intro hi
      have hname : (l.circuit.node n').name ∈ l.circuit.inputs.map fun n => (l.circuit.node n).name := by
        rw [hr.same.inputs, he]
        exact List.mem_map_of_mem hi
      obtain ⟨m, hm, hmn⟩ := List.mem_map.1 hname
      have hmc : m ∈ l.circuit.allNodes := by
        rw [hr.formed.inputs] at hm
        exact (List.mem_filter.1 hm).1
      exact List.inj_on_of_nodup_map hr.named.distinct hmc hn' hmn ▸ hm
  rw [hr.formed.inputs, List.mem_filter, h.inputs, and_iff_right hn', and_iff_right hn] at hmem
  exact Bool.eq_iff_iff.2 hmem

/-- **The circuit that is read computes what the circuit computes**: each of its valuations is one of
the circuit, by the names of the nodes. -/
theorem Reread.valuation {x : String → Bool} {w : NodeId → Bool}
    (hw : l.circuit.Valuation [] x w) : ∃ v, c.Valuation [] x v ∧
      ∀ n ∈ c.allNodes, ∀ n' ∈ l.circuit.allNodes,
        (l.circuit.node n').name = (c.node n).name → v n = w n' := by
  have hv : ∀ n ∈ c.allNodes, ∀ n' ∈ l.circuit.allNodes,
      (l.circuit.node n').name = (c.node n).name →
        w ((l.circuit.getNode (c.node n).name).getD 0) = w n' := by
    intro n _ n' hn' he
    rw [(hr.named.lookup _ _).2 ⟨hn', he⟩]
    rfl
  refine ⟨fun n => w ((l.circuit.getNode (c.node n).name).getD 0), fun n hn _ => ?_, hv⟩
  obtain ⟨n', hn', he⟩ := hr.exists_node hn
  obtain ⟨hins, hcube⟩ := hr.same.node n hn n' hn' he
  refine (hv n hn n' hn' he).trans ?_
  rw [hw n' hn' List.not_mem_nil, eval, eval, hr.isInput h hn hn' he, he, hcube]
  split
  · rfl
  · -- the fanins have the same names, and values go by names
    congr 1
    have hread : ∀ i ∈ (l.circuit.node n').inputs,
        w i = w ((l.circuit.getNode (l.circuit.node i).name).getD 0) := fun i hi => by
      rw [hr.named.refs i (.inr (.inr ⟨n', hn', hi⟩))]
      rfl
    have hmap := congrArg (List.map fun s => w ((l.circuit.getNode s).getD 0)) hins
    rw [List.map_map, List.map_map] at hmap
    rw [List.map_congr_left hread]
    exact hmap

/-- An edge that is read is one of the circuit. -/
theorem Reread.isAcyclic (hac : c.IsAcyclic) : l.circuit.IsAcyclic := by
  refine (hac.comap (fun n' => (c.getNode (l.circuit.node n').name).getD 0)) fun a b hab => ?_
  obtain ⟨hb, ha⟩ := hab
  obtain ⟨n, hn, he⟩ := (hr.same.nodes _).1 ⟨b, hb, rfl⟩
  have hins := (hr.same.node n hn b hb he.symm).1
  have hmem : (l.circuit.node a).name ∈ (c.node n).inputs.map fun i => (c.node i).name := by
    rw [← hins]
    exact List.mem_map_of_mem ha
  obtain ⟨i, hi, hin⟩ := List.mem_map.1 hmem
  have hia : (c.getNode (l.circuit.node a).name).getD 0 = i := by
    rw [← hin, (h.map _ i).2 ⟨h.closed n hn i hi, rfl⟩]
    rfl
  have hnb : (c.getNode (l.circuit.node b).name).getD 0 = n := by
    rw [← he, (h.map _ n).2 ⟨hn, rfl⟩]
    rfl
  rw [hia, hnb]
  exact ⟨hn, hi⟩

end

/-! ## The nodes in another order -/

section
variable {c : Circuit} {ns : List NodeId} (hp : ns.Perm c.allNodes)
include hp

theorem Writable.perm (h : Writable c) : Writable { c with allNodes := ns } where
  ident := ⟨h.ident.1, fun n hn => h.ident.2 n (hp.mem_iff.1 hn)⟩
  distinct := (hp.map _).nodup_iff.2 h.distinct
  map s n := (h.map s n).trans (and_congr_left' hp.mem_iff.symm)
  inputs n := (h.inputs n).trans (and_congr_left' hp.mem_iff.symm)
  outputs n := (h.outputs n).trans (and_congr_left' hp.mem_iff.symm)
  once := h.once
  disjoint n hn := h.disjoint n (hp.mem_iff.1 hn)
  closed n hn i hi := hp.mem_iff.2 (h.closed n (hp.mem_iff.1 hn) i hi)
  leaf n hn := h.leaf n (hp.mem_iff.1 hn)
  irrefl n hn := h.irrefl n (hp.mem_iff.1 hn)
  cube n hn := h.cube n (hp.mem_iff.1 hn)
  const n hn := h.const n (hp.mem_iff.1 hn)

theorem Reread.of_perm {l : Lexer} (h : Reread { c with allNodes := ns } l) : Reread c l where
  same := {
    name := h.same.name
    inputs := h.same.inputs
    outputs := h.same.outputs
    nodes := fun s => (h.same.nodes s).trans
      (exists_congr fun _ => and_congr_left' hp.mem_iff)
    node := fun n hn => h.same.node n (hp.mem_iff.2 hn) }
  named := h.named
  formed := h.formed
  mirror := h.mirror

end

/-! ## The text by clusters -/

/-- The sections of the constants. -/
def constGates (c : Circuit) : List Gate :=
  (if c.getNode "zero" ≠ none then [{ ins := [], name := "zero", cube := "" }] else []) ++
  if c.getNode "one" ≠ none then [{ ins := [], name := "one", cube := "" }] else []

/-- The netlist that is read from the sections of names. -/
def portsOf (c : Circuit) : Netlist where
  name := c.name
  inputs := c.inputs.map fun n => (c.node n).name
  outputs := c.outputs.map fun n => (c.node n).name
  nodes := (c.inputs.map fun n => (c.node n).name) ++ c.outputs.map fun n => (c.node n).name

theorem netlistOf_eq (c : Circuit) : netlistOf c =
    (constGates c ++ (c.allNodes.filter fun n => c.Written n).map (gateOf c)).foldl Netlist.addGate
      (portsOf c) := rfl

/-- The nodes in the order of `WriteBlif_m`. -/
def clustered (c : Circuit) : List NodeId := c.allClusters.flatMap fun k => (c.cluster k).nodesC

/-- Every node that is written is in the clusters once. -/
def Grouped (c : Circuit) : Prop :=
  ((clustered c).filter fun n => c.Written n).Perm (c.allNodes.filter fun n => c.Written n)

theorem grouped_of_part {c : Circuit} (hnd : c.allNodes.Nodup) (hp : c.Part) : Grouped c := by
  have hflat : (clustered c).Nodup := by
    rw [clustered, List.nodup_flatMap]
    refine ⟨hp.nodesNodup, hp.nodup.imp_of_mem fun {j k} hj hk hne => ?_⟩
    -- a node knows its cluster
    intro n hnj hnk
    exact hne ((hp.mem j hj n hnj).2.2.symm.trans (hp.mem k hk n hnk).2.2)
  apply (List.perm_ext_iff_of_nodup (hflat.filter _) (hnd.filter _)).2
  intro n
  rw [List.mem_filter, List.mem_filter]
  refine and_congr_left fun hw => ?_
  rw [clustered, List.mem_flatMap]
  constructor
  · rintro ⟨k, hk, hn⟩
    exact (hp.mem k hk n hn).1
  · intro hn
    have hi : (c.node n).isInput = false := by
      by_contra hi
      exact of_decide_eq_true hw (.inl (by simpa using hi))
    exact ⟨_, hp.covers n hn hi⟩

/-- No rule takes the line before a cluster. -/
theorem readsAs_separator : ReadsAs (separator.toList ++ ['\n']) fun net => net := by
  have hsep : separator.toList = List.replicate 54 '=' := by decide
  have hone : ∀ rest, tokens ('=' :: rest) = (9, "=") :: tokens rest := fun rest =>
    @tokens_append ['='] rest 9 (by simp) (by cases rest <;> rfl)
  have htok : ∀ k rest, tokens (List.replicate k '=' ++ rest) =
      List.replicate k (9, "=") ++ tokens rest := by
    intro k rest
    induction k with
    | zero => rfl
    | succ k ih =>
      rw [List.replicate_succ, List.cons_append, hone, ih]
      rfl
  have hrun : ∀ (k : Nat) (r : Reader),
      (List.replicate k ((9, "=") : Token)).foldlM Reader.step r = some r := by
    intro k r
    induction k with
    | zero => rfl
    | succ k ih =>
      rw [List.replicate_succ, run_cons rfl]
      exact ih
  refine ⟨List.replicate 54 (9, "=") ++ [(7, "\n")], fun rest => ?_, fun r hr => ?_⟩
  · rw [hsep, List.append_assoc, htok, List.singleton_append, tokens_newline, List.append_assoc]
    rfl
  · rw [run_append (hrun 54 r)]
    by_cases hm : r.mode = .names
    · have hnl : r.step (7, "\n") = some { r with mode := .cover } := by
        show r.newline = _
        rw [Reader.newline, if_pos hm, hr]
      exact ⟨{ r with mode := .cover }, (run_cons hnl).trans rfl, rfl, hr⟩
    · exact ⟨r, (run_cons (step_newline hm)).trans rfl, rfl, hr⟩

section
variable {c : Circuit} (h : Writable c)
include h

theorem Writable.readsAs_node {n : NodeId} (hn : n ∈ c.allNodes) :
    ReadsAs (c.nodeChars n) fun net => net.addGate (gateOf c n) := by
  apply readsAs_gate (g := gateOf c n)
  · intro s hs
    rcases List.mem_append.1 hs with hs | hs
    · obtain ⟨i, hi, rfl⟩ := List.mem_map.1 hs
      exact h.ident.2 i (h.closed n hn i hi)
    · rw [List.mem_singleton.1 hs]
      exact h.ident.2 n hn
  · intro hself
    obtain ⟨i, hi, he⟩ := List.mem_map.1 hself
    exact h.irrefl n hn (h.nameOf_inj (h.closed n hn i hi) hn he ▸ hi)
  · exact h.cube n hn

theorem Writable.readsAs_head :
    ∃ f, ReadsAs c.headChars f ∧ f {} = (constGates c).foldl Netlist.addGate (portsOf c) := by
  have hports : ∀ ns : List NodeId, (∀ n ∈ ns, n ∈ c.allNodes) →
      ∀ s ∈ ns.map (fun n => (c.node n).name), IsId s.toList := by
    intro ns hns s hs
    obtain ⟨n, hn, rfl⟩ := List.mem_map.1 hs
    exact h.ident.2 n (hns n hn)
  have hconst : ∀ (name : String) (value : Char), IsId name.toList → (value = '0' ∨ value = '1') →
      ReadsAs (if c.getNode name ≠ none then constChars name value else []) fun net =>
        (if c.getNode name ≠ none then [({ ins := [], name, cube := "" } : Gate)] else []).foldl
          Netlist.addGate net := by
    intro name value hid hv
    split
    · exact readsAs_const hid hv
    · exact .nil
  have hzero : IsId "zero".toList :=
    ⟨'z', ['e', 'r', 'o'], by decide, .inl (by decide), by simp [IdChar]⟩
  have hone : IsId "one".toList := ⟨'o', ['n', 'e'], by decide, .inl (by decide), by simp [IdChar]⟩
  refine ⟨_, ((((readsAs_model h.ident.1).append
    (readsAs_inputs (hports _ fun n hn => ((h.inputs n).1 hn).1))).append
    (readsAs_outputs (hports _ fun n hn => ((h.outputs n).1 hn).1))).append
    (hconst "zero" '0' hzero (.inl rfl))).append (hconst "one" '1' hone (.inr rfl)), ?_⟩
  simp only [constGates, portsOf, List.foldl_append, List.nil_append]

/-- The text by clusters is read as that of the circuit. -/
theorem Writable.rereadsM (hg : Grouped c) : ∃ l, lex c.writeBlifM = some l ∧ Reread c l := by
  -- the nodes that are not written first, then the clusters
  have hperm : ((c.allNodes.filter fun n => !decide (c.Written n)) ++
      (clustered c).filter fun n => c.Written n).Perm c.allNodes :=
    (List.perm_append_comm.trans (hg.append_right _)).trans (List.filter_append_perm _ _)
  have hmem : ∀ n ∈ (clustered c).filter fun n => c.Written n, n ∈ c.allNodes := fun n hn =>
    (List.mem_filter.1 (hg.mem_iff.1 hn)).1
  have hclusters : ReadsAs c.clustersChars fun net =>
      (((clustered c).filter fun n => c.Written n).map (gateOf c)).foldl Netlist.addGate net := by
    have hread := ReadsAs.flatMap (l := c.allClusters) fun k hk => readsAs_separator.append
      (ReadsAs.flatMap (l := (c.cluster k).nodesC.filter fun n => c.Written n) fun n hn =>
        h.readsAs_node (hmem n (List.mem_filter.2 ⟨List.mem_flatMap.2 ⟨k, hk, (List.mem_filter.1 hn).1⟩,
          (List.mem_filter.1 hn).2⟩)))
    simp only [clustered, List.filter_flatMap, List.map_flatMap, List.foldl_flatMap, List.foldl_map]
    exact hread
  obtain ⟨f, hf, hf0⟩ := h.readsAs_head
  have htext := (hf.append hclusters).append readsAs_end
  rw [← toList_writeBlifM] at htext
  obtain ⟨l, hl, hr⟩ := (h.perm hperm).reread htext (by
    have hskip : ((c.allNodes.filter fun n => !decide (c.Written n)).filter
        fun n => decide (c.Written n)) = [] := by
      rw [List.filter_filter]
      exact List.filter_eq_nil_iff.2 fun n _ => by simp
    have hfilter : (((c.allNodes.filter fun n => !decide (c.Written n)) ++
        (clustered c).filter fun n => c.Written n).filter fun n => c.Written n) =
        (clustered c).filter fun n => c.Written n := by
      rw [List.filter_append, hskip, List.filter_filter, List.nil_append]
      simp
    refine Eq.trans ?_ (netlistOf_eq _).symm
    rw [List.foldl_append, hf0]
    exact congrArg _ (congrArg _ hfilter.symm))
  exact ⟨l, hl, hr.of_perm hperm⟩

/-- **Round trip of the clustered text**: the lexer reads from it the netlist of the circuit,
whatever the order of the clusters and of the nodes in them. -/
theorem lex_writeBlifM (hp : c.Part) :
    ∃ l, lex c.writeBlifM = some l ∧ SameNetlist c l.circuit := by
  have hnd : c.allNodes.Nodup := h.distinct.of_map _
  obtain ⟨l, hl, hr⟩ := h.rereadsM (grouped_of_part hnd hp)
  exact ⟨l, hl, hr.same⟩

end

/-- Clusters change nothing of what is written. -/
theorem Writable.sameNet {c c' : Circuit} (h : Writable c) (hs : SameNet c c') : Writable c' where
  ident := ⟨by rw [hs.rest]; exact h.ident.1, fun n hn => by
    rw [hs.name]
    exact h.ident.2 n (hs.allNodes ▸ hn)⟩
  distinct := by
    rw [hs.allNodes]
    simp only [hs.name]
    exact h.distinct
  map s n := by
    rw [getNode, hs.allNodesMap, hs.allNodes, hs.name]
    exact h.map s n
  inputs n := by
    rw [hs.pis, hs.allNodes, hs.isInput]
    exact h.inputs n
  outputs n := by
    rw [hs.pos, hs.allNodes, hs.isOutput]
    exact h.outputs n
  once := by
    rw [hs.pis, hs.pos]
    exact h.once
  disjoint n hn := by
    rw [hs.isInput, hs.isOutput]
    exact h.disjoint n (hs.allNodes ▸ hn)
  closed := hs.closed h.closed
  leaf n hn hi := by
    rw [hs.inputs, hs.cube]
    exact h.leaf n (hs.allNodes ▸ hn) (hs.isInput n ▸ hi)
  irrefl n hn := by
    rw [hs.inputs]
    exact h.irrefl n (hs.allNodes ▸ hn)
  cube n hn := by
    rw [hs.cube]
    exact h.cube n (hs.allNodes ▸ hn)
  const n hn hname := by
    rw [hs.inputs, hs.cube]
    exact h.const n (hs.allNodes ▸ hn) (hs.name n ▸ hname)

/-- The constant and the output, each in a cluster of its own. -/
theorem lex_writeBlifM_maskedInput : ∃ l, lex (maskedInput.initCluster id).writeBlifM = some l ∧
    SameNetlist (maskedInput.initCluster id) l.circuit := by
  have hinj : ∀ a ∈ maskedInput.allNodes, ∀ b ∈ maskedInput.allNodes, id a = id b → a = b :=
    fun _ _ _ _ => id
  exact lex_writeBlifM (maskedInput_writable.sameNet (initCluster_sameNet hinj))
    (initCluster_part hinj (by decide) rfl)

end Msyn.Parser
