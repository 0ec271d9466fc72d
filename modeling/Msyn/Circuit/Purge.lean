import Msyn.Circuit.Numbered
import Msyn.Lib.Compact
import Msyn.Lib.Loop

/-!
# PurgeCircuit

`PurgeCircuit` collects the nodes no output depends on, from the nodes without fanouts backwards
(`purgeStep`), adds the constants without fanouts, and closes the gaps in `all_nodes` (`closeGaps`).

* `PurgeInv`: a fanout list holds what it held, less the purged nodes; a node is listed or purged
  exactly if it is no output and its fanout list is empty.
* `Settled`: what the purge set is when the list is empty. It holds useless nodes only
  (`Settled.not_useful`), and all of them unless one has a primary input as a fanout
  (`Settled.of_not_useful`).
* `purges_iff`: the nodes left are the useful ones exactly if no useless node has a primary input
  as a fanout, no constant that is an output has lost its fanouts, and the scan for the first live
  node behind the first dead one finds one.
-/

namespace Msyn.Nodecircuit.Circuit

open Relation

/-! ## The code -/

/-- The variables of the loop; the back of `node_process_list` is the head of the list. -/
structure PurgeState where
  circuit : Circuit
  nodeProcessList : List NodeId
  nodePurgeSet : NodeSet

/-- `n` leaves the fanouts of its input `i`, which is listed if that was the last one. -/
def releaseInput (n : NodeId) (s : Circuit × List NodeId) (i : NodeId) : Circuit × List NodeId :=
  let c := s.1.modNode i fun nd => { nd with outputs := nd.outputs.erase n }
  (c, if (c.node i).isOutput = false ∧ (c.node i).outputs = [] then i :: s.2 else s.2)

def purgeStep (s : PurgeState) : PurgeState ⊕ PurgeState :=
  match s.nodeProcessList with
  | [] => .inr s
  | n :: list =>
    let purge := s.nodePurgeSet.insert n
    if (s.circuit.node n).isInput then .inl ⟨s.circuit, list, purge⟩
    else
      let r := (s.circuit.node n).inputs.foldl (releaseInput n) (s.circuit, list)
      .inl ⟨r.1, r.2, purge⟩

/-- The node under `key`, if there is one, is purged if it has no fanouts. -/
def purgeConst (c : Circuit) (purge : NodeSet) (key : String) : NodeSet :=
  match c.getNode key with
  | none => purge
  | some n => if (c.node n).outputs = [] then purge.insert n else purge

/-- The nodes with which the loop starts. -/
def purgeStart (c : Circuit) : PurgeState where
  circuit := c
  nodeProcessList := c.allNodes.foldl (fun list n =>
    if (c.node n).outputs = [] ∧ (c.node n).isOutput = false then n :: list else list) []
  nodePurgeSet := ∅

def PurgeState.purgeSet (s : PurgeState) : NodeSet :=
  ["zero", "one"].foldl s.circuit.purgeConst s.nodePurgeSet

/-- `PurgeCircuit()` with a bound on the rounds of its loop: the circuit and the number returned. -/
def purgeCircuit (fuel : Nat) (c : Circuit) : Option (Circuit × Nat) := do
  let s ← loop purgeStep fuel c.purgeStart
  let c := s.circuit
  let purge := s.purgeSet
  if purge.size > 0 then
    let nodes ← closeGaps (fun n => decide (n ∈ purge)) c.allNodesMap.entries.length c.allNodes
    some ({ c with allNodes := nodes }, purge.size)
  else some (c, purge.size)

/-! ## What it is for -/

/-- An output depends on the node. -/
def Useful (c : Circuit) (n : NodeId) : Prop :=
  ∃ m ∈ c.allNodes, (c.node m).isOutput = true ∧ ReflTransGen c.Fanin n m

/-- `all_nodes_map` lists the nodes of `all_nodes`. -/
def Indexed (c : Circuit) : Prop := (c.allNodesMap.entries.map fun e => e.2).Perm c.allNodes

/-- `PurgeCircuit` ends, with the useful nodes in their order and the number of the others. -/
def Purges (c : Circuit) : Prop :=
  ∃ fuel c' k, c.purgeCircuit fuel = some (c', k) ∧ c'.allNodes.Sublist c.allNodes ∧
    (∀ n, n ∈ c'.allNodes ↔ n ∈ c.allNodes ∧ c.Useful n) ∧
    k + c'.allNodes.length = c.allNodes.length

/-- No useless node drives a primary input. -/
def PisUndriven (c : Circuit) : Prop :=
  ∀ n ∈ c.allNodes, ¬c.Useful n → ∀ m ∈ (c.node n).outputs, (c.node m).isInput = false

/-- A node `zero` or `one` that is an output keeps a fanout. -/
def ConstsKept (c : Circuit) : Prop :=
  ∀ key ∈ ["zero", "one"], ∀ n, c.getNode key = some n → (c.node n).isOutput = true →
    ∃ m ∈ (c.node n).outputs, c.Useful m ∨ (c.node m).isInput = true

/-- A useful node stands behind the first useless one. -/
def UsefulBehind (c : Circuit) : Prop :=
  ∀ pre n post, c.allNodes = pre ++ n :: post → (∀ m ∈ pre, c.Useful m) → ¬c.Useful n →
    ∃ m ∈ post, c.Useful m

theorem Useful.of_output {c : Circuit} {n : NodeId} (hn : n ∈ c.allNodes)
    (ho : (c.node n).isOutput = true) : c.Useful n := ⟨n, hn, ho, .refl⟩

theorem Useful.of_fanin {c : Circuit} {a b : NodeId} (h : c.Useful b) (hab : c.Fanin a b) :
    c.Useful a := by
  obtain ⟨m, hm, ho, hr⟩ := h
  exact ⟨m, hm, ho, hr.head hab⟩

/-! ## The loop -/

/-- What the loop over the inputs `l` of `n` does: circuit and list before and after. -/
structure Released (n : NodeId) (l : List NodeId) (s r : Circuit × List NodeId) : Prop where
  frame : OutputsOnly s.1 r.1
  count : ∀ i b, (r.1.node i).outputs.count b =
    (s.1.node i).outputs.count b - if b = n then l.count i else 0
  list : ∃ new, r.2 = new ++ s.2 ∧ new.Nodup ∧
    ∀ i, i ∈ new ↔ i ∈ l ∧ (s.1.node i).isOutput = false ∧ (r.1.node i).outputs = []

theorem eq_nil_iff_count {l : List NodeId} : l = [] ↔ ∀ b, l.count b = 0 := by
  simp only [List.eq_nil_iff_forall_not_mem, List.count_eq_zero]

section
variable {n : NodeId} {l : List NodeId} {s r : Circuit × List NodeId} (h : Released n l s r)
include h

theorem Released.outputs_nil {i : NodeId} (h0 : (s.1.node i).outputs = []) :
    (r.1.node i).outputs = [] := by
  rw [eq_nil_iff_count] at h0 ⊢
  exact fun b => by rw [h.count, h0 b, Nat.zero_sub]

theorem Released.nil_of_not_mem {i : NodeId} (h0 : (r.1.node i).outputs = []) (hil : i ∉ l) :
    (s.1.node i).outputs = [] := by
  rw [eq_nil_iff_count] at h0 ⊢
  intro b
  have := h.count i b
  rw [h0 b, List.count_eq_zero.2 hil, ite_self, Nat.sub_zero] at this
  exact this.symm

end

theorem releaseInputs_spec (n : NodeId) : ∀ {l : List NodeId} {s : Circuit × List NodeId},
    (∀ i, l.count i ≤ (s.1.node i).outputs.count n) →
    Released n l s (l.foldl (releaseInput n) s)
  | [], s, _ => ⟨.refl s.1, fun i b => by simp, [], rfl, .nil, fun i => by simp⟩
  | i :: l, (c, list), h => by
    rw [List.foldl_cons]
    simp only [releaseInput]
    have hf1 := outputsOnly_modNode c i (·.erase n)
    set c1 := c.modNode i fun nd => { nd with outputs := nd.outputs.erase n } with hc1
    have ho1 : ∀ j, (c1.node j).outputs =
        if j = i then (c.node j).outputs.erase n else (c.node j).outputs := fun j => by
      by_cases hj : j = i <;> simp [hc1, hj]
    have hcount := count_erased ho1
    have hle : ∀ j, l.count j ≤ (c1.node j).outputs.count n := fun j => by
      have := h j
      rw [hcount, List.count_cons] at *
      by_cases hj : j = i
      · subst hj; simp at this ⊢; omega
      · simp [hj, Ne.symm hj] at this ⊢; omega
    set list1 := if (c1.node i).isOutput = false ∧ (c1.node i).outputs = [] then i :: list
      else list with hlist1
    have hR := releaseInputs_spec n (s := (c1, list1)) hle
    have hf : OutputsOnly c1 _ := hR.frame
    have hct := hR.count
    obtain ⟨new, hr, hnd, hnew⟩ := hR.list
    simp only at hct hr hnew
    set r := l.foldl (releaseInput n) (c1, list1)
    refine ⟨hf1.trans hf, fun j b => ?_, ?_⟩
    · rw [hct, hcount, List.count_cons]
      by_cases hb : b = n
      · by_cases hj : j = i
        · subst hj; simp [hb]; omega
        · simp [hb, hj, Ne.symm hj]
      · simp [hb]
    · simp only [hf1.isOutput] at hnew
      by_cases hi : (c1.node i).isOutput = false ∧ (c1.node i).outputs = []
      · -- that was the last one, so `i` does not come again in `l`
        have hil : i ∉ l := by
          have := hle i
          rw [hi.2, List.count_nil] at this
          exact fun hmem => absurd (List.count_pos_iff.2 hmem) (by omega)
        refine ⟨new ++ [i], by rw [hr, hlist1, if_pos hi, List.append_assoc]; rfl, ?_, fun j => ?_⟩
        · refine List.Nodup.append hnd (List.nodup_singleton i) fun j hj hji => ?_
          rw [List.mem_singleton.1 hji] at hj
          exact hil ((hnew i).1 hj).1
        · have ho : (c.node i).isOutput = false := (hf1.isOutput i).symm.trans hi.1
          rw [List.mem_append, hnew, List.mem_singleton, List.mem_cons]
          constructor
          · rintro (⟨h1, h2⟩ | rfl)
            · exact ⟨.inr h1, h2⟩
            · exact ⟨.inl rfl, ho, hR.outputs_nil hi.2⟩
          · rintro ⟨rfl | h1, h2⟩
            · exact .inr rfl
            · exact .inl ⟨h1, h2⟩
      · refine ⟨new, by rw [hr, hlist1, if_neg hi], hnd, fun j => ?_⟩
        rw [hnew, List.mem_cons]
        refine ⟨fun ⟨h1, h2⟩ => ⟨.inr h1, h2⟩, fun ⟨h1, h2⟩ => ⟨?_, h2⟩⟩
        by_contra hjl
        obtain rfl := h1.resolve_right hjl
        exact hi ⟨(hf1.isOutput j).trans h2.1, hR.nil_of_not_mem h2.2 hjl⟩

/-- Between two rounds: the purge set, and the nodes that it leaves without fanouts. -/
structure PurgeInv (c : Circuit) (s : PurgeState) : Prop where
  frame : OutputsOnly c s.circuit
  count : ∀ i ∈ c.allNodes, ∀ b, (s.circuit.node i).outputs.count b =
    if b ∈ s.nodePurgeSet ∧ (c.node b).isInput = false then 0 else (c.node i).outputs.count b
  nodup : s.nodeProcessList.Nodup
  fresh : ∀ i ∈ s.nodeProcessList, i ∉ s.nodePurgeSet
  ready : ∀ i, i ∈ s.nodeProcessList ∨ i ∈ s.nodePurgeSet ↔
    i ∈ c.allNodes ∧ (c.node i).isOutput = false ∧ (s.circuit.node i).outputs = []

theorem purgeStart_list (c : Circuit) : c.purgeStart.nodeProcessList =
    (c.allNodes.filter fun n => (c.node n).outputs = [] ∧ (c.node n).isOutput = false).reverse := by
  have h (l : List NodeId) : l.foldl (fun list n => n :: list) [] = l.reverse := by
    rw [List.foldl_flip_cons_eq_append', List.append_nil]
  rw [← h, List.foldl_filter]
  simp [purgeStart]

section
variable {c : Circuit} (hm : c.Mirror)
include hm

theorem purgeStart_inv : PurgeInv c c.purgeStart where
  frame := .refl c
  count i _ b := by
    rw [if_neg fun h => OrdSet.not_mem_empty b h.1]
    rfl
  nodup := by
    rw [purgeStart_list, List.nodup_reverse]
    exact hm.nodup.filter _
  fresh i _ := OrdSet.not_mem_empty i
  ready i := by
    rw [purgeStart_list, List.mem_reverse, List.mem_filter]
    simp only [purgeStart, OrdSet.not_mem_empty, or_false, decide_eq_true_eq]
    tauto

variable {s : PurgeState} (hi : PurgeInv c s)
include hi

omit hm in
theorem PurgeInv.sub {i : NodeId} (h : i ∈ s.nodePurgeSet) : i ∈ c.allNodes :=
  ((hi.ready i).1 (.inr h)).1

omit hm in
theorem PurgeInv.outputs_eq_nil {i : NodeId} (h : i ∈ c.allNodes) :
    (s.circuit.node i).outputs = [] ↔
      ∀ b ∈ (c.node i).outputs, b ∈ s.nodePurgeSet ∧ (c.node b).isInput = false := by
  simp only [eq_nil_iff_count, hi.count i h]
  refine forall_congr' fun b => ?_
  rw [← List.count_pos_iff]
  split_ifs with hb <;> grind

end

section
variable {c c1 : Circuit} {n : NodeId} {list : List NodeId} {purge : NodeSet}
  (hi : PurgeInv c ⟨c1, n :: list, purge⟩)
include hi

/-- The first node of the list is moved to the purge set. -/
theorem PurgeInv.mem_moved (i : NodeId) : i ∈ list ∨ i ∈ purge.insert n ↔
    i ∈ c.allNodes ∧ (c.node i).isOutput = false ∧ (c1.node i).outputs = [] := by
  rw [← hi.ready i, OrdSet.mem_insert, List.mem_cons, or_left_comm, or_assoc]

theorem PurgeInv.fresh_moved {i : NodeId} (hil : i ∈ list) : i ∉ purge.insert n := fun hip => by
  rcases OrdSet.mem_insert.1 hip with rfl | hip
  · exact (List.nodup_cons.1 hi.nodup).1 hil
  · exact hi.fresh i (List.mem_cons_of_mem _ hil) hip

/-- The fanins of a primary input keep it as a fanout. -/
theorem PurgeInv.keep (hin : (c.node n).isInput = true) :
    PurgeInv c ⟨c1, list, purge.insert n⟩ where
  frame := hi.frame
  count i hic b := by
    rw [hi.count i hic b]
    refine if_congr (and_congr_left fun hb => ?_) rfl rfl
    rw [OrdSet.mem_insert, or_iff_right]
    rintro rfl
    rw [hin] at hb
    cases hb
  nodup := (List.nodup_cons.1 hi.nodup).2
  fresh i := hi.fresh_moved
  ready := hi.mem_moved

/-- Another node leaves the fanouts of its fanins, and those that have no other are listed. -/
theorem PurgeInv.release (hm : c.Mirror) (hin : (c.node n).isInput = false) :
    PurgeInv c ⟨((c.node n).inputs.foldl (releaseInput n) (c1, list)).1,
      ((c.node n).inputs.foldl (releaseInput n) (c1, list)).2, purge.insert n⟩ := by
  have hn : n ∈ c.allNodes := ((hi.ready n).1 (.inl List.mem_cons_self)).1
  have hnp : n ∉ purge := hi.fresh n List.mem_cons_self
  have hle : ∀ i, (c.node n).inputs.count i ≤ (c1.node i).outputs.count n := fun i => by
    by_cases hic : i ∈ (c.node n).inputs
    · rw [hi.count i (hm.closed n hn i hic), if_neg fun hp => hnp hp.1,
        hm.count i (hm.closed n hn i hic) n hn]
    · rw [List.count_eq_zero.2 hic]
      exact Nat.zero_le _
  have hR := releaseInputs_spec n (s := (c1, list)) hle
  obtain ⟨new, hr, hnnd, hnew⟩ := hR.list
  -- a new node of the list had a fanout before
  have hnot : ∀ i ∈ new, (c1.node i).outputs ≠ [] := fun i hin' hnil => by
    have h1 := hle i
    rw [hnil, List.count_nil] at h1
    have h2 := List.count_pos_iff.2 ((hnew i).1 hin').1
    omega
  refine ⟨hi.frame.trans hR.frame, fun i hic b => ?_, ?_, ?_, fun i => ?_⟩
  · refine (hR.count i b).trans ?_
    rw [hi.count i hic b]
    by_cases hbn : b = n
    · subst hbn
      rw [if_pos rfl, if_neg fun hp => hnp hp.1, hm.count i hic b hn,
        if_pos ⟨OrdSet.mem_insert.2 (.inl rfl), hin⟩, Nat.sub_self]
    · rw [if_neg hbn, Nat.sub_zero]
      simp only [OrdSet.mem_insert, hbn, false_or]
  · rw [hr]
    refine List.Nodup.append hnnd (List.nodup_cons.1 hi.nodup).2 fun i hin' hil => ?_
    exact hnot i hin' ((hi.mem_moved i).1 (.inl hil)).2.2
  · rw [hr]
    intro i hil
    rcases List.mem_append.1 hil with hin' | hil
    · exact fun hip => hnot i hin' ((hi.mem_moved i).1 (.inr hip)).2.2
    · exact hi.fresh_moved hil
  · have hf : OutputsOnly c c1 := hi.frame
    rw [hr, List.mem_append, or_assoc, hi.mem_moved, hnew, hf.isOutput]
    constructor
    · rintro (⟨h1, h2, h3⟩ | ⟨h1, h2, h3⟩)
      · exact ⟨hm.closed n hn i h1, h2, h3⟩
      · exact ⟨h1, h2, hR.outputs_nil h3⟩
    · intro h
      obtain ⟨h1, h2, h3⟩ := h
      by_cases hnil : (c1.node i).outputs = []
      · exact .inr ⟨h1, h2, hnil⟩
      · refine .inl ⟨?_, h2, h3⟩
        by_contra hni
        exact hnil (hR.nil_of_not_mem h3 hni)

end

/-- **One round** of the loop takes a node of the list to the purge set. -/
theorem PurgeInv.step {c : Circuit} (hm : c.Mirror) {s s' : PurgeState} (hi : PurgeInv c s)
    (h : purgeStep s = .inl s') : PurgeInv c s' ∧ ∃ n ∈ c.allNodes, n ∉ s.nodePurgeSet ∧
      s'.nodePurgeSet = s.nodePurgeSet.insert n := by
  obtain ⟨c1, stack, purge⟩ := s
  cases stack with
  | nil => cases h
  | cons n list =>
    have hn : n ∈ c.allNodes := ((hi.ready n).1 (.inl List.mem_cons_self)).1
    have hf : OutputsOnly c c1 := hi.frame
    simp only [purgeStep, hf.isInput, hf.inputs] at h
    split at h
    · rename_i hin
      cases h
      exact ⟨hi.keep hin, n, hn, hi.fresh n List.mem_cons_self, rfl⟩
    · rename_i hin
      cases h
      exact ⟨hi.release hm (Bool.not_eq_true _ ▸ hin), n, hn, hi.fresh n List.mem_cons_self, rfl⟩

/-! ## The purge set -/

/-- `W` holds the nodes, other than outputs, all of whose fanouts are in `W` and give them up. -/
def Settled (c : Circuit) (W : NodeId → Prop) : Prop :=
  ∀ i, W i ↔ i ∈ c.allNodes ∧ (c.node i).isOutput = false ∧
    ∀ b ∈ (c.node i).outputs, W b ∧ (c.node b).isInput = false

section
variable {c : Circuit} (hm : c.Mirror)
include hm

/-- **The loop ends**, with the list empty: every round purges another node. -/
theorem purgeLoop_total : ∃ s, loop purgeStep (c.allNodes.length + 1) c.purgeStart = some s ∧
    PurgeInv c s ∧ s.nodeProcessList = [] := by
  refine loop_total (I := PurgeInv c) (fun s => c.allNodes.length - s.nodePurgeSet.size)
    (fun s s' hi h => ?_) (fun s r hi h => ?_) (purgeStart_inv hm) (by omega)
  · obtain ⟨hi', n, hn, hnp, he⟩ := hi.step hm h
    refine ⟨hi', ?_⟩
    have hle : s'.nodePurgeSet.size ≤ c.allNodes.length :=
      (s'.nodePurgeSet.nodup.subperm fun _ ha => hi'.sub ha).length_le
    rw [he, OrdSet.size_insert hnp] at hle ⊢
    omega
  · unfold purgeStep at h
    split at h
    · cases h
      exact ⟨hi, ‹_›⟩
    · split at h <;> cases h

omit hm in
theorem PurgeInv.settled {s : PurgeState} (hi : PurgeInv c s) (hlist : s.nodeProcessList = []) :
    Settled c (· ∈ s.nodePurgeSet) := by
  intro i
  have h := hi.ready i
  rw [hlist, or_iff_right List.not_mem_nil] at h
  exact h.trans (and_congr_right fun hic => and_congr_right fun _ => hi.outputs_eq_nil hic)

variable {W : NodeId → Prop} (hW : Settled c W)
include hW

/-- A path to an output never meets `W`. -/
theorem Settled.not_useful {n : NodeId} (hn : W n) : ¬c.Useful n := by
  intro ⟨m, hmc, ho, hr⟩
  induction hr using ReflTransGen.head_induction_on with
  | refl =>
    rw [((hW m).1 hn).2.1] at ho
    cases ho
  | head hab _ ih => exact ih (((hW _).1 hn).2.2 _ (hm.fanout hab).2).1

/-- By induction from the nodes without fanouts backwards. -/
theorem Settled.iff (hac : c.IsAcyclic) (hpis : c.PisUndriven) {n : NodeId} (hn : n ∈ c.allNodes) :
    W n ↔ ¬c.Useful n := by
  refine ⟨hW.not_useful hm, ?_⟩
  have hwf : WellFounded fun b a => c.Fanin a b :=
    Acyclic.wellFounded (l := c.allNodes) (fun a ha => hac a (transGen_swap.1 ha)) fun _ _ h => h.1
  induction n using hwf.induction with
  | _ n ih =>
    intro hu
    refine (hW n).2 ⟨hn, ?_, fun b hb => ⟨?_, hpis n hn hu b hb⟩⟩
    · rw [← Bool.not_eq_true]
      exact fun ho => hu (.of_output hn ho)
    · have hab := hm.fanin hn hb
      exact ih b hab (hm.outs n hn b hb) fun hub => hu (hub.of_fanin hab)

end

theorem mem_purgeConst {c : Circuit} {P : NodeSet} {key : String} {n : NodeId} :
    n ∈ c.purgeConst P key ↔ n ∈ P ∨ c.getNode key = some n ∧ (c.node n).outputs = [] := by
  unfold purgeConst
  cases hk : c.getNode key with
  | none => simp
  | some m =>
    simp only [Option.some.injEq]
    split_ifs with h0
    · rw [OrdSet.mem_insert]
      constructor
      · rintro (rfl | hn)
        · exact .inr ⟨rfl, h0⟩
        · exact .inl hn
      · rintro (hn | ⟨rfl, -⟩)
        · exact .inr hn
        · exact .inl rfl
    · refine (or_iff_left fun h => h0 ?_).symm
      rw [h.1]
      exact h.2

theorem mem_purgeConsts {c : Circuit} {keys : List String} {P : NodeSet} {n : NodeId} :
    n ∈ keys.foldl c.purgeConst P ↔
      n ∈ P ∨ ∃ key ∈ keys, c.getNode key = some n ∧ (c.node n).outputs = [] := by
  induction keys generalizing P with
  | nil => simp
  | cons key keys ih =>
    rw [List.foldl_cons, ih, mem_purgeConst, or_assoc]
    simp only [List.mem_cons, exists_eq_or_imp]

theorem Indexed.mem {c : Circuit} (hix : c.Indexed) {key : String} {n : NodeId}
    (h : c.getNode key = some n) : n ∈ c.allNodes := by
  refine hix.mem_iff.1 (List.mem_map.2 ⟨⟨key, n⟩, ?_, rfl⟩)
  exact AList.mem_lookup_iff.1 h

section
variable {c : Circuit} {s : PurgeState} (hi : PurgeInv c s)
include hi

theorem PurgeInv.mem_purgeSet (hix : c.Indexed) {n : NodeId} : n ∈ s.purgeSet ↔
    n ∈ s.nodePurgeSet ∨ ∃ key ∈ ["zero", "one"], c.getNode key = some n ∧
      ∀ b ∈ (c.node n).outputs, b ∈ s.nodePurgeSet ∧ (c.node b).isInput = false := by
  have hget : ∀ key, s.circuit.getNode key = c.getNode key := fun key => by
    rw [getNode, getNode, hi.frame.allNodesMap]
  rw [PurgeState.purgeSet, mem_purgeConsts]
  refine or_congr_right (exists_congr fun key => and_congr_right fun _ => ?_)
  rw [hget]
  exact and_congr_right fun h => hi.outputs_eq_nil (hix.mem h)

theorem PurgeInv.purgeSet_sub (hix : c.Indexed) {n : NodeId} (h : n ∈ s.purgeSet) :
    n ∈ c.allNodes := by
  rcases (hi.mem_purgeSet hix).1 h with h | ⟨key, -, h, -⟩
  · exact hi.sub h
  · exact hix.mem h

/-- **When the purge set is right.** -/
theorem PurgeInv.purgeSet_iff (hm : c.Mirror) (hac : c.IsAcyclic) (hix : c.Indexed)
    (hlist : s.nodeProcessList = []) :
    (∀ n ∈ c.allNodes, n ∈ s.purgeSet ↔ ¬c.Useful n) ↔ c.PisUndriven ∧ c.ConstsKept := by
  have hW := hi.settled hlist
  constructor
  · intro hex
    have hpis : c.PisUndriven := fun n hn hu m hmo => by
      rcases (hi.mem_purgeSet hix).1 ((hex n hn).2 hu) with h | ⟨-, -, -, h⟩
      · exact (((hW n).1 h).2.2 m hmo).2
      · exact (h m hmo).2
    refine ⟨hpis, fun key hkey n hn ho => ?_⟩
    have hnc := hix.mem hn
    by_contra hno
    -- all its fanouts would give it up
    refine (hex n hnc).1 ((hi.mem_purgeSet hix).2 (.inr ⟨key, hkey, hn, fun b hb => ?_⟩))
      (.of_output hnc ho)
    refine ⟨(hW.iff hm hac hpis (hm.outs n hnc b hb)).2 fun hu => hno ⟨b, hb, .inl hu⟩, ?_⟩
    rw [← Bool.not_eq_true]
    exact fun hin => hno ⟨b, hb, .inr hin⟩
  · intro ⟨hpis, hconsts⟩ n hn
    rw [hi.mem_purgeSet hix, hW.iff hm hac hpis hn, or_iff_left_iff_imp]
    rintro ⟨key, hkey, hk, hall⟩
    cases ho : (c.node n).isOutput with
    | false => exact hW.not_useful hm ((hW n).2 ⟨hn, ho, hall⟩)
    | true =>
      obtain ⟨m, hmo, h⟩ := hconsts key hkey n hk ho
      obtain ⟨h1, h2⟩ := hall m hmo
      rcases h with h | h
      · exact absurd h (hW.not_useful hm h1)
      · rw [h2] at h
        cases h

/-- What the rest of `PurgeCircuit` does after the loop. -/
theorem purgeCircuit_eq_some (hix : c.Indexed) {fuel : Nat}
    (hs : loop purgeStep fuel c.purgeStart = some s) {r : Circuit × Nat} :
    c.purgeCircuit fuel = some r ↔
      r = ({ s.circuit with allNodes := c.allNodes.filter (· ∉ s.purgeSet) }, s.purgeSet.size) ∧
        ∀ pre n post, c.allNodes = pre ++ n :: post → (∀ a ∈ pre, a ∉ s.purgeSet) →
          n ∈ s.purgeSet → ∃ a ∈ post, a ∉ s.purgeSet := by
  have hlen : s.circuit.allNodesMap.entries.length = c.allNodes.length := by
    rw [hi.frame.allNodesMap, ← hix.length_eq, List.length_map]
  simp only [purgeCircuit, hs, Option.bind_eq_bind, Option.bind_some, hlen, hi.frame.allNodes]
  split_ifs with h0
  · obtain ⟨n, hn⟩ := List.exists_mem_of_length_pos h0
    have hdead : ∃ a ∈ c.allNodes, decide (a ∈ s.purgeSet) = true :=
      ⟨n, hi.purgeSet_sub hix hn, decide_eq_true hn⟩
    rw [Option.bind_eq_some_iff]
    simp only [closeGaps_eq_some hdead, Option.some.injEq, decide_eq_true_eq, decide_eq_false_iff_not]
    constructor
    · rintro ⟨nodes, ⟨rfl, hlive⟩, rfl⟩
      refine ⟨?_, hlive⟩
      simp only [decide_not]
    · rintro ⟨rfl, hlive⟩
      refine ⟨_, ⟨rfl, hlive⟩, ?_⟩
      simp only [decide_not]
  · have hnone : ∀ n, n ∉ s.purgeSet := fun n hn => h0 (List.length_pos_of_mem hn)
    have hall : c.allNodes.filter (· ∉ s.purgeSet) = s.circuit.allNodes := by
      rw [hi.frame.allNodes, List.filter_eq_self]
      exact fun n _ => decide_eq_true (hnone n)
    rw [hall, Option.some.injEq, eq_comm]
    exact (and_iff_left fun pre n post _ _ hn => absurd hn (hnone n)).symm

end

/-- **`PurgeCircuit` keeps the useful nodes** exactly if no useless node drives a primary input, no
constant that is an output loses its fanouts, and a useful node stands behind the first useless
one. -/
theorem purges_iff {c : Circuit} (hm : c.Mirror) (hac : c.IsAcyclic) (hix : c.Indexed) :
    c.Purges ↔ c.PisUndriven ∧ c.ConstsKept ∧ c.UsefulBehind := by
  obtain ⟨s, hloop, hi, hlist⟩ := purgeLoop_total hm
  have hexact := hi.purgeSet_iff hm hac hix hlist
  have hbehind : (∀ n ∈ c.allNodes, n ∈ s.purgeSet ↔ ¬c.Useful n) →
      ((∀ pre n post, c.allNodes = pre ++ n :: post → (∀ a ∈ pre, a ∉ s.purgeSet) →
        n ∈ s.purgeSet → ∃ a ∈ post, a ∉ s.purgeSet) ↔ c.UsefulBehind) := by
    intro hex
    refine forall₃_congr fun pre n post => forall_congr' fun he => ?_
    have hmem : ∀ a, a ∈ pre ∨ a = n ∨ a ∈ post → (a ∈ s.purgeSet ↔ ¬c.Useful a) := fun a ha =>
      hex a (by rw [he]; simpa using ha)
    refine imp_congr ?_ (imp_congr (hmem n (.inr (.inl rfl))) ?_)
    · exact forall₂_congr fun a ha => by rw [hmem a (.inl ha), not_not]
    · exact exists_congr fun a => and_congr_right fun ha => by
        rw [hmem a (.inr (.inr ha)), not_not]
  rw [← and_assoc, ← hexact]
  constructor
  · intro h
    obtain ⟨fuel, c', k, hrun, -, hmem, -⟩ := h
    obtain ⟨s1, hs1, -⟩ := Option.bind_eq_some_iff.1 hrun
    rw [loop_unique hs1 hloop] at hs1
    obtain ⟨he, hlive⟩ := (purgeCircuit_eq_some hi hix hs1).1 hrun
    cases he
    have hex : ∀ n ∈ c.allNodes, n ∈ s.purgeSet ↔ ¬c.Useful n := fun n hn => by
      have := hmem n
      simp only [List.mem_filter, hn, true_and, decide_eq_true_eq] at this
      rw [← this, not_not]
    exact ⟨hex, (hbehind hex).1 hlive⟩
  · intro ⟨hex, hu⟩
    refine ⟨_, _, _, (purgeCircuit_eq_some hi hix hloop).2 ⟨rfl, (hbehind hex).2 hu⟩,
      List.filter_sublist, fun n => ?_, ?_⟩
    · rw [List.mem_filter, decide_eq_true_eq]
      exact and_congr_right fun hn => by rw [hex n hn, not_not]
    · rw [OrdSet.size_eq_filter hm.nodup fun _ h => hi.purgeSet_sub hix h]
      have := List.length_eq_length_filter_add (l := c.allNodes) (· ∈ s.purgeSet)
      simp only [← decide_not] at this
      exact this.symm

/-- A result for one bound is the result for all. -/
theorem purgeCircuit_eq_none {c : Circuit} (fuel : Nat)
    (hs : (loop purgeStep fuel c.purgeStart).isSome) (h : c.purgeCircuit fuel = none)
    (fuel' : Nat) : c.purgeCircuit fuel' = none := by
  obtain ⟨s, hs⟩ := Option.isSome_iff_exists.1 hs
  cases hs' : loop purgeStep fuel' c.purgeStart with
  | none => simp only [purgeCircuit, hs', Option.bind_eq_bind, Option.bind_none]
  | some s' =>
    obtain rfl := loop_unique hs hs'
    simpa only [purgeCircuit, hs, hs'] using h

/-- `o` and `d` read `p`; `d` drives nothing. -/
def purgeNodes (o d : NodeId) : List Node :=
  let p : Node := { name := "p", isInput := true, outputs := [o, d] }
  let no : Node := { name := "o", isOutput := true, inputs := [0], cube := "1 1\n" }
  let nd : Node := { name := "d", inputs := [0], cube := "1 1\n" }
  if o < d then [p, no, nd] else [p, nd, no]

theorem purges_dead_inside : (ofNodes (purgeNodes 2 1)).Purges := by
  have ho : Ordered (purgeNodes 2 1) := by decide
  have h2 : (ofNodes (purgeNodes 2 1)).Useful 2 := .of_output (by decide) (by decide)
  refine (purges_iff ho.mirror ho.acyclic (by unfold Indexed; decide)).2 ⟨?_, ?_, ?_⟩
  · have hpis : ∀ n ∈ (ofNodes (purgeNodes 2 1)).allNodes,
        ∀ m ∈ ((ofNodes (purgeNodes 2 1)).node n).outputs,
          ((ofNodes (purgeNodes 2 1)).node m).isInput = false := by decide
    exact fun n hn _ => hpis n hn
  · intro key hkey n hn
    have hnone : ∀ key ∈ ["zero", "one"], (ofNodes (purgeNodes 2 1)).getNode key = none := by decide
    rw [hnone key hkey] at hn
    cases hn
  · intro pre n post he _ hn
    have hlast := congrArg List.getLast? he
    cases post using List.reverseRecOn with
    | nil =>
      rw [List.getLast?_concat] at hlast
      cases hlast
      exact absurd h2 hn
    | append_singleton post m =>
      refine ⟨2, ?_, h2⟩
      rw [← List.cons_append, ← List.append_assoc, List.getLast?_concat] at hlast
      cases hlast
      simp

/-- A dead node at the end: the scan for a live node behind it leaves the vector. -/
theorem not_purges_dead_last : ∃ c : Circuit, c.Mirror ∧ c.IsAcyclic ∧ c.Indexed ∧ ¬c.Purges := by
  have ho : Ordered (purgeNodes 1 2) := by decide
  refine ⟨ofNodes (purgeNodes 1 2), ho.mirror, ho.acyclic, by unfold Indexed; decide, ?_⟩
  intro ⟨fuel, c', k, h, _⟩
  have hnone := purgeCircuit_eq_none (c := ofNodes (purgeNodes 1 2)) 4 (by decide)
    (Option.isNone_iff_eq_none.1 (by decide)) fuel
  rw [hnone] at h
  cases h

end Msyn.Nodecircuit.Circuit
