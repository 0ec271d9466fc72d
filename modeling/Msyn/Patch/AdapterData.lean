import Msyn.Circuit.Edges
import Msyn.Lib.Worklist

/-!
# The adapter between two solutions

`Adapter_data` builds a circuit from the nodes of `new_solution` to those of `initial_solution` out
of the nodes of the source circuit: the listed nodes and the primary inputs and outputs among the
fanin cones of `initial_solution` are copied, the other nodes of the cones are shared. Then the
edges of all nodes of the adapter are redirected to the copies in place, those of the shared nodes
of the source circuit, too.

* `mem_coneNodes`: what the traversals of `GetFaninCone` leave in `fanin_cone`.
* `adapterData_node`: the nodes of the source circuit after the constructor.
* `adapterData_keeps_iff`: they are as they were if and only if no shared node has an edge to a
  copied one.
* `adapterData_keeps_mirrored`: with mirrored edges this is the case only without a shared node.
-/

namespace Msyn.AdapterData

open Nodecircuit Relation

/-- The memory and the members of `adapter`. The addresses from `next` on are free. -/
structure Adapter where
  node : NodeId → Node
  next : NodeId
  inputs : List NodeId := []
  outputs : List NodeId := []
  allNodes : List NodeId := []
  nodeMap : NodeId → Option NodeId := fun _ => none

namespace Adapter

/-- `new_node = new Node; *new_node = *node;` with the flags then set, `node_map.insert` and
`all_nodes.push_back`. -/
def copy (s : Adapter) (n : NodeId) (flags : Node → Node) : Adapter :=
  { s with
    node := Function.update s.node s.next (flags (s.node n))
    next := s.next + 1
    allNodes := s.allNodes ++ [s.next]
    nodeMap := if (s.nodeMap n).isSome then s.nodeMap
      else Function.update s.nodeMap n (some s.next) }

/-- The loop over `new_solution`. -/
def copyNew (s : Adapter) (n : NodeId) : Adapter :=
  { s.copy n fun nd => { nd with isInput := true, isOutput := false } with
    inputs := s.inputs ++ [s.next] }

/-- The loop over `initial_solution`. -/
def copyInitial (s : Adapter) (n : NodeId) : Adapter :=
  match s.nodeMap n with
  | some m =>
    { s with
      node := Function.update s.node m { s.node m with isOutput := true }
      allNodes := s.allNodes ++ [m] }
  | none =>
    { s.copy n fun nd => { nd with isInput := false, isOutput := true } with
      outputs := s.outputs ++ [s.next] }

/-- The loop over `fanin_cone`. -/
def takeCone (s : Adapter) (n : NodeId) : Adapter :=
  if (s.nodeMap n).isSome then s
  else if !(s.node n).isInput && !(s.node n).isOutput then
    { s with allNodes := s.allNodes ++ [n] }
  else
    s.copy n fun nd =>
      { nd with
        isInput := if nd.isInput then false else nd.isInput
        isOutput := if nd.isOutput then false else nd.isOutput }

/-- The copy of a node, if it has one. -/
def image (s : Adapter) (n : NodeId) : NodeId := (s.nodeMap n).getD n

def redirected (s : Adapter) (nd : Node) : Node :=
  { nd with inputs := nd.inputs.map s.image, outputs := nd.outputs.map s.image }

/-- The loop over `adapter.all_nodes`. -/
def redirect (s : Adapter) : Adapter :=
  { s with node := s.allNodes.foldl (fun f n => Function.update f n (s.redirected (f n))) s.node }

end Adapter

section
variable (c : Circuit)

/-- `GetFaninCone(node, fanin_nodes)`. -/
def getFaninCone (s : NodeSet) (n : NodeId) : NodeSet :=
  (Worklist.drain (fun s x => decide (x ∈ s)) (fun x s => s.insert x) (fun x => (c.node x).inputs)
    (Worklist.fuelFor (fun x => (c.node x).inputs) c.allNodes) [n] s).erase n

/-- `fanin_cone`. -/
def coneNodes (newSolution initialSolution : List NodeId) : NodeSet :=
  initialSolution.foldl (getFaninCone c) (OrdSet.ofList newSolution)

/-- The constructor, on a memory whose addresses from `next` on are free. -/
def adapterData (next : NodeId) (newSolution initialSolution : List NodeId) : Adapter :=
  let s : Adapter := { node := c.node, next := next }
  if newSolution.all (· ∈ initialSolution) then s
  else
    let s := newSolution.foldl Adapter.copyNew s
    let s := initialSolution.foldl Adapter.copyInitial s
    ((coneNodes c newSolution initialSolution).elems.foldl Adapter.takeCone s).redirect

end

/-! ## The cones -/

/-- `x` is an input of `y` and not in `new_solution`. -/
def Step (c : Circuit) (newSolution : List NodeId) (y x : NodeId) : Prop :=
  x ∈ (c.node y).inputs ∧ x ∉ newSolution

/-- In the fanin cone of a node of `initial_solution`, cut at `new_solution`. -/
def InCone (c : Circuit) (newSolution initialSolution : List NodeId) (n : NodeId) : Prop :=
  ∃ a ∈ initialSolution, TransGen (Step c newSolution) a n

section
variable {c : Circuit} {newSolution initialSolution : List NodeId}

theorem InCone.notMem {n : NodeId} (h : InCone c newSolution initialSolution n) :
    n ∉ newSolution := by
  obtain ⟨a, -, hn⟩ := h
  cases hn with
  | single h => exact h.2
  | tail _ h => exact h.2

theorem InCone.step {x y : NodeId} (h : InCone c newSolution initialSolution y)
    (hxy : Step c newSolution y x) : InCone c newSolution initialSolution x := by
  obtain ⟨a, ha, hy⟩ := h
  exact ⟨a, ha, hy.tail hxy⟩

variable (hc : c.Closed)
include hc

theorem mem_getFaninCone {s : NodeSet} {a y : NodeId} (ha : a ∈ c.allNodes) :
    y ∈ getFaninCone c s a ↔ y ≠ a ∧ (y ∈ s ∨
      Worklist.Reach (fun x => (c.node x).inputs.filter fun y => !decide (y ∈ s)) a y) := by
  have hS : Worklist.Spec (fun (s : NodeSet) x => decide (x ∈ s)) (fun x s => s.insert x)
      (fun x => (c.node x).inputs) fun _ => False :=
    ⟨fun x s y => by simp [or_comm], fun _ h => h.elim⟩
  obtain ⟨l, hl, hmem⟩ := Worklist.drain_spec_from hS s hc ha
  rw [getFaninCone, hl, OrdSet.mem_erase, ← hmem]
  exact and_congr_right fun _ => OrdSet.mem_insertAll

/-- After the traversals from the nodes `done`. -/
structure ConeInv (c : Circuit) (newSolution initialSolution done : List NodeId) (s : NodeSet) :
    Prop where
  sound : ∀ y ∈ s, y ∈ newSolution ∨ InCone c newSolution initialSolution y
  new : ∀ y ∈ newSolution, y ∈ s ∨ y ∈ done
  closed : ∀ y, y ∈ done ∨ (y ∈ s ∧ y ∉ newSolution) → ∀ x ∈ (c.node y).inputs, x ∈ s ∨ x ∈ done

theorem ConeInv.step {done : List NodeId} {s : NodeSet} {a : NodeId}
    (h : ConeInv c newSolution initialSolution done s) (hdone : ∀ n ∈ done, n ∈ initialSolution)
    (ha : a ∈ initialSolution) (hac : a ∈ c.allNodes) :
    ConeInv c newSolution initialSolution (done ++ [a]) (getFaninCone c s a) := by
  have hmem : ∀ y, y ∈ getFaninCone c s a ↔ _ := fun y => mem_getFaninCone hc hac
  set succ := fun x => (c.node x).inputs.filter fun y => !decide (y ∈ s)
  have hsucc : ∀ {y x}, x ∈ succ y ↔ x ∈ (c.node y).inputs ∧ x ∉ s := by
    intro y x
    simp [succ]
  have hreach : ∀ y, Worklist.Reach succ a y →
      y = a ∨ (y ∉ s ∧ (y ∈ newSolution ∨ InCone c newSolution initialSolution y)) := by
    intro y hy
    induction hy with
    | refl => exact .inl rfl
    | @tail y x _ hyx ih =>
      obtain ⟨hin, hxs⟩ := hsucc.1 hyx
      refine .inr ⟨hxs, ?_⟩
      by_cases hx : x ∈ newSolution
      · exact .inl hx
      refine .inr ?_
      rcases ih with rfl | ⟨hys, hy | hy⟩
      · exact ⟨y, ha, .single ⟨hin, hx⟩⟩
      · -- a node of `new_solution` that is not in the cone was a start before
        exact ⟨y, hdone y ((h.new y hy).resolve_left hys), .single ⟨hin, hx⟩⟩
      · exact hy.step ⟨hin, hx⟩
  have hkeep : ∀ y, y ∈ s ∨ Worklist.Reach succ a y ∨ y ∈ done →
      y ∈ getFaninCone c s a ∨ y ∈ done ++ [a] := by
    intro y hy
    by_cases hya : y = a
    · simp [hya]
    · rw [hmem, List.mem_append]
      tauto
  refine ⟨fun y hy => ?_, fun y hy => ?_, fun y hy x hx => ?_⟩
  · obtain ⟨hya, hy | hy⟩ := (hmem y).1 hy
    · exact h.sound y hy
    · exact ((hreach y hy).resolve_left hya).2
  · exact hkeep y (by have := h.new y hy; tauto)
  · have hfrom : ∀ {y}, Worklist.Reach succ a y → x ∈ (c.node y).inputs →
        x ∈ s ∨ Worklist.Reach succ a x ∨ x ∈ done := by
      intro y hy hx
      by_cases hxs : x ∈ s
      · exact .inl hxs
      · exact .inr (.inl (hy.tail (hsucc.2 ⟨hx, hxs⟩)))
    apply hkeep
    rcases hy with hy | ⟨hy, hnew⟩
    · rcases List.mem_append.1 hy with hy | hy
      · have := h.closed y (.inl hy) x hx
        tauto
      · rw [List.mem_singleton.1 hy] at hx
        exact hfrom .refl hx
    · rcases ((hmem y).1 hy).2 with hy | hy
      · have := h.closed y (.inr ⟨hy, hnew⟩) x hx
        tauto
      · exact hfrom hy hx

variable (hi : ∀ n ∈ initialSolution, n ∈ c.allNodes)
include hi

theorem coneNodes_inv :
    ConeInv c newSolution initialSolution initialSolution
      (coneNodes c newSolution initialSolution) := by
  refine foldl_prefix (ConeInv c newSolution initialSolution) (fun done a rest s hd h => ?_)
    ⟨fun y hy => .inl (OrdSet.mem_ofList.1 hy), fun y hy => .inl (OrdSet.mem_ofList.2 hy),
      fun y hy => ?_⟩
  · have ha : a ∈ initialSolution := by rw [hd]; simp
    exact h.step hc (fun n hn => by rw [hd]; simp [hn]) ha (hi a ha)
  · rcases hy with hy | ⟨hy, hnew⟩
    · cases hy
    · exact absurd (OrdSet.mem_ofList.1 hy) hnew

/-- **The cone** of the nodes that are in neither list. -/
theorem mem_coneNodes {n : NodeId} (hn : n ∉ newSolution) (hn' : n ∉ initialSolution) :
    n ∈ coneNodes c newSolution initialSolution ↔ InCone c newSolution initialSolution n := by
  have hinv : ConeInv c newSolution initialSolution initialSolution _ := coneNodes_inv hc hi
  constructor
  · exact fun h => (hinv.sound n h).resolve_left hn
  · rintro ⟨a, ha, hpath⟩
    suffices h : n ∈ coneNodes c newSolution initialSolution ∨ n ∈ initialSolution from
      h.resolve_right hn'
    clear hn hn'
    induction hpath with
    | single h => exact hinv.closed a (.inl ha) _ h.1
    | @tail y x hy hxy ih =>
      refine hinv.closed y ?_ x hxy.1
      rcases ih with ih | ih
      · exact .inr ⟨ih, InCone.notMem ⟨a, ha, hy⟩⟩
      · exact .inl ih

theorem InCone.mem {n : NodeId} (h : InCone c newSolution initialSolution n) : n ∈ c.allNodes := by
  obtain ⟨a, ha, hn⟩ := h
  induction hn with
  | single h => exact hc a (hi a ha) _ h.1
  | tail _ h ih => exact hc _ ih _ h.1

end

/-! ## The copies -/

/-- A primary input or output. -/
def Flagged (c : Circuit) (n : NodeId) : Prop :=
  (c.node n).isInput = true ∨ (c.node n).isOutput = true

instance (c : Circuit) (n : NodeId) : Decidable (Flagged c n) := inferInstanceAs (Decidable (_ ∨ _))

/-- A node of the source circuit that is copied. -/
def Copied (c : Circuit) (newSolution initialSolution : List NodeId) (n : NodeId) : Prop :=
  n ∈ newSolution ∨ n ∈ initialSolution ∨
    (InCone c newSolution initialSolution n ∧ Flagged c n)

/-- A node that the adapter has in common with the source circuit. -/
structure Shared (c : Circuit) (newSolution initialSolution : List NodeId) (n : NodeId) :
    Prop where
  cone : InCone c newSolution initialSolution n
  notInitial : n ∉ initialSolution
  gate : ¬Flagged c n

/-- The copies are new nodes, and the source circuit is as it was. -/
structure Inv (c : Circuit) (next : NodeId) (key shared : NodeId → Prop) (s : Adapter) : Prop where
  old : ∀ n < next, s.node n = c.node n
  le : next ≤ s.next
  keys : ∀ n, (s.nodeMap n).isSome ↔ key n
  image : ∀ n m, s.nodeMap n = some m → next ≤ m
  shared : ∀ n < next, n ∈ s.allNodes ↔ shared n

namespace Inv

variable {c : Circuit} {next : NodeId} {key key' shared shared' : NodeId → Prop} {s : Adapter}

theorem congr (h : Inv c next key shared s) (hk : ∀ n, key n ↔ key' n)
    (hs : ∀ n < next, shared n ↔ shared' n) : Inv c next key' shared' s :=
  ⟨h.old, h.le, fun n => (h.keys n).trans (hk n), h.image,
    fun n hn => (h.shared n hn).trans (hs n hn)⟩

theorem copy (h : Inv c next key shared s) (n : NodeId) (flags : Node → Node) :
    Inv c next (fun m => key m ∨ m = n) shared (s.copy n flags) := by
  have hle := h.le
  refine ⟨fun m hm => ?_, hle.trans (Nat.le_succ _), fun m => ?_, fun m x hx => ?_, fun m hm => ?_⟩
  · exact (Function.update_of_ne (by unfold NodeId at *; omega) _ _).trans (h.old m hm)
  · show ((if (s.nodeMap n).isSome then s.nodeMap
      else Function.update s.nodeMap n (some s.next)) m).isSome ↔ _
    rw [← h.keys m]
    split
    · rename_i hsome
      refine ⟨.inl, fun hm => hm.elim (fun h => h) ?_⟩
      rintro rfl
      exact hsome
    · by_cases hmn : m = n
      · rw [hmn, Function.update_self]
        simp
      · rw [Function.update_of_ne hmn, or_iff_left hmn]
  · change (if (s.nodeMap n).isSome then s.nodeMap
      else Function.update s.nodeMap n (some s.next)) m = some x at hx
    split at hx
    · exact h.image m x hx
    · by_cases hmn : m = n
      · rw [hmn, Function.update_self] at hx
        exact Option.some.inj hx ▸ hle
      · rw [Function.update_of_ne hmn] at hx
        exact h.image m x hx
  · show m ∈ s.allNodes ++ [s.next] ↔ _
    rw [List.mem_append, List.mem_singleton, ← h.shared m hm]
    exact or_iff_left (by unfold NodeId at *; omega)

theorem copyNew (h : Inv c next key shared s) (n : NodeId) :
    Inv c next (fun m => key m ∨ m = n) shared (s.copyNew n) :=
  let h' := h.copy n fun nd => { nd with isInput := true, isOutput := false }
  ⟨h'.old, h'.le, h'.keys, h'.image, h'.shared⟩

theorem copyInitial (h : Inv c next key shared s) (n : NodeId) :
    Inv c next (fun m => key m ∨ m = n) shared (s.copyInitial n) := by
  unfold Adapter.copyInitial
  split
  · rename_i m hm
    have hle := h.image n m hm
    refine ⟨fun x hx => ?_, h.le, fun x => ?_, h.image, fun x hx => ?_⟩
    · exact (Function.update_of_ne (by unfold NodeId at *; omega) _ _).trans (h.old x hx)
    · rw [h.keys x]
      refine ⟨.inl, fun hx => hx.elim (fun h => h) ?_⟩
      rintro rfl
      exact (h.keys x).1 (by rw [hm]; rfl)
    · show x ∈ s.allNodes ++ [m] ↔ _
      rw [List.mem_append, List.mem_singleton, ← h.shared x hx]
      exact or_iff_left (by unfold NodeId at *; omega)
  · let h' := h.copy n fun nd => { nd with isInput := false, isOutput := true }
    exact ⟨h'.old, h'.le, h'.keys, h'.image, h'.shared⟩

theorem takeCone (h : Inv c next key shared s) {n : NodeId} (hn : n < next) :
    Inv c next (fun m => key m ∨ (m = n ∧ Flagged c n))
      (fun m => shared m ∨ (m = n ∧ ¬key n ∧ ¬Flagged c n)) (s.takeCone n) := by
  have hflag : (!(s.node n).isInput && !(s.node n).isOutput) = true ↔ ¬Flagged c n := by
    rw [h.old n hn, Flagged]
    simp
  unfold Adapter.takeCone
  by_cases hkey : key n
  · rw [if_pos ((h.keys n).2 hkey)]
    refine h.congr (fun m => ?_) fun m _ => ?_
    · refine (or_iff_left_of_imp ?_).symm
      rintro ⟨rfl, -⟩
      exact hkey
    · exact (or_iff_left fun hm => hm.2.1 hkey).symm
  rw [if_neg fun h' => hkey ((h.keys n).1 h'), if_congr hflag rfl rfl]
  by_cases hgate : Flagged c n
  · rw [if_neg (not_not.2 hgate)]
    refine (h.copy n _).congr (fun m => ?_) fun m _ => ?_
    · rw [and_iff_left hgate]
    · exact (or_iff_left fun hm => hm.2.2 hgate).symm
  · rw [if_pos hgate]
    refine ⟨h.old, h.le, fun m => ?_, h.image, fun m hm => ?_⟩
    · exact (h.keys m).trans (or_iff_left fun hm => hgate hm.2).symm
    · show m ∈ s.allNodes ++ [n] ↔ _
      rw [List.mem_append, List.mem_singleton, h.shared m hm, and_iff_left ⟨hkey, hgate⟩]

theorem foldl_copyNew (l : List NodeId) (h : Inv c next key shared s) :
    Inv c next (fun m => key m ∨ m ∈ l) shared (l.foldl Adapter.copyNew s) := by
  induction l generalizing s key with
  | nil => exact h.congr (by simp) fun _ _ => Iff.rfl
  | cons n l ih => exact (ih (h.copyNew n)).congr (by simp [or_assoc]) fun _ _ => Iff.rfl

theorem foldl_copyInitial (l : List NodeId) (h : Inv c next key shared s) :
    Inv c next (fun m => key m ∨ m ∈ l) shared (l.foldl Adapter.copyInitial s) := by
  induction l generalizing s key with
  | nil => exact h.congr (by simp) fun _ _ => Iff.rfl
  | cons n l ih => exact (ih (h.copyInitial n)).congr (by simp [or_assoc]) fun _ _ => Iff.rfl

theorem foldl_takeCone {l : List NodeId} (hl : ∀ n ∈ l, n < next) (h : Inv c next key shared s) :
    Inv c next (fun m => key m ∨ (m ∈ l ∧ Flagged c m))
      (fun m => shared m ∨ (m ∈ l ∧ ¬key m ∧ ¬Flagged c m)) (l.foldl Adapter.takeCone s) := by
  induction l generalizing s key shared with
  | nil => exact h.congr (by simp) (by simp)
  | cons n l ih =>
    refine (ih (fun m hm => hl m (by simp [hm])) (h.takeCone (hl n (by simp)))).congr
      (fun m => ?_) fun m _ => ?_
    · rw [List.mem_cons]
      by_cases hm : m = n
      · subst hm
        tauto
      · tauto
    · rw [List.mem_cons]
      by_cases hm : m = n
      · subst hm
        tauto
      · tauto

end Inv

/-- `adapter.all_nodes` may have a node twice; its edges are then at the copies already. -/
theorem foldl_redirected {α : Type*} [DecidableEq α] {β : Type*} {f : β → β}
    (hf : ∀ b, f (f b) = f b) (l : List α) (g : α → β) (n : α) :
    l.foldl (fun g n => Function.update g n (f (g n))) g n = if n ∈ l then f (g n) else g n := by
  induction l generalizing g with
  | nil => rfl
  | cons m l ih =>
    rw [List.foldl_cons, ih]
    by_cases hnm : n = m
    · subst hnm
      rw [Function.update_self, hf, ite_self, if_pos List.mem_cons_self]
    · have hmem : n ∈ m :: l ↔ n ∈ l := by rw [List.mem_cons, or_iff_right hnm]
      rw [Function.update_of_ne hnm, if_congr hmem rfl rfl]

/-! ## The source circuit afterwards -/

section
variable {c : Circuit} {next : NodeId} {newSolution initialSolution : List NodeId}
  (hc : c.Closed) (hnext : ∀ n ∈ c.allNodes, n < next)
  (hnew : ∀ n ∈ newSolution, n ∈ c.allNodes) (hi : ∀ n ∈ initialSolution, n ∈ c.allNodes)
include hc hnext hnew hi

theorem Copied.lt {n : NodeId} (h : Copied c newSolution initialSolution n) : n < next := by
  rcases h with h | h | h
  · exact hnext n (hnew n h)
  · exact hnext n (hi n h)
  · exact hnext n (h.1.mem hc hi)

/-- The adapter before its edges are redirected. -/
theorem built_inv :
    Inv c next (Copied c newSolution initialSolution) (Shared c newSolution initialSolution)
      ((coneNodes c newSolution initialSolution).elems.foldl Adapter.takeCone
        (initialSolution.foldl Adapter.copyInitial
          (newSolution.foldl Adapter.copyNew { node := c.node, next := next }))) := by
  have hstart : Inv c next (fun _ => False) (fun _ => False) { node := c.node, next := next } :=
    ⟨fun _ _ => rfl, le_refl next, fun _ => by simp, fun _ _ h => (by cases h), fun _ _ => by simp⟩
  have hcone : ∀ n ∈ (coneNodes c newSolution initialSolution).elems, n < next := by
    intro n hn
    rcases (coneNodes_inv hc hi).sound n hn with h | h
    · exact hnext n (hnew n h)
    · exact hnext n (h.mem hc hi)
  refine (((hstart.foldl_copyNew newSolution).foldl_copyInitial initialSolution).foldl_takeCone
    hcone).congr (fun n => ?_) fun n _ => ?_
  · unfold Copied
    by_cases hn : n ∈ newSolution
    · simp [hn]
    by_cases hn' : n ∈ initialSolution
    · simp [hn']
    · rw [← mem_coneNodes hc hi hn hn']
      simp [hn, hn', OrdSet.mem_def]
  · constructor
    · rintro (h | ⟨hcone, hkey, hgate⟩)
      · exact h.elim
      · simp only [false_or, not_or] at hkey
        exact ⟨(mem_coneNodes hc hi hkey.1 hkey.2).1 hcone, hkey.2, hgate⟩
    · intro h
      refine .inr ⟨(mem_coneNodes hc hi h.cone.notMem h.notInitial).2 h.cone, ?_, h.gate⟩
      simp only [false_or, not_or]
      exact ⟨h.cone.notMem, h.notInitial⟩

/-- **The nodes of the source circuit** after the constructor: the edges of the shared ones lead to
the copies. -/
theorem adapterData_node (hsub : ¬newSolution ⊆ initialSolution) :
    ∃ image : NodeId → NodeId,
      (∀ i, Copied c newSolution initialSolution i → next ≤ image i) ∧
      (∀ i, ¬Copied c newSolution initialSolution i → image i = i) ∧
      ∀ n ∈ c.allNodes,
        (Shared c newSolution initialSolution n →
          (adapterData c next newSolution initialSolution).node n =
            { c.node n with
              inputs := (c.node n).inputs.map image, outputs := (c.node n).outputs.map image }) ∧
        (¬Shared c newSolution initialSolution n →
          (adapterData c next newSolution initialSolution).node n = c.node n) := by
  have hinv := built_inv hc hnext hnew hi
  set s := (coneNodes c newSolution initialSolution).elems.foldl Adapter.takeCone
    (initialSolution.foldl Adapter.copyInitial
      (newSolution.foldl Adapter.copyNew { node := c.node, next := next })) with hs
  have hcopied : ∀ i, Copied c newSolution initialSolution i → next ≤ s.image i := by
    intro i hi'
    obtain ⟨m, hm⟩ := Option.isSome_iff_exists.1 ((hinv.keys i).2 hi')
    rw [Adapter.image, hm]
    exact hinv.image i m hm
  have hother : ∀ i, ¬Copied c newSolution initialSolution i → s.image i = i := by
    intro i hi'
    have hnone : s.nodeMap i = none := by
      rw [← Option.not_isSome_iff_eq_none, hinv.keys i]
      exact hi'
    rw [Adapter.image, hnone]
    rfl
  have himage : ∀ i, s.image (s.image i) = s.image i := by
    intro i
    by_cases hi' : Copied c newSolution initialSolution i
    · refine hother _ fun h => ?_
      exact absurd (h.lt hc hnext hnew hi) (Nat.not_lt.2 (hcopied i hi'))
    · rw [hother i hi', hother i hi']
  have hidem : ∀ nd, s.redirected (s.redirected nd) = s.redirected nd := by
    intro nd
    have hmap : ∀ l : List NodeId, (l.map s.image).map s.image = l.map s.image := fun l => by
      rw [List.map_map]
      exact List.map_congr_left fun i _ => himage i
    simp only [Adapter.redirected, hmap]
  have hall : newSolution.all (· ∈ initialSolution) = false := by
    rw [Bool.eq_false_iff, Ne, List.all_eq_true]
    exact fun h => hsub fun n hn => of_decide_eq_true (h n hn)
  refine ⟨s.image, hcopied, hother, fun n hn => ?_⟩
  have hnode : (adapterData c next newSolution initialSolution).node n =
      if n ∈ s.allNodes then s.redirected (c.node n) else c.node n := by
    rw [adapterData, hall, if_neg Bool.false_ne_true]
    show s.allNodes.foldl (fun f n => Function.update f n (s.redirected (f n))) s.node n = _
    rw [foldl_redirected hidem, hinv.old n (hnext n hn)]
  have hshared := hinv.shared n (hnext n hn)
  rw [hnode]
  exact ⟨fun h => if_pos (hshared.2 h), fun h => if_neg fun hmem => h (hshared.1 hmem)⟩

omit hc hnext hnew hi in
theorem adapterData_subset (hsub : newSolution ⊆ initialSolution) :
    (adapterData c next newSolution initialSolution).node = c.node := by
  have hall : newSolution.all (· ∈ initialSolution) = true := by
    exact List.all_eq_true.2 fun n hn => decide_eq_true (hsub hn)
  rw [adapterData, if_pos hall]

/-! ## When it is as it was -/

/-- The fields of the nodes of the source circuit are those in `node`. -/
def Keeps (c : Circuit) (node : NodeId → Node) : Prop :=
  ∀ n ∈ c.allNodes, (node n).inputs = (c.node n).inputs ∧ (node n).outputs = (c.node n).outputs ∧
    (node n).name = (c.node n).name ∧ (node n).isInput = (c.node n).isInput ∧
    (node n).isOutput = (c.node n).isOutput

/-- No shared node has an edge from or to a copied node. -/
def Apart (c : Circuit) (newSolution initialSolution : List NodeId) : Prop :=
  ∀ n, Shared c newSolution initialSolution n →
    ∀ i ∈ (c.node n).inputs ++ (c.node n).outputs, ¬Copied c newSolution initialSolution i

/-- **The source circuit is kept** if and only if there is nothing to do or no shared node has an
edge from or to a copied node. -/
theorem adapterData_keeps_iff :
    Keeps c (adapterData c next newSolution initialSolution).node ↔
      newSolution ⊆ initialSolution ∨ Apart c newSolution initialSolution := by
  by_cases hsub : newSolution ⊆ initialSolution
  · rw [adapterData_subset hsub]
    exact ⟨fun _ => .inl hsub, fun _ n _ => ⟨rfl, rfl, rfl, rfl, rfl⟩⟩
  rw [or_iff_right hsub]
  obtain ⟨image, hcopied, hother, hnode⟩ := adapterData_node hc hnext hnew hi hsub
  have hfix : ∀ i, image i = i ↔ ¬Copied c newSolution initialSolution i := by
    refine fun i => ⟨fun he hcop => ?_, hother i⟩
    have hlt := hcop.lt hc hnext hnew hi
    have hle := hcopied i hcop
    unfold NodeId at *
    omega
  have hmap : ∀ l : List NodeId, l.map image = l ↔
      ∀ i ∈ l, ¬Copied c newSolution initialSolution i := by
    intro l
    have hinj := List.map_inj_left (l := l) (f := image) (g := id)
    rw [List.map_id] at hinj
    exact hinj.trans (forall₂_congr fun i _ => hfix i)
  constructor
  · intro h n hn i hmem
    obtain ⟨hins, houts, -⟩ := h n (hn.cone.mem hc hi)
    rw [(hnode n (hn.cone.mem hc hi)).1 hn] at hins houts
    rcases List.mem_append.1 hmem with hmem | hmem
    · exact (hmap _).1 hins i hmem
    · exact (hmap _).1 houts i hmem
  · intro h n hn
    by_cases hsh : Shared c newSolution initialSolution n
    · rw [(hnode n hn).1 hsh]
      exact ⟨(hmap _).2 fun i hmem => h n hsh i (List.mem_append_left _ hmem),
        (hmap _).2 fun i hmem => h n hsh i (List.mem_append_right _ hmem), rfl, rfl, rfl⟩
    · rw [(hnode n hn).2 hsh]
      exact ⟨rfl, rfl, rfl, rfl, rfl⟩

end

/-- The circuit a → g → f. -/
def chain : Circuit where
  allNodes := [0, 1, 2]
  inputs := [0]
  outputs := [2]
  node n :=
    if n = 0 then { name := "a", isInput := true, outputs := [1] }
    else if n = 1 then { name := "g", inputs := [0], outputs := [2] }
    else { name := "f", isOutput := true, inputs := [1] }
  cluster _ := {}

theorem chain_closed : chain.Closed := by
  unfold Circuit.Closed
  decide

/-- From a to g there is nothing to share. -/
theorem adapterData_keeps_gate : Keeps chain (adapterData chain 3 [0] [1]).node := by
  refine (adapterData_keeps_iff chain_closed (by decide) (by decide) (by decide)).2
    (.inr fun n hn => ?_)
  obtain ⟨a, ha, hpath⟩ := hn.cone
  obtain ⟨x, hstep, -⟩ := TransGen.head'_iff.1 hpath
  rw [List.mem_singleton.1 ha] at hstep
  exact absurd hstep.1 hstep.2

/-- From a to f the adapter shares g, whose edges then lead to the copies of a and f. -/
theorem adapterData_redirects : ¬Keeps chain (adapterData chain 3 [0] [2]).node := by
  intro h
  have := (h 1 (by decide)).1
  revert this
  decide

/-- **With mirrored edges** the source circuit is kept only if nothing is shared. -/
theorem adapterData_keeps_mirrored {c : Circuit} {next : NodeId}
    {newSolution initialSolution : List NodeId} (hm : c.Mirror) (hnext : ∀ n ∈ c.allNodes, n < next)
    (hnew : ∀ n ∈ newSolution, n ∈ c.allNodes) (hi : ∀ n ∈ initialSolution, n ∈ c.allNodes) :
    Keeps c (adapterData c next newSolution initialSolution).node ↔
      newSolution ⊆ initialSolution ∨ ∀ n, ¬Shared c newSolution initialSolution n := by
  rw [adapterData_keeps_iff hm.closed hnext hnew hi]
  refine or_congr_right ⟨fun h n hn => ?_, fun h n hn => absurd hn (h n)⟩
  obtain ⟨a, ha, hpath⟩ := hn.cone
  have hedge : ∀ {y x}, y ∈ c.allNodes → x ∈ (c.node y).inputs →
      y ∈ (c.node x).inputs ++ (c.node x).outputs := fun hy hx =>
    List.mem_append_right _ ((hm.mem_iff (hm.closed _ hy _ hx) hy).1 hx)
  -- the node before the first shared one on the path is copied
  induction hpath with
  | single hx => exact h _ hn a (hedge (hi a ha) hx.1) (.inr (.inl ha))
  | @tail y x hy hyx ih =>
    have hcone : InCone c newSolution initialSolution y := ⟨a, ha, hy⟩
    by_cases hinit : y ∈ initialSolution
    · exact h x hn y (hedge (hi y hinit) hyx.1) (.inr (.inl hinit))
    by_cases hflag : Flagged c y
    · exact h x hn y (hedge (hcone.mem hm.closed hi) hyx.1) (.inr (.inr ⟨hcone, hflag⟩))
    · exact ih ⟨hcone, hinit, hflag⟩

end Msyn.AdapterData
