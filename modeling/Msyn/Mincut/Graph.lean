import Msyn.Circuit.Cone
import Msyn.Lib.MachineInt
import Msyn.Lib.MaxFlow
import Msyn.Lib.QueueSearch

/-!
# The network of a minimum cut

`GetMinCut` makes a network of the fanin cones of the listed nodes: a vertex for each node, labelled
with its name, and a buffer vertex after each listed node and each node with several fanouts in the
cones. All edges out of a node and its buffer have the weight of the node. The maximum flow is
boost's: a parameter that returns the flow and the colours of the vertices.

* `mem_cones`: the sets of the traversals, which stop at primary inputs.
* `makeGraph_edges`: the edges, by the node they leave.
* `makeGraph_label`: the node of a vertex, if no two vertices have the same label.
-/

namespace Msyn.Mincut

open Nodecircuit Relation

/-- `default_color_type`. -/
inductive DefaultColor
  | white | gray | green | red | black
deriving DecidableEq

/-- An edge with its reverse edge, whose capacity is 0. -/
structure Edge where
  v1 : String
  v2 : String
  capacity : Int
deriving DecidableEq

/-- A vertex is its label: `add_vertex` of a label that exists adds nothing. -/
structure Graph where
  vertices : List String := []
  node : String → Option NodeId := fun _ => none
  edges : List Edge := []

namespace Graph

variable (g : Graph)

/-- `g.add_vertex(name); g[name].name = name; g[name].node = node;`. -/
def addVertex (name : String) (node : Option NodeId) : Graph :=
  { g with
    vertices := if name ∈ g.vertices then g.vertices else g.vertices ++ [name]
    node := Function.update g.node name node }

/-- `AddEdge_(v1, v2, rev, capacity, g)`. -/
def addEdge_ (v1 v2 : String) (capacity : Int) : Graph :=
  { g with edges := g.edges ++ [⟨v1, v2, capacity⟩] }

/-- The targets and capacities of `out_edges(v, g)`. -/
def outEdges (v : String) : List (String × Int) :=
  g.edges.flatMap fun e =>
    (if e.v1 = v then [(e.v2, e.capacity)] else []) ++ if e.v2 = v then [(e.v1, 0)] else []

/-- The edges as arcs of a network. -/
def network : Network String (Fin g.edges.length) where
  tail i := (g.edges.get i).v1
  head i := (g.edges.get i).v2
  cap i := (g.edges.get i).capacity

end Graph

section
variable (c : Circuit) (weight : NodeId → Int)

/-- `GetFaninCone(node, fanin_nodes, fanin_pi)`. -/
def getFaninCone (s : NodeSet × NodeSet) (n : NodeId) : NodeSet × NodeSet :=
  let s := Worklist.drain (fun s x => decide (x ∈ s.1))
    (fun x s => if (c.node x).isInput then (s.1, s.2.insert x) else (s.1.insert x, s.2))
    c.faninSucc (Worklist.fuelFor c.faninSucc c.allNodes) [n] s
  (s.1.erase n, s.2)

/-- `fanin_cone` and `fanin_pi`. -/
def cones (inputSet : NodeSet) : NodeSet × NodeSet :=
  inputSet.elems.foldl (fun s n =>
    let s := getFaninCone c s n
    if (c.node n).isInput then (s.1, s.2.insert n) else s) (∅, ∅)

/-- `valid_fanout` in `AddEdge`. -/
def validFanout (faninCone inputSet : NodeSet) (n : NodeId) : List NodeId :=
  (c.node n).outputs.filter fun m => decide (m ∈ faninCone ∨ m ∈ inputSet)

/-- `node.name + "_buf"`. -/
def buffer (n : NodeId) : String := (c.node n).name ++ "_buf"

/-- The buffer with an edge from its node. -/
def addBuffer (g : Graph) (n : NodeId) : Graph :=
  (g.addVertex (buffer c n) (some n)).addEdge_ (c.node n).name (buffer c n) (weight n)

/-- The edges from the buffer to `valid_fanout`. -/
def addFanouts (g : Graph) (n : NodeId) (fanouts : List NodeId) : Graph :=
  fanouts.foldl (fun g m => g.addEdge_ (buffer c n) (c.node m).name (weight n)) g

/-- `AddEdge(node, fanin_cone, input_set, rev, sink, g)`. -/
def addEdge (faninCone inputSet : NodeSet) (g : Graph) (n : NodeId) : Graph :=
  if n ∈ inputSet then
    addFanouts c weight ((addBuffer c weight g n).addEdge_ (buffer c n) "sink_" (weight n)) n
      (validFanout c faninCone inputSet n)
  else
    match validFanout c faninCone inputSet n with
    | [] => g
    | [m] => g.addEdge_ (c.node n).name (c.node m).name (weight n)
    | fanouts => addFanouts c weight (addBuffer c weight g n) n fanouts

/-- The vertices of `src`, `sink` and the nodes. -/
def makeVertices (faninCone faninPi inputSet : NodeSet) : Graph :=
  let addNode (g : Graph) (n : NodeId) := g.addVertex (c.node n).name (some n)
  let g : Graph := ({ : Graph}.addVertex "src_" none).addVertex "sink_" none
  inputSet.elems.foldl addNode (faninCone.elems.foldl addNode (faninPi.elems.foldl addNode g))

/-- The network. -/
def makeGraph (faninCone faninPi inputSet : NodeSet) : Graph :=
  let g := faninPi.elems.foldl (fun g n =>
    addEdge c weight faninCone inputSet (g.addEdge_ "src_" (c.node n).name (weight n)) n)
    (makeVertices c faninCone faninPi inputSet)
  let g := faninCone.elems.foldl (addEdge c weight faninCone inputSet) g
  inputSet.elems.foldl (fun g n =>
    if n ∈ faninPi ∨ n ∈ faninCone then g
    else g.addEdge_ (c.node n).name "sink_" (weight n)) g

/-- The network for the listed nodes. -/
def graphOf (input : List NodeId) : Graph :=
  let inputSet := OrdSet.ofList input
  let s := cones c inputSet
  makeGraph c weight s.1 s.2 inputSet

end

/-- The vertices that `SearchForMinCut` goes on to from `v`. -/
def searchNext (color : String → DefaultColor) (g : Graph) (v : String) : List String :=
  ((g.outEdges v).filter fun e => decide (0 < e.2 ∧ color e.1 = color v)).map Prod.fst

/-- What it puts in `optimized` at `v`. -/
def searchEmit (color : String → DefaultColor) (g : Graph) (v : String) : List (Option NodeId) :=
  if (g.outEdges v).any fun e => decide (0 < e.2 ∧ color e.1 ≠ color v) then [g.node v] else []

/-- `SearchForMinCut`, with the labels of `start`. Each vertex enters the queue once. -/
def searchForMinCut (start : List String) (color : String → DefaultColor) (g : Graph) :
    Option (List (Option NodeId)) :=
  loop (QueueSearch.searchStep (searchNext color g) (searchEmit color g)) (g.vertices.length + 1)
    (start, start, [])

/-- `optimized`, the returned weight, and whether the flow is another one. -/
structure Result where
  optimized : List NodeId
  optimizedWeight : Int
  failed : Bool

/-- `GetMinCut(input, optimized)` on an empty `optimized`, which is its output. `maxFlow` is
`boykov_kolmogorov_max_flow`; a null pointer in `optimized` is `none`. -/
def getMinCut (c : Circuit) (weight : NodeId → Int)
    (maxFlow : Graph → Int × (String → DefaultColor)) (input : List NodeId) : Option Result := do
  let g := graphOf c weight input
  let (flow, color) := maxFlow g
  let start := (cones c (OrdSet.ofList input)).2.elems.map fun n => (c.node n).name
  let color := start.foldl (fun color v => Function.update color v (color "src_")) color
  let nodes ← searchForMinCut start color g
  let optimized ← nodes.mapM id
  let optimizedWeight := optimized.foldl (fun sum n => toInt (sum + weight n)) 0
  some ⟨optimized, optimizedWeight, decide (flow ≠ optimizedWeight)⟩

/-! ## The cones -/

/-- On a path to a listed node. -/
def Leads (c : Circuit) (input : List NodeId) (n : NodeId) : Prop :=
  ∃ t ∈ input, ReflTransGen c.Fanin n t

/-- After the traversals from the nodes `done`. -/
structure ConesInv (c : Circuit) (input done : List NodeId) (s : NodeSet × NodeSet) : Prop where
  cone : ∀ n ∈ s.1, (c.node n).isInput = false ∧ Leads c input n
  pi : ∀ n ∈ s.2, (c.node n).isInput = true ∧ Leads c input n
  listed : ∀ n ∈ done, (c.node n).isInput = true → n ∈ s.2
  closed : ∀ n, n ∈ s.1 ∨ n ∈ done → (c.node n).isInput = false →
    ∀ x ∈ (c.node n).inputs, x ∈ s.1 ∨ x ∈ s.2 ∨ x ∈ done

section
variable {c : Circuit} {input : List NodeId} (hm : c.Mirror) (hin : ∀ n ∈ input, n ∈ c.allNodes)
include hm

theorem mem_getFaninCone (s : NodeSet × NodeSet) {a : NodeId} (ha : a ∈ c.allNodes) :
    ∃ l : List NodeId,
      (∀ y, y ∈ l ↔
        Worklist.Reach (fun x => (c.faninSucc x).filter fun y => !decide (y ∈ s.1)) a y) ∧
      (∀ y, y ∈ (getFaninCone c s a).1 ↔ y ≠ a ∧ (y ∈ s.1 ∨ y ∈ l ∧ (c.node y).isInput = false)) ∧
      ∀ y, y ∈ (getFaninCone c s a).2 ↔ y ∈ s.2 ∨ y ∈ l ∧ (c.node y).isInput = true := by
  obtain ⟨l, hl, hmem⟩ := Worklist.drain_spec_from c.faninSpec s hm.faninSucc_mem ha
  refine ⟨l, hmem, fun y => ?_, fun y => ?_⟩
  · rw [getFaninCone, hl, OrdSet.mem_erase, (Circuit.mem_foldl_fanin c l s y).1]
  · rw [getFaninCone, hl, (Circuit.mem_foldl_fanin c l s y).2]

theorem ConesInv.step {done : List NodeId} {s : NodeSet × NodeSet} {a : NodeId}
    (h : ConesInv c input done s) (ha : a ∈ input) (hac : a ∈ c.allNodes) :
    ConesInv c input (done ++ [a]) (getFaninCone c s a) := by
  obtain ⟨l, hl, hcone, hpi⟩ := mem_getFaninCone hm s hac
  have hleads : ∀ y ∈ l, Leads c input y := by
    intro y hy
    refine ⟨a, ha, Circuit.reach_inputs hm hac (ReflTransGen.mono ?_ _ _ ((hl y).1 hy))⟩
    exact fun x z hz => (List.mem_filter.1 hz).1
  have hal : a ∈ l := (hl a).2 .refl
  have hmem : ∀ x, x ∈ s.1 ∨ x ∈ s.2 ∨ x ∈ done ∨ x ∈ l →
      x ∈ (getFaninCone c s a).1 ∨ x ∈ (getFaninCone c s a).2 ∨ x ∈ done ++ [a] := by
    intro x hx
    rw [hcone, hpi, List.mem_append, List.mem_singleton]
    cases hi : (c.node x).isInput <;> tauto
  refine ⟨fun n hn => ?_, fun n hn => ?_, fun n hn hi => ?_, fun n hn hi x hx => ?_⟩
  · rcases ((hcone n).1 hn).2 with hn | hn
    · exact h.cone n hn
    · exact ⟨hn.2, hleads n hn.1⟩
  · rcases (hpi n).1 hn with hn | hn
    · exact h.pi n hn
    · exact ⟨hn.2, hleads n hn.1⟩
  · rw [hpi]
    rcases List.mem_append.1 hn with hn | hn
    · exact .inl (h.listed n hn hi)
    · rw [List.mem_singleton.1 hn] at hi ⊢
      exact .inr ⟨hal, hi⟩
  · apply hmem
    have hold : n ∈ s.1 ∨ n ∈ done ∨ n ∈ l := by
      rw [hcone, List.mem_append, List.mem_singleton] at hn
      rcases hn with hn | hn | rfl
      · tauto
      · exact .inr (.inl hn)
      · exact .inr (.inr hal)
    rcases hold with hn | hn | hn
    · have := h.closed n (.inl hn) hi x hx
      tauto
    · have := h.closed n (.inr hn) hi x hx
      tauto
    · by_cases hxs : x ∈ s.1
      · exact .inl hxs
      · refine .inr (.inr (.inr ((hl x).2 (((hl n).1 hn).tail ?_))))
        rw [List.mem_filter, Circuit.faninSucc, hi]
        exact ⟨hx, by simpa using hxs⟩

include hin

/-- **The cones.** -/
theorem mem_cones :
    ConesInv c input (OrdSet.ofList input).elems (cones c (OrdSet.ofList input)) := by
  refine foldl_prefix (ConesInv c input) (fun done a rest s hd h => ?_)
    ⟨fun n hn => ?_, fun n hn => ?_, fun n hn => ?_, fun n hn => ?_⟩
  · have ha : a ∈ input := OrdSet.mem_ofList.1 (show a ∈ (OrdSet.ofList input).elems by simp [hd])
    have h' := h.step hm ha (hin a ha)
    show ConesInv c input (done ++ [a]) (if (c.node a).isInput then _ else _)
    split
    · rename_i hi
      -- a primary input is in `fanin_pi` already
      have hmem : ∀ y, y ∈ (getFaninCone c s a).2.insert a ↔ y ∈ (getFaninCone c s a).2 := by
        intro y
        rw [OrdSet.mem_insert, or_iff_right_of_imp]
        rintro rfl
        exact h'.listed y (by simp) hi
      refine ⟨h'.cone, fun n hn => h'.pi n ((hmem n).1 hn), fun n hn hni => ?_,
        fun n hn hni x hx => ?_⟩
      · exact (hmem n).2 (h'.listed n hn hni)
      · rw [hmem]
        exact h'.closed n hn hni x hx
    · exact h'
  · exact absurd hn (OrdSet.not_mem_empty n)
  · exact absurd hn (OrdSet.not_mem_empty n)
  · exact absurd hn List.not_mem_nil
  · exact absurd hn (not_or.2 ⟨OrdSet.not_mem_empty n, List.not_mem_nil⟩)

end

/-! ## The edges -/

section
variable (c : Circuit) (weight : NodeId → Int) (faninCone faninPi inputSet : NodeSet)

/-- The node has a buffer. -/
def Buffered (n : NodeId) : Prop :=
  n ∈ inputSet ∨ 1 < (validFanout c faninCone inputSet n).length

instance (n : NodeId) : Decidable (Buffered c faninCone inputSet n) :=
  inferInstanceAs (Decidable (_ ∨ _))

/-- The edges that `AddEdge` makes for the node. -/
def edgesOf (n : NodeId) : List Edge :=
  if Buffered c faninCone inputSet n then
    ⟨(c.node n).name, buffer c n, weight n⟩ ::
      ((if n ∈ inputSet then [⟨buffer c n, "sink_", weight n⟩] else []) ++
        (validFanout c faninCone inputSet n).map fun m => ⟨buffer c n, (c.node m).name, weight n⟩)
  else
    (validFanout c faninCone inputSet n).map fun m => ⟨(c.node n).name, (c.node m).name, weight n⟩

/-- The nodes that have a vertex. -/
def vertexNodes : List NodeId :=
  faninPi.elems ++ faninCone.elems ++
    inputSet.elems.filter fun n => !decide (n ∈ faninPi ∨ n ∈ faninCone)

/-- The edges that `GetMinCut` makes for the node. -/
def block (n : NodeId) : List Edge :=
  (if n ∈ faninPi then [⟨"src_", (c.node n).name, weight n⟩] else []) ++
    if n ∈ faninPi ∨ n ∈ faninCone then edgesOf c weight faninCone inputSet n
    else [⟨(c.node n).name, "sink_", weight n⟩]

theorem addFanouts_eq (g : Graph) (n : NodeId) (fanouts : List NodeId) :
    addFanouts c weight g n fanouts =
      { g with edges := g.edges ++
          fanouts.map fun m => ⟨buffer c n, (c.node m).name, weight n⟩ } := by
  induction fanouts generalizing g with
  | nil => rw [List.map_nil, List.append_nil]; rfl
  | cons m fanouts ih =>
    rw [addFanouts, List.foldl_cons, ← addFanouts, ih, Graph.addEdge_, List.map_cons,
      List.append_assoc, List.singleton_append]

theorem addEdge_eq (g : Graph) (n : NodeId) :
    addEdge c weight faninCone inputSet g n =
      { (if Buffered c faninCone inputSet n then g.addVertex (buffer c n) (some n) else g) with
        edges := g.edges ++ edgesOf c weight faninCone inputSet n } := by
  unfold addEdge edgesOf Buffered
  by_cases hn : n ∈ inputSet
  · simp only [hn, if_true, true_or, addFanouts_eq, addBuffer, Graph.addEdge_, Graph.addVertex,
      List.append_assoc]
    rfl
  · simp only [hn, if_false, false_or, List.nil_append]
    split
    · rename_i hf
      simp [hf]
    · rename_i m hf
      simp [hf, Graph.addEdge_]
    · rename_i hnil hone
      have hlen : 1 < (validFanout c faninCone inputSet n).length := by
        cases hf : validFanout c faninCone inputSet n with
        | nil => exact absurd hf hnil
        | cons m l =>
          cases l with
          | nil => exact absurd hf (hone m)
          | cons => simp
      simp only [hlen, if_true, addFanouts_eq, addBuffer, Graph.addEdge_, Graph.addVertex,
        List.append_assoc, List.singleton_append]

theorem foldl_edges {f : Graph → NodeId → Graph} {h : NodeId → List Edge}
    (hf : ∀ g n, (f g n).edges = g.edges ++ h n) (l : List NodeId) (g : Graph) :
    (l.foldl f g).edges = g.edges ++ l.flatMap h := by
  induction l generalizing g with
  | nil => rw [List.flatMap_nil, List.append_nil]; rfl
  | cons n l ih => rw [List.foldl_cons, ih, hf, List.flatMap_cons, List.append_assoc]

theorem makeVertices_edges : (makeVertices c faninCone faninPi inputSet).edges = [] := by
  have key : ∀ (l : List NodeId) (g : Graph), g.edges = [] →
      (l.foldl (fun g n => g.addVertex (c.node n).name (some n)) g).edges = [] := by
    intro l
    induction l with
    | nil => exact fun g hg => hg
    | cons n l ih => exact fun g hg => ih _ hg
  exact key _ _ (key _ _ (key _ _ rfl))

variable {faninPi}

/-- **The edges**, by the node they leave. -/
theorem makeGraph_edges (hdisj : ∀ n ∈ faninCone, n ∉ faninPi) :
    (makeGraph c weight faninCone faninPi inputSet).edges =
      (vertexNodes faninCone faninPi inputSet).flatMap
        (block c weight faninCone faninPi inputSet) := by
  have hpi : ∀ (g : Graph) (n : NodeId), (addEdge c weight faninCone inputSet
      (g.addEdge_ "src_" (c.node n).name (weight n)) n).edges =
      g.edges ++ ⟨"src_", (c.node n).name, weight n⟩ :: edgesOf c weight faninCone inputSet n := by
    intro g n
    rw [addEdge_eq, Graph.addEdge_, List.append_assoc, List.singleton_append]
  have hcone : ∀ (g : Graph) (n : NodeId), (addEdge c weight faninCone inputSet g n).edges =
      g.edges ++ edgesOf c weight faninCone inputSet n := fun g n => by rw [addEdge_eq]
  have hlast : ∀ (g : Graph) (n : NodeId), (if n ∈ faninPi ∨ n ∈ faninCone then g
      else g.addEdge_ (c.node n).name "sink_" (weight n)).edges = g.edges ++
        if n ∈ faninPi ∨ n ∈ faninCone then [] else [⟨(c.node n).name, "sink_", weight n⟩] := by
    intro g n
    split
    · exact (List.append_nil g.edges).symm
    · rfl
  rw [makeGraph, foldl_edges hlast, foldl_edges hcone, foldl_edges hpi, makeVertices_edges,
    List.nil_append, vertexNodes, List.flatMap_append, List.flatMap_append]
  congr 1
  · congr 1
    · refine List.flatMap_congr fun n hn => ?_
      have hn' : n ∈ faninPi := hn
      simp [block, hn']
    · refine List.flatMap_congr fun n hn => ?_
      have hn' : n ∈ faninCone := hn
      simp [block, hn', hdisj n hn']
  · induction inputSet.elems with
    | nil => rfl
    | cons n l ih =>
      rw [List.flatMap_cons, ih]
      by_cases hn : n ∈ faninPi ∨ n ∈ faninCone
      · rw [List.filter_cons_of_neg (by rw [decide_eq_true hn]; exact Bool.false_ne_true),
          if_pos hn, List.nil_append]
      · rw [List.filter_cons_of_pos (by simpa using hn), List.flatMap_cons, block, if_neg hn,
          if_neg hn, if_neg fun h => hn (.inl h)]
        rfl

/-! ## The vertices -/

variable (faninPi)

/-- The node has a vertex. -/
def Known (n : NodeId) : Prop := n ∈ faninPi ∨ n ∈ faninCone ∨ n ∈ inputSet

/-- The buffer of the node has a vertex. -/
def HasBuffer (n : NodeId) : Prop :=
  (n ∈ faninPi ∨ n ∈ faninCone) ∧ Buffered c faninCone inputSet n

/-- No two vertices have the same label. -/
structure Distinct : Prop where
  inj : ∀ a b, Known faninCone faninPi inputSet a → Known faninCone faninPi inputSet b →
    (c.node a).name = (c.node b).name → a = b
  src : ∀ a, Known faninCone faninPi inputSet a → (c.node a).name ≠ "src_"
  sink : ∀ a, Known faninCone faninPi inputSet a → (c.node a).name ≠ "sink_"
  buffer : ∀ a b, Known faninCone faninPi inputSet a → HasBuffer c faninCone faninPi inputSet b →
    (c.node a).name ≠ buffer c b

/-- The node of each vertex. -/
structure Labels (g : Graph) : Prop where
  name : ∀ n, Known faninCone faninPi inputSet n → (c.node n).name ∈ g.vertices →
    g.node (c.node n).name = some n
  buffer : ∀ n, HasBuffer c faninCone faninPi inputSet n → buffer c n ∈ g.vertices →
    g.node (buffer c n) = some n

variable {faninCone faninPi inputSet}

theorem mem_vertexNodes {n : NodeId} :
    n ∈ vertexNodes faninCone faninPi inputSet ↔ Known faninCone faninPi inputSet n := by
  have h1 : ∀ s : NodeSet, n ∈ s.elems ↔ n ∈ s := fun _ => Iff.rfl
  simp only [vertexNodes, Known, List.mem_append, List.mem_filter, h1, Bool.not_eq_true',
    decide_eq_false_iff_not]
  tauto

theorem vertexNodes_nodup (hdisj : ∀ n ∈ faninCone, n ∉ faninPi) :
    (vertexNodes faninCone faninPi inputSet).Nodup := by
  have h1 : (faninPi.elems ++ faninCone.elems).Nodup :=
    faninPi.nodup.append faninCone.nodup fun n hpi hcone => hdisj n hcone hpi
  refine h1.append (inputSet.nodup.filter _) fun n hn hmem => ?_
  obtain ⟨-, hnot⟩ := List.mem_filter.1 hmem
  simp only [Bool.not_eq_true', decide_eq_false_iff_not] at hnot
  exact hnot (List.mem_append.1 hn)

theorem mem_addVertex {g : Graph} {name v : String} {node : Option NodeId} :
    v ∈ (g.addVertex name node).vertices ↔ v ∈ g.vertices ∨ v = name := by
  unfold Graph.addVertex
  by_cases h : name ∈ g.vertices
  · rw [if_pos h, or_iff_left_of_imp]
    rintro rfl
    exact h
  · rw [if_neg h, List.mem_append, List.mem_singleton]

theorem mem_foldl_vertices {f : Graph → NodeId → Graph} {p : NodeId → String → Prop}
    (hf : ∀ g n v, v ∈ (f g n).vertices ↔ v ∈ g.vertices ∨ p n v) (l : List NodeId) (g : Graph)
    (v : String) : v ∈ (l.foldl f g).vertices ↔ v ∈ g.vertices ∨ ∃ n ∈ l, p n v := by
  induction l generalizing g with
  | nil => simp
  | cons n l ih =>
    rw [List.foldl_cons, ih, hf]
    simp [or_assoc]

variable {c weight}

theorem HasBuffer.known {n : NodeId} (hn : HasBuffer c faninCone faninPi inputSet n) :
    Known faninCone faninPi inputSet n := by
  rcases hn.1 with hn | hn
  · exact .inl hn
  · exact .inr (.inl hn)

theorem mem_addEdge {g : Graph} {n : NodeId} {v : String} :
    v ∈ (addEdge c weight faninCone inputSet g n).vertices ↔
      v ∈ g.vertices ∨ Buffered c faninCone inputSet n ∧ v = buffer c n := by
  rw [addEdge_eq]
  by_cases hn : Buffered c faninCone inputSet n
  · simp only [hn, if_true, true_and]
    exact mem_addVertex
  · simp [hn]

/-- **The vertices.** -/
theorem mem_vertices {v : String} :
    v ∈ (makeGraph c weight faninCone faninPi inputSet).vertices ↔
      v = "src_" ∨ v = "sink_" ∨
      (∃ n, Known faninCone faninPi inputSet n ∧ v = (c.node n).name) ∨
      ∃ n, HasBuffer c faninCone faninPi inputSet n ∧ v = buffer c n := by
  have hlast : ∀ (g : Graph) (n : NodeId) (v : String), v ∈ (if n ∈ faninPi ∨ n ∈ faninCone then g
      else g.addEdge_ (c.node n).name "sink_" (weight n)).vertices ↔ v ∈ g.vertices ∨ False := by
    intro g n v
    rw [or_false]
    split <;> rfl
  have hcone : ∀ (g : Graph) (n : NodeId) (v : String), _ ↔ _ := fun g n v =>
    @mem_addEdge c weight faninCone inputSet g n v
  have hpi : ∀ (g : Graph) (n : NodeId) (v : String), _ ↔ _ := fun g n v =>
    @mem_addEdge c weight faninCone inputSet (g.addEdge_ "src_" (c.node n).name (weight n)) n v
  have hnode : ∀ (g : Graph) (n : NodeId) (v : String), _ ↔ _ := fun g n v =>
    @mem_addVertex g (c.node n).name v (some n)
  rw [makeGraph, mem_foldl_vertices hlast, mem_foldl_vertices hcone, mem_foldl_vertices hpi,
    makeVertices, mem_foldl_vertices hnode, mem_foldl_vertices hnode, mem_foldl_vertices hnode,
    mem_addVertex, mem_addVertex]
  have h1 : ∀ (s : NodeSet) (n : NodeId), n ∈ s.elems ↔ n ∈ s := fun _ _ => Iff.rfl
  simp only [h1, Known, HasBuffer, or_and_right, and_assoc, exists_or, List.not_mem_nil, false_or,
    and_false, exists_false, or_false, or_assoc]

theorem buffer_ne {n : NodeId} {s : String} (hs : s.toList.getLast? ≠ some 'f') :
    buffer c n ≠ s := by
  rintro rfl
  apply hs
  rw [buffer, String.toList_append, List.getLast?_append]
  rfl

theorem buffer_inj {a b : NodeId} (h : buffer c a = buffer c b) :
    (c.node a).name = (c.node b).name := by
  have h' := congrArg String.toList h
  rw [buffer, buffer, String.toList_append, String.toList_append] at h'
  exact String.toList_inj.1 (List.append_cancel_right h')

theorem buffer_ne_name (n : NodeId) : buffer c n ≠ (c.node n).name := by
  intro h
  have hlen := congrArg String.length h
  rw [buffer, String.length_append] at hlen
  have hbuf : "_buf".length = 4 := by decide
  omega

theorem Labels.addVertex {g : Graph} (h : Labels c faninCone faninPi inputSet g) {v : String}
    {node : Option NodeId}
    (hname : ∀ n, Known faninCone faninPi inputSet n → (c.node n).name = v → node = some n)
    (hbuffer : ∀ n, HasBuffer c faninCone faninPi inputSet n → Mincut.buffer c n = v →
      node = some n) : Labels c faninCone faninPi inputSet (g.addVertex v node) := by
  have hkeep : ∀ {n u}, u ∈ (g.addVertex v node).vertices → (u = v → node = some n) →
      (u ∈ g.vertices → g.node u = some n) → (g.addVertex v node).node u = some n := by
    intro n u hu hv hg
    show Function.update g.node v node u = some n
    by_cases huv : u = v
    · rw [huv, Function.update_self]
      exact hv huv
    · rw [Function.update_of_ne huv]
      exact hg ((mem_addVertex.1 hu).resolve_right huv)
  exact ⟨fun n hn hu => hkeep hu (hname n hn) (h.name n hn),
    fun n hn hu => hkeep hu (hbuffer n hn) (h.buffer n hn)⟩

theorem foldl_labels {f : Graph → NodeId → Graph} {l : List NodeId}
    (hf : ∀ g, ∀ n ∈ l, Labels c faninCone faninPi inputSet g →
      Labels c faninCone faninPi inputSet (f g n)) {g : Graph}
    (hg : Labels c faninCone faninPi inputSet g) :
    Labels c faninCone faninPi inputSet (l.foldl f g) := by
  induction l generalizing g with
  | nil => exact hg
  | cons n l ih => exact ih (fun g m hm => hf g m (by simp [hm])) (hf g n (by simp) hg)

/-- **The nodes of the vertices.** -/
theorem makeGraph_label (hd : Distinct c faninCone faninPi inputSet) :
    Labels c faninCone faninPi inputSet (makeGraph c weight faninCone faninPi inputSet) := by
  have hnode : ∀ g n, Known faninCone faninPi inputSet n →
      Labels c faninCone faninPi inputSet g →
      Labels c faninCone faninPi inputSet (g.addVertex (c.node n).name (some n)) :=
    fun g n hn h => h.addVertex (fun m hm he => by rw [hd.inj m n hm hn he])
      fun m hm he => absurd he.symm (hd.buffer n m hn hm)
  have hedge : ∀ g n, n ∈ faninPi ∨ n ∈ faninCone → Labels c faninCone faninPi inputSet g →
      Labels c faninCone faninPi inputSet (addEdge c weight faninCone inputSet g n) := by
    intro g n hn h
    rw [addEdge_eq]
    have h' : Labels c faninCone faninPi inputSet
        (if Buffered c faninCone inputSet n then g.addVertex (buffer c n) (some n) else g) := by
      split
      · rename_i hb
        have hn' : HasBuffer c faninCone faninPi inputSet n := ⟨hn, hb⟩
        exact h.addVertex (fun m hm he => absurd he (hd.buffer m n hm hn'))
          fun m hm he => by rw [hd.inj m n hm.known hn'.known (buffer_inj he)]
      · exact h
    exact ⟨h'.name, h'.buffer⟩
  have hempty : Labels c faninCone faninPi inputSet {} :=
    ⟨fun _ _ h => absurd h List.not_mem_nil, fun _ _ h => absurd h List.not_mem_nil⟩
  have hsrc : Labels c faninCone faninPi inputSet (({ : Graph}).addVertex "src_" none) :=
    hempty.addVertex (fun n hn he => absurd he (hd.src n hn))
      fun n _ he => absurd he (buffer_ne (by decide))
  have hsink : Labels c faninCone faninPi inputSet
      ((({ : Graph}).addVertex "src_" none).addVertex "sink_" none) :=
    hsrc.addVertex (fun n hn he => absurd he (hd.sink n hn))
      fun n _ he => absurd he (buffer_ne (by decide))
  have hvertices : Labels c faninCone faninPi inputSet
      (makeVertices c faninCone faninPi inputSet) :=
    foldl_labels (fun g n hn => hnode g n (.inr (.inr hn)))
      (foldl_labels (fun g n hn => hnode g n (.inr (.inl hn)))
        (foldl_labels (fun g n hn => hnode g n (.inl hn)) hsink))
  have hpi : Labels c faninCone faninPi inputSet (faninPi.elems.foldl (fun g n =>
      addEdge c weight faninCone inputSet (g.addEdge_ "src_" (c.node n).name (weight n)) n)
      (makeVertices c faninCone faninPi inputSet)) :=
    foldl_labels (fun g n hn h => hedge (g.addEdge_ "src_" (c.node n).name (weight n)) n (.inl hn)
      ⟨h.name, h.buffer⟩) hvertices
  refine foldl_labels (fun g n _ h => ?_)
    (foldl_labels (fun g n hn => hedge g n (.inr hn)) hpi)
  split
  · exact h
  · exact ⟨h.name, h.buffer⟩

end

end Msyn.Mincut
