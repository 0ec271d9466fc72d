import Msyn.Mincut.Graph

/-!
# The search for the cut

`SearchForMinCut` starts at the primary inputs, which get the colour of `src`, and follows edges of
positive capacity to vertices of the same colour. A vertex with such an edge to another colour puts
its node in `optimized`.

* `Arc`: the edges, by what they model.
* `visited_cases`: the vertices that the search visits.
* `searchForMinCut_spec`: the search ends, and puts in `optimized` the nodes of its border, each of
  them once.
-/

namespace Msyn.Mincut

open Nodecircuit Relation

/-- The edges that are made for the node `n`. -/
inductive Arc (c : Circuit) (weight : NodeId → Int) (faninCone faninPi inputSet : NodeSet)
    (n : NodeId) : Edge → Prop
  | source : n ∈ faninPi →
      Arc c weight faninCone faninPi inputSet n ⟨"src_", (c.node n).name, weight n⟩
  | split : n ∈ faninPi ∨ n ∈ faninCone → Buffered c faninCone inputSet n →
      Arc c weight faninCone faninPi inputSet n ⟨(c.node n).name, buffer c n, weight n⟩
  | out : n ∈ faninPi ∨ n ∈ faninCone → n ∈ inputSet →
      Arc c weight faninCone faninPi inputSet n ⟨buffer c n, "sink_", weight n⟩
  | fan {m : NodeId} : n ∈ faninPi ∨ n ∈ faninCone → Buffered c faninCone inputSet n →
      m ∈ validFanout c faninCone inputSet n →
      Arc c weight faninCone faninPi inputSet n ⟨buffer c n, (c.node m).name, weight n⟩
  | exit {m : NodeId} : n ∈ faninPi ∨ n ∈ faninCone → ¬Buffered c faninCone inputSet n →
      m ∈ validFanout c faninCone inputSet n →
      Arc c weight faninCone faninPi inputSet n ⟨(c.node n).name, (c.node m).name, weight n⟩
  | last : n ∈ inputSet → ¬(n ∈ faninPi ∨ n ∈ faninCone) →
      Arc c weight faninCone faninPi inputSet n ⟨(c.node n).name, "sink_", weight n⟩

/-- The circuit, the cones of its listed nodes, and the weights. -/
structure Setting (c : Circuit) (weight : NodeId → Int) (faninCone faninPi inputSet : NodeSet) :
    Prop where
  mirror : c.Mirror
  distinct : Distinct c faninCone faninPi inputSet
  mem : ∀ n, Known faninCone faninPi inputSet n → n ∈ c.allNodes
  pi : ∀ n, Known faninCone faninPi inputSet n → ((c.node n).isInput = true ↔ n ∈ faninPi)
  cone : ∀ n ∈ faninCone, (c.node n).isInput = false
  closed : ∀ x n, Known faninCone faninPi inputSet n → ¬(c.node n).isInput = true → c.Fanin x n →
    Known faninCone faninPi inputSet x
  nonneg : ∀ n ∈ c.allNodes, 0 ≤ weight n

section
variable {c : Circuit} {weight : NodeId → Int} {faninCone faninPi inputSet : NodeSet}

theorem mem_validFanout {n m : NodeId} : m ∈ validFanout c faninCone inputSet n ↔
    m ∈ (c.node n).outputs ∧ (m ∈ faninCone ∨ m ∈ inputSet) := by
  rw [validFanout, List.mem_filter, decide_eq_true_eq]

theorem known_fanout {n m : NodeId} (h : m ∈ validFanout c faninCone inputSet n) :
    Known faninCone faninPi inputSet m := .inr (mem_validFanout.1 h).2

theorem mem_edgesOf {n : NodeId} {e : Edge} (hn : n ∈ faninPi ∨ n ∈ faninCone) :
    e ∈ edgesOf c weight faninCone inputSet n →
      Arc c weight faninCone faninPi inputSet n e := by
  unfold edgesOf
  split
  · rename_i hb
    intro he
    rcases List.mem_cons.1 he with rfl | he
    · exact .split hn hb
    rcases List.mem_append.1 he with he | he
    · split at he
      · rename_i hin
        rw [List.mem_singleton.1 he]
        exact .out hn hin
      · cases he
    · obtain ⟨m, hm, rfl⟩ := List.mem_map.1 he
      exact .fan hn hb hm
  · rename_i hb
    intro he
    obtain ⟨m, hm, rfl⟩ := List.mem_map.1 he
    exact .exit hn hb hm

theorem mem_block {n : NodeId} (hn : Known faninCone faninPi inputSet n) {e : Edge} :
    e ∈ block c weight faninCone faninPi inputSet n ↔
      Arc c weight faninCone faninPi inputSet n e := by
  constructor
  · intro he
    rcases List.mem_append.1 he with he | he
    · split at he
      · rename_i hpi
        rw [List.mem_singleton.1 he]
        exact .source hpi
      · cases he
    · split at he
      · rename_i hc
        exact mem_edgesOf hc he
      · rename_i hc
        rw [List.mem_singleton.1 he]
        refine .last ?_ hc
        unfold Known at hn
        tauto
  · intro he
    apply List.mem_append.2
    cases he with
    | source hpi => exact .inl (by rw [if_pos hpi]; exact List.mem_singleton.2 rfl)
    | split hc hb =>
      rw [if_pos hc, edgesOf, if_pos hb]
      exact .inr List.mem_cons_self
    | out hc hin =>
      have hb : Buffered c faninCone inputSet n := .inl hin
      rw [if_pos hc, edgesOf, if_pos hb, if_pos hin]
      exact .inr (List.mem_cons_of_mem _ (List.mem_append_left _ (List.mem_singleton.2 rfl)))
    | fan hc hb hm =>
      rw [if_pos hc, edgesOf, if_pos hb]
      exact .inr (List.mem_cons_of_mem _
        (List.mem_append_right _ (List.mem_map_of_mem hm)))
    | exit hc hb hm =>
      rw [if_pos hc, edgesOf, if_neg hb]
      exact .inr (List.mem_map_of_mem hm)
    | last _ hc =>
      rw [if_neg hc]
      exact .inr (List.mem_singleton.2 rfl)

theorem Arc.capacity {n : NodeId} {e : Edge} (h : Arc c weight faninCone faninPi inputSet n e) :
    e.capacity = weight n := by
  cases h <;> rfl

theorem Arc.known {n : NodeId} {e : Edge} (h : Arc c weight faninCone faninPi inputSet n e) :
    Known faninCone faninPi inputSet n := by
  unfold Known
  cases h <;> tauto

theorem buffer_src (n : NodeId) : buffer c n ≠ "src_" := buffer_ne (by decide)

theorem buffer_sink (n : NodeId) : buffer c n ≠ "sink_" := buffer_ne (by decide)

/-- `v` is the vertex of the node or its buffer. -/
def VertexOf (c : Circuit) (faninCone faninPi inputSet : NodeSet) (n : NodeId) (v : String) :
    Prop :=
  Known faninCone faninPi inputSet n ∧ v = (c.node n).name ∨
    HasBuffer c faninCone faninPi inputSet n ∧ v = buffer c n

theorem VertexOf.known {n : NodeId} {v : String}
    (hv : VertexOf c faninCone faninPi inputSet n v) : Known faninCone faninPi inputSet n := by
  rcases hv with hv | hv
  · exact hv.1
  · exact hv.1.known

/-- Of one node only. -/
theorem VertexOf.unique {n m : NodeId} {v : String}
    (hn : VertexOf c faninCone faninPi inputSet n v) (hd : Distinct c faninCone faninPi inputSet)
    (hm : VertexOf c faninCone faninPi inputSet m v) : n = m := by
  rcases hn with ⟨hn, rfl⟩ | ⟨hn, rfl⟩ <;> rcases hm with ⟨hm, he⟩ | ⟨hm, he⟩
  · exact hd.inj n m hn hm he
  · exact absurd he (hd.buffer n m hn hm)
  · exact absurd he.symm (hd.buffer m n hm hn)
  · exact hd.inj n m hn.known hm.known (buffer_inj he)

/-- All edges but those of `src` leave a vertex of their node. -/
theorem Arc.vertexOf {n : NodeId} {e : Edge} (h : Arc c weight faninCone faninPi inputSet n e) :
    e.v1 = "src_" ∨ VertexOf c faninCone faninPi inputSet n e.v1 := by
  have hk := h.known
  cases h with
  | source _ => exact .inl rfl
  | split _ _ => exact .inr (.inl ⟨hk, rfl⟩)
  | out hc hin => exact .inr (.inr ⟨⟨hc, .inl hin⟩, rfl⟩)
  | fan hc hb _ => exact .inr (.inr ⟨⟨hc, hb⟩, rfl⟩)
  | exit _ _ _ => exact .inr (.inl ⟨hk, rfl⟩)
  | last _ _ => exact .inr (.inl ⟨hk, rfl⟩)

namespace Setting

variable (h : Setting c weight faninCone faninPi inputSet)
include h

theorem disjoint : ∀ n ∈ faninCone, n ∉ faninPi := by
  intro n hn hpi
  have hi := (h.pi n (.inl hpi)).2 hpi
  rw [h.cone n hn] at hi
  cases hi

theorem mem_edges {e : Edge} : e ∈ (makeGraph c weight faninCone faninPi inputSet).edges ↔
    ∃ n, Arc c weight faninCone faninPi inputSet n e := by
  rw [makeGraph_edges c weight faninCone inputSet h.disjoint, List.mem_flatMap]
  constructor
  · intro he
    obtain ⟨n, hn, he⟩ := he
    exact ⟨n, (mem_block (mem_vertexNodes.1 hn)).1 he⟩
  · intro he
    obtain ⟨n, he⟩ := he
    exact ⟨n, mem_vertexNodes.2 he.known, (mem_block he.known).2 he⟩

/-- The edges out of the vertices of a node are made for it. -/
theorem arc_of_vertex {e : Edge}
    (he : e ∈ (makeGraph c weight faninCone faninPi inputSet).edges) {n : NodeId}
    (hn : VertexOf c faninCone faninPi inputSet n e.v1) :
    Arc c weight faninCone faninPi inputSet n e := by
  obtain ⟨m, harc⟩ := h.mem_edges.1 he
  rcases harc.vertexOf with hsrc | hm
  · rcases hn with ⟨hn, hv⟩ | ⟨-, hv⟩
    · exact absurd (hv.symm.trans hsrc) (h.distinct.src n hn)
    · exact absurd (hv.symm.trans hsrc) (buffer_src n)
  · rw [hn.unique h.distinct hm]
    exact harc

theorem mem_heads {e : Edge} (he : e ∈ (makeGraph c weight faninCone faninPi inputSet).edges) :
    e.v2 ∈ (makeGraph c weight faninCone faninPi inputSet).vertices := by
  obtain ⟨n, he⟩ := h.mem_edges.1 he
  rw [mem_vertices]
  cases he with
  | source hpi => exact .inr (.inr (.inl ⟨n, .inl hpi, rfl⟩))
  | split hc hb => exact .inr (.inr (.inr ⟨n, ⟨hc, hb⟩, rfl⟩))
  | out hc hin => exact .inr (.inl rfl)
  | fan hc hb hf => exact .inr (.inr (.inl ⟨_, known_fanout hf, rfl⟩))
  | exit hc hb hf => exact .inr (.inr (.inl ⟨_, known_fanout hf, rfl⟩))
  | last hin hc => exact .inr (.inl rfl)

/-- A fanout in the cones that is not a primary input is valid. -/
theorem mem_validFanout {x n : NodeId} (hx : Known faninCone faninPi inputSet x)
    (hn : Known faninCone faninPi inputSet n) (hi : ¬(c.node n).isInput = true)
    (hxn : c.Fanin x n) : n ∈ validFanout c faninCone inputSet x := by
  rw [Mincut.mem_validFanout]
  exact ⟨(h.mirror.mem_iff (h.mem x hx) (h.mem n hn)).1 hxn.2,
    hn.resolve_left fun hpi => hi ((h.pi n hn).2 hpi)⟩

end Setting

/-! ## One round of the search -/

section
variable {g : Graph} {color : String → DefaultColor} {u v : String}

theorem mem_outEdges_pos {e : String × Int} (hpos : 0 < e.2) :
    e ∈ g.outEdges v ↔ ∃ a ∈ g.edges, a.v1 = v ∧ e = (a.v2, a.capacity) := by
  rw [Graph.outEdges, List.mem_flatMap]
  refine exists_congr fun a => and_congr_right fun _ => ?_
  have hreverse : e ∉ (if a.v2 = v then [(a.v1, (0 : Int))] else []) := by
    split
    · intro he
      rw [List.mem_singleton.1 he] at hpos
      exact lt_irrefl _ hpos
    · exact List.not_mem_nil
  rw [List.mem_append, or_iff_left hreverse]
  split
  · rename_i hv
    rw [List.mem_singleton, and_iff_right hv]
  · rename_i hv
    simp [hv]

theorem mem_searchNext : u ∈ searchNext color g v ↔
    ∃ a ∈ g.edges, a.v1 = v ∧ 0 < a.capacity ∧ a.v2 = u ∧ color u = color v := by
  simp only [searchNext, List.mem_map, List.mem_filter, decide_eq_true_eq]
  constructor
  · intro h
    obtain ⟨e, ⟨he, hpos, hc⟩, rfl⟩ := h
    obtain ⟨a, ha, hv, rfl⟩ := (mem_outEdges_pos hpos).1 he
    exact ⟨a, ha, hv, hpos, rfl, hc⟩
  · intro h
    obtain ⟨a, ha, hv, hpos, rfl, hc⟩ := h
    exact ⟨(a.v2, a.capacity), ⟨(mem_outEdges_pos hpos).2 ⟨a, ha, hv, rfl⟩, hpos, hc⟩, rfl⟩

/-- `v` has an edge of positive capacity to a vertex of another colour. -/
def Border (color : String → DefaultColor) (g : Graph) (v : String) : Prop :=
  ∃ a ∈ g.edges, a.v1 = v ∧ 0 < a.capacity ∧ color a.v2 ≠ color v

theorem searchEmit_eq [Decidable (Border color g v)] :
    searchEmit color g v = if Border color g v then [g.node v] else [] := by
  refine if_congr ?_ rfl rfl
  simp only [List.any_eq_true, decide_eq_true_eq]
  constructor
  · intro h
    obtain ⟨e, he, hpos, hc⟩ := h
    obtain ⟨a, ha, hv, rfl⟩ := (mem_outEdges_pos hpos).1 he
    exact ⟨a, ha, hv, hpos, hc⟩
  · intro h
    obtain ⟨a, ha, hv, hpos, hc⟩ := h
    exact ⟨(a.v2, a.capacity), (mem_outEdges_pos hpos).2 ⟨a, ha, hv, rfl⟩, hpos, hc⟩

end

/-! ## The whole search -/

open Classical in
theorem flatMap_searchEmit (color : String → DefaultColor) (g : Graph) (order : List String) :
    order.flatMap (searchEmit color g) =
      (order.filter fun v => decide (Border color g v)).map g.node := by
  induction order with
  | nil => rfl
  | cons v order ih =>
    rw [List.flatMap_cons, ih, searchEmit_eq]
    by_cases hv : Border color g v
    · rw [if_pos hv, List.filter_cons_of_pos (by simpa using hv)]
      rfl
    · rw [if_neg hv, List.filter_cons_of_neg (by simpa using hv)]
      rfl

/-- The labels of the primary inputs. -/
def startOf (c : Circuit) (faninPi : NodeSet) : List String :=
  faninPi.elems.map fun n => (c.node n).name

/-- The search visits `v`. -/
def Visited (start : List String) (color : String → DefaultColor) (g : Graph) (v : String) : Prop :=
  ∃ a ∈ start, ReflTransGen (fun u w => w ∈ searchNext color g u) a v

/-- The colours once those of the primary inputs are set. -/
structure Coloured (c : Circuit) (faninPi : NodeSet) (color : String → DefaultColor) : Prop where
  pi : ∀ n ∈ faninPi, color (c.node n).name = color "src_"
  sink : color "sink_" ≠ color "src_"

namespace Setting

variable (h : Setting c weight faninCone faninPi inputSet) {color : String → DefaultColor}
  (hc : Coloured c faninPi color)

include hc in
theorem visited_color {v : String}
    (hv : Visited (startOf c faninPi) color (makeGraph c weight faninCone faninPi inputSet) v) :
    color v = color "src_" := by
  obtain ⟨a, ha, hr⟩ := hv
  induction hr with
  | refl =>
    obtain ⟨n, hn, rfl⟩ := List.mem_map.1 ha
    exact hc.pi n hn
  | tail _ huw ih =>
    obtain ⟨e, -, -, -, -, he⟩ := mem_searchNext.1 huw
    exact he.trans ih

include h hc

/-- **A vertex that is visited** is that of a node, or the buffer of one that is visited. -/
theorem visited_cases {v : String}
    (hv : Visited (startOf c faninPi) color (makeGraph c weight faninCone faninPi inputSet) v) :
    (∃ n, Known faninCone faninPi inputSet n ∧ v = (c.node n).name) ∨
      ∃ n, HasBuffer c faninCone faninPi inputSet n ∧ v = buffer c n ∧
        Visited (startOf c faninPi) color (makeGraph c weight faninCone faninPi inputSet)
          (c.node n).name := by
  obtain ⟨a, ha, hr⟩ := hv
  induction hr with
  | refl =>
    obtain ⟨n, hn, rfl⟩ := List.mem_map.1 ha
    exact .inl ⟨n, .inl hn, rfl⟩
  | @tail u w hr huw ih =>
    have hu : Visited (startOf c faninPi) color (makeGraph c weight faninCone faninPi inputSet) u :=
      ⟨a, ha, hr⟩
    have hw : color w = color "src_" := visited_color hc ⟨a, ha, hr.tail huw⟩
    obtain ⟨e, he, rfl, -, rfl, -⟩ := mem_searchNext.1 huw
    obtain ⟨n, harc⟩ := h.mem_edges.1 he
    cases harc with
    | source hpi =>
      rcases ih with ⟨n, hn, hv⟩ | ⟨n, -, hv, -⟩
      · exact absurd hv.symm (h.distinct.src n hn)
      · exact absurd hv.symm (buffer_src n)
    | split hcone hb => exact .inr ⟨n, ⟨hcone, hb⟩, rfl, hu⟩
    | out _ _ => exact absurd hw hc.sink
    | fan _ _ hf => exact .inl ⟨_, known_fanout hf, rfl⟩
    | exit _ _ hf => exact .inl ⟨_, known_fanout hf, rfl⟩
    | last _ _ => exact absurd hw hc.sink

theorem visited_mem {v : String}
    (hv : Visited (startOf c faninPi) color (makeGraph c weight faninCone faninPi inputSet) v) :
    v ∈ (makeGraph c weight faninCone faninPi inputSet).vertices := by
  rw [mem_vertices]
  rcases h.visited_cases hc hv with hv | ⟨n, hn, hv, -⟩
  · exact .inr (.inr (.inl hv))
  · exact .inr (.inr (.inr ⟨n, hn, hv⟩))

/-- It is the vertex of a node. -/
theorem visited_node {v : String}
    (hv : Visited (startOf c faninPi) color (makeGraph c weight faninCone faninPi inputSet) v) :
    ∃ n, VertexOf c faninCone faninPi inputSet n v ∧
      (makeGraph c weight faninCone faninPi inputSet).node v = some n := by
  have hlabel : Labels c faninCone faninPi inputSet
      (makeGraph c weight faninCone faninPi inputSet) := makeGraph_label h.distinct
  have hmem := h.visited_mem hc hv
  rcases h.visited_cases hc hv with ⟨n, hn, rfl⟩ | ⟨n, hn, rfl, -⟩
  · exact ⟨n, .inl ⟨hn, rfl⟩, hlabel.name n hn hmem⟩
  · exact ⟨n, .inr ⟨hn, rfl⟩, hlabel.buffer n hn hmem⟩

/-- A node and its buffer are not both at the border. -/
theorem border_name {n : NodeId} (hn : HasBuffer c faninCone faninPi inputSet n)
    (hv : Visited (startOf c faninPi) color (makeGraph c weight faninCone faninPi inputSet)
      (buffer c n)) :
    ¬Border color (makeGraph c weight faninCone faninPi inputSet) (c.node n).name := by
  intro hborder
  obtain ⟨m, hm, hbuf, hname⟩ : ∃ m, HasBuffer c faninCone faninPi inputSet m ∧
      buffer c n = buffer c m ∧ Visited (startOf c faninPi) color
        (makeGraph c weight faninCone faninPi inputSet) (c.node m).name := by
    rcases h.visited_cases hc hv with ⟨m, hm, hname⟩ | hm
    · exact absurd hname.symm (h.distinct.buffer m n hm hn)
    · exact hm
  obtain rfl := h.distinct.inj n m hn.known hm.known (buffer_inj hbuf)
  obtain ⟨e, he, hv1, -, hne⟩ := hborder
  have harc := h.arc_of_vertex he (.inl ⟨hn.known, hv1⟩)
  cases harc with
  | source _ => exact h.distinct.src n hn.known hv1.symm
  | split _ _ => exact hne ((visited_color hc hv).trans (visited_color hc hname).symm)
  | out _ _ => exact buffer_ne_name n hv1
  | fan _ _ _ => exact buffer_ne_name n hv1
  | exit _ hnot _ => exact hnot hn.2
  | last _ hnot => exact hnot hn.1

/-- So the vertices at the border have different nodes. -/
theorem border_inj {u v : String}
    (hu : Visited (startOf c faninPi) color (makeGraph c weight faninCone faninPi inputSet) u)
    (hv : Visited (startOf c faninPi) color (makeGraph c weight faninCone faninPi inputSet) v)
    (hub : Border color (makeGraph c weight faninCone faninPi inputSet) u)
    (hvb : Border color (makeGraph c weight faninCone faninPi inputSet) v)
    (he : (makeGraph c weight faninCone faninPi inputSet).node u =
      (makeGraph c weight faninCone faninPi inputSet).node v) : u = v := by
  obtain ⟨n, hun, hnu⟩ := h.visited_node hc hu
  obtain ⟨m, hvm, hmv⟩ := h.visited_node hc hv
  obtain rfl : n = m := Option.some.inj ((hnu.symm.trans he).trans hmv)
  rcases hun with ⟨-, rfl⟩ | ⟨hn, rfl⟩ <;> rcases hvm with ⟨-, rfl⟩ | ⟨hm, rfl⟩
  · rfl
  · exact absurd hub (h.border_name hc hm hv)
  · exact absurd hvb (h.border_name hc hn hu)
  · rfl

/-- **The search** ends. It puts in `optimized` the nodes of the vertices at its border, each of
them once. -/
theorem searchForMinCut_spec : ∃ optimized : List NodeId,
    searchForMinCut (startOf c faninPi) color (makeGraph c weight faninCone faninPi inputSet) =
      some (optimized.map some) ∧ optimized.Nodup ∧
    ∀ n, n ∈ optimized ↔ ∃ v,
      Visited (startOf c faninPi) color (makeGraph c weight faninCone faninPi inputSet) v ∧
      Border color (makeGraph c weight faninCone faninPi inputSet) v ∧
      VertexOf c faninCone faninPi inputSet n v := by
  classical
  set g := makeGraph c weight faninCone faninPi inputSet with hg
  have hstart : ∀ v ∈ startOf c faninPi, v ∈ g.vertices := by
    intro v hv
    obtain ⟨n, hn, rfl⟩ := List.mem_map.1 hv
    exact mem_vertices.2 (.inr (.inr (.inl ⟨n, .inl hn, rfl⟩)))
  have hnd : (startOf c faninPi).Nodup :=
    List.Nodup.map_on (fun a ha b hb he => h.distinct.inj a b (.inl ha) (.inl hb) he) faninPi.nodup
  have hnext : ∀ v ∈ g.vertices, ∀ w ∈ searchNext color g v, w ∈ g.vertices := by
    intro v _ w hw
    obtain ⟨e, he, -, -, rfl, -⟩ := mem_searchNext.1 hw
    exact h.mem_heads he
  obtain ⟨order, hrun, hndo, hmem⟩ : ∃ order : List String,
      searchForMinCut (startOf c faninPi) color g = some (order.flatMap (searchEmit color g)) ∧
      order.Nodup ∧ ∀ v, v ∈ order ↔ Visited (startOf c faninPi) color g v :=
    QueueSearch.search_spec hnext hstart hnd (Nat.lt_succ_self _)
  have hnode : ∀ v ∈ order, ∃ n, VertexOf c faninCone faninPi inputSet n v ∧ g.node v = some n :=
    fun v hv => h.visited_node hc ((hmem v).1 hv)
  set border := order.filter fun v => decide (Border color g v) with hborder
  have hmemb : ∀ v, v ∈ border ↔ v ∈ order ∧ Border color g v := fun v => by
    rw [hborder, List.mem_filter, decide_eq_true_eq]
  have hout : order.flatMap (searchEmit color g) = border.map g.node :=
    flatMap_searchEmit color g order
  have hsome : (border.filterMap g.node).map some = border.map g.node := by
    rw [List.map_filterMap_some_eq_filter_map_isSome, List.filter_eq_self]
    intro x hx
    obtain ⟨v, hv, rfl⟩ := List.mem_map.1 hx
    obtain ⟨n, -, hn⟩ := hnode v ((hmemb v).1 hv).1
    rw [hn]
    rfl
  have hinj : ∀ u ∈ border, ∀ v ∈ border, g.node u = g.node v → u = v := by
    intro u hu v hv he
    obtain ⟨hu, hub⟩ := (hmemb u).1 hu
    obtain ⟨hv, hvb⟩ := (hmemb v).1 hv
    exact h.border_inj hc ((hmem u).1 hu) ((hmem v).1 hv) hub hvb he
  refine ⟨border.filterMap g.node, ?_, ?_, fun n => ?_⟩
  · rw [hsome, ← hout]
    exact hrun
  · apply List.Nodup.of_map some
    rw [hsome]
    exact List.Nodup.map_on hinj (hndo.filter _)
  · rw [List.mem_filterMap]
    constructor
    · intro hn
      obtain ⟨v, hv, hvn⟩ := hn
      obtain ⟨hvo, hvb⟩ := (hmemb v).1 hv
      obtain ⟨m, hvm, hmv⟩ := hnode v hvo
      obtain rfl : n = m := Option.some.inj (hvn.symm.trans hmv)
      exact ⟨v, (hmem v).1 hvo, hvb, hvm⟩
    · intro hn
      obtain ⟨v, hv, hvb, hvn⟩ := hn
      refine ⟨v, (hmemb v).2 ⟨(hmem v).2 hv, hvb⟩, ?_⟩
      obtain ⟨m, hvm, hmv⟩ := h.visited_node hc hv
      rw [hvn.unique h.distinct hvm]
      exact hmv

end Setting

end

end Msyn.Mincut
