import Msyn.Lib.NodeCut
import Msyn.Mincut.Capacity

/-!
# The minimum cut

`GetMinCut` on a circuit and a maximum flow of its network.

* `cutCap_inside_le`: nodes that cut the paths of positive weight give a cut of the network that is
  no greater.
* `optimized_nearest`: what the search puts in `optimized` is the nearest of the least ones.
* `getMinCut_minimum_iff`: it is a minimum cut of all paths if and only if every path from a primary
  input to a listed node has a stop, and the weight is an `int`. A node of weight 0 is no stop, and
  its edges are not followed.
* `getMinCut_positive`: so it is one where all weights are positive.
-/

namespace Msyn.Mincut

open Nodecircuit Relation NodeCut

/-- A primary input. -/
def IsPi (c : Circuit) (n : NodeId) : Prop := (c.node n).isInput = true

/-- The source side of the cut of the network for the cut `Y` of the circuit: the vertices in front
of the nodes that an open node or `src` leads to, and the buffers of the open nodes. -/
def Inside (c : Circuit) (weight : NodeId → Int) (faninCone faninPi inputSet : NodeSet)
    (Y : Finset NodeId) (v : String) : Prop :=
  v = "src_" ∨
    (∃ n, Known faninCone faninPi inputSet n ∧ v = (c.node n).name ∧
      (IsPi c n ∨ ∃ x, c.Fanin x n ∧ Open c.Fanin (IsPi c) weight Y x)) ∨
    ∃ n, HasBuffer c faninCone faninPi inputSet n ∧ v = buffer c n ∧
      Open c.Fanin (IsPi c) weight Y n

/-- The colours after the maximum flow, once those of the primary inputs are set. `S` are the
vertices that are reachable in the residual graph. -/
structure Recoloured (c : Circuit) (faninPi : NodeSet) (g : Graph) (S : String → Prop)
    (color : String → DefaultColor) : Prop where
  pi : ∀ n ∈ faninPi, color (c.node n).name = color "src_"
  of_mem : ∀ v ∈ g.vertices, S v → color v = color "src_"
  mem : ∀ v ∈ g.vertices, color v = color "src_" → S v ∨ ∃ n ∈ faninPi, v = (c.node n).name

namespace Setting

section
variable {c : Circuit} {weight : NodeId → Int} {faninCone faninPi inputSet : NodeSet}
  (h : Setting c weight faninCone faninPi inputSet) {Y : Finset NodeId}
include h

/-! ## A cut of the network -/

theorem inside_name {n : NodeId} (hn : Known faninCone faninPi inputSet n) :
    Inside c weight faninCone faninPi inputSet Y (c.node n).name ↔
      IsPi c n ∨ ∃ x, c.Fanin x n ∧ Open c.Fanin (IsPi c) weight Y x := by
  constructor
  · intro hin
    rcases hin with hv | ⟨m, hm, hv, hx⟩ | ⟨m, hm, hv, -⟩
    · exact absurd hv (h.distinct.src n hn)
    · rw [h.distinct.inj n m hn hm hv]
      exact hx
    · exact absurd hv (h.distinct.buffer n m hn hm)
  · exact fun hx => .inr (.inl ⟨n, hn, rfl, hx⟩)

theorem inside_buffer {n : NodeId} (hn : HasBuffer c faninCone faninPi inputSet n) :
    Inside c weight faninCone faninPi inputSet Y (buffer c n) ↔
      Open c.Fanin (IsPi c) weight Y n := by
  constructor
  · intro hin
    rcases hin with hv | ⟨m, hm, hv, -⟩ | ⟨m, hm, hv, hx⟩
    · exact absurd hv (buffer_src n)
    · exact absurd hv.symm (h.distinct.buffer m n hm hn)
    · rw [h.distinct.inj n m hn.known hm.known (buffer_inj hv)]
      exact hx
  · exact fun hx => .inr (.inr ⟨n, hn, rfl, hx⟩)

theorem not_inside_sink : ¬Inside c weight faninCone faninPi inputSet Y "sink_" := by
  intro hin
  rcases hin with hv | ⟨m, hm, hv, -⟩ | ⟨m, -, hv, -⟩
  · exact absurd hv (by decide)
  · exact h.distinct.sink m hm hv.symm
  · exact buffer_sink m hv.symm

theorem fanin_of_valid {n m : NodeId} (hn : Known faninCone faninPi inputSet n)
    (hm : m ∈ validFanout c faninCone inputSet n) : c.Fanin n m :=
  h.mirror.fanin (h.mem n hn) (Mincut.mem_validFanout.1 hm).1

/-- An open node has no edge to the outside. -/
theorem inside_of_open (hY : CutsPositive c.Fanin (IsPi c) (· ∈ inputSet) weight Y) {n : NodeId}
    (hn : Known faninCone faninPi inputSet n) (hopen : Open c.Fanin (IsPi c) weight Y n) {e : Edge}
    (he : Arc c weight faninCone faninPi inputSet n e) :
    Inside c weight faninCone faninPi inputSet Y e.v2 := by
  have hlisted : n ∉ inputSet := fun hin => cutsPositive_iff.1 hY n hin hopen
  have hfanout : ∀ m ∈ validFanout c faninCone inputSet n,
      Inside c weight faninCone faninPi inputSet Y (c.node m).name := fun m hm =>
    (h.inside_name (known_fanout hm)).2 (.inr ⟨n, h.fanin_of_valid hn hm, hopen⟩)
  cases he with
  | source hpi => exact (h.inside_name hn).2 (.inl ((h.pi n hn).2 hpi))
  | split hc hb => exact (h.inside_buffer ⟨hc, hb⟩).2 hopen
  | out _ hin => exact absurd hin hlisted
  | fan _ _ hm => exact hfanout _ hm
  | exit _ _ hm => exact hfanout _ hm
  | last hin _ => exact absurd hin hlisted

/-- **A cut of the circuit** gives one of the network that is no greater. Nodes whose edges do not
leave it need not be counted. -/
theorem cutCap_inside_le (hY : CutsPositive c.Fanin (IsPi c) (· ∈ inputSet) weight Y)
    {Z : Finset NodeId} (hZ : ∀ n ∈ Z, n ∈ c.allNodes)
    (hrest : ∀ n, Known faninCone faninPi inputSet n → n ∈ Y → n ∉ Z → ∀ e,
      Arc c weight faninCone faninPi inputSet n e → e.v1 = (c.node n).name →
      Inside c weight faninCone faninPi inputSet Y e.v1 →
      Inside c weight faninCone faninPi inputSet Y e.v2) :
    (makeGraph c weight faninCone faninPi inputSet).network.cutCap
      (Inside c weight faninCone faninPi inputSet Y) ≤ ∑ n ∈ Z, weight n := by
  apply h.cutCap_le hZ
  intro n hn
  have hpos : 0 ≤ if n ∈ Z then weight n else 0 := by
    split
    · exact h.nonneg n (h.mem n hn)
    · exact le_refl 0
  apply blockCap_le h.distinct hpos hn
  · intro e he hv
    apply le_of_eq
    apply crossing_of_not
    intro hcross
    apply hcross.2
    cases he with
    | source hpi => exact (h.inside_name hn).2 (.inl ((h.pi n hn).2 hpi))
    | out hc hin =>
      have hopen := (h.inside_buffer ⟨hc, .inl hin⟩).1 hcross.1
      exact h.inside_of_open hY hn hopen (.out hc hin)
    | fan hc hb hm =>
      have hopen := (h.inside_buffer ⟨hc, hb⟩).1 hcross.1
      exact h.inside_of_open hY hn hopen (.fan hc hb hm)
    | split _ _ => exact absurd rfl hv
    | exit _ _ _ => exact absurd rfl hv
    | last _ _ => exact absurd rfl hv
  · intro e he hv
    by_cases hcross : Inside c weight faninCone faninPi inputSet Y e.v1 ∧
        ¬Inside c weight faninCone faninPi inputSet Y e.v2
    · have hcap : crossing (Inside c weight faninCone faninPi inputSet Y) e = weight n :=
        (if_pos hcross).trans he.capacity
      rw [hcap]
      by_cases hnZ : n ∈ Z
      · rw [if_pos hnZ]
      · rw [if_neg hnZ]
        by_contra hlt
        -- a node of positive weight outside of `Y` is open
        have hnY : n ∉ Y := fun hnY => hcross.2 (hrest n hn hnY hnZ e he hv hcross.1)
        have hin := hcross.1
        rw [hv, h.inside_name hn] at hin
        have hopen : Open c.Fanin (IsPi c) weight Y n := by
          rcases hin with hi | ⟨x, hxn, hx⟩
          · exact .start hi ⟨not_le.1 hlt, hnY⟩
          · exact hx.step hxn ⟨not_le.1 hlt, hnY⟩
        exact hcross.2 (h.inside_of_open hY hn hopen he)
    · rw [crossing_of_not hcross]
      exact hpos

end

/-! ## What is put in `optimized` -/

section
variable {c : Circuit} {weight : NodeId → Int} {faninCone faninPi inputSet : NodeSet}
  (h : Setting c weight faninCone faninPi inputSet) {color : String → DefaultColor}
  (hc : Coloured c faninPi color) {O : Finset NodeId}
  (hO : ∀ n, n ∈ O ↔ ∃ v,
    Visited (startOf c faninPi) color (makeGraph c weight faninCone faninPi inputSet) v ∧
    Border color (makeGraph c weight faninCone faninPi inputSet) v ∧
    VertexOf c faninCone faninPi inputSet n v)
include h hO

/-- Nodes that are not put there have no edge to another colour. -/
theorem visited_next {n : NodeId} (hnO : n ∉ O) (hpos : 0 < weight n) {e : Edge}
    (he : Arc c weight faninCone faninPi inputSet n e)
    (hv : VertexOf c faninCone faninPi inputSet n e.v1)
    (hvis : Visited (startOf c faninPi) color (makeGraph c weight faninCone faninPi inputSet)
      e.v1) :
    Visited (startOf c faninPi) color (makeGraph c weight faninCone faninPi inputSet) e.v2 := by
  have hmem := h.mem_edges.2 ⟨n, he⟩
  have hcap : 0 < e.capacity := by
    rw [he.capacity]
    exact hpos
  have hcolor : color e.v2 = color e.v1 := by
    by_contra hne
    exact hnO ((hO n).2 ⟨e.v1, hvis, ⟨e, hmem, rfl, hcap, hne⟩, hv⟩)
  obtain ⟨a, ha, hr⟩ := hvis
  exact ⟨a, ha, hr.tail (mem_searchNext.2 ⟨e, hmem, rfl, hcap, rfl, hcolor⟩)⟩

omit h in
theorem optimized_mem : ∀ n ∈ O, Known faninCone faninPi inputSet n := by
  intro n hn
  obtain ⟨v, -, -, hv⟩ := (hO n).1 hn
  exact hv.known

/-- Their weights are positive. -/
theorem optimized_pos {n : NodeId} (hn : n ∈ O) : 0 < weight n := by
  obtain ⟨v, -, ⟨e, he, rfl, hpos, -⟩, hv⟩ := (hO n).1 hn
  rw [← (h.arc_of_vertex he hv).capacity]
  exact hpos

include hc

/-- The search visits what is open. -/
theorem visited_of_open {n : NodeId} (hn : Reached c.Fanin (IsPi c)
    (fun a => (0 < weight a ∧ a ∉ O) ∧ Known faninCone faninPi inputSet a) n) :
    Visited (startOf c faninPi) color (makeGraph c weight faninCone faninPi inputSet)
      (c.node n).name := by
  have hpi : ∀ n, Known faninCone faninPi inputSet n → IsPi c n →
      Visited (startOf c faninPi) color (makeGraph c weight faninCone faninPi inputSet)
        (c.node n).name := fun n hn hi =>
    ⟨_, List.mem_map_of_mem ((h.pi n hn).1 hi), .refl⟩
  induction hn with
  | start hi hp => exact hpi _ hp.2 hi
  | @step x n hx hxn hp ih =>
    by_cases hi : IsPi c n
    · exact hpi n hp.2 hi
    obtain ⟨⟨hpos, hxO⟩, hkx⟩ := hx.prop
    have hvalid := h.mem_validFanout hkx hp.2 hi hxn
    by_cases hcone : x ∈ faninPi ∨ x ∈ faninCone
    · by_cases hb : Buffered c faninCone inputSet x
      · have hbuf := h.visited_next hO hxO hpos (.split hcone hb) (.inl ⟨hkx, rfl⟩) ih
        exact h.visited_next hO hxO hpos (.fan hcone hb hvalid) (.inr ⟨⟨hcone, hb⟩, rfl⟩) hbuf
      · exact h.visited_next hO hxO hpos (.exit hcone hb hvalid) (.inl ⟨hkx, rfl⟩) ih
    · -- a listed node that is in no cone of the others has its edge to `sink` only
      have hin : x ∈ inputSet := by
        unfold Known at hkx
        tauto
      have hsink := h.visited_next hO hxO hpos (.last hin hcone) (.inl ⟨hkx, rfl⟩) ih
      exact absurd (visited_color hc hsink) hc.sink

/-- **What is put in `optimized`** cuts the paths of positive weight. -/
theorem optimized_cuts : CutsPositive c.Fanin (IsPi c) (· ∈ inputSet) weight O := by
  rw [cutsPositive_iff]
  intro t ht hopen
  have hk : Known faninCone faninPi inputSet t := .inr (.inr ht)
  have hr := hopen.inside (fun x n hn hi hxn => h.closed x n hn hi hxn) hk
  obtain ⟨⟨hpos, htO⟩, -⟩ := hr.prop
  have hvis := h.visited_of_open hc hO hr
  by_cases hcone : t ∈ faninPi ∨ t ∈ faninCone
  · have hb : HasBuffer c faninCone faninPi inputSet t := ⟨hcone, .inl ht⟩
    have hbuf := h.visited_next hO htO hpos (.split hcone hb.2) (.inl ⟨hk, rfl⟩) hvis
    have hsink := h.visited_next hO htO hpos (.out hcone ht) (.inr ⟨hb, rfl⟩) hbuf
    exact hc.sink (visited_color hc hsink)
  · have hsink := h.visited_next hO htO hpos (.last ht hcone) (.inl ⟨hk, rfl⟩) hvis
    exact hc.sink (visited_color hc hsink)

/-- It is no heavier than the cut around the vertices of the colour of `src`. -/
theorem optimized_le_cutCap {S : String → Prop} (hS : S "src_")
    (hr : Recoloured c faninPi (makeGraph c weight faninCone faninPi inputSet) S color) :
    ∑ n ∈ O, weight n ≤ (makeGraph c weight faninCone faninPi inputSet).network.cutCap S := by
  apply h.le_cutCap (optimized_mem hO)
  intro n hn
  obtain ⟨v, hvis, ⟨e, he, rfl, -, hne⟩, hv⟩ := (hO n).1 hn
  have harc := h.arc_of_vertex he hv
  have hcolor := visited_color hc hvis
  have hhead : ¬S e.v2 := fun hs => hne ((hr.of_mem _ (h.mem_heads he) hs).trans hcolor.symm)
  have htail := hr.mem _ (h.visited_mem hc hvis) hcolor
  rcases hv with ⟨hk, hv⟩ | ⟨hb, hv⟩
  · by_cases hs : S e.v1
    · exact h.le_blockCap harc hs hhead
    · -- a primary input behind a saturated edge
      obtain ⟨m, hm, hvm⟩ := htail.resolve_left hs
      obtain rfl := h.distinct.inj n m hk (.inl hm) (hv.symm.trans hvm)
      rw [hv] at hs
      exact h.le_blockCap (.source hm) hS hs
  · have hs : S e.v1 := by
      refine htail.resolve_right fun hpi => ?_
      obtain ⟨m, hm, hvm⟩ := hpi
      exact h.distinct.buffer m n (.inl hm) hb (hvm.symm.trans hv)
    exact h.le_blockCap harc hs hhead

end

/-! ## The nearest cut -/

section
variable {c : Circuit} {weight : NodeId → Int} {faninCone faninPi inputSet : NodeSet}
  (h : Setting c weight faninCone faninPi inputSet)
  {f : Fin (makeGraph c weight faninCone faninPi inputSet).edges.length → Int}
  (hf : (makeGraph c weight faninCone faninPi inputSet).network.IsMaxFlow "src_" "sink_" f)
  {color : String → DefaultColor}
  (hr : Recoloured c faninPi (makeGraph c weight faninCone faninPi inputSet)
    (ReflTransGen ((makeGraph c weight faninCone faninPi inputSet).network.Residual f) "src_")
    color)
include h hf

/-- No flow is greater than the weight of a cut, even of those nodes only whose edges cross. -/
theorem value_le {Y Z : Finset NodeId}
    (hY : CutsPositive c.Fanin (IsPi c) (· ∈ inputSet) weight Y) (hZ : ∀ n ∈ Z, n ∈ c.allNodes)
    (hrest : ∀ n, Known faninCone faninPi inputSet n → n ∈ Y → n ∉ Z → ∀ e,
      Arc c weight faninCone faninPi inputSet n e → e.v1 = (c.node n).name →
      Inside c weight faninCone faninPi inputSet Y e.v1 →
      Inside c weight faninCone faninPi inputSet Y e.v2) :
    (makeGraph c weight faninCone faninPi inputSet).network.value "src_" f ≤ ∑ n ∈ Z, weight n :=
  (hf.isFlow.value_le_cutCap (.inl rfl) h.not_inside_sink).trans (h.cutCap_inside_le hY hZ hrest)

theorem value_le_cut {Y : Finset NodeId}
    (hY : CutsPositive c.Fanin (IsPi c) (· ∈ inputSet) weight Y) (hmem : ∀ n ∈ Y, n ∈ c.allNodes) :
    (makeGraph c weight faninCone faninPi inputSet).network.value "src_" f ≤ ∑ n ∈ Y, weight n :=
  h.value_le hf hY hmem fun _ _ hY hZ => absurd hY hZ

include hr

theorem coloured : Coloured c faninPi color := by
  refine ⟨hr.pi, fun he => ?_⟩
  rcases hr.mem "sink_" (mem_vertices.2 (.inr (.inl rfl))) he with hs | ⟨n, hn, hv⟩
  · exact hf.sink_not_reachable (by decide) hs
  · exact h.distinct.sink n (.inl hn) hv.symm

variable {O : Finset NodeId}
  (hO : ∀ n, n ∈ O ↔ ∃ v,
    Visited (startOf c faninPi) color (makeGraph c weight faninCone faninPi inputSet) v ∧
    Border color (makeGraph c weight faninCone faninPi inputSet) v ∧
    VertexOf c faninCone faninPi inputSet n v)
include hO

/-- **The flow** is the weight of what is put in `optimized`. -/
theorem value_eq : (makeGraph c weight faninCone faninPi inputSet).network.value "src_" f =
    ∑ n ∈ O, weight n := by
  have hc := h.coloured hf hr
  have hmem : ∀ n ∈ O, n ∈ c.allNodes := fun n hn => h.mem n (optimized_mem hO n hn)
  apply le_antisymm
  · exact h.value_le_cut hf (h.optimized_cuts hc hO) hmem
  · rw [hf.value_eq (by decide)]
    exact h.optimized_le_cutCap hc hO .refl hr

theorem optimized_least :
    Least c.Fanin (IsPi c) (· ∈ inputSet) (· ∈ c.allNodes) weight O := by
  refine ⟨fun n hn => h.mem n (optimized_mem hO n hn),
    h.optimized_cuts (h.coloured hf hr) hO, fun Z hZ hcut => ?_⟩
  rw [← h.value_eq hf hr hO]
  exact h.value_le_cut hf hcut hZ

/-- A node that the search visits and does not put in `optimized` is in no least cut that an open
node or a primary input leads to. -/
theorem notMem_least {Y : Finset NodeId}
    (hY : Least c.Fanin (IsPi c) (· ∈ inputSet) (· ∈ c.allNodes) weight Y) {n : NodeId}
    (hn : Known faninCone faninPi inputSet n) (hpos : 0 < weight n) (hnO : n ∉ O)
    (hvis : Visited (startOf c faninPi) color (makeGraph c weight faninCone faninPi inputSet)
      (c.node n).name) : n ∉ Y := by
  intro hnY
  have hc := h.coloured hf hr
  have hvalue : (makeGraph c weight faninCone faninPi inputSet).network.value "src_" f =
      ∑ n ∈ Y, weight n := by
    apply le_antisymm (h.value_le_cut hf hY.cuts hY.sub)
    rw [h.value_eq hf hr hO]
    exact hY.le O (h.optimized_least hf hr hO).sub (h.optimized_cuts hc hO)
  have htight : (makeGraph c weight faninCone faninPi inputSet).network.value "src_" f =
      (makeGraph c weight faninCone faninPi inputSet).network.cutCap
        (Inside c weight faninCone faninPi inputSet Y) := by
    apply le_antisymm (hf.isFlow.value_le_cutCap (.inl rfl) h.not_inside_sink)
    rw [hvalue]
    exact h.cutCap_inside_le hY.cuts hY.sub fun _ _ hY hZ => absurd hY hZ
  -- what is reachable in the residual graph lies inside the cut, so that `n` is not needed in it
  have hle := h.value_le hf (Z := Y.erase n) hY.cuts
    (fun m hm => hY.sub m (Finset.mem_of_mem_erase hm)) fun m hm hmY hmZ e he hv _ => by
      have hmn : m = n := by
        by_contra hne
        exact hmZ (Finset.mem_erase.2 ⟨hne, hmY⟩)
      subst hmn
      rw [← hv] at hvis
      have hnext := h.visited_next hO hnO hpos he (.inl ⟨hn, hv⟩) hvis
      rcases hr.mem _ (h.visited_mem hc hnext) (visited_color hc hnext) with hs | ⟨p, hp, hvp⟩
      · exact hf.isFlow.reachable_of_tight (.inl rfl) h.not_inside_sink htight hs
      · rw [hvp]
        exact (h.inside_name (.inl hp)).2 (.inl ((h.pi p (.inl hp)).2 hp))
  have hsum := Finset.add_sum_erase Y weight hnY
  omega

/-- **What is put in `optimized`** is the nearest of the least cuts of the paths of positive
weight. -/
theorem optimized_nearest : Nearest c.Fanin (IsPi c) (· ∈ inputSet) (· ∈ c.allNodes) weight
    (Known faninCone faninPi inputSet) O := by
  have hc := h.coloured hf hr
  refine ⟨h.optimized_least hf hr hO, fun n => h.optimized_pos hO, optimized_mem hO,
    fun Y hY n hn hopen => ?_⟩
  have hin := hopen.inside (fun x n hn hi hxn => h.closed x n hn hi hxn) hn
  clear hopen hn
  induction hin with
  | start hi hp =>
    have hvis := h.visited_of_open hc hO (.start hi hp)
    exact .start hi ⟨hp.1.1, h.notMem_least hf hr hO hY hp.2 hp.1.1 hp.1.2 hvis⟩
  | step hx hxn hp ih =>
    have hvis := h.visited_of_open hc hO (hx.step hxn hp)
    exact ih.step hxn ⟨hp.1.1, h.notMem_least hf hr hO hY hp.2 hp.1.1 hp.1.2 hvis⟩

end

end Setting

/-! ## `GetMinCut` -/

/-- The node has a vertex in the network for the listed nodes. -/
abbrev InNetwork (c : Circuit) (input : List NodeId) : NodeId → Prop :=
  Known (cones c (OrdSet.ofList input)).1 (cones c (OrdSet.ofList input)).2 (OrdSet.ofList input)

/-- Its buffer has one. -/
abbrev BufferInNetwork (c : Circuit) (input : List NodeId) : NodeId → Prop :=
  HasBuffer c (cones c (OrdSet.ofList input)).1 (cones c (OrdSet.ofList input)).2
    (OrdSet.ofList input)

/-- No node in the cones is named as `src`, `sink` or a buffer of the network. -/
structure NoClash (c : Circuit) (input : List NodeId) : Prop where
  src : ∀ n, InNetwork c input n → (c.node n).name ≠ "src_"
  sink : ∀ n, InNetwork c input n → (c.node n).name ≠ "sink_"
  buffer : ∀ a b, InNetwork c input a → BufferInNetwork c input b → (c.node a).name ≠ buffer c b

/-- What `boykov_kolmogorov_max_flow` returns: the value of a maximum flow, and the colour of `src`
at exactly the vertices that are reachable from it in the residual graph. -/
def Solved (g : Graph) (result : Int × (String → DefaultColor)) : Prop :=
  ∃ f : Fin g.edges.length → Int, g.network.IsMaxFlow "src_" "sink_" f ∧
    result.1 = g.network.value "src_" f ∧
    ∀ v ∈ g.vertices,
      result.2 v = result.2 "src_" ↔ ReflTransGen (g.network.Residual f) "src_" v

/-- Every path from a primary input to a listed node has a node in `Q`. -/
abbrev Cuts (c : Circuit) (input : List NodeId) (Q : NodeId → Prop) : Prop :=
  Separates c.Fanin (IsPi c) (· ∈ input) Q

/-- The nodes of a minimum cut, and its weight. -/
structure MinimumCut (c : Circuit) (weight : NodeId → Int) (input : List NodeId)
    (optimized : List NodeId) (optimizedWeight : Int) : Prop where
  cuts : Cuts c input (· ∈ optimized)
  nodup : optimized.Nodup
  total : (optimized.map weight).sum = optimizedWeight
  least : ∀ Y : Finset NodeId, (∀ n ∈ Y, n ∈ c.allNodes) → Cuts c input (· ∈ Y) →
    (optimized.map weight).sum ≤ ∑ n ∈ Y, weight n

theorem recolor_eq (start : List String) (color : String → DefaultColor) (v : String) :
    start.foldl (fun color v => Function.update color v (color "src_")) color v =
      if v ∈ start then color "src_" else color v := by
  induction start generalizing color with
  | nil => rfl
  | cons a start ih =>
    have hsrc : Function.update color a (color "src_") "src_" = color "src_" := by
      by_cases ha : "src_" = a
      · rw [← ha, Function.update_self]
      · rw [Function.update_of_ne ha]
    rw [List.foldl_cons, ih, hsrc]
    by_cases hv : v = a
    · rw [hv, Function.update_self, ite_self, if_pos List.mem_cons_self]
    · have hmem : v ∈ a :: start ↔ v ∈ start := by rw [List.mem_cons, or_iff_right hv]
      rw [Function.update_of_ne hv, if_congr hmem rfl rfl]

theorem mapM_some {α : Type} (l : List α) : (l.map some).mapM id = some l := by
  induction l with
  | nil => rfl
  | cons a l ih =>
    rw [List.map_cons, List.mapM_cons, ih]
    rfl

section
variable {c : Circuit} {weight : NodeId → Int} {input : List NodeId}
  {maxFlow : Graph → Int × (String → DefaultColor)} (hm : c.Mirror)
  (hnames : ∀ a ∈ c.allNodes, ∀ b ∈ c.allNodes, (c.node a).name = (c.node b).name → a = b)
  (hin : ∀ n ∈ input, n ∈ c.allNodes) (hw : ∀ n ∈ c.allNodes, 0 ≤ weight n)
  (hclash : NoClash c input)
  (hflow : Solved (graphOf c weight input) (maxFlow (graphOf c weight input)))

include hm hin in
theorem Leads.mem {n : NodeId} (h : Leads c input n) : n ∈ c.allNodes := by
  obtain ⟨t, ht, hr⟩ := h
  rcases ReflTransGen.cases_head hr with rfl | ⟨x, hnx, -⟩
  · exact hin n ht
  · exact Circuit.fanin_mem hm.closed hnx

include hm hin in
theorem known_leads {n : NodeId} (h : InNetwork c input n) : Leads c input n := by
  have hcones := mem_cones hm hin
  rcases h with hn | hn | hn
  · exact (hcones.pi n hn).2
  · exact (hcones.cone n hn).2
  · exact ⟨n, OrdSet.mem_ofList.1 hn, .refl⟩

include hm hnames hin hw hclash

theorem setting : Setting c weight (cones c (OrdSet.ofList input)).1
    (cones c (OrdSet.ofList input)).2 (OrdSet.ofList input) := by
  have hcones := mem_cones hm hin
  have hleads : ∀ n, InNetwork c input n → Leads c input n := fun n hn => known_leads hm hin hn
  refine ⟨hm, ⟨fun a b ha hb he => ?_, hclash.src, hclash.sink, hclash.buffer⟩,
    fun n hn => (hleads n hn).mem hm hin, fun n hn => ⟨fun hi => ?_, fun hn => (hcones.pi n hn).1⟩,
    fun n hn => (hcones.cone n hn).1, fun x n hn hi hxn => ?_, hw⟩
  · exact hnames a ((hleads a ha).mem hm hin) b ((hleads b hb).mem hm hin) he
  · rcases hn with hn | hn | hn
    · exact hn
    · rw [(hcones.cone n hn).1] at hi
      cases hi
    · exact hcones.listed n hn hi
  · have hnot : (c.node n).isInput = false := by simpa using hi
    have hfrom : n ∈ (cones c (OrdSet.ofList input)).1 ∨ n ∈ (OrdSet.ofList input).elems := by
      rcases hn with hn | hn | hn
      · exact absurd (hcones.pi n hn).1 hi
      · exact .inl hn
      · exact .inr hn
    rcases hcones.closed n hfrom hnot x hxn.2 with hx | hx | hx
    · exact .inr (.inl hx)
    · exact .inl hx
    · exact .inr (.inr hx)

/-- The nearest cut cuts all paths if and only if each of them has a stop. -/
theorem nearest_cuts_iff {optimized : List NodeId}
    (hnear : Nearest c.Fanin (IsPi c) (· ∈ input) (· ∈ c.allNodes) weight (InNetwork c input)
      optimized.toFinset) :
    Cuts c input (· ∈ optimized) ↔
      Cuts c input (Stop c.Fanin (IsPi c) (· ∈ input) (· ∈ c.allNodes) weight) := by
  have h := setting hm hnames hin hw hclash
  have hmem : (fun n => n ∈ optimized) = fun n => n ∈ optimized.toFinset :=
    funext fun n => propext List.mem_toFinset.symm
  rw [Cuts, Cuts, hmem]
  exact hnear.separates_iff (fun x n hn hi hxn => h.closed x n hn hi hxn)
    fun t ht => .inr (.inr (OrdSet.mem_ofList.2 ht))

include hflow

/-- **The result of `GetMinCut`**: the nearest least cut of the paths of positive weight, whose
weight is the flow. -/
theorem getMinCut_spec : ∃ optimized : List NodeId,
    getMinCut c weight maxFlow input =
      some ⟨optimized, toInt (optimized.map weight).sum,
        decide ((optimized.map weight).sum ≠ toInt (optimized.map weight).sum)⟩ ∧
    optimized.Nodup ∧
    Nearest c.Fanin (IsPi c) (· ∈ input) (· ∈ c.allNodes) weight (InNetwork c input)
      optimized.toFinset := by
  have h := setting hm hnames hin hw hclash
  obtain ⟨f, hf, hvalue, hcolor⟩ := hflow
  set start := startOf c (cones c (OrdSet.ofList input)).2 with hstart
  set color := start.foldl (fun color v => Function.update color v (color "src_"))
    (maxFlow (graphOf c weight input)).2 with hcol
  have hcolor' : ∀ v, color v = if v ∈ start then (maxFlow (graphOf c weight input)).2 "src_"
      else (maxFlow (graphOf c weight input)).2 v := fun v => recolor_eq start _ v
  have hsrc : color "src_" = (maxFlow (graphOf c weight input)).2 "src_" := by
    rw [hcolor', ite_self]
  have hmemstart : ∀ v, v ∈ start ↔ ∃ n ∈ (cones c (OrdSet.ofList input)).2,
      v = (c.node n).name := by
    intro v
    rw [hstart, startOf, List.mem_map]
    exact exists_congr fun n => and_congr_right fun _ => eq_comm
  have hr : Recoloured c (cones c (OrdSet.ofList input)).2 (graphOf c weight input)
      (ReflTransGen ((graphOf c weight input).network.Residual f) "src_") color := by
    refine ⟨fun n hn => ?_, fun v hv hs => ?_, fun v hv he => ?_⟩
    · rw [hsrc, hcolor', if_pos ((hmemstart _).2 ⟨n, hn, rfl⟩)]
    · rw [hsrc, hcolor', (hcolor v hv).2 hs, ite_self]
    · by_cases hvs : v ∈ start
      · exact .inr ((hmemstart v).1 hvs)
      · rw [hsrc, hcolor', if_neg hvs] at he
        exact .inl ((hcolor v hv).1 he)
  obtain ⟨optimized, hsearch, hnd, hmem⟩ := h.searchForMinCut_spec (h.coloured hf hr)
  have hO := fun n => (List.mem_toFinset (a := n)).trans (hmem n)
  have hsum : ∑ n ∈ optimized.toFinset, weight n = (optimized.map weight).sum :=
    List.sum_toFinset weight hnd
  refine ⟨optimized, ?_, hnd, ?_⟩
  · have hweight : optimized.foldl (fun sum n => toInt (sum + weight n)) 0 =
        toInt (optimized.map weight).sum := by
      rw [← zero_add (optimized.map weight).sum]
      exact foldl_toInt weight optimized 0
    have hrun : getMinCut c weight maxFlow input = (searchForMinCut start color
        (graphOf c weight input)).bind fun nodes => (nodes.mapM id).bind fun optimized =>
        some ⟨optimized, optimized.foldl (fun sum n => toInt (sum + weight n)) 0,
          decide ((maxFlow (graphOf c weight input)).1 ≠
            optimized.foldl (fun sum n => toInt (sum + weight n)) 0)⟩ := rfl
    have hsearch' : searchForMinCut start color (graphOf c weight input) =
        some (optimized.map some) := hsearch
    have hsame : (maxFlow (graphOf c weight input)).1 = (optimized.map weight).sum :=
      (hvalue.trans (h.value_eq hf hr hO)).trans hsum
    rw [hrun, hsearch', Option.bind_some, mapM_some, Option.bind_some, hweight, hsame]
  · have hexit : (fun n => n ∈ input) = fun n => n ∈ OrdSet.ofList input :=
      funext fun n => propext OrdSet.mem_ofList.symm
    rw [hexit]
    exact h.optimized_nearest hf hr hO

/-- It is a minimum cut if every path has a stop and the weight of a cut is an `int`. -/
theorem minimum_of_stops
    (hcuts : Cuts c input (Stop c.Fanin (IsPi c) (· ∈ input) (· ∈ c.allNodes) weight))
    {Y : Finset NodeId} (hY : ∀ n ∈ Y, n ∈ c.allNodes) (hcutY : Cuts c input (· ∈ Y))
    (hlt : ∑ n ∈ Y, weight n < 2 ^ 31) :
    ∃ r, getMinCut c weight maxFlow input = some r ∧
      MinimumCut c weight input r.optimized r.optimizedWeight := by
  obtain ⟨optimized, hrun, hnd, hnear⟩ := getMinCut_spec hm hnames hin hw hclash hflow
  have hsum : ∑ n ∈ optimized.toFinset, weight n = (optimized.map weight).sum :=
    List.sum_toFinset weight hnd
  have hle : ∀ Z : Finset NodeId, (∀ n ∈ Z, n ∈ c.allNodes) → Cuts c input (· ∈ Z) →
      (optimized.map weight).sum ≤ ∑ n ∈ Z, weight n := by
    intro Z hZ hcutZ
    rw [← hsum]
    exact hnear.least.le Z hZ hcutZ.cutsPositive
  have hpos : 0 ≤ (optimized.map weight).sum := by
    rw [← hsum]
    exact Finset.sum_nonneg fun n hn => hw n (hnear.least.sub n hn)
  have hint : toInt (optimized.map weight).sum = (optimized.map weight).sum :=
    toInt_eq (by omega) ((hle Y hY hcutY).trans_lt hlt)
  have hstops := nearest_cuts_iff hm hnames hin hw hclash hnear
  exact ⟨_, hrun, hstops.2 hcuts, hnd, hint.symm, hle⟩

/-- **`GetMinCut` returns a minimum cut** if and only if every path has a stop and some cut is
lighter than `2 ^ 31`. -/
theorem getMinCut_minimum_iff :
    (∃ r, getMinCut c weight maxFlow input = some r ∧
      MinimumCut c weight input r.optimized r.optimizedWeight) ↔
    Cuts c input (Stop c.Fanin (IsPi c) (· ∈ input) (· ∈ c.allNodes) weight) ∧
      ∃ Y : Finset NodeId, (∀ n ∈ Y, n ∈ c.allNodes) ∧ Cuts c input (· ∈ Y) ∧
        ∑ n ∈ Y, weight n < 2 ^ 31 := by
  constructor
  · intro hmin
    obtain ⟨r, hr, hmin⟩ := hmin
    obtain ⟨optimized, hrun, hnd, hnear⟩ := getMinCut_spec hm hnames hin hw hclash hflow
    obtain rfl := Option.some.inj (hrun.symm.trans hr)
    refine ⟨(nearest_cuts_iff hm hnames hin hw hclash hnear).1 hmin.cuts, optimized.toFinset,
      hnear.least.sub, ?_, ?_⟩
    · have hmem : (fun n => n ∈ optimized.toFinset) = fun n => n ∈ optimized :=
        funext fun n => propext List.mem_toFinset
      rw [Cuts, hmem]
      exact hmin.cuts
    · rw [List.sum_toFinset weight hnd, hmin.total]
      exact toInt_lt _
  · intro hcond
    obtain ⟨hcuts, Y, hY, hcutY, hlt⟩ := hcond
    exact minimum_of_stops hm hnames hin hw hclash hflow hcuts hY hcutY hlt

/-- Where the weights are positive, every path has a stop. -/
theorem stops_of_positive (hpos : ∀ n, Leads c input n → 0 < weight n) :
    Cuts c input (Stop c.Fanin (IsPi c) (· ∈ input) (· ∈ c.allNodes) weight) := by
  obtain ⟨optimized, -, -, hnear⟩ := getMinCut_spec hm hnames hin hw hclash hflow
  have h := setting hm hnames hin hw hclash
  rw [← nearest_cuts_iff hm hnames hin hw hclash hnear, Cuts, separates_iff]
  intro t ht hr
  apply cutsPositive_iff.1 hnear.least.cuts t ht
  have hin' := hr.inside (fun x n hn hi hxn => h.closed x n hn hi hxn)
    (.inr (.inr (OrdSet.mem_ofList.2 ht)))
  refine hin'.mono fun n hn => ⟨hpos n (known_leads hm hin hn.2), fun hmem => ?_⟩
  exact hn.1 (List.mem_toFinset.1 hmem)

/-- **With positive weights** `GetMinCut` returns a minimum cut. -/
theorem getMinCut_positive (hpos : ∀ n, Leads c input n → 0 < weight n) {Y : Finset NodeId}
    (hY : ∀ n ∈ Y, n ∈ c.allNodes) (hcut : Cuts c input (· ∈ Y))
    (hlt : ∑ n ∈ Y, weight n < 2 ^ 31) :
    ∃ r, getMinCut c weight maxFlow input = some r ∧
      MinimumCut c weight input r.optimized r.optimizedWeight :=
  minimum_of_stops hm hnames hin hw hclash hflow
    (stops_of_positive hm hnames hin hw hclash hflow hpos) hY hcut hlt

end

/-! ## A primary input and its fanout -/

/-- The circuit a → n. -/
def wire : Circuit where
  allNodes := [0, 1]
  inputs := [0]
  outputs := [1]
  node n :=
    if n = 0 then { name := "a", isInput := true, outputs := [1] }
    else { name := "n", isOutput := true, inputs := [0] }
  cluster _ := {}

/-- The weight of a is x, that of n is 5. -/
def wireWeight (x : Int) (n : NodeId) : Int := if n = 0 then x else 5

/-- A maximum flow of the network for n: the edge out of `src` is saturated. -/
def wireFlow (x : Int) (_ : Graph) : Int × (String → DefaultColor) :=
  (x, fun v => if v = "src_" then .black else .white)

theorem wire_edges (x : Int) : (graphOf wire (wireWeight x) [1]).edges =
    [⟨"src_", "a", x⟩, ⟨"a", "n", x⟩, ⟨"n", "sink_", 5⟩] := rfl

theorem excess_const (g : Graph) (x : Int) (v : String) : g.network.excess (fun _ => x) v =
    (g.edges.map fun e => x * ((if e.v2 = v then 1 else 0) - if e.v1 = v then 1 else 0)).sum := by
  rw [← Fin.sum_univ_fun_getElem, Network.excess]
  rfl

theorem wire_solved {x : Int} (h0 : 0 ≤ x) (h5 : x ≤ 5) :
    Solved (graphOf wire (wireWeight x) [1]) (wireFlow x (graphOf wire (wireWeight x) [1])) := by
  set g := graphOf wire (wireWeight x) [1] with hg
  have hedges : g.edges = [⟨"src_", "a", x⟩, ⟨"a", "n", x⟩, ⟨"n", "sink_", 5⟩] := wire_edges x
  have hcap : ∀ e ∈ g.edges, x ≤ e.capacity := by
    rw [hedges]
    simp [h5]
  have hvalue : g.network.value "src_" (fun _ => x) = x := by
    rw [Network.value, excess_const, hedges]
    simp
  have hflow : g.network.IsFlow "src_" "sink_" fun _ => x := by
    refine ⟨fun _ => h0, fun i => hcap _ (List.get_mem _ i), fun v hs ht => ?_⟩
    rw [excess_const, hedges]
    simp only [List.map_cons, List.map_nil, List.sum_cons, List.sum_nil, if_neg (Ne.symm hs),
      if_neg (Ne.symm ht)]
    ring
  have htight : g.network.value "src_" (fun _ => x) = g.network.cutCap (· = "src_") := by
    rw [hvalue, cutCap_eq, hedges]
    simp [crossing]
  refine ⟨fun _ => x, hflow.isMaxFlow (S := (· = "src_")) rfl (by decide) htight, hvalue.symm,
    fun v _ => ?_⟩
  constructor
  · intro hv
    have : v = "src_" := by
      by_contra hne
      simp [wireFlow, hne] at hv
    rw [this]
  · intro hr
    rw [hflow.reachable_of_tight (S := (· = "src_")) rfl (by decide) htight hr]

theorem wire_mirror : wire.Mirror where
  nodup := by decide
  closed := by unfold Circuit.Closed; decide
  outs := by decide
  count := by decide

theorem wire_acyclic : wire.IsAcyclic := by
  refine Acyclic.of_rank id fun a b hab => ?_
  obtain ⟨hb, ha⟩ := hab
  have key : ∀ b ∈ wire.allNodes, ∀ a ∈ (wire.node b).inputs, a < b := by decide
  exact key b hb a ha

theorem wire_names : ∀ a ∈ wire.allNodes, ∀ b ∈ wire.allNodes,
    (wire.node a).name = (wire.node b).name → a = b := by decide

theorem wire_input : ∀ n ∈ [1], n ∈ wire.allNodes := by decide

theorem wireWeight_nonneg {x : Int} (hx : 0 ≤ x) : ∀ n ∈ wire.allNodes, 0 ≤ wireWeight x n := by
  intro n _
  unfold wireWeight
  split
  · exact hx
  · decide

theorem wire_noClash : NoClash wire [1] := by
  have hmem : ∀ n, InNetwork wire [1] n → n ∈ wire.allNodes := fun n hn =>
    (known_leads wire_mirror wire_input hn).mem wire_mirror wire_input
  have hsrc : ∀ n ∈ wire.allNodes, (wire.node n).name ≠ "src_" := by decide
  have hsink : ∀ n ∈ wire.allNodes, (wire.node n).name ≠ "sink_" := by decide
  have hbuf : ∀ a ∈ wire.allNodes, ∀ b ∈ wire.allNodes, (wire.node a).name ≠ buffer wire b := by
    decide
  exact ⟨fun n hn => hsrc n (hmem n hn), fun n hn => hsink n (hmem n hn),
    fun a b ha hb => hbuf a (hmem a ha) b (hmem b hb.known)⟩

/-- If the primary input weighs 1 and its fanout 5, a minimum cut is found. -/
theorem getMinCut_wire : ∃ r, getMinCut wire (wireWeight 1) (wireFlow 1) [1] = some r ∧
    MinimumCut wire (wireWeight 1) [1] r.optimized r.optimizedWeight := by
  have h0 : ∀ n ∈ wire.allNodes, 0 ≤ wireWeight 1 n := wireWeight_nonneg (by decide)
  have hflow := wire_solved (x := 1) (by decide) (by decide)
  have hstops := stops_of_positive wire_mirror wire_names wire_input h0 wire_noClash hflow
    fun n _ => by unfold wireWeight; split <;> decide
  refine (getMinCut_minimum_iff wire_mirror wire_names wire_input h0 wire_noClash hflow).2
    ⟨hstops, {1}, by decide, fun p hp => ?_, by decide⟩
  obtain ⟨t, ht, hlisted⟩ := hp.last
  exact ⟨t, List.mem_of_getLast? ht, by simpa using hlisted⟩

/-- If the primary input weighs 0, nothing is put in `optimized`, and the path is not cut. -/
theorem getMinCut_zero : (wire.Mirror ∧ wire.IsAcyclic ∧
    (∀ a ∈ wire.allNodes, ∀ b ∈ wire.allNodes, (wire.node a).name = (wire.node b).name → a = b) ∧
    (∀ n ∈ wire.allNodes, 0 ≤ wireWeight 0 n) ∧
    Solved (graphOf wire (wireWeight 0) [1]) (wireFlow 0 (graphOf wire (wireWeight 0) [1]))) ∧
    ¬∃ r, getMinCut wire (wireWeight 0) (wireFlow 0) [1] = some r ∧
      MinimumCut wire (wireWeight 0) [1] r.optimized r.optimizedWeight := by
  refine ⟨⟨wire_mirror, wire_acyclic, wire_names, wireWeight_nonneg (le_refl 0),
    wire_solved (le_refl 0) (by decide)⟩, fun h => ?_⟩
  obtain ⟨r, hr, hmin⟩ := h
  have hrun : getMinCut wire (wireWeight 0) (wireFlow 0) [1] = some ⟨[], 0, false⟩ := rfl
  obtain rfl := Option.some.inj (hrun.symm.trans hr)
  have hpath : IsPath wire.Fanin (IsPi wire) (· ∈ [1]) [0, 1] :=
    ⟨List.isChain_cons_cons.2 ⟨⟨by decide, by decide⟩, List.isChain_singleton 1⟩, ⟨0, rfl, rfl⟩,
      ⟨1, rfl, by decide⟩⟩
  obtain ⟨n, -, hn⟩ := hmin.cuts [0, 1] hpath
  cases hn

end Msyn.Mincut
