import Msyn.Parser.Reader

/-!
# Two lexers on the same text

Two lexers that read the same text from different states go on alike: the nodes that they read from
there correspond (`Paired`), so they connect as many nodes to the same names. What one has more of
the fanins of a name than the other stays the same (`Twins.run`).
-/

namespace Msyn.Parser

open Nodecircuit Circuit

/-! ## The number of fanins -/

/-- The fanins of the nodes of the name. -/
def faninsOf (c : Circuit) (s : String) : List NodeId :=
  c.allNodes.flatMap fun n => if (c.node n).name = s then (c.node n).inputs else []

def faninCount (c : Circuit) (s : String) : Nat := (faninsOf c s).length

theorem faninCount_congr {c c' : Circuit} (hall : c'.allNodes = c.allNodes)
    (hnode : ∀ n ∈ c.allNodes, (c'.node n).name = (c.node n).name ∧
      (c'.node n).inputs = (c.node n).inputs) (s : String) : faninCount c' s = faninCount c s := by
  unfold faninCount faninsOf
  rw [hall]
  refine congrArg _ (List.flatMap_congr fun n hn => ?_)
  rw [(hnode n hn).1, (hnode n hn).2]

/-- What one node gets more, its name gets more. -/
theorem faninCount_update {c c' : Circuit} {cur : NodeId} {new : List NodeId}
    (hnd : c.allNodes.Nodup) (hcur : cur ∈ c.allNodes) (hall : c'.allNodes = c.allNodes)
    (hnode : ∀ n, (c'.node n).name = (c.node n).name ∧ (c'.node n).inputs =
      if n = cur then (c.node n).inputs ++ new else (c.node n).inputs) (s : String) :
    faninCount c' s = faninCount c s + if (c.node cur).name = s then new.length else 0 := by
  obtain ⟨l1, l2, he⟩ := List.append_of_mem hcur
  have hdis := List.nodup_middle.1 (he ▸ hnd)
  have hne : ∀ n ∈ l1 ++ l2, n ≠ cur := fun n hn hc => (List.nodup_cons.1 hdis).1 (hc ▸ hn)
  have hsame : ∀ l : List NodeId, (∀ n ∈ l, n ∈ l1 ++ l2) →
      (l.flatMap fun n => if (c'.node n).name = s then (c'.node n).inputs else []) =
        l.flatMap fun n => if (c.node n).name = s then (c.node n).inputs else [] := by
    intro l hl
    refine List.flatMap_congr fun n hn => ?_
    rw [(hnode n).1, (hnode n).2, if_neg (hne n (hl n hn))]
  unfold faninCount faninsOf
  rw [hall, he, List.flatMap_append, List.flatMap_cons, List.flatMap_append, List.flatMap_cons,
    hsame l1 fun n hn => List.mem_append.2 (.inl hn), hsame l2 fun n hn => List.mem_append.2 (.inr hn),
    (hnode cur).1, (hnode cur).2, if_pos rfl]
  simp only [List.length_append]
  split
  · rw [List.length_append]
    omega
  · omega

/-! ## A name -/

/-- The name `s` was entered, or looked up, as the node `x`. -/
structure Entered (l l' : Lexer) (s : String) (x : NodeId) : Prop where
  mode : l'.mode = l.mode
  current : l'.currentNode = some x
  nodes : l'.nodes = l.nodes ++ if l.mode = .names then [x] else []
  getNode : ∀ t, l'.circuit.getNode t = if t = s then some x else l.circuit.getNode t
  nameOf : ∀ n ∈ l.circuit.allNodes, l'.nameOf n = l.nameOf n
  name : l'.nameOf x = s
  mem : ∀ n, n ∈ l'.circuit.allNodes ↔ n ∈ l.circuit.allNodes ∨ n = x
  which : x ∉ l.circuit.allNodes ∧ (l.mode = .names → l.circuit.getNode s = none) ∨
    l.mode = .names ∧ l.circuit.getNode s = some x
  count : ∀ t, faninCount l'.circuit t = faninCount l.circuit t

section
variable {l : Lexer} {r : Reader} (h : Reads l r)
include h

theorem Reads.newNode_entered {l' : Lexer} {s : String} {i o : Bool}
    (hnode : l'.circuit.node = (l.newNode s i o).circuit.node)
    (hall : l'.circuit.allNodes = l.circuit.allNodes ++ [l.free])
    (hmap : l'.circuit.allNodesMap = (l.newNode s i o).circuit.allNodesMap)
    (hmode : l'.mode = l.mode) (hcur : l'.currentNode = some l.free)
    (hnodes : l'.nodes = l.nodes ++ if l.mode = .names then [l.free] else [])
    (hnew : l.mode = .names → l.circuit.getNode s = none) : Entered l l' s l.free := by
  have hname : l'.nameOf = (l.newNode s i o).nameOf := by
    unfold Lexer.nameOf
    rw [hnode]
  refine ⟨hmode, hcur, hnodes, fun t => ?_, fun n hn => ?_, ?_, fun n => ?_,
    .inl ⟨h.free_notMem, hnew⟩, fun t => ?_⟩
  · rw [← newNode_getNode l s i o, getNode, getNode, hmap]
  · rw [hname]
    exact h.nameOf_newNode s i o hn
  · rw [hname]
    exact Reads.nameOf_free s i o
  · rw [hall, List.mem_append, List.mem_singleton]
  · unfold faninCount faninsOf
    rw [hall, List.flatMap_append, hnode]
    have hold : (l.circuit.allNodes.flatMap fun n =>
        if ((l.newNode s i o).circuit.node n).name = t then ((l.newNode s i o).circuit.node n).inputs
        else []) = l.circuit.allNodes.flatMap fun n =>
          if (l.circuit.node n).name = t then (l.circuit.node n).inputs else [] := by
      refine List.flatMap_congr fun n hn => ?_
      have hne : n ≠ l.free := fun he => h.free_notMem (he ▸ hn)
      simp [Lexer.newNode, hne]
    rw [hold]
    simp [Lexer.newNode]

theorem Reads.id_entered (hm : l.mode = .inputs ∨ l.mode = .outputs ∨ l.mode = .names) (s : String) :
    ∃ x, Entered l (l.id s) s x := by
  rcases hm with hm | hm | hm
  · rw [Lexer.id_inputs hm]
    exact ⟨l.free, h.newNode_entered rfl rfl rfl rfl rfl (by rw [hm]; exact (List.append_nil _).symm)
      (by simp [hm])⟩
  · rw [Lexer.id_outputs hm]
    exact ⟨l.free, h.newNode_entered rfl rfl rfl rfl rfl (by rw [hm]; exact (List.append_nil _).symm)
      (by simp [hm])⟩
  · cases hg : l.circuit.getNode s with
    | none =>
      rw [Lexer.id_new hm hg]
      exact ⟨l.free, h.newNode_entered rfl rfl rfl rfl rfl (by rw [if_pos hm]) fun _ => hg⟩
    | some x =>
      have hmem := h.sound.names s x hg
      rw [Lexer.id_known hm hg]
      refine ⟨x, rfl, rfl, by rw [if_pos hm], fun t => ?_, fun _ _ => rfl, h.found s x hg,
        fun n => ?_, .inr ⟨hm, hg⟩, fun _ => rfl⟩
      · by_cases ht : t = s
        · rw [if_pos ht, ht, hg]
        · rw [if_neg ht]
      · exact ⟨.inl, fun hn => hn.elim (fun h => h) fun hx => hx ▸ hmem⟩

end

/-- In the other modes a name changes nothing that a later line reads. -/
theorem id_idle {l : Lexer} (hm : ¬(l.mode = .inputs ∨ l.mode = .outputs ∨ l.mode = .names))
    (s : String) : (l.id s).mode = (if l.mode = .model then .start else l.mode) ∧
      (l.id s).currentNode = l.currentNode ∧ (l.id s).nodes = l.nodes ∧
      (l.id s).circuit.node = l.circuit.node ∧ (l.id s).circuit.allNodes = l.circuit.allNodes ∧
      (l.id s).circuit.allNodesMap = l.circuit.allNodesMap := by
  cases hl : l.mode with
  | inputs => exact absurd (.inl hl) hm
  | outputs => exact absurd (.inr (.inl hl)) hm
  | names => exact absurd (.inr (.inr hl)) hm
  | model =>
    rw [Lexer.id_model hl]
    exact ⟨rfl, rfl, rfl, rfl, rfl, rfl⟩
  | cover | start | done =>
    rw [Lexer.id_other (by simp [hl])]
    exact ⟨by simp [hl], rfl, rfl, rfl, rfl, rfl⟩

/-! ## Nodes that correspond -/

/-- The nodes that two lexers have read since they began with the same text. -/
structure Paired (M : NodeId → NodeId → Prop) (l l' : Lexer) : Prop where
  mem : ∀ a b, M a b → a ∈ l.circuit.allNodes ∧ b ∈ l'.circuit.allNodes
  name : ∀ a b, M a b → l.nameOf a = l'.nameOf b
  inj : ∀ a b a' b', M a b → M a' b' → (a = a' ↔ b = b')
  seen : ∀ a b, M a b → ∃ x y, l.circuit.getNode (l.nameOf a) = some x ∧
    l'.circuit.getNode (l.nameOf a) = some y ∧ M x y
  nodes : List.Forall₂ M l.nodes l'.nodes
  current : l.nodes ≠ [] → ∃ a b, l.currentNode = some a ∧ l'.currentNode = some b ∧ M a b

namespace Paired

variable {M : NodeId → NodeId → Prop} {l l' : Lexer} {r r' : Reader} (h : Paired M l l')
  (hl : Reads l r) (hl' : Reads l' r')
include h

/-- What does not touch the nodes keeps the pairs. -/
theorem congr {l1 l1' : Lexer} (hnode : l1.circuit.node = l.circuit.node)
    (hall : l1.circuit.allNodes = l.circuit.allNodes)
    (hmap : l1.circuit.allNodesMap = l.circuit.allNodesMap)
    (hnode' : l1'.circuit.node = l'.circuit.node)
    (hall' : l1'.circuit.allNodes = l'.circuit.allNodes)
    (hmap' : l1'.circuit.allNodesMap = l'.circuit.allNodesMap)
    (hnodes : l1.nodes = l.nodes) (hnodes' : l1'.nodes = l'.nodes)
    (hcur : l1.currentNode = l.currentNode) (hcur' : l1'.currentNode = l'.currentNode) :
    Paired M l1 l1' := by
  have hname : l1.nameOf = l.nameOf := by unfold Lexer.nameOf; rw [hnode]
  have hname' : l1'.nameOf = l'.nameOf := by unfold Lexer.nameOf; rw [hnode']
  refine ⟨fun a b hm => ?_, fun a b hm => ?_, h.inj, fun a b hm => ?_, ?_, fun hne => ?_⟩
  · rw [hall, hall']
    exact h.mem a b hm
  · rw [hname, hname']
    exact h.name a b hm
  · rw [getNode, getNode, hname, hmap, hmap']
    exact h.seen a b hm
  · rw [hnodes, hnodes']
    exact h.nodes
  · rw [hcur, hcur']
    exact h.current (hnodes ▸ hne)

include hl hl'

/-- The nodes of a name correspond. -/
theorem entered {l1 l1' : Lexer} {s : String} {x y : NodeId} (hm : l.mode = l'.mode)
    (hx : Entered l l1 s x) (hy : Entered l' l1' s y) :
    Paired (fun a b => M a b ∨ a = x ∧ b = y) l1 l1' := by
  have hseen : ∀ a b, M a b → l.nameOf a = s →
      ∃ x' y', l.circuit.getNode s = some x' ∧ l'.circuit.getNode s = some y' ∧ M x' y' := by
    rintro a b hab rfl
    exact h.seen a b hab
  -- a node that was read before is the one that the name stands for in both, or in none
  have hkey : ∀ a b, M a b → (a = x ↔ b = y) := by
    intro a b hab
    obtain ⟨ha, hb⟩ := h.mem a b hab
    have hname := h.name a b hab
    rcases hx.which with ⟨hx1, hx2⟩ | ⟨hx1, hx2⟩
    · rcases hy.which with ⟨hy1, -⟩ | ⟨hy1, hy2⟩
      · exact ⟨fun he => absurd (he ▸ ha) hx1, fun he => absurd (he ▸ hb) hy1⟩
      · refine ⟨fun he => absurd (he ▸ ha) hx1, fun he => ?_⟩
        obtain ⟨x', -, hx', -⟩ := hseen a b hab (hname.trans (by rw [he]; exact hl'.found s y hy2))
        rw [hx2 (hm.trans hy1)] at hx'
        cases hx'
    · rcases hy.which with ⟨hy1, hy2⟩ | ⟨-, hy2⟩
      · refine ⟨fun he => ?_, fun he => absurd (he ▸ hb) hy1⟩
        obtain ⟨-, y', -, hy', -⟩ := hseen a b hab (by rw [he]; exact hl.found s x hx2)
        rw [hy2 (hm.symm.trans hx1)] at hy'
        cases hy'
      · have hboth : l.nameOf a = s → (a = x ↔ b = y) := by
          intro hs
          obtain ⟨x', y', hx', hy', hxy⟩ := hseen a b hab hs
          rw [hx2] at hx'
          rw [hy2] at hy'
          cases hx'
          cases hy'
          exact h.inj a b x y hab hxy
        constructor
        · intro he
          exact (hboth (by rw [he]; exact hl.found s x hx2)).1 he
        · intro he
          exact (hboth (hname.trans (by rw [he]; exact hl'.found s y hy2))).2 he
  have hold : ∀ a b, M a b → l1.nameOf a = l.nameOf a ∧ l1'.nameOf b = l'.nameOf b :=
    fun a b hab => ⟨hx.nameOf a (h.mem a b hab).1, hy.nameOf b (h.mem a b hab).2⟩
  refine ⟨?_, ?_, ?_, ?_, ?_, fun _ => ⟨x, y, hx.current, hy.current, .inr ⟨rfl, rfl⟩⟩⟩
  · rintro a b (hab | ⟨rfl, rfl⟩)
    · exact ⟨(hx.mem a).2 (.inl (h.mem a b hab).1), (hy.mem b).2 (.inl (h.mem a b hab).2)⟩
    · exact ⟨(hx.mem a).2 (.inr rfl), (hy.mem b).2 (.inr rfl)⟩
  · rintro a b (hab | ⟨rfl, rfl⟩)
    · rw [(hold a b hab).1, (hold a b hab).2]
      exact h.name a b hab
    · rw [hx.name, hy.name]
  · rintro a b a' b' (hab | ⟨rfl, rfl⟩) (hab' | ⟨rfl, rfl⟩)
    · exact h.inj a b a' b' hab hab'
    · exact hkey a b hab
    · rw [eq_comm, hkey a' b' hab', eq_comm]
    · exact iff_of_true rfl rfl
  · have hpair : ∀ t, t = s → ∃ x' y', l1.circuit.getNode t = some x' ∧
        l1'.circuit.getNode t = some y' ∧ (M x' y' ∨ x' = x ∧ y' = y) := by
      intro t ht
      exact ⟨x, y, by rw [hx.getNode, if_pos ht], by rw [hy.getNode, if_pos ht], .inr ⟨rfl, rfl⟩⟩
    rintro a b (hab | ⟨rfl, rfl⟩)
    · rw [(hold a b hab).1]
      by_cases ht : l.nameOf a = s
      · exact hpair _ ht
      · obtain ⟨x', y', hx', hy', hxy⟩ := h.seen a b hab
        exact ⟨x', y', by rw [hx.getNode, if_neg ht, hx'], by rw [hy.getNode, if_neg ht, hy'],
          .inl hxy⟩
    · exact hpair _ hx.name
  · have hmono := h.nodes.imp fun a b (hab : M a b) => (.inl hab : M a b ∨ a = x ∧ b = y)
    rw [hx.nodes, hy.nodes, ← hm]
    split
    · exact List.rel_append hmono (.cons (.inr ⟨rfl, rfl⟩) .nil)
    · rw [List.append_nil, List.append_nil]
      exact hmono

end Paired

/-! ## The end of a line -/

/-- With a current node the end of a line is read. -/
theorem newline_names_eq {l : Lexer} {cur : NodeId} (hm : l.mode = .names)
    (hc : l.currentNode = some cur) : l.newline = some { l with
      circuit := l.nodes.foldl (fun c i => if cur ≠ i then Lexer.connect cur i c else c) l.circuit
      nodes := []
      mode := .cover } := by
  unfold Lexer.newline
  rw [if_pos hm, hc]
  cases hn : l.nodes with
  | nil => rfl
  | cons i ns => rfl

theorem faninCount_connect {l : Lexer} (hs : l.Sound) {cur : NodeId} (hc : l.currentNode = some cur)
    (s : String) : faninCount (l.nodes.foldl
      (fun c i => if cur ≠ i then Lexer.connect cur i c else c) l.circuit) s =
        faninCount l.circuit s +
          if l.nameOf cur = s then (l.nodes.filter fun i => cur ≠ i).length else 0 := by
  obtain ⟨⟨hall, -⟩, hnode⟩ := foldl_connect cur l.nodes l.circuit
  exact faninCount_update hs.mirror.nodup (hs.current cur hc) hall
    (fun n => ⟨(hnode n).1, (hnode n).2.2⟩) s

/-- Nodes that correspond are connected as often. -/
theorem Paired.filter_length {M : NodeId → NodeId → Prop} {l l' : Lexer} (h : Paired M l l')
    {a b : NodeId} (hab : M a b) {ns ns' : List NodeId} (hns : List.Forall₂ M ns ns') :
    (ns.filter fun i => a ≠ i).length = (ns'.filter fun i => b ≠ i).length := by
  induction hns with
  | nil => rfl
  | @cons i j ns ns' hij hns ih =>
    by_cases he : a = i
    · have he' : b = j := (h.inj a b i j hab hij).1 he
      rw [List.filter_cons_of_neg (by simpa using he), List.filter_cons_of_neg (by simpa using he')]
      exact ih
    · have he' : b ≠ j := fun hb => he ((h.inj a b i j hab hij).2 hb)
      rw [List.filter_cons_of_pos (by simpa using he), List.filter_cons_of_pos (by simpa using he'),
        List.length_cons, List.length_cons, ih]

/-! ## The runs -/

/-- Two lexers that go on with the same text, the first with `d s` more fanins of each name `s`. -/
structure Twins (d : String → Int) (l l' : Lexer) : Prop where
  reads : (∃ r, Reads l r) ∧ ∃ r', Reads l' r'
  mode : l.mode = l'.mode
  current : l.currentNode ≠ none ∧ l'.currentNode ≠ none
  paired : ∃ M, Paired M l l'
  count : ∀ s, (faninCount l.circuit s : Int) = faninCount l'.circuit s + d s

theorem Reads.step_some {l l1 : Lexer} {r : Reader} (h : Reads l r) {t : Token}
    (hl : l.step t = some l1) : ∃ r1, Reads l1 r1 := by
  have hstep := h.step t
  rw [hl] at hstep
  cases hr : r.step t with
  | none =>
    rw [hr] at hstep
    cases hstep
  | some r1 =>
    rw [hr] at hstep
    cases hstep with
    | some hreads => exact ⟨r1, hreads⟩

theorem Reads.setMode {l : Lexer} {r : Reader} (h : Reads l r) (m : Mode) :
    Reads { l with mode := m } { r with mode := m } :=
  { h with
    mode := rfl
    sound := ⟨h.sound.mirror, h.sound.below, h.sound.nodes, h.sound.current, h.sound.names⟩ }

/-- Any two lexers, where the nodes of the last line are connected. -/
theorem Reads.twins {l l' : Lexer} {r r' : Reader} (h : Reads l r) (h' : Reads l' r')
    (hm : l.mode = l'.mode) (hc : l.currentNode ≠ none ∧ l'.currentNode ≠ none) (hn : l.nodes = [])
    (hn' : l'.nodes = []) :
    Twins (fun s => (faninCount l.circuit s : Int) - faninCount l'.circuit s) l l' := by
  refine ⟨⟨⟨r, h⟩, r', h'⟩, hm, hc, ⟨fun _ _ => False, ?_⟩, fun s => ?_⟩
  · refine ⟨fun _ _ hab => hab.elim, fun _ _ hab => hab.elim, fun _ _ _ _ hab => hab.elim,
      fun _ _ hab => hab.elim, ?_, fun hne => absurd hn hne⟩
    rw [hn, hn']
    exact .nil
  · omega

namespace Twins

variable {d : String → Int} {l l' : Lexer} (h : Twins d l l')
include h

theorem id (s : String) : l.step (6, s) = some (l.id s) ∧ l'.step (6, s) = some (l'.id s) ∧
    Twins d (l.id s) (l'.id s) := by
  obtain ⟨⟨r, hr⟩, r', hr'⟩ := h.reads
  obtain ⟨M, hM⟩ := h.paired
  have hreads : (∃ r, Reads (l.id s) r) ∧ ∃ r', Reads (l'.id s) r' :=
    ⟨⟨_, hr.id s⟩, _, hr'.id s⟩
  refine ⟨rfl, rfl, ?_⟩
  by_cases hm : l.mode = .inputs ∨ l.mode = .outputs ∨ l.mode = .names
  · obtain ⟨x, hx⟩ := hr.id_entered hm s
    obtain ⟨y, hy⟩ := hr'.id_entered (h.mode ▸ hm) s
    refine ⟨hreads, ?_, ?_, ⟨_, hM.entered hr hr' h.mode hx hy⟩, fun t => ?_⟩
    · rw [hx.mode, hy.mode]
      exact h.mode
    · rw [hx.current, hy.current]
      exact ⟨Option.some_ne_none _, Option.some_ne_none _⟩
    · rw [hx.count, hy.count]
      exact h.count t
  · obtain ⟨e1, e2, e3, e4, e5, e6⟩ := id_idle hm s
    obtain ⟨f1, f2, f3, f4, f5, f6⟩ := id_idle (h.mode ▸ hm) s
    refine ⟨hreads, ?_, ?_, ⟨M, hM.congr e4 e5 e6 f4 f5 f6 e3 f3 e2 f2⟩, fun t => ?_⟩
    · rw [e1, f1, h.mode]
    · rw [e2, f2]
      exact h.current
    · rw [faninCount_congr e5 (fun n _ => by rw [e4]; exact ⟨rfl, rfl⟩),
        faninCount_congr f5 (fun n _ => by rw [f4]; exact ⟨rfl, rfl⟩)]
      exact h.count t

theorem newline : ∃ l1 l1', l.newline = some l1 ∧ l'.newline = some l1' ∧ Twins d l1 l1' := by
  obtain ⟨⟨r, hr⟩, r', hr'⟩ := h.reads
  obtain ⟨M, hM⟩ := h.paired
  by_cases hm : l.mode = .names
  · obtain ⟨cur, hc⟩ := Option.ne_none_iff_exists'.1 h.current.1
    obtain ⟨cur', hc'⟩ := Option.ne_none_iff_exists'.1 h.current.2
    have hl := newline_names_eq hm hc
    have hl' := newline_names_eq (h.mode ▸ hm) hc'
    obtain ⟨⟨e1, e2, -⟩, hnode⟩ := foldl_connect cur l.nodes l.circuit
    obtain ⟨⟨f1, f2, -⟩, hnode'⟩ := foldl_connect cur' l'.nodes l'.circuit
    refine ⟨_, _, hl, hl', ⟨hr.step_some (t := (7, "")) hl, hr'.step_some (t := (7, "")) hl'⟩, rfl,
      ?_, ⟨M, ?_⟩, fun s => ?_⟩
    · rw [hc, hc']
      exact ⟨Option.some_ne_none _, Option.some_ne_none _⟩
    · refine ⟨fun a b hab => ?_, fun a b hab => ?_, hM.inj, fun a b hab => ?_, .nil,
        fun hne => absurd rfl hne⟩
      · exact ⟨e1.symm ▸ (hM.mem a b hab).1, f1.symm ▸ (hM.mem a b hab).2⟩
      · exact (hnode a).1.trans ((hM.name a b hab).trans (hnode' b).1.symm)
      · obtain ⟨x, y, hx, hy, hxy⟩ := hM.seen a b hab
        refine ⟨x, y, ?_, ?_, hxy⟩
        · exact (congrArg (AList.lookup _) e2).trans
            ((congrArg (AList.lookup · l.circuit.allNodesMap) (hnode a).1).trans hx)
        · exact (congrArg (AList.lookup _) f2).trans
            ((congrArg (AList.lookup · l'.circuit.allNodesMap) (hnode a).1).trans hy)
    · show (faninCount _ s : Int) = faninCount _ s + d s
      rw [faninCount_connect hr.sound hc, faninCount_connect hr'.sound hc']
      have hcount := h.count s
      -- the lines have as many nodes to connect, and to the same name
      have hmore : (if l.nameOf cur = s then (l.nodes.filter fun i => cur ≠ i).length else 0) =
          if l'.nameOf cur' = s then (l'.nodes.filter fun i => cur' ≠ i).length else 0 := by
        cases hn : l.nodes with
        | nil =>
          have hn' : l'.nodes = [] := by
            have := hM.nodes
            rw [hn] at this
            exact List.forall₂_nil_left_iff.1 this
          rw [hn']
          simp
        | cons i ns =>
          obtain ⟨a, b, ha, hb, hab⟩ := hM.current (by rw [hn]; simp)
          rw [hc] at ha
          rw [hc'] at hb
          cases ha
          cases hb
          rw [← hn, hM.name cur cur' hab, hM.filter_length hab hM.nodes]
      rw [hmore]
      push_cast
      omega
  · have hm' : l'.mode ≠ .names := h.mode ▸ hm
    exact ⟨l, l', if_neg hm, if_neg hm', h⟩

theorem array (s : String) : ∃ l1 l1', l.array s = some l1 ∧ l'.array s = some l1' ∧
    Twins d l1 l1' := by
  obtain ⟨⟨r, hr⟩, r', hr'⟩ := h.reads
  obtain ⟨M, hM⟩ := h.paired
  by_cases hm : l.mode = .cover
  · obtain ⟨cur, hc⟩ := Option.ne_none_iff_exists'.1 h.current.1
    obtain ⟨cur', hc'⟩ := Option.ne_none_iff_exists'.1 h.current.2
    have hset : ∀ (l : Lexer) (cur : NodeId), l.mode = .cover → l.currentNode = some cur →
        l.array s = some { l with circuit := l.circuit.modNode cur fun nd =>
          { nd with cube := nd.cube ++ s ++ "\n" } } := by
      intro l cur hm hc
      unfold Lexer.array
      rw [if_pos hm, hc]
    have hnode : ∀ (c : Circuit) (cur n : NodeId), ((c.modNode cur fun nd =>
        { nd with cube := nd.cube ++ s ++ "\n" }).node n).name = (c.node n).name ∧
          ((c.modNode cur fun nd => { nd with cube := nd.cube ++ s ++ "\n" }).node n).inputs =
            (c.node n).inputs := by
      intro c cur n
      simp only [modNode_node]
      split_ifs <;> exact ⟨rfl, rfl⟩
    have hsame : ∀ (c : Circuit) (cur : NodeId) (t : String), faninCount (c.modNode cur fun nd =>
        { nd with cube := nd.cube ++ s ++ "\n" }) t = faninCount c t :=
      fun c cur => faninCount_congr rfl fun n _ => hnode c cur n
    have hl := hset l cur hm hc
    have hl' := hset l' cur' (h.mode ▸ hm) hc'
    refine ⟨_, _, hl, hl', ⟨hr.step_some (t := (8, s)) hl, hr'.step_some (t := (8, s)) hl'⟩, h.mode,
      h.current, ⟨M, ?_⟩, fun t => ?_⟩
    · refine ⟨hM.mem, fun a b hab => ?_, hM.inj, fun a b hab => ?_, hM.nodes, hM.current⟩
      · exact (hnode _ _ a).1.trans ((hM.name a b hab).trans (hnode _ _ b).1.symm)
      · obtain ⟨x, y, hx, hy, hxy⟩ := hM.seen a b hab
        exact ⟨x, y, (congrArg l.circuit.getNode (hnode _ _ a).1).trans hx,
          (congrArg l'.circuit.getNode (hnode _ _ a).1).trans hy, hxy⟩
    · have hcount := h.count t
      rw [← hsame l.circuit cur, ← hsame l'.circuit cur'] at hcount
      exact hcount
  · have hm' : l'.mode ≠ .cover := h.mode ▸ hm
    exact ⟨l, l', if_neg hm, if_neg hm', h⟩

/-- **One token**: both lexers take it, and stay as many fanins apart. -/
theorem step (t : Token) : ∃ l1 l1', l.step t = some l1 ∧ l'.step t = some l1' ∧ Twins d l1 l1' := by
  have hmode : ∀ m, Twins d { l with mode := m } { l' with mode := m } := by
    intro m
    obtain ⟨⟨r, hr⟩, r', hr'⟩ := h.reads
    obtain ⟨M, hM⟩ := h.paired
    exact ⟨⟨⟨_, hr.setMode m⟩, _, hr'.setMode m⟩, rfl, h.current,
      ⟨M, hM.mem, hM.name, hM.inj, hM.seen, hM.nodes, hM.current⟩, h.count⟩
  obtain ⟨rule, text⟩ := t
  match rule with
  | 1 => exact ⟨_, _, rfl, rfl, hmode .done⟩
  | 2 => exact ⟨_, _, rfl, rfl, hmode .model⟩
  | 3 => exact ⟨_, _, rfl, rfl, hmode .outputs⟩
  | 4 => exact ⟨_, _, rfl, rfl, hmode .inputs⟩
  | 5 => exact ⟨_, _, rfl, rfl, hmode .names⟩
  | 6 => exact ⟨_, _, h.id text⟩
  | 7 => exact h.newline
  | 8 => exact h.array text
  | 0 | _ + 9 => exact ⟨_, _, rfl, rfl, h⟩

/-- **A run**: both lexers read the text, and stay as many fanins apart. -/
theorem run (ts : List Token) : ∃ l1 l1', ts.foldlM Lexer.step l = some l1 ∧
    ts.foldlM Lexer.step l' = some l1' ∧ Twins d l1 l1' := by
  induction ts generalizing l l' with
  | nil => exact ⟨l, l', rfl, rfl, h⟩
  | cons t ts ih =>
    obtain ⟨l1, l1', h1, h1', h2⟩ := h.step t
    obtain ⟨l2, l2', h3, h3', h4⟩ := ih h2
    exact ⟨l2, l2', by rw [List.foldlM_cons, h1]; exact h3, by rw [List.foldlM_cons, h1']; exact h3', h4⟩

end Twins

end Msyn.Parser
