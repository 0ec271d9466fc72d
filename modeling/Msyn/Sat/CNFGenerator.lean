import Msyn.Circuit.Semantics
import Msyn.Lib.Cnf

/-!
# CNFs of netlists

`Abc2CNF2` numbers the nets of an ABC netlist and writes clauses for its nodes; `Finalize` caches
the indices of the nodes of the circuit. For the netlists that ABC delivers (`Netlist.Simple`) the
numbers are those below `numVars`, one for each net (`abc2Cnf2_spec`), and the models of the
clauses are the valuations of the netlist (`abc2Cnf2_sat`).
-/

namespace Msyn.CNFgen

open Nodecircuit Cnf

/-- A node of an ABC netlist: the names of its fanin nets and of its output net, and its SOP. -/
structure AbcNode where
  fanins : List String
  fanout : String
  data : String

/-- The netlist nodes that ABC delivers after strashing. -/
def AbcNode.Simple (nd : AbcNode) : Prop :=
  nd.fanins.Nodup ∧ nd.fanout ∉ nd.fanins ∧
    ((nd.fanins = [] ∧ nd.data ∈ [" 0\n", " 1\n"]) ∨
      ((∃ a, nd.fanins = [a]) ∧ nd.data ∈ ["1 1\n", "0 0\n", "0 1\n", "1 0\n"]) ∨
      ((∃ a b, nd.fanins = [a, b]) ∧ nd.data ∈ ["00 0\n", "00 1\n", "01 0\n", "01 1\n",
        "10 0\n", "10 1\n", "11 0\n", "11 1\n"]))

instance (nd : AbcNode) : Decidable nd.Simple :=
  decidable_of_iff (nd.fanins.Nodup ∧ nd.fanout ∉ nd.fanins ∧
    ((nd.fanins = [] ∧ nd.data ∈ [" 0\n", " 1\n"]) ∨
      (nd.fanins.length = 1 ∧ nd.data ∈ ["1 1\n", "0 0\n", "0 1\n", "1 0\n"]) ∨
      (nd.fanins.length = 2 ∧ nd.data ∈ ["00 0\n", "00 1\n", "01 0\n", "01 1\n",
        "10 0\n", "10 1\n", "11 0\n", "11 1\n"])))
    (by rw [AbcNode.Simple, List.length_eq_one_iff, List.length_eq_two])

/-- The nets of the primary inputs and outputs, and the nodes. -/
structure Netlist where
  pis : List String
  pos : List String
  nodes : List AbcNode

structure CNFGenerator where
  clauses : List (OrdMap Nat Bool) := []
  signals : AList (fun _ : String => Nat) := ∅
  cacheString : AList (fun _ : String => Nat) := ∅
  cacheNode : AList (fun _ : NodeId => Nat) := ∅

/-- The character `s[i]` of a C string; the terminator where the string ends. -/
def charAt (s : String) (i : Nat) : Char := s.toList.getD i '\x00'

def sopIsConst1 (s : String) : Bool := charAt s 0 = ' ' && charAt s 1 = '1'

def sopIsBuf (s : String) : Bool :=
  if charAt s 4 ≠ '\x00' then false
  else (charAt s 0 = '1' && charAt s 2 = '1') || (charAt s 0 = '0' && charAt s 2 = '0')

namespace CNFGenerator

def numVars (g : CNFGenerator) : Nat := g.signals.entries.length

/-- `signals.insert({name, index})`: the index of the name and the next index. -/
def insert (g : CNFGenerator) (index : Nat) (name : String) : Nat × CNFGenerator × Nat :=
  match g.signals.lookup name with
  | none => (index, { g with signals := g.signals.insert name index }, index + 1)
  | some i => (i, g, index)

/-- The loop over the fanins of a node: their indices. -/
def insertAll : List String → CNFGenerator → Nat → List Nat × CNFGenerator × Nat
  | [], g, index => ([], g, index)
  | name :: names, g, index =>
    let (i, g, index) := g.insert index name
    let (is, g, index) := insertAll names g index
    (i :: is, g, index)

/-- The clauses of a node. -/
def nodeClauses (data : String) (iIn : List Nat) (iOut : Nat) : List (OrdMap Nat Bool) :=
  match iIn with
  | [] => [(∅ : OrdMap Nat Bool).set iOut (if sopIsConst1 data then true else false)]
  | [i] =>
    if sopIsBuf data then
      [((∅ : OrdMap Nat Bool).set iOut true).set i false,
        ((∅ : OrdMap Nat Bool).set iOut false).set i true]
    else
      [((∅ : OrdMap Nat Bool).set iOut false).set i false,
        ((∅ : OrdMap Nat Bool).set iOut true).set i true]
  | [i, j] =>
    -- `buffer[k] - '0'`, read as a `bool`
    let l0 := charAt data 0 != '0'
    let l1 := charAt data 1 != '0'
    let l2 := charAt data 3 != '0'
    [(((∅ : OrdMap Nat Bool).set i (!l0)).set j (!l1)).set iOut l2,
      ((∅ : OrdMap Nat Bool).set i l0).set iOut (!l2),
      ((∅ : OrdMap Nat Bool).set j l1).set iOut (!l2)]
  | _ => []

/-- The body of the loop over the nodes. -/
def addNode (s : CNFGenerator × Nat) (nd : AbcNode) : CNFGenerator × Nat :=
  let (iIn, g, index) := insertAll nd.fanins s.1 s.2
  let (iOut, g, index) := g.insert index nd.fanout
  ({ g with clauses := g.clauses ++ nodeClauses nd.data iIn iOut }, index)

/-- `Abc2CNF2` on a new generator. -/
def abc2Cnf2 (ntk : Netlist) : CNFGenerator :=
  let s := (insertAll ntk.pis {} 0).2
  let s := (insertAll ntk.pos s.1 s.2).2
  (ntk.nodes.foldl addNode s).1

/-- `GetIndex(name)`. -/
def getIndex (g : CNFGenerator) (name : String) : Int :=
  match g.cacheString.lookup name with
  | some i => i
  | none =>
    match g.signals.lookup name with
    | some i => i
    | none => -1

/-- `GetIndex(node)` of a node with the given name. -/
def getIndexNode (g : CNFGenerator) (nd : NodeId) (name : String) : Int :=
  match g.cacheNode.lookup nd with
  | some i => i
  | none => g.getIndex name

/-- `cache_Node[nd] = signals[nd->name]; cache_string[nd->name] = signals[nd->name];`, where
`signals[..]` enters an unknown name with the index 0. -/
def cache (c : Circuit) (g : CNFGenerator) (nd : NodeId) : CNFGenerator :=
  let name := (c.node nd).name
  let g := match g.signals.lookup name with
    | some _ => g
    | none => { g with signals := g.signals.insert name 0 }
  let i := (g.signals.lookup name).getD 0
  { g with
    cacheNode := g.cacheNode.insert nd i
    cacheString := g.cacheString.insert name i }

/-- `Finalize`. -/
def finalize (c : Circuit) (exIn exOut : List NodeId) (g : CNFGenerator) : CNFGenerator :=
  (c.inputs ++ c.outputs ++ exIn ++ exOut).foldl (cache c) g

/-- `Init`; `abc` is the netlist that ABC makes of the circuit with the nodes `exIn` as primary
inputs and `exOut` as primary outputs. -/
def init (abc : Circuit → List NodeId → List NodeId → Netlist) (c : Circuit)
    (exIn exOut : List NodeId) : CNFGenerator :=
  (abc2Cnf2 (abc c exIn exOut)).finalize c exIn exOut

/-! ## The numbering -/

/-- The indices in use are those below `index`, one for each name. -/
structure Numbered (g : CNFGenerator) (index : Nat) : Prop where
  size : g.numVars = index
  lt : ∀ a i, g.signals.lookup a = some i → i < index
  inj : ∀ a b i, g.signals.lookup a = some i → g.signals.lookup b = some i → a = b
  onto : ∀ i < index, ∃ a, g.signals.lookup a = some i

theorem Numbered.start : Numbered {} 0 where
  size := rfl
  lt a i h := by cases h
  inj a b i h := by cases h
  onto i h := by omega

/-- `insert` returns the index of the name and keeps the others. -/
structure Inserted (g g' : CNFGenerator) (index index' : Nat) (names : List String) : Prop where
  numbered : Numbered g' index'
  old : ∀ a i, g.signals.lookup a = some i → g'.signals.lookup a = some i
  dom : ∀ a, (g'.signals.lookup a).isSome ↔ (g.signals.lookup a).isSome ∨ a ∈ names
  rest : g' = { g with signals := g'.signals }

theorem insert_spec {g : CNFGenerator} {index : Nat} (h : Numbered g index) (name : String) :
    Inserted g (g.insert index name).2.1 index (g.insert index name).2.2 [name] ∧
      (g.insert index name).2.1.signals.lookup name = some (g.insert index name).1 := by
  unfold insert
  cases hl : g.signals.lookup name with
  | some i =>
    refine ⟨⟨h, fun a j => id, fun a => ⟨.inl, ?_⟩, rfl⟩, hl⟩
    rintro (h1 | h1)
    · exact h1
    · rw [List.mem_singleton.1 h1, hl]; rfl
  | none =>
    have hlook : ∀ a, (g.signals.insert name index).lookup a =
        if a = name then some index else g.signals.lookup a := by
      intro a
      by_cases ha : a = name
      · rw [ha, if_pos rfl, AList.lookup_insert]
      · rw [if_neg ha, AList.lookup_insert_ne ha]
    refine ⟨⟨⟨?_, fun a i hi => ?_, fun a b i ha hb => ?_, fun i hi => ?_⟩, fun a i hi => ?_,
      fun a => ?_, rfl⟩, ?_⟩
    · have hnm : name ∉ g.signals := AList.lookup_eq_none.1 hl
      rw [numVars, AList.entries_insert_of_notMem hnm, List.length_cons, ← h.size]
      rfl
    · rw [hlook] at hi
      split at hi
      · cases hi; exact Nat.lt_succ_self _
      · exact Nat.lt_succ_of_lt (h.lt a i hi)
    · rw [hlook] at ha hb
      split at ha <;> split at hb
      · rename_i h1 h2; rw [h1, h2]
      · cases ha; exact absurd (h.lt b _ hb) (Nat.lt_irrefl _)
      · cases hb; exact absurd (h.lt a _ ha) (Nat.lt_irrefl _)
      · exact h.inj a b i ha hb
    · rcases Nat.lt_succ_iff_lt_or_eq.1 hi with hi | rfl
      · obtain ⟨a, ha⟩ := h.onto i hi
        refine ⟨a, ?_⟩
        rw [hlook, if_neg fun he => ?_]
        · exact ha
        · rw [he, hl] at ha; cases ha
      · exact ⟨name, by rw [hlook, if_pos rfl]⟩
    · rw [hlook, if_neg fun he => ?_]
      · exact hi
      · rw [he, hl] at hi; cases hi
    · rw [hlook, List.mem_singleton]
      by_cases ha : a = name
      · simp [ha]
      · simp [ha]
    · rw [hlook, if_pos rfl]

theorem Inserted.trans {g g1 g2 : CNFGenerator} {i i1 i2 : Nat} {ns ns' : List String}
    (h : Inserted g g1 i i1 ns) (h' : Inserted g1 g2 i1 i2 ns') : Inserted g g2 i i2 (ns ++ ns') where
  numbered := h'.numbered
  old a j hj := h'.old a j (h.old a j hj)
  dom a := by rw [h'.dom, h.dom, List.mem_append, or_assoc]
  rest := by rw [h'.rest, h.rest]

theorem insertAll_spec : ∀ (names : List String) {g : CNFGenerator} {index : Nat},
    Numbered g index →
    Inserted g (insertAll names g index).2.1 index (insertAll names g index).2.2 names ∧
      names.map (insertAll names g index).2.1.signals.lookup =
        (insertAll names g index).1.map some
  | [], g, index, h => ⟨⟨h, fun _ _ => id, fun a => by simp [insertAll], rfl⟩, rfl⟩
  | name :: names, g, index, h => by
    obtain ⟨h1, h2⟩ := insert_spec h name
    obtain ⟨h3, h4⟩ := insertAll_spec names h1.numbered
    refine ⟨h1.trans h3, ?_⟩
    rw [insertAll]
    simp only [List.map_cons, h4, List.cons.injEq, and_true]
    exact h3.old _ _ h2

/-! ## The clauses of a node -/

theorem exists_mem_entries {m : OrdMap Nat Bool} {v : Model} :
    (∃ l ∈ m.entries, v l.1 = l.2) ↔ ∃ k, m.find k = some (v k) := by
  constructor
  · rintro ⟨⟨k, b⟩, hl, hv⟩
    exact ⟨k, by rw [hv]; exact OrdMap.mem_entries.1 hl⟩
  · rintro ⟨k, hk⟩
    exact ⟨(k, v k), OrdMap.mem_entries.2 hk, rfl⟩

theorem sat_clause1 {v : Model} {a : Nat} {x : Bool} :
    (∃ l ∈ ((∅ : OrdMap Nat Bool).set a x).entries, v l.1 = l.2) ↔ v a = x := by
  rw [exists_mem_entries]
  simp only [OrdMap.find_set, OrdMap.find_empty]
  constructor
  · rintro ⟨k, hk⟩
    split at hk
    · rename_i h; rw [← h]; exact (Option.some.inj hk).symm
    · cases hk
  · rintro rfl
    exact ⟨a, if_pos rfl⟩

theorem sat_clause2 {v : Model} {a b : Nat} {x y : Bool} (hab : a ≠ b) :
    (∃ l ∈ (((∅ : OrdMap Nat Bool).set a x).set b y).entries, v l.1 = l.2) ↔
      v a = x ∨ v b = y := by
  rw [exists_mem_entries]
  simp only [OrdMap.find_set, OrdMap.find_empty]
  constructor
  · rintro ⟨k, hk⟩
    split at hk
    · rename_i h; rw [← h]; exact .inr (Option.some.inj hk).symm
    · split at hk
      · rename_i h; rw [← h]; exact .inl (Option.some.inj hk).symm
      · cases hk
  · rintro (rfl | rfl)
    · exact ⟨a, by rw [if_neg hab, if_pos rfl]⟩
    · exact ⟨b, if_pos rfl⟩

theorem sat_clause3 {v : Model} {a b d : Nat} {x y z : Bool} (hab : a ≠ b) (had : a ≠ d)
    (hbd : b ≠ d) :
    (∃ l ∈ ((((∅ : OrdMap Nat Bool).set a x).set b y).set d z).entries, v l.1 = l.2) ↔
      v a = x ∨ v b = y ∨ v d = z := by
  rw [exists_mem_entries]
  simp only [OrdMap.find_set, OrdMap.find_empty]
  constructor
  · rintro ⟨k, hk⟩
    split at hk
    · rename_i h; rw [← h]; exact .inr (.inr (Option.some.inj hk).symm)
    · split at hk
      · rename_i h; rw [← h]; exact .inr (.inl (Option.some.inj hk).symm)
      · split at hk
        · rename_i h; rw [← h]; exact .inl (Option.some.inj hk).symm
        · cases hk
  · rintro (rfl | rfl | rfl)
    · exact ⟨a, by rw [if_neg had, if_neg hab, if_pos rfl]⟩
    · exact ⟨b, by rw [if_neg hbd, if_pos rfl]⟩
    · exact ⟨d, if_pos rfl⟩

/-- The clauses as lists of literals. -/
def cnf (g : CNFGenerator) : List Clause := g.clauses.map (·.entries)

/-- **The clauses of a node** hold exactly if its output has the value of its SOP. -/
theorem nodeClauses_sat {nd : AbcNode} (h : nd.Simple) {f : String → Nat}
    (hf : ∀ a ∈ nd.fanout :: nd.fanins, ∀ b ∈ nd.fanout :: nd.fanins, f a = f b → a = b)
    {v : Model} :
    Sat v ((nodeClauses nd.data (nd.fanins.map f) (f nd.fanout)).map (·.entries)) ↔
      v (f nd.fanout) = evalCube nd.data (nd.fanins.map fun a => v (f a)) := by
  obtain ⟨hnd, hout, ⟨hin, hdata⟩ | ⟨⟨a, hin⟩, hdata⟩ | ⟨⟨a, b, hin⟩, hdata⟩⟩ := h
  · rw [hin]
    simp only [List.map_nil, nodeClauses, List.map_cons, sat_cons, sat_clause1, sat_nil, and_true]
    have : ∀ d ∈ [" 0\n", " 1\n"],
        (if sopIsConst1 d = true then true else false) = evalCube d [] := by decide
    rw [this nd.data hdata]
  · rw [hin] at hout hf
    have hne : f nd.fanout ≠ f a := fun he => hout (by
      rw [hf _ (by simp) _ (by simp) he]; simp)
    have hsop : ∀ d ∈ ["1 1\n", "0 0\n", "0 1\n", "1 0\n"], ∀ x,
        evalCube d [x] = if sopIsBuf d then x else !x := by decide
    rw [hin, List.map_singleton, List.map_singleton, hsop nd.data hdata]
    simp only [nodeClauses]
    split
    · simp only [List.map_cons, List.map_nil, sat_cons, sat_clause2 hne, sat_nil, and_true]
      cases v (f nd.fanout) <;> cases v (f a) <;> decide
    · simp only [List.map_cons, List.map_nil, sat_cons, sat_clause2 hne, sat_nil, and_true]
      cases v (f nd.fanout) <;> cases v (f a) <;> decide
  · rw [hin] at hout hf hnd
    have hab : f a ≠ f b := fun he => by
      have := hf _ (by simp) _ (by simp) he
      simp [this] at hnd
    have hao : f a ≠ f nd.fanout := fun he => hout (by
      rw [← hf _ (by simp) _ (by simp) he]; simp)
    have hbo : f b ≠ f nd.fanout := fun he => hout (by
      rw [← hf _ (by simp) _ (by simp) he]; simp)
    have hsop : ∀ d ∈ ["00 0\n", "00 1\n", "01 0\n", "01 1\n", "10 0\n", "10 1\n", "11 0\n",
        "11 1\n"], ∀ x y, evalCube d [x, y] =
        if x = (charAt d 0 != '0') ∧ y = (charAt d 1 != '0') then charAt d 3 != '0'
        else !(charAt d 3 != '0') := by decide
    rw [hin]
    simp only [List.map_cons, List.map_nil, hsop nd.data hdata, nodeClauses, sat_cons,
      sat_clause3 hab hao hbo, sat_clause2 hao, sat_clause2 hbo, sat_nil, and_true]
    generalize (charAt nd.data 0 != '0') = l0
    generalize (charAt nd.data 1 != '0') = l1
    generalize (charAt nd.data 3 != '0') = l2
    generalize v (f nd.fanout) = o
    generalize v (f a) = x
    generalize v (f b) = y
    revert o x y l0 l1 l2
    decide

theorem nodeClauses_vars {data : String} {iIn : List Nat} {iOut : Nat} {m : OrdMap Nat Bool}
    (hm : m ∈ nodeClauses data iIn iOut) {k : Nat} (hk : k ∈ m.keys) : k = iOut ∨ k ∈ iIn := by
  have hempty : (∅ : OrdMap Nat Bool).keys = [] := rfl
  unfold nodeClauses at hm
  split at hm
  · rw [List.mem_singleton] at hm
    subst hm
    simp only [OrdMap.mem_keys_set, hempty, List.not_mem_nil, or_false] at hk
    exact .inl hk
  · split at hm <;>
    · simp only [List.mem_cons, List.not_mem_nil, or_false] at hm
      rcases hm with rfl | rfl <;>
        simp only [OrdMap.mem_keys_set, hempty, List.not_mem_nil, or_false] at hk <;>
        simp only [List.mem_singleton] <;> exact hk.symm
  · simp only [List.mem_cons, List.not_mem_nil, or_false] at hm
    rcases hm with rfl | rfl | rfl <;>
      simp only [OrdMap.mem_keys_set, hempty, List.not_mem_nil, or_false] at hk <;>
      simp only [List.mem_cons, List.not_mem_nil, or_false] <;> tauto
  · cases hm

/-! ## The netlist -/

/-- The index of a name that has one. -/
def idx (g : CNFGenerator) (name : String) : Nat := (g.signals.lookup name).getD 0

theorem idx_eq {g : CNFGenerator} {name : String} {i : Nat} (h : g.signals.lookup name = some i) :
    g.idx name = i := by rw [idx, h]; rfl

/-- What the loop over the nodes does. -/
structure Encoded (g g' : CNFGenerator) (index index' : Nat) (nodes : List AbcNode) : Prop where
  numbered : Numbered g' index'
  old : ∀ a i, g.signals.lookup a = some i → g'.signals.lookup a = some i
  dom : ∀ a, (g'.signals.lookup a).isSome ↔
    (g.signals.lookup a).isSome ∨ ∃ nd ∈ nodes, a ∈ nd.fanout :: nd.fanins
  clauses : g'.clauses = g.clauses ++ nodes.flatMap fun nd =>
    nodeClauses nd.data (nd.fanins.map g'.idx) (g'.idx nd.fanout)

theorem addNode_spec {g : CNFGenerator} {index : Nat} (h : Numbered g index) (nd : AbcNode) :
    Encoded g (addNode (g, index) nd).1 index (addNode (g, index) nd).2 [nd] := by
  obtain ⟨h1, h2⟩ := insertAll_spec nd.fanins h
  obtain ⟨h3, h4⟩ := insert_spec h1.numbered nd.fanout
  have h5 := h1.trans h3
  set iIn := (insertAll nd.fanins g index).1 with hiIn
  set g1 := (insertAll nd.fanins g index).2.1 with hg1
  set i1 := (insertAll nd.fanins g index).2.2 with hi1
  set g2 := (g1.insert i1 nd.fanout).2.1 with hg2
  have hadd : addNode (g, index) nd =
      ({ g2 with clauses := g2.clauses ++ nodeClauses nd.data iIn (g1.insert i1 nd.fanout).1 },
        (g1.insert i1 nd.fanout).2.2) := rfl
  have hin : nd.fanins.map g2.idx = iIn := by
    have : iIn.map some = nd.fanins.map g2.signals.lookup := by
      rw [← h2]
      refine List.map_congr_left fun a ha => ?_
      have ha' : (g1.signals.lookup a).isSome := (h1.dom a).2 (.inr ha)
      obtain ⟨i, hi⟩ := Option.isSome_iff_exists.1 ha'
      rw [hi, h3.old a i hi]
    have h6 : iIn = (iIn.map some).map (·.getD 0) := by simp
    rw [h6, this, List.map_map]
    rfl
  rw [hadd]
  refine ⟨⟨h5.numbered.size, h5.numbered.lt, h5.numbered.inj, h5.numbered.onto⟩, h5.old,
    fun a => ?_, ?_⟩
  · simp [h5.dom a, or_comm]
  · have : g2.clauses = g.clauses := by rw [h5.rest]
    rw [List.flatMap_singleton, this, ← hin, ← idx_eq h4]
    rfl

theorem Encoded.trans {g g1 g2 : CNFGenerator} {i i1 i2 : Nat} {ns ns' : List AbcNode}
    (h : Encoded g g1 i i1 ns) (h' : Encoded g1 g2 i1 i2 ns') : Encoded g g2 i i2 (ns ++ ns') where
  numbered := h'.numbered
  old a j hj := h'.old a j (h.old a j hj)
  dom a := by
    rw [h'.dom, h.dom]
    simp only [List.mem_append, or_and_right, exists_or, or_assoc]
  clauses := by
    have : ∀ a ∈ ns.flatMap fun nd => nd.fanout :: nd.fanins, g2.idx a = g1.idx a := by
      intro a ha
      obtain ⟨nd, hnd, ha⟩ := List.mem_flatMap.1 ha
      obtain ⟨j, hj⟩ := Option.isSome_iff_exists.1 ((h.dom a).2 (.inr ⟨nd, hnd, ha⟩))
      rw [idx_eq hj, idx_eq (h'.old a j hj)]
    rw [h'.clauses, h.clauses, List.flatMap_append, List.append_assoc]
    congr 2
    refine List.flatMap_congr fun nd hnd => ?_
    have hmem : ∀ a ∈ nd.fanout :: nd.fanins, g2.idx a = g1.idx a := fun a ha =>
      this a (List.mem_flatMap.2 ⟨nd, hnd, ha⟩)
    rw [hmem nd.fanout (by simp), List.map_congr_left fun a ha =>
      hmem a (List.mem_cons_of_mem _ ha)]

theorem addNodes_spec : ∀ (nodes : List AbcNode) {g : CNFGenerator} {index : Nat},
    Numbered g index →
    Encoded g (nodes.foldl addNode (g, index)).1 index (nodes.foldl addNode (g, index)).2 nodes
  | [], g, index, h => ⟨h, fun _ _ => id, fun a => by simp, by simp⟩
  | nd :: nodes, g, index, h => by
    have h1 := addNode_spec h nd
    exact h1.trans (addNodes_spec nodes h1.numbered)

end CNFGenerator

/-- The names of the nets. -/
def Netlist.nets (ntk : Netlist) : List String :=
  ntk.pis ++ ntk.pos ++ ntk.nodes.flatMap fun nd => nd.fanout :: nd.fanins

/-- Every node is as ABC delivers it after strashing. -/
def Netlist.Simple (ntk : Netlist) : Prop := ∀ nd ∈ ntk.nodes, nd.Simple

instance (ntk : Netlist) : Decidable ntk.Simple :=
  inferInstanceAs (Decidable (∀ nd ∈ ntk.nodes, nd.Simple))

/-- Every node has the value of its SOP. -/
def Netlist.Valuation (ntk : Netlist) (v : String → Bool) : Prop :=
  ∀ nd ∈ ntk.nodes, v nd.fanout = evalCube nd.data (nd.fanins.map v)

namespace CNFGenerator

theorem abc2Cnf2_spec (ntk : Netlist) :
    Numbered (abc2Cnf2 ntk) (abc2Cnf2 ntk).numVars ∧
      (∀ a, ((abc2Cnf2 ntk).signals.lookup a).isSome ↔ a ∈ ntk.nets) ∧
      (abc2Cnf2 ntk).clauses = ntk.nodes.flatMap fun nd =>
        nodeClauses nd.data (nd.fanins.map (abc2Cnf2 ntk).idx) ((abc2Cnf2 ntk).idx nd.fanout) := by
  obtain ⟨h1, -⟩ := insertAll_spec ntk.pis Numbered.start
  obtain ⟨h2, -⟩ := insertAll_spec ntk.pos h1.numbered
  have h3 := addNodes_spec ntk.nodes h2.numbered
  have h4 := h1.trans h2
  refine ⟨?_, fun a => ?_, ?_⟩
  · have := h3.numbered
    rw [← this.size] at this
    exact this
  · refine (h3.dom a).trans ?_
    rw [h4.dom a, Netlist.nets]
    simp [or_assoc]
  · have h5 : (insertAll ntk.pos (insertAll ntk.pis {} 0).2.1 (insertAll ntk.pis {} 0).2.2).2.1.clauses
        = [] := by rw [h4.rest]
    refine h3.clauses.trans ?_
    rw [h5]
    rfl

section
variable {ntk : Netlist}

theorem idx_lt {a : String} (ha : a ∈ ntk.nets) :
    (abc2Cnf2 ntk).idx a < (abc2Cnf2 ntk).numVars := by
  obtain ⟨h1, h2, -⟩ := abc2Cnf2_spec ntk
  obtain ⟨i, hi⟩ := Option.isSome_iff_exists.1 ((h2 a).2 ha)
  rw [idx_eq hi]
  exact h1.lt a i hi

theorem idx_inj {a b : String} (ha : a ∈ ntk.nets) (hb : b ∈ ntk.nets)
    (h : (abc2Cnf2 ntk).idx a = (abc2Cnf2 ntk).idx b) : a = b := by
  obtain ⟨h1, h2, -⟩ := abc2Cnf2_spec ntk
  obtain ⟨i, hi⟩ := Option.isSome_iff_exists.1 ((h2 a).2 ha)
  obtain ⟨j, hj⟩ := Option.isSome_iff_exists.1 ((h2 b).2 hb)
  rw [idx_eq hi, idx_eq hj] at h
  exact h1.inj a b i hi (h ▸ hj)

theorem mem_nets {nd : AbcNode} (hnd : nd ∈ ntk.nodes) {a : String}
    (ha : a ∈ nd.fanout :: nd.fanins) : a ∈ ntk.nets :=
  List.mem_append_right _ (List.mem_flatMap.2 ⟨nd, hnd, ha⟩)

/-- Every variable of the clauses is the index of a net. -/
theorem abc2Cnf2_below : Below (abc2Cnf2 ntk).numVars (abc2Cnf2 ntk).cnf := by
  obtain ⟨-, -, h3⟩ := abc2Cnf2_spec ntk
  intro c hc l hl
  rw [cnf, h3] at hc
  obtain ⟨m, hm, rfl⟩ := List.mem_map.1 hc
  obtain ⟨nd, hnd, hm⟩ := List.mem_flatMap.1 hm
  have hk : l.1 ∈ m.keys := List.mem_map_of_mem hl
  rcases nodeClauses_vars hm hk with h | h
  · rw [h]
    exact idx_lt (mem_nets hnd (by simp))
  · obtain ⟨a, ha, he⟩ := List.mem_map.1 h
    rw [← he]
    exact idx_lt (mem_nets hnd (by simp [ha]))

/-- **The models of the clauses are the valuations of the netlist.** -/
theorem abc2Cnf2_sat (hs : ntk.Simple) {v : Model} :
    Sat v (abc2Cnf2 ntk).cnf ↔ ntk.Valuation fun a => v ((abc2Cnf2 ntk).idx a) := by
  obtain ⟨-, -, h3⟩ := abc2Cnf2_spec ntk
  have key : ∀ nodes : List AbcNode, (∀ nd ∈ nodes, nd ∈ ntk.nodes) →
      (Sat v ((nodes.flatMap fun nd => nodeClauses nd.data (nd.fanins.map (abc2Cnf2 ntk).idx)
        ((abc2Cnf2 ntk).idx nd.fanout)).map (·.entries)) ↔
      ∀ nd ∈ nodes, v ((abc2Cnf2 ntk).idx nd.fanout) =
        evalCube nd.data (nd.fanins.map fun a => v ((abc2Cnf2 ntk).idx a))) := by
    intro nodes
    induction nodes with
    | nil => simp
    | cons nd nodes ih =>
      intro hsub
      have hnd := hsub nd (by simp)
      rw [List.flatMap_cons, List.map_append, sat_append, ih fun n hn => hsub n (by simp [hn]),
        nodeClauses_sat (hs nd hnd) fun a ha b hb h =>
          idx_inj (mem_nets hnd ha) (mem_nets hnd hb) h]
      simp
  rw [cnf, h3, key ntk.nodes fun _ => id]
  rfl

end

/-! ## Finalize -/

/-- The caches hold indices of `signals`, and old names keep theirs. -/
structure Cached (c : Circuit) (g g' : CNFGenerator) : Prop where
  old : ∀ a i, g.signals.lookup a = some i → g'.signals.lookup a = some i
  string : ∀ a i, g'.cacheString.lookup a = some i → g'.signals.lookup a = some i
  node : ∀ n i, g'.cacheNode.lookup n = some i → g'.signals.lookup (c.node n).name = some i
  clauses : g'.clauses = g.clauses

theorem cache_spec {c : Circuit} {g g' : CNFGenerator} (h : Cached c g g') (nd : NodeId) :
    Cached c g (cache c g' nd) := by
  set name := (c.node nd).name with hname
  obtain ⟨i, hi, hold, he⟩ : ∃ i, ((cache c g' nd).signals.lookup name = some i) ∧
      (∀ a j, g'.signals.lookup a = some j → (cache c g' nd).signals.lookup a = some j) ∧
      cache c g' nd = { g' with
        signals := (cache c g' nd).signals
        cacheNode := g'.cacheNode.insert nd i
        cacheString := g'.cacheString.insert name i } := by
    cases hl : g'.signals.lookup name with
    | some j =>
      have he : cache c g' nd = { g' with
          cacheNode := g'.cacheNode.insert nd j
          cacheString := g'.cacheString.insert name j } := by
        rw [hname] at hl ⊢
        simp only [cache, hl, Option.getD_some]
      refine ⟨j, ?_⟩
      rw [he]
      exact ⟨hl, fun _ _ => id, rfl⟩
    | none =>
      have he : cache c g' nd = { g' with
          signals := g'.signals.insert name 0
          cacheNode := g'.cacheNode.insert nd 0
          cacheString := g'.cacheString.insert name 0 } := by
        rw [hname] at hl ⊢
        simp only [cache, hl, AList.lookup_insert, Option.getD_some]
      refine ⟨0, ?_⟩
      rw [he]
      refine ⟨AList.lookup_insert _, fun a j hj => ?_, rfl⟩
      have ha : a ≠ name := fun ha => by rw [ha, hl] at hj; cases hj
      rw [← hj]
      exact AList.lookup_insert_ne ha
  refine ⟨fun a j hj => hold a j (h.old a j hj), fun a j hj => ?_, fun n j hj => ?_, ?_⟩
  · rw [he] at hj
    simp only at hj
    by_cases ha : a = name
    · rw [ha, AList.lookup_insert] at hj
      rw [ha, hi, hj]
    · rw [AList.lookup_insert_ne ha] at hj
      exact hold a j (h.string a j hj)
  · rw [he] at hj
    simp only at hj
    by_cases hn : n = nd
    · rw [hn, AList.lookup_insert] at hj
      rw [hn, ← hname, hi, hj]
    · rw [AList.lookup_insert_ne hn] at hj
      exact hold _ j (h.node n j hj)
  · rw [he]
    exact h.clauses

theorem finalize_spec {c : Circuit} {g : CNFGenerator} (hs : g.cacheString = ∅)
    (hn : g.cacheNode = ∅) (exIn exOut : List NodeId) :
    Cached c g (g.finalize c exIn exOut) := by
  have h0 : Cached c g g := by
    refine ⟨fun _ _ => id, fun a i h => ?_, fun n i h => ?_, rfl⟩
    · rw [hs] at h
      cases h
    · rw [hn] at h
      cases h
  unfold finalize
  generalize c.inputs ++ c.outputs ++ exIn ++ exOut = l
  have key : ∀ (l : List NodeId) (g' : CNFGenerator), Cached c g g' →
      Cached c g (l.foldl (cache c) g') := by
    intro l
    induction l with
    | nil => exact fun _ => id
    | cons nd l ih => exact fun g' h => ih _ (cache_spec h nd)
  exact key l g h0

theorem Cached.getIndex {c : Circuit} {g g' : CNFGenerator} (h : Cached c g g') {a : String}
    {i : Nat} (ha : g.signals.lookup a = some i) : g'.getIndex a = i := by
  have h1 := h.old a i ha
  unfold CNFGenerator.getIndex
  cases hl : g'.cacheString.lookup a with
  | none => simp only [h1]
  | some j =>
    have := h.string a j hl
    rw [h1] at this
    cases this
    rfl

theorem Cached.getIndexNode {c : Circuit} {g g' : CNFGenerator} (h : Cached c g g') {n : NodeId}
    {i : Nat} (ha : g.signals.lookup (c.node n).name = some i) :
    g'.getIndexNode n (c.node n).name = i := by
  unfold CNFGenerator.getIndexNode
  cases hl : g'.cacheNode.lookup n with
  | none => exact h.getIndex ha
  | some j =>
    have := h.node n j hl
    rw [h.old _ _ ha] at this
    cases this
    rfl

theorem abc2Cnf2_caches (ntk : Netlist) :
    (abc2Cnf2 ntk).cacheString = ∅ ∧ (abc2Cnf2 ntk).cacheNode = ∅ := by
  have hins : ∀ (names : List String) (g : CNFGenerator) (index : Nat),
      (insertAll names g index).2.1.cacheString = g.cacheString ∧
        (insertAll names g index).2.1.cacheNode = g.cacheNode := by
    intro names
    induction names with
    | nil => exact fun _ _ => ⟨rfl, rfl⟩
    | cons a names ih =>
      intro g index
      have h1 : (g.insert index a).2.1.cacheString = g.cacheString ∧
          (g.insert index a).2.1.cacheNode = g.cacheNode := by
        unfold insert
        split <;> exact ⟨rfl, rfl⟩
      obtain ⟨h2, h3⟩ := ih (g.insert index a).2.1 (g.insert index a).2.2
      exact ⟨h2.trans h1.1, h3.trans h1.2⟩
  have hone : ∀ (g : CNFGenerator) (index : Nat) (a : String),
      (g.insert index a).2.1.cacheString = g.cacheString ∧
        (g.insert index a).2.1.cacheNode = g.cacheNode := by
    intro g index a
    unfold insert
    split <;> exact ⟨rfl, rfl⟩
  have hnodes : ∀ (nodes : List AbcNode) (s : CNFGenerator × Nat),
      (nodes.foldl addNode s).1.cacheString = s.1.cacheString ∧
        (nodes.foldl addNode s).1.cacheNode = s.1.cacheNode := by
    intro nodes
    induction nodes with
    | nil => exact fun _ => ⟨rfl, rfl⟩
    | cons nd nodes ih =>
      intro s
      obtain ⟨h1, h2⟩ := ih (addNode s nd)
      obtain ⟨h3, h4⟩ := hins nd.fanins s.1 s.2
      obtain ⟨h5, h6⟩ := hone (insertAll nd.fanins s.1 s.2).2.1 (insertAll nd.fanins s.1 s.2).2.2
        nd.fanout
      exact ⟨h1.trans (h5.trans h3), h2.trans (h6.trans h4)⟩
  obtain ⟨h1, h2⟩ := hnodes ntk.nodes (insertAll ntk.pos (insertAll ntk.pis {} 0).2.1
    (insertAll ntk.pis {} 0).2.2).2
  obtain ⟨h3, h4⟩ := hins ntk.pos (insertAll ntk.pis {} 0).2.1 (insertAll ntk.pis {} 0).2.2
  obtain ⟨h5, h6⟩ := hins ntk.pis {} 0
  exact ⟨h1.trans (h3.trans h5), h2.trans (h4.trans h6)⟩

/-! ## Lookups -/

/-- The index maps know the name. -/
def Known (g : CNFGenerator) (name : String) : Prop := ∃ i < g.numVars, g.getIndex name = i

/-- The index of a name that the maps know. -/
def var (g : CNFGenerator) (name : String) : Nat := (g.getIndex name).toNat

section
variable {g : CNFGenerator} {name : String}

theorem Known.getIndex (h : g.Known name) : g.getIndex name = g.var name := by
  obtain ⟨i, -, hi⟩ := h
  rw [var, hi]
  rfl

theorem Known.lt (h : g.Known name) : g.var name < g.numVars := by
  obtain ⟨i, hlt, hi⟩ := h
  rwa [var, hi]

theorem Known.natAbs (h : g.Known name) : (g.getIndex name).natAbs = g.var name := by
  rw [h.getIndex]
  rfl

theorem Known.natAbs_add (h : g.Known name) (k : Nat) :
    (g.getIndex name + (k : Int)).natAbs = g.var name + k := by
  rw [h.getIndex]
  omega

end

/-- **`Abc2CNF2` is a faithful encoding**, and `Finalize` keeps its numbering. -/
theorem abc2Cnf2_faithful (ntk : Netlist) (hs : ntk.Simple) :
    let g := abc2Cnf2 ntk
    (∀ a, (g.signals.lookup a).isSome ↔ a ∈ ntk.nets) ∧
    (∀ a i, g.signals.lookup a = some i → i < g.numVars) ∧
    (∀ a b i, g.signals.lookup a = some i → g.signals.lookup b = some i → a = b) ∧
    (∀ i < g.numVars, ∃ a, g.signals.lookup a = some i) ∧
    Below g.numVars g.cnf ∧
    (∀ v : Model, Sat v g.cnf ↔ ntk.Valuation fun a => v (g.idx a)) ∧
    ∀ (c : Circuit) (exIn exOut : List NodeId),
      ∀ nd ∈ c.inputs ++ c.outputs ++ exIn ++ exOut, ∀ i,
        g.signals.lookup (c.node nd).name = some i →
        (g.finalize c exIn exOut).getIndexNode nd (c.node nd).name = i ∧
          (g.finalize c exIn exOut).getIndex (c.node nd).name = i := by
  obtain ⟨h1, h2, -⟩ := abc2Cnf2_spec ntk
  obtain ⟨h3, h4⟩ := abc2Cnf2_caches ntk
  refine ⟨h2, h1.lt, h1.inj, h1.onto, abc2Cnf2_below, fun v => abc2Cnf2_sat hs, ?_⟩
  intro c exIn exOut nd _ i hi
  have hC := finalize_spec (c := c) h3 h4 exIn exOut
  exact ⟨hC.getIndexNode hi, hC.getIndex hi⟩

/-- The netlist of an AND gate. -/
def andNetlist : Netlist := ⟨["a", "b"], ["o"], [⟨["a", "b"], "o", "11 1\n"⟩]⟩

theorem abc2Cnf2_faithful_and : (abc2Cnf2 andNetlist).numVars = 3 ∧
    Below 3 (abc2Cnf2 andNetlist).cnf ∧ ∀ v : Model, Sat v (abc2Cnf2 andNetlist).cnf ↔
      andNetlist.Valuation fun a => v ((abc2Cnf2 andNetlist).idx a) :=
  have h := abc2Cnf2_faithful andNetlist (by decide)
  ⟨by decide, h.2.2.2.2.1, h.2.2.2.2.2.1⟩

end CNFGenerator

end Msyn.CNFgen
