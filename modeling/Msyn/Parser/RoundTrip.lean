import Msyn.Circuit.WriteBlif
import Msyn.Parser.Blocks

/-!
# Reading back what was written

`WriteBlif` writes a text in sections, and each section is read as a change of the netlist. So the
lexer gets from the text of a circuit the same netlist (`lex_writeBlif`).
-/

namespace Msyn.Parser

open Nodecircuit Circuit

/-! ## The tokens of a section -/

/-- The names with a blank before each. -/
def spaced (names : List String) (hn : ∀ s ∈ names, IsId s.toList) : List Word :=
  names.attach.map fun s => ⟨[' '], s.1, blanks_space, hn s.1 s.2⟩

section
variable {names : List String} (hn : ∀ s ∈ names, IsId s.toList) (rest : List Char)
include hn

theorem spaced_names : (spaced names hn).map Word.name = names := by
  simp [spaced, Function.comp_def]

theorem spaced_apart : ∀ w ∈ spaced names hn, w.blanks ≠ [] := by
  intro w hw
  obtain ⟨s, -, rfl⟩ := List.mem_map.1 hw
  simp

theorem lineChars_eq : lineChars names = wordsChars (spaced names hn) ++ ['\n'] := by
  have hwords : wordsChars (spaced names hn) =
      ((spaced names hn).map Word.name).flatMap fun s => ' ' :: s.toList := by
    rw [wordsChars, List.flatMap_map]
    refine List.flatMap_congr fun w hw => ?_
    obtain ⟨s, -, rfl⟩ := List.mem_map.1 hw
    rfl
  rw [hwords, spaced_names, lineChars]

theorem tokens_declChars : tokens (declChars names ++ rest) =
    [(9, " ")] ++ (names.flatMap fun s => [(9, " "), (9, "\\"), (7, "\n"), (9, " "), (6, s)]) ++
      [(7, "\n")] ++ tokens rest := by
  have hlist : tokens ((names.flatMap fun s => ' ' :: '\\' :: '\n' :: ' ' :: s.toList) ++ ['\n'] ++
      rest) = (names.flatMap fun s => [(9, " "), (9, "\\"), (7, "\n"), (9, " "), (6, s)]) ++
        [(7, "\n")] ++ tokens rest := by
    induction names with
    | nil => exact tokens_newline rest
    | cons s names ih =>
      have hs := hn s (by simp)
      have hstop : ∀ ch ∈ ((names.flatMap fun s => ' ' :: '\\' :: '\n' :: ' ' :: s.toList) ++
          ['\n'] ++ rest).head?, ¬ IdChar ch := by
        cases names <;> rintro ch ⟨⟩ <;> decide
      have e : ((s :: names).flatMap fun s => ' ' :: '\\' :: '\n' :: ' ' :: s.toList) ++ ['\n'] ++
          rest = ' ' :: '\\' :: '\n' :: ' ' :: (s.toList ++
            ((names.flatMap fun s => ' ' :: '\\' :: '\n' :: ' ' :: s.toList) ++ ['\n'] ++ rest)) := by
        simp
      rw [e, tokens_space (by rintro ch ⟨⟩; decide), tokens_backslash, tokens_newline,
        tokens_space (head_id hs _), tokens_id hs hstop, ih fun t ht => hn t (by simp [ht]),
        String.ofList_toList]
      simp
  have hblank : ∀ ch ∈ ((names.flatMap fun s => ' ' :: '\\' :: '\n' :: ' ' :: s.toList) ++ ['\n'] ++
      rest).head?, ch ≠ '0' ∧ ch ≠ '1' := by
    cases names <;> rintro ch ⟨⟩ <;> decide
  unfold declChars
  rw [List.cons_append, List.cons_append, tokens_space hblank, hlist]
  simp

end

/-! ## What the sections do -/

/-- A section of names in mode `.inputs` or `.outputs`. -/
theorem run_decl {names : List String} {r : Reader} (hm : r.mode = .inputs ∨ r.mode = .outputs) :
    (names.flatMap fun s => [((9, " ") : Token), (9, "\\"), (7, "\n"), (9, " "), (6, s)]).foldlM
      Reader.step r = some { r with
        net := { r.net with
          inputs := r.net.inputs ++ if r.mode = .inputs then names else []
          outputs := r.net.outputs ++ if r.mode = .inputs then [] else names
          nodes := r.net.nodes ++ names }
        current := names.foldl (fun _ s => some s) r.current } := by
  induction names generalizing r with
  | nil => simp
  | cons s names ih =>
    have hnl : r.step (7, "\n") = some r :=
      step_newline (by rcases hm with hm | hm <;> rw [hm] <;> decide)
    have e : r.step (6, s) = some { r with
        net := { r.net with
          inputs := r.net.inputs ++ if r.mode = .inputs then [s] else []
          outputs := r.net.outputs ++ if r.mode = .inputs then [] else [s]
          nodes := r.net.nodes ++ [s] }
        current := some s } := by
      refine congrArg some ?_
      rcases hm with hm | hm
      · rw [Reader.id_inputs hm, hm]
        simp
      · rw [Reader.id_outputs hm, hm]
        simp
    have hcons : ((s :: names).flatMap fun s =>
        [((9, " ") : Token), (9, "\\"), (7, "\n"), (9, " "), (6, s)]) =
        (9, " ") :: (9, "\\") :: (7, "\n") :: (9, " ") :: (6, s) :: names.flatMap fun s =>
          [((9, " ") : Token), (9, "\\"), (7, "\n"), (9, " "), (6, s)] := rfl
    rw [hcons, run_cons rfl, run_cons rfl, run_cons hnl, run_cons rfl, run_cons e]
    refine (ih ?_).trans ?_
    · exact hm
    · rcases hm with hm | hm <;> simp [hm]

/-- A text that is a sequence of lines of a cover. -/
def IsCover (cube : String) : Prop :=
  ∃ lines : List (List Char), (∀ s ∈ lines, IsLine s) ∧
    cube.toList = lines.flatMap fun s => s ++ ['\n']

/-- A section of names, after its keyword. -/
theorem run_section {names : List String} {r : Reader} {m : Mode} (hm : m = .inputs ∨ m = .outputs) :
    ((9, " ") :: ((names.flatMap fun s => [((9, " ") : Token), (9, "\\"), (7, "\n"), (9, " "), (6, s)]) ++
      [(7, "\n")])).foldlM Reader.step { r with mode := m } = some { r with
        net := { r.net with
          inputs := r.net.inputs ++ if m = .inputs then names else []
          outputs := r.net.outputs ++ if m = .inputs then [] else names
          nodes := r.net.nodes ++ names }
        current := names.foldl (fun _ s => some s) r.current
        mode := m } := by
  rw [run_cons rfl, run_append (run_decl hm)]
  exact run_cons (step_newline (by rcases hm with rfl | rfl <;> simp))

theorem readsAs_model {name : String} (h : IsId name.toList) :
    ReadsAs (".model".toList ++ lineChars [name]) fun net => { net with name } := by
  have hkey : ".model".toList = ['.', 'm', 'o', 'd', 'e', 'l'] := by decide
  have hn : ∀ s ∈ [name], IsId s.toList := by simpa using h
  refine ⟨[(2, ".model"), (9, " "), (6, name), (7, "\n")], fun rest => ?_, fun r hr => ?_⟩
  · rw [hkey, List.append_assoc, tokens_model, lineChars_eq hn, List.append_assoc,
      tokens_words (fun w hw => spaced_apart hn w (List.mem_of_mem_tail hw)) (by
        intro ch hch
        cases hch
        decide), List.singleton_append, tokens_newline]
    rfl
  · exact ⟨{ r with net := { r.net with name }, mode := .start }, rfl, rfl, hr⟩

/-- A section of names after its keyword `key`, which is the token `t`. -/
theorem readsAs_section {key : List Char} {t : Token} {m : Mode} (hm : m = .inputs ∨ m = .outputs)
    (hkey : ∀ rest, tokens (key ++ rest) = t :: tokens rest)
    (hstep : ∀ r : Reader, r.step t = some { r with mode := m }) {names : List String}
    (h : ∀ s ∈ names, IsId s.toList) : ReadsAs (key ++ declChars names) fun net => { net with
      inputs := net.inputs ++ if m = .inputs then names else []
      outputs := net.outputs ++ if m = .inputs then [] else names
      nodes := net.nodes ++ names } := by
  refine ⟨t :: (9, " ") :: ((names.flatMap fun s =>
    [(9, " "), (9, "\\"), (7, "\n"), (9, " "), (6, s)]) ++ [(7, "\n")]), fun rest => ?_,
    fun r hr => ⟨_, (run_cons (hstep r)).trans (run_section hm), rfl, hr⟩⟩
  rw [List.append_assoc, hkey, tokens_declChars h]
  rfl

theorem readsAs_inputs {names : List String} (h : ∀ s ∈ names, IsId s.toList) :
    ReadsAs (".inputs".toList ++ declChars names) fun net =>
      { net with inputs := net.inputs ++ names, nodes := net.nodes ++ names } := by
  have hkey : ".inputs".toList = ['.', 'i', 'n', 'p', 'u', 't', 's'] := by decide
  have hread := readsAs_section (.inl rfl) (hkey ▸ tokens_inputs) (fun _ => rfl) h
  simpa using hread

theorem readsAs_outputs {names : List String} (h : ∀ s ∈ names, IsId s.toList) :
    ReadsAs (".outputs".toList ++ declChars names) fun net =>
      { net with outputs := net.outputs ++ names, nodes := net.nodes ++ names } := by
  have hkey : ".outputs".toList = ['.', 'o', 'u', 't', 'p', 'u', 't', 's'] := by decide
  have hread := readsAs_section (.inr rfl) (hkey ▸ tokens_outputs) (fun _ => rfl) h
  simpa using hread

/-- The block of a gate with a line for each of its products. -/
def gateBlock (g : Gate) (lines : List (List Char)) (hid : ∀ s ∈ g.ins ++ [g.name], IsId s.toList)
    (hname : g.name ∉ g.ins) (hl : ∀ s ∈ lines, IsLine s ∨ IsValue s) (gap : List (List Char))
    (hgap : ∀ s ∈ gap, s = []) : Block where
  ins := spaced g.ins fun s hs => hid s (by simp [hs])
  out := ⟨[' '], g.name, blanks_space, hid g.name (by simp)⟩
  lines
  gap
  apart w hw := by
    rcases List.mem_append.1 (List.mem_of_mem_tail hw) with hw | hw
    · exact spaced_apart _ w hw
    · rw [List.mem_singleton.1 hw]
      simp
  isTrail := blanks_nil
  isEol := isEol_newline
  isLines := hl
  isGap s hs := by
    rw [hgap s hs]
    exact blanks_nil
  notSelf := by rwa [spaced_names]

section
variable {g : Gate} {lines gap : List (List Char)} (hid : ∀ s ∈ g.ins ++ [g.name], IsId s.toList)
  (hname : g.name ∉ g.ins) (hl : ∀ s ∈ lines, IsLine s ∨ IsValue s) (hgap : ∀ s ∈ gap, s = [])

theorem gateBlock_text : (gateBlock g lines hid hname hl gap hgap).text =
    ".names".toList ++ lineChars (g.ins ++ [g.name]) ++ (lines.flatMap fun s => s ++ ['\n']) ++
      gap.flatMap fun s => s ++ ['\n'] := by
  have hwords : wordsChars (spaced g.ins (fun s hs => hid s (by simp [hs])) ++
      [⟨[' '], g.name, blanks_space, hid g.name (by simp)⟩]) ++ ['\n'] =
        lineChars (g.ins ++ [g.name]) := by
    have h := @lineChars_eq g.ins fun s hs => hid s (by simp [hs])
    rw [lineChars, List.append_cancel_right_eq] at h
    rw [lineChars, List.flatMap_append, h]
    simp [wordsChars]
  have hkey : ".names".toList = ['.', 'n', 'a', 'm', 'e', 's'] := by decide
  rw [← hwords, hkey]
  simp only [Block.text, gateBlock, List.append_assoc, List.nil_append]

theorem gateBlock_gate : (gateBlock g lines hid hname hl gap hgap).gate =
    { g with cube := String.ofList ((keptLines lines).flatMap fun s => s ++ ['\n']) } := by
  simp only [Block.gate, gateBlock, spaced_names]

end

theorem readsAs_gate {g : Gate} (hid : ∀ s ∈ g.ins ++ [g.name], IsId s.toList) (hname : g.name ∉ g.ins)
    (hcube : IsCover g.cube) :
    ReadsAs (gateChars g.ins g.name g.cube) fun net => net.addGate g := by
  obtain ⟨lines, hl, hc⟩ := hcube
  have hgap : ∀ s ∈ [([] : List Char)], s = [] := by simp
  have htext := gateBlock_text hid hname (fun s hs => .inl (hl s hs)) hgap
  have hkept : keptLines lines = lines :=
    List.filter_eq_self.2 fun s hs => by simpa using (hl s hs).length
  have hgate : (gateBlock g lines hid hname (fun s hs => .inl (hl s hs)) _ hgap).gate = g := by
    rw [gateBlock_gate, hkept, ← hc, String.ofList_toList]
  have hreads := Block.readsAs (gateBlock g lines hid hname (fun s hs => .inl (hl s hs)) _ hgap)
  rw [hgate, htext, ← hc] at hreads
  exact hreads

/-- The line of the value of a constant is not read. -/
theorem readsAs_const {name : String} {value : Char} (hid : IsId name.toList)
    (hv : value = '0' ∨ value = '1') :
    ReadsAs (constChars name value) fun net => net.addGate { ins := [], name, cube := "" } := by
  have hid' : ∀ s ∈ ([] : List String) ++ [name], IsId s.toList := by simpa using hid
  have hl : ∀ s ∈ [[value]], IsLine s ∨ IsValue s := by
    intro s hs
    rw [List.mem_singleton.1 hs]
    exact .inr (hv.imp (fun h => by rw [h]) fun h => by rw [h])
  have hgap : ∀ s ∈ ([] : List (List Char)), s = [] := by simp
  have hreads := Block.readsAs
    (gateBlock { ins := [], name, cube := "" } _ hid' List.not_mem_nil hl _ hgap)
  have htext : constChars name value = ".names".toList ++ lineChars ([] ++ [name]) ++
      ([[value]].flatMap fun s => s ++ ['\n']) ++ [].flatMap fun s => s ++ ['\n'] :=
    (List.append_nil _).symm
  rw [gateBlock_gate, gateBlock_text] at hreads
  rw [htext]
  exact hreads

theorem readsAs_end : ReadsAs (".end".toList ++ ['\n', '\n']) fun net => net := by
  have hkey : ".end".toList = ['.', 'e', 'n', 'd'] := by decide
  refine ⟨[(1, ".end"), (7, "\n"), (7, "\n")], fun rest => ?_,
    fun r hr => ⟨{ r with mode := .done }, rfl, rfl, hr⟩⟩
  rw [hkey, List.append_assoc, tokens_end, List.cons_append, List.cons_append, tokens_newline,
    List.nil_append, tokens_newline]
  rfl

/-! ## Round trip -/

/-- The circuits that can be written: names that the lexer reads, lists and flags that agree, covers
that are lines. -/
structure Writable (c : Circuit) : Prop where
  ident : IsId c.name.toList ∧ ∀ n ∈ c.allNodes, IsId (c.node n).name.toList
  distinct : (c.allNodes.map fun n => (c.node n).name).Nodup
  map : ∀ s n, c.getNode s = some n ↔ n ∈ c.allNodes ∧ (c.node n).name = s
  inputs : ∀ n, n ∈ c.inputs ↔ n ∈ c.allNodes ∧ (c.node n).isInput = true
  outputs : ∀ n, n ∈ c.outputs ↔ n ∈ c.allNodes ∧ (c.node n).isOutput = true
  once : c.inputs.Nodup ∧ c.outputs.Nodup
  disjoint : ∀ n ∈ c.allNodes, ¬((c.node n).isInput = true ∧ (c.node n).isOutput = true)
  closed : ∀ n ∈ c.allNodes, ∀ i ∈ (c.node n).inputs, i ∈ c.allNodes
  leaf : ∀ n ∈ c.allNodes, (c.node n).isInput = true →
    (c.node n).inputs = [] ∧ (c.node n).cube = ""
  irrefl : ∀ n ∈ c.allNodes, n ∉ (c.node n).inputs
  cube : ∀ n ∈ c.allNodes, IsCover (c.node n).cube
  const : ∀ n ∈ c.allNodes, (c.node n).name = "zero" ∨ (c.node n).name = "one" →
    (c.node n).inputs = [] ∧ (c.node n).cube = ""

/-- The circuits are one netlist by their names. -/
structure SameNetlist (c c' : Circuit) : Prop where
  name : c'.name = c.name
  inputs : (c'.inputs.map fun n => (c'.node n).name) = c.inputs.map fun n => (c.node n).name
  outputs : (c'.outputs.map fun n => (c'.node n).name) = c.outputs.map fun n => (c.node n).name
  nodes : ∀ s, (∃ n ∈ c'.allNodes, (c'.node n).name = s) ↔ ∃ n ∈ c.allNodes, (c.node n).name = s
  node : ∀ n ∈ c.allNodes, ∀ n' ∈ c'.allNodes, (c'.node n').name = (c.node n).name →
    ((c'.node n').inputs.map fun i => (c'.node i).name) =
      ((c.node n).inputs.map fun i => (c.node i).name) ∧ (c'.node n').cube = (c.node n).cube

/-- The sections with covers. -/
def gatesOf (c : Circuit) : List Gate :=
  (if c.getNode "zero" ≠ none then [{ ins := [], name := "zero", cube := "" }] else []) ++
  (if c.getNode "one" ≠ none then [{ ins := [], name := "one", cube := "" }] else []) ++
  (c.allNodes.filter fun n => c.Written n).map (gateOf c)

/-- The netlist that is read from the text of the circuit. -/
def netlistOf (c : Circuit) : Netlist :=
  (gatesOf c).foldl Netlist.addGate {
    name := c.name
    inputs := c.inputs.map fun n => (c.node n).name
    outputs := c.outputs.map fun n => (c.node n).name
    nodes := (c.inputs.map fun n => (c.node n).name) ++ c.outputs.map fun n => (c.node n).name }

section
variable {c : Circuit} (h : Writable c)
include h

theorem Writable.nameOf_inj {a b : NodeId} (ha : a ∈ c.allNodes) (hb : b ∈ c.allNodes)
    (hab : (c.node a).name = (c.node b).name) : a = b :=
  List.inj_on_of_nodup_map h.distinct ha hb hab

theorem Writable.readsAs : ∃ f, ReadsAs c.writeBlif.toList f ∧ f {} = netlistOf c := by
  have hnames : ∀ ns : List NodeId, (∀ n ∈ ns, n ∈ c.allNodes) →
      ∀ s ∈ ns.map (fun n => (c.node n).name), IsId s.toList := by
    intro ns hns s hs
    obtain ⟨n, hn, rfl⟩ := List.mem_map.1 hs
    exact h.ident.2 n (hns n hn)
  have hconst : ∀ (name : String) (value : Char), IsId name.toList → (value = '0' ∨ value = '1') →
      ReadsAs (if c.getNode name ≠ none then constChars name value else []) fun net =>
        (if c.getNode name ≠ none then [({ ins := [], name, cube := "" } : Gate)] else []).foldl
          Netlist.addGate net := by
    intro name value hid hv
    split
    · exact readsAs_const hid hv
    · exact .nil
  have hgates : ReadsAs ((c.allNodes.filter fun n => c.Written n).flatMap c.nodeChars) fun net =>
      ((c.allNodes.filter fun n => c.Written n).map (gateOf c)).foldl Netlist.addGate net := by
    simp only [List.foldl_map]
    refine ReadsAs.flatMap fun n hn => ?_
    have hmem := (List.mem_filter.1 hn).1
    refine readsAs_gate (g := gateOf c n) ?_ ?_ (h.cube n hmem)
    · intro s hs
      rcases List.mem_append.1 hs with hs | hs
      · exact hnames _ (h.closed n hmem) s hs
      · rw [List.mem_singleton.1 hs]
        exact h.ident.2 n hmem
    · intro hself
      obtain ⟨i, hi, he⟩ := List.mem_map.1 hself
      exact h.irrefl n hmem (h.nameOf_inj (h.closed n hmem i hi) hmem he ▸ hi)
  have hzero : IsId "zero".toList := ⟨'z', ['e', 'r', 'o'], by decide, .inl (by decide), by simp [IdChar]⟩
  have hone : IsId "one".toList := ⟨'o', ['n', 'e'], by decide, .inl (by decide), by simp [IdChar]⟩
  rw [toList_writeBlif]
  refine ⟨_, ((((((readsAs_model h.ident.1).append
    (readsAs_inputs (hnames _ fun n hn => ((h.inputs n).1 hn).1))).append
    (readsAs_outputs (hnames _ fun n hn => ((h.outputs n).1 hn).1))).append
    (hconst "zero" '0' hzero (.inl rfl))).append (hconst "one" '1' hone (.inr rfl))).append
    hgates).append readsAs_end, ?_⟩
  simp only [netlistOf, gatesOf, List.foldl_append, List.nil_append]

theorem Writable.known (s : String) :
    c.getNode s ≠ none ↔ ∃ n ∈ c.allNodes, (c.node n).name = s := by
  constructor
  · intro hs
    obtain ⟨n, hn⟩ := Option.ne_none_iff_exists'.1 hs
    exact ⟨n, (h.map s n).1 hn⟩
  · rintro ⟨n, hn⟩ hnone
    rw [(h.map s n).2 hn] at hnone
    cases hnone

/-- The sections are those of the nodes that are written and of the constants. -/
theorem Writable.mem_gatesOf {g : Gate} : g ∈ gatesOf c ↔
    ∃ n ∈ c.allNodes, g = gateOf c n ∧
      (c.Written n ∨ (c.node n).name = "zero" ∨ (c.node n).name = "one") := by
  have hconst : ∀ s, s = "zero" ∨ s = "one" →
      (g ∈ (if c.getNode s ≠ none then [({ ins := [], name := s, cube := "" } : Gate)] else []) ↔
        ∃ n ∈ c.allNodes, g = gateOf c n ∧ (c.node n).name = s) := by
    intro s hs
    have hgate : ∀ n ∈ c.allNodes, (c.node n).name = s →
        gateOf c n = { ins := [], name := s, cube := "" } := by
      rintro n hn rfl
      obtain ⟨h1, h2⟩ := h.const n hn hs
      rw [gateOf, h1, h2]
      rfl
    rw [List.mem_ite_nil_right, List.mem_singleton, h.known]
    constructor
    · rintro ⟨⟨n, hn, he⟩, rfl⟩
      exact ⟨n, hn, (hgate n hn he).symm, he⟩
    · rintro ⟨n, hn, rfl, he⟩
      exact ⟨⟨n, hn, he⟩, hgate n hn he⟩
  have hwritten : g ∈ (c.allNodes.filter fun n => c.Written n).map (gateOf c) ↔
      ∃ n ∈ c.allNodes, g = gateOf c n ∧ c.Written n := by
    rw [List.mem_map]
    constructor
    · rintro ⟨n, hn, rfl⟩
      exact ⟨n, (List.mem_filter.1 hn).1, rfl, by simpa using (List.mem_filter.1 hn).2⟩
    · rintro ⟨n, hn, rfl, hw⟩
      exact ⟨n, List.mem_filter.2 ⟨hn, by simpa using hw⟩, rfl⟩
  rw [gatesOf, List.mem_append, List.mem_append, hconst _ (.inl rfl), hconst _ (.inr rfl), hwritten]
  constructor
  · rintro ((⟨n, hn, hg, he⟩ | ⟨n, hn, hg, he⟩) | ⟨n, hn, hg, hw⟩)
    · exact ⟨n, hn, hg, .inr (.inl he)⟩
    · exact ⟨n, hn, hg, .inr (.inr he)⟩
    · exact ⟨n, hn, hg, .inl hw⟩
  · rintro ⟨n, hn, hg, hw | he | he⟩
    · exact .inr ⟨n, hn, hg, hw⟩
    · exact .inl (.inl ⟨n, hn, hg, he⟩)
    · exact .inl (.inr ⟨n, hn, hg, he⟩)

theorem Writable.gatesOf_nodup : ((gatesOf c).map Gate.name).Nodup := by
  have hconst : ∀ s, ((if c.getNode s ≠ none then [({ ins := [], name := s, cube := "" } : Gate)]
      else []).map Gate.name).Nodup ∧ ∀ t ∈ (if c.getNode s ≠ none then
        [({ ins := [], name := s, cube := "" } : Gate)] else []).map Gate.name, t = s := by
    intro s
    split <;> simp
  have hw : ∀ t ∈ ((c.allNodes.filter fun n => c.Written n).map (gateOf c)).map Gate.name,
      t ≠ "zero" ∧ t ≠ "one" := by
    intro t ht
    rw [List.map_map] at ht
    obtain ⟨n, hn, rfl⟩ := List.mem_map.1 ht
    have hn : c.Written n := by simpa using (List.mem_filter.1 hn).2
    exact ⟨fun he => hn (.inr (.inr he)), fun he => hn (.inr (.inl he))⟩
  rw [gatesOf, List.map_append, List.map_append, List.nodup_append, List.nodup_append]
  refine ⟨⟨(hconst _).1, (hconst _).1, fun a ha b hb => ?_⟩, ?_, fun a ha b hb hab => ?_⟩
  · rw [(hconst _).2 a ha, (hconst _).2 b hb]
    decide
  · rw [List.map_map]
    exact h.distinct.sublist (List.filter_sublist.map _)
  · rcases List.mem_append.1 ha with ha | ha
    · exact (hw b hb).1 (hab ▸ (hconst _).2 a ha)
    · exact (hw b hb).2 (hab ▸ (hconst _).2 a ha)

/-- Only inputs have no section. -/
theorem Writable.gateOf_mem {n : NodeId} (hn : n ∈ c.allNodes) (hi : ¬(c.node n).isInput = true) :
    gateOf c n ∈ gatesOf c := by
  refine h.mem_gatesOf.2 ⟨n, hn, rfl, ?_⟩
  by_cases hz : (c.node n).name = "zero"
  · exact .inr (.inl hz)
  · by_cases ho : (c.node n).name = "one"
    · exact .inr (.inr ho)
    · exact .inl fun hw => hw.elim hi fun hw => hw.elim ho hz

/-- The netlist that is read has the names of the circuit, once each, with their fanins and covers. -/
theorem Writable.netlistOf_spec : (netlistOf c).nodes.Nodup ∧
    (∀ s, s ∈ (netlistOf c).nodes ↔ ∃ n ∈ c.allNodes, (c.node n).name = s) ∧
    ∀ n ∈ c.allNodes,
      (netlistOf c).fanins (c.node n).name = ((c.node n).inputs.map fun i => (c.node i).name) ∧
        (netlistOf c).cube (c.node n).name = (c.node n).cube := by
  have hsub : ∀ ns : List NodeId, ns.Nodup → (∀ n ∈ ns, n ∈ c.allNodes) →
      (ns.map fun n => (c.node n).name).Nodup := fun ns hnd hns =>
    List.Nodup.map_on (fun a ha b hb hab => h.nameOf_inj (hns a ha) (hns b hb) hab) hnd
  refine ⟨foldl_addGate_nodup _ _ ?_, fun s => ?_, fun n hn => ?_⟩
  · -- no input is an output
    refine List.nodup_append.2 ⟨hsub _ h.once.1 fun n hn => ((h.inputs n).1 hn).1,
      hsub _ h.once.2 fun n hn => ((h.outputs n).1 hn).1, fun a ha b hb hab => ?_⟩
    obtain ⟨n, hn, rfl⟩ := List.mem_map.1 ha
    obtain ⟨m, hm, rfl⟩ := List.mem_map.1 hb
    obtain ⟨hn, hni⟩ := (h.inputs n).1 hn
    obtain ⟨hm, hmo⟩ := (h.outputs m).1 hm
    exact h.disjoint n hn ⟨hni, h.nameOf_inj hn hm hab ▸ hmo⟩
  · rw [netlistOf, mem_foldl_addGate, List.mem_append, List.mem_map, List.mem_map]
    constructor
    · rintro ((⟨n, hn, he⟩ | ⟨n, hn, he⟩) | ⟨g, hg, hs⟩)
      · exact ⟨n, ((h.inputs n).1 hn).1, he⟩
      · exact ⟨n, ((h.outputs n).1 hn).1, he⟩
      · obtain ⟨n, hn, rfl, -⟩ := h.mem_gatesOf.1 hg
        rcases hs with hs | hs
        · obtain ⟨i, hi, he⟩ := List.mem_map.1 hs
          exact ⟨i, h.closed n hn i hi, he⟩
        · exact ⟨n, hn, hs.symm⟩
    · rintro ⟨n, hn, rfl⟩
      by_cases hi : (c.node n).isInput = true
      · exact .inl (.inl ⟨n, (h.inputs n).2 ⟨hn, hi⟩, rfl⟩)
      · exact .inr ⟨gateOf c n, h.gateOf_mem hn hi, .inr rfl⟩
  · by_cases hg : gateOf c n ∈ gatesOf c
    · obtain ⟨h1, h2⟩ := foldl_addGate_mem _ h.gatesOf_nodup hg
      exact ⟨h1, h2.trans String.empty_append⟩
    · -- an input without a section
      have hin : (c.node n).isInput = true := not_not.1 fun hi => hg (h.gateOf_mem hn hi)
      have hno : (c.node n).name ∉ (gatesOf c).map Gate.name := by
        intro hmem
        obtain ⟨g, hgm, he⟩ := List.mem_map.1 hmem
        obtain ⟨m, hm, rfl, -⟩ := h.mem_gatesOf.1 hgm
        exact hg (h.nameOf_inj hm hn he ▸ hgm)
      obtain ⟨h1, h2⟩ := foldl_addGate_other _ _ hno
      obtain ⟨h3, h4⟩ := h.leaf n hn hin
      rw [h3, h4]
      exact ⟨h1, h2⟩

/-- **Round trip**: from what `WriteBlif` writes for a circuit the lexer reads the same netlist. -/
theorem lex_writeBlif : ∃ l, lex c.writeBlif = some l ∧ SameNetlist c l.circuit := by
  obtain ⟨f, ⟨ts, htok, hrun⟩, hf⟩ := h.readsAs
  obtain ⟨r, hr, hnet, -⟩ := hrun {} rfl
  obtain ⟨hnd, hnodes, hcontents⟩ := h.netlistOf_spec
  have hts : tokens c.writeBlif.toList = ts := by
    have := htok []
    rwa [List.append_nil, show tokens [] = [] from rfl, List.append_nil] at this
  rw [hf] at hnet
  obtain ⟨hreads, hc⟩ := reads_init
  obtain ⟨l, hl, hreads, hc⟩ := hreads.contents_run hc hr (by rw [hnet]; exact hnd)
  refine ⟨l, by rw [lex_eq, hts, hl], ?_⟩
  obtain ⟨e1, e2, e3⟩ := foldl_addGate_lists (gatesOf c) {
    name := c.name
    inputs := c.inputs.map fun n => (c.node n).name
    outputs := c.outputs.map fun n => (c.node n).name
    nodes := (c.inputs.map fun n => (c.node n).name) ++ c.outputs.map fun n => (c.node n).name }
  refine ⟨hreads.name.trans (hnet ▸ e1), hreads.inputs.trans (hnet ▸ e2),
    hreads.outputs.trans (hnet ▸ e3), fun s => ?_, fun n hn n' hn' he => ?_⟩
  · rw [← hnodes, ← hnet, ← hreads.nodes, List.mem_map]
    rfl
  · obtain ⟨h1, h2⟩ := hcontents n hn
    have he : l.nameOf n' = (c.node n).name := he
    refine ⟨(hc.fanins n' hn').trans ?_, (hc.cube n' hn').trans ?_⟩
    · rw [he, hnet, h1]
    · rw [he, hnet, h2]

end

/-- An output of an input and a constant. -/
def maskedInput : Circuit where
  name := "m"
  inputs := [0]
  outputs := [2]
  allNodes := [0, 1, 2]
  allNodesMap := ((AList.insert "a" 0 ∅).insert "zero" 1).insert "b" 2
  node := fun
    | 0 => { name := "a", isInput := true, outputs := [2] }
    | 1 => { name := "zero", outputs := [2] }
    | _ => { name := "b", cube := "1- 1\n", isOutput := true, inputs := [0, 1] }
  cluster _ := {}

theorem mem_maskedInput {n : NodeId} : n ∈ maskedInput.allNodes ↔ n = 0 ∨ n = 1 ∨ n = 2 := by
  simp [maskedInput]

theorem maskedInput_getNode (s : String) : maskedInput.getNode s =
    if s = "b" then some 2 else if s = "zero" then some 1 else if s = "a" then some 0 else none := by
  show AList.lookup s _ = _
  split_ifs with hb hz ha
  · rw [hb]
    exact AList.lookup_insert _
  · rw [hz]
    rfl
  · rw [ha]
    rfl
  · refine (AList.lookup_insert_ne hb).trans ((AList.lookup_insert_ne hz).trans ?_)
    exact (AList.lookup_insert_ne ha).trans (AList.lookup_empty s)

theorem maskedInput_writable : Writable maskedInput where
  ident := by
    refine ⟨⟨'m', [], by decide, .inl (by decide), by simp⟩, fun n hn => ?_⟩
    rcases mem_maskedInput.1 hn with rfl | rfl | rfl
    · exact ⟨'a', [], by decide, .inl (by decide), by simp⟩
    · exact ⟨'z', ['e', 'r', 'o'], by decide, .inl (by decide), by simp [IdChar]⟩
    · exact ⟨'b', [], by decide, .inl (by decide), by simp⟩
  distinct := by decide
  map s n := by
    rw [maskedInput_getNode, mem_maskedInput]
    constructor
    · split_ifs with hb hz ha <;> rintro ⟨⟩
      · exact ⟨.inr (.inr rfl), hb.symm⟩
      · exact ⟨.inr (.inl rfl), hz.symm⟩
      · exact ⟨.inl rfl, ha.symm⟩
    · rintro ⟨rfl | rfl | rfl, rfl⟩ <;> rfl
  inputs n := by
    rw [mem_maskedInput]
    constructor
    · intro hn
      rw [List.mem_singleton.1 hn]
      exact ⟨.inl rfl, rfl⟩
    · rintro ⟨rfl | rfl | rfl, hi⟩
      · exact List.mem_singleton.2 rfl
      · cases hi
      · cases hi
  outputs n := by
    rw [mem_maskedInput]
    constructor
    · intro hn
      rw [List.mem_singleton.1 hn]
      exact ⟨.inr (.inr rfl), rfl⟩
    · rintro ⟨rfl | rfl | rfl, ho⟩
      · cases ho
      · cases ho
      · exact List.mem_singleton.2 rfl
  once := by decide
  disjoint := by decide
  closed := by decide
  leaf := by decide
  irrefl := by decide
  cube n hn := by
    rcases mem_maskedInput.1 hn with rfl | rfl | rfl
    · exact ⟨[], by simp, by decide⟩
    · exact ⟨[], by simp, by decide⟩
    · refine ⟨[['1', '-', ' ', '1']], fun s hs => ?_, by decide⟩
      rw [List.mem_singleton.1 hs]
      exact ⟨['1', '-'], ' ', '1', rfl, by simp, .inl rfl, .inr rfl⟩
  const := by decide

theorem lex_writeBlif_masked :
    ∃ l, lex maskedInput.writeBlif = some l ∧ SameNetlist maskedInput l.circuit :=
  lex_writeBlif maskedInput_writable

end Msyn.Parser
