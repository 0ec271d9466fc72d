import Msyn.Circuit.Numbered
import Msyn.Patch.PatchData

/-!
# Reading a patch

The lexer reads the file of `generate_blif` as the circuit with the blocks of the patch
(`Patch.lex_generateBlif`). For single targets that circuit gives each target 1 exactly under the
patterns of its on-set (`lex_singleTargets`).
-/

namespace Msyn.PatchData

open Nodecircuit Circuit MergeSelection Msyn.Parser

/-! ## The pieces of the text -/

/-- The names of a section that stands on one line. -/
theorem run_declWords {ws : List Word} {r : Reader} (hm : r.mode = .inputs ∨ r.mode = .outputs) :
    (wordTokens ws).foldlM Reader.step r = some { r with
      net := { r.net with
        inputs := r.net.inputs ++ if r.mode = .inputs then ws.map Word.name else []
        outputs := r.net.outputs ++ if r.mode = .inputs then [] else ws.map Word.name
        nodes := r.net.nodes ++ ws.map Word.name }
      current := (ws.map Word.name).foldl (fun _ s => some s) r.current } := by
  induction ws generalizing r with
  | nil => simp [wordTokens]
  | cons w ws ih =>
    have e : r.step (6, w.name) = some { r with
        net := { r.net with
          inputs := r.net.inputs ++ if r.mode = .inputs then [w.name] else []
          outputs := r.net.outputs ++ if r.mode = .inputs then [] else [w.name]
          nodes := r.net.nodes ++ [w.name] }
        current := some w.name } := by
      apply congrArg some
      rcases hm with hm | hm
      · rw [Reader.id_inputs hm, hm]
        simp
      · rw [Reader.id_outputs hm, hm]
        simp
    have hcons : wordTokens (w :: ws) = blankTokens w.blanks ++ (6, w.name) :: wordTokens ws := by
      simp [wordTokens]
    rw [hcons, run_append (run_blanks _ r), run_cons e]
    refine (ih ?_).trans ?_
    · exact hm
    · rcases hm with hm | hm <;> simp [hm]

/-- A section on one line after its keyword `key`, which is the token `t`. -/
theorem readsAs_line {key : List Char} {t : Token} {m : Mode} (hm : m = .inputs ∨ m = .outputs)
    (hkey : ∀ rest, tokens (key ++ rest) = t :: tokens rest)
    (hstep : ∀ r : Reader, r.step t = some { r with mode := m }) {names : List String}
    (h : ∀ s ∈ names, IsId s.toList) : ReadsAs (key ++ lineChars names) fun net => { net with
      inputs := net.inputs ++ if m = .inputs then names else []
      outputs := net.outputs ++ if m = .inputs then [] else names
      nodes := net.nodes ++ names } := by
  refine ⟨t :: (wordTokens (spaced names h) ++ [(7, "\n")]), fun rest => ?_, fun r hr => ?_⟩
  · rw [List.append_assoc, hkey, lineChars_eq h, List.append_assoc,
      tokens_words (fun w hw => spaced_apart h w (List.mem_of_mem_tail hw)) (by
        intro ch hch
        cases hch
        decide), List.singleton_append, tokens_newline]
    simp
  · have hrun := @run_declWords (spaced names h) { r with mode := m } hm
    rw [spaced_names] at hrun
    refine ⟨_, (run_cons (hstep r)).trans ((run_append hrun).trans (run_cons (step_newline ?_))), rfl,
      hr⟩
    rcases hm with rfl | rfl <;> simp

theorem readsAs_end_line : ReadsAs (".end".toList ++ ['\n']) fun net => net := by
  have hkey : ".end".toList = ['.', 'e', 'n', 'd'] := by decide
  refine ⟨[(1, ".end"), (7, "\n")], fun rest => ?_, fun r hr =>
    ⟨{ r with mode := .done }, rfl, rfl, hr⟩⟩
  rw [hkey, List.append_assoc, tokens_end, List.singleton_append, tokens_newline]
  rfl

def Names.gate (b : Names) : Gate where
  ins := b.inputs
  name := b.output
  cube := b.cubes

theorem Names.toList_text (b : Names) :
    b.text.toList = ".names".toList ++ lineChars (b.inputs ++ [b.output]) ++ b.cubes.toList := by
  have hjoin : (String.join (b.inputs.map (" " ++ ·))).toList =
      b.inputs.flatMap fun s => ' ' :: s.toList := by
    rw [String.toList_join, List.flatMap_map]
    simp [toList_blank]
  rw [Names.text, lineChars]
  simp only [String.toList_append, hjoin, toList_blank, toList_endl, List.flatMap_append,
    List.flatMap_singleton, List.append_assoc, List.cons_append, List.nil_append]

theorem Names.readsAs {b : Names} (hid : ∀ s ∈ b.gate.ins ++ [b.gate.name], IsId s.toList)
    (hown : b.gate.name ∉ b.gate.ins) (hcover : IsCover b.cubes) :
    ReadsAs b.text.toList fun net => net.addGate b.gate := by
  obtain ⟨lines, hl, hc⟩ := hcover
  have hgap : ∀ s ∈ ([] : List (List Char)), s = [] := by simp
  have hkept : keptLines lines = lines :=
    List.filter_eq_self.2 fun s hs => by simpa using (hl s hs).length
  have hreads := Block.readsAs (gateBlock b.gate lines hid hown (fun s hs => .inl (hl s hs)) _ hgap)
  have hgate : (gateBlock b.gate lines hid hown (fun s hs => .inl (hl s hs)) _ hgap).gate =
      b.gate := by
    rw [gateBlock_gate, hkept, ← hc, String.ofList_toList]
    rfl
  rw [hgate, gateBlock_text, ← hc, List.flatMap_nil, List.append_nil] at hreads
  rw [Names.toList_text]
  exact hreads

/-! ## The patch -/

/-- The netlist of a patch. -/
def Patch.netlist (p : Patch) : Netlist :=
  (p.net.map Names.gate).foldl Netlist.addGate {
    name := "patch", inputs := p.inputs, outputs := p.outputs, nodes := p.inputs ++ p.outputs }

/-- The names are identifiers, each output has one block, and the blocks read ports. -/
structure Patch.Complete (p : Patch) : Prop where
  ident : ∀ s ∈ p.inputs ++ p.outputs, IsId s.toList
  distinct : (p.inputs ++ p.outputs).Nodup
  once : (p.net.map Names.output).Nodup
  drives : ∀ s, s ∈ p.net.map Names.output ↔ s ∈ p.outputs
  reads : ∀ b ∈ p.net, ∀ s ∈ b.inputs, s ∈ p.inputs ++ p.outputs
  own : ∀ b ∈ p.net, b.output ∉ b.inputs
  cover : ∀ b ∈ p.net, IsCover b.cubes

theorem Patch.toList_generateBlif (p : Patch) : p.generateBlif.toList =
    ".model".toList ++ lineChars ["patch"] ++ (".inputs".toList ++ lineChars p.inputs) ++
      (".outputs".toList ++ lineChars p.outputs) ++ (p.net.flatMap fun b => b.text.toList) ++
      (".end".toList ++ ['\n']) := by
  have hmodel : ".model patch\n.inputs".toList =
      ".model".toList ++ lineChars ["patch"] ++ ".inputs".toList := by decide
  have hout : "\n.outputs".toList = '\n' :: ".outputs".toList := by decide
  have hend : ".end\n".toList = ".end".toList ++ ['\n'] := by decide
  have hnames : ∀ (names : List String) (out : String),
      (names.foldl (fun out s => out ++ " " ++ s) out).toList =
        out.toList ++ names.flatMap fun s => ' ' :: s.toList := by
    intro names out
    have := toList_foldl_append (fun s => " " ++ s) names out
    simpa [← String.append_assoc, toList_blank] using this
  rw [Patch.generateBlif]
  simp only [String.toList_append, toList_foldl_append, hnames, hmodel, hout, hend, lineChars,
    toList_endl, List.append_assoc, List.cons_append, List.nil_append]

/-- The ports that are read. -/
theorem Patch.ports {p : Patch} {l : Lexer} (hb : Built p.netlist l) :
    l.circuit.inputs.map l.nameOf = p.inputs ∧ l.circuit.outputs.map l.nameOf = p.outputs := by
  obtain ⟨-, h1, h2⟩ := foldl_addGate_lists (p.net.map Names.gate) {
    name := "patch", inputs := p.inputs, outputs := p.outputs, nodes := p.inputs ++ p.outputs }
  exact ⟨hb.inputs.trans h1, hb.outputs.trans h2⟩

section
variable {p : Patch} (h : p.Complete)
include h

/-- **Round trip**: the lexer reads the file of a patch as the netlist of its blocks. -/
theorem Patch.lex_generateBlif : ∃ l, lex p.generateBlif = some l ∧ Built p.netlist l := by
  have hpatch : IsId "patch".toList :=
    ⟨'p', ['a', 't', 'c', 'h'], by decide, .inl (by decide), by simp [IdChar]⟩
  have hin : ".inputs".toList = ['.', 'i', 'n', 'p', 'u', 't', 's'] := by decide
  have hout : ".outputs".toList = ['.', 'o', 'u', 't', 'p', 'u', 't', 's'] := by decide
  have hblocks : ReadsAs (p.net.flatMap fun b => b.text.toList) fun net =>
      (p.net.map Names.gate).foldl Netlist.addGate net := by
    simp only [List.foldl_map]
    apply ReadsAs.flatMap
    intro b hb
    apply Names.readsAs _ (h.own b hb) (h.cover b hb)
    intro s hs
    apply h.ident
    rcases List.mem_append.1 hs with hs | hs
    · exact h.reads b hb s hs
    · rw [List.mem_singleton.1 hs]
      exact List.mem_append_right _ ((h.drives _).1 (List.mem_map_of_mem hb))
  have hread := ((((readsAs_model hpatch).append
    (readsAs_line (.inl rfl) (hin ▸ tokens_inputs) (fun _ => rfl)
      fun s hs => h.ident s (List.mem_append_left _ hs))).append
    (readsAs_line (.inr rfl) (hout ▸ tokens_outputs) (fun _ => rfl)
      fun s hs => h.ident s (List.mem_append_right _ hs))).append hblocks).append readsAs_end_line
  rw [← Patch.toList_generateBlif] at hread
  have hnet : ∀ f : Netlist → Netlist, f {} = p.netlist → ReadsAs p.generateBlif.toList f →
      ∃ l, lex p.generateBlif = some l ∧ Built p.netlist l := by
    intro f hf hr
    rw [← hf]
    apply lex_built hr
    rw [hf]
    exact foldl_addGate_nodup _ _ h.distinct
  apply hnet _ _ hread
  simp [Patch.netlist]

theorem Patch.mem_nodes (s : String) : s ∈ p.netlist.nodes ↔ s ∈ p.inputs ++ p.outputs := by
  rw [Patch.netlist, mem_foldl_addGate]
  apply or_iff_left_of_imp
  intro hg
  obtain ⟨g, hg, hs⟩ := hg
  obtain ⟨b, hb, rfl⟩ := List.mem_map.1 hg
  rcases hs with hs | hs
  · exact h.reads b hb s hs
  · rw [hs]
    exact List.mem_append_right _ ((h.drives _).1 (List.mem_map_of_mem hb))

/-- The block of an output. -/
theorem Patch.gate {b : Names} (hb : b ∈ p.net) :
    p.netlist.fanins b.output = b.inputs ∧ p.netlist.cube b.output = b.cubes := by
  have hnd : ((p.net.map Names.gate).map Gate.name).Nodup := by
    rw [List.map_map]
    exact h.once
  obtain ⟨h1, h2⟩ := foldl_addGate_mem _ hnd (List.mem_map_of_mem hb)
  exact ⟨h1, h2.trans String.empty_append⟩

/-- **What a patch computes**: the blocks hold. -/
theorem Patch.holds_iff {x val : String → Bool} : p.netlist.Holds x val ↔
    (∀ s ∈ p.inputs, val s = x s) ∧ ∀ b ∈ p.net, val b.output = b.value val := by
  have hinputs : p.netlist.inputs = p.inputs := (foldl_addGate_lists _ _).2.1
  have hblock : ∀ b ∈ p.net, (if b.output ∈ p.inputs then x b.output else
      evalCube (p.netlist.cube b.output) ((p.netlist.fanins b.output).map val)) = b.value val := by
    intro b hb
    have hno : b.output ∉ p.inputs := fun hin =>
      (List.nodup_append.1 h.distinct).2.2 _ hin _ ((h.drives _).1 (List.mem_map_of_mem hb)) rfl
    obtain ⟨h1, h2⟩ := Patch.gate h hb
    rw [if_neg hno, h1, h2]
    rfl
  rw [Netlist.Holds, hinputs]
  constructor
  · intro hall
    constructor
    · intro s hs
      rw [hall s ((Patch.mem_nodes h s).2 (List.mem_append_left _ hs)), if_pos hs]
    · intro b hb
      rw [← hblock b hb]
      exact hall _ ((Patch.mem_nodes h _).2
        (List.mem_append_right _ ((h.drives _).1 (List.mem_map_of_mem hb))))
  · intro hall s hs
    rcases List.mem_append.1 ((Patch.mem_nodes h s).1 hs) with hin | hout
    · rw [if_pos hin]
      exact hall.1 s hin
    · obtain ⟨b, hb, rfl⟩ := List.mem_map.1 ((h.drives s).2 hout)
      rw [hblock b hb]
      exact hall.2 b hb

end

/-- A patch whose blocks read inputs only has no cycle. -/
theorem Patch.acyclic {p : Patch} (h : p.Complete)
    (hflat : ∀ b ∈ p.net, ∀ s ∈ b.inputs, s ∈ p.inputs) {l : Lexer} (hb : Built p.netlist l) : l.circuit.IsAcyclic := by
  apply Acyclic.of_rank fun n => if l.nameOf n ∈ p.inputs then 0 else 1
  intro i n hin
  obtain ⟨hn, hi⟩ := hin
  have hmem : l.nameOf i ∈ p.netlist.fanins (l.nameOf n) := by
    rw [← hb.fanins n hn]
    exact List.mem_map_of_mem hi
  have hno : l.nameOf n ∉ p.inputs := by
    intro hnin
    have hother : l.nameOf n ∉ (p.net.map Names.gate).map Gate.name := by
      intro hg
      rw [List.map_map] at hg
      exact (List.nodup_append.1 h.distinct).2.2 _ hnin _ ((h.drives _).1 hg) rfl
    rw [Patch.netlist, (foldl_addGate_other _ _ hother).1] at hmem
    exact absurd hmem List.not_mem_nil
  have hout : l.nameOf n ∈ p.outputs := by
    have := (Patch.mem_nodes h (l.nameOf n)).1 (hb.nodes ▸ List.mem_map_of_mem hn)
    exact (List.mem_append.1 this).resolve_left hno
  obtain ⟨b, hbn, he⟩ := List.mem_map.1 ((h.drives _).2 hout)
  rw [← he, (Patch.gate h hbn).1] at hmem
  simp only [if_pos (hflat b hbn _ hmem), if_neg hno]
  exact Nat.one_pos

/-! ## Single targets -/

/-- The names can be read, and the signals that begin with `t` are the targets among the signals. -/
structure Readable (c : Circuit) (ds : List TargetData) : Prop where
  target : ∀ d ∈ ds, IsId d.name.toList
  signal : ∀ d ∈ ds, ∀ sig ∈ d.signals, IsId (c.node sig).name.toList
  distinct : (ds.map TargetData.name).Nodup
  own : ∀ d ∈ ds, ∀ sig ∈ d.signals, (c.node sig).name ≠ d.name
  known : ∀ d ∈ ds, ∀ sig ∈ d.signals,
    (isTarget (c.node sig).name = true ↔ (c.node sig).name ∈ ds.map TargetData.name)

/-- The groups of one target. -/
def singles (ds : List TargetData) : List (List TargetData) := ds.map fun d => [d]

def singlePatch (c : Circuit) (ds : List TargetData) : Patch where
  inputs := patchInputs c (singles ds)
  outputs := patchOutputs (singles ds)
  net := ds.map (·.getNodeString c)

section
variable (c : Circuit) (ds : List TargetData)

theorem flatten_singles : (singles ds).flatten = ds := by
  induction ds with
  | nil => rfl
  | cons d ds ih => exact congrArg (d :: ·) ih

theorem patchData_singles : patchData c (singles ds) = some (singlePatch c ds) := by
  have hnets : (singles ds).mapM (groupNet c) = some (ds.map fun d => [d.getNodeString c]) := by
    rw [singles]
    induction ds with
    | nil => rfl
    | cons d ds ih =>
      rw [List.map_cons, List.mapM_cons, ih]
      rfl
  have hflat : (ds.map fun d => [d.getNodeString c]).flatten = ds.map (·.getNodeString c) := by
    rw [← List.flatMap_def]
    exact List.flatMap_pure_eq_map _ _
  rw [patchData, hnets, Option.map_some, hflat]
  rfl

theorem mem_inputs (s : String) : s ∈ (singlePatch c ds).inputs ↔
    ∃ d ∈ ds, ∃ sig ∈ d.signals, (c.node sig).name = s ∧ isTarget s = false := by
  show s ∈ (OrdSet.ofList _) ↔ _
  rw [OrdSet.mem_ofList, flatten_singles, List.mem_filter, List.mem_flatMap]
  simp only [List.mem_map, Bool.not_eq_true']
  constructor
  · intro hs
    obtain ⟨⟨d, hd, sig, hsig, he⟩, hno⟩ := hs
    exact ⟨d, hd, sig, hsig, he, hno⟩
  · intro hs
    obtain ⟨d, hd, sig, hsig, he, hno⟩ := hs
    exact ⟨⟨d, hd, sig, hsig, he⟩, hno⟩

theorem mem_outputs (s : String) :
    s ∈ (singlePatch c ds).outputs ↔ s ∈ ds.map TargetData.name := by
  show s ∈ (OrdSet.ofList _) ↔ _
  rw [OrdSet.mem_ofList, flatten_singles]

end

section
variable {c : Circuit} {ds : List TargetData} (h : Readable c ds)
include h

theorem Readable.complete : (singlePatch c ds).Complete where
  ident s hs := by
    rcases List.mem_append.1 hs with hs | hs
    · obtain ⟨d, hd, sig, hsig, rfl, -⟩ := (mem_inputs c ds s).1 hs
      exact h.signal d hd sig hsig
    · obtain ⟨d, hd, rfl⟩ := List.mem_map.1 ((mem_outputs c ds s).1 hs)
      exact h.target d hd
  distinct := by
    refine List.nodup_append.2 ⟨OrdSet.nodup _, OrdSet.nodup _, fun s hs s' hs' he => ?_⟩
    subst he
    obtain ⟨d, hd, sig, hsig, rfl, hno⟩ := (mem_inputs c ds s).1 hs
    rw [(h.known d hd sig hsig).2 ((mem_outputs c ds _).1 hs')] at hno
    cases hno
  once := by
    rw [singlePatch, List.map_map]
    exact h.distinct
  drives s := by
    rw [mem_outputs, singlePatch, List.map_map]
    rfl
  reads b hb s hs := by
    obtain ⟨d, hd, rfl⟩ := List.mem_map.1 hb
    obtain ⟨sig, hsig, rfl⟩ := List.mem_map.1 hs
    cases ht : isTarget (c.node sig).name with
    | true =>
      exact List.mem_append_right _ ((mem_outputs c ds _).2 ((h.known d hd sig hsig).1 ht))
    | false => exact List.mem_append_left _ ((mem_inputs c ds _).2 ⟨d, hd, sig, hsig, rfl, ht⟩)
  own b hb hown := by
    obtain ⟨d, hd, rfl⟩ := List.mem_map.1 hb
    obtain ⟨sig, hsig, he⟩ := List.mem_map.1 hown
    exact h.own d hd sig hsig he
  cover b hb := by
    obtain ⟨d, hd, rfl⟩ := List.mem_map.1 hb
    exact isCover_cubes d

/-- What the patch of single targets computes. -/
theorem Readable.holds_iff {x val : String → Bool} : (singlePatch c ds).netlist.Holds x val ↔
    (∀ s ∈ (singlePatch c ds).inputs, val s = x s) ∧ ∀ d ∈ ds, (val d.name = true ↔
      ∃ inxcase ∈ d.inxcases, ∀ sig ∈ d.signals, inxcase.at sig = val (c.node sig).name) := by
  have hnet : (singlePatch c ds).net = ds.map (·.getNodeString c) := rfl
  rw [Patch.holds_iff h.complete, hnet, List.forall_mem_map]
  refine and_congr_right fun _ => forall₂_congr fun d _ => ?_
  rw [← getNodeString_value c d val, Bool.eq_iff_iff]
  rfl

/-- **The patch of single targets** is read as a circuit with their signals as inputs and the
targets as outputs, each of which is 1 exactly under the patterns of its on-set. -/
theorem lex_singleTargets : ∃ p l, patchData c (singles ds) = some p ∧ lex p.generateBlif = some l ∧
    l.circuit.inputs.map l.nameOf = p.inputs ∧ l.circuit.outputs.map l.nameOf = p.outputs ∧
    (∀ s, s ∈ p.inputs ↔ ∃ d ∈ ds, ∃ sig ∈ d.signals, (c.node sig).name = s ∧ isTarget s = false) ∧
    (∀ s, s ∈ p.outputs ↔ s ∈ ds.map TargetData.name) ∧
    ∀ x w, l.circuit.Valuation [] x w ↔
      (∀ s ∈ p.inputs, w ((l.circuit.getNode s).getD 0) = x s) ∧
      ∀ d ∈ ds, (w ((l.circuit.getNode d.name).getD 0) = true ↔ ∃ inxcase ∈ d.inxcases,
        ∀ sig ∈ d.signals, inxcase.at sig = w ((l.circuit.getNode (c.node sig).name).getD 0)) := by
  obtain ⟨l, hl, hb⟩ := Patch.lex_generateBlif h.complete
  obtain ⟨hin, hout⟩ := Patch.ports (p := singlePatch c ds) hb
  exact ⟨_, l, patchData_singles c ds, hl, hin, hout, mem_inputs c ds, mem_outputs c ds, fun x w =>
    hb.valuation_iff.trans h.holds_iff⟩

end

/-- The second target is a signal of the first. -/
def chainedNodes : List Node :=
  [{ name := "a", isInput := true }, { name := "b", isInput := true }, { name := "t_0" },
    { name := "t_1" }]

def chainedTargets : List TargetData :=
  [{ name := "t_0", inxcases := [OrdMap.tabulate [1, 3] fun _ => true] },
    { name := "t_1", inxcases := [OrdMap.tabulate [0, 1] (· = 0), OrdMap.tabulate [0, 1] (· = 1)] }]

example : (patchData (ofNodes chainedNodes) (singles chainedTargets)).map Patch.generateBlif =
    some (".model patch\n.inputs a b\n.outputs t_0 t_1\n" ++ ".names b t_1 t_0\n11 1\n" ++
      ".names a b t_1\n10 1\n01 1\n.end\n") := by decide

theorem chained_readable : Readable (ofNodes chainedNodes) chainedTargets := by
  have hid : ∀ s ∈ ["a", "b", "t_0", "t_1"], IsId s.toList := by
    intro s hs
    simp only [List.mem_cons, List.not_mem_nil, or_false] at hs
    rcases hs with rfl | rfl | rfl | rfl
    · exact ⟨'a', [], by decide, .inl (by decide), by simp⟩
    · exact ⟨'b', [], by decide, .inl (by decide), by simp⟩
    · exact ⟨'t', ['_', '0'], by decide, .inl (by decide), by simp [IdChar]⟩
    · exact ⟨'t', ['_', '1'], by decide, .inl (by decide), by simp [IdChar]⟩
  have htarget : ∀ d ∈ chainedTargets, d.name ∈ ["a", "b", "t_0", "t_1"] := by decide
  have hsignal : ∀ d ∈ chainedTargets, ∀ sig ∈ d.signals,
      ((ofNodes chainedNodes).node sig).name ∈ ["a", "b", "t_0", "t_1"] := by decide
  exact ⟨fun d hd => hid _ (htarget d hd), fun d hd sig hsig => hid _ (hsignal d hd sig hsig),
    by decide, by decide, by decide⟩

theorem lex_singleTargets_chained : ∃ p l,
    patchData (ofNodes chainedNodes) (singles chainedTargets) = some p ∧
    lex p.generateBlif = some l ∧
    l.circuit.inputs.map l.nameOf = p.inputs ∧ l.circuit.outputs.map l.nameOf = p.outputs ∧
    (∀ s, s ∈ p.inputs ↔ ∃ d ∈ chainedTargets, ∃ sig ∈ d.signals,
      ((ofNodes chainedNodes).node sig).name = s ∧ isTarget s = false) ∧
    (∀ s, s ∈ p.outputs ↔ s ∈ chainedTargets.map TargetData.name) ∧
    ∀ x w, l.circuit.Valuation [] x w ↔
      (∀ s ∈ p.inputs, w ((l.circuit.getNode s).getD 0) = x s) ∧
      ∀ d ∈ chainedTargets, (w ((l.circuit.getNode d.name).getD 0) = true ↔
        ∃ inxcase ∈ d.inxcases, ∀ sig ∈ d.signals, inxcase.at sig =
          w ((l.circuit.getNode ((ofNodes chainedNodes).node sig).name).getD 0)) :=
  lex_singleTargets chained_readable

end Msyn.PatchData
