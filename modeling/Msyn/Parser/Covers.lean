import Msyn.Circuit.Semantics
import Msyn.Parser.Blocks
import Msyn.Parser.Names

/-!
# The covers that are read

The text of a netlist: declarations, `.names` blocks with one driver for each name, and the end. The
node of a block gets the fanins of the header and the lines of the cover, and computes from them the
function of the block unless the block is the constant 1 (`keepsCover_iff`): `array` wants a blank
before the output value, so the line of a constant is not matched whole.
-/

namespace Msyn.Parser

open Nodecircuit Circuit

/-- A line of the cover of a node with `n` fanins. -/
def IsCoverLine (n : Nat) (s : List Char) : Prop :=
  if n = 0 then IsValue s
  else IsLine s ∧ s.length = n + 2

/-- The text before the first block: lines without a `.names`. -/
structure Preface (pre : List Char) : Prop where
  ended : Ended pre
  noNames : ∀ t ∈ tokens pre, t.1 ≠ 5

/-- The text after the last block: nothing, or an `.end` that no keyword follows. -/
def Closing (fin : List Char) : Prop :=
  fin = [] ∨ ∃ tail, fin = ['.', 'e', 'n', 'd'] ++ tail ∧ ∀ t ∈ tokens tail, 6 ≤ t.1

/-- A netlist in BLIF. -/
structure Blif where
  pre : List Char
  blocks : List Block
  fin : List Char
  preface : Preface pre
  closing : Closing fin
  coverLines : ∀ g ∈ blocks, ∀ s ∈ g.lines, IsCoverLine g.ins.length s
  driver : (blocks.map fun g => g.out.name).Nodup

def Blif.text (b : Blif) : String := String.ofList (b.pre ++ (b.blocks.flatMap Block.text ++ b.fin))

/-- The node of the block has the fanins of the header, and its cube is the function of the lines. -/
def KeepsCover (c : Circuit) (g : Block) : Prop :=
  ∃ n, c.getNode g.out.name = some n ∧
    ((c.node n).inputs.map fun i => (c.node i).name) = g.ins.map Word.name ∧
      ∀ vals : List Bool, vals.length = g.ins.length →
        evalCube (c.node n).cube vals = evalLines g.lines vals

/-! ## The declarations -/

/-- Nothing is read that a declaration would hide. -/
structure Reader.Plain (r : Reader) : Prop where
  pending : r.pending = []
  mode : r.mode ≠ .names ∧ r.mode ≠ .cover
  contents : ∀ s, r.net.fanins s = [] ∧ r.net.cube s = ""

namespace Reader.Plain

variable {r : Reader} (h : r.Plain)
include h

theorem step {t : Token} (ht : t.1 ≠ 5) : ∃ r', r.step t = some r' ∧ r'.Plain := by
  obtain ⟨rule, text⟩ := t
  match rule with
  | 5 => exact absurd rfl ht
  | 1 | 2 | 3 | 4 => exact ⟨_, rfl, h.pending, by simp, h.contents⟩
  | 0 | _ + 9 => exact ⟨r, rfl, h⟩
  | 6 =>
    refine ⟨r.id text, rfl, ?_⟩
    have hmode := h.mode
    unfold Reader.id
    cases hm : r.mode with
    | names => exact absurd hm hmode.1
    | cover => exact absurd hm hmode.2
    | model => exact ⟨h.pending, by simp, h.contents⟩
    | inputs | outputs => exact ⟨h.pending, by simp, h.contents⟩
    | start | done => exact h
  | 7 => exact ⟨r, if_neg h.mode.1, h⟩
  | 8 => exact ⟨r, if_neg h.mode.2, h⟩

theorem fresh (t : Token) : Fresh r t := fun _ _ =>
  ⟨(h.contents t.2).1, (h.contents t.2).2, by simp [h.pending]⟩

theorem run {ts : List Token} (ht : ∀ t ∈ ts, t.1 ≠ 5) :
    ∃ r', ts.foldlM Reader.step r = some r' ∧ r'.Plain ∧ FreshRun ts r := by
  induction ts generalizing r with
  | nil => exact ⟨r, rfl, h, trivial⟩
  | cons t ts ih =>
    obtain ⟨r1, h1, hp1⟩ := h.step (ht t (by simp))
    obtain ⟨r', h2, hp2, hf⟩ := ih hp1 fun u hu => ht u (by simp [hu])
    refine ⟨r', (run_cons h1).trans h2, hp2, h.fresh t, fun r2 hr2 => ?_⟩
    rw [h1] at hr2
    cases hr2
    exact hf

end Reader.Plain

/-! ## The blocks -/

theorem Mode.next_ne {m : Mode} {rule : Nat} (hm : m ≠ .inputs ∧ m ≠ .outputs)
    (hr : rule ≠ 3 ∧ rule ≠ 4) : m.next rule ≠ .inputs ∧ m.next rule ≠ .outputs := by
  match rule with
  | 3 => exact absurd rfl hr.1
  | 4 => exact absurd rfl hr.2
  | 1 | 2 | 5 => exact ⟨by simp [Mode.next], by simp [Mode.next]⟩
  | 6 =>
    by_cases h : m = .model
    · simp [Mode.next, h]
    · simpa [Mode.next, h] using hm
  | 7 =>
    by_cases h : m = .names
    · simp [Mode.next, h]
    · simpa [Mode.next, h] using hm
  | 0 | _ + 8 => exact hm

/-- Where no section of declarations begins, nothing is declared. -/
theorem freshRun_of_keywords {ts : List Token} {r : Reader} (hm : r.mode ≠ .inputs ∧ r.mode ≠ .outputs)
    (ht : ∀ t ∈ ts, t.1 ≠ 3 ∧ t.1 ≠ 4) : FreshRun ts r := by
  induction ts generalizing r with
  | nil => trivial
  | cons t ts ih =>
    refine ⟨fun _ hd => absurd hd (by simp [hm.1, hm.2]), fun r' hr => ih ?_ fun u hu =>
      ht u (by simp [hu])⟩
    rw [(Reader.step_enter hr).1]
    exact Mode.next_ne hm (ht t (by simp))

theorem Block.tokens_keywords (g : Block) : ∀ t ∈ g.tokens, t.1 ≠ 3 ∧ t.1 ≠ 4 := by
  have hblank : ∀ s, ∀ t ∈ blankTokens s, 5 ≤ t.1 := fun s t ht => by
    obtain ⟨ch, -, rfl⟩ := List.mem_map.1 ht
    exact (by decide : 5 ≤ 9)
  have heol : ∀ e : String, 5 ≤ ((7, e) : Token).1 := fun _ => (by decide : 5 ≤ 7)
  have hline : ∀ s, 5 ≤ (lineToken s).1 := fun s => by
    show 5 ≤ if _ then _ else _
    split <;> decide
  have hrule : ∀ t ∈ g.tokens, 5 ≤ t.1 := by
    intro t ht
    simp only [Block.tokens, wordTokens, List.mem_cons, List.mem_append, List.mem_flatMap,
      List.not_mem_nil, or_false] at ht
    rcases ht with rfl | ⟨w, -, hb | rfl⟩ | hb | rfl | ⟨s, -, rfl | rfl⟩ | ⟨s, -, hb | rfl⟩
    · exact le_rfl
    · exact hblank _ t hb
    · exact (by decide : 5 ≤ 6)
    · exact hblank _ t hb
    · exact heol _
    · exact hline s
    · exact heol _
    · exact hblank _ t hb
    · exact heol _
  exact fun t ht => ⟨by have := hrule t ht; omega, by have := hrule t ht; omega⟩

/-! ## The function of a cube -/

theorem IsLine.noNewline {s : List Char} (hs : IsLine s) : '\n' ∉ s := by
  obtain ⟨plane, blank, out, rfl, hp, hb, ho⟩ := hs
  intro hmem
  rcases List.mem_append.1 hmem with hmem | hmem
  · exact absurd (hp _ hmem) (by decide)
  · rcases List.mem_cons.1 hmem with rfl | hmem
    · exact absurd hb (by decide)
    · rw [← List.mem_singleton.1 hmem] at ho
      exact absurd ho (by decide)

section
variable {g : Block} (hl : ∀ s ∈ g.lines, IsCoverLine g.ins.length s)
include hl

/-- The lines of a node with fanins are kept. -/
theorem evalCube_gate (hins : g.ins ≠ []) (vals : List Bool) :
    evalCube g.gate.cube vals = evalLines g.lines vals := by
  have hn : g.ins.length ≠ 0 := fun h0 => hins (List.length_eq_zero_iff.1 h0)
  have hline : ∀ s ∈ g.lines, IsLine s := fun s hs => by
    have := hl s hs
    rw [IsCoverLine, if_neg hn] at this
    exact this.1
  have hkept : keptLines g.lines = g.lines :=
    List.filter_eq_self.2 fun s hs => by simpa using (hline s hs).length
  have hcube : g.gate.cube.toList = g.lines.flatMap fun s => s ++ ['\n'] := by
    rw [Block.gate, hkept, String.toList_ofList]
  rw [evalCube, hcube, coverLines_flatMap fun s hs => (hline s hs).noNewline]

/-- The line of a constant is not kept, which leaves the constant 0. -/
theorem evalCube_const (hins : g.ins = []) :
    evalCube g.gate.cube [] = evalLines g.lines [] ↔ g.lines.head? ≠ some ['1'] := by
  have hvalue : ∀ s ∈ g.lines, IsValue s := fun s hs => by
    have := hl s hs
    rwa [IsCoverLine, if_pos (by rw [hins]; rfl)] at this
  have hkept : keptLines g.lines = [] := by
    refine List.filter_eq_nil_iff.2 fun s hs => ?_
    rcases hvalue s hs with rfl | rfl <;> decide
  have hcube : evalCube g.gate.cube [] = false := by
    rw [Block.gate, hkept]
    rfl
  rw [hcube]
  cases hlines : g.lines with
  | nil => simp [evalLines, isComplement]
  | cons s lines =>
    rcases hvalue s (by rw [hlines]; simp) with rfl | rfl
    · simp [evalLines, isComplement, matchLine]
    · simp [evalLines, isComplement, matchLine]

end

/-! ## The netlist -/

theorem tokens_blocks (blocks : List Block) (rest : List Char) :
    tokens (blocks.flatMap Block.text ++ rest) = blocks.flatMap Block.tokens ++ tokens rest := by
  induction blocks with
  | nil => rfl
  | cons g blocks ih =>
    rw [List.flatMap_cons, List.append_assoc, g.tokens_text, ih, List.flatMap_cons,
      List.append_assoc]

theorem run_blocks (blocks : List Block) {r : Reader} (hp : r.pending = []) :
    ∃ r', (blocks.flatMap Block.tokens).foldlM Reader.step r = some r' ∧
      r'.net = (blocks.map Block.gate).foldl Netlist.addGate r.net := by
  induction blocks generalizing r with
  | nil => exact ⟨r, rfl, rfl⟩
  | cons g blocks ih =>
    obtain ⟨r', h1, h2⟩ := @ih {
      net := r.net.addGate g.gate
      current := some g.out.name
      mode := .cover } rfl
    exact ⟨r', (run_append (g.run_tokens hp)).trans h1, h2⟩

/-- After the end only a keyword would be read. -/
theorem run_done {ts : List Token} (ht : ∀ t ∈ ts, 6 ≤ t.1) {r : Reader} (hm : r.mode = .done) :
    ts.foldlM Reader.step r = some r := by
  induction ts with
  | nil => rfl
  | cons t ts ih =>
    have hstep : r.step t = some r := by
      obtain ⟨rule, text⟩ := t
      have hle : 6 ≤ rule := ht (rule, text) (by simp)
      match rule, hle with
      | 6, _ => exact congrArg some (Reader.id_other (.inr (.inr hm)))
      | 7, _ => exact if_neg (by rw [hm]; decide)
      | 8, _ => exact if_neg (by rw [hm]; decide)
      | _ + 9, _ => rfl
    rw [run_cons hstep]
    exact ih fun u hu => ht u (by simp [hu])

/-- The tokens of the end. -/
theorem Closing.tokens {fin : List Char} (h : Closing fin) : Parser.tokens fin = [] ∨
    ∃ ts, Parser.tokens fin = (1, ".end") :: ts ∧ ∀ t ∈ ts, 6 ≤ t.1 := by
  rcases h with rfl | ⟨tail, rfl, ht⟩
  · exact .inl rfl
  · exact .inr ⟨_, tokens_end tail, ht⟩

theorem run_closing {fin : List Char} (h : Closing fin) (r : Reader) :
    ∃ r', (tokens fin).foldlM Reader.step r = some r' ∧ r'.net = r.net := by
  rcases h.tokens with h | ⟨ts, h, ht⟩
  · exact ⟨r, by rw [h]; rfl, rfl⟩
  · have hend : r.step (1, ".end") = some { r with mode := .done } := rfl
    exact ⟨{ r with mode := .done }, by rw [h, run_cons hend, run_done ht rfl], rfl⟩

/-- From the first block on nothing is declared. -/
theorem freshRun_blocks (blocks : List Block) {fin : List Char} (h : Closing fin) (r : Reader) :
    FreshRun (blocks.flatMap Block.tokens ++ tokens fin) r := by
  have hfin : ∀ t ∈ tokens fin, t.1 ≠ 3 ∧ t.1 ≠ 4 := by
    rcases h.tokens with h | ⟨ts, h, ht⟩
    · simp [h]
    · intro t htm
      rw [h] at htm
      rcases List.mem_cons.1 htm with rfl | htm
      · decide
      · have := ht t htm
        exact ⟨by omega, by omega⟩
  have hall : ∀ t ∈ blocks.flatMap Block.tokens ++ tokens fin, t.1 ≠ 3 ∧ t.1 ≠ 4 := by
    intro t ht
    rcases List.mem_append.1 ht with ht | ht
    · obtain ⟨g, -, hg⟩ := List.mem_flatMap.1 ht
      exact g.tokens_keywords t hg
    · exact hfin t ht
  -- the first token is a keyword
  have hhead : ∀ t ∈ (blocks.flatMap Block.tokens ++ tokens fin).head?, t.1 = 5 ∨ t.1 = 1 := by
    intro t ht
    cases blocks with
    | nil =>
      rcases h.tokens with h | ⟨ts, h, -⟩
      · rw [h] at ht
        cases ht
      · rw [h] at ht
        cases ht
        exact .inr rfl
    | cons g blocks =>
      cases ht
      exact .inl rfl
  generalize blocks.flatMap Block.tokens ++ tokens fin = ts at hall hhead
  cases ts with
  | nil => trivial
  | cons t ts =>
    have ht := hhead t rfl
    refine ⟨fun h6 => by omega, fun r' hr => freshRun_of_keywords ?_ fun u hu => hall u (by simp [hu])⟩
    rw [(Reader.step_enter hr).1]
    rcases ht with ht | ht
    · rw [ht]
      exact ⟨by simp [Mode.next], by simp [Mode.next]⟩
    · rw [ht]
      exact ⟨by simp [Mode.next], by simp [Mode.next]⟩

/-- What is read of a netlist: each node of a block has the gate of the block. -/
theorem Blif.lex_text (b : Blif) : ∃ l, lex b.text = some l ∧ ∀ g ∈ b.blocks,
    ∃ n, l.circuit.getNode g.out.name = some n ∧
      ((l.circuit.node n).inputs.map fun i => (l.circuit.node i).name) = g.ins.map Word.name ∧
        (l.circuit.node n).cube = g.gate.cube := by
  have hinit := reads_init.1
  have hlooked : Looked .init {} := (hinit.looked_iff List.nodup_nil).2 reads_init.2
  have hplain : Reader.Plain {} := ⟨rfl, by simp, fun _ => ⟨rfl, rfl⟩⟩
  obtain ⟨r1, hr1, hplain1, hfresh1⟩ := hplain.run b.preface.noNames
  obtain ⟨l1, hl1, hreads1, hlooked1⟩ := hinit.looked_run hlooked hr1 hfresh1
  obtain ⟨r2, hr2, hnet2⟩ := run_blocks b.blocks hplain1.pending
  obtain ⟨r3, hr3, hnet3⟩ := run_closing b.closing r2
  have hrun : (b.blocks.flatMap Block.tokens ++ tokens b.fin).foldlM Reader.step r1 = some r3 :=
    (run_append hr2).trans hr3
  obtain ⟨l, hl, hreads, hlooked⟩ :=
    hreads1.looked_run hlooked1 hrun (freshRun_blocks b.blocks b.closing r1)
  have hlex : lex b.text = some l := by
    rw [lex_eq, Blif.text, String.toList_ofList, b.preface.ended.tokens_append, tokens_blocks,
      List.foldlM_append, hl1]
    exact hl
  refine ⟨l, hlex, fun g hg => ?_⟩
  have hmem : g.gate ∈ b.blocks.map Block.gate := List.mem_map_of_mem hg
  have hnd : ((b.blocks.map Block.gate).map Gate.name).Nodup := by
    rw [List.map_map]
    exact b.driver
  obtain ⟨hf, hc⟩ := foldl_addGate_mem r1.net hnd hmem
  rw [(hplain1.contents _).1, List.nil_append] at hf
  rw [(hplain1.contents _).2, String.empty_append] at hc
  have hnode : g.out.name ∈ r3.net.nodes := by
    rw [hnet3, hnet2, mem_foldl_addGate]
    exact .inr ⟨g.gate, hmem, .inr rfl⟩
  cases hget : l.circuit.getNode g.out.name with
  | none => exact absurd hnode ((hreads.getNode_none_iff _).1 hget)
  | some n =>
    refine ⟨n, rfl, (hlooked.fanins _ n hget).trans ?_, (hlooked.cube _ n hget).trans ?_⟩
    · rw [hnet3, hnet2]
      exact hf
    · rw [hnet3, hnet2]
      exact hc

/-- **The parser keeps the covers** of a netlist exactly if no block is the constant 1. -/
theorem Blif.keepsCover_iff (b : Blif) : ∃ l, lex b.text = some l ∧
    ((∀ g ∈ b.blocks, KeepsCover l.circuit g) ↔
      ∀ g ∈ b.blocks, g.ins = [] → g.lines.head? ≠ some ['1']) := by
  obtain ⟨l, hl, hblocks⟩ := b.lex_text
  refine ⟨l, hl, forall₂_congr fun g hg => ?_⟩
  obtain ⟨n, hn, hins, hcube⟩ := hblocks g hg
  have hlines := b.coverLines g hg
  constructor
  · rintro ⟨m, hm, -, hfun⟩ hnil
    have hmn : m = n := Option.some.inj (hm.symm.trans hn)
    have := hfun [] (by rw [hnil]; rfl)
    rw [hmn, hcube] at this
    exact (evalCube_const hlines hnil).1 this
  · intro hone
    refine ⟨n, hn, hins, fun vals hvals => ?_⟩
    rw [hcube]
    by_cases hnil : g.ins = []
    · rw [hnil, List.length_nil, List.length_eq_zero_iff] at hvals
      rw [hvals]
      exact (evalCube_const hlines hnil).2 (hone hnil)
    · exact evalCube_gate hlines hnil vals

/-- A netlist with one node, the constant 1. -/
def constantOne : Blif where
  pre := ".model m\n.outputs f\n".toList
  blocks := [{
    ins := []
    out := ⟨[' '], "f", blanks_space, ⟨'f', [], by decide, .inl (by decide), by simp⟩⟩
    lines := [['1']]
    apart := apart_singleton _
    isTrail := blanks_nil
    isEol := isEol_newline
    isLines := by simp [IsValue]
    isGap := by simp
    notSelf := by simp }]
  fin := ".end\n".toList
  preface := ⟨.inr (by decide +kernel), by decide +kernel⟩
  closing := .inr ⟨['\n'], by decide +kernel, by decide +kernel⟩
  coverLines := by simp [IsCoverLine, IsValue]
  driver := by simp

/-- Its node is read as the constant 0. -/
theorem constantOne_dropped : constantOne.text = ".model m\n.outputs f\n.names f\n1\n.end\n" ∧
    ∃ l, lex constantOne.text = some l ∧ ¬∀ g ∈ constantOne.blocks, KeepsCover l.circuit g := by
  refine ⟨by decide +kernel, ?_⟩
  obtain ⟨l, hl, hblocks⟩ := constantOne.lex_text
  refine ⟨l, hl, fun hall => ?_⟩
  obtain ⟨n, hn, -, hcube⟩ := hblocks _ List.mem_cons_self
  obtain ⟨m, hm, -, hfun⟩ := hall _ List.mem_cons_self
  have hmn : m = n := Option.some.inj (hm.symm.trans hn)
  have hone := hfun [] rfl
  rw [hmn, hcube] at hone
  exact absurd hone (by decide +kernel)

end Msyn.Parser
