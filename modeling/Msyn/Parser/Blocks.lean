import Msyn.Parser.Reader

/-!
# Blocks

A piece of a text is read as a change of the netlist, whatever comes after it (`ReadsAs`). A `.names`
block adds a gate: the last name of its header gets the others as fanins and the lines of the cover
as its cube, of which the lexer skips those that are a value only (`Block.readsAs`).
-/

namespace Msyn.Parser

open Nodecircuit

/-- The piece of text makes this change, in whatever text it stands. -/
def ReadsAs (piece : List Char) (f : Netlist → Netlist) : Prop :=
  ∃ ts : List Token, (∀ rest, tokens (piece ++ rest) = ts ++ tokens rest) ∧
    ∀ r : Reader, r.pending = [] →
      ∃ r', ts.foldlM Reader.step r = some r' ∧ r'.net = f r.net ∧ r'.pending = []

namespace ReadsAs

theorem nil : ReadsAs [] fun net => net := ⟨[], fun _ => rfl, fun r hr => ⟨r, rfl, rfl, hr⟩⟩

theorem append {p q : List Char} {f g : Netlist → Netlist} (hp : ReadsAs p f) (hq : ReadsAs q g) :
    ReadsAs (p ++ q) fun net => g (f net) := by
  obtain ⟨ts, h1, h2⟩ := hp
  obtain ⟨us, h3, h4⟩ := hq
  refine ⟨ts ++ us, fun rest => by rw [List.append_assoc, h1, h3, List.append_assoc], fun r hr => ?_⟩
  obtain ⟨r1, e1, n1, p1⟩ := h2 r hr
  obtain ⟨r2, e2, n2, p2⟩ := h4 r1 p1
  refine ⟨r2, ?_, n2.trans (by rw [n1]), p2⟩
  rw [List.foldlM_append, e1]
  exact e2

theorem flatMap {α : Type} {l : List α} {p : α → List Char} {f : α → Netlist → Netlist}
    (h : ∀ a ∈ l, ReadsAs (p a) (f a)) :
    ReadsAs (l.flatMap p) fun net => l.foldl (fun net a => f a net) net := by
  induction l with
  | nil => exact nil
  | cons a l ih =>
    rw [List.flatMap_cons]
    exact (h a (by simp)).append (ih fun b hb => h b (by simp [hb]))

end ReadsAs

/-! ## The text of a block -/

/-- A line that is a value, for a node without fanins. -/
def IsValue (s : List Char) : Prop := s = ['0'] ∨ s = ['1']

/-- The token of a line of a cover. A value alone is not matched by `array`. -/
def lineToken (s : List Char) : Token := (if 1 < s.length then 8 else 9, String.ofList s)

/-- The lines that are matched by `array`. -/
def keptLines (lines : List (List Char)) : List (List Char) := lines.filter fun s => 1 < s.length

/-- A `.names` block, with the blanks and the ends of lines that it is written with. -/
structure Block where
  ins : List Word
  out : Word
  trail : List Char := []
  eol : List Char := ['\n']
  lines : List (List Char)
  /-- The empty lines after the block. -/
  gap : List (List Char) := []
  apart : Apart (ins ++ [out])
  isTrail : Blanks trail
  isEol : IsEol eol
  isLines : ∀ s ∈ lines, IsLine s ∨ IsValue s
  isGap : ∀ s ∈ gap, Blanks s
  notSelf : out.name ∉ ins.map Word.name

namespace Block

def text (g : Block) : List Char :=
  ['.', 'n', 'a', 'm', 'e', 's'] ++ (wordsChars (g.ins ++ [g.out]) ++ (g.trail ++ (g.eol ++
    (g.lines.flatMap (fun s => s ++ g.eol) ++ g.gap.flatMap fun s => s ++ g.eol))))

def tokens (g : Block) : List Token :=
  (5, ".names") :: (wordTokens (g.ins ++ [g.out]) ++ (blankTokens g.trail ++
    ((7, String.ofList g.eol) ::
      (g.lines.flatMap (fun s => [lineToken s, (7, String.ofList g.eol)]) ++
        g.gap.flatMap fun s => blankTokens s ++ [(7, String.ofList g.eol)]))))

end Block

theorem IsEol.head {e : List Char} (he : IsEol e) (rest : List Char) :
    ∀ ch ∈ (e ++ rest).head?, ¬IdChar ch ∧ ch ≠ '0' ∧ ch ≠ '1' := by
  intro ch hch
  rcases he with rfl | rfl <;> cases hch <;> decide

theorem IsLine.length {s : List Char} (hs : IsLine s) : 1 < s.length := by
  obtain ⟨plane, blank, out, rfl, -⟩ := hs
  simp

theorem tokens_coverLine {s e : List Char} (hs : IsLine s ∨ IsValue s) (he : IsEol e)
    (rest : List Char) :
    tokens (s ++ (e ++ rest)) = lineToken s :: (7, String.ofList e) :: tokens rest := by
  rcases hs with hs | hs
  · rw [tokens_line hs, tokens_eol he, lineToken, if_pos hs.length]
  · rw [lineToken, if_neg (by rcases hs with rfl | rfl <;> decide)]
    rcases hs with rfl | rfl
    · exact (tokens_value (.inl rfl) he).trans (by rw [tokens_eol he])
    · exact (tokens_value (.inr rfl) he).trans (by rw [tokens_eol he])

section
variable {e : List Char} (he : IsEol e) (rest : List Char)
include he

theorem tokens_coverLines {lines : List (List Char)} (hl : ∀ s ∈ lines, IsLine s ∨ IsValue s) :
    tokens (lines.flatMap (fun s => s ++ e) ++ rest) =
      lines.flatMap (fun s => [lineToken s, (7, String.ofList e)]) ++ tokens rest := by
  induction lines with
  | nil => rfl
  | cons s lines ih =>
    rw [List.flatMap_cons, List.append_assoc, List.append_assoc, tokens_coverLine (hl s (by simp)) he,
      ih fun t ht => hl t (by simp [ht])]
    rfl

theorem tokens_gap {gap : List (List Char)} (hg : ∀ s ∈ gap, Blanks s) :
    tokens (gap.flatMap (fun s => s ++ e) ++ rest) =
      gap.flatMap (fun s => blankTokens s ++ [(7, String.ofList e)]) ++ tokens rest := by
  induction gap with
  | nil => rfl
  | cons s gap ih =>
    rw [List.flatMap_cons, List.append_assoc, List.append_assoc,
      tokens_blanks (hg s (by simp)) fun ch hch => (he.head _ ch hch).2, tokens_eol he,
      ih fun t ht => hg t (by simp [ht]), List.flatMap_cons, List.append_assoc, List.append_assoc]
    rfl

end

theorem Block.tokens_text (g : Block) (rest : List Char) :
    Parser.tokens (g.text ++ rest) = g.tokens ++ Parser.tokens rest := by
  have heol := fun rest => g.isEol.head rest
  have hstop : ∀ rest, ∀ ch ∈ (g.trail ++ (g.eol ++ rest)).head?, ¬IdChar ch := by
    intro rest ch hch
    cases ht : g.trail with
    | nil =>
      rw [ht] at hch
      exact (heol rest ch hch).1
    | cons b trail =>
      rw [ht] at hch
      cases hch
      rcases g.isTrail ch (by rw [ht]; simp) with rfl | rfl <;> decide
  rw [text, List.append_assoc, tokens_names, tokens]
  simp only [List.append_assoc, List.cons_append]
  rw [tokens_words g.apart (hstop _),
    tokens_blanks g.isTrail fun ch hch => (heol _ ch hch).2, tokens_eol g.isEol,
    tokens_coverLines g.isEol _ g.isLines, tokens_gap g.isEol _ g.isGap]

/-! ## What a block does -/

/-- A list of names, after each name the ones that are not there yet. -/
def addNames (nodes names : List String) : List String :=
  names.foldl (fun nodes s => if s ∈ nodes then nodes else nodes ++ [s]) nodes

/-- A node with its fanins and its cover. -/
structure Gate where
  ins : List String
  name : String
  cube : String

/-- The gate of a node. -/
def gateOf (c : Circuit) (n : NodeId) : Gate where
  ins := (c.node n).inputs.map fun i => (c.node i).name
  name := (c.node n).name
  cube := (c.node n).cube

/-- What the section of a node does. -/
def Netlist.addGate (net : Netlist) (g : Gate) : Netlist :=
  { net with
    nodes := addNames net.nodes (g.ins ++ [g.name])
    fanins := Function.update net.fanins g.name (net.fanins g.name ++ g.ins)
    cube := Function.update net.cube g.name (net.cube g.name ++ g.cube) }

theorem run_cons {t : Token} {ts : List Token} {r r' : Reader} (h : r.step t = some r') :
    (t :: ts).foldlM Reader.step r = ts.foldlM Reader.step r' := by
  rw [List.foldlM_cons, h]
  rfl

theorem run_append {ts us : List Token} {r r' : Reader} (h : ts.foldlM Reader.step r = some r') :
    (ts ++ us).foldlM Reader.step r = us.foldlM Reader.step r' := by
  rw [List.foldlM_append, h]
  rfl

/-- A newline is only read in a `.names` line. -/
theorem step_newline {r : Reader} (hm : r.mode ≠ .names) {e : String} :
    r.step (7, e) = some r :=
  if_neg hm

theorem run_blanks (s : List Char) (r : Reader) :
    (blankTokens s).foldlM Reader.step r = some r := by
  induction s with
  | nil => rfl
  | cons ch s ih => exact (run_cons rfl).trans ih

/-- The words of a line in mode `.names`. -/
theorem run_words {ws : List Word} {r : Reader} (hm : r.mode = .names) :
    (wordTokens ws).foldlM Reader.step r = some { r with
      net := { r.net with nodes := addNames r.net.nodes (ws.map Word.name) }
      current := (ws.map Word.name).foldl (fun _ s => some s) r.current
      pending := r.pending ++ ws.map Word.name } := by
  induction ws generalizing r with
  | nil => simp [wordTokens, addNames]
  | cons w ws ih =>
    have e : r.step (6, w.name) = some { r with
        net := { r.net with
          nodes := if w.name ∈ r.net.nodes then r.net.nodes else r.net.nodes ++ [w.name] }
        current := some w.name
        pending := r.pending ++ [w.name] } := congrArg some (Reader.id_names hm)
    have hcons : wordTokens (w :: ws) = blankTokens w.blanks ++ (6, w.name) :: wordTokens ws := by
      simp [wordTokens]
    rw [hcons, run_append (run_blanks _ r), run_cons e]
    refine (ih ?_).trans ?_
    · exact hm
    · simp [addNames]

/-- The lines of a cover in mode `.cover`. -/
theorem run_lines {lines : List (List Char)} {r : Reader} {cur e : String} (hm : r.mode = .cover)
    (hc : r.current = some cur) :
    (lines.flatMap fun s => [lineToken s, (7, e)]).foldlM Reader.step r =
      some { r with net := { r.net with
        cube := Function.update r.net.cube cur (r.net.cube cur ++
          String.ofList ((keptLines lines).flatMap fun s => s ++ ['\n'])) } } := by
  have hnl : ∀ r' : Reader, r'.mode = .cover → r'.step (7, e) = some r' := fun r' hm' =>
    step_newline (by rw [hm']; decide)
  induction lines generalizing r with
  | nil => simp [keptLines]
  | cons s lines ih =>
    rw [List.flatMap_cons, List.cons_append, List.singleton_append]
    by_cases hs : 1 < s.length
    · have hstep : r.step (lineToken s) = some { r with net := { r.net with
          cube := Function.update r.net.cube cur
            (r.net.cube cur ++ String.ofList s ++ "\n") } } := by
        rw [lineToken, if_pos hs]
        show r.array _ = _
        unfold Reader.array
        rw [if_pos hm, hc]
      have hkept : keptLines (s :: lines) = s :: keptLines lines :=
        List.filter_cons_of_pos (by simpa using hs)
      rw [run_cons hstep]
      refine (run_cons (hnl _ ?_)).trans ((ih ?_ ?_).trans ?_)
      · exact hm
      · exact hm
      · exact hc
      have hcat : r.net.cube cur ++ String.ofList s ++ "\n" ++
          String.ofList ((keptLines lines).flatMap fun s => s ++ ['\n']) =
            r.net.cube cur ++ String.ofList ((s :: keptLines lines).flatMap fun s => s ++ ['\n']) := by
        have hnl : "\n".toList = ['\n'] := by decide
        rw [← String.toList_inj]
        simp [hnl]
      simp only [Function.update_self, hkept, hcat, Function.update_idem]
    · have hstep : r.step (lineToken s) = some r := by
        rw [lineToken, if_neg hs]
        rfl
      have hkept : keptLines (s :: lines) = keptLines lines :=
        List.filter_cons_of_neg (by simpa using hs)
      rw [run_cons hstep, run_cons (hnl _ hm), ih hm hc, hkept]

theorem run_gap {gap : List (List Char)} {r : Reader} {e : String} (hm : r.mode ≠ .names) :
    (gap.flatMap fun s => blankTokens s ++ [((7, e) : Token)]).foldlM Reader.step r = some r := by
  induction gap with
  | nil => rfl
  | cons s gap ih =>
    rw [List.flatMap_cons, List.append_assoc, run_append (run_blanks _ r), List.singleton_append,
      run_cons (step_newline hm), ih]

theorem newline_names {r : Reader} {cur e : String} (hm : r.mode = .names)
    (hc : r.current = some cur) (hp : r.pending ≠ []) : r.step (7, e) = some { r with
      net := { r.net with
        fanins := Function.update r.net.fanins cur
          (r.net.fanins cur ++ r.pending.filter fun s => cur ≠ s) }
      pending := []
      mode := .cover } := by
  show r.newline = _
  unfold Reader.newline
  rw [if_pos hm, hc]
  cases hp' : r.pending with
  | nil => exact absurd hp' hp
  | cons s ps => rfl

namespace Block

/-- The gate that is read from the block. -/
def gate (g : Block) : Gate where
  ins := g.ins.map Word.name
  name := g.out.name
  cube := String.ofList ((keptLines g.lines).flatMap fun s => s ++ ['\n'])

theorem run_tokens (g : Block) {r : Reader} (hp : r.pending = []) :
    g.tokens.foldlM Reader.step r = some {
      net := r.net.addGate g.gate
      current := some g.out.name
      mode := .cover } := by
  have hfilter : ((g.ins ++ [g.out]).map Word.name).filter (fun s => g.out.name ≠ s) =
      g.ins.map Word.name := by
    rw [List.map_append, List.filter_append, List.filter_eq_self.2 fun s hs => by
      have : g.out.name ≠ s := fun he => g.notSelf (he ▸ hs)
      simpa using this]
    simp
  have hcur : ((g.ins ++ [g.out]).map Word.name).foldl (fun _ s => some s) r.current =
      some g.out.name := by simp
  have hstart : r.step (5, ".names") = some { r with mode := .names } := rfl
  rw [tokens, run_cons hstart, run_append (run_words rfl), run_append (run_blanks _ _),
    run_cons (newline_names rfl hcur (by simp))]
  simp only [hp, List.nil_append, hfilter]
  rw [run_append (run_lines rfl hcur), run_gap (by simp)]
  simp [Netlist.addGate, gate]

/-- **A block adds a gate** to the netlist. -/
theorem readsAs (g : Block) : ReadsAs g.text fun net => net.addGate g.gate :=
  ⟨g.tokens, g.tokens_text, fun _ hr => ⟨_, g.run_tokens hr, rfl, rfl⟩⟩

end Block

/-! ## The sections together -/

theorem mem_addNames {names : List String} {nodes : List String} {s : String} :
    s ∈ addNames nodes names ↔ s ∈ nodes ∨ s ∈ names := by
  induction names generalizing nodes with
  | nil => simp [addNames]
  | cons t names ih =>
    have e : addNames nodes (t :: names) =
        addNames (if t ∈ nodes then nodes else nodes ++ [t]) names := rfl
    rw [e, ih, List.mem_cons]
    split
    · rename_i ht
      constructor
      · exact fun h => h.imp_right .inr
      · rintro (h | rfl | h)
        · exact .inl h
        · exact .inl ht
        · exact .inr h
    · rw [List.mem_append, List.mem_singleton, or_assoc]

theorem addNames_nodup {names : List String} {nodes : List String} (h : nodes.Nodup) :
    (addNames nodes names).Nodup := by
  induction names generalizing nodes with
  | nil => exact h
  | cons t names ih =>
    show (addNames (if t ∈ nodes then nodes else nodes ++ [t]) names).Nodup
    split
    · exact ih h
    · rename_i ht
      refine ih (List.nodup_append.2 ⟨h, by simp, fun a ha b hb hab => ht ?_⟩)
      rw [← List.mem_singleton.1 hb, ← hab]
      exact ha

section
variable (gates : List Gate) (net : Netlist)

theorem foldl_addGate_lists : (gates.foldl Netlist.addGate net).name = net.name ∧
    (gates.foldl Netlist.addGate net).inputs = net.inputs ∧
    (gates.foldl Netlist.addGate net).outputs = net.outputs := by
  induction gates generalizing net with
  | nil => exact ⟨rfl, rfl, rfl⟩
  | cons g gates ih => exact ih (net.addGate g)

theorem foldl_addGate_nodup (h : net.nodes.Nodup) :
    (gates.foldl Netlist.addGate net).nodes.Nodup := by
  induction gates generalizing net with
  | nil => exact h
  | cons g gates ih => exact ih (net.addGate g) (addNames_nodup h)

theorem mem_foldl_addGate (s : String) : s ∈ (gates.foldl Netlist.addGate net).nodes ↔
    s ∈ net.nodes ∨ ∃ g ∈ gates, s ∈ g.ins ∨ s = g.name := by
  induction gates generalizing net with
  | nil => simp
  | cons g gates ih =>
    have hg : s ∈ (net.addGate g).nodes ↔ s ∈ net.nodes ∨ s ∈ g.ins ∨ s = g.name := by
      rw [← List.mem_singleton (b := g.name), ← List.mem_append]
      exact mem_addNames
    rw [List.foldl_cons, ih, hg, List.exists_mem_cons_iff, or_assoc]

theorem foldl_addGate_other {s : String} (hs : s ∉ gates.map Gate.name) :
    (gates.foldl Netlist.addGate net).fanins s = net.fanins s ∧
      (gates.foldl Netlist.addGate net).cube s = net.cube s := by
  induction gates generalizing net with
  | nil => exact ⟨rfl, rfl⟩
  | cons g gates ih =>
    rw [List.map_cons, List.mem_cons, not_or] at hs
    obtain ⟨h1, h2⟩ := ih (net.addGate g) hs.2
    rw [List.foldl_cons, h1, h2]
    exact ⟨Function.update_of_ne hs.1 _ _, Function.update_of_ne hs.1 _ _⟩

variable {gates}

/-- Where no two sections are for one node, each node gets what its section says. -/
theorem foldl_addGate_mem (hnd : (gates.map Gate.name).Nodup) {g : Gate} (hg : g ∈ gates) :
    (gates.foldl Netlist.addGate net).fanins g.name = net.fanins g.name ++ g.ins ∧
      (gates.foldl Netlist.addGate net).cube g.name = net.cube g.name ++ g.cube := by
  induction gates generalizing net with
  | nil => cases hg
  | cons g' gates ih =>
    rw [List.map_cons, List.nodup_cons] at hnd
    rw [List.foldl_cons]
    rcases List.mem_cons.1 hg with rfl | hg
    · obtain ⟨h1, h2⟩ := foldl_addGate_other gates (net.addGate g) hnd.1
      rw [h1, h2]
      exact ⟨by simp [Netlist.addGate], by simp [Netlist.addGate]⟩
    · have hne : g.name ≠ g'.name := fun he => hnd.1 (he ▸ List.mem_map_of_mem hg)
      obtain ⟨h1, h2⟩ := ih (net.addGate g') hnd.2 hg
      rw [h1, h2]
      refine ⟨congrArg (· ++ _) (Function.update_of_ne hne _ _),
        congrArg (· ++ _) (Function.update_of_ne hne _ _)⟩

end

end Msyn.Parser
