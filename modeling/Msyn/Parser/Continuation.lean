import Msyn.Parser.Blocks
import Msyn.Parser.Twins

/-!
# Continued lines

A line is continued by a backslash at its end. The lexer has no rule for that: the backslash is
dropped and the newline is a newline. In a section of declarations it does nothing, but it ends the
header of a `.names` block, and the names after it are dropped, too. So a line can be continued
between two names anywhere in the declarations, and in a `.names` line only where the names that are
cut off repeat the one before (`Place.continued_iff`).
-/

namespace Msyn.Parser

open Nodecircuit Circuit

/-! ## A place in a line -/

/-- The keywords of the lines of names. -/
inductive Keyword where
  | inputs | outputs | names
deriving DecidableEq

namespace Keyword

def chars : Keyword → List Char
  | .inputs => ['.', 'i', 'n', 'p', 'u', 't', 's']
  | .outputs => ['.', 'o', 'u', 't', 'p', 'u', 't', 's']
  | .names => ['.', 'n', 'a', 'm', 'e', 's']

def token : Keyword → Token
  | .inputs => (4, ".inputs")
  | .outputs => (3, ".outputs")
  | .names => (5, ".names")

def mode : Keyword → Mode
  | .inputs => .inputs
  | .outputs => .outputs
  | .names => .names

theorem tokens_chars (k : Keyword) (rest : List Char) :
    tokens (k.chars ++ rest) = k.token :: tokens rest := by
  cases k
  · exact tokens_inputs rest
  · exact tokens_outputs rest
  · exact tokens_names rest

theorem step_token (k : Keyword) (l : Lexer) : l.step k.token = some { l with mode := k.mode } := by
  cases k <;> rfl

end Keyword

/-- The rest of a line, after its names: blanks or a backslash, its end, and the lines below. -/
def LineEnd (rest : List Char) : Prop :=
  ∃ trail eol post, rest = trail ++ (eol ++ post) ∧
    (∀ ch ∈ trail, ch = ' ' ∨ ch = '\t' ∨ ch = '\\') ∧ IsEol eol

/-- A text with a blank in a line of names: the lines above, the keyword of the line, if it does not
continue another one, the names before the blank and after it, and the rest of the text. -/
structure Place where
  pre : List Char
  lead : List Char
  keyword : Option Keyword
  before : List Word
  left : List Char
  blank : Char
  after : List Word
  rest : List Char
  ended : Ended pre
  isLead : Blanks lead
  beforeApart : Apart before
  isLeft : Blanks left
  isBlank : blank = ' ' ∨ blank = '\t'
  afterApart : Apart after
  stop : ∀ ch ∈ rest.head?, ¬IdChar ch
  header : keyword = some .names → before ≠ [] ∧ LineEnd rest

namespace Place

def keywordChars (p : Place) : List Char := p.keyword.elim [] Keyword.chars

def keywordTokens (p : Place) : List Token := p.keyword.elim [] fun k => [k.token]

/-- The text before the blank. -/
def head (p : Place) : List Char :=
  p.pre ++ (p.lead ++ (p.keywordChars ++ (wordsChars p.before ++ p.left)))

/-- The text after the blank. -/
def tail (p : Place) : List Char := wordsChars p.after ++ p.rest

def text (p : Place) : String := String.ofList (p.head ++ p.blank :: p.tail)

/-- The line is continued at the blank. -/
def continued (p : Place) : String :=
  String.ofList (p.head ++ ' ' :: '\\' :: '\n' :: ' ' :: p.tail)

end Place

/-- The circuits are alike: they have the same nodes by their names, with the same fanins and cubes,
and the same inputs and outputs. -/
structure Alike (c c' : Circuit) : Prop where
  name : c'.name = c.name
  inputs : (c'.inputs.map fun n => (c'.node n).name) = c.inputs.map fun n => (c.node n).name
  outputs : (c'.outputs.map fun n => (c'.node n).name) = c.outputs.map fun n => (c.node n).name
  nodes : (c'.allNodes.map (gateOf c')).Perm (c.allNodes.map (gateOf c))

theorem Alike.refl (c : Circuit) : Alike c c := ⟨rfl, rfl, rfl, .refl _⟩

/-- Circuits that are alike have as many fanins of each name. -/
theorem Alike.faninCount {c c' : Circuit} (h : Alike c c') (s : String) :
    faninCount c' s = faninCount c s := by
  have hgates : ∀ c : Circuit, Parser.faninCount c s =
      ((c.allNodes.map (gateOf c)).flatMap fun g => if g.name = s then g.ins else []).length := by
    intro c
    rw [List.flatMap_map, Parser.faninCount, faninsOf, List.length_flatMap, List.length_flatMap]
    refine congrArg List.sum (List.map_congr_left fun n _ => ?_)
    by_cases hs : (c.node n).name = s
    · rw [if_pos hs, if_pos (show (gateOf c n).name = s from hs)]
      exact (List.length_map _).symm
    · rw [if_neg hs, if_neg (show (gateOf c n).name ≠ s from hs)]
      rfl
  rw [hgates, hgates]
  exact (h.nodes.flatMap_right _).length_eq

/-! ## The tokens -/

theorem words_head {ws : List Word} {x : List Char} (h : ∀ ch ∈ x.head?, ch ≠ '0' ∧ ch ≠ '1') :
    ∀ ch ∈ (wordsChars ws ++ x).head?, ch ≠ '0' ∧ ch ≠ '1' := by
  cases ws with
  | nil => exact h
  | cons w ws =>
    rw [wordsChars, List.flatMap_cons, List.append_assoc, List.append_assoc]
    exact w.isBlanks.head (head_id w.isId _)

theorem blank_head {b : Char} (hb : b = ' ' ∨ b = '\t') (x : List Char) :
    ∀ ch ∈ (b :: x).head?, ¬IdChar ch ∧ ch ≠ '0' ∧ ch ≠ '1' := by
  intro ch hch
  cases hch
  rcases hb with rfl | rfl <;> decide

theorem tokens_trail {trail eol : List Char}
    (ht : ∀ ch ∈ trail, ch = ' ' ∨ ch = '\t' ∨ ch = '\\') (he : IsEol eol) (post : List Char) :
    tokens (trail ++ (eol ++ post)) =
      blankTokens trail ++ (7, String.ofList eol) :: tokens post := by
  induction trail with
  | nil => exact tokens_eol he
  | cons ch trail ih =>
    have ih := ih fun c hc => ht c (by simp [hc])
    have hhead : ∀ c ∈ (trail ++ (eol ++ post)).head?, c ≠ '0' ∧ c ≠ '1' := by
      cases trail with
      | nil => exact fun c hc => (he.head post c hc).2
      | cons c trail =>
        intro c' hc'
        cases hc'
        rcases ht c (by simp) with rfl | rfl | rfl <;> decide
    rcases ht ch (by simp) with h | h | h
    · rw [List.cons_append, tokens_blank (.inl h) hhead, ih]
      rfl
    · rw [List.cons_append, tokens_blank (.inr h) hhead, ih]
      rfl
    · rw [List.cons_append, h, tokens_backslash, ih]
      rfl

namespace Place

variable (p : Place)

/-- The tokens before the blank. -/
def headTokens : List Token :=
  tokens p.pre ++ (blankTokens p.lead ++ (p.keywordTokens ++ (wordTokens p.before ++
    blankTokens p.left)))

theorem tokens_head {b : Char} (hb : b = ' ' ∨ b = '\t') (x : List Char) :
    tokens (p.head ++ b :: x) = p.headTokens ++ tokens (b :: x) := by
  have hx := blank_head hb x
  have hleft : ∀ ch ∈ (p.left ++ b :: x).head?, ¬IdChar ch := by
    cases hl : p.left with
    | nil => exact fun ch hch => (hx ch hch).1
    | cons c left => exact fun ch hch => (blank_head (p.isLeft c (by simp [hl])) _ ch hch).1
  have hwords : ∀ ch ∈ (wordsChars p.before ++ (p.left ++ b :: x)).head?, ch ≠ '0' ∧ ch ≠ '1' :=
    words_head (p.isLeft.head fun ch hch => (hx ch hch).2)
  have hkey : ∀ ch ∈ (p.keywordChars ++ (wordsChars p.before ++ (p.left ++ b :: x))).head?,
      ch ≠ '0' ∧ ch ≠ '1' := by
    unfold keywordChars
    cases p.keyword with
    | none => exact hwords
    | some k =>
      intro ch hch
      cases k <;> cases hch <;> decide
  have htokens : tokens (p.keywordChars ++ (wordsChars p.before ++ (p.left ++ b :: x))) =
      p.keywordTokens ++ tokens (wordsChars p.before ++ (p.left ++ b :: x)) := by
    unfold keywordChars keywordTokens
    cases p.keyword with
    | none => rfl
    | some k => exact k.tokens_chars _
  simp only [head, headTokens, List.append_assoc]
  rw [p.ended.tokens_append, tokens_blanks p.isLead hkey, htokens, tokens_words p.beforeApart hleft,
    tokens_blanks p.isLeft fun ch hch => (hx ch hch).2]

theorem tail_head : ∀ ch ∈ p.tail.head?, ch ≠ '0' ∧ ch ≠ '1' := by
  refine words_head fun ch hch => ⟨?_, ?_⟩
  · rintro rfl
    exact p.stop _ hch (by decide)
  · rintro rfl
    exact p.stop _ hch (by decide)

theorem tokens_tail : tokens p.tail = wordTokens p.after ++ tokens p.rest :=
  tokens_words p.afterApart p.stop

theorem tokens_text : tokens p.text.toList =
    p.headTokens ++ ((9, String.ofList [p.blank]) :: (wordTokens p.after ++ tokens p.rest)) := by
  rw [text, String.toList_ofList, p.tokens_head p.isBlank, tokens_blank p.isBlank p.tail_head,
    tokens_tail]

theorem tokens_continued : tokens p.continued.toList =
    p.headTokens ++ ((9, " ") :: (9, "\\") :: (7, "\n") :: (9, " ") ::
      (wordTokens p.after ++ tokens p.rest)) := by
  rw [continued, String.toList_ofList, p.tokens_head (.inl rfl),
    tokens_space (by
      intro ch hch
      cases hch
      decide), tokens_backslash, tokens_newline, tokens_space p.tail_head, tokens_tail]

end Place

/-! ## The runs -/

namespace Lexer

variable {l : Lexer}

/-- The names of a line are read. -/
def ids (l : Lexer) (ws : List Word) : Lexer := ws.foldl (fun l w => l.id w.name) l

/-- The keyword of a line is read, if it has one. -/
def start (l : Lexer) (k : Option Keyword) : Lexer := k.elim l fun k => { l with mode := k.mode }

theorem run_blanks (s : List Char) (l : Lexer) : (blankTokens s).foldlM step l = some l := by
  induction s with
  | nil => rfl
  | cons ch s ih => exact ih

theorem run_words (ws : List Word) (l : Lexer) :
    (wordTokens ws).foldlM step l = some (l.ids ws) := by
  induction ws generalizing l with
  | nil => rfl
  | cons w ws ih =>
    have hcons : wordTokens (w :: ws) = blankTokens w.blanks ++ (6, w.name) :: wordTokens ws := by
      simp [wordTokens]
    rw [hcons, List.foldlM_append, run_blanks]
    exact ih (l.id w.name)

theorem newline_mode {l' : Lexer} (h : l.newline = some l') : l'.mode ≠ .names := by
  unfold newline at h
  split at h
  · split at h
    · cases h
      exact Mode.noConfusion
    · cases h
    · cases h
      exact Mode.noConfusion
  · rename_i hm
    cases h
    exact hm

/-- A newline is only read in a header. -/
theorem newline_other (h : l.mode ≠ .names) : l.newline = some l := if_neg h

theorem id_mode (h : l.mode ≠ .names) (s : String) : (l.id s).mode ≠ .names := by
  unfold Lexer.id
  cases hm : l.mode with
  | names => exact absurd hm h
  | model => exact Mode.noConfusion
  | inputs | outputs | cover | start | done => exact h

theorem ids_mode (h : l.mode ≠ .names) (ws : List Word) : (l.ids ws).mode ≠ .names := by
  induction ws generalizing l with
  | nil => exact h
  | cons w ws ih => exact ih (id_mode h w.name)

/-- A text that ends with a newline does not end in a `.names` line. -/
theorem run_ended {p : List Char} (hp : Ended p) (h : (tokens p).foldlM step init = some l) :
    l.mode ≠ .names := by
  rcases hp with rfl | hp
  · cases h
    exact Mode.noConfusion
  · obtain ⟨p', rfl⟩ := List.getLast?_eq_some_iff.1 hp
    obtain ⟨ts, e, hts⟩ := tokens_last p'
    rw [hts, List.foldlM_append] at h
    obtain ⟨l1, -, h2⟩ := Option.bind_eq_some_iff.1 h
    rw [List.foldlM_cons] at h2
    obtain ⟨l2, h3, h4⟩ := Option.bind_eq_some_iff.1 h2
    cases h4
    exact newline_mode h3

end Lexer

namespace Place

variable (p : Place)

/-- The lexer after the names before the blank. -/
def begun (l : Lexer) : Lexer := (l.start p.keyword).ids p.before

theorem run_head (l : Lexer) : (blankTokens p.lead ++ (p.keywordTokens ++ (wordTokens p.before ++
    blankTokens p.left))).foldlM Lexer.step l = some (p.begun l) := by
  have hkey : p.keywordTokens.foldlM Lexer.step l = some (l.start p.keyword) := by
    unfold keywordTokens Lexer.start
    cases p.keyword with
    | none => rfl
    | some k => exact congrArg (· >>= some) (k.step_token l)
  rw [List.foldlM_append, Lexer.run_blanks]
  show List.foldlM _ l (p.keywordTokens ++ _) = _
  rw [List.foldlM_append, hkey]
  show List.foldlM _ (l.start p.keyword) (wordTokens p.before ++ _) = _
  rw [List.foldlM_append, Lexer.run_words]
  exact Lexer.run_blanks _ _

theorem lex_text : lex p.text = (tokens p.pre).foldlM Lexer.step .init >>= fun l =>
    (tokens p.rest).foldlM Lexer.step ((p.begun l).ids p.after) := by
  rw [lex_eq, tokens_text, headTokens, List.append_assoc, List.foldlM_append]
  refine bind_congr fun l => ?_
  rw [List.foldlM_append, run_head]
  show List.foldlM _ (p.begun l) (wordTokens p.after ++ _) = _
  rw [List.foldlM_append, Lexer.run_words]
  rfl

theorem lex_continued : lex p.continued = (tokens p.pre).foldlM Lexer.step .init >>= fun l =>
    (p.begun l).newline >>= fun l' => (tokens p.rest).foldlM Lexer.step (l'.ids p.after) := by
  rw [lex_eq, tokens_continued, headTokens, List.append_assoc, List.foldlM_append]
  refine bind_congr fun l => ?_
  rw [List.foldlM_append, run_head]
  show ((p.begun l).newline >>= fun l' => List.foldlM _ l' (wordTokens p.after ++ _)) = _
  refine bind_congr fun l' => ?_
  rw [List.foldlM_append, Lexer.run_words]
  rfl

end Place

/-! ## The names of a header -/

/-- The words `ws` of a header are read, as the nodes `xs`. -/
structure Listed (l l' : Lexer) (ws : List Word) (xs : List NodeId) : Prop where
  mode : l'.mode = .names
  nodes : l'.nodes = l.nodes ++ xs
  found : ∀ w ∈ ws, ∃ x ∈ xs, l'.circuit.getNode w.name = some x
  last : ∀ w, ws.getLast? = some w →
    ∃ x ∈ xs, l'.currentNode = some x ∧ l'.circuit.getNode w.name = some x
  kept : ∀ s n, l.circuit.getNode s = some n → l'.circuit.getNode s = some n
  count : ∀ s, faninCount l'.circuit s = faninCount l.circuit s

theorem Reads.ids_listed {l : Lexer} {r : Reader} (h : Reads l r) (hm : l.mode = .names)
    (ws : List Word) : ∃ xs r', Reads (l.ids ws) r' ∧ Listed l (l.ids ws) ws xs := by
  induction ws using List.reverseRecOn with
  | nil =>
    exact ⟨[], r, h, hm, (List.append_nil _).symm, fun w hw => absurd hw List.not_mem_nil,
      fun w hw => (by cases hw), fun _ _ hn => hn, fun _ => rfl⟩
  | append_singleton ws w ih =>
    obtain ⟨xs, r', hr, hx⟩ := ih
    have hids : l.ids (ws ++ [w]) = (l.ids ws).id w.name := by
      rw [Lexer.ids, List.foldl_append]
      rfl
    obtain ⟨x, he⟩ := hr.id_entered (.inr (.inr hx.mode)) w.name
    have hkept : ∀ s n, (l.ids ws).circuit.getNode s = some n →
        ((l.ids ws).id w.name).circuit.getNode s = some n := by
      intro s n hn
      rw [he.getNode]
      split
      · rename_i hs
        rcases he.which with ⟨-, hnone⟩ | ⟨-, hsome⟩
        · rw [hs, hnone hx.mode] at hn
          cases hn
        · rw [← hsome, ← hs, hn]
      · exact hn
    have hself : ((l.ids ws).id w.name).circuit.getNode w.name = some x := by
      rw [he.getNode, if_pos rfl]
    rw [hids]
    refine ⟨xs ++ [x], _, hr.id w.name, he.mode.trans hx.mode, ?_, fun w' hw' => ?_, fun w' hw' => ?_,
      fun s n hn => hkept s n (hx.kept s n hn), fun s => (he.count s).trans (hx.count s)⟩
    · rw [he.nodes, hx.nodes, if_pos hx.mode, List.append_assoc]
    · rcases List.mem_append.1 hw' with hw' | hw'
      · obtain ⟨y, hy, hfound⟩ := hx.found w' hw'
        exact ⟨y, List.mem_append.2 (.inl hy), hkept _ _ hfound⟩
      · cases List.mem_singleton.1 hw'
        exact ⟨x, by simp, hself⟩
    · rw [List.getLast?_concat] at hw'
      cases hw'
      exact ⟨x, by simp, he.current, hself⟩

namespace Lexer

variable {l : Lexer} {b : NodeId} {s : String} (hm : l.mode = .names) (hc : l.currentNode = some b)
include hm hc

/-- A name that repeats the last one is another copy of its node. -/
theorem ids_again (hb : l.circuit.getNode s = some b) {ws : List Word} (hw : ∀ w ∈ ws, w.name = s) :
    l.ids ws = { l with nodes := l.nodes ++ List.replicate ws.length b } := by
  induction ws generalizing l with
  | nil => simp [ids]
  | cons w ws ih =>
    have hid : l.id w.name = { l with nodes := l.nodes ++ [b] } := by
      rw [id_known hm (by rw [hw w (by simp)]; exact hb), ← hc]
    show (l.id w.name).ids ws = _
    have ih := @ih { l with nodes := l.nodes ++ [b] } hm hc hb fun w hw' => hw w (by simp [hw'])
    rw [hid, ih]
    simp [List.replicate_succ]

/-- A node is not connected to itself. -/
theorem newline_again (k : Nat) :
    newline { l with nodes := l.nodes ++ List.replicate k b } = l.newline := by
  have hskip : ∀ c : Circuit, (List.replicate k b).foldl
      (fun c i => if b ≠ i then connect b i c else c) c = c := by
    intro c
    induction k with
    | zero => rfl
    | succ k ih =>
      rw [List.replicate_succ, List.foldl_cons, if_neg (not_not.2 rfl), ih]
  rw [newline_names_eq (l := { l with nodes := l.nodes ++ List.replicate k b }) hm hc,
    newline_names_eq hm hc]
  simp only [List.foldl_append, hskip]

omit hc in
/-- The end of a header is read if there is a current node, and the names after it are not. -/
theorem ids_cover {l' : Lexer} (h : l.newline = some l') (ws : List Word) : l'.ids ws = l' := by
  have hcover : l'.mode = .cover := by
    unfold newline at h
    rw [if_pos hm] at h
    split at h
    · cases h
      rfl
    · cases h
    · cases h
      rfl
  induction ws with
  | nil => rfl
  | cons w ws ih =>
    have hid : l'.id w.name = l' := id_other (.inl hcover)
    show (l'.id w.name).ids ws = l'
    rw [hid, ih]

end Lexer

/-- The names after a cut in a header are lost: unless they all repeat the one before, the node of
the last name gets fewer fanins. -/
theorem Reads.twins_cut {l : Lexer} {r : Reader} (h : Reads l r) (hm : l.mode = .names) {b : NodeId}
    (hc : l.currentNode = some b) (hb : b ∈ l.nodes) {s : String}
    (hs : l.circuit.getNode s = some b) {ws : List Word} {w : Word} (hw : w ∈ ws) (hne : w.name ≠ s) :
    ∃ l1 l1' t, (l.ids ws).newline = some l1 ∧ l.newline = some l1' ∧
      Twins (fun s => (faninCount l1.circuit s : Int) - faninCount l1'.circuit s) l1 l1' ∧
      faninCount l1'.circuit t < faninCount l1.circuit t := by
  obtain ⟨xs, r', h', hx⟩ := h.ids_listed hm ws
  obtain ⟨z, hz⟩ : ∃ z, ws.getLast? = some z :=
    ⟨_, List.getLast?_eq_some_getLast (List.ne_nil_of_mem hw)⟩
  obtain ⟨a, ha, hca, hga⟩ := hx.last z hz
  have hname : (l.ids ws).nameOf a = z.name := h'.found _ _ hga
  have hnameb : l.nameOf b = s := h.found _ _ hs
  have hl := newline_names_eq hx.mode hca
  have hl' := newline_names_eq hm hc
  have hcount := faninCount_connect h'.sound hca z.name
  have hcount' := faninCount_connect h.sound hc z.name
  rw [hx.nodes] at hl
  rw [hx.count, if_pos hname, hx.nodes, List.filter_append, List.length_append] at hcount
  rw [hnameb] at hcount'
  obtain ⟨_, hreads⟩ := h'.step_some (t := (7, "")) hl
  obtain ⟨_, hreads'⟩ := h.step_some (t := (7, "")) hl'
  refine ⟨_, _, z.name, hl, hl', hreads.twins hreads' rfl ?_ rfl rfl, ?_⟩
  · rw [hca, hc]
    exact ⟨Option.some_ne_none _, Option.some_ne_none _⟩
  · rw [hcount, hcount']
    by_cases hsz : s = z.name
    · -- the same node is connected, also to a name after the cut
      have hab : a = b := by
        have hgb := hx.kept s b hs
        rw [hsz, hga] at hgb
        exact Option.some.inj hgb
      obtain ⟨y, hy, hgy⟩ := hx.found w hw
      have hay : a ≠ y := by
        intro he
        have h1 := h'.found _ _ hgy
        rw [← he, hname] at h1
        exact hne (h1.symm.trans hsz.symm)
      have hpos : 0 < (xs.filter fun i => a ≠ i).length :=
        List.length_pos_of_mem (List.mem_filter.2 ⟨hy, by simpa using hay⟩)
      rw [if_pos hsz, ← hab]
      omega
    · -- the node before the cut is a fanin of the last one
      have hab : a ≠ b := by
        intro he
        have h1 := h'.found _ _ (hx.kept s b hs)
        rw [← he, hname] at h1
        exact hsz h1.symm
      have hpos : 0 < (l.nodes.filter fun i => a ≠ i).length :=
        List.length_pos_of_mem (List.mem_filter.2 ⟨hb, by simpa using hab⟩)
      rw [if_neg hsz]
      omega

namespace Place

variable (p : Place) {l : Lexer}

/-- The end of a header, and what comes after it. -/
theorem run_rest (hk : p.keyword = some .names) : ∃ ts : List Token, ∀ l : Lexer,
    (tokens p.rest).foldlM Lexer.step l = l.newline >>= fun l' => ts.foldlM Lexer.step l' := by
  obtain ⟨-, trail, eol, post, hrest, htrail, heol⟩ := p.header hk
  refine ⟨tokens post, fun l => ?_⟩
  rw [hrest, tokens_trail htrail heol, List.foldlM_append, Lexer.run_blanks]
  rfl

section
variable (hl : (tokens p.pre).foldlM Lexer.step .init = some l)
include hl

/-- In a section of declarations the end of a line changes nothing. -/
theorem begun_other (hk : p.keyword ≠ some .names) : (p.begun l).newline = some (p.begun l) := by
  have hstart : (l.start p.keyword).mode ≠ .names := by
    unfold Lexer.start
    cases hkey : p.keyword with
    | none => exact Lexer.run_ended p.ended hl
    | some k =>
      cases k with
      | names => exact absurd hkey hk
      | inputs | outputs => exact Mode.noConfusion
  exact Lexer.newline_other (Lexer.ids_mode hstart p.before)

/-- In a header the name before the blank is the current node. -/
theorem begun_names (hk : p.keyword = some .names) : ∃ z b r, p.before.getLast? = some z ∧
    Reads (p.begun l) r ∧ (p.begun l).mode = .names ∧ (p.begun l).currentNode = some b ∧
      b ∈ (p.begun l).nodes ∧ (p.begun l).circuit.getNode z.name = some b := by
  obtain ⟨r, hr⟩ : ∃ r, Reads l r := by
    have hrun := reads_init.1.run (tokens p.pre)
    rw [hl] at hrun
    revert hrun
    generalize (tokens p.pre).foldlM Reader.step {} = r
    rintro (hr | -)
    exact ⟨_, hr⟩
  have hstart : l.start p.keyword = { l with mode := .names } := by
    rw [hk]
    rfl
  obtain ⟨xs, r', hr', hx⟩ := (hr.setMode .names).ids_listed rfl p.before
  obtain ⟨z, hz⟩ : ∃ z, p.before.getLast? = some z :=
    ⟨_, List.getLast?_eq_some_getLast (p.header hk).1⟩
  obtain ⟨b, hb, hc, hg⟩ := hx.last z hz
  rw [← hstart] at hr' hx hc hg
  exact ⟨z, b, r', hz, hr', hx.mode, hc, by rw [begun, hx.nodes]; exact List.mem_append.2 (.inr hb), hg⟩

end

/-- A line that is continued outside the headers, or before a repeated name, is read alike. -/
theorem lex_same (h : p.keyword = some .names →
    ∀ w ∈ p.after, some w.name = (p.before.map Word.name).getLast?) :
    lex p.continued = lex p.text := by
  rw [lex_continued, lex_text]
  refine Option.bind_congr fun l hl => ?_
  by_cases hk : p.keyword = some .names
  · obtain ⟨z, b, r, hz, hr, hm, hc, hb, hg⟩ := p.begun_names hl hk
    have hsame : ∀ w ∈ p.after, w.name = z.name := by
      intro w hw
      have he := h hk w hw
      rw [List.getLast?_map, hz] at he
      exact Option.some.inj he
    obtain ⟨ts, hts⟩ := p.run_rest hk
    obtain ⟨l', hend⟩ : ∃ l', (p.begun l).newline = some l' := ⟨_, newline_names_eq hm hc⟩
    have htext : ((p.begun l).ids p.after).newline = (p.begun l).newline := by
      rw [Lexer.ids_again hm hc hg hsame]
      exact Lexer.newline_again hm hc _
    rw [hts, htext, hend, Option.bind_eq_bind, Option.bind_some, Lexer.ids_cover hm hend, hts,
      Lexer.newline_other (Lexer.newline_mode hend)]
    rfl
  · rw [p.begun_other hl hk]
    rfl

/-- **A line is continued at a blank without a change** if and only if it is no `.names` line, or the
names after the blank repeat the one before. -/
theorem continued_iff (hl : lex p.text = some l) :
    (∃ l', lex p.continued = some l' ∧ Alike l.circuit l'.circuit) ↔
      (p.keyword = some .names →
        ∀ w ∈ p.after, some w.name = (p.before.map Word.name).getLast?) := by
  constructor
  · intro ⟨l', hl', halike⟩ hk w hw
    rw [lex_text] at hl
    rw [lex_continued] at hl'
    obtain ⟨l0, h0, h1⟩ := Option.bind_eq_some_iff.1 hl
    rw [h0] at hl'
    obtain ⟨z, b, r, hz, hr, hm, hc, hb, hg⟩ := p.begun_names h0 hk
    obtain ⟨ts, hts⟩ := p.run_rest hk
    rw [List.getLast?_map, hz]
    by_contra hne
    have hne : w.name ≠ z.name := fun he => hne (congrArg some he)
    obtain ⟨l1, l1', t, e1, e1', htwins, hlt⟩ := hr.twins_cut hm hc hb hg hw hne
    -- the lines below are read by both alike
    obtain ⟨l2, l2', e2, e2', hrun⟩ := htwins.run ts
    have htext : some l = some l2 := by
      rw [← h1, hts, e1]
      exact e2
    have hcont : some l' = some l2' := by
      rw [Option.bind_eq_bind, Option.bind_some, e1', Option.bind_some, Lexer.ids_cover hm e1', hts,
        Lexer.newline_other (Lexer.newline_mode e1')] at hl'
      exact hl'.symm.trans e2'
    cases htext
    cases hcont
    have hcount := hrun.count t
    rw [halike.faninCount t] at hcount
    omega
  · intro h
    exact ⟨l, (p.lex_same h).trans hl, .refl _⟩

end Place

/-- A header of three names, with the blank after the first one. -/
def cutHeader : Place where
  pre := ".model m\n.inputs a b\n.outputs y\n".toList
  lead := []
  keyword := some .names
  before := [⟨[' '], "a", blanks_space, ⟨'a', [], by decide, .inl (by decide), by simp⟩⟩]
  left := []
  blank := ' '
  after := [⟨[], "b", blanks_nil, ⟨'b', [], by decide, .inl (by decide), by simp⟩⟩,
    ⟨[' '], "y", blanks_space, ⟨'y', [], by decide, .inl (by decide), by simp⟩⟩]
  rest := '\n' :: "11 1\n.end\n".toList
  ended := .inr (by decide +kernel)
  isLead := blanks_nil
  beforeApart := apart_singleton _
  isLeft := blanks_nil
  isBlank := .inl rfl
  afterApart := by simp [Apart]
  stop := by
    intro ch hch
    cases hch
    decide
  header := fun _ => ⟨by simp, [], ['\n'], "11 1\n.end\n".toList, rfl, by simp, isEol_newline⟩

theorem Place.continued_iff_header : ∃ l, lex cutHeader.text = some l ∧
    ((∃ l', lex cutHeader.continued = some l' ∧ Alike l.circuit l'.circuit) ↔
      (cutHeader.keyword = some .names →
        ∀ w ∈ cutHeader.after, some w.name = (cutHeader.before.map Word.name).getLast?)) := by
  obtain ⟨l, hl⟩ := Option.isSome_iff_exists.1 (show (lex cutHeader.text).isSome by decide +kernel)
  exact ⟨l, hl, cutHeader.continued_iff hl⟩

/-- Cut there, the last name has no fanins. -/
theorem cutHeader_lost :
    cutHeader.text = ".model m\n.inputs a b\n.outputs y\n.names a b y\n11 1\n.end\n" ∧
      cutHeader.continued = ".model m\n.inputs a b\n.outputs y\n.names a \\\n b y\n11 1\n.end\n" ∧
      ∃ l l', lex cutHeader.text = some l ∧ lex cutHeader.continued = some l' ∧
        ¬Alike l.circuit l'.circuit := by
  have h : (lex cutHeader.text).map (fun l => faninCount l.circuit "y") = some 2 := by
    decide +kernel
  have h' : (lex cutHeader.continued).map (fun l => faninCount l.circuit "y") = some 0 := by
    decide +kernel
  obtain ⟨l, hl, hcount⟩ := Option.map_eq_some_iff.1 h
  obtain ⟨l', hl', hcount'⟩ := Option.map_eq_some_iff.1 h'
  refine ⟨by decide +kernel, by decide +kernel, l, l', hl, hl', fun halike => ?_⟩
  have hsame := halike.faninCount "y"
  rw [hcount, hcount'] at hsame
  cases hsame

end Msyn.Parser
