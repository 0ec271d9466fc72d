import Msyn.Circuit.Edges

/-!
# The BLIF parser

The lexer of `bfparser.l` as generated in `bfparser.cpp`: an automaton that takes the longest
match (`scan`), and an action for each rule, which depends on the mode (`Lexer.action`). `lex`
runs them over a text. The result is `none` where an action dereferences a null `current_node`.

`lex_mirror`: the circuit of any text that is parsed has mirrored edges.
-/

namespace Msyn.Parser

open Nodecircuit Circuit

/-! ## The automaton -/

/-- The states of `reflex_code_INITIAL`. -/
inductive FsmState where
  | S0 | S10 | S17 | S21 | S23 | S26 | S28 | S31 | S37 | S39 | S41 | S43 | S45 | S47 | S51 | S53
  | S55 | S60 | S62 | S64 | S66 | S68 | S70 | S72 | S74 | S76 | S78 | S80 | S82 | S84 | S86
  | S88 | S90 | S92 | S94 | S96 | S98 | S100
deriving DecidableEq

/-- The rule that `FSM_TAKE` records in the state, 0 for none. -/
def FsmState.take : FsmState → Nat
  | .S70 => 1
  | .S88 => 2
  | .S100 => 3
  | .S98 => 4
  | .S94 => 5
  | .S17 | .S47 => 6
  | .S21 => 7
  | .S51 => 8
  | .S10 | .S23 | .S26 | .S28 | .S31 => 9
  | _ => 0

/-- `none` is `FSM_HALT`. -/
def FsmState.goto (ch : Char) : FsmState → Option FsmState
  | .S0 =>
    if 'a' ≤ ch ∧ ch ≤ 'z' then some .S17
    else if 'A' ≤ ch ∧ ch ≤ 'Z' then some .S17
    else if '0' ≤ ch ∧ ch ≤ '1' then some .S31
    else if ch = '.' then some .S10
    else if ch = '-' then some .S31
    else if ch = ' ' then some .S23
    else if ch = '\r' then some .S28
    else if ch = '\n' then some .S21
    else if ch = '\t' then some .S23
    else some .S26
  | .S10 =>
    if ch = 'o' then some .S41
    else if ch = 'n' then some .S45
    else if ch = 'm' then some .S39
    else if ch = 'i' then some .S43
    else if ch = 'e' then some .S37
    else none
  | .S17 =>
    if 'A' ≤ ch ∧ ch ≤ 'z' then some .S47
    else if '0' ≤ ch ∧ ch ≤ '9' then some .S47
    else none
  | .S23 => if '0' ≤ ch ∧ ch ≤ '1' then some .S51 else none
  | .S28 => if ch = '\n' then some .S21 else none
  | .S31 =>
    if '0' ≤ ch ∧ ch ≤ '1' then some .S55
    else if ch = '-' then some .S55
    else if ch = ' ' then some .S53
    else if ch = '\t' then some .S53
    else none
  | .S37 => if ch = 'n' then some .S60 else none
  | .S39 => if ch = 'o' then some .S62 else none
  | .S41 => if ch = 'u' then some .S64 else none
  | .S43 => if ch = 'n' then some .S66 else none
  | .S45 => if ch = 'a' then some .S68 else none
  | .S47 =>
    if 'A' ≤ ch ∧ ch ≤ 'z' then some .S47
    else if '0' ≤ ch ∧ ch ≤ '9' then some .S47
    else none
  | .S53 => if '0' ≤ ch ∧ ch ≤ '1' then some .S51 else none
  | .S55 =>
    if '0' ≤ ch ∧ ch ≤ '1' then some .S55
    else if ch = '-' then some .S55
    else if ch = ' ' then some .S53
    else if ch = '\t' then some .S53
    else none
  | .S60 => if ch = 'd' then some .S70 else none
  | .S62 => if ch = 'd' then some .S72 else none
  | .S64 => if ch = 't' then some .S74 else none
  | .S66 => if ch = 'p' then some .S76 else none
  | .S68 => if ch = 'm' then some .S78 else none
  | .S72 => if ch = 'e' then some .S80 else none
  | .S74 => if ch = 'p' then some .S82 else none
  | .S76 => if ch = 'u' then some .S84 else none
  | .S78 => if ch = 'e' then some .S86 else none
  | .S80 => if ch = 'l' then some .S88 else none
  | .S82 => if ch = 'u' then some .S90 else none
  | .S84 => if ch = 't' then some .S92 else none
  | .S86 => if ch = 's' then some .S94 else none
  | .S90 => if ch = 't' then some .S96 else none
  | .S92 => if ch = 's' then some .S98 else none
  | .S96 => if ch = 's' then some .S100 else none
  | _ => none

/-- Run the automaton from a state after `n` characters; `taken` is the last rule recorded, with
the length of its match. -/
def scanFrom (n : Nat) (taken : Nat × Nat) (s : FsmState) : List Char → Nat × Nat
  | [] => if s.take = 0 then taken else (s.take, n)
  | ch :: text =>
    let taken := if s.take = 0 then taken else (s.take, n)
    match s.goto ch with
    | none => taken
    | some s => scanFrom (n + 1) taken s text

/-- `matcher().scan()`: the rule of the longest match and its length. -/
def scan (text : List Char) : Nat × Nat := scanFrom 0 (0, 0) .S0 text

/-! ## The actions -/

/-- The values 128 to 132, 254 and 255 of `mode`. -/
inductive Mode where
  | model | outputs | inputs | names | cover | start | done
deriving DecidableEq

structure Lexer where
  currentNode : Option NodeId := none
  nodes : List NodeId := []
  mode : Mode := .start
  circuit : Circuit
  /-- The address of the next `new Node`. -/
  free : NodeId := 0

/-- The lexer on an empty circuit. -/
def Lexer.init : Lexer :=
  { circuit := { node := fun _ => { name := "" }, cluster := fun _ => {} } }

namespace Lexer

/-- `current_node = new Node` with the given name and flags, entered in `all_nodes` and
`all_nodes_map`. -/
def newNode (l : Lexer) (name : String) (isInput isOutput : Bool) : Lexer :=
  { l with
    currentNode := some l.free
    free := l.free + 1
    circuit := { l.circuit.modNode l.free fun _ => { name, isInput, isOutput } with
      allNodes := l.circuit.allNodes ++ [l.free]
      allNodesMap := l.circuit.allNodesMap.insert name l.free } }

/-- The action of the rule `id`. -/
def id (text : String) (l : Lexer) : Lexer :=
  match l.mode with
  | .model => { l with circuit := { l.circuit with name := text }, mode := .start }
  | .outputs =>
    let l' := l.newNode text false true
    { l' with circuit := { l'.circuit with outputs := l'.circuit.outputs ++ [l.free] } }
  | .inputs =>
    let l' := l.newNode text true false
    { l' with circuit := { l'.circuit with inputs := l'.circuit.inputs ++ [l.free] } }
  | .names =>
    match l.circuit.getNode text with
    | none =>
      let l' := l.newNode text false false
      { l' with nodes := l'.nodes ++ [l.free] }
    | some n => { l with currentNode := some n, nodes := l.nodes ++ [n] }
  | _ => l

section
variable {l : Lexer} {text : String}

theorem id_model (h : l.mode = .model) :
    l.id text = { l with circuit := { l.circuit with name := text }, mode := .start } := by
  unfold Lexer.id
  rw [h]

theorem id_outputs (h : l.mode = .outputs) : l.id text = { l.newNode text false true with
    circuit := { (l.newNode text false true).circuit with
      outputs := l.circuit.outputs ++ [l.free] } } := by
  unfold Lexer.id
  rw [h]
  rfl

theorem id_inputs (h : l.mode = .inputs) : l.id text = { l.newNode text true false with
    circuit := { (l.newNode text true false).circuit with
      inputs := l.circuit.inputs ++ [l.free] } } := by
  unfold Lexer.id
  rw [h]
  rfl

theorem id_new (h : l.mode = .names) (hn : l.circuit.getNode text = none) :
    l.id text = { l.newNode text false false with nodes := l.nodes ++ [l.free] } := by
  unfold Lexer.id
  rw [h]
  simp only [hn]
  rfl

theorem id_known (h : l.mode = .names) {n : NodeId} (hn : l.circuit.getNode text = some n) :
    l.id text = { l with currentNode := some n, nodes := l.nodes ++ [n] } := by
  unfold Lexer.id
  rw [h]
  simp only [hn]

theorem id_other (h : l.mode = .cover ∨ l.mode = .start ∨ l.mode = .done) : l.id text = l := by
  unfold Lexer.id
  rcases h with h | h | h <;> rw [h]

end

/-- `cur` gets the input `i`. -/
def connect (cur i : NodeId) (c : Circuit) : Circuit :=
  (c.modNode cur fun nd => { nd with inputs := nd.inputs ++ [i] }).pushOutput i cur

/-- The action of the rule `newline`. -/
def newline (l : Lexer) : Option Lexer :=
  if l.mode = .names then
    match l.currentNode, l.nodes with
    | _, [] => some { l with mode := .cover }
    | none, _ :: _ => none
    | some cur, nodes => some { l with
        circuit := nodes.foldl (fun c i => if cur ≠ i then connect cur i c else c) l.circuit
        nodes := []
        mode := .cover }
  else some l

/-- The action of the rule `array`. -/
def array (text : String) (l : Lexer) : Option Lexer :=
  if l.mode = .cover then
    match l.currentNode with
    | none => none
    | some cur => some { l with
        circuit := l.circuit.modNode cur fun nd => { nd with cube := nd.cube ++ text ++ "\n" } }
  else some l

/-- The cases of `lex`, by rule. -/
def action (rule : Nat) (text : String) (l : Lexer) : Option Lexer :=
  match rule with
  | 1 => some { l with mode := .done }
  | 2 => some { l with mode := .model }
  | 3 => some { l with mode := .outputs }
  | 4 => some { l with mode := .inputs }
  | 5 => some { l with mode := .names }
  | 6 => some (l.id text)
  | 7 => l.newline
  | 8 => l.array text
  | _ => some l

end Lexer

/-- `lex()` for at most `fuel` tokens. -/
def lexF : Nat → List Char → Lexer → Option Lexer
  | _, [], l => some l
  | 0, _ :: _, _ => none
  | fuel + 1, ch :: text, l => do
    let taken := scan (ch :: text)
    let l ← l.action taken.1 (String.ofList ((ch :: text).take taken.2))
    lexF fuel ((ch :: text).drop taken.2) l

/-- `lex()` on a text: a token has a character or more. -/
def lex (text : String) : Option Lexer := lexF text.length text.toList .init

/-! ## The scanner makes progress -/

theorem le_scanFrom {m : Nat} : ∀ {text : List Char} {n : Nat} {taken : Nat × Nat} {s : FsmState},
    m ≤ n → m ≤ taken.2 ∨ s.take ≠ 0 → m ≤ (scanFrom n taken s text).2
  | [], n, taken, s, hn, h => by
    rw [scanFrom]
    split
    · rename_i hs; exact h.resolve_right (not_not.2 hs)
    · exact hn
  | ch :: text, n, taken, s, hn, h => by
    have htaken : m ≤ (if s.take = 0 then taken else (s.take, n)).2 := by
      split
      · rename_i hs; exact h.resolve_right (not_not.2 hs)
      · exact hn
    rw [scanFrom]
    cases s.goto ch with
    | none => exact htaken
    | some s' => exact le_scanFrom (by omega) (.inl htaken)

/-- Every character starts a match. -/
theorem scan_pos (ch : Char) (text : List Char) : 1 ≤ (scan (ch :: text)).2 := by
  have hgo : ∃ s, FsmState.S0.goto ch = some s ∧ s.take ≠ 0 := by
    dsimp only [FsmState.goto]
    repeat' split
    all_goals exact ⟨_, rfl, by decide⟩
  obtain ⟨s, h1, h2⟩ := hgo
  rw [scan, scanFrom, h1]
  exact le_scanFrom le_rfl (.inr h2)

/-- With a token for each character to spend, only an undefined action stops `lex`. -/
theorem lexF_none : ∀ {fuel : Nat} {text : List Char} {l : Lexer}, text.length ≤ fuel →
    lexF fuel text l = none → ∃ rule s l', Lexer.action rule s l' = none
  | _, [], _, _, h => by unfold lexF at h; cases h
  | 0, _ :: _, _, hf, _ => by simp at hf
  | fuel + 1, ch :: text, l, hf, h => by
    rw [lexF] at h
    cases ha : l.action (scan (ch :: text)).1
        (String.ofList ((ch :: text).take (scan (ch :: text)).2)) with
    | none => exact ⟨_, _, _, ha⟩
    | some l' =>
      rw [ha] at h
      refine lexF_none ?_ h
      have := scan_pos ch text
      simp only [List.length_drop, List.length_cons] at hf ⊢
      omega

/-! ## The parsed circuit -/

/-- Connecting two nodes of the circuit keeps the edges mirrored. -/
theorem connect_mirror {c : Circuit} {cur i : NodeId} (h : c.Mirror) (hc : cur ∈ c.allNodes)
    (hi : i ∈ c.allNodes) : (Lexer.connect cur i c).Mirror := by
  have hin : ∀ n, ((Lexer.connect cur i c).node n).inputs =
      if n = cur then (c.node n).inputs ++ [i] else (c.node n).inputs := by
    intro n
    simp only [Lexer.connect, pushOutput, modNode_node]
    split_ifs <;> rfl
  have hout : ∀ n, ((Lexer.connect cur i c).node n).outputs =
      if n = i then (c.node n).outputs ++ [cur] else (c.node n).outputs := by
    intro n
    simp only [Lexer.connect, pushOutput, modNode_node]
    split_ifs <;> rfl
  refine ⟨h.nodup, fun n hn j hj => ?_, fun n hn m hm => ?_, fun a ha b hb => ?_⟩
  · rw [hin] at hj
    split at hj
    · rcases List.mem_append.1 hj with hj | hj
      · exact h.closed n hn j hj
      · rw [List.mem_singleton.1 hj]; exact hi
    · exact h.closed n hn j hj
  · rw [hout] at hm
    split at hm
    · rcases List.mem_append.1 hm with hm | hm
      · exact h.outs n hn m hm
      · rw [List.mem_singleton.1 hm]; exact hc
    · exact h.outs n hn m hm
  · rw [hin, hout]
    have hab := h.count a ha b hb
    by_cases h1 : b = cur
    · by_cases h2 : a = i
      · rw [if_pos h1, if_pos h2, List.count_append, List.count_append, hab, h1, h2]
        simp
      · rw [if_pos h1, if_neg h2, List.count_append, hab]
        simp [Ne.symm h2]
    · by_cases h2 : a = i
      · rw [if_neg h1, if_pos h2, List.count_append, hab]
        simp [Ne.symm h1]
      · rw [if_neg h1, if_neg h2, hab]

/-- What holds between two tokens. -/
structure Lexer.Sound (l : Lexer) : Prop where
  mirror : l.circuit.Mirror
  below : ∀ n ∈ l.circuit.allNodes, n < l.free
  nodes : ∀ n ∈ l.nodes, n ∈ l.circuit.allNodes
  current : ∀ n, l.currentNode = some n → n ∈ l.circuit.allNodes
  names : ∀ s n, l.circuit.getNode s = some n → n ∈ l.circuit.allNodes

namespace Lexer.Sound

variable {l : Lexer} (h : l.Sound)
include h

theorem newNode (name : String) (isInput isOutput : Bool) :
    (l.newNode name isInput isOutput).Sound := by
  have hfree : l.free ∉ l.circuit.allNodes := fun hm => (h.below _ hm).false
  have hnew : ((l.newNode name isInput isOutput).circuit.node l.free) =
      { name, isInput, isOutput } := by simp [Lexer.newNode]
  have hold : ∀ n, n ≠ l.free → (l.newNode name isInput isOutput).circuit.node n =
      l.circuit.node n := fun n hn => by simp [Lexer.newNode, hn]
  have hmem : ∀ {n}, n ∈ (l.newNode name isInput isOutput).circuit.allNodes ↔
      n ∈ l.circuit.allNodes ∨ n = l.free := fun {n} => by simp [Lexer.newNode]
  have hne : ∀ {n}, n ∈ l.circuit.allNodes → n ≠ l.free := fun hn he => hfree (he ▸ hn)
  refine ⟨⟨?_, fun n hn i hi => ?_, fun n hn m hm => ?_, fun a ha b hb => ?_⟩, fun n hn => ?_,
    fun n hn => hmem.2 (.inl (h.nodes n hn)), fun n hn => ?_, fun s n hn => ?_⟩
  · exact List.nodup_append.2 ⟨h.mirror.nodup, List.nodup_singleton _, fun a ha b hb hab =>
      hne ha (hab.trans (List.mem_singleton.1 hb))⟩
  · rcases hmem.1 hn with hn | rfl
    · rw [hold n (hne hn)] at hi
      exact hmem.2 (.inl (h.mirror.closed n hn i hi))
    · rw [hnew] at hi
      cases hi
  · rcases hmem.1 hn with hn | rfl
    · rw [hold n (hne hn)] at hm
      exact hmem.2 (.inl (h.mirror.outs n hn m hm))
    · rw [hnew] at hm
      cases hm
  · rcases hmem.1 ha with ha | rfl <;> rcases hmem.1 hb with hb | rfl
    · rw [hold a (hne ha), hold b (hne hb)]
      exact h.mirror.count a ha b hb
    · rw [hnew, hold a (hne ha)]
      exact (List.count_eq_zero_of_not_mem fun hm => hfree (h.mirror.outs a ha _ hm)).symm
    · rw [hnew, hold b (hne hb)]
      exact List.count_eq_zero_of_not_mem fun hm => hfree (h.mirror.closed b hb _ hm)
    · rw [hnew]
  · rcases hmem.1 hn with hn | rfl
    · exact (h.below n hn).trans (Nat.lt_succ_self _)
    · exact Nat.lt_succ_self _
  · exact hmem.2 (.inr (Option.some.inj hn).symm)
  · simp only [getNode, Lexer.newNode] at hn
    by_cases hs : s = name
    · subst hs
      rw [AList.lookup_insert] at hn
      exact hmem.2 (.inr (Option.some.inj hn).symm)
    · rw [AList.lookup_insert_ne hs] at hn
      exact hmem.2 (.inl (h.names s n hn))

theorem id (text : String) : (l.id text).Sound := by
  unfold Lexer.id
  split
  · obtain ⟨⟨q1, q2, q3, q4⟩, h2, h3, h4, h5⟩ := h
    exact ⟨⟨q1, q2, q3, q4⟩, h2, h3, h4, h5⟩
  · obtain ⟨h1, h2, h3, h4, h5⟩ := h.newNode text false true
    exact ⟨⟨h1.nodup, h1.closed, h1.outs, h1.count⟩, h2, h3, h4, h5⟩
  · obtain ⟨h1, h2, h3, h4, h5⟩ := h.newNode text true false
    exact ⟨⟨h1.nodup, h1.closed, h1.outs, h1.count⟩, h2, h3, h4, h5⟩
  · split
    · obtain ⟨h1, h2, h3, h4, h5⟩ := h.newNode text false false
      refine ⟨h1, h2, fun n hn => ?_, h4, h5⟩
      rcases List.mem_append.1 hn with hn | hn
      · exact h3 n hn
      · exact h4 n (by rw [List.mem_singleton.1 hn]; rfl)
    · rename_i n hn
      refine ⟨h.mirror, h.below, fun m hm => ?_, fun m hm => ?_, h.names⟩
      · rcases List.mem_append.1 hm with hm | hm
        · exact h.nodes m hm
        · exact h.names text m (by rw [List.mem_singleton.1 hm]; exact hn)
      · exact h.names text m (by rw [← Option.some.inj hm]; exact hn)
  · exact h

theorem newline {l' : Lexer} (hl : l.newline = some l') : l'.Sound := by
  unfold Lexer.newline at hl
  split at hl
  · split at hl
    · rename_i hnil
      cases hl
      exact ⟨h.mirror, h.below, h.nodes, h.current, h.names⟩
    · cases hl
    · rename_i cur hcur _
      cases hl
      have hc := h.current cur hcur
      -- the loop keeps the nodes and the names
      have key : ∀ (ns : List NodeId) (c : Circuit), c.Mirror → c.allNodes = l.circuit.allNodes →
          c.allNodesMap = l.circuit.allNodesMap → (∀ n ∈ ns, n ∈ l.circuit.allNodes) →
          let c' := ns.foldl (fun c i => if cur ≠ i then Lexer.connect cur i c else c) c
          c'.Mirror ∧ c'.allNodes = l.circuit.allNodes ∧
            c'.allNodesMap = l.circuit.allNodesMap := by
        intro ns
        induction ns with
        | nil => exact fun c h1 h2 h3 _ => ⟨h1, h2, h3⟩
        | cons i ns ih =>
          intro c h1 h2 h3 h4
          rw [List.foldl_cons]
          have hi := h4 i (by simp)
          by_cases hci : cur ≠ i
          · rw [if_pos hci]
            exact ih _ (connect_mirror h1 (h2 ▸ hc) (h2 ▸ hi)) h2 h3 fun n hn => h4 n (by simp [hn])
          · rw [if_neg hci]
            exact ih _ h1 h2 h3 fun n hn => h4 n (by simp [hn])
      obtain ⟨h1, h2, h3⟩ := key _ l.circuit h.mirror rfl rfl h.nodes
      refine ⟨h1, fun n hn => h.below n (h2 ▸ hn), fun n hn => absurd hn List.not_mem_nil,
        fun n hn => ?_, fun s n hn => ?_⟩
      · exact h2.symm ▸ h.current n hn
      · exact h2.symm ▸ h.names s n (by rw [← hn, getNode, getNode, h3])
  · cases hl
    exact h

theorem array {text : String} {l' : Lexer} (hl : l.array text = some l') : l'.Sound := by
  unfold Lexer.array at hl
  split at hl
  · split at hl
    · cases hl
    · cases hl
      have hin : ∀ f : String → String, ∀ cur n, ((l.circuit.modNode cur fun nd =>
          { nd with cube := f nd.cube }).node n).inputs = (l.circuit.node n).inputs := by
        intro f cur n; simp only [modNode_node]; split <;> rfl
      have hout : ∀ f : String → String, ∀ cur n, ((l.circuit.modNode cur fun nd =>
          { nd with cube := f nd.cube }).node n).outputs = (l.circuit.node n).outputs := by
        intro f cur n; simp only [modNode_node]; split <;> rfl
      refine ⟨⟨h.mirror.nodup, ?_, ?_, ?_⟩, h.below, h.nodes, h.current, h.names⟩
      · intro n hn i hi
        exact h.mirror.closed n hn i (by rw [hin (· ++ text ++ "\n")] at hi; exact hi)
      · intro n hn i hi
        exact h.mirror.outs n hn i (by rw [hout (· ++ text ++ "\n")] at hi; exact hi)
      · intro a ha b hb
        rw [hin (· ++ text ++ "\n"), hout (· ++ text ++ "\n")]
        exact h.mirror.count a ha b hb
  · cases hl
    exact h

theorem action {rule : Nat} {text : String} {l' : Lexer} (hl : l.action rule text = some l') :
    l'.Sound := by
  unfold Lexer.action at hl
  split at hl
  · cases hl; exact ⟨h.mirror, h.below, h.nodes, h.current, h.names⟩
  · cases hl; exact ⟨h.mirror, h.below, h.nodes, h.current, h.names⟩
  · cases hl; exact ⟨h.mirror, h.below, h.nodes, h.current, h.names⟩
  · cases hl; exact ⟨h.mirror, h.below, h.nodes, h.current, h.names⟩
  · cases hl; exact ⟨h.mirror, h.below, h.nodes, h.current, h.names⟩
  · cases hl; exact h.id text
  · exact h.newline hl
  · exact h.array hl
  · cases hl; exact h

end Lexer.Sound

theorem lexF_sound : ∀ {fuel : Nat} {text : List Char} {l l' : Lexer}, l.Sound →
    lexF fuel text l = some l' → l'.Sound
  | fuel, [], l, l', h, he => by
    unfold lexF at he
    cases he
    exact h
  | 0, _ :: _, _, _, _, he => by cases he
  | fuel + 1, ch :: text, l, l', h, he => by
    rw [lexF] at he
    obtain ⟨l1, h1, h2⟩ := Option.bind_eq_some_iff.1 he
    exact lexF_sound (h.action h1) h2

theorem init_sound : Lexer.init.Sound := by
  refine ⟨⟨List.nodup_nil, ?_, ?_, ?_⟩, ?_, ?_, ?_, ?_⟩
  · intro n hn; cases hn
  · intro n hn; cases hn
  · intro a ha; cases ha
  · intro n hn; cases hn
  · intro n hn; cases hn
  · intro n hn; cases hn
  · intro s n hn; cases hn

/-- **A parsed circuit** has mirrored edges. -/
theorem lex_mirror {text : String} {l : Lexer} (h : lex text = some l) : l.circuit.Mirror :=
  (lexF_sound init_sound h).mirror

end Msyn.Parser
