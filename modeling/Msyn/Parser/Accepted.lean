import Msyn.Lib.Loop
import Msyn.Parser.Names
import Msyn.Parser.RoundTrip

/-!
# What the lexer accepts

The scanner takes a piece of text for an identifier or for a line of a cover only if it is one
(`scan_shape`), and the actions keep the lists of ports in step with the flags of the nodes
(`Formed`). So the circuit of a text can be written back exactly if no two nodes have one name, it is
named itself, nothing drives its inputs, and `zero` and `one` are bare (`lex_writable_iff`).
-/

namespace Msyn.Parser

open Nodecircuit Circuit

/-! ## The pieces that the scanner takes -/

/-- The automaton is in the state after the characters. -/
inductive Path : FsmState → List Char → Prop
  | start : Path .S0 []
  | step {s s' : FsmState} {u : List Char} {ch : Char} : Path s u → s.goto ch = some s' →
      Path s' (u ++ [ch])

/-- A character of the plane of a cover. -/
def IsLiteral (ch : Char) : Prop := ch = '0' ∨ ch = '1' ∨ ch = '-'

/-- A line of a cover up to the blank. -/
def IsPlane (u : List Char) : Prop :=
  ∃ plane blank, u = plane ++ [blank] ∧ (∀ ch ∈ plane, IsLiteral ch) ∧ (blank = ' ' ∨ blank = '\t')

/-- What has been read in the states of the rules `id` and `array`. -/
def Shape (u : List Char) : FsmState → Prop
  | .S0 => u = []
  | .S17 | .S47 => IsId u
  | .S31 | .S55 => ∀ ch ∈ u, IsLiteral ch
  | .S23 | .S53 => IsPlane u
  | .S51 => IsLine u
  | _ => True

theorem binary_iff {ch : Char} : '0' ≤ ch ∧ ch ≤ '1' ↔ ch = '0' ∨ ch = '1' := by
  constructor
  · rintro ⟨h1, h2⟩
    rw [Char.le_def, UInt32.le_iff_toNat_le] at h1 h2
    have h3 : ch.val.toNat = 48 ∨ ch.val.toNat = 49 := by
      have e1 : '0'.val.toNat = 48 := rfl
      have e2 : '1'.val.toNat = 49 := rfl
      omega
    exact h3.imp (fun h => Char.ext (UInt32.toNat_inj.1 h)) fun h => Char.ext (UInt32.toNat_inj.1 h)
  · rintro (rfl | rfl) <;> decide

theorem IsId.snoc {u : List Char} (h : IsId u) {ch : Char} (hch : IdChar ch) : IsId (u ++ [ch]) := by
  obtain ⟨c, cs, rfl, h1, h2⟩ := h
  refine ⟨c, cs ++ [ch], rfl, h1, fun x hx => ?_⟩
  rcases List.mem_append.1 hx with hx | hx
  · exact h2 x hx
  · exact List.mem_singleton.1 hx ▸ hch

theorem literal_snoc {u : List Char} (h : ∀ ch ∈ u, IsLiteral ch) {ch : Char} (hch : IsLiteral ch) :
    ∀ x ∈ u ++ [ch], IsLiteral x := by
  intro x hx
  rcases List.mem_append.1 hx with hx | hx
  · exact h x hx
  · exact List.mem_singleton.1 hx ▸ hch

theorem IsPlane.snoc {u : List Char} (h : IsPlane u) {ch : Char} (hch : ch = '0' ∨ ch = '1') :
    IsLine (u ++ [ch]) := by
  obtain ⟨plane, blank, rfl, h1, h2⟩ := h
  exact ⟨plane, blank, ch, by simp, h1, h2, hch⟩

/-- A transition into the states of the rules `id` and `array`. -/
theorem Shape.step {s s' : FsmState} {u : List Char} {ch : Char} (h : Shape u s)
    (hg : s.goto ch = some s') : Shape (u ++ [ch]) s' := by
  have hbit : '0' ≤ ch ∧ ch ≤ '1' → IsLiteral ch := fun hc => (binary_iff.1 hc).imp_right .inl
  have hdash : ch = '-' → IsLiteral ch := fun hc => .inr (.inr hc)
  cases s
  case S0 =>
    obtain rfl : u = [] := h
    have hid : ('a' ≤ ch ∧ ch ≤ 'z' ∨ 'A' ≤ ch ∧ ch ≤ 'Z') → IsId ([] ++ [ch]) := fun hc =>
      ⟨ch, [], rfl, hc, fun _ hx => absurd hx List.not_mem_nil⟩
    have hnil : ∀ x ∈ ([] : List Char), IsLiteral x := fun _ hx => absurd hx List.not_mem_nil
    dsimp only [FsmState.goto] at hg
    split_ifs at hg with h1 h2 h3 h4 h5 h6 h7 h8 h9 <;> cases hg
    · exact hid (.inl h1)
    · exact hid (.inr h2)
    · exact literal_snoc hnil (hbit h3)
    · trivial
    · exact literal_snoc hnil (hdash h5)
    · exact ⟨[], ch, rfl, hnil, .inl h6⟩
    · trivial
    · trivial
    · exact ⟨[], ch, rfl, hnil, .inr h9⟩
    · trivial
  case S17 | S47 =>
    dsimp only [FsmState.goto] at hg
    split_ifs at hg with h1 h2 <;> cases hg
    · exact h.snoc (.inl h1)
    · exact h.snoc (.inr h2)
  case S31 | S55 =>
    dsimp only [FsmState.goto] at hg
    split_ifs at hg with h1 h2 h3 h4 <;> cases hg
    · exact literal_snoc h (hbit h1)
    · exact literal_snoc h (hdash h2)
    · exact ⟨u, ch, rfl, h, .inl h3⟩
    · exact ⟨u, ch, rfl, h, .inr h4⟩
  case S23 | S53 =>
    dsimp only [FsmState.goto] at hg
    split_ifs at hg with h1
    cases hg
    exact h.snoc (binary_iff.1 h1)
  all_goals
    dsimp only [FsmState.goto] at hg
    try split_ifs at hg
    all_goals first | (cases hg; trivial) | cases hg

theorem Path.shape {s : FsmState} {u : List Char} (h : Path s u) : Shape u s := by
  induction h with
  | start => exact rfl
  | step _ hg ih => exact ih.step hg

/-- The rule that is recorded belongs to a state on the way. -/
def Recorded (text : List Char) (taken : Nat × Nat) : Prop :=
  taken.1 = 0 ∨ ∃ s, Path s (text.take taken.2) ∧ s.take = taken.1

theorem scanFrom_recorded {text : List Char} : ∀ {u : List Char} {taken : Nat × Nat} {s : FsmState},
    Path s u → Recorded (u ++ text) taken → Recorded (u ++ text) (scanFrom u.length taken s text) := by
  induction text with
  | nil =>
    intro u taken s hp ht
    rw [scanFrom]
    split
    · exact ht
    · exact .inr ⟨s, by rw [List.append_nil, List.take_length]; exact hp, rfl⟩
  | cons ch text ih =>
    intro u taken s hp ht
    have ht' : Recorded (u ++ ch :: text) (if s.take = 0 then taken else (s.take, u.length)) := by
      split
      · exact ht
      · exact .inr ⟨s, by rw [List.take_left]; exact hp, rfl⟩
    rw [scanFrom]
    cases hg : s.goto ch with
    | none => exact ht'
    | some s' =>
      have hnext := @ih (u ++ [ch]) (if s.take = 0 then taken else (s.take, u.length)) s' (hp.step hg)
      rw [List.append_assoc, List.singleton_append, List.length_append, List.length_singleton] at hnext
      exact hnext ht'

/-- A token of the rule `id` is an identifier, one of the rule `array` a line. -/
def Token.Formed (t : Token) : Prop :=
  (t.1 = 6 → IsId t.2.toList) ∧ (t.1 = 8 → IsLine t.2.toList)

/-- **The scanner takes only what the rules ask for.** -/
theorem scan_shape (text : List Char) :
    Token.Formed ((scan text).1, String.ofList (text.take (scan text).2)) := by
  have h : Recorded ([] ++ text) (scan text) := scanFrom_recorded .start (.inl rfl)
  have key : ∀ rule, (scan text).1 = rule → rule ≠ 0 →
      ∃ s, Shape (text.take (scan text).2) s ∧ s.take = rule := by
    intro rule hr hne
    obtain ⟨s, h1, h2⟩ := h.resolve_left fun h0 => hne (hr.symm.trans h0)
    exact ⟨s, h1.shape, h2.trans hr⟩
  refine ⟨fun hr => ?_, fun hr => ?_⟩
  · obtain ⟨s, h1, h2⟩ := key 6 hr (by decide)
    rw [String.toList_ofList]
    cases s <;> first | exact h1 | cases h2
  · obtain ⟨s, h1, h2⟩ := key 8 hr (by decide)
    rw [String.toList_ofList]
    cases s <;> first | exact h1 | cases h2

theorem tokens_formed (text : List Char) : ∀ t ∈ tokens text, Token.Formed t := by
  induction hlen : text.length using Nat.strong_induction_on generalizing text with
  | _ len ih =>
    cases text with
    | nil => intro t ht; cases ht
    | cons ch text =>
      have hpos := scan_pos ch text
      rw [tokens_cons]
      intro t ht
      rcases List.mem_cons.1 ht with rfl | ht
      · exact scan_shape (ch :: text)
      · refine ih _ ?_ _ rfl t ht
        rw [List.length_drop, ← hlen, List.length_cons]
        omega

/-! ## The circuit of a text -/

/-- What the actions give every node. -/
structure NodeFormed (n : NodeId) (nd : Node) : Prop where
  ident : IsId nd.name.toList
  port : ¬(nd.isInput = true ∧ nd.isOutput = true)
  irrefl : n ∉ nd.inputs
  cube : IsCover nd.cube

/-- The lists of ports agree with the flags, and every node is formed. -/
structure Lexer.Formed (l : Lexer) : Prop where
  name : l.circuit.name = "" ∨ IsId l.circuit.name.toList
  inputs : l.circuit.inputs = l.circuit.allNodes.filter fun n => (l.circuit.node n).isInput
  outputs : l.circuit.outputs = l.circuit.allNodes.filter fun n => (l.circuit.node n).isOutput
  node : ∀ n ∈ l.circuit.allNodes, NodeFormed n (l.circuit.node n)
  noClusters : l.circuit.allClusters = []

theorem isCover_empty : IsCover "" := ⟨[], by simp, rfl⟩

theorem IsCover.append {cube line : String} (h : IsCover cube) (hl : IsLine line.toList) :
    IsCover (cube ++ line ++ "\n") := by
  obtain ⟨lines, h1, h2⟩ := h
  refine ⟨lines ++ [line.toList], fun s hs => ?_, ?_⟩
  · rcases List.mem_append.1 hs with hs | hs
    · exact h1 s hs
    · exact List.mem_singleton.1 hs ▸ hl
  · rw [String.toList_append, String.toList_append, h2, toList_endl, List.flatMap_append]
    simp

namespace Lexer.Formed

variable {l : Lexer} (h : l.Formed) (hs : l.Sound)
include h

/-- A change of the nodes that keeps the flags. -/
theorem edit {l' : Lexer} (hname : l'.circuit.name = l.circuit.name)
    (hall : l'.circuit.allNodes = l.circuit.allNodes) (hin : l'.circuit.inputs = l.circuit.inputs)
    (hout : l'.circuit.outputs = l.circuit.outputs)
    (hflag : ∀ n, (l'.circuit.node n).isInput = (l.circuit.node n).isInput ∧
      (l'.circuit.node n).isOutput = (l.circuit.node n).isOutput)
    (hnode : ∀ n ∈ l.circuit.allNodes, NodeFormed n (l'.circuit.node n))
    (hclus : l'.circuit.allClusters = l.circuit.allClusters) : l'.Formed where
  name := hname ▸ h.name
  inputs := by
    rw [hin, hall, h.inputs]
    simp only [(hflag _).1]
  outputs := by
    rw [hout, hall, h.outputs]
    simp only [(hflag _).2]
  node n hn := hnode n (hall ▸ hn)
  noClusters := hclus.trans h.noClusters

include hs

/-- A new node that enters the list of its ports. -/
theorem newNode {text : String} {i o : Bool} (hid : IsId text.toList) (hio : ¬(i = true ∧ o = true))
    {l' : Lexer} (hl : l'.circuit = { (l.newNode text i o).circuit with
      inputs := if i then l.circuit.inputs ++ [l.free] else l.circuit.inputs
      outputs := if o then l.circuit.outputs ++ [l.free] else l.circuit.outputs }) :
    l'.Formed := by
  have hfree : ∀ n ∈ l.circuit.allNodes, n ≠ l.free := fun n hn he =>
    (hs.below n hn).ne he
  have hnode : ∀ n, l'.circuit.node n =
      if n = l.free then { name := text, isInput := i, isOutput := o } else l.circuit.node n := by
    intro n
    rw [hl]
    rfl
  have hold : ∀ n ∈ l.circuit.allNodes, l'.circuit.node n = l.circuit.node n := fun n hn => by
    rw [hnode, if_neg (hfree n hn)]
  have hnew : l'.circuit.node l.free = { name := text, isInput := i, isOutput := o } := by
    rw [hnode, if_pos rfl]
  have hall : l'.circuit.allNodes = l.circuit.allNodes ++ [l.free] := by
    rw [hl]
    rfl
  have hfilter : ∀ flag : Node → Bool, (l'.circuit.allNodes.filter fun n => flag (l'.circuit.node n)) =
      (l.circuit.allNodes.filter fun n => flag (l.circuit.node n)) ++
        if flag { name := text, isInput := i, isOutput := o } then [l.free] else [] := by
    intro flag
    have hcongr : (l.circuit.allNodes.filter fun n => flag (l'.circuit.node n)) =
        l.circuit.allNodes.filter fun n => flag (l.circuit.node n) :=
      List.filter_congr fun n hn => by rw [hold n hn]
    rw [hall, List.filter_append, hcongr, List.filter_singleton, hnew]
    cases flag { name := text, isInput := i, isOutput := o } <;> rfl
  refine ⟨?_, ?_, ?_, fun n hn => ?_, ?_⟩
  · rw [hl]
    exact h.name
  · rw [hfilter, hl, ← h.inputs]
    cases i <;> simp
  · rw [hfilter, hl, ← h.outputs]
    cases o <;> simp
  · rw [hall] at hn
    rcases List.mem_append.1 hn with hn | hn
    · rw [hold n hn]
      exact h.node n hn
    · rw [List.mem_singleton.1 hn, hnew]
      exact ⟨hid, hio, List.not_mem_nil, isCover_empty⟩
  · rw [hl]
    exact h.noClusters

theorem id {text : String} (hid : IsId text.toList) : (l.id text).Formed := by
  unfold Lexer.id
  split
  · exact ⟨.inr hid, h.inputs, h.outputs, h.node, h.noClusters⟩
  · exact h.newNode hs hid (i := false) (o := true) (by simp) rfl
  · exact h.newNode hs hid (i := true) (o := false) (by simp) rfl
  · split
    · exact h.newNode hs hid (i := false) (o := false) (by simp) rfl
    · exact ⟨h.name, h.inputs, h.outputs, h.node, h.noClusters⟩
  · exact h

omit hs in
theorem newline {l' : Lexer} (hl : l.newline = some l') : l'.Formed := by
  unfold Lexer.newline at hl
  split at hl
  · split at hl
    · cases hl
      exact ⟨h.name, h.inputs, h.outputs, h.node, h.noClusters⟩
    · cases hl
    · rename_i cur _ _
      cases hl
      -- the loop only adds edges, and none from a node to itself
      have key : ∀ (ns : List NodeId) (c : Circuit), (∀ n ∈ l.circuit.allNodes, NodeFormed n (c.node n)) →
          let c' := ns.foldl (fun c i => if cur ≠ i then connect cur i c else c) c
          c'.name = c.name ∧ c'.allNodes = c.allNodes ∧ c'.inputs = c.inputs ∧
            c'.outputs = c.outputs ∧ c'.allClusters = c.allClusters ∧ (∀ n, (c'.node n).isInput = (c.node n).isInput ∧
              (c'.node n).isOutput = (c.node n).isOutput) ∧
            ∀ n ∈ l.circuit.allNodes, NodeFormed n (c'.node n) := by
        intro ns
        induction ns with
        | nil => exact fun c hc => ⟨rfl, rfl, rfl, rfl, rfl, fun _ => ⟨rfl, rfl⟩, hc⟩
        | cons i ns ih =>
          intro c hc
          rw [List.foldl_cons]
          by_cases hci : cur ≠ i
          · have hcon : ∀ n, ((connect cur i c).node n).name = (c.node n).name ∧
                ((connect cur i c).node n).cube = (c.node n).cube ∧
                ((connect cur i c).node n).isInput = (c.node n).isInput ∧
                ((connect cur i c).node n).isOutput = (c.node n).isOutput ∧
                ((connect cur i c).node n).inputs =
                  if n = cur then (c.node n).inputs ++ [i] else (c.node n).inputs := by
              intro n
              simp only [connect, pushOutput, modNode_node]
              split_ifs <;> simp
            rw [if_pos hci]
            obtain ⟨e1, e2, e3, e4, e7, e5, e6⟩ := ih (connect cur i c) fun n hn => by
              obtain ⟨q1, q2, q3, q4, q5⟩ := hcon n
              obtain ⟨p1, p2, p3, p4⟩ := hc n hn
              refine ⟨q1 ▸ p1, by rw [q3, q4]; exact p2, ?_, q2 ▸ p4⟩
              rw [q5]
              split
              · rename_i hnc
                rw [List.mem_append, List.mem_singleton, not_or]
                exact ⟨p3, hnc ▸ hci⟩
              · exact p3
            exact ⟨e1, e2, e3, e4, e7, fun n => ⟨(e5 n).1.trans (hcon n).2.2.1,
              (e5 n).2.trans (hcon n).2.2.2.1⟩, e6⟩
          · rw [if_neg hci]
            exact ih c hc
      obtain ⟨e1, e2, e3, e4, e7, e5, e6⟩ := key _ l.circuit h.node
      exact h.edit e1 e2 e3 e4 e5 e6 e7
  · cases hl
    exact h

omit hs in
theorem array {text : String} {l' : Lexer} (hline : IsLine text.toList)
    (hl : l.array text = some l') : l'.Formed := by
  unfold Lexer.array at hl
  split at hl
  · split at hl
    · cases hl
    · cases hl
      refine h.edit rfl rfl rfl rfl (fun n => ?_) (fun n hn => ?_) rfl
      · simp only [modNode_node]
        split <;> exact ⟨rfl, rfl⟩
      · obtain ⟨p1, p2, p3, p4⟩ := h.node n hn
        simp only [modNode_node]
        split
        · exact ⟨p1, p2, p3, p4.append hline⟩
        · exact ⟨p1, p2, p3, p4⟩
  · cases hl
    exact h

theorem step {t : Token} (ht : t.Formed) {l' : Lexer} (hl : l.step t = some l') : l'.Formed := by
  obtain ⟨rule, text⟩ := t
  unfold Lexer.step Lexer.action at hl
  split at hl
  · cases hl; exact ⟨h.name, h.inputs, h.outputs, h.node, h.noClusters⟩
  · cases hl; exact ⟨h.name, h.inputs, h.outputs, h.node, h.noClusters⟩
  · cases hl; exact ⟨h.name, h.inputs, h.outputs, h.node, h.noClusters⟩
  · cases hl; exact ⟨h.name, h.inputs, h.outputs, h.node, h.noClusters⟩
  · cases hl; exact ⟨h.name, h.inputs, h.outputs, h.node, h.noClusters⟩
  · rename_i hr
    cases hl
    exact h.id hs (ht.1 hr)
  · exact h.newline hl
  · rename_i hr
    exact h.array (ht.2 hr) hl
  · cases hl; exact h

end Lexer.Formed

/-- **The circuit of any text is formed.** -/
theorem lex_formed {text : String} {l : Lexer} (h : lex text = some l) : l.Formed := by
  rw [lex_eq] at h
  have hinit : Lexer.init.Formed := ⟨.inl rfl, rfl, rfl, fun n hn => absurd hn List.not_mem_nil, rfl⟩
  exact (foldlM_inv (P := fun l => l.Sound ∧ l.Formed) (fun l l' t ht hl hstep =>
    ⟨hl.1.action hstep, hl.2.step hl.1 (tokens_formed _ t ht) hstep⟩) ⟨init_sound, hinit⟩ h).2

/-- What keeps the circuit of a text from being written: a name that several nodes have, no `.model`,
inputs that are driven, constants that are not bare. -/
structure Tidy (c : Circuit) : Prop where
  distinct : (c.allNodes.map fun n => (c.node n).name).Nodup
  model : c.name ≠ ""
  leaf : ∀ n ∈ c.allNodes, (c.node n).isInput = true → (c.node n).inputs = [] ∧ (c.node n).cube = ""
  const : ∀ n ∈ c.allNodes, (c.node n).name = "zero" ∨ (c.node n).name = "one" →
    (c.node n).inputs = [] ∧ (c.node n).cube = ""

instance (c : Circuit) : Decidable (Tidy c) :=
  decidable_of_iff ((c.allNodes.map fun n => (c.node n).name).Nodup ∧ c.name ≠ "" ∧
    (∀ n ∈ c.allNodes, (c.node n).isInput = true → (c.node n).inputs = [] ∧ (c.node n).cube = "") ∧
    ∀ n ∈ c.allNodes, (c.node n).name = "zero" ∨ (c.node n).name = "one" →
      (c.node n).inputs = [] ∧ (c.node n).cube = "")
    ⟨fun ⟨h1, h2, h3, h4⟩ => ⟨h1, h2, h3, h4⟩, fun ⟨h1, h2, h3, h4⟩ => ⟨h1, h2, h3, h4⟩⟩

section
variable {text : String} {l : Lexer} (h : lex text = some l)
include h

/-- Where no two nodes have one name, names identify nodes. -/
theorem lex_named (hnd : (l.circuit.allNodes.map fun n => (l.circuit.node n).name).Nodup) :
    Named l.circuit := by
  have hrun := reads_init.1.run (tokens text.toList)
  rw [← lex_eq, h] at hrun
  cases hr : (tokens text.toList).foldlM Reader.step {} with
  | none =>
    rw [hr] at hrun
    cases hrun
  | some r =>
    rw [hr] at hrun
    cases hrun with
    | some hreads => exact hreads.named_iff.2 (hreads.nodes ▸ hnd)

theorem Tidy.writable (ht : Tidy l.circuit) : Writable l.circuit := by
  have hf := lex_formed h
  have hm := lex_mirror h
  exact {
    ident := ⟨hf.name.resolve_left ht.model, fun n hn => (hf.node n hn).ident⟩
    distinct := ht.distinct
    map := (lex_named h ht.distinct).lookup
    inputs := fun n => by rw [hf.inputs, List.mem_filter]
    outputs := fun n => by rw [hf.outputs, List.mem_filter]
    once := ⟨hf.inputs ▸ hm.nodup.filter _, hf.outputs ▸ hm.nodup.filter _⟩
    disjoint := fun n hn => (hf.node n hn).port
    closed := hm.closed
    leaf := ht.leaf
    irrefl := fun n hn => (hf.node n hn).irrefl
    cube := fun n hn => (hf.node n hn).cube
    const := ht.const }

/-- **What is accepted is well formed**: the circuit of a text can be written back exactly if it is
tidy. -/
theorem lex_writable_iff : Writable l.circuit ↔ Tidy l.circuit := by
  refine ⟨fun hw => ⟨hw.distinct, fun he => ?_, hw.leaf, hw.const⟩, Tidy.writable h⟩
  obtain ⟨ch, cs, hid, -⟩ := hw.ident.1
  rw [he] at hid
  cases hid

end

/-- A buffer of an input, in a text without `.model` and with one. -/
theorem lex_writable_iff_model :
    (∃ l, lex ".inputs a\n.outputs b\n.names a b\n1 1\n.end\n" = some l ∧ ¬Writable l.circuit) ∧
      ∃ l, lex ".model m\n.inputs a\n.outputs b\n.names a b\n1 1\n.end\n" = some l ∧
        Writable l.circuit := by
  have hno : ((lex ".inputs a\n.outputs b\n.names a b\n1 1\n.end\n").any fun l => decide
      (¬Tidy l.circuit)) = true := by
    decide +kernel
  have hyes : ((lex ".model m\n.inputs a\n.outputs b\n.names a b\n1 1\n.end\n").any fun l => decide
      (Tidy l.circuit)) = true := by
    decide +kernel
  obtain ⟨l, h1, h2⟩ := (Option.any_eq_true _ _).1 hno
  obtain ⟨l', h3, h4⟩ := (Option.any_eq_true _ _).1 hyes
  exact ⟨⟨l, h1, fun hw => of_decide_eq_true h2 ((lex_writable_iff h1).1 hw)⟩, l', h3,
    (lex_writable_iff h3).2 (of_decide_eq_true h4)⟩

end Msyn.Parser
