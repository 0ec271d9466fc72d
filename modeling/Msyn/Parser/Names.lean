import Msyn.Parser.Reader

/-!
# Names identify nodes

After a text is read, a name should stand for one node (`Named`). The rules of `.inputs` and
`.outputs` make a node without a look at `all_nodes_map`, which the rule of `.names` has, so this
holds exactly for the texts that mention no name before its declaration (`lex_named_iff`).
-/

namespace Msyn.Parser

open Nodecircuit Circuit

/-- Every name stands for one node, which is the one that is looked up and referred to. -/
structure Named (c : Circuit) : Prop where
  distinct : (c.allNodes.map fun n => (c.node n).name).Nodup
  lookup : ∀ s n, c.getNode s = some n ↔ n ∈ c.allNodes ∧ (c.node n).name = s
  refs : ∀ n, (n ∈ c.inputs ∨ n ∈ c.outputs ∨ ∃ m ∈ c.allNodes, n ∈ (c.node m).inputs) →
    c.getNode (c.node n).name = some n

/-- The mode after a token of the rule. -/
def Mode.next (m : Mode) (rule : Nat) : Mode :=
  match rule with
  | 1 => .done
  | 2 => .model
  | 3 => .outputs
  | 4 => .inputs
  | 5 => .names
  | 6 => if m = .model then .start else m
  | 7 => if m = .names then .cover else m
  | _ => m

/-- The names of nodes in a text, with the sections that they stand in. -/
def mentions : Mode → List Token → List (Mode × String)
  | _, [] => []
  | m, t :: ts =>
    if t.1 = 6 ∧ (m = .outputs ∨ m = .inputs ∨ m = .names) then
      (m, t.2) :: mentions (m.next t.1) ts
    else mentions (m.next t.1) ts

/-- A name in an `.inputs` or `.outputs` section is not mentioned before. -/
def DeclaredFirst (ms : List (Mode × String)) : Prop :=
  ms.Pairwise fun a b => b.1 = .names ∨ a.2 ≠ b.2

instance (ms : List (Mode × String)) : Decidable (DeclaredFirst ms) :=
  inferInstanceAs (Decidable (List.Pairwise _ ms))

/-! ## The names that are entered -/

/-- A declaration enters its name, a reference only a new one. -/
def enter (nodes : List String) (a : Mode × String) : List String :=
  if a.1 = .names ∧ a.2 ∈ nodes then nodes else nodes ++ [a.2]

theorem Reader.step_enter {r r' : Reader} {t : Token} (h : r.step t = some r') :
    r'.mode = r.mode.next t.1 ∧
      r'.net.nodes = (if t.1 = 6 ∧ (r.mode = .outputs ∨ r.mode = .inputs ∨ r.mode = .names) then
        enter r.net.nodes (r.mode, t.2) else r.net.nodes) := by
  obtain ⟨rule, text⟩ := t
  match rule with
  | 1 | 2 | 3 | 4 | 5 => cases h; exact ⟨rfl, rfl⟩
  | 0 | _ + 9 =>
    cases h
    exact ⟨rfl, by simp⟩
  | 6 =>
    cases h
    unfold Reader.id
    cases hm : r.mode <;> exact ⟨by simp [Mode.next, hm], by simp [enter]⟩
  | 7 =>
    replace h : r.newline = some r' := h
    unfold Reader.newline at h
    split at h
    · rename_i hm
      split at h <;> cases h <;> exact ⟨(if_pos hm).symm, rfl⟩
    · rename_i hm
      cases h
      exact ⟨(if_neg hm).symm, rfl⟩
  | 8 =>
    replace h : r.array text = some r' := h
    unfold Reader.array at h
    split at h
    · split at h <;> cases h
      exact ⟨rfl, rfl⟩
    · cases h
      exact ⟨rfl, rfl⟩

theorem Reader.run_enter {ts : List Token} {r r' : Reader} (h : ts.foldlM Reader.step r = some r') :
    r'.net.nodes = (mentions r.mode ts).foldl enter r.net.nodes := by
  induction ts generalizing r with
  | nil =>
    cases h
    rfl
  | cons t ts ih =>
    rw [List.foldlM_cons] at h
    obtain ⟨r1, h1, h2⟩ := Option.bind_eq_some_iff.1 h
    obtain ⟨e1, e2⟩ := Reader.step_enter h1
    rw [ih h2, e1, e2, mentions]
    split <;> rfl

theorem enter_nodup (nodes : List String) (a : Mode × String) :
    (enter nodes a).Nodup ↔ nodes.Nodup ∧ (a.1 = .names ∨ a.2 ∉ nodes) := by
  unfold enter
  split
  · rename_i h
    simp [h.1]
  · rename_i h
    rw [List.nodup_append]
    constructor
    · rintro ⟨h1, -, h2⟩
      exact ⟨h1, .inr fun hin => h2 a.2 hin a.2 (by simp) rfl⟩
    · rintro ⟨h1, h2⟩
      refine ⟨h1, by simp, fun s hs s' hs' he => ?_⟩
      rw [List.mem_singleton] at hs'
      rcases h2 with h2 | h2
      · exact h ⟨h2, by rw [← hs', ← he]; exact hs⟩
      · exact h2 (by rw [← hs', ← he]; exact hs)

theorem mem_enter {nodes : List String} {a : Mode × String} {s : String} :
    s ∈ enter nodes a ↔ s ∈ nodes ∨ s = a.2 := by
  unfold enter
  split
  · rename_i h
    exact ⟨.inl, fun hs => hs.elim (fun h => h) fun he => he ▸ h.2⟩
  · simp

/-- No name is entered twice if none is declared after it was mentioned. -/
theorem foldl_enter_nodup (ms : List (Mode × String)) (nodes : List String) :
    (ms.foldl enter nodes).Nodup ↔
      nodes.Nodup ∧ (∀ b ∈ ms, b.1 = .names ∨ b.2 ∉ nodes) ∧ DeclaredFirst ms := by
  induction ms generalizing nodes with
  | nil => simp [DeclaredFirst]
  | cons a ms ih =>
    rw [List.foldl_cons, ih, enter_nodup, DeclaredFirst, DeclaredFirst, List.pairwise_cons]
    simp only [mem_enter, not_or, List.forall_mem_cons]
    constructor
    · rintro ⟨⟨h1, h2⟩, h3, h4⟩
      exact ⟨h1, ⟨h2, fun b hb => (h3 b hb).imp_right And.left⟩,
        fun b hb => (h3 b hb).imp_right fun h he => h.2 he.symm, h4⟩
    · rintro ⟨h1, ⟨h2, h3⟩, h4, h5⟩
      refine ⟨⟨h1, h2⟩, fun b hb => ?_, h5⟩
      rcases h3 b hb with h | h
      · exact .inl h
      · exact (h4 b hb).imp_right fun hne => ⟨h, fun he => hne he.symm⟩

/-! ## The circuit -/

theorem Reads.named_iff {l : Lexer} {r : Reader} (h : Reads l r) :
    Named l.circuit ↔ r.net.nodes.Nodup := by
  refine ⟨fun hn => h.nodes ▸ hn.distinct, fun hnd => ?_⟩
  have hlookup : ∀ n ∈ l.circuit.allNodes, l.circuit.getNode (l.nameOf n) = some n :=
    fun n hn => h.getNode_nameOf hnd hn
  refine ⟨?_, fun s n => ⟨fun hs => ⟨h.sound.names _ _ hs, h.found _ _ hs⟩, ?_⟩, ?_⟩
  · rw [← h.nodes] at hnd
    exact hnd
  · rintro ⟨hn, rfl⟩
    exact hlookup n hn
  · rintro n (hn | hn | ⟨m, hm, hn⟩)
    · exact hlookup n (h.inputsMem n hn)
    · exact hlookup n (h.outputsMem n hn)
    · exact hlookup n (h.sound.mirror.closed m hm n hn)

/-- **Names identify nodes** in what is read of a text exactly if no name is declared as an input or
output after it was mentioned. -/
theorem lex_named_iff {text : String} {l : Lexer} (h : lex text = some l) :
    Named l.circuit ↔ DeclaredFirst (mentions .start (tokens text.toList)) := by
  have hrun := reads_init.1.run (tokens text.toList)
  rw [← lex_eq, h] at hrun
  cases hr : (tokens text.toList).foldlM Reader.step {} with
  | none =>
    rw [hr] at hrun
    cases hrun
  | some r =>
    rw [hr] at hrun
    cases hrun with
    | some hreads =>
      rw [hreads.named_iff, Reader.run_enter hr, foldl_enter_nodup]
      simp

/-- A buffer. -/
theorem lex_named_iff_buffer :
    ∃ l, lex ".inputs a\n.outputs b\n.names a b\n1 1\n.end\n" = some l ∧ Named l.circuit := by
  obtain ⟨l, hl⟩ := Option.isSome_iff_exists.1
    (show (lex ".inputs a\n.outputs b\n.names a b\n1 1\n.end\n").isSome = true by decide +kernel)
  exact ⟨l, hl, (lex_named_iff hl).2 (by decide +kernel)⟩

/-- An input that is an output, too, is two nodes. -/
theorem feedthrough_twice : ∃ l, lex ".model m\n.inputs a\n.outputs a\n.end\n" = some l ∧
    ¬ Named l.circuit := by
  have hrun : ((lex ".model m\n.inputs a\n.outputs a\n.end\n").any fun l => decide
      ((l.circuit.allNodes.map fun n => (l.circuit.node n).name) = ["a", "a"])) = true := by
    decide +kernel
  obtain ⟨l, h1, h2⟩ := (Option.any_eq_true _ _).1 hrun
  refine ⟨l, h1, fun hn => ?_⟩
  have := hn.distinct
  rw [of_decide_eq_true h2] at this
  exact absurd this (by decide)

end Msyn.Parser
