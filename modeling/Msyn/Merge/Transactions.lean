import Msyn.Merge.Steps
import Msyn.Parser.Lexer

/-!
# Parsed circuits under transactions

`Transacted text`: the circuits that any transactions lead to from a parsed text. A transaction
sets a node to target and restores it or gives it a new cover; calls of `Remove` on dead nodes
follow; between them the clusters may change in any way. Edges stay mirrored and nothing fails
(`transactions_mirror`).
-/

namespace Msyn.NodeMerge

open Nodecircuit Circuit

/-- The circuits after any transactions; `none` is a failed assertion or `find`. -/
inductive Transacted (text : String) : Option Circuit → Prop
  | parse {l : Parser.Lexer} : Parser.lex text = some l → Transacted text (some l.circuit)
  | clusters {c c' : Circuit} : Transacted text (some c) → SameNet c c' →
      Transacted text (some c')
  | restore {c : Circuit} {t : NodeId} : Transacted text (some c) →
      t ∈ c.allNodes → (c.node t).isInput = false →
      Transacted text (setTargets [t] c >>= restore [t])
  | cover {c : Circuit} {t : NodeId} {onset : List (OrdMap NodeId Bool)} :
      Transacted text (some c) → t ∈ c.allNodes → (c.node t).isInput = false → onset ≠ [] →
      (∀ i ∈ newInputs onset, i ∈ c.allNodes ∧ i ≠ t) →
      Transacted text (setTargets [t] c >>= fun c => c.restruct t onset)
  | remove {c : Circuit} {n : NodeId} : Transacted text (some c) → c.Part →
      n ∈ c.allNodes → (c.node n).outputs = [] → c.Internal n → Transacted text (c.remove n)

/-- **Fanin and fanout lists stay mirror images**, and no assertion and no `find` fails. -/
theorem transactions_mirror {text : String} {o : Option Circuit} (h : Transacted text o) :
    ∃ c, o = some c ∧
      (∀ b ∈ c.allNodes, ∀ a ∈ (c.node b).inputs, a ∈ c.allNodes) ∧
      ∀ a ∈ c.allNodes, ∀ b ∈ c.allNodes,
        (c.node b).inputs.count a = (c.node a).outputs.count b := by
  have key : ∃ c, o = some c ∧ c.Mirror := by
    induction h with
    | parse hl => exact ⟨_, rfl, Parser.lex_mirror hl⟩
    | clusters _ hs ih =>
      obtain ⟨c, he, hm⟩ := ih
      cases he
      exact ⟨_, rfl, hs.mirror hm⟩
    | restore _ ht hi ih =>
      obtain ⟨c, he, hm⟩ := ih
      cases he
      obtain ⟨c', h1, h2⟩ := reject_spec hm ht hi
      exact ⟨c', h1, h2.mirror hm⟩
    | cover _ ht hi hne hkeys ih =>
      obtain ⟨c, he, hm⟩ := ih
      cases he
      obtain ⟨c', h1, h2⟩ := cover_spec hm ht hi hne fun i hi => (hkeys i hi).1
      exact ⟨c', h1, h2.mirror⟩
    | remove _ hp hn ho hi ih =>
      obtain ⟨c, he, hm⟩ := ih
      cases he
      obtain ⟨c', h1, h2⟩ := remove_trimmed hm hp hn ho hi
      exact ⟨c', h1, h2.mirror⟩
  obtain ⟨c, he, hm⟩ := key
  exact ⟨c, he, hm.closed, hm.count⟩

/-- A node that reads `a` twice is set to target and restored. -/
theorem transactions_mirror_repeated : ∃ l, Parser.lex ".inputs a\n.names a a b\n11 1\n" = some l ∧
    (l.circuit.node 1).inputs = [0, 0] ∧ ∃ c, (setTargets [1] l.circuit >>= restore [1]) = some c ∧
      (∀ b ∈ c.allNodes, ∀ a ∈ (c.node b).inputs, a ∈ c.allNodes) ∧
      ∀ a ∈ c.allNodes, ∀ b ∈ c.allNodes,
        (c.node b).inputs.count a = (c.node a).outputs.count b := by
  have hlex : ((Parser.lex ".inputs a\n.names a a b\n11 1\n").any fun l => decide
      (1 ∈ l.circuit.allNodes ∧ (l.circuit.node 1).isInput = false ∧
        (l.circuit.node 1).inputs = [0, 0])) = true := by
    decide +kernel
  obtain ⟨l, h1, h2⟩ := (Option.any_eq_true _ _).1 hlex
  obtain ⟨h3, h4, h5⟩ := of_decide_eq_true h2
  exact ⟨l, h1, h5, transactions_mirror (.restore (.parse h1) h3 h4)⟩

end Msyn.NodeMerge
