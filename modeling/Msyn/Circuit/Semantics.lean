import Msyn.Circuit.Node
import Msyn.Lib.Dag

/-!
# The functions a circuit computes

A cube is a cover in the format of BLIF and of ABC's SOPs: a line for each product, with a
character for each fanin and the output phase (`evalCube`). A *valuation* of a circuit under an
assignment of the primary inputs gives every node the value of its cube on its fanins; the nodes
in `free` are left open. An acyclic circuit has exactly one (`exists_valuation`,
`Valuation.unique`), and a node that a free node does not reach does not depend on it
(`Valuation.indep`).
-/

namespace Msyn.Nodecircuit

open Relation

/-! ## Covers -/

/-- The lines of a cover; `cur` is the line read so far, reversed. -/
def coverLines (cur : List Char) : List Char → List (List Char)
  | [] => []
  | ch :: s => if ch = '\n' then cur.reverse :: coverLines [] s else coverLines (ch :: cur) s

/-- The values agree with the literals of the line. -/
def matchLine (line : List Char) (vals : List Bool) : Bool :=
  (line.zip vals).all fun (ch, v) => if ch = '0' then !v else if ch = '1' then v else true

/-- The cover lists the off-set. -/
def isComplement : List (List Char) → Bool
  | [] => false
  | line :: _ => line.getLast? = some '0'

def evalLines (lines : List (List Char)) (vals : List Bool) : Bool :=
  lines.any (matchLine · vals) ^^ isComplement lines

/-- The value of a cover. -/
def evalCube (cube : String) (vals : List Bool) : Bool := evalLines (coverLines [] cube.toList) vals

/-- The character of a value. -/
def bit (b : Bool) : Char := if b then '1' else '0'

theorem bit_ne_newline (b : Bool) : bit b ≠ '\n' := by cases b <;> decide

theorem coverLines_append {cur s : List Char} (hs : '\n' ∉ s) (rest : List Char) :
    coverLines cur (s ++ '\n' :: rest) = (cur.reverse ++ s) :: coverLines [] rest := by
  induction s generalizing cur with
  | nil => simp [coverLines]
  | cons ch s ih =>
    obtain ⟨hne, hs'⟩ := not_or.1 fun h => hs (List.mem_cons.2 h)
    rw [List.cons_append, coverLines, if_neg (Ne.symm hne), ih hs', List.reverse_cons,
      List.append_assoc, List.singleton_append]

/-- The lines of a cube are read back. -/
theorem coverLines_flatMap {lines : List (List Char)} (hl : ∀ s ∈ lines, '\n' ∉ s) :
    coverLines [] (lines.flatMap fun s => s ++ ['\n']) = lines := by
  induction lines with
  | nil => rfl
  | cons s lines ih =>
    rw [List.flatMap_cons, List.append_assoc, List.singleton_append,
      coverLines_append (hl s (by simp)), ih fun t ht => hl t (by simp [ht])]
    rfl

theorem coverLines_bits (cur : List Char) (bs : List Bool) (s : List Char) :
    coverLines cur (bs.map bit ++ s) = coverLines ((bs.map bit).reverse ++ cur) s := by
  induction bs generalizing cur with
  | nil => rfl
  | cons b bs ih =>
    rw [List.map_cons, List.cons_append, coverLines, if_neg (bit_ne_newline b), ih]
    simp

theorem writeCube_fold (cases : List (OrdMap NodeId Bool)) (s : String) :
    (cases.foldl (fun s in2case => in2case.entries.foldl
      (fun s pair => if pair.2 then s ++ "1" else s ++ "0") s ++ " 1\n") s).toList =
    s.toList ++ (cases.map fun m => m.entries.map (bit ·.2) ++ [' ', '1', '\n']).flatten := by
  have hline : ∀ (l : List (NodeId × Bool)) (s : String),
      (l.foldl (fun s pair => if pair.2 then s ++ "1" else s ++ "0") s).toList =
        s.toList ++ l.map (bit ·.2) := by
    intro l
    induction l with
    | nil => simp
    | cons p l ih =>
      intro s
      rw [List.foldl_cons, ih]
      cases hp : p.2 <;> simp [bit, hp]
  induction cases generalizing s with
  | nil => simp
  | cons m cases ih =>
    rw [List.foldl_cons, ih, String.toList_append, hline]
    simp

/-- The lines of the cube that `Restruct` writes. -/
theorem coverLines_writeCube (cases : List (OrdMap NodeId Bool)) :
    coverLines [] (writeCube cases).toList =
      cases.map fun m => m.entries.map (bit ·.2) ++ [' ', '1'] := by
  rw [writeCube, writeCube_fold]
  simp only [String.toList_empty, List.nil_append]
  induction cases with
  | nil => rfl
  | cons m cases ih =>
    have hm : m.entries.map (bit ·.2) = (m.entries.map Prod.snd).map bit := by simp
    simp only [List.map_cons, List.flatten_cons, List.append_assoc]
    rw [hm, coverLines_bits]
    simp [coverLines, ih, ← hm]

theorem matchLine_bits : ∀ {bs vals : List Bool} (s : List Char), bs.length = vals.length →
    (matchLine (bs.map bit ++ s) vals = true ↔ bs = vals)
  | [], [], s, _ => by simp [matchLine]
  | b :: bs, v :: vals, s, h => by
    have ih := matchLine_bits s (by simpa using h)
    simp only [matchLine] at ih ⊢
    simp only [List.map_cons, List.cons_append, List.zip_cons_cons, List.all_cons,
      Bool.and_eq_true, ih, List.cons.injEq]
    cases b <;> cases v <;> simp [bit]
  | [], _ :: _, _, h => by simp at h
  | _ :: _, [], _, h => by simp at h

/-- **The cube of an on-set** is 1 exactly on its patterns. -/
theorem evalCube_writeCube {cases : List (OrdMap NodeId Bool)} {vals : List Bool}
    (hlen : ∀ m ∈ cases, m.entries.length = vals.length) :
    evalCube (writeCube cases) vals = true ↔ ∃ m ∈ cases, m.entries.map Prod.snd = vals := by
  have hphase : isComplement (cases.map fun m => m.entries.map (bit ·.2) ++ [' ', '1']) = false := by
    cases cases <;> simp [isComplement]
  rw [evalCube, coverLines_writeCube, evalLines, hphase, Bool.xor_false, List.any_map,
    List.any_eq_true]
  refine exists_congr fun m => and_congr_right fun hm => ?_
  have : m.entries.map (bit ·.2) = (m.entries.map Prod.snd).map bit := by simp
  simp only [Function.comp, this]
  exact matchLine_bits _ (by simpa using hlen m hm)

/-! ## Valuations -/

namespace Circuit

/-- `i` is an input of the node `n` of the circuit. -/
def Fanin (c : Circuit) (i n : NodeId) : Prop := n ∈ c.allNodes ∧ i ∈ (c.node n).inputs

/-- The node graph has no cycle. -/
def IsAcyclic (c : Circuit) : Prop := Acyclic c.Fanin

/-- Every input of a node is in the circuit. -/
def Closed (c : Circuit) : Prop := ∀ n ∈ c.allNodes, ∀ i ∈ (c.node n).inputs, i ∈ c.allNodes

/-- The value that the node has if its fanins have the values `v`. -/
def eval (c : Circuit) (x : String → Bool) (v : NodeId → Bool) (n : NodeId) : Bool :=
  if (c.node n).isInput then x (c.node n).name
  else evalCube (c.node n).cube ((c.node n).inputs.map v)

/-- `v` is a valuation of the circuit under `x`, with the nodes of `free` left open. -/
def Valuation (c : Circuit) (free : List NodeId) (x : String → Bool) (v : NodeId → Bool) : Prop :=
  ∀ n ∈ c.allNodes, n ∉ free → v n = c.eval x v n

instance (c : Circuit) (free : List NodeId) (x : String → Bool) (v : NodeId → Bool) :
    Decidable (c.Valuation free x v) :=
  inferInstanceAs (Decidable (∀ n ∈ c.allNodes, n ∉ free → v n = c.eval x v n))

theorem eval_congr {c : Circuit} {x : String → Bool} {v w : NodeId → Bool} {n : NodeId}
    (h : ∀ i ∈ (c.node n).inputs, v i = w i) : c.eval x v n = c.eval x w n := by
  unfold eval
  rw [List.map_congr_left h]

theorem fanin_mem {c : Circuit} (hcl : c.Closed) {i n : NodeId} (h : c.Fanin i n) : i ∈ c.allNodes :=
  hcl n h.1 i h.2

/-- **An acyclic circuit has a valuation** with any values of the free nodes. -/
theorem exists_valuation {c : Circuit} (hac : c.IsAcyclic) (hcl : c.Closed) (free : List NodeId)
    (x : String → Bool) (b : NodeId → Bool) :
    ∃ v, c.Valuation free x v ∧ ∀ t ∈ free, v t = b t := by
  classical
  have hwf : WellFounded c.Fanin := hac.wellFounded fun _ _ h => fanin_mem hcl h
  let F : (n : NodeId) → ((i : NodeId) → c.Fanin i n → Bool) → Bool := fun n rec =>
    if n ∈ free then b n
    else c.eval x (fun i => if h : c.Fanin i n then rec i h else false) n
  refine ⟨hwf.fix F, fun n hn hfree => ?_, fun t ht => ?_⟩
  · rw [hwf.fix_eq]
    simp only [F, if_neg hfree]
    exact eval_congr fun i hi => dif_pos ⟨hn, hi⟩
  · rw [hwf.fix_eq]
    simp only [F, if_pos ht]

theorem Valuation.unique {c : Circuit} (hac : c.IsAcyclic) (hcl : c.Closed) {free : List NodeId}
    {x : String → Bool} {v w : NodeId → Bool} (hv : c.Valuation free x v)
    (hw : c.Valuation free x w) (hfree : ∀ t ∈ free, v t = w t) : ∀ n ∈ c.allNodes, v n = w n := by
  have hwf : WellFounded c.Fanin := hac.wellFounded fun _ _ h => fanin_mem hcl h
  intro n
  induction n using hwf.induction with
  | _ n ih =>
    intro hn
    by_cases hf : n ∈ free
    · exact hfree n hf
    · rw [hv n hn hf, hw n hn hf]
      exact eval_congr fun i hi => ih i ⟨hn, hi⟩ (hcl n hn i hi)

/-- A node that no free node reaches does not depend on the free nodes. -/
theorem Valuation.indep {c : Circuit} (hac : c.IsAcyclic) (hcl : c.Closed) {free : List NodeId}
    {x : String → Bool} {v w : NodeId → Bool} (hv : c.Valuation free x v)
    (hw : c.Valuation free x w) :
    ∀ n ∈ c.allNodes, (∀ t ∈ free, ¬ReflTransGen c.Fanin t n) → v n = w n := by
  have hwf : WellFounded c.Fanin := hac.wellFounded fun _ _ h => fanin_mem hcl h
  intro n
  induction n using hwf.induction with
  | _ n ih =>
    intro hn hreach
    have hf : n ∉ free := fun hf => hreach n hf .refl
    rw [hv n hn hf, hw n hn hf]
    exact eval_congr fun i hi => ih i ⟨hn, hi⟩ (hcl n hn i hi) fun t ht h =>
      hreach t ht (h.tail ⟨hn, hi⟩)

end Circuit

end Msyn.Nodecircuit
