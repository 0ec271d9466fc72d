import Msyn.Circuit.Node

/-!
# Writing BLIF

`WriteBlif` of `node.cpp`, as the text that it writes to its file.
-/

namespace Msyn.Nodecircuit.Circuit

/-- `out << " \" << endl << " " << name` for each of the nodes. -/
def writeNames (c : Circuit) (ns : List NodeId) (out : String) : String :=
  ns.foldl (fun out n => out ++ " \\" ++ "\n" ++ " " ++ (c.node n).name) out

/-- One round of the loop over `all_nodes`. -/
def writeNode (c : Circuit) (out : String) (n : NodeId) : String :=
  let node := c.node n
  if node.isInput then out
  else if node.name = "one" ∨ node.name = "zero" then out
  else
    let out := node.inputs.foldl (fun out i => out ++ " " ++ (c.node i).name) (out ++ ".names")
    let out := out ++ " " ++ node.name ++ "\n"
    out ++ node.cube ++ "\n"

def writeBlif (c : Circuit) : String :=
  let out := ".model " ++ c.name ++ "\n"
  let out := c.writeNames c.inputs (out ++ ".inputs ") ++ "\n"
  let out := c.writeNames c.outputs (out ++ ".outputs ") ++ "\n"
  let out := if c.getNode "zero" ≠ none then out ++ ".names zero" ++ "\n" ++ "0" ++ "\n" else out
  let out := if c.getNode "one" ≠ none then out ++ ".names one" ++ "\n" ++ "1" ++ "\n" else out
  let out := c.allNodes.foldl c.writeNode out
  out ++ ".end" ++ "\n" ++ "\n"

/-! ## The sections of the text -/

/-- A section of names, after its keyword. -/
def declChars (names : List String) : List Char :=
  ' ' :: names.flatMap (fun s => ' ' :: '\\' :: '\n' :: ' ' :: s.toList) ++ ['\n']

/-- A `.names` line after its keyword. -/
def lineChars (names : List String) : List Char := names.flatMap (fun s => ' ' :: s.toList) ++ ['\n']

/-- What is written for a node that is not skipped. -/
def gateChars (ins : List String) (name cube : String) : List Char :=
  ".names".toList ++ lineChars (ins ++ [name]) ++ cube.toList ++ ['\n']

/-- What is written for a constant. -/
def constChars (name : String) (value : Char) : List Char :=
  ".names".toList ++ lineChars [name] ++ [value, '\n']

theorem toList_blank : " ".toList = [' '] := by decide

theorem toList_endl : "\n".toList = ['\n'] := by decide

theorem toList_foldl_append {α : Type} (f : α → String) (l : List α) (out : String) :
    (l.foldl (fun out a => out ++ f a) out).toList = out.toList ++ l.flatMap fun a => (f a).toList := by
  induction l generalizing out with
  | nil => simp
  | cons a l ih => rw [List.foldl_cons, ih, String.toList_append, List.flatMap_cons, List.append_assoc]

variable (c : Circuit)

theorem toList_writeNames (ns : List NodeId) (out : String) :
    (c.writeNames ns out).toList = out.toList ++
      (ns.map fun n => (c.node n).name).flatMap fun s => ' ' :: '\\' :: '\n' :: ' ' :: s.toList := by
  have h := toList_foldl_append (fun n => " \\" ++ "\n" ++ " " ++ (c.node n).name) ns out
  simp only [← String.append_assoc] at h
  rw [writeNames, h, List.flatMap_map]
  simp

/-- `WriteBlif` does not skip the node. -/
def Written (c : Circuit) (n : NodeId) : Prop :=
  ¬((c.node n).isInput = true ∨ (c.node n).name = "one" ∨ (c.node n).name = "zero")

instance (n : NodeId) : Decidable (c.Written n) := inferInstanceAs (Decidable (¬_))

/-- The section of a node. -/
def nodeChars (n : NodeId) : List Char :=
  gateChars ((c.node n).inputs.map fun i => (c.node i).name) (c.node n).name (c.node n).cube

theorem toList_writeNode (out : String) (n : NodeId) : (c.writeNode out n).toList =
    out.toList ++ if c.Written n then c.nodeChars n else [] := by
  unfold writeNode
  dsimp only
  by_cases hi : (c.node n).isInput = true
  · rw [if_pos hi, if_neg (fun h => h (.inl hi)), List.append_nil]
  · by_cases hn : (c.node n).name = "one" ∨ (c.node n).name = "zero"
    · rw [if_neg hi, if_pos hn, if_neg (fun h => h (.inr hn)), List.append_nil]
    · have hw : c.Written n := fun h => h.elim hi hn
      have hloop := toList_foldl_append (fun i => " " ++ (c.node i).name) (c.node n).inputs
        (out ++ ".names")
      simp only [← String.append_assoc] at hloop
      rw [if_neg hi, if_neg hn, if_pos hw]
      simp only [String.toList_append, hloop, toList_blank, toList_endl]
      unfold nodeChars gateChars lineChars
      simp only [List.flatMap_append, List.flatMap_map, List.flatMap_cons, List.flatMap_nil,
        List.append_assoc, List.cons_append, List.nil_append]

theorem toList_writeNodes (ns : List NodeId) (out : String) :
    (ns.foldl c.writeNode out).toList =
      out.toList ++ (ns.filter fun n => c.Written n).flatMap c.nodeChars := by
  induction ns generalizing out with
  | nil => simp
  | cons n ns ih =>
    rw [List.foldl_cons, ih, toList_writeNode, List.append_assoc]
    by_cases hw : c.Written n
    · rw [if_pos hw, List.filter_cons_of_pos (by simpa using hw), List.flatMap_cons]
    · rw [if_neg hw, List.filter_cons_of_neg (by simpa using hw), List.nil_append]

/-- **The text that is written**, section by section. -/
theorem toList_writeBlif : c.writeBlif.toList =
    (".model".toList ++ lineChars [c.name]) ++
    (".inputs".toList ++ declChars (c.inputs.map fun n => (c.node n).name)) ++
    (".outputs".toList ++ declChars (c.outputs.map fun n => (c.node n).name)) ++
    (if c.getNode "zero" ≠ none then constChars "zero" '0' else []) ++
    (if c.getNode "one" ≠ none then constChars "one" '1' else []) ++
    (c.allNodes.filter fun n => c.Written n).flatMap c.nodeChars ++
    (".end".toList ++ ['\n', '\n']) := by
  have hconst : ∀ (out : String) (p : Prop) [Decidable p] (line value : String),
      (if p then out ++ line ++ "\n" ++ value ++ "\n" else out).toList =
        out.toList ++ if p then (line ++ "\n" ++ value ++ "\n").toList else [] := by
    intro out p _ line value
    split
    · simp only [String.toList_append, List.append_assoc]
    · rw [List.append_nil]
  have hz : (".names zero" ++ "\n" ++ "0" ++ "\n").toList = constChars "zero" '0' := by decide
  have ho : (".names one" ++ "\n" ++ "1" ++ "\n").toList = constChars "one" '1' := by decide
  have hm : ".model ".toList = ".model".toList ++ [' '] := by decide
  have hin : ".inputs ".toList = ".inputs".toList ++ [' '] := by decide
  have hout : ".outputs ".toList = ".outputs".toList ++ [' '] := by decide
  unfold writeBlif
  dsimp only
  rw [String.toList_append, String.toList_append, String.toList_append, toList_writeNodes, hconst,
    hconst, hz, ho]
  simp only [String.toList_append, toList_writeNames, hm, hin, hout, toList_endl,
    lineChars, declChars, List.flatMap_cons, List.flatMap_nil, List.append_assoc, List.cons_append,
    List.nil_append]

end Msyn.Nodecircuit.Circuit
