import Msyn.Parser.Reread
import Msyn.Patch.TargetCovers
import Msyn.Select.MergeSelection

/-!
# The patch

`Patch_data` gives a single target a `.names` block over its signals, with a line for each pattern
of its on-set, and a group of targets the blocks of their covers, of the signals that select a
vector and of the targets under each vector. `generate_blif` writes the blocks to a file. The block
of a target is 1 exactly under its patterns (`getNodeString_value`).
-/

namespace Msyn.PatchData

open Nodecircuit Circuit MergeSelection Msyn.Parser

/-! ## The data of a target -/

/-- `Target_data`, with `signals` as a function. -/
structure TargetData where
  name : String
  inxcases : List Pattern
  constraints : OrdMap String Bool := ∅

namespace TargetData

variable (c : Circuit) (d : TargetData)

/-- What `set_signals` takes: the nodes of the first pattern. -/
def signals : List NodeId :=
  match d.inxcases with
  | [] => []
  | inxcase :: _ => inxcase.keys

def cubes : String :=
  d.inxcases.foldl (fun cubes inxcase => cubes ++ (d.signals.foldl
    (fun s signal => if inxcase.at signal then s ++ "1" else s ++ "0") "" ++ " 1\n")) ""

/-- `get_node_string`, which returns the text of the block. -/
def getNodeString : Names where
  inputs := d.signals.map fun signal => (c.node signal).name
  output := d.name
  cubes := d.cubes

/-- The target under its constraints, with these in the name. -/
def constrained : TargetData :=
  { d with name := d.name ++ ("_" ++ String.join (d.constraints.entries.map fun constraint =>
    constraint.1 ++ "=" ++ if constraint.2 then "1" else "0")) }

end TargetData

/-! ## The patch and its text -/

/-- `Patch_data`, less the network for ABC and the adapter. -/
structure Patch where
  inputs : List String
  outputs : List String
  net : List Names

section
variable (c : Circuit) (target_groups : List (List TargetData))

/-- Names that begin with `t` are those of targets. -/
def isTarget (s : String) : Bool := s.toList.head? = some 't'

def patchInputs : List String :=
  (OrdSet.ofList ((target_groups.flatten.flatMap fun target_data =>
    target_data.signals.map fun signal => (c.node signal).name).filter (!isTarget ·))).elems

def patchOutputs : List String := outputNames (target_groups.flatten.map TargetData.name)

/-- The signal for the vector `c`, true if in each block of `2 ^ n` names the one with the number
`c` is. -/
def cNode (id : String) (n : Nat) (intermediate_names : List String) (c : Nat) : Names where
  inputs := intermediate_names
  output := cName id n c
  cubes := String.ofList ((List.range n).flatMap fun _ => (List.range (2 ^ n)).map fun co =>
    if co = c then '1' else '-') ++ " 1\n"

/-- The blocks of a group. `output_names[0]` needs a target, and `target_group[i_i]` a target for
each name and vector. -/
def groupNet (target_group : List TargetData) : Option (List Names) :=
  match target_group with
  | [target_data] => some [target_data.getNodeString c]
  | _ =>
    let output_names := outputNames (target_group.map TargetData.name)
    match output_names.head? with
    | none => none
    | some id =>
      let target_count := output_names.length
      let intermediate_count := target_count * 2 ^ target_count
      if target_group.length < intermediate_count then none
      else
        let intermediate := (target_group.take intermediate_count).map TargetData.constrained
        let intermediate_names := (intermediate.map TargetData.name).mergeSort
        let targets := intermediate ++ target_group.drop intermediate_count
        some ((List.range (2 ^ target_count)).map (cNode id target_count intermediate_names) ++
          targetNodes (target_group.map TargetData.name) ++ targets.map (·.getNodeString c))

def patchData : Option Patch := (target_groups.mapM (groupNet c)).map fun nets =>
  { inputs := patchInputs c target_groups, outputs := patchOutputs target_groups,
    net := nets.flatten }

end

/-- What is written to the file. -/
def Patch.generateBlif (p : Patch) : String :=
  let out := p.inputs.foldl (fun out input => out ++ " " ++ input) ".model patch\n.inputs"
  let out := p.outputs.foldl (fun out output => out ++ " " ++ output) (out ++ "\n.outputs") ++ "\n"
  p.net.foldl (fun out node => out ++ node.text) out ++ ".end\n"

/-! ## The value of a target -/

section
variable (c : Circuit) (d : TargetData)

/-- The lines of a cover. -/
def TargetData.lines : List (List Char) :=
  d.inxcases.map fun inxcase => (d.signals.map inxcase.at).map bit ++ [' ', '1']

theorem toList_bits (p : Pattern) (signals : List NodeId) (s : String) :
    (signals.foldl (fun s signal => if p.at signal then s ++ "1" else s ++ "0") s).toList =
      s.toList ++ (signals.map p.at).map bit := by
  induction signals generalizing s with
  | nil => simp
  | cons sig signals ih =>
    rw [List.foldl_cons, ih]
    cases hp : p.at sig <;> simp [hp, bit]

theorem toList_cubes : d.cubes.toList = d.lines.flatMap fun s => s ++ ['\n'] := by
  have hend : " 1\n".toList = [' ', '1', '\n'] := by decide
  rw [TargetData.cubes, toList_foldl_append, TargetData.lines, List.flatMap_map]
  simp [toList_bits, hend]

theorem isCover_cubes : IsCover d.cubes := by
  refine ⟨d.lines, fun s hs => ?_, toList_cubes d⟩
  obtain ⟨inxcase, -, rfl⟩ := List.mem_map.1 hs
  refine ⟨_, ' ', '1', rfl, fun ch hch => ?_, .inl rfl, .inr rfl⟩
  obtain ⟨b, -, rfl⟩ := List.mem_map.1 hch
  cases b
  · exact .inl rfl
  · exact .inr (.inl rfl)

/-- **A target is 1 exactly under its patterns.** -/
theorem getNodeString_value (val : String → Bool) : (d.getNodeString c).value val = true ↔
    ∃ inxcase ∈ d.inxcases, ∀ signal ∈ d.signals, inxcase.at signal = val (c.node signal).name := by
  have hline : ∀ s ∈ d.lines, '\n' ∉ s := by
    intro s hs hnl
    obtain ⟨inxcase, -, rfl⟩ := List.mem_map.1 hs
    rcases List.mem_append.1 hnl with hnl | hnl
    · obtain ⟨b, -, hb⟩ := List.mem_map.1 hnl
      exact bit_ne_newline b hb
    · exact absurd hnl (by decide)
  have hphase : isComplement d.lines = false := by
    rw [TargetData.lines]
    cases d.inxcases <;> simp [isComplement]
  rw [Names.value, TargetData.getNodeString, evalCube, toList_cubes, coverLines_flatMap hline,
    evalLines, hphase, Bool.xor_false, TargetData.lines, List.any_map, List.any_eq_true]
  refine exists_congr fun inxcase => and_congr_right fun _ => ?_
  rw [Function.comp, matchLine_bits _ (by simp), List.map_map, List.map_inj_left]
  rfl

end

end Msyn.PatchData
