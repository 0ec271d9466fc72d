import Msyn.Circuit.WriteBlif

/-!
# Writing BLIF by clusters

`WriteBlif_m` of `node.cpp`: the text of `WriteBlif` with the nodes in the order of their clusters
and a line of `=` before each cluster (`toList_writeBlifM`).
-/

namespace Msyn.Nodecircuit.Circuit

/-- What both writers write before the nodes. -/
def writeHead (c : Circuit) : String :=
  let out := ".model " ++ c.name ++ "\n"
  let out := c.writeNames c.inputs (out ++ ".inputs ") ++ "\n"
  let out := c.writeNames c.outputs (out ++ ".outputs ") ++ "\n"
  let out := if c.getNode "zero" ≠ none then out ++ ".names zero" ++ "\n" ++ "0" ++ "\n" else out
  if c.getNode "one" ≠ none then out ++ ".names one" ++ "\n" ++ "1" ++ "\n" else out

/-- The line before a cluster. -/
def separator : String := "======================================================"

/-- One round of the loop over `all_clusters`. -/
def writeCluster (c : Circuit) (out : String) (clst : ClusterId) : String :=
  (c.cluster clst).nodesC.foldl c.writeNode (out ++ separator ++ "\n")

def writeBlifM (c : Circuit) : String :=
  c.allClusters.foldl c.writeCluster c.writeHead ++ ".end" ++ "\n" ++ "\n"

theorem writeBlif_eq (c : Circuit) :
    c.writeBlif = c.allNodes.foldl c.writeNode c.writeHead ++ ".end" ++ "\n" ++ "\n" := rfl

/-- The sections before the nodes. -/
def headChars (c : Circuit) : List Char :=
  (".model".toList ++ lineChars [c.name]) ++
  (".inputs".toList ++ declChars (c.inputs.map fun n => (c.node n).name)) ++
  (".outputs".toList ++ declChars (c.outputs.map fun n => (c.node n).name)) ++
  (if c.getNode "zero" ≠ none then constChars "zero" '0' else []) ++
  (if c.getNode "one" ≠ none then constChars "one" '1' else [])

/-- The sections of the clusters. -/
def clustersChars (c : Circuit) : List Char :=
  c.allClusters.flatMap fun k => separator.toList ++ ['\n'] ++
    ((c.cluster k).nodesC.filter fun n => c.Written n).flatMap c.nodeChars

theorem toList_end : (".end" ++ ("\n" ++ "\n")).toList = ".end".toList ++ ['\n', '\n'] := by decide

variable (c : Circuit)

theorem toList_writeHead : c.writeHead.toList = c.headChars := by
  -- the text of the circuit without nodes
  have h := toList_writeBlif { c with allNodes := [] }
  rw [writeBlif_eq] at h
  simp only [List.foldl_nil, List.filter_nil, List.flatMap_nil, List.append_nil] at h
  rw [String.append_assoc, String.append_assoc, String.toList_append, toList_end] at h
  exact (List.append_left_inj _).1 h

theorem toList_writeCluster (out : String) (k : ClusterId) : (c.writeCluster out k).toList =
    out.toList ++ (separator.toList ++ ['\n'] ++
      ((c.cluster k).nodesC.filter fun n => c.Written n).flatMap c.nodeChars) := by
  rw [writeCluster, toList_writeNodes, String.toList_append, String.toList_append, toList_endl]
  simp only [List.append_assoc]

/-- **The text that `WriteBlif_m` writes**, section by section. -/
theorem toList_writeBlifM :
    c.writeBlifM.toList = c.headChars ++ c.clustersChars ++ (".end".toList ++ ['\n', '\n']) := by
  have hloop : ∀ (ks : List ClusterId) (out : String), (ks.foldl c.writeCluster out).toList =
      out.toList ++ ks.flatMap fun k => separator.toList ++ ['\n'] ++
        ((c.cluster k).nodesC.filter fun n => c.Written n).flatMap c.nodeChars := by
    intro ks
    induction ks with
    | nil => simp
    | cons k ks ih =>
      intro out
      rw [List.foldl_cons, ih, toList_writeCluster, List.flatMap_cons, List.append_assoc]
  rw [writeBlifM, String.append_assoc, String.append_assoc, String.toList_append, toList_end, hloop,
    toList_writeHead]
  rfl

/-! ## Circuits with the same text -/

variable {c} {d : Circuit}

theorem headChars_congr (hname : d.name = c.name)
    (hin : (d.inputs.map fun n => (d.node n).name) = c.inputs.map fun n => (c.node n).name)
    (hout : (d.outputs.map fun n => (d.node n).name) = c.outputs.map fun n => (c.node n).name)
    (hzero : d.getNode "zero" ≠ none ↔ c.getNode "zero" ≠ none)
    (hone : d.getNode "one" ≠ none ↔ c.getNode "one" ≠ none) : d.headChars = c.headChars := by
  unfold headChars
  simp only [hname, hin, hout, hzero, hone]

theorem writeBlif_congr (hhead : d.headChars = c.headChars)
    (hnodes : (d.allNodes.filter fun n => d.Written n).flatMap d.nodeChars =
      (c.allNodes.filter fun n => c.Written n).flatMap c.nodeChars) : d.writeBlif = c.writeBlif := by
  refine String.toList_inj.1 ?_
  rw [toList_writeBlif, toList_writeBlif, hnodes]
  unfold headChars at hhead
  rw [hhead]

theorem writeBlifM_congr (hhead : d.headChars = c.headChars)
    (hclusters : d.clustersChars = c.clustersChars) : d.writeBlifM = c.writeBlifM := by
  refine String.toList_inj.1 ?_
  rw [toList_writeBlifM, toList_writeBlifM, hhead, hclusters]

end Msyn.Nodecircuit.Circuit
