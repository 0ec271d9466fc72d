import Msyn.Circuit.Cluster
import Msyn.Circuit.ClusterGraph
import Msyn.Circuit.Cone
import Msyn.Circuit.ConeLoops
import Msyn.Circuit.DeadCone
import Msyn.Circuit.Edges
import Msyn.Circuit.Equivalence
import Msyn.Circuit.Levels
import Msyn.Circuit.Node
import Msyn.Circuit.Numbered
import Msyn.Circuit.Purge
import Msyn.Circuit.ReadWeights
import Msyn.Circuit.Remove
import Msyn.Circuit.Resubstitution
import Msyn.Circuit.Rollback
import Msyn.Circuit.Semantics
import Msyn.Circuit.WriteBlif
import Msyn.Circuit.WriteBlifM
import Msyn.Lib.AllSat
import Msyn.Lib.Cnf
import Msyn.Lib.Compact
import Msyn.Lib.Dag
import Msyn.Lib.Exits
import Msyn.Lib.GreedyCover
import Msyn.Lib.LexOrder
import Msyn.Lib.Loop
import Msyn.Lib.MachineInt
import Msyn.Lib.MaxFlow
import Msyn.Lib.NodeCut
import Msyn.Lib.OrdMap
import Msyn.Lib.Popcount
import Msyn.Lib.QueueSearch
import Msyn.Lib.Quicksort
import Msyn.Lib.Relax
import Msyn.Lib.Resub
import Msyn.Lib.SwapErase
import Msyn.Lib.Sweep
import Msyn.Lib.Worklist
import Msyn.Merge.Candidates
import Msyn.Merge.Cleanup
import Msyn.Merge.ClusterRuns
import Msyn.Merge.Commit
import Msyn.Merge.Equivalence
import Msyn.Merge.FaninMerge
import Msyn.Merge.Histogram
import Msyn.Merge.InputLimit
import Msyn.Merge.Keeps
import Msyn.Merge.Main
import Msyn.Merge.Networks
import Msyn.Merge.NodeMerge
import Msyn.Merge.QuickMaximal
import Msyn.Merge.QuickMerge
import Msyn.Merge.Runs
import Msyn.Merge.SelectMerge
import Msyn.Merge.Steps
import Msyn.Merge.Transactions
import Msyn.Mincut.Capacity
import Msyn.Mincut.Graph
import Msyn.Mincut.MinCut
import Msyn.Mincut.Search
import Msyn.Parser.Accepted
import Msyn.Parser.Blocks
import Msyn.Parser.Continuation
import Msyn.Parser.Covers
import Msyn.Parser.Lexer
import Msyn.Parser.Names
import Msyn.Parser.Reader
import Msyn.Parser.Reread
import Msyn.Parser.RoundTrip
import Msyn.Parser.Tokens
import Msyn.Parser.Twins
import Msyn.Patch.AdapterData
import Msyn.Patch.PatchBlif
import Msyn.Patch.PatchData
import Msyn.Patch.PatchGroups
import Msyn.Patch.PatchRepair
import Msyn.Patch.ShapeVerilog
import Msyn.Patch.TargetCovers
import Msyn.Sat.CNFGenerator
import Msyn.Sat.Circuit2Abc
import Msyn.Sat.Dimacs
import Msyn.Sat.Encoders
import Msyn.Sat.Encodes
import Msyn.Sat.GInterface
import Msyn.Select.BitOps
import Msyn.Select.BitSets
import Msyn.Select.Bitvector
import Msyn.Select.Classify
import Msyn.Select.Complement
import Msyn.Select.CountRoutes
import Msyn.Select.CoverTest
import Msyn.Select.Covering
import Msyn.Select.Enumeration
import Msyn.Select.Formulas
import Msyn.Select.GetDC
import Msyn.Select.GetDCMulti
import Msyn.Select.GreedyBound
import Msyn.Select.InExclude
import Msyn.Select.Infeasible
import Msyn.Select.JointOnSet
import Msyn.Select.MakeSolver
import Msyn.Select.MergeSelection
import Msyn.Select.MinCol
import Msyn.Select.MinColCover
import Msyn.Select.MinColExclude
import Msyn.Select.MinColFound
import Msyn.Select.MinColReduce
import Msyn.Select.MinColRows
import Msyn.Select.MinColSearch
import Msyn.Select.NextSet
import Msyn.Select.OnSet
import Msyn.Select.OptimizeWeight
import Msyn.Select.PrunedSearch
import Msyn.Select.Replace
import Msyn.Select.ReplaceLoops
import Msyn.Select.Selector
import Msyn.Select.Separation
import Msyn.Select.Setcover
import Msyn.Select.SolveAdditional
import Msyn.Select.SolveC
import Msyn.Select.SolveMulti
import Msyn.Select.SolveNew
import Msyn.Select.SortWei
import Msyn.Select.Transposed
import Msyn.Select.WeightReplace
