import Mathlib.Algebra.Ring.Int.Defs
import Mathlib.Data.List.Infix
import Msyn.Lib.Exits
import Msyn.Lib.MachineInt
import Msyn.Lib.Quicksort
import Msyn.Select.BitOps
import Msyn.Select.Setcover

/-!
# The column cover

The class `setcover` and its solver `SolveMinCol` without signals to exclude or include. The search
takes essential columns, stops at a column, a pair or a triple that covers the rows that are left,
and otherwise takes a column and goes on. What it finds is compressed, two or three of its columns
are replaced by one where that is possible, and the result is tested once more.

A jump to `PRINT_EXIT` and a `return 0` in the search are exits (`Exit`). `ex_sols` is never filled
in this solver, so that `IsExSolution` is false and `AdjustExSolutions` does nothing; the printing
is left out. `none` means that a loop does not end.
-/

namespace Msyn.SC

open Nodecircuit Bitprocess

structure Setcover where
  signals : List NodeId
  /-- `node->weight`. -/
  weight : NodeId → Int
  rowSize : Nat := 0
  colSize : Nat
  pvaluesRow : List Bitvector := []
  pvaluesCol : List Bitvector := []

inductive InExType where
  | noInEx
  | includedFlag
  | excludedFlag
  deriving DecidableEq

/-- The vector at an index. -/
def vec (vs : List Bitvector) (i : Nat) : Bitvector := vs.getD i {}

/-! ## The tests -/

/-- The test at the end of `IsSolutionLite` and its variants, of the words that the columns are
or-ed together to: all words but the last one, and the last one. -/
def wordTest (rowmask : Bitvector) (inner : Nat → Word) (last : Word) : Bool :=
  (List.range (rowmask.wordSize - 1)).all (fun i => inner i = 0xFFFFFFFFFFFFFFFF#64) &&
    decide (count64 last % 64 = rowmask.size % 64)

/-- `for (pos = 0; res != UINT64_MAX && pos < pos_list.size(); pos++) res |= …`. -/
def orWord (cols : List Bitvector) (i : Nat) : List Nat → Word → Word
  | [], res => res
  | p :: ps, res =>
    if res ≠ 0xFFFFFFFFFFFFFFFF#64 then orWord cols i ps (res ||| (vec cols p).getWord i) else res

def isSolutionLite (cols : List Bitvector) (rowmask : Bitvector) (posList : List Nat) : Bool :=
  let i := rowmask.wordSize - 1
  wordTest rowmask (fun i => orWord cols i posList (rowmask.getWord i))
    (posList.foldl (fun res p => res ||| (vec cols p).getWord i) (rowmask.getWord i))

def isSolutionLite2 (cols : List Bitvector) (rowmask : Bitvector) (pos1 pos2 : Nat) : Bool :=
  let word i := rowmask.getWord i ||| (vec cols pos1).getWord i ||| (vec cols pos2).getWord i
  wordTest rowmask word (word (rowmask.wordSize - 1))

def isSolutionLite3 (cols : List Bitvector) (rowmask : Bitvector) (pos1 pos2 pos3 : Nat) : Bool :=
  let word i := rowmask.getWord i ||| (vec cols pos1).getWord i ||| (vec cols pos2).getWord i |||
    (vec cols pos3).getWord i
  wordTest rowmask word (word (rowmask.wordSize - 1))

/-! ## Pairs and triples -/

/-- `a >= b`, where the int `b` is converted to unsigned. -/
def geUnsigned (a : Nat) (b : Int) : Bool := decide (b % 4294967296 ≤ a)

/-- `maxsize`, the number of rows that are left. -/
def maxsize (rowmask : Bitvector) : Int := rowmask.size - rowmask.count

/-- `midindex`: the columns before it have at least `mid` rows. -/
def midIndex (cols : List Bitvector) (csum : List Nat) (last : Nat) (mid : Int) : Nat :=
  if geUnsigned (vec cols (csum.getD last 0)).count mid then last
  else (csum.takeWhile fun p => geUnsigned (vec cols p).count mid).length

/-- `GetBest2Solution` with `csum_sortindex`; the result is `sol`. -/
def getBest2Solution (cols : List Bitvector) (rowmask : Bitvector) (csum : List Nat) : List Nat :=
  let mid := midIndex cols csum (csum.length - 1) ((maxsize rowmask).tdiv 2)
  ((List.range mid).findSome? fun ii =>
    let i := csum.getD ii 0
    let rem := maxsize rowmask - (vec cols i).count
    let js := (csum.drop (ii + 1)).reverse.dropWhile fun j => !geUnsigned (vec cols j).count rem
    js.findSome? fun j => if isSolutionLite2 cols rowmask i j then some [i, j] else none).getD []

/-- `GetBest2Solution` with `pos_list`. The sum of the two counts is an `int` in the code, which it
fits with fewer than 2 ^ 30 rows. -/
def getBest2SolutionIn (cols : List Bitvector) (rowmask : Bitvector) (colSize : Nat)
    (posList : List Nat) : List Nat :=
  (posList.findSome? fun i => (List.range colSize).findSome? fun j =>
    if maxsize rowmask ≤ (vec cols i).count + (vec cols j).count ∧ isSolutionLite2 cols rowmask i j
    then some [i, j] else none).getD []

/-- `GetBest2Selection`. -/
def getBest2Selection (cols : List Bitvector) (rowmask : Bitvector) (posList : List Nat) :
    List Nat :=
  let pairs := posList.tails.flatMap fun
    | [] => []
    | i :: rest => rest.map fun j => (i, j)
  (pairs.foldl (fun (best : List Nat × Nat × Nat) (p : Nat × Nat) =>
    let curWeight := (vec cols p.1).countOrMasked (vec cols p.2) rowmask
    let curOvp := (vec cols p.1).countAndMasked (vec cols p.2) rowmask
    if curWeight > best.2.1 ∨ curWeight = best.2.1 ∧ curOvp < best.2.2 then
      ([p.1, p.2], curWeight, curOvp)
    else best) ([], 0, 0)).1

/-- `GetBest3Solution` with `csum_sortindex`. The sum of the three counts is an `int` in the code,
which it fits with fewer than 2 ^ 31 / 3 rows. -/
def getBest3Solution (cols : List Bitvector) (rowmask : Bitvector) (csum : List Nat) : List Nat :=
  let at' p := csum.getD p 0
  let mid := midIndex cols csum (csum.length - 2) ((maxsize rowmask).tdiv 3)
  ((List.range mid).findSome? fun ii =>
    ((List.range csum.length).filter (mid < ·)).reverse.findSome? fun kk =>
      -- a triple that is too small ends the loop over the middle column
      let jjs := (List.range' (ii + 1) (kk - (ii + 1))).takeWhile fun jj => maxsize rowmask ≤
        (vec cols (at' ii)).count + (vec cols (at' jj)).count + (vec cols (at' kk)).count
      jjs.findSome? fun jj =>
        if isSolutionLite3 cols rowmask (at' ii) (at' jj) (at' kk) then
          some [at' ii, at' jj, at' kk]
        else none).getD []

/-- `GetBest3Solution` with `pos_list` and `csum_sortindex`. The sum of the counts is as in
`getBest3Solution`. -/
def getBest3SolutionIn (cols : List Bitvector) (rowmask : Bitvector) (posList csum : List Nat) :
    List Nat :=
  let mid := midIndex cols csum (csum.length - 2) ((maxsize rowmask).tdiv 3)
  (posList.findSome? fun k => (List.range mid).findSome? fun ii =>
    let i := csum.getD ii 0
    if i = k then none
    else (csum.drop (ii + 1)).reverse.findSome? fun j =>
      if j = k then none
      else if maxsize rowmask ≤ (vec cols i).count + (vec cols j).count + (vec cols k).count ∧
        isSolutionLite3 cols rowmask i j k then some [i, j, k]
      else none).getD []

/-! ## The search -/

structure Search where
  curSol : List Nat := []
  rowmask : Bitvector
  /-- `pvalues_row_copy`. -/
  rows : List Bitvector
  /-- `pvalues_col_copy`. -/
  cols : List Bitvector

inductive Exit where
  | printExit (curSol : List Nat)
  | noSolution

namespace Search

def removeRowCol1 (st : Search) : Search :=
  { st with
    cols := st.cols.map (·.maskCount st.rowmask)
    rows := st.rowmask.setPositions.foldl (fun rows nn => rows.set nn (vec rows nn).clear) st.rows }

/-- A column is taken. -/
def take (st : Search) (pos : Nat) : Search :=
  removeRowCol1 { st with
    curSol := st.curSol ++ [pos]
    rowmask := st.rowmask.orCount (vec st.cols pos) }

/-- `if (best_sol.size() == size) { …; goto PRINT_EXIT; }`. -/
def tryBest (st : Search) (size : Nat) (best : List Nat) : Except Exit Unit :=
  if best.length = size then .error (.printExit (st.curSol ++ best)) else .ok ()

/-- The column, or the two columns, that are taken when no pair or triple covers the rest. -/
def takeBest (st : Search) (min : Nat) (allMinPos maxPosList : List Nat) : Search :=
  if min < 4 ∧ allMinPos.length > 4 then
    let best := getBest2Selection st.cols st.rowmask allMinPos
    (st.take (best.getD 0 0)).take (best.getD 1 0)
  else st.take ((maxPosList.find? (· ∈ allMinPos)).getD (maxPosList.getD 0 0))

end Search

/-- The scan of the rows: the rows with few columns. -/
structure RowScan where
  st : Search
  min : Nat
  minPosList : List Nat := []

/-- The scan of the columns: the ones with the most rows, and all that are not empty in order. -/
structure ColScan where
  max : Nat := 0
  maxPosList : List Nat := []
  csum : List Nat := []

/-- The shifts of the insertion, from the end of the list on. -/
def insertRev (cols : List Bitvector) (k : Nat) : List Nat → List Nat
  | [] => [k]
  | x :: xs =>
    if (vec cols k).count > (vec cols x).count then x :: insertRev cols k xs else k :: x :: xs

def insertCol (cols : List Bitvector) (csum : List Nat) (k : Nat) : List Nat :=
  (insertRev cols k csum.reverse).reverse

def scanCol (st : Search) (c : ColScan) (k : Nat) : Except Exit ColScan :=
  let cur := (vec st.cols k).count
  let c := if cur > 0 then { c with csum := insertCol st.cols c.csum k } else c
  if cur > c.max then
    if cur = st.rowmask.size - st.rowmask.count then .error (.printExit (st.curSol ++ [k]))
    else .ok { c with max := cur, maxPosList := [k] }
  else if cur = c.max then .ok { c with maxPosList := c.maxPosList ++ [k] }
  else .ok c

namespace Setcover

def init (signalsIn : List NodeId) (weight : NodeId → Int) : Setcover where
  signals := signalsIn
  weight
  colSize := signalsIn.length

/-- A new row: `set_size(col_size)`, and `set(j)` where it holds. -/
def newRow (s : Setcover) (row : List Bool) : Bitvector :=
  (List.range s.colSize).foldl (fun v j => if row.getD j false then v.set j else v)
    (Bitvector.setSize s.colSize)

/-- `pvalues_row` has `row_size` entries, so that its `resize` appends. -/
def addRows (s : Setcover) (rows : List (List Bool)) : Setcover :=
  let rowSize := rows.length + s.rowSize
  let cols := if rowSize = rows.length then
      (List.range s.colSize).map fun j => Bitvector.setSize rowSize (vec s.pvaluesCol j)
    else s.pvaluesCol.map (·.resize rowSize)
  { s with
    rowSize
    pvaluesRow := s.pvaluesRow ++ rows.map s.newRow
    pvaluesCol := (rows.zipIdx s.rowSize).foldl
      (fun cols e => Setcover.SetcoverM.addRow cols e.2 e.1) cols }

/-- The set cover after a sequence of batches. -/
def fill (signals : List NodeId) (weight : NodeId → Int) (batches : List (List (List Bool))) :
    Setcover :=
  batches.foldl addRows (init signals weight)

variable (s : Setcover)

/-- `signals[p]->weight`. -/
def weightOf (p : Nat) : Int := s.weight (s.signals.getD p 0)

/-- `InExcludeSigs` with nothing to exclude or include, which looks at the first signal only. -/
def inExcludeSigs (rows cols : List Bitvector) (inexcluded : List InExType) :
    List Bitvector × List Bitvector × List InExType :=
  match s.signals with
  | [] => (rows, cols, inexcluded)
  | x :: _ =>
    if s.weight x = 0 then
      (rows.map (·.reset 0), cols.set 0 (vec cols 0).clear, inexcluded.set 0 .excludedFlag)
    else (rows, cols, inexcluded)

/-- The columns with a row in order, by their counts in `pvalues_col`. -/
def sortCol (cols : List Bitvector) : Option (List Nat) :=
  Quicksort.sort (fun p => (vec s.pvaluesCol p).count)
    ((List.range cols.length).filter fun p => (vec cols p).count ≠ 0)

def sortWei (sol : List Nat) : Option (List Nat) := Quicksort.sort s.weightOf sol

def scanRow (r : RowScan) (i : Nat) : Except Exit RowScan :=
  let count := (vec r.st.rows i).count
  if count = 1 then
    let st := r.st.take ((vec r.st.rows i).nextSet (-1))
    if st.rowmask.count = s.rowSize then .error (.printExit st.curSol) else .ok { r with st }
  else if count = 0 then .ok r
  else if count < 16 then
    .ok { r with
      minPosList := (if r.min > 16 then [] else r.minPosList) ++ [i]
      min := if count < r.min then count else r.min }
  else if count = r.min then .ok { r with minPosList := r.minPosList ++ [i] }
  else if count < r.min then .ok { r with minPosList := [i], min := count }
  else .ok r

/-- `all_min_pos`, the columns of the rows in `min_pos_list`. -/
def allMinPos (st : Search) (minPosList : List Nat) : Except Exit (List Nat) := do
  let allminrows := minPosList.foldl (fun v i => v.orCount (vec st.rows i))
    (Bitvector.setSize s.colSize)
  allminrows.setPositions.foldlM (fun pos nn =>
    if (vec st.cols nn).count = s.rowSize then .error (.printExit (st.curSol ++ [nn]))
    else .ok (pos ++ [nn])) []

/-- The body of `while (rowmask.count() < row_size)`. -/
def iteration (st : Search) : Except Exit Search := do
  let r ← (List.range s.rowSize).foldlM s.scanRow { st, min := s.colSize }
  let st := r.st
  let c ← (List.range s.colSize).foldlM (scanCol st) {}
  if c.maxPosList = [] then .error .noSolution
  else if r.minPosList = [] then do
    st.tryBest 2 (getBest2Solution st.cols st.rowmask c.csum)
    st.tryBest 3 (getBest3Solution st.cols st.rowmask c.csum)
    return st.take (c.maxPosList.getD 0 0)
  else do
    let allMinPos ← s.allMinPos st r.minPosList
    if allMinPos.length > 64 then do
      let csumMin := (c.csum.filter (· ∈ allMinPos)).take allMinPos.length
      st.tryBest 2 (getBest2Solution st.cols st.rowmask csumMin)
      st.tryBest 2 (getBest2SolutionIn st.cols st.rowmask s.colSize allMinPos)
      st.tryBest 3 (getBest3Solution st.cols st.rowmask csumMin)
      return st.takeBest r.min allMinPos c.maxPosList
    else do
      st.tryBest 2 (getBest2SolutionIn st.cols st.rowmask s.colSize allMinPos)
      st.tryBest 3 (getBest3SolutionIn st.cols st.rowmask allMinPos c.csum)
      return st.takeBest r.min allMinPos c.maxPosList

/-- One test and iteration of the search. -/
def searchStep (st : Search) : Search ⊕ Exit :=
  if st.rowmask.count < s.rowSize then
    match s.iteration st with
    | .ok st => .inl st
    | .error e => .inr e
  else .inr (.printExit st.curSol)

/-! ## Compression -/

/-- `nomask(pvalues_col[0].size())`. -/
def nomask : Bitvector := Bitvector.setSize (vec s.pvaluesCol 0).size

/-- The test of a solution without one of its columns. -/
def coversWithout (sol : List Nat) (x : Nat) : Bool :=
  isSolutionLite s.pvaluesCol s.nomask (sol.filter (· ≠ x))

/-- The loop of `ReduceColCompress`, with the part of `sol` before `it` and the rest. -/
def compressFrom (done : List Nat) : List Nat → List Nat
  | [] => done
  | x :: rest =>
    if s.coversWithout (done ++ x :: rest) x then compressFrom done rest
    else compressFrom (done ++ [x]) rest

def reduceColCompress (sol : List Nat) : List Nat := s.compressFrom [] sol

/-- The solutions that `ReduceColCompress_All` adds for one solution. -/
def extend (allSol : List (List Nat)) (sol : List Nat) : List (List Nat) :=
  sol.foldl (fun all x =>
    if sol.filter (· ≠ x) ∈ all then all
    else if s.coversWithout sol x then all ++ [sol.filter (· ≠ x)] else all) allSol

/-- One round of `while (pre_sol_num < all_sol.size())`. -/
def compressRound (t : Nat × List (List Nat)) : (Nat × List (List Nat)) ⊕ List (List Nat) :=
  if t.1 < t.2.length then
    let allSol := t.2.drop t.1
    .inl (allSol.length, allSol.foldl s.extend allSol)
  else .inr t.2

/-- The smallest solution, and among these the lightest one, with the weights added up in an `int`. -/
def bestSol (allSol : List (List Nat)) : List Nat :=
  let weigh (sol : List Nat) : Int := sumInt s.weightOf sol
  allSol.tail.foldl (fun best sol =>
    if sol.length < best.length ∨ sol.length = best.length ∧ weigh sol < weigh best then sol
    else best) (allSol.getD 0 [])

def reduceColCompressAll (fuel : Nat) (sol : List Nat) : Option (List Nat) :=
  (loop s.compressRound fuel (0, [sol])).map fun allSol =>
    if (allSol.getD 0 []).length < sol.length then s.bestSol allSol else sol

/-! ## Replacement -/

/-- `a - b` in `size_t`. -/
def sizeSub (a b : Nat) : Nat := (a + 2 ^ 64 - b) % 2 ^ 64

/-- `sol[j] = sol[sol.size() - 1]; sol.pop_back();`. -/
def dropAt (sol : List Nat) (j : Nat) : List Nat :=
  (sol.set j (sol.getD (sol.length - 1) 0)).dropLast

/-- `both`: the rows that only the columns of the solution at the places `ps` cover. -/
def bothOf (cols : List Bitvector) (sol ps : List Nat) : Bitvector :=
  let both := match ps with
    | [] => {}
    | i :: js => js.foldl (fun both j => both.orCount (vec cols (sol.getD j 0)))
      (({} : Bitvector).copy (vec cols (sol.getD i 0)))
  (List.range sol.length).foldl (fun both m =>
    if m ∈ ps then both else both.maskCount (vec cols (sol.getD m 0))) both

/-- `while (k >= 0)`: a column outside of the solution for the rows in `both`. The loop does not
go on at a column that is excluded or too small. -/
def findCol (csum sol : List Nat) (inexcluded : List InExType) (both : Bitvector) :
    Nat → Option (Option Nat)
  | 0 => some none
  | k + 1 =>
    let newcol := csum.getD k 0
    if newcol ∈ sol then findCol csum sol inexcluded both k
    else if both.count ≤ (vec s.pvaluesCol newcol).count ∧
        inexcluded.getD newcol .noInEx ≠ .excludedFlag then
      if both.countAnd (vec s.pvaluesCol newcol) = both.count then some (some newcol)
      else findCol csum sol inexcluded both k
    else none

/-- The columns at the places `ps` are replaced by one, if there is one. -/
def replaceAt (csum : List Nat) (inexcluded : List InExType) (sol ps : List Nat) :
    Option (Option (List Nat)) :=
  let both := bothOf s.pvaluesCol sol ps
  let k := (csum.takeWhile fun p => both.count ≤ (vec s.pvaluesCol p).count).length
  match s.findCol csum sol inexcluded both k with
  | none => none
  | some none => some none
  | some (some newcol) => (s.sortWei (ps.reverse.foldl dropAt sol ++ [newcol])).map some

/-- `ReduceColReplace21`; a replacement starts the loops again. -/
def replace21Step (csum : List Nat) (inexcluded : List InExType) (t : List Nat × Nat × Nat) :
    (List Nat × Nat × Nat) ⊕ Option (List Nat) :=
  let (sol, i, j) := t
  if i < sizeSub sol.length 1 then
    if j < sol.length then
      match s.replaceAt csum inexcluded sol [i, j] with
      | none => .inr none
      | some none => .inl (sol, i, j + 1)
      | some (some sol) => .inl (sol, 0, 1)
    else .inl (sol, i + 1, i + 2)
  else .inr (some sol)

def reduceColReplace21 (fuel : Nat) (csum : List Nat) (inexcluded : List InExType)
    (sol : List Nat) : Option (List Nat) :=
  (loop (s.replace21Step csum inexcluded) fuel (sol, 0, 1)).join

/-- `ReduceColReplace31`. -/
def replace31Step (csum : List Nat) (inexcluded : List InExType)
    (t : List Nat × Nat × Nat × Nat) : (List Nat × Nat × Nat × Nat) ⊕ Option (List Nat) :=
  let (sol, i, j1, j2) := t
  if i < sizeSub sol.length 2 then
    if j1 < sizeSub sol.length 1 then
      if j2 < sol.length then
        match s.replaceAt csum inexcluded sol [i, j1, j2] with
        | none => .inr none
        | some none => .inl (sol, i, j1, j2 + 1)
        | some (some sol) => .inl (sol, 0, 1, 2)
      else .inl (sol, i, j1 + 1, j1 + 2)
    else .inl (sol, i + 1, i + 2, i + 3)
  else .inr (some sol)

def reduceColReplace31 (fuel : Nat) (csum : List Nat) (inexcluded : List InExType)
    (sol : List Nat) : Option (List Nat) :=
  (loop (s.replace31Step csum inexcluded) fuel (sol, 0, 1, 2)).join

/-- `ReduceColReplace21_Traverse`: every column of the solution comes first once. -/
def reduceColReplace21Traverse (fuel : Nat) (csum : List Nat) (inexcluded : List InExType)
    (sol : List Nat) : Option (List Nat) :=
  ((List.range sol.length).foldlM (fun (best : Nat × List Nat) start =>
    (s.reduceColReplace21 fuel csum inexcluded (sol.drop start ++ sol.take start)).map fun tmp =>
      if best.1 > tmp.length then (tmp.length, tmp) else best) (sol.length, [])).map
    fun best => if best.1 < sol.length then best.2 else sol

/-! ## The solver -/

/-- From `PRINT_EXIT` on: the result, and what is pushed onto `selected_cands`. -/
def finish (fuel : Nat) (csum : List Nat) (inexcluded : List InExType) (sol : List Nat) :
    Option (Nat × List NodeId) := do
  let sol ← if 2 ≤ sol.length ∧ sol.length ≤ 5 then s.reduceColCompressAll fuel sol
    else if 6 ≤ sol.length then some (s.reduceColCompress sol) else some sol
  let sol ← if 5 < sol.length then s.reduceColReplace31 fuel csum inexcluded sol else some sol
  let sol ← if 2 ≤ sol.length ∧ sol.length ≤ 5 then
      s.reduceColReplace21Traverse fuel csum inexcluded sol
    else if 6 ≤ sol.length then s.reduceColReplace21 fuel csum inexcluded sol else some sol
  return (if isSolutionLite s.pvaluesCol s.nomask sol then 1 else 0,
    sol.map fun p => s.signals.getD p 0)

/-- `SolveMinCol`; `fuel` bounds the rounds of each loop. -/
def solveMinCol (fuel : Nat) : Option (Nat × List NodeId) :=
  let rows := (List.range s.rowSize).map fun i => ({} : Bitvector).copy (vec s.pvaluesRow i)
  let cols := (List.range s.colSize).map fun j => ({} : Bitvector).copy (vec s.pvaluesCol j)
  if rows.any (·.count = 0) then some (0, [])
  else do
    let (rows, cols, inexcluded) :=
      s.inExcludeSigs rows cols (List.replicate s.colSize .noInEx)
    let csum ← s.sortCol cols
    let exit ← loop s.searchStep fuel { rowmask := Bitvector.setSize s.rowSize, rows, cols }
    match exit with
    | .noSolution => some (0, [])
    | .printExit sol => s.finish fuel csum inexcluded sol

end Setcover

end Msyn.SC
