import Msyn.Select.InExclude
import Msyn.Select.MinColCover

/-!
# The column cover with excluded columns

`SolveMinCol` with lists of signals to exclude or include, and `SolveMinCol_ExRange` with a range of
columns to exclude. Both clear the excluded columns and run the same search. Where this leaves a row
without a column, `InExcludeSigs` and `InExcludeSigs_Range` return 0; only `SolveMinCol_ExRange`
looks at that.

The search reads `csum_sortindex` from the end and two entries of `best_sol`; these reads and the
first one of `SortCol` are checked (`Leave.outOfRange`). The reads of the reductions are not.

`iterationChecked_ends`: with a row that no column has, an iteration goes on, leaves outside of a
list, or leaves with a false cover. What this says of the solvers is in `Select/Infeasible.lean`.
-/

namespace Msyn.SC

open Nodecircuit Bitprocess Bitvector

/-- How the search with checked reads is left. -/
inductive Leave where
  | exit (e : Exit)
  | outOfRange

/-- `l[l.size() - i]`. -/
def readBack (l : List Nat) (i : Nat) : Except Leave Unit :=
  if i ≤ l.length then .ok () else .error .outOfRange

/-- The two columns of `best_sol` are read after `GetBest2Selection`. -/
def Search.takeBestChecked (st : Search) (min : Nat) (allMinPos maxPosList : List Nat) :
    Except Leave Search :=
  if min < 4 ∧ allMinPos.length > 4 ∧
      (getBest2Selection st.cols st.rowmask allMinPos).length < 2 then .error .outOfRange
  else .ok (st.takeBest min allMinPos maxPosList)

namespace Setcover

section
variable (s : Setcover)

/-- The scan of a row in `SolveMinCol` with lists: for a row with few columns left, `min` is compared
with the row as it was at the start. -/
def scanRowInEx (r : RowScan) (i : Nat) : Except Exit RowScan :=
  let count := (vec r.st.rows i).count
  if count = 1 then
    let st := r.st.take ((vec r.st.rows i).nextSet (-1))
    if st.rowmask.count = s.rowSize then .error (.printExit st.curSol) else .ok { r with st }
  else if count = 0 then .ok r
  else if count < 16 then
    let whole := (vec s.pvaluesRow i).count
    .ok { r with
      minPosList := (if r.min > 16 then [] else r.minPosList) ++ [i]
      min := if whole < r.min then whole else r.min }
  else if count = r.min then .ok { r with minPosList := r.minPosList ++ [i] }
  else if count < r.min then .ok { r with minPosList := [i], min := count }
  else .ok r

/-- The body of `while (rowmask.count() < row_size)`. -/
def iterationChecked (scan : RowScan → Nat → Except Exit RowScan) (st : Search) :
    Except Leave Search := do
  let r ← ((List.range s.rowSize).foldlM scan { st, min := s.colSize }).mapError Leave.exit
  let st := r.st
  let tryBest size best := (st.tryBest size best).mapError Leave.exit
  let c ← ((List.range s.colSize).foldlM (scanCol st) {}).mapError Leave.exit
  if c.maxPosList = [] then .error (.exit .noSolution)
  else if r.minPosList = [] then do
    readBack c.csum 1
    tryBest 2 (getBest2Solution st.cols st.rowmask c.csum)
    readBack c.csum 2
    tryBest 3 (getBest3Solution st.cols st.rowmask c.csum)
    return st.take (c.maxPosList.getD 0 0)
  else do
    let allMinPos ← (s.allMinPos st r.minPosList).mapError Leave.exit
    if allMinPos.length > 64 then do
      let csumMin := (c.csum.filter (· ∈ allMinPos)).take allMinPos.length
      readBack csumMin 1
      tryBest 2 (getBest2Solution st.cols st.rowmask csumMin)
      tryBest 2 (getBest2SolutionIn st.cols st.rowmask s.colSize allMinPos)
      readBack csumMin 2
      tryBest 3 (getBest3Solution st.cols st.rowmask csumMin)
      st.takeBestChecked r.min allMinPos c.maxPosList
    else do
      tryBest 2 (getBest2SolutionIn st.cols st.rowmask s.colSize allMinPos)
      readBack c.csum 2
      tryBest 3 (getBest3SolutionIn st.cols st.rowmask allMinPos c.csum)
      st.takeBestChecked r.min allMinPos c.maxPosList

def searchStepChecked (scan : RowScan → Nat → Except Exit RowScan) (st : Search) :
    Search ⊕ Leave :=
  if st.rowmask.count < s.rowSize then
    match s.iterationChecked scan st with
    | .ok st => .inl st
    | .error e => .inr e
  else .inr (.exit (.printExit st.curSol))

/-- `SortCol`, which reads the first of the columns that it sorts. -/
def sortColChecked (cols : List Bitvector) : Option (List Nat) :=
  if cols.all (·.count = 0) then none else s.sortCol cols

/-- From `PRINT_EXIT` on: every reduction gets the solution in the order of the weights. -/
def finishSorted (fuel : Nat) (csum : List Nat) (inexcluded : List InExType) (sol : List Nat) :
    Option (Nat × List NodeId) := do
  let sol ← if 2 ≤ sol.length ∧ sol.length ≤ 5 then
      (s.sortWei sol).bind (s.reduceColCompressAll fuel)
    else if 6 ≤ sol.length then (s.sortWei sol).map s.reduceColCompress
    else some sol
  let sol ← if 5 < sol.length then
      (s.sortWei sol).bind (s.reduceColReplace31 fuel csum inexcluded)
    else some sol
  let sol ← if 2 ≤ sol.length ∧ sol.length ≤ 5 then
      (s.sortWei sol).bind (s.reduceColReplace21Traverse fuel csum inexcluded)
    else if 6 ≤ sol.length then (s.sortWei sol).bind (s.reduceColReplace21 fuel csum inexcluded)
    else some sol
  return (if isSolutionLite s.pvaluesCol s.nomask sol then 1 else 0,
    sol.map fun p => s.signals.getD p 0)

/-- From `SortCol` on. -/
def searchAndFinish (scan : RowScan → Nat → Except Exit RowScan) (fuel : Nat)
    (inexcluded : List InExType) (st : Search) : Option (Nat × List NodeId) := do
  let csum ← s.sortColChecked st.cols
  match ← loop (s.searchStepChecked scan) fuel st with
  | .outOfRange => none
  | .exit .noSolution => some (0, [])
  | .exit (.printExit sol) => s.finishSorted fuel csum inexcluded sol

/-- `SolveMinCol` with lists: the result, and what is pushed onto `selected_cands`. What it leaves in
the lists is in `inExcludeSigsFull`. -/
def solveMinColInEx (fuel : Nat) (excludedSigs includedSigs : List NodeId) :
    Option (Nat × List NodeId) :=
  if s.start.rows.any (·.count = 0) then some (0, [])
  else
    let o := s.inExcludeSigsFull s.start.rows s.start.cols [] excludedSigs includedSigs
      (List.replicate s.colSize .noInEx) s.start.rowmask true
    s.searchAndFinish s.scanRowInEx fuel o.inexcluded
      { curSol := o.curSol, rowmask := o.rowmask, rows := o.rows, cols := o.cols }

/-- `InExcludeSigs_Range`: the result, the copies and the flags. -/
def inExcludeSigsRange (rows cols : List Bitvector) (exColStart exColEnd : Int)
    (inexcluded : List InExType) : Nat × List Bitvector × List Bitvector × List InExType :=
  if exColStart > exColEnd then (0, rows, cols, inexcluded)
  else
    let exColEnd := if exColEnd ≥ s.colSize then (s.colSize : Int) - 1 else exColEnd
    let exColStart := if exColStart < 0 then 0 else exColStart
    let range := (List.range s.colSize).filter fun col : Nat => exColStart ≤ col ∧ col ≤ exColEnd
    let rows := range.foldl (fun rows col => rows.map (·.reset col)) rows
    (if rows.any (·.count = 0) then 0 else 1, rows,
      range.foldl (fun cols col => cols.set col (vec cols col).clear) cols,
      range.foldl (fun flags col => flags.set col .excludedFlag) inexcluded)

/-- `SolveMinCol_ExRange`. -/
def solveMinColExRange (fuel : Nat) (exColStart exColEnd : Int) : Option (Nat × List NodeId) :=
  if s.start.rows.any (·.count = 0) then some (0, [])
  else
    let (exRet, rows, cols, inexcluded) := s.inExcludeSigsRange s.start.rows s.start.cols
      exColStart exColEnd (List.replicate s.colSize .noInEx)
    if exRet = 0 then some (0, [])
    else s.searchAndFinish s.scanRow fuel inexcluded { s.start with rows, cols }

end

/-! ## A row without a column -/

/-- With a row that no column has, the search is left only outside of a list, or with a false
cover. -/
def Missed (s : Setcover) : Leave → Prop
  | .outOfRange => True
  | .exit .noSolution => False
  | .exit (.printExit sol) => s.FalseCover sol

section
variable {s : Setcover} {st : Search} {r : Nat} (hr : r < s.rowSize)
  (hun : ∀ k < s.colSize, (vec s.pvaluesCol k).bit r = false)
include hr hun

theorem not_cover {sol : List Nat} : ¬s.Cover sol := by
  intro h
  obtain ⟨p, hp, hpr⟩ := h.rows r hr
  rw [hun p (h.mem p hp)] at hpr
  cases hpr

theorem Sound.left (h : s.Sound st) : st.rowmask.count < s.rowSize :=
  lt_of_le_of_ne h.count_le fun hfull => not_cover hr hun (h.full hfull)

theorem missed_of_leaves {e : Exit} (h : s.Leaves e) (hne : e ≠ .noSolution) :
    s.Missed (.exit e) := by
  cases e with
  | noSolution => exact absurd rfl hne
  | printExit sol => exact h.resolve_left fun hf => not_cover hr hun hf.toCover

end

/-- A scan of a row that keeps what `scanRow` keeps. -/
structure GoodScan (s : Setcover) (scan : RowScan → Nat → Except Exit RowScan) : Prop where
  ends : ∀ r i, s.Scanned r → i < s.rowSize → Ends s.Leaves s.Scanned (scan r i)
  exits : ∀ r i, Ends (· ≠ .noSolution) (fun _ => True) (scan r i)

theorem scanRow_exits (s : Setcover) (r : RowScan) (i : Nat) :
    Ends (· ≠ .noSolution) (fun _ => True) (s.scanRow r i) := by
  unfold scanRow
  dsimp only
  split
  · split
    · exact nofun
    · trivial
  · split_ifs <;> trivial

theorem goodScan {s : Setcover} (hs : s.WellFormed) : s.GoodScan s.scanRow where
  ends _ _ h hi := scanRow_ends hs h hi
  exits := scanRow_exits s

/-- The two scans of a row differ in `min` only. -/
theorem scanRowInEx_eq (s : Setcover) (r : RowScan) (i : Nat) :
    ∃ m, s.scanRowInEx r i = (s.scanRow r i).map fun r' => { r' with min := m } := by
  unfold scanRowInEx scanRow
  dsimp only
  split_ifs with h1 h2 h3 h4
  all_goals first | exact ⟨_, rfl⟩ | exact ⟨r.min, rfl⟩

theorem GoodScan.inEx {s s0 : Setcover} (h : s.GoodScan s0.scanRow) :
    s.GoodScan s0.scanRowInEx where
  ends r i hr hi := by
    obtain ⟨m, he⟩ := scanRowInEx_eq s0 r i
    rw [he]
    exact (h.ends r i hr hi).map _ fun r' hr' => ⟨hr'.sound, hr'.proper, hr'.left, hr'.minPos⟩
  exits r i := by
    obtain ⟨m, he⟩ := scanRowInEx_eq s0 r i
    rw [he]
    exact (h.exits r i).map _ fun _ _ => trivial

/-- The scan of the columns finds one that no other exceeds, be it empty. -/
theorem scanCols_exits (st : Search) {n : Nat} (hn : 0 < n) :
    Ends (· ≠ .noSolution) (fun c => c.maxPosList ≠ []) ((List.range n).foldlM (scanCol st) {}) := by
  have hI : Ends (· ≠ .noSolution)
      (fun c : ColScan => (List.range n = [] ∧ c.max = 0) ∨ c.maxPosList ≠ [])
      ((List.range n).foldlM (scanCol st) {}) := by
    refine Ends.foldlM (fun done (c : ColScan) => (done = [] ∧ c.max = 0) ∨ c.maxPosList ≠ [])
      (fun done k c _ hc => ?_) (.inl ⟨rfl, rfl⟩)
    obtain ⟨csum, hcsum⟩ : ∃ csum, (if (vec st.cols k).count > 0 then
        { c with csum := insertCol st.cols c.csum k } else c) = { c with csum } := by
      split_ifs
      · exact ⟨_, rfl⟩
      · exact ⟨_, rfl⟩
    unfold scanCol
    dsimp only
    rw [hcsum]
    split_ifs with h1 h2 h3
    · exact nofun
    · exact .inr (List.cons_ne_nil _ _)
    · exact .inr (by simp)
    · rcases hc with ⟨-, h0⟩ | hc
      · dsimp only at h1 h3
        omega
      · exact .inr hc
  refine hI.mono (fun _ h => h) fun c hc => hc.resolve_left fun h => ?_
  rw [List.range_eq_nil] at h
  omega

theorem allMinPos_exits (s : Setcover) (st : Search) (l : List Nat) :
    Ends (· ≠ .noSolution) (fun _ => True) (s.allMinPos st l) := by
  unfold allMinPos
  refine Ends.foldlM (fun _ _ => True) (fun _ _ _ _ _ => ?_) trivial
  split
  · exact nofun
  · trivial

theorem readBack_ends (s : Setcover) (l : List Nat) (i : Nat) :
    Ends s.Missed (fun _ => True) (readBack l i) := by
  unfold readBack
  split <;> trivial

section
variable {s : Setcover} {st : Search} {r : Nat} (hr : r < s.rowSize)
  (hun : ∀ k < s.colSize, (vec s.pvaluesCol k).bit r = false)
include hr hun

theorem missed_ends {α : Type} {Q Q' : α → Prop} {x : Except Exit α} (h : Ends s.Leaves Q x)
    (h' : Ends (· ≠ .noSolution) Q' x) :
    Ends s.Missed (fun a => Q a ∧ Q' a) (x.mapError Leave.exit) :=
  ((h.and h').mono (fun _ he => missed_of_leaves hr hun he.1 he.2) fun _ ha => ha).mapError _

variable (h : s.Sound st)
include h

theorem tryBest_missed {size : Nat} (hsize : size ≠ 0) {best : List Nat}
    (hb : best ≠ [] → s.Passing st best) :
    Ends s.Missed (fun _ => True) ((st.tryBest size best).mapError Leave.exit) := by
  refine Ends.mapError _ ?_
  unfold Search.tryBest
  split
  · rename_i hlen
    have hne : best ≠ [] := fun hnil => hsize (by rw [← hlen, hnil, List.length_nil])
    exact (hb hne).resolve_left fun hc => not_cover hr hun (h.completes hc)
  · trivial

omit hr hun in
theorem takeBestChecked_ends {min : Nat} {allMinPos maxPosList : List Nat}
    (hall : ∀ p ∈ allMinPos, p < s.colSize) (hmax : ∀ p ∈ maxPosList, p < s.colSize)
    (hne : maxPosList ≠ []) :
    Ends s.Missed s.Sound (st.takeBestChecked min allMinPos maxPosList) := by
  unfold Search.takeBestChecked
  split
  · trivial
  · exact takeBest_sound h hall hmax hne

/-- **An iteration** keeps the search sound or misses the row. -/
theorem iterationChecked_ends {scan : RowScan → Nat → Except Exit RowScan} (hscan : s.GoodScan scan)
    (hcol : 0 < s.colSize) : Ends s.Missed s.Sound (s.iterationChecked scan st) := by
  have hp : s.Proper := fun k hk => ⟨r, hr, hun k hk⟩
  have hrows : Ends s.Leaves s.Scanned
      ((List.range s.rowSize).foldlM scan { st, min := s.colSize }) := by
    refine Ends.foldlM (fun _ => s.Scanned) (fun done i r' hpre hr' => ?_)
      ⟨h, fun _ => hp, h.left hr hun, fun _ hi => absurd hi List.not_mem_nil⟩
    exact hscan.ends r' i hr' (List.mem_range.1 (hpre.subset (by simp)))
  have hrows' : Ends (· ≠ .noSolution) (fun _ => True)
      ((List.range s.rowSize).foldlM scan { st, min := s.colSize }) :=
    Ends.foldlM (fun _ _ => True) (fun _ i r' _ _ => hscan.exits r' i) trivial
  unfold iterationChecked
  refine Ends.bind (missed_ends hr hun hrows hrows') fun r1 hr1 => ?_
  have hsound := hr1.1.sound
  have hleft := hsound.left hr hun
  dsimp only
  refine Ends.bind (missed_ends hr hun (scanCols_ends hsound hleft fun _ => hp)
    (scanCols_exits r1.st hcol)) fun c hc => ?_
  obtain ⟨hc, hne⟩ := hc
  have hminlist : ∀ l : List Nat, ∀ k ∈ (c.csum.filter (· ∈ l)).take l.length,
      k < s.colSize ∧ (vec r1.st.cols k).count ≠ 0 :=
    fun l k hk => hc.csum k (List.mem_filter.1 (List.mem_of_mem_take hk)).1
  rw [if_neg hne]
  split
  · refine Ends.bind (readBack_ends _ _ _) fun _ _ => ?_
    refine Ends.bind (tryBest_missed hr hun hsound (by omega)
      (getBest2Solution_passing hsound hleft hc.csum)) fun _ _ => ?_
    refine Ends.bind (readBack_ends _ _ _) fun _ _ => ?_
    refine Ends.bind (tryBest_missed hr hun hsound (by omega)
      (getBest3Solution_passing hsound hleft hc.csum)) fun _ _ => ?_
    exact (hsound.take (hc.maxPos _ (getD_mem (List.length_pos_iff.2 hne)))).1
  · refine Ends.bind (missed_ends hr hun (allMinPos_ends hsound hp hr1.1.minPos)
      (allMinPos_exits s r1.st r1.minPosList)) fun allMinPos hall => ?_
    split
    · refine Ends.bind (readBack_ends _ _ _) fun _ _ => ?_
      refine Ends.bind (tryBest_missed hr hun hsound (by omega)
        (getBest2Solution_passing hsound hleft (hminlist allMinPos))) fun _ _ => ?_
      refine Ends.bind (tryBest_missed hr hun hsound (by omega)
        (getBest2SolutionIn_passing hsound hleft hall.1)) fun _ _ => ?_
      refine Ends.bind (readBack_ends _ _ _) fun _ _ => ?_
      refine Ends.bind (tryBest_missed hr hun hsound (by omega)
        (getBest3Solution_passing hsound hleft (hminlist allMinPos))) fun _ _ => ?_
      exact takeBestChecked_ends hsound hall.1 hc.maxPos hne
    · refine Ends.bind (tryBest_missed hr hun hsound (by omega)
        (getBest2SolutionIn_passing hsound hleft hall.1)) fun _ _ => ?_
      refine Ends.bind (readBack_ends _ _ _) fun _ _ => ?_
      refine Ends.bind (tryBest_missed hr hun hsound (by omega)
        (getBest3SolutionIn_passing hsound hleft hc.csum hall.1)) fun _ _ => ?_
      exact takeBestChecked_ends hsound hall.1 hc.maxPos hne

/-- **The search** misses the row. -/
theorem searchChecked_missed {scan : RowScan → Nat → Except Exit RowScan} (hscan : s.GoodScan scan)
    (hcol : 0 < s.colSize) {fuel : Nat} {e : Leave}
    (he : loop (s.searchStepChecked scan) fuel st = some e) : s.Missed e := by
  refine loop_post (I := s.Sound) (P := s.Missed) (fun st st' hi hst => ?_)
    (fun st e hi hst => ?_) h he
  · have hit := iterationChecked_ends hr hun hi hscan hcol
    rw [searchStepChecked, if_pos (hi.left hr hun)] at hst
    split at hst
    · rename_i st1 h1
      cases hst
      rw [h1] at hit
      exact hit
    · cases hst
  · have hit := iterationChecked_ends hr hun hi hscan hcol
    rw [searchStepChecked, if_pos (hi.left hr hun)] at hst
    split at hst
    · cases hst
    · rename_i e1 h1
      cases hst
      rw [h1] at hit
      exact hit

end

end Setcover

end Msyn.SC
