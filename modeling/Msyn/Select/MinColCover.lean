import Msyn.Select.MinColReduce

/-!
# What the column cover reports

`SolveMinCol` returns 1 with a cover of all rows when no cover test on the way accepts a false cover
(`Undeceived`, `Filled.covers`). So it does where the number of rows is not a multiple of 64 or is at
most 64 (`Undeceived.of_rows`), or where the columns without a row among the last 64 do not have all
others (`Undeceived.of_columns`). For every other number of rows there is an instance where it
returns 1 and leaves the last 64 rows out (`Filled.tailRows_solve`).
-/

namespace Msyn.SC

open Nodecircuit Bitprocess Bitvector

namespace Setcover

/-- Every row has a 1 in the column of a selected candidate. -/
def Covers (signals : List NodeId) (all : List (List Bool)) (sel : List NodeId) : Prop :=
  ∀ row ∈ all, ∃ k < signals.length, row.getD k false = true ∧ signals.getD k 0 ∈ sel

/-- The search before its first iteration. -/
def start (s : Setcover) : Search where
  rowmask := Bitvector.setSize s.rowSize
  rows := (List.range s.rowSize).map fun i => ({} : Bitvector).copy (vec s.pvaluesRow i)
  cols := (List.range s.colSize).map fun j => ({} : Bitvector).copy (vec s.pvaluesCol j)

section
variable {s : Setcover} (hs : s.WellFormed)
include hs

theorem WellFormed.searching : s.Searching s.start := by
  obtain ⟨m1, m2⟩ := setSize_good s.rowSize
  have hcopy : ∀ v : Bitvector, v.Good → (({} : Bitvector).copy v).Good ∧
      ∀ i, (({} : Bitvector).copy v).bit i = v.bit i := fun v hv => Good.copy {} hv
  refine ⟨⟨m1, rfl, fun p hp => (List.not_mem_nil hp).elim, fun i => ?_, by simp [start],
    fun k hk => ?_, fun k hk i => ?_, by simp [start], fun i hi => ?_, fun i hi k => ?_⟩,
    fun hne => (hne rfl).elim⟩
  · simp [start, m2]
  · rw [start, vec_ofRange _ hk]
    exact ⟨(hcopy _ (hs.col k hk).1).1, (hs.col k hk).2⟩
  · rw [start, vec_ofRange _ hk, (hcopy _ (hs.col k hk).1).2, m2, Bool.not_false, Bool.and_true]
  · rw [start, vec_ofRange _ hi]
    exact ⟨(hcopy _ (hs.row i hi).1).1, (hs.row i hi).2⟩
  · rw [start, vec_ofRange _ hi, (hcopy _ (hs.row i hi).1).2, m2, Bool.not_false, Bool.and_true]

/-- Nothing is excluded for its weight. -/
theorem WellFormed.inExcludeSigs (rows cols : List Bitvector) (inexcluded : List InExType) :
    s.inExcludeSigs rows cols inexcluded = (rows, cols, inexcluded) := by
  unfold Setcover.inExcludeSigs
  split
  · rfl
  · rename_i x xs hx
    exact if_neg (hs.weight x (by rw [hx]; simp))

/-- The solver, when every row has a column: the columns in order, the search, the reductions. -/
theorem WellFormed.solveMinCol_eq (hrows : s.start.rows.any (·.count = 0) = false) (fuel : Nat) :
    s.solveMinCol fuel = (s.sortCol s.start.cols).bind fun csum =>
      (loop s.searchStep fuel s.start).bind fun exit =>
        match exit with
        | .noSolution => some (0, [])
        | .printExit sol => s.finish fuel csum (List.replicate s.colSize .noInEx) sol := by
  unfold solveMinCol
  dsimp only
  rw [if_neg (by rw [start] at hrows; rw [hrows]; simp), hs.inExcludeSigs]
  rfl

/-- The order of the columns is there, and it holds columns. -/
theorem WellFormed.sortCol_spec (hrows : s.start.rows.any (·.count = 0) = false) :
    ∃ csum, s.sortCol s.start.cols = some csum ∧ ∀ k ∈ csum, k < s.colSize := by
  have h := hs.searching.sound
  have hne : ((List.range s.start.cols.length).filter fun p => (vec s.start.cols p).count ≠ 0) ≠
      [] := by
    -- a column of the first row
    have hmem : vec s.start.rows 0 ∈ s.start.rows := by
      rw [vec_eq_getElem (h.rowLength ▸ hs.pos)]
      exact List.getElem_mem _
    have hcount : (vec s.start.rows 0).count ≠ 0 := by
      simpa using List.any_eq_false.1 hrows _ hmem
    obtain ⟨hg, hsize⟩ := h.row 0 hs.pos
    obtain ⟨k, hk, hbit⟩ := exists_bit hg hcount
    have hk : k < s.colSize := hsize ▸ hk
    rw [h.rowBit 0 hs.pos, hs.agree 0 hs.pos k hk, ← h.colBit k hk] at hbit
    refine List.ne_nil_of_mem (List.mem_filter.2 ⟨List.mem_range.2 (h.colLength.symm ▸ hk), ?_⟩)
    have hpos : 0 < (List.range (vec s.start.cols k).bsize).countP (vec s.start.cols k).bit :=
      List.countP_pos_iff.2 ⟨0, List.mem_range.2 ((h.col k hk).2.symm ▸ hs.pos), hbit⟩
    have hc : (vec s.start.cols k).count = _ := (h.col k hk).1.counter
    simp only [decide_not, Bool.not_eq_true', decide_eq_false_iff_not]
    omega
  obtain ⟨csum, hsort, hperm⟩ :=
    Quicksort.sort_spec (fun p => (vec s.pvaluesCol p).count) hne
  refine ⟨csum, hsort, fun k hk => ?_⟩
  have hk := (List.mem_filter.1 (hperm.subset hk)).1
  rw [List.mem_range, h.colLength] at hk
  exact hk

end

/-- **No test accepts a false cover**: no pair or triple with which the search leaves, and nothing
that the compression of what it leaves with goes on with. -/
def Undeceived (s : Setcover) : Prop :=
  ∀ st, AtHead s.searchStep s.start st → ∀ sol, s.searchStep st = .inr (.printExit sol) →
    ∀ t, s.Accepts sol t → ¬s.FalseCover t

theorem Undeceived.of_rows {s : Setcover} (hn : s.rowSize % 64 ≠ 0 ∨ s.rowSize ≤ 64) :
    s.Undeceived := by
  intro st _ sol _ t _ h
  have hmod := h.last.1
  have hmany := h.many
  omega

/-- **The solver** selects a cover, when it selects. -/
theorem WellFormed.solveMinCol_cover {s : Setcover} (hs : s.WellFormed) (hu : s.Undeceived)
    {fuel : Nat} {sel : List NodeId} (h : s.solveMinCol fuel = some (1, sel)) :
    ∃ sol, s.Cover sol ∧ sel = sol.map fun p => s.signals.getD p 0 := by
  cases hrows : s.start.rows.any (·.count = 0) with
  | true =>
    unfold solveMinCol at h
    dsimp only at h
    rw [if_pos (by rw [start] at hrows; exact hrows)] at h
    cases h
  | false =>
    rw [hs.solveMinCol_eq hrows] at h
    obtain ⟨csum, hsort, hcsum⟩ := hs.sortCol_spec hrows
    rw [hsort, Option.bind_some] at h
    obtain ⟨exit, hexit, h⟩ := Option.bind_eq_some_iff.1 h
    obtain ⟨hleaves, st, hhead, hstep⟩ := search_leaves hs hs.searching hexit
    cases exit with
    | noSolution => cases h
    | printExit sol =>
      have hacc := hu st hhead sol hstep
      exact finish_cover hs hcsum (hleaves.resolve_right (hacc sol (.inl rfl))) hacc h

/-- The number of rows is a larger multiple of 64, and the columns that are not `out` and have none
of the last 64 rows have all others. -/
def Deceptive (s : Setcover) (all : List (List Bool)) (out : Nat → Prop) : Prop :=
  all.length % 64 = 0 ∧ 64 < all.length ∧ ∀ i < all.length - 64, ∃ k < s.colSize, ¬out k ∧
    (all.getD i []).getD k false = true ∧
      ∀ j < all.length, all.length - 64 ≤ j → (all.getD j []).getD k false = false

section
variable {sigs : List NodeId} {weight : NodeId → Int} {s : Setcover} {all : List (List Bool)}
  (h : Filled sigs weight s all)
include h

/-- A false cover, be it of the columns that are not `out` only, is there in deceptive rows only. -/
theorem Filled.deceptive {sol : List Nat} (hmem : ∀ p ∈ sol, p < s.colSize) (hmany : 64 < s.rowSize)
    {out : Nat → Prop} {g : Nat → Nat → Bool}
    (hg : ∀ p < s.colSize, ∀ i, g p i = true ↔ ¬out p ∧ (vec s.pvaluesCol p).bit i = true)
    (hlast : LastWordEmpty s.rowSize fun i => sol.any fun p => g p i) : Deceptive s all out := by
  rw [h.rowSize] at hmany hlast
  have hne : all ≠ [] := fun hnil => by
    rw [hnil, List.length_nil] at hmany
    omega
  refine ⟨hlast.1, hmany, fun i hi => ?_⟩
  obtain ⟨p, hp, hpi⟩ := List.any_eq_true.1 (hlast.2.1 i hi)
  have hlt := hmem p hp
  obtain ⟨hout, hbit⟩ := (hg p hlt i).1 hpi
  rw [(h.col_bit hne hlt).2] at hbit
  refine ⟨p, hlt, hout, hbit, fun j hj hge => ?_⟩
  have hno := List.any_eq_false.1 (hlast.2.2 j hj hge) p hp
  rw [hg p hlt, (h.col_bit hne hlt).2, not_and] at hno
  exact (Bool.not_eq_true _).mp (hno hout)

/-- **The rows** are covered, when no test accepts a false cover. -/
theorem Filled.covers (hw : ∀ x ∈ sigs, 0 < weight x) (hu : s.Undeceived) {fuel : Nat}
    {sel : List NodeId} (hsel : s.solveMinCol fuel = some (1, sel)) : Covers sigs all sel := by
  intro row hrow
  have hne : all ≠ [] := List.ne_nil_of_mem hrow
  obtain ⟨sol, hcover, rfl⟩ := (h.wellFormed hne hw).solveMinCol_cover hu hsel
  obtain ⟨i, hi, rfl⟩ := List.getElem_of_mem hrow
  obtain ⟨p, hp, hbit⟩ := hcover.rows i (h.rowSize.symm ▸ hi)
  have hlt := hcover.mem p hp
  rw [(h.col_bit hne hlt).2, List.getD_eq_getElem _ _ hi] at hbit
  refine ⟨p, h.colSize ▸ hlt, hbit, List.mem_map.2 ⟨p, hp, ?_⟩⟩
  rw [h.signals]

end

/-! ## An instance that is not covered -/

/-- `n` rows: the first column has all but the last 64 of them, the second one these. -/
def tailRows (n : Nat) : List (List Bool) :=
  (List.range n).map fun i => [decide (i < n - 64), decide (n - 64 ≤ i)]

theorem length_tailRows (n : Nat) : (tailRows n).length = n := by
  rw [tailRows, List.length_map, List.length_range]

section
variable {n : Nat} (hn : 64 < n) {s : Setcover} (h : Filled [0, 1] (fun _ => 1) s (tailRows n))
include hn h

theorem Filled.tailRows_size : s.rowSize = n ∧ s.colSize = 2 ∧ s.WellFormed := by
  have hlen := length_tailRows n
  refine ⟨h.rowSize.trans hlen, h.colSize, h.wellFormed (fun hnil => ?_) fun x _ => Int.one_pos⟩
  rw [hnil, List.length_nil] at hlen
  omega

theorem Filled.tailRows_bit {i : Nat} (hi : i < n) :
    (vec s.pvaluesCol 0).bit i = decide (i < n - 64) ∧
      (vec s.pvaluesCol 1).bit i = decide (n - 64 ≤ i) := by
  obtain ⟨-, hcol, -⟩ := h.tailRows_size hn
  have hlen := length_tailRows n
  have hne : tailRows n ≠ [] := fun hnil => by
    rw [hnil, List.length_nil] at hlen
    omega
  have hrow : (tailRows n).getD i [] = [decide (i < n - 64), decide (n - 64 ≤ i)] := by
    rw [List.getD_eq_getElem _ _ (by omega)]
    simp [tailRows]
  rw [(h.col_bit hne (by omega : 0 < s.colSize)).2, (h.col_bit hne (by omega : 1 < s.colSize)).2,
    hrow]
  exact ⟨rfl, rfl⟩

/-- What is left of a row: its column, if the row is not covered. -/
theorem Filled.tailRows_row {st : Search} (hst : s.Sound st) {i : Nat} (hi : i < n) :
    (vec st.rows i).count = if st.rowmask.bit i then 0 else 1 := by
  obtain ⟨hrow, hcol, hs⟩ := h.tailRows_size hn
  obtain ⟨b0, b1⟩ := h.tailRows_bit hn hi
  obtain ⟨hg, hsize⟩ := hst.row i (hrow.symm ▸ hi)
  have hbit := hst.rowBit i (hrow.symm ▸ hi)
  have hagree := hs.agree i (hrow.symm ▸ hi)
  rw [Bitvector.count, hg.counter, hsize, hcol]
  simp only [List.range_succ, List.range_zero, List.nil_append, List.cons_append,
    List.countP_cons, List.countP_nil, hbit, hagree 0 (by omega), hagree 1 (by omega), b0, b1]
  by_cases hlt : i < n - 64
  · cases st.rowmask.bit i <;> simp only [hlt, Nat.not_le.2 hlt] <;> rfl
  · cases st.rowmask.bit i <;> simp only [hlt, Nat.not_lt.1 hlt] <;> rfl

/-- A row that is left takes the column that has it. -/
theorem Filled.tailRows_take {st : Search} (hst : s.Sound st) {i k : Nat} (hi : i < n)
    (hfree : st.rowmask.bit i = false) (hk : k < 2) (hb : (vec s.pvaluesCol k).bit i = true) :
    (vec st.rows i).count = 1 ∧ (vec st.rows i).nextSet (-1) = k ∧ s.Sound (st.take k) ∧
      ∀ j, (st.take k).rowmask.bit j = (st.rowmask.bit j || (vec s.pvaluesCol k).bit j) := by
  obtain ⟨hrow, hcol, hs⟩ := h.tailRows_size hn
  have h1 : (vec st.rows i).count = 1 := by
    rw [h.tailRows_row hn hst hi, hfree]
    rfl
  obtain ⟨-, hone⟩ := hst.essential hs (hrow.symm ▸ hi) h1
  exact ⟨h1, (hone k (hcol.symm ▸ hk) hb).symm, hst.take (hcol.symm ▸ hk)⟩

/-- The scan after the rows `done`: the first row takes the first column, which covers the rows that
follow. -/
structure FirstTaken (n : Nat) (s : Setcover) (done : List Nat) (r : RowScan) : Prop where
  sound : s.Sound r.st
  length : done.length ≤ n - 64
  curSol : r.st.curSol = if done = [] then [] else [0]
  mask : ∀ i < n, r.st.rowmask.bit i = (decide (done ≠ []) && decide (i < n - 64))

theorem FirstTaken.next {done : List Nat} {i : Nat} {r : RowScan} (hr : FirstTaken n s done r)
    (hpre : done ++ [i] <+: List.range s.rowSize) :
    Ends (· = .printExit [0, 1]) (FirstTaken n s (done ++ [i])) (s.scanRow r i) := by
  obtain ⟨hrow, -, -⟩ := h.tailRows_size hn
  have hi : i = done.length := by
    have hget := List.IsPrefix.getElem hpre (i := done.length) (by simp)
    simpa using hget
  have hlen := hr.length
  have hin : i < n := by omega
  have hfree := hr.mask i hin
  obtain ⟨b0, b1⟩ := h.tailRows_bit hn hin
  unfold scanRow
  dsimp only
  rcases Decidable.em (done = []) with hnil | hcons
  · -- the first row takes the first column
    obtain ⟨h1, hnext, ht, hbit⟩ := h.tailRows_take hn hr.sound hin (by simp [hfree, hnil])
      (k := 0) (by omega) (b0.trans (by simpa [hi, hnil] using Nat.sub_pos_of_lt hn))
    have hmask : ∀ j < n, (r.st.take 0).rowmask.bit j = decide (j < n - 64) := by
      intro j hj
      rw [hbit, hr.mask j hj, (h.tailRows_bit hn hj).1, hnil]
      simp
    rw [if_pos h1, hnext, if_neg]
    · refine ⟨ht, ?_, ?_, fun j hj => ?_⟩
      · rw [hnil, List.nil_append, List.length_singleton]
        omega
      · have hsol : (r.st.take 0).curSol = r.st.curSol ++ [0] := rfl
        simp [hsol, hr.curSol, hnil]
      · simp [hmask j hj]
    · -- the last row is left
      intro hfull
      have hlast := Good.full ht.mask (hfull.trans ht.size.symm) (i := n - 1) (by
        rw [ht.size, hrow]
        omega)
      rw [hmask (n - 1) (by omega), decide_eq_true_iff] at hlast
      omega
  · have hsol : r.st.curSol = [0] := hr.curSol.trans (if_neg hcons)
    have hmask : ∀ j < n, r.st.rowmask.bit j = decide (j < n - 64) := by
      intro j hj
      simp [hr.mask j hj, hcons]
    by_cases hlt : i < n - 64
    · -- a row that is covered
      have h0 : (vec r.st.rows i).count = 0 := by
        simp [h.tailRows_row hn hr.sound hin, hmask i hin, hlt]
      rw [if_neg (by omega), if_pos h0]
      refine ⟨hr.sound, ?_, ?_, fun j hj => ?_⟩
      · rw [List.length_append, List.length_singleton]
        omega
      · simp [hsol]
      · simp [hmask j hj]
    · -- the first row that is left takes the second column
      obtain ⟨h1, hnext, ht, hbit⟩ := h.tailRows_take hn hr.sound hin (by simp [hmask i hin, hlt])
        (k := 1) (by omega) (b1.trans (by simpa using Nat.not_lt.1 hlt))
      have hsol' : (r.st.take 1).curSol = [0, 1] := by
        have hsol1 : (r.st.take 1).curSol = r.st.curSol ++ [1] := rfl
        rw [hsol1, hsol]
        rfl
      rw [if_pos h1, hnext, if_pos, hsol']
      · rfl
      · rw [Bitvector.count, ht.mask.counter, ht.size, List.countP_eq_length.2, List.length_range]
        intro j hj
        have hj : j < n := hrow ▸ List.mem_range.1 hj
        rw [hbit, hmask j hj, (h.tailRows_bit hn hj).2]
        simp
        omega

theorem Filled.tailRows_iteration : s.iteration s.start = .error (.printExit [0, 1]) := by
  obtain ⟨hrow, hcol, hs⟩ := h.tailRows_size hn
  have hstart := hs.searching.sound
  have hends : Ends (· = .printExit [0, 1]) (fun _ => False) (s.iteration s.start) := by
    unfold iteration
    refine Ends.bind (Ends.foldlM (FirstTaken n s) (fun done i r hpre hr => hr.next hn h hpre)
      ⟨hstart, Nat.zero_le _, rfl, fun i hi => ?_⟩) fun r hr => ?_
    · exact (setSize_good s.rowSize).2 i
    · -- the scan does not come to its end
      have := hr.length
      rw [List.length_range] at this
      omega
  cases hit : s.iteration s.start with
  | ok st =>
    rw [hit] at hends
    exact hends.elim
  | error e =>
    rw [hit] at hends
    exact congrArg Except.error hends

/-- The cover test accepts the first column, and neither the second one nor no column at all. -/
theorem Filled.tailRows_lite (hn64 : n % 64 = 0) :
    isSolutionLite s.pvaluesCol s.nomask [0] = true ∧
      isSolutionLite s.pvaluesCol s.nomask [1] = false ∧
      isSolutionLite s.pvaluesCol s.nomask [] = false := by
  obtain ⟨hrow, hcol, hs⟩ := h.tailRows_size hn
  have hlite := hs.lite_iff (by omega : 0 < s.colSize)
  rw [hrow] at hlite
  have hreject : ∀ sol, (sol.any fun p => (vec s.pvaluesCol p).bit 0) = false →
      isSolutionLite s.pvaluesCol s.nomask sol = false := by
    intro sol h0
    rw [← Bool.not_eq_true, hlite]
    rintro (hall | ⟨-, hall, -⟩)
    · exact Bool.false_ne_true (h0.symm.trans (hall 0 (by omega)))
    · exact Bool.false_ne_true (h0.symm.trans (hall 0 (by omega)))
  refine ⟨(hlite _).2 (.inr ⟨hn64, fun i hi => ?_, fun i hi => ?_⟩), hreject _ ?_, hreject _ rfl⟩
  · dsimp only
    rw [List.any_cons, List.any_nil, Bool.or_false, (h.tailRows_bit hn (by omega)).1]
    exact decide_eq_true hi
  · dsimp only
    rw [List.any_cons, List.any_nil, Bool.or_false]
    by_cases hin : i < n
    · rw [(h.tailRows_bit hn hin).1]
      exact decide_eq_false (by omega)
    · exact hs.within 0 i (by omega)
  · rw [List.any_cons, List.any_nil, Bool.or_false, (h.tailRows_bit hn (by omega)).2]
    exact decide_eq_false (by omega)

/-- **The solver** reports the first column alone. -/
theorem Filled.tailRows_solve (hn64 : n % 64 = 0) : s.solveMinCol 3 = some (1, [0]) := by
  obtain ⟨hrow, hcol, hs⟩ := h.tailRows_size hn
  obtain ⟨l0, l1, l2⟩ := h.tailRows_lite hn hn64
  have hrows : s.start.rows.any (·.count = 0) = false := by
    rw [List.any_eq_false]
    intro v hv
    obtain ⟨i, hi, rfl⟩ := List.getElem_of_mem hv
    have hi : i < n := by simpa [start, hrow] using hi
    have hcount := h.tailRows_row hn hs.searching.sound hi
    have hmask : s.start.rowmask.bit i = false := (setSize_good s.rowSize).2 i
    rw [hmask, vec_eq_getElem (by simpa [start, hrow] using hi)] at hcount
    simp [hcount]
  obtain ⟨csum, hsort, -⟩ := hs.sortCol_spec hrows
  have hzero : s.start.rowmask.count < s.rowSize := by
    have hcount : s.start.rowmask.count = 0 := rfl
    omega
  have hleave : s.searchStep s.start = .inr (.printExit [0, 1]) := by
    rw [searchStep, if_pos hzero, h.tailRows_iteration hn]
  have hcompress : s.reduceColCompressAll 3 [0, 1] = some [0] := by
    have e1 : s.compressRound (0, [[0, 1]]) = .inl (1, [[0, 1], [0]]) := by
      simp [compressRound, extend, coversWithout, l0, l1]
    have e2 : s.compressRound (1, [[0, 1], [0]]) = .inl (1, [[0]]) := by
      simp [compressRound, extend, coversWithout, l2]
    have e3 : s.compressRound (1, [[0]]) = .inr [[0]] := by
      simp [compressRound]
    rw [reduceColCompressAll, loop_stay _ e1, loop_stay _ e2, loop_leave _ e3]
    simp [bestSol]
  rw [hs.solveMinCol_eq hrows, hsort, Option.bind_some, loop_leave _ hleave, Option.bind_some]
  simp [finish_eq, hcompress, l0, h.signals]

end

/-- The last row is not in the first column. -/
theorem tailRows_not_covers {n : Nat} (hn : 64 < n) : ¬Covers [0, 1] (tailRows n) [0] := by
  intro h
  obtain ⟨k, hk, hbit, hsel⟩ := h [decide (n - 1 < n - 64), decide (n - 64 ≤ n - 1)]
    (List.mem_map.2 ⟨n - 1, List.mem_range.2 (by omega), rfl⟩)
  match k, hk with
  | 0, _ =>
    have hbit : n - 1 < n - 64 := of_decide_eq_true hbit
    omega
  | 1, _ => exact absurd hsel (by decide)

theorem fill_tailRows (n : Nat) :
    Filled [0, 1] (fun _ => 1) (fill [0, 1] (fun _ => 1) [tailRows n]) (tailRows n) := by
  have h := fill_filled [0, 1] (fun _ => 1) [tailRows n]
  rwa [List.flatten_singleton] at h

/-- **All instances** with a number of rows are covered exactly if the number is not a multiple of 64
or is at most 64. -/
theorem solveMinCol_covers_iff (n : Nat) :
    (∀ (signals : List NodeId) (weight : NodeId → Int) (batches : List (List (List Bool)))
      (fuel : Nat) (sel : List NodeId), (∀ x ∈ signals, 0 < weight x) →
      batches.flatten.length = n → (fill signals weight batches).solveMinCol fuel = some (1, sel) →
      Covers signals batches.flatten sel) ↔ n % 64 ≠ 0 ∨ n ≤ 64 := by
  constructor
  · intro hall
    by_contra hn
    push Not at hn
    have hcover := hall [0, 1] (fun _ => 1) [tailRows n] 3 [0] (fun _ _ => Int.one_pos)
      (by rw [List.flatten_singleton, length_tailRows])
      ((fill_tailRows n).tailRows_solve hn.2 hn.1)
    rw [List.flatten_singleton] at hcover
    exact tailRows_not_covers hn.2 hcover
  · rintro hn signals weight batches fuel sel hw rfl hsel
    have hf := fill_filled signals weight batches
    exact hf.covers hw (.of_rows (hf.rowSize.symm ▸ hn)) hsel

/-- The columns have the first 64 rows, the first 80, the last 48 and the last 64. -/
def staggeredRows : List (List Bool) := (List.range 128).map fun i =>
  [decide (i < 64), decide (i < 80), decide (80 ≤ i), decide (64 ≤ i)]

-- A false cover need not be reported: the search leaves with twice the first column, the second one
-- takes its place, and the last test refuses it.
example : (fill [0, 1, 2, 3] (fun _ => 1) [staggeredRows]).solveMinCol 3 = some (0, [1]) := by
  decide +kernel

end Setcover

end Msyn.SC
