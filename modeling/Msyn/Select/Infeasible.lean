import Msyn.Select.MinColExclude

/-!
# Exclusions that leave a row without a column

The copies of the matrix without the excluded columns are a matrix of their own (`withCopies`), which
the search is about. `SolveMinCol_ExRange` reports an excluded row at once. `SolveMinCol` goes on
with the search, which cannot cover that row: it only returns if the columns that are left can
deceive the cover tests (`Deceptive`), and then with some columns selected
(`solveMinColInEx_reports_iff`).
-/

namespace Msyn.SC

open Nodecircuit Bitprocess Bitvector

namespace Setcover

theorem count_eq_zero_iff {v : Bitvector} (hv : v.Good) : v.count = 0 ↔ ∀ i, v.bit i = false := by
  constructor
  · intro h0 i
    by_contra hi
    rw [Bool.not_eq_false] at hi
    have hlt : i < v.bsize := by
      by_contra hge
      rw [hv.beyond i (by omega)] at hi
      cases hi
    have hpos : 0 < (List.range v.bsize).countP v.bit :=
      List.countP_pos_iff.2 ⟨i, List.mem_range.2 hlt, hi⟩
    have hc : v.count = _ := hv.counter
    omega
  · intro h
    by_contra h0
    obtain ⟨i, -, hi⟩ := exists_bit hv h0
    rw [h i] at hi
    cases hi

/-! ## The excluded columns are cleared -/

/-- The matrix of the copies. -/
def withCopies (s : Setcover) (rows cols : List Bitvector) : Setcover :=
  { s with signals := [], pvaluesRow := rows, pvaluesCol := cols }

/-- The copies of the columns without those of `l`. -/
def clearCols (s : Setcover) (l : List Nat) : List Bitvector :=
  l.foldl (fun cols col => cols.set col (vec cols col).clear) s.start.cols

def resetRows (s : Setcover) (l : List Nat) : List Bitvector :=
  l.foldl (fun rows col => rows.map (·.reset col)) s.start.rows

/-- The search before its first iteration. -/
def startWithout (s : Setcover) (l : List Nat) : Search where
  rowmask := s.start.rowmask
  rows := s.resetRows l
  cols := s.clearCols l

theorem reset_fold {n : Nat} (l : List Nat) (hl : ∀ k ∈ l, k < n) {rows : List Bitvector}
    (hg : ∀ i < rows.length, (vec rows i).Good ∧ (vec rows i).bsize = n) {rows' : List Bitvector}
    (h : l.foldl (fun rows col => rows.map (·.reset col)) rows = rows') :
    rows'.length = rows.length ∧ ∀ i < rows.length,
      ((vec rows' i).Good ∧ (vec rows' i).bsize = n) ∧
        ∀ k, (vec rows' i).bit k = ((vec rows i).bit k && !decide (k ∈ l)) := by
  induction l generalizing rows with
  | nil =>
    rw [← h]
    exact ⟨rfl, fun i hi => ⟨hg i hi, fun k => by simp⟩⟩
  | cons col l ih =>
    have hreset : ∀ i < rows.length, ((vec (rows.map (·.reset col)) i).Good ∧
        (vec (rows.map (·.reset col)) i).bsize = n) ∧ ∀ k,
          (vec (rows.map (·.reset col)) i).bit k = ((vec rows i).bit k && !decide (k = col)) := by
      intro i hi
      obtain ⟨h1, h2⟩ := hg i hi
      obtain ⟨r1, r2, r3⟩ := h1.reset col (h2.symm ▸ hl col (by simp))
      rw [vec_map _ hi]
      exact ⟨⟨r1, r2.trans h2⟩, r3⟩
    obtain ⟨h1, h2⟩ := ih (fun k hk => hl k (by simp [hk]))
      (fun i hi => (hreset i (by simpa using hi)).1) h
    rw [List.length_map] at h1 h2
    refine ⟨h1, fun i hi => ⟨(h2 i hi).1, fun k => ?_⟩⟩
    rw [(h2 i hi).2, (hreset i hi).2]
    by_cases hk : k = col <;> simp [hk]

section
variable {s : Setcover} (hs : (s.withCopies s.pvaluesRow s.pvaluesCol).WellFormed) {l : List Nat}
  (hl : ∀ k ∈ l, k < s.colSize)
include hs

/-- The copies at the start are the matrix. -/
theorem start_sound : (s.withCopies s.pvaluesRow s.pvaluesCol).Sound s.start := hs.searching.sound

theorem clearCols_spec : (s.clearCols l).length = s.colSize ∧ ∀ k < s.colSize,
    ((vec (s.clearCols l) k).Good ∧ (vec (s.clearCols l) k).bsize = s.rowSize) ∧
      ∀ i, (vec (s.clearCols l) k).bit i = ((vec s.pvaluesCol k).bit i && !decide (k ∈ l)) := by
  have h := start_sound hs
  have hlen : s.start.cols.length = s.colSize := h.colLength
  obtain ⟨c1, c2⟩ := clear_fold l (fun k hk => (h.col k (hlen ▸ hk)).1) rfl
  rw [hlen] at c1 c2
  refine ⟨c1, fun k hk => ⟨⟨(c2 k hk).1.1, (c2 k hk).1.2.trans (h.col k hk).2⟩, fun i => ?_⟩⟩
  have hbit : (vec s.start.cols k).bit i = (vec s.pvaluesCol k).bit i := by
    rw [h.colBit k hk]
    show (_ && !(Bitvector.setSize s.rowSize).bit i) = _
    rw [(setSize_good s.rowSize).2, Bool.not_false, Bool.and_true]
    rfl
  rw [← hbit]
  exact (c2 k hk).2 i

include hl

theorem resetRows_spec : (s.resetRows l).length = s.rowSize ∧ ∀ i < s.rowSize,
    ((vec (s.resetRows l) i).Good ∧ (vec (s.resetRows l) i).bsize = s.colSize) ∧
      ∀ k, (vec (s.resetRows l) i).bit k = ((vec s.pvaluesRow i).bit k && !decide (k ∈ l)) := by
  have h := start_sound hs
  have hlen : s.start.rows.length = s.rowSize := h.rowLength
  obtain ⟨c1, c2⟩ := reset_fold l hl (fun i hi => h.row i (hlen ▸ hi)) rfl
  rw [hlen] at c1 c2
  refine ⟨c1, fun i hi => ⟨(c2 i hi).1, fun k => ?_⟩⟩
  have hbit : (vec s.start.rows i).bit k = (vec s.pvaluesRow i).bit k := by
    rw [h.rowBit i hi]
    show (_ && !(Bitvector.setSize s.rowSize).bit i) = _
    rw [(setSize_good s.rowSize).2, Bool.not_false, Bool.and_true]
    rfl
  rw [← hbit]
  exact (c2 i hi).2 k

/-- **The copies** are a matrix, and the search starts with all of it. -/
theorem withCopies_start : (s.withCopies (s.resetRows l) (s.clearCols l)).WellFormed ∧
    (s.withCopies (s.resetRows l) (s.clearCols l)).Sound (s.startWithout l) := by
  obtain ⟨r1, r2⟩ := resetRows_spec hs hl
  obtain ⟨c1, c2⟩ := clearCols_spec hs (l := l)
  have hmask := setSize_good s.rowSize
  refine ⟨⟨hs.pos, c1, fun k hk => (c2 k hk).1, fun i hi => (r2 i hi).1, fun i hi k hk => ?_,
    fun x hx => absurd hx List.not_mem_nil⟩,
    ⟨hmask.1, rfl, fun p hp => absurd hp List.not_mem_nil, fun i => ?_, c1,
      fun k hk => (c2 k hk).1, fun k hk i => ?_, r1, fun i hi => (r2 i hi).1, fun i hi k => ?_⟩⟩
  · show (vec (s.resetRows l) i).bit k = (vec (s.clearCols l) k).bit i
    rw [(r2 i hi).2, (c2 k hk).2]
    exact congrArg (· && _) (hs.agree i hi k hk)
  · show (Bitvector.setSize s.rowSize).bit i = true ↔ ∃ p ∈ [], _
    simp [hmask.2]
  · show _ = (_ && !(Bitvector.setSize s.rowSize).bit i)
    rw [hmask.2, Bool.not_false, Bool.and_true]
    rfl
  · show _ = (_ && !(Bitvector.setSize s.rowSize).bit i)
    rw [hmask.2, Bool.not_false, Bool.and_true]
    rfl

/-- A row all of whose columns are cleared. -/
theorem resetRows_zero {r : Nat} (hr : r < s.rowSize)
    (hrl : ∀ k < s.colSize, (vec s.pvaluesCol k).bit r = true → k ∈ l) :
    (s.resetRows l).any (·.count = 0) = true := by
  obtain ⟨r1, r2⟩ := resetRows_spec hs hl
  refine List.any_eq_true.2 ⟨vec (s.resetRows l) r, ?_, decide_eq_true ?_⟩
  · rw [vec_eq_getElem (r1.symm ▸ hr)]
    exact List.getElem_mem _
  · refine (count_eq_zero_iff (r2 r hr).1.1).2 fun k => ?_
    by_cases hk : k < s.colSize
    · have hag : (vec s.pvaluesRow r).bit k = (vec s.pvaluesCol k).bit r := hs.agree r hr k hk
      rw [(r2 r hr).2, hag]
      cases hb : (vec s.pvaluesCol k).bit r with
      | false => rfl
      | true => simp [hrl k hk hb]
    · exact (r2 r hr).1.1.beyond k (by rw [(r2 r hr).1.2]; omega)

end

/-! ## What is left is not empty -/

theorem sortWei_ne_nil {s : Setcover} {sol sol' : List Nat} (hne : sol ≠ [])
    (h : s.sortWei sol = some sol') : sol' ≠ [] := fun hnil =>
  hne (List.Perm.nil_eq (hnil ▸ Quicksort.sort_perm s.weightOf hne h)).symm

theorem finishSorted_eq (s : Setcover) (fuel : Nat) (csum : List Nat) (inexcluded : List InExType)
    (sol : List Nat) : s.finishSorted fuel csum inexcluded sol =
      (if 2 ≤ sol.length ∧ sol.length ≤ 5 then
          (s.sortWei sol).bind (s.reduceColCompressAll fuel)
        else if 6 ≤ sol.length then (s.sortWei sol).map s.reduceColCompress
        else some sol).bind fun sol =>
      (if 5 < sol.length then (s.sortWei sol).bind (s.reduceColReplace31 fuel csum inexcluded)
        else some sol).bind fun sol =>
      (if 2 ≤ sol.length ∧ sol.length ≤ 5 then
          (s.sortWei sol).bind (s.reduceColReplace21Traverse fuel csum inexcluded)
        else if 6 ≤ sol.length then (s.sortWei sol).bind (s.reduceColReplace21 fuel csum inexcluded)
        else some sol).bind fun sol =>
      some (if isSolutionLite s.pvaluesCol s.nomask sol then 1 else 0,
        sol.map fun p => s.signals.getD p 0) := by
  simp only [finishSorted, ite_bind]
  rfl

section
variable {s : Setcover} (htest : isSolutionLite s.pvaluesCol s.nomask [] = false)
include htest

theorem without_ne_nil {sol : List Nat} {x : Nat} (h : s.coversWithout sol x = true) :
    sol.filter (· ≠ x) ≠ [] := by
  intro hnil
  rw [coversWithout, hnil, htest] at h
  cases h

theorem compressFrom_ne_nil {done rest : List Nat} (h : done ++ rest ≠ []) :
    s.compressFrom done rest ≠ [] := by
  induction rest generalizing done with
  | nil =>
    rw [List.append_nil] at h
    exact h
  | cons x rest ih =>
    unfold compressFrom
    split
    · rename_i hx
      refine ih fun hnil => without_ne_nil htest hx ?_
      obtain ⟨rfl, rfl⟩ := List.append_eq_nil_iff.1 hnil
      simp
    · exact ih (by simp)

/-- **Some column stays** in a solution that is not empty. -/
theorem finishSorted_ne_nil {fuel : Nat} {csum : List Nat} {inexcluded : List InExType}
    {sol : List Nat} (hne : sol ≠ []) {res : Nat × List NodeId}
    (h : s.finishSorted fuel csum inexcluded sol = some res) : res.2 ≠ [] := by
  have hrep : ∀ (sol : List Nat) (i : Nat) (js sol' : List Nat), (i :: js).Pairwise (· < ·) →
      (∀ p ∈ i :: js, p < sol.length) → sol ≠ [] →
      s.replaceAt csum inexcluded sol (i :: js) = some (some sol') → sol' ≠ [] := by
    intro sol i js sol' _ _ _ hr
    unfold replaceAt at hr
    dsimp only at hr
    split at hr
    · cases hr
    · cases hr
    · obtain ⟨sol1, h1, he⟩ := Option.map_eq_some_iff.1 hr
      rw [← Option.some.inj he]
      exact sortWei_ne_nil (by simp) h1
  rw [finishSorted_eq] at h
  obtain ⟨sol1, h1, h⟩ := Option.bind_eq_some_iff.1 h
  have n1 : sol1 ≠ [] := by
    split at h1
    · obtain ⟨sol0, h0, h1⟩ := Option.bind_eq_some_iff.1 h1
      exact reduceColCompressAll_all (P := (· ≠ [])) (fun _ _ _ _ ht => without_ne_nil htest ht)
        (sortWei_ne_nil hne h0) h1
    · split at h1
      · obtain ⟨sol0, h0, rfl⟩ := Option.map_eq_some_iff.1 h1
        exact compressFrom_ne_nil htest (sortWei_ne_nil hne h0)
      · cases h1
        exact hne
  obtain ⟨sol2, h2, h⟩ := Option.bind_eq_some_iff.1 h
  have n2 : sol2 ≠ [] := by
    split at h2
    · obtain ⟨sol0, h0, h2⟩ := Option.bind_eq_some_iff.1 h2
      exact reduceColReplace31_all hrep (sortWei_ne_nil n1 h0) h2
    · cases h2
      exact n1
  obtain ⟨sol3, h3, h⟩ := Option.bind_eq_some_iff.1 h
  have n3 : sol3 ≠ [] := by
    split at h3
    · obtain ⟨sol0, h0, h3⟩ := Option.bind_eq_some_iff.1 h3
      refine reduceColReplace21Traverse_all hrep (fun sol start hs hnil => hs ?_)
        (sortWei_ne_nil n2 h0) h3
      rw [← List.take_append_drop start sol, (List.append_eq_nil_iff.1 hnil).1,
        (List.append_eq_nil_iff.1 hnil).2, List.append_nil]
    · split at h3
      · obtain ⟨sol0, h0, h3⟩ := Option.bind_eq_some_iff.1 h3
        exact reduceColReplace21_all hrep (sortWei_ne_nil n2 h0) h3
      · cases h3
        exact n2
  cases h
  exact fun hnil => n3 (List.map_eq_nil_iff.1 hnil)

end

/-! ## The excluded columns -/

/-- The column is one that `InExcludeSigs` flags as excluded. -/
def ExcludedCol (s : Setcover) (excludedSigs : List NodeId) (k : Nat) : Prop :=
  (s.inExcludeSigsFull s.start.rows s.start.cols [] excludedSigs []
    (List.replicate s.colSize .noInEx) s.start.rowmask true).inexcluded.getD k .noInEx = .excludedFlag

instance (s : Setcover) (excludedSigs : List NodeId) (k : Nat) :
    Decidable (s.ExcludedCol excludedSigs k) := inferInstanceAs (Decidable (_ = _))

section
variable {s : Setcover} (hsig : s.colSize = s.signals.length) {excludedSigs : List NodeId}

/-- The columns that `InExcludeSigs` clears. -/
def excludecol (s : Setcover) (excludedSigs : List NodeId) : List Nat :=
  (s.flagScan (excludedSigs, []) (List.replicate s.colSize .noInEx)).excludecol

theorem dropCommon_nil (excludedSigs : List NodeId) :
    dropCommon excludedSigs [] = (excludedSigs, []) := if_neg fun h => h.2 rfl

include hsig

theorem mem_excludecol {k : Nat} :
    k ∈ s.excludecol excludedSigs ↔ k < s.colSize ∧ s.ExcludedCol excludedSigs k := by
  have hscan := flagScan_spec (s := s) (excludedSigs, [])
  rw [← hsig] at hscan
  rw [excludecol, ExcludedCol, inExcludeSigsFull_inexcluded, dropCommon_nil, hscan.excludecol, ← hsig]
  refine and_congr_right fun hk => ?_
  rw [hscan.flags k (hsig ▸ hk), flagAt_excluded]
  exact (and_iff_left fun hinc => List.not_mem_nil hinc.2.1).symm

/-- The signals are listed: in a duplicate-free list all their columns are excluded. -/
theorem excludedCol_of_mem (hnd : s.signals.Nodup) {k : Nat} (hk : k < s.colSize)
    (hmem : s.signals.getD k 0 ∈ excludedSigs) : s.ExcludedCol excludedSigs k := by
  have hscan := flagScan_spec (s := s) (excludedSigs, [])
  rw [← hsig] at hscan
  rw [ExcludedCol, inExcludeSigsFull_inexcluded, dropCommon_nil, hscan.flags k (hsig ▸ hk),
    flagAt_excluded]
  have hk' : k < s.signals.length := hsig ▸ hk
  have hmet := met_lt s.weight hnd hk' hmem
  refine ⟨?_, fun hinc => List.not_mem_nil hinc.2.1⟩
  by_cases hw : s.weight (s.signals.getD k 0) = 0
  · exact .inl ⟨hw, .inr (.inl hmet)⟩
  · exact .inr ⟨hw, hmem, hmet⟩

end

/-! ## The solvers -/

/-- Some row has ones in excluded columns only. -/
def Infeasible (s : Setcover) (all : List (List Bool)) (excludedSigs : List NodeId) : Prop :=
  ∃ row ∈ all, ∀ k < s.colSize, row.getD k false = true → s.ExcludedCol excludedSigs k

/-- The solver ends and returns 0. -/
def Reports (run : Nat → Option (Nat × List NodeId)) : Prop := ∃ fuel sel, run fuel = some (0, sel)

section
variable {s : Setcover} (hs : (s.withCopies s.pvaluesRow s.pvaluesCol).WellFormed)
include hs

/-- A row has a column at the start if the matrix has. -/
theorem start_rows (hones : ∀ i < s.rowSize, ∃ k < s.colSize, (vec s.pvaluesCol k).bit i = true) :
    s.start.rows.any (·.count = 0) = false := by
  have h := start_sound hs
  rw [List.any_eq_false]
  intro v hv h0
  obtain ⟨i, hi, rfl⟩ := List.getElem_of_mem hv
  have hi' : i < s.rowSize := h.rowLength ▸ hi
  rw [← vec_eq_getElem hi, decide_eq_true_eq, count_eq_zero_iff (h.row i hi').1] at h0
  obtain ⟨k, hk, hbit⟩ := hones i hi'
  have hrow := h0 k
  have hmask : s.start.rowmask.bit i = false := (setSize_good s.rowSize).2 i
  have hag : (vec s.pvaluesRow i).bit k = (vec s.pvaluesCol k).bit i := hs.agree i hi' k hk
  rw [h.rowBit i hi', hmask, Bool.not_false, Bool.and_true] at hrow
  rw [← hag] at hbit
  exact Bool.false_ne_true (hrow.symm.trans hbit)

/-- The cover test is not passed by no columns, where it has a word to look at before the last. -/
theorem lite_nil (hcol : 0 < s.colSize) (hn : 64 < s.rowSize) :
    isSolutionLite s.pvaluesCol s.nomask [] = false := by
  rw [← Bool.not_eq_true]
  intro h
  rcases (hs.lite_iff hcol []).1 h with hall | ⟨-, hall, -⟩
  · exact Bool.false_ne_true (hall 0 hs.pos)
  · refine Bool.false_ne_true (hall 0 ?_)
    show 0 < s.rowSize - 64
    omega

variable {r : Nat} (hr : r < s.rowSize)
include hr

/-- `InExcludeSigs_Range` returns 0 if all columns of a row are in the range. -/
theorem inExcludeSigsRange_ret {a b : Int}
    (hab : ∀ k < s.colSize, (vec s.pvaluesCol k).bit r = true → a ≤ k ∧ k ≤ b)
    (flags : List InExType) :
    (s.inExcludeSigsRange s.start.rows s.start.cols a b flags).1 = 0 := by
  unfold inExcludeSigsRange
  by_cases hgt : a > b
  · rw [if_pos hgt]
  · rw [if_neg hgt]
    refine if_pos (resetRows_zero hs (fun k hk => List.mem_range.1 (List.mem_filter.1 hk).1) hr
      fun k hk hb => List.mem_filter.2 ⟨List.mem_range.2 hk, decide_eq_true ?_⟩)
    have := hab k hk hb
    split_ifs <;> omega

variable {l : List Nat} (hl : ∀ k ∈ l, k < s.colSize)
  (hrl : ∀ k < s.colSize, (vec s.pvaluesCol k).bit r = true → k ∈ l)
include hl hrl

/-- **The search without the columns of a row**, with all that follows: it only returns after a false
cover of the columns that are left, and with some column. -/
theorem searchAndFinish_missed (hcol : 0 < s.colSize) {fuel : Nat} {inexcluded : List InExType}
    {res : Nat × List NodeId}
    (h : s.searchAndFinish s.scanRowInEx fuel inexcluded (s.startWithout l) = some res) :
    (∃ sol, (s.withCopies (s.resetRows l) (s.clearCols l)).FalseCover sol) ∧ res.2 ≠ [] := by
  obtain ⟨hwf, hsound⟩ := withCopies_start hs hl
  obtain ⟨-, c2⟩ := clearCols_spec hs (l := l)
  have hun : ∀ k < s.colSize, (vec (s.clearCols l) k).bit r = false := fun k hk => by
    rw [(c2 k hk).2]
    cases hb : (vec s.pvaluesCol k).bit r with
    | false => rfl
    | true => simp [hrl k hk hb]
  have hscan : (s.withCopies (s.resetRows l) (s.clearCols l)).GoodScan s.scanRowInEx :=
    GoodScan.inEx (goodScan hwf)
  obtain ⟨csum, -, h⟩ := Option.bind_eq_some_iff.1 h
  obtain ⟨e, hloop, h⟩ := Option.bind_eq_some_iff.1 h
  have hmiss := searchChecked_missed (s := s.withCopies (s.resetRows l) (s.clearCols l)) hr hun
    hsound hscan hcol hloop
  cases e with
  | outOfRange => cases h
  | exit e =>
    cases e with
    | noSolution => exact hmiss.elim
    | printExit sol =>
      have hfalse : (s.withCopies (s.resetRows l) (s.clearCols l)).FalseCover sol := hmiss
      exact ⟨⟨sol, hfalse⟩, finishSorted_ne_nil (lite_nil hs hcol hfalse.many) hfalse.ne_nil h⟩

end

section
variable {s : Setcover} {all : List (List Bool)} {sigs : List NodeId} {weight : NodeId → Int}
  (hf : Filled sigs weight s all) (hne : all ≠ [])
include hf hne

theorem Filled.copies : (s.withCopies s.pvaluesRow s.pvaluesCol).WellFormed where
  pos := by
    show 0 < s.rowSize
    rw [hf.rowSize]
    exact List.length_pos_iff.2 hne
  colLength := (hf.cols.resolve_left hne).length
  col k hk := (hf.col_bit hne hk).1
  row i hi := by
    have hi' : i < all.length := hf.rowSize ▸ hi
    show (vec s.pvaluesRow i).Good ∧ (vec s.pvaluesRow i).bsize = s.colSize
    rw [hf.rows, vec_eq_getElem (by simpa using hi'), List.getElem_map]
    exact ⟨(s.newRow_spec _).1, (s.newRow_spec _).2.1⟩
  agree i hi k hk := by
    have hi' : i < all.length := hf.rowSize ▸ hi
    have hk : k < s.colSize := hk
    show (vec s.pvaluesRow i).bit k = (vec s.pvaluesCol k).bit i
    rw [(hf.col_bit hne hk).2, hf.rows, vec_eq_getElem (by simpa using hi'), List.getElem_map,
      (s.newRow_spec _).2.2, decide_eq_true hk, Bool.true_and, List.getD_eq_getElem _ _ hi']
  weight x hx := absurd hx List.not_mem_nil

end

section
variable {s : Setcover} {all : List (List Bool)} {sigs : List NodeId} {weight : NodeId → Int}
  (hf : Filled sigs weight s all) {excludedSigs : List NodeId}
  (hones : ∀ row ∈ all, ∃ k < sigs.length, row.getD k false = true)
  (hin : s.Infeasible all excludedSigs)
include hf hones hin

/-- The matrix, of which the columns of some row are excluded. -/
theorem Filled.infeasible_row : (s.withCopies s.pvaluesRow s.pvaluesCol).WellFormed ∧
    s.start.rows.any (·.count = 0) = false ∧ ∃ r < s.rowSize,
      (∃ k < s.colSize, (vec s.pvaluesCol k).bit r = true) ∧
        ∀ k < s.colSize, (vec s.pvaluesCol k).bit r = true → s.ExcludedCol excludedSigs k := by
  obtain ⟨row, hrow, honly⟩ := hin
  have hne : all ≠ [] := List.ne_nil_of_mem hrow
  have hbit : ∀ (i : Nat) (hi : i < all.length), ∀ k < s.colSize,
      (vec s.pvaluesCol k).bit i = all[i].getD k false := fun i hi k hk => by
    rw [(hf.col_bit hne hk).2, List.getD_eq_getElem _ _ hi]
  have hone : ∀ i < s.rowSize, ∃ k < s.colSize, (vec s.pvaluesCol k).bit i = true := by
    intro i hi
    have hi' : i < all.length := hf.rowSize ▸ hi
    obtain ⟨k, hk, hone⟩ := hones _ (List.getElem_mem hi')
    exact ⟨k, hf.colSize.symm ▸ hk, (hbit i hi' k (hf.colSize.symm ▸ hk)).trans hone⟩
  obtain ⟨r, hr, rfl⟩ := List.getElem_of_mem hrow
  have hr' : r < s.rowSize := hf.rowSize.symm ▸ hr
  exact ⟨hf.copies hne, start_rows (hf.copies hne) hone, r, hr', hone r hr', fun k hk hb =>
    honly k hk ((hbit r hr k hk).symm.trans hb)⟩

/-- **`SolveMinCol`** only returns if the columns that are left are deceptive, and then with some
column. -/
theorem Filled.solveMinColInEx_missed {fuel : Nat} {res : Nat × List NodeId}
    (h : s.solveMinColInEx fuel excludedSigs [] = some res) :
    Deceptive s all (s.ExcludedCol excludedSigs) ∧ res.2 ≠ [] := by
  obtain ⟨hs, hstart, r, hr, ⟨k0, hk0, hb0⟩, hex⟩ := hf.infeasible_row hones hin
  have hsig : s.colSize = s.signals.length := by rw [hf.signals]; exact hf.colSize
  have hl : ∀ k ∈ s.excludecol excludedSigs, k < s.colSize := fun k hk =>
    ((mem_excludecol hsig).1 hk).1
  have hrl : ∀ k < s.colSize, (vec s.pvaluesCol k).bit r = true → k ∈ s.excludecol excludedSigs :=
    fun k hk hb => (mem_excludecol hsig).2 ⟨hk, hex k hk hb⟩
  -- `InExcludeSigs` returns 0, with the columns cleared
  have hrun : s.searchAndFinish s.scanRowInEx fuel
      (s.flagScan (excludedSigs, []) (List.replicate s.colSize .noInEx)).inexcluded
      (s.startWithout (s.excludecol excludedSigs)) = some res := by
    rw [← h]
    unfold solveMinColInEx
    rw [if_neg (by rw [hstart]; exact Bool.false_ne_true)]
    unfold inExcludeSigsFull
    simp only [dropCommon_nil]
    rw [if_pos ⟨List.ne_nil_of_mem (hrl k0 hk0 hb0), resetRows_zero hs hl hr hrl⟩]
    rfl
  obtain ⟨⟨sol, hfalse⟩, hne⟩ :=
    searchAndFinish_missed hs hr hl hrl (Nat.zero_lt_of_lt hk0) hrun
  obtain ⟨-, c2⟩ := clearCols_spec hs (l := s.excludecol excludedSigs)
  refine ⟨hf.deceptive hfalse.mem hfalse.many (fun p hp i => ?_) hfalse.last, hne⟩
  show (vec (s.clearCols (s.excludecol excludedSigs)) p).bit i = true ↔ _
  rw [(c2 p hp).2, Bool.and_eq_true, Bool.not_eq_true', decide_eq_false_iff_not, mem_excludecol hsig,
    and_iff_right hp, and_comm]

/-- **`SolveMinCol_ExRange`** reports the excluded columns as a range. -/
theorem Filled.solveMinColExRange_reports {a b : Int}
    (hab : ∀ k < sigs.length, s.ExcludedCol excludedSigs k ↔ a ≤ k ∧ k ≤ b) (fuel : Nat) :
    s.solveMinColExRange fuel a b = some (0, []) := by
  obtain ⟨hs, hstart, r, hr, -, hex⟩ := hf.infeasible_row hones hin
  have hret := inExcludeSigsRange_ret hs hr (a := a) (b := b)
    (fun k hk hb => (hab k (hf.colSize ▸ hk)).1 (hex k hk hb)) (List.replicate s.colSize .noInEx)
  unfold solveMinColExRange
  rw [if_neg (by rw [hstart]; exact Bool.false_ne_true)]
  dsimp only
  rw [if_pos hret]

end

/-- **An infeasible exclusion is reported** by `SolveMinCol` only where the columns that are left are
deceptive: elsewhere it does what it should exactly if the exclusion is feasible. Also where it
returns 0 it has selected some column. `SolveMinCol_ExRange` reports the same columns as a range. -/
theorem solveMinColInEx_reports_iff {sigs : List NodeId} {weight : NodeId → Int}
    {batches : List (List (List Bool))}
    (hones : ∀ row ∈ batches.flatten, ∃ k < sigs.length, row.getD k false = true)
    (excludedSigs : List NodeId) :
    let s := fill sigs weight batches
    (¬Deceptive s batches.flatten (s.ExcludedCol excludedSigs) →
      ((s.Infeasible batches.flatten excludedSigs →
        Reports fun fuel => s.solveMinColInEx fuel excludedSigs []) ↔
          ¬s.Infeasible batches.flatten excludedSigs)) ∧
    (s.Infeasible batches.flatten excludedSigs →
      (∀ fuel res, s.solveMinColInEx fuel excludedSigs [] = some res → res.2 ≠ []) ∧
      ∀ a b : Int, (∀ k < sigs.length, s.ExcludedCol excludedSigs k ↔ a ≤ k ∧ k ≤ b) →
        ∀ fuel, s.solveMinColExRange fuel a b = some (0, [])) := by
  intro s
  have hf : Filled sigs weight s batches.flatten := fill_filled sigs weight batches
  refine ⟨fun hd => ⟨fun hrep hin => ?_, fun hfeas hin => absurd hin hfeas⟩, fun hin => ⟨?_, ?_⟩⟩
  · obtain ⟨fuel, sel, hrun⟩ := hrep hin
    exact hd (hf.solveMinColInEx_missed hones hin hrun).1
  · exact fun fuel res hrun => (hf.solveMinColInEx_missed hones hin hrun).2
  · exact fun a b hab fuel => hf.solveMinColExRange_reports hones hin hab fuel

/-- The columns have the last 64 of 128 rows, the first 64, the first 65, and row 64. -/
def overlapRows : List (List Bool) := (List.range 128).map fun i =>
  [decide (64 ≤ i), decide (i < 64), decide (i < 65), decide (i = 64)]

-- Without the first column the search leaves with twice the second one, the third one takes its
-- place, and the last test refuses it.
example : (fill [0, 1, 2, 3] (fun _ => 1) [overlapRows]).solveMinColInEx 3 [0] [] =
    some (0, [2]) := by
  decide +kernel

/-- The second of two rows has its only 1 in the column of the signal 1, which is excluded. -/
def splitRows : List (List (List Bool)) := [[[true, false], [false, true]]]

theorem splitRows_infeasible :
    (fill [0, 1] (fun _ => 1) splitRows).Infeasible splitRows.flatten [1] :=
  ⟨[false, true], by decide, by decide⟩

theorem solveMinColInEx_reports_iff_split :
    ¬Reports fun fuel => (fill [0, 1] (fun _ => 1) splitRows).solveMinColInEx fuel [1] [] := by
  have h := (@solveMinColInEx_reports_iff [0, 1] (fun _ => 1) splitRows (by decide) [1]).1
    fun hd => absurd hd.1 (by decide)
  exact fun hrep => h.1 (fun _ => hrep) splitRows_infeasible

/-- The search covers the first row and then reads `csum_sortindex[-1]`. -/
theorem solveMinColInEx_unreported : ∃ (sigs : List NodeId) (weight : NodeId → Int)
    (batches : List (List (List Bool))) (excludedSigs : List NodeId),
    (∀ row ∈ batches.flatten, ∃ k < sigs.length, row.getD k false = true) ∧
    (fill sigs weight batches).Infeasible batches.flatten excludedSigs ∧
      ∀ fuel, (fill sigs weight batches).solveMinColInEx fuel excludedSigs [] = none := by
  refine ⟨[0, 1], fun _ => 1, splitRows, [1], by decide, splitRows_infeasible, fun fuel => ?_⟩
  cases fuel with
  | zero => rfl
  | succ fuel => rfl

end Setcover

end Msyn.SC
