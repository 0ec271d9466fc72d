import Msyn.Select.MinColRows

/-!
# The search finds covers

Every jump of the search to `PRINT_EXIT` comes with a cover of all rows, or with what the cover tests
take for one: columns that have all rows but the last 64, of a larger multiple of 64 (`FalseCover`,
`search_leaves`). A cover of more than one column is only found where no column alone covers all rows.
-/

namespace Msyn.SC

open Bitprocess Bitvector

namespace Setcover

/-- No column covers all rows. -/
def Proper (s : Setcover) : Prop :=
  ∀ k < s.colSize, ∃ i < s.rowSize, (vec s.pvaluesCol k).bit i = false

/-- The columns of the solution cover all rows. -/
structure Cover (s : Setcover) (sol : List Nat) : Prop where
  mem : ∀ p ∈ sol, p < s.colSize
  rows : ∀ i < s.rowSize, ∃ p ∈ sol, (vec s.pvaluesCol p).bit i = true

structure Found (s : Setcover) (sol : List Nat) : Prop extends Cover s sol where
  proper : 2 ≤ sol.length → s.Proper

/-- The cover tests take the columns for a cover, though none of the last 64 rows has one: the number
of rows is a larger multiple of 64, and all other rows are covered. -/
structure FalseCover (s : Setcover) (sol : List Nat) : Prop where
  mem : ∀ p ∈ sol, p < s.colSize
  many : 64 < s.rowSize
  last : LastWordEmpty s.rowSize fun i => sol.any fun p => (vec s.pvaluesCol p).bit i

theorem FalseCover.ne_nil {s : Setcover} {sol : List Nat} (h : s.FalseCover sol) : sol ≠ [] := by
  rintro rfl
  have hmany := h.many
  exact Bool.false_ne_true (h.last.2.1 0 (by omega))

/-- A jump to `PRINT_EXIT` comes with a cover, or with what a test takes for one. -/
def Leaves (s : Setcover) : Exit → Prop
  | .printExit sol => s.Found sol ∨ s.FalseCover sol
  | .noSolution => True

/-- What the search keeps: the mask is the rows that the columns of the solution cover, and the copies
are the rows and columns without these. -/
structure Sound (s : Setcover) (st : Search) : Prop where
  mask : st.rowmask.Good
  size : st.rowmask.bsize = s.rowSize
  mem : ∀ p ∈ st.curSol, p < s.colSize
  covered : ∀ i, st.rowmask.bit i = true ↔ ∃ p ∈ st.curSol, (vec s.pvaluesCol p).bit i = true
  colLength : st.cols.length = s.colSize
  col : ∀ k < s.colSize, (vec st.cols k).Good ∧ (vec st.cols k).bsize = s.rowSize
  colBit : ∀ k < s.colSize, ∀ i,
    (vec st.cols k).bit i = ((vec s.pvaluesCol k).bit i && !st.rowmask.bit i)
  rowLength : st.rows.length = s.rowSize
  row : ∀ i < s.rowSize, (vec st.rows i).Good ∧ (vec st.rows i).bsize = s.colSize
  rowBit : ∀ i < s.rowSize, ∀ k,
    (vec st.rows i).bit k = ((vec s.pvaluesRow i).bit k && !st.rowmask.bit i)

/-! ## A column is taken -/

theorem clear_fold (l : List Nat) {rows : List Bitvector} (hg : ∀ i < rows.length, (vec rows i).Good)
    {rows' : List Bitvector}
    (h : l.foldl (fun rows nn => rows.set nn (vec rows nn).clear) rows = rows') :
    rows'.length = rows.length ∧ ∀ i < rows.length, ((vec rows' i).Good ∧
      (vec rows' i).bsize = (vec rows i).bsize) ∧
        ∀ k, (vec rows' i).bit k = ((vec rows i).bit k && !decide (i ∈ l)) := by
  induction l generalizing rows with
  | nil =>
    rw [← h]
    exact ⟨rfl, fun i hi => ⟨⟨hg i hi, rfl⟩, fun k => by simp⟩⟩
  | cons nn l ih =>
    have hset : ∀ i < rows.length, vec (rows.set nn (vec rows nn).clear) i =
        if nn = i then (vec rows i).clear else vec rows i := by
      intro i hi
      rw [vec_eq_getElem (by simpa using hi), List.getElem_set]
      split
      · rename_i he
        rw [he]
      · exact (vec_eq_getElem hi).symm
    have hg' : ∀ i < (rows.set nn (vec rows nn).clear).length,
        (vec (rows.set nn (vec rows nn).clear) i).Good := by
      intro i hi
      rw [List.length_set] at hi
      rw [hset i hi]
      split
      · exact (hg i hi).clear.1
      · exact hg i hi
    obtain ⟨h1, h2⟩ := ih hg' h
    rw [List.length_set] at h1 h2
    refine ⟨h1, fun i hi => ?_⟩
    obtain ⟨h3, h4⟩ := h2 i hi
    rw [hset i hi] at h3 h4
    by_cases he : nn = i
    · rw [if_pos he] at h3 h4
      refine ⟨h3, fun k => ?_⟩
      rw [h4, (hg i hi).clear.2, he]
      simp
    · rw [if_neg he] at h3 h4
      refine ⟨h3, fun k => ?_⟩
      have hne : ¬ i = nn := fun h => he h.symm
      rw [h4]
      simp [hne]

section
variable {s : Setcover} {st : Search}

theorem Sound.take (h : s.Sound st) {p : Nat} (hp : p < s.colSize) : s.Sound (st.take p) ∧
    ∀ i, (st.take p).rowmask.bit i = (st.rowmask.bit i || (vec s.pvaluesCol p).bit i) := by
  obtain ⟨hcol, hsize⟩ := h.col p hp
  obtain ⟨o1, o2, o3⟩ := h.mask.orCount hcol (hsize.trans h.size.symm)
  have hbit : ∀ i, (st.rowmask.orCount (vec st.cols p)).bit i =
      (st.rowmask.bit i || (vec s.pvaluesCol p).bit i) := by
    intro i
    rw [o3, h.colBit p hp]
    cases st.rowmask.bit i <;> simp
  have hset : ∀ i < s.rowSize, decide (i ∈ (st.rowmask.orCount (vec st.cols p)).setPositions) =
      (st.rowmask.orCount (vec st.cols p)).bit i := by
    intro i hi
    rw [Bool.eq_iff_iff, decide_eq_true_iff, mem_setPositions o1, o2, h.size]
    exact and_iff_right hi
  obtain ⟨c1, c2⟩ := clear_fold (st.rowmask.orCount (vec st.cols p)).setPositions
    (fun i hi => (h.row i (h.rowLength ▸ hi)).1) rfl
  rw [h.rowLength] at c1 c2
  refine ⟨⟨o1, o2.trans h.size, ?_, ?_, ?_, ?_, ?_, c1, ?_, ?_⟩, hbit⟩
  · intro q hq
    rcases List.mem_append.1 hq with hq | hq
    · exact h.mem q hq
    · rw [List.mem_singleton.1 hq]
      exact hp
  · intro i
    show (st.rowmask.orCount (vec st.cols p)).bit i = true ↔ ∃ q ∈ st.curSol ++ [p], _
    rw [hbit, Bool.or_eq_true, h.covered]
    simp only [List.mem_append, List.mem_singleton, or_and_right, exists_or, exists_eq_left]
  · exact List.length_map _ |>.trans h.colLength
  · intro k hk
    obtain ⟨m1, m2, -⟩ := (h.col k hk).1.maskCount (st.rowmask.orCount (vec st.cols p))
    show (vec (st.cols.map _) k).Good ∧ (vec (st.cols.map _) k).bsize = _
    rw [vec_map _ (h.colLength.symm ▸ hk)]
    exact ⟨m1, m2.trans (h.col k hk).2⟩
  · intro k hk i
    obtain ⟨-, -, m3⟩ := (h.col k hk).1.maskCount (st.rowmask.orCount (vec st.cols p))
    show (vec (st.cols.map _) k).bit i = (_ && !(st.rowmask.orCount (vec st.cols p)).bit i)
    rw [vec_map _ (h.colLength.symm ▸ hk), m3, h.colBit k hk, hbit]
    cases st.rowmask.bit i <;> simp
  · intro i hi
    exact ⟨(c2 i hi).1.1, (c2 i hi).1.2.trans (h.row i hi).2⟩
  · intro i hi k
    refine ((c2 i hi).2 k).trans ?_
    show _ = (_ && !(st.rowmask.orCount (vec st.cols p)).bit i)
    rw [h.rowBit i hi, hset i hi, hbit]
    cases st.rowmask.bit i <;> simp

/-! ## Counting -/

/-- The rows of a copy and the mask are counted together. -/
theorem Sound.count_add (h : s.Sound st) {k : Nat} (hk : k < s.colSize) :
    (vec st.cols k).count + st.rowmask.count =
      (List.range s.rowSize).countP fun i => (vec st.cols k).bit i || st.rowmask.bit i := by
  have hdis : ∀ i, (vec st.cols k).bit i = true → st.rowmask.bit i = false := by
    intro i hi
    rw [h.colBit k hk, Bool.and_eq_true, Bool.not_eq_true'] at hi
    exact hi.2
  obtain ⟨hg, hs⟩ := h.col k hk
  rw [countP_or hdis, Bitvector.count, hg.counter, hs, Bitvector.count, h.mask.counter, h.size]

theorem Sound.count_le (h : s.Sound st) : st.rowmask.count ≤ s.rowSize := by
  rw [Bitvector.count, h.mask.counter, h.size]
  exact List.countP_le_length.trans (List.length_range).le

theorem Sound.count_add_le (h : s.Sound st) {k : Nat} (hk : k < s.colSize) :
    (vec st.cols k).count + st.rowmask.count ≤ s.rowSize := by
  rw [h.count_add hk]
  exact List.countP_le_length.trans (List.length_range).le

/-- A column has as many rows as are left if it covers these. -/
theorem Sound.count_eq_iff (h : s.Sound st) {k : Nat} (hk : k < s.colSize) :
    (vec st.cols k).count + st.rowmask.count = s.rowSize ↔
      ∀ i < s.rowSize, st.rowmask.bit i = true ∨ (vec s.pvaluesCol k).bit i = true := by
  have hall := List.countP_eq_length (l := List.range s.rowSize)
    (p := fun i => (vec st.cols k).bit i || st.rowmask.bit i)
  rw [List.length_range] at hall
  rw [h.count_add hk, hall]
  constructor
  · intro hr i hi
    have := hr i (List.mem_range.2 hi)
    rw [h.colBit k hk] at this
    cases hm : st.rowmask.bit i with
    | true => exact .inl rfl
    | false => exact .inr (by simpa [hm] using this)
  · intro hr i hi
    rw [h.colBit k hk]
    rcases hr i (List.mem_range.1 hi) with h1 | h1 <;> rw [h1]
    · exact Bool.or_true _
    · cases st.rowmask.bit i <;> rfl

/-- A mask that is full stands for a cover. -/
theorem Sound.full (h : s.Sound st) (hfull : st.rowmask.count = s.rowSize) : s.Cover st.curSol where
  mem := h.mem
  rows i hi := (h.covered i).1 (h.mask.full (hfull.trans h.size.symm) (h.size ▸ hi))

/-- Columns for the rows that are left. -/
structure Completes (s : Setcover) (st : Search) (best : List Nat) : Prop where
  mem : ∀ p ∈ best, p < s.colSize
  rows : ∀ i < s.rowSize, st.rowmask.bit i = true ∨ ∃ p ∈ best, (vec s.pvaluesCol p).bit i = true

theorem Sound.completes (h : s.Sound st) {best : List Nat} (hb : s.Completes st best) :
    s.Cover (st.curSol ++ best) where
  mem p hp := (List.mem_append.1 hp).elim (h.mem p) (hb.mem p)
  rows i hi := by
    rcases hb.rows i hi with hm | ⟨p, hp, hpi⟩
    · obtain ⟨p, hp, hpi⟩ := (h.covered i).1 hm
      exact ⟨p, List.mem_append_left _ hp, hpi⟩
    · exact ⟨p, List.mem_append_right _ hp, hpi⟩

theorem Sound.completes_one (h : s.Sound st) {k : Nat} (hk : k < s.colSize)
    (hc : (vec st.cols k).count + st.rowmask.count = s.rowSize) : s.Completes st [k] where
  mem p hp := by
    rw [List.mem_singleton.1 hp]
    exact hk
  rows i hi := ((h.count_eq_iff hk).1 hc i hi).imp_right fun hki => ⟨k, List.mem_singleton_self k, hki⟩

end

end Setcover

end Msyn.SC
