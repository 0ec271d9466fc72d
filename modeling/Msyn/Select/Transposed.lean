import Msyn.Select.MinColRows

/-!
# Rows and columns are transposes

`AddRows` writes every entry twice, into the vector of its row and into that of its column. After
every sequence of batches both views hold the rows of the batches, in `setcover_m` and in `setcover`
(`addRows_transposed`).
-/

namespace Msyn.SC

open Nodecircuit Bitprocess Bitvector

/-- The row vectors and the column vectors hold the rows `all`, of which each has `colSize` entries,
with right sizes and counts. -/
structure Transposed (s : Setcover.SetcoverM) (colSize : Nat) (all : List (List Bool)) : Prop where
  rowSize : s.rowSize = all.length
  rowLength : s.pvaluesRow.length = s.rowSize
  row : ∀ v ∈ s.pvaluesRow, v.size = colSize ∧ v.count = (List.range v.size).countP v.bit
  col : ∀ v ∈ s.pvaluesCol, v.size = s.rowSize ∧ v.count = (List.range v.size).countP v.bit
  entry : ∀ i < s.rowSize, ∀ j < colSize, ∃ row r c, all[i]? = some row ∧
    s.pvaluesRow[i]? = some r ∧ s.pvaluesCol[j]? = some c ∧
    row[j]? = some (r.bit j) ∧ row[j]? = some (c.bit i)

/-- What every sequence of batches leaves, in the first copy of the routine. -/
structure Written (s : Setcover.SetcoverM) (batches : List (List (List Bool))) : Prop where
  rowSize : s.rowSize = batches.flatten.length
  rows : s.pvaluesRow = batches.flatten.map s.newRow
  cols : batches = [] ∧ s.pvaluesCol = [] ∨ s.Rows batches.flatten
  mask : s.mask = setSize s.rowSize

namespace Written

variable {s : Setcover.SetcoverM} {batches : List (List (List Bool))} (h : Written s batches)
include h

theorem addRows (rows : List (List Bool)) : Written (s.addRows rows) (batches ++ [rows]) := by
  have hall : batches.flatten = [] ∨ s.Rows batches.flatten :=
    h.cols.imp_left fun hb => by rw [hb.1, List.flatten_nil]
  obtain ⟨hR, hmask⟩ := Setcover.SetcoverM.addRows_spec h.rowSize hall rows
  have hnew : (s.addRows rows).newRow = s.newRow := rfl
  have hflat : (batches ++ [rows]).flatten = batches.flatten ++ rows := by simp
  refine ⟨?_, ?_, .inr ?_, ?_⟩
  · rw [hflat]
    exact hR.rowSize
  · rw [hflat, hnew, List.map_append, ← h.rows]
    rfl
  · rw [hflat]
    exact hR
  · rw [hmask, hR.rowSize]

theorem run (later : List (List (List Bool))) :
    Written (later.foldl Setcover.SetcoverM.addRows s) (batches ++ later) := by
  induction later generalizing s batches with
  | nil =>
    rw [List.append_nil]
    exact h
  | cons rows later ih =>
    have h1 := ih (h.addRows rows)
    rwa [List.append_assoc] at h1

omit h in
/-- The rows that are there stay. -/
theorem rows_prefix (later : List (List (List Bool))) (s : Setcover.SetcoverM) :
    s.pvaluesRow <+: (later.foldl Setcover.SetcoverM.addRows s).pvaluesRow := by
  induction later generalizing s with
  | nil => exact List.prefix_rfl
  | cons rows later ih => exact (List.prefix_append _ _).trans (ih (s.addRows rows))

/-- **The two views**, when no row is too short. -/
theorem transposed (hlong : ∀ rows ∈ batches, ∀ row ∈ rows, s.colSize ≤ row.length) :
    Transposed s s.colSize batches.flatten where
  rowSize := h.rowSize
  row v hv := by
    rw [h.rows] at hv
    obtain ⟨row, -, rfl⟩ := List.mem_map.1 hv
    obtain ⟨h1, h2, -⟩ := s.newRow_spec row
    exact ⟨h2, h1.counter⟩
  col v hv := by
    rcases h.cols with ⟨-, hnil⟩ | hR
    · rw [hnil] at hv
      cases hv
    · obtain ⟨h1, h2⟩ := hR.good v hv
      exact ⟨h2.trans hR.rowSize.symm, h1.counter⟩
  rowLength := by
    rw [h.rows, List.length_map, h.rowSize]
  entry i hi j hj := by
    rw [h.rowSize] at hi
    have hR : s.Rows batches.flatten := h.cols.resolve_left fun hb => by
      rw [hb.1] at hi
      simp at hi
    have hj' : j < s.pvaluesCol.length := hR.length.symm ▸ hj
    obtain ⟨rows, hrows, hmem⟩ := List.mem_flatten.1 (List.getElem_mem hi)
    have hlen : j < batches.flatten[i].length := hj.trans_le (hlong rows hrows _ hmem)
    have hget : batches.flatten[i][j]? = some (batches.flatten[i].getD j false) := by
      rw [List.getElem?_eq_getElem hlen, List.getD_eq_getElem _ _ hlen]
    refine ⟨batches.flatten[i], s.newRow batches.flatten[i], s.pvaluesCol[j],
      List.getElem?_eq_getElem hi, ?_, List.getElem?_eq_getElem hj', ?_, ?_⟩
    · rw [h.rows, List.getElem?_map, List.getElem?_eq_getElem hi]
      rfl
    · rw [hget, (s.newRow_spec _).2.2, decide_eq_true hj, Bool.true_and]
    · rw [hget, hR.bit j hj', List.getD_eq_getElem _ _ hi]

end Written

/-- A `setcover_m` after a sequence of batches. -/
def fillM (c : Circuit) (clus : List ClusterId) (sigs : List NodeId)
    (batches : List (List (List Bool))) : Setcover.SetcoverM :=
  batches.foldl Setcover.SetcoverM.addRows (Setcover.SetcoverM.init c clus sigs)

theorem fillM_written (c : Circuit) (clus : List ClusterId) (sigs : List NodeId)
    (batches : List (List (List Bool))) : Written (fillM c clus sigs batches) batches ∧
      (fillM c clus sigs batches).colSize = sigs.length := by
  have hmask : ({} : Bitvector) = setSize 0 := by simp [setSize, mapWords, resizeData, words]
  have hinit : Written (Setcover.SetcoverM.init c clus sigs) [] :=
    ⟨rfl, rfl, .inl ⟨rfl, rfl⟩, hmask⟩
  refine ⟨hinit.run batches, ?_⟩
  have key : ∀ (bs : List (List (List Bool))) (s : Setcover.SetcoverM),
      (bs.foldl Setcover.SetcoverM.addRows s).colSize = s.colSize := by
    intro bs
    induction bs with
    | nil => exact fun s => rfl
    | cons rows bs ih => exact fun s => ih (s.addRows rows)
  exact key batches _

/-- The other copy of the routine writes the same rows and columns. -/
theorem columns_fill (c : Circuit) (sigs : List NodeId) (weight : NodeId → Int)
    (batches : List (List (List Bool))) : ∃ mask nodePos,
      (Setcover.fill sigs weight batches).columns =
        { fillM c [] sigs batches with mask := mask, nodePos := nodePos } := by
  have key : ∀ (bs : List (List (List Bool))) (s : Setcover) (t : Setcover.SetcoverM),
      (∃ mask nodePos, s.columns = { t with mask := mask, nodePos := nodePos }) →
      ∃ mask nodePos, (bs.foldl Setcover.addRows s).columns =
        { bs.foldl Setcover.SetcoverM.addRows t with mask := mask, nodePos := nodePos } := by
    intro bs
    induction bs with
    | nil => exact fun s t h => h
    | cons rows bs ih =>
      intro s t ⟨mask, nodePos, h⟩
      refine ih (s.addRows rows) (t.addRows rows) ⟨{}, nodePos, ?_⟩
      rw [Setcover.columns_addRows, h]
      rfl
  exact key batches _ _ ⟨{}, ∅, rfl⟩

/-- **`AddRows`** keeps rows and columns transposes of each other, in both classes. -/
theorem addRows_transposed (c : Circuit) (clus : List ClusterId) (sigs : List NodeId)
    (weight : NodeId → Int) (batches : List (List (List Bool)))
    (hlong : ∀ rows ∈ batches, ∀ row ∈ rows, sigs.length ≤ row.length) :
    Transposed (fillM c clus sigs batches) sigs.length batches.flatten ∧
    Transposed (Setcover.fill sigs weight batches).columns sigs.length batches.flatten ∧
    (fillM c clus sigs batches).mask.size = (fillM c clus sigs batches).rowSize ∧
    (fillM c clus sigs batches).mask.count = 0 ∧
    (∀ i, (fillM c clus sigs batches).mask.bit i = false) ∧
    ∀ pre post, batches = pre ++ post →
      (fillM c clus sigs pre).pvaluesRow <+: (fillM c clus sigs batches).pvaluesRow ∧
      (Setcover.fill sigs weight pre).pvaluesRow <+:
        (Setcover.fill sigs weight batches).pvaluesRow := by
  obtain ⟨hW, hsize⟩ := fillM_written c clus sigs batches
  refine ⟨hsize ▸ hW.transposed (hsize ▸ hlong), ?_, ?_, ?_, fun i => ?_, ?_⟩
  · obtain ⟨hW', hsize'⟩ := fillM_written c [] sigs batches
    obtain ⟨mask, nodePos, hcols⟩ := columns_fill c sigs weight batches
    have ht := hW'.transposed (hsize' ▸ hlong)
    rw [hcols]
    exact hsize' ▸ ⟨ht.rowSize, ht.rowLength, ht.row, ht.col, ht.entry⟩
  · rw [hW.mask]
    rfl
  · rw [hW.mask]
    rfl
  · rw [hW.mask]
    exact (setSize_good _).2 i
  · rintro pre post rfl
    refine ⟨?_, ?_⟩
    · rw [fillM, fillM, List.foldl_append]
      exact Written.rows_prefix post _
    · obtain ⟨mask, nodePos, hpre⟩ := columns_fill c sigs weight pre
      obtain ⟨mask', nodePos', hall⟩ := columns_fill c sigs weight (pre ++ post)
      have h1 : (Setcover.fill sigs weight pre).pvaluesRow = (fillM c [] sigs pre).pvaluesRow :=
        congrArg Setcover.SetcoverM.pvaluesRow hpre
      have h2 : (Setcover.fill sigs weight (pre ++ post)).pvaluesRow =
          (fillM c [] sigs (pre ++ post)).pvaluesRow :=
        congrArg Setcover.SetcoverM.pvaluesRow hall
      rw [h1, h2, fillM, fillM, List.foldl_append]
      exact Written.rows_prefix post _

/-- An empty batch and one of two rows, over one signal. -/
theorem addRows_transposed_two :
    Transposed (fillM { node := fun _ => { name := "a" }, cluster := fun _ => {} } [] [0]
      [[], [[true], [false]]]) 1 [[true], [false]] :=
  (addRows_transposed _ [] [0] (fun _ => 1) [[], [[true], [false]]] (by decide)).1

end Msyn.SC
