import Msyn.Select.CoverTest

/-!
# The rows of a column cover

What `AddRows` leaves after a sequence of batches: a column vector for each signal and a row vector
for each row, which agree with each other and with the rows of the batches (`fill_filled`).
-/

namespace Msyn.SC

open Nodecircuit Bitprocess Bitvector

namespace Setcover

/-- The rows and columns, as those of a `setcover_m`. -/
def columns (s : Setcover) : Setcover.SetcoverM where
  rowSize := s.rowSize
  colSize := s.colSize
  candsC := []
  pvaluesRow := s.pvaluesRow
  pvaluesCol := s.pvaluesCol
  nodePos := ∅

/-- What was in a vector does not matter for `set_size`. -/
theorem setSize_eq (n : Nat) (v : Bitvector) : Bitvector.setSize n v = Bitvector.setSize n := by
  have hdata : ∀ d : List Word, (resizeData d (words n)).mapIdx
      (fun i w => if i < words n then 0 else w) = List.replicate (words n) 0 := by
    intro d
    refine List.ext_getElem (by simp [length_resizeData]) fun i h1 h2 => ?_
    have hi : i < words n := by simpa using h2
    simp [hi]
  simp only [Bitvector.setSize, mapWords, hdata]

theorem columns_addRows (s : Setcover) (rows : List (List Bool)) :
    (s.addRows rows).columns = { s.columns.addRows rows with mask := {} } := by
  have hcols : (List.range s.colSize).map (fun j =>
      Bitvector.setSize (rows.length + s.rowSize) (vec s.pvaluesCol j)) =
        List.replicate s.colSize (Bitvector.setSize (rows.length + s.rowSize)) := by
    refine List.ext_getElem (by simp) fun i h1 h2 => ?_
    rw [List.getElem_map, List.getElem_replicate, setSize_eq]
  simp only [columns, addRows, Setcover.SetcoverM.addRows, hcols]
  rfl

/-- What the batches leave; `all` are their rows. -/
structure Filled (sigs : List NodeId) (weight : NodeId → Int) (s : Setcover)
    (all : List (List Bool)) : Prop where
  signals : s.signals = sigs
  weight : s.weight = weight
  colSize : s.colSize = sigs.length
  rowSize : s.rowSize = all.length
  rows : s.pvaluesRow = all.map s.newRow
  cols : all = [] ∨ s.columns.Rows all

variable {sigs : List NodeId} {weight : NodeId → Int}

theorem Filled.addRows {s : Setcover} {all : List (List Bool)} (h : Filled sigs weight s all)
    (rows : List (List Bool)) : Filled sigs weight (s.addRows rows) (all ++ rows) := by
  obtain ⟨hR, -⟩ := Setcover.SetcoverM.addRows_spec (s := s.columns) h.rowSize h.cols rows
  have hnew : (s.addRows rows).newRow = s.newRow := rfl
  refine ⟨h.signals, h.weight, h.colSize, ?_, ?_, .inr ?_⟩
  · simp [Setcover.addRows, h.rowSize, Nat.add_comm]
  · rw [hnew, List.map_append, ← h.rows]
    rfl
  · rw [columns_addRows]
    exact ⟨hR.rowSize, hR.length, hR.good, hR.bit⟩

/-- **The batches** together are the rows. -/
theorem fill_filled (sigs : List NodeId) (weight : NodeId → Int)
    (batches : List (List (List Bool))) :
    Filled sigs weight (fill sigs weight batches) batches.flatten := by
  have key : ∀ (bs : List (List (List Bool))) (s : Setcover) (all : List (List Bool)),
      Filled sigs weight s all → Filled sigs weight (bs.foldl addRows s) (all ++ bs.flatten) := by
    intro bs
    induction bs with
    | nil =>
      intro s all h
      rw [List.flatten_nil, List.append_nil]
      exact h
    | cons b bs ih =>
      intro s all h
      rw [List.foldl_cons, List.flatten_cons, ← List.append_assoc]
      exact ih _ _ (h.addRows b)
  exact key batches (init sigs weight) [] ⟨rfl, rfl, rfl, rfl, rfl, .inl rfl⟩

/-! ## Rows and columns -/

theorem newRow_spec (s : Setcover) (row : List Bool) :
    (s.newRow row).Good ∧ (s.newRow row).bsize = s.colSize ∧
      ∀ k, (s.newRow row).bit k = (decide (k < s.colSize) && row.getD k false) :=
  s.columns.newRow_spec row

/-- An instance with rows: the vectors have their sizes, and rows and columns agree. -/
structure WellFormed (s : Setcover) : Prop where
  pos : 0 < s.rowSize
  colLength : s.pvaluesCol.length = s.colSize
  col : ∀ k < s.colSize, (vec s.pvaluesCol k).Good ∧ (vec s.pvaluesCol k).bsize = s.rowSize
  row : ∀ i < s.rowSize, (vec s.pvaluesRow i).Good ∧ (vec s.pvaluesRow i).bsize = s.colSize
  agree : ∀ i < s.rowSize, ∀ k < s.colSize,
    (vec s.pvaluesRow i).bit k = (vec s.pvaluesCol k).bit i
  weight : ∀ x ∈ s.signals, s.weight x ≠ 0

theorem WellFormed.within {s : Setcover} (h : s.WellFormed) : Within s.pvaluesCol s.rowSize :=
  within_of_good (h.colLength ▸ h.col)

section
variable {s : Setcover} {all : List (List Bool)} (h : Filled sigs weight s all)
include h

/-- The bits of the columns are the entries of the rows. -/
theorem Filled.col_bit (hne : all ≠ []) {k : Nat} (hk : k < s.colSize) :
    ((vec s.pvaluesCol k).Good ∧ (vec s.pvaluesCol k).bsize = s.rowSize) ∧
      ∀ i, (vec s.pvaluesCol k).bit i = (all.getD i []).getD k false := by
  have hR := h.cols.resolve_left hne
  have hk' : k < s.pvaluesCol.length := hR.length.symm ▸ hk
  rw [vec_eq_getElem hk', h.rowSize]
  exact ⟨hR.good _ (List.getElem_mem hk'), hR.bit k hk'⟩

/-- **Every sequence of batches** with a row gives an instance. -/
theorem Filled.wellFormed (hne : all ≠ []) (hw : ∀ x ∈ sigs, 0 < weight x) : s.WellFormed where
  pos := by
    rw [h.rowSize]
    exact List.length_pos_iff.2 hne
  colLength := (h.cols.resolve_left hne).length
  col k hk := (h.col_bit hne hk).1
  row i hi := by
    have hi' : i < all.length := h.rowSize ▸ hi
    rw [h.rows, vec_eq_getElem (by simpa using hi'), List.getElem_map]
    exact ⟨(s.newRow_spec _).1, (s.newRow_spec _).2.1⟩
  agree i hi k hk := by
    have hi' : i < all.length := h.rowSize ▸ hi
    rw [(h.col_bit hne hk).2, h.rows, vec_eq_getElem (by simpa using hi'), List.getElem_map,
      (s.newRow_spec _).2.2, decide_eq_true hk, Bool.true_and, List.getD_eq_getElem _ _ hi']
  weight x hx := by
    rw [h.signals] at hx
    rw [h.weight]
    exact (hw x hx).ne'

end

end Setcover

end Msyn.SC
