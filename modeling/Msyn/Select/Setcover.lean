import Msyn.Circuit.Node
import Msyn.Lib.Loop
import Msyn.Select.Bitvector

/-!
# The set cover

The class `setcover_m` for clusters: a row for each pair of patterns that must be told apart, with
the candidate inputs that do. `Select` picks clusters greedily until the inputs of the picked ones
cover all rows. It always ends, with a cover of all rows or with nothing (`select_spec`), and each
cluster that it picks covers a largest number of the rows that are left.
-/

namespace Msyn.Setcover

open Nodecircuit Bitprocess

structure SetcoverM where
  rowSize : Nat := 0
  colSize : Nat
  candsC : List ClusterId
  pvaluesRow : List Bitvector := []
  pvaluesCol : List Bitvector := []
  nodePos : AList (fun _ : String => Nat)
  mask : Bitvector := {}

namespace SetcoverM

/-- The constructor; `node_pos` numbers the inputs by their names. -/
def init (c : Circuit) (clus : List ClusterId) (sigInputs : List NodeId) : SetcoverM where
  colSize := sigInputs.length
  candsC := clus
  nodePos := sigInputs.zipIdx.foldl (fun pos e => pos.insert (c.node e.1).name e.2) ∅

/-- A new row: `set_size(col_size)`, and `pvalues_row[i].set(j)` where it holds. -/
def newRow (s : SetcoverM) (row : List Bool) : Bitvector :=
  (List.range s.colSize).foldl (fun v j => if row.getD j false then v.set j else v)
    (Bitvector.setSize s.colSize)

/-- One row: `pvalues_col[j].set(i)` where it holds. -/
def addRow (cols : List Bitvector) (i : Nat) (row : List Bool) : List Bitvector :=
  cols.mapIdx fun j col => if row.getD j false then col.set i else col

/-- `pvalues_row` has `row_size` entries, so that its `resize` appends. -/
def addRows (s : SetcoverM) (rows : List (List Bool)) : SetcoverM :=
  let rowSize := rows.length + s.rowSize
  let cols := if rowSize = rows.length then List.replicate s.colSize (Bitvector.setSize rowSize)
    else s.pvaluesCol.map (·.resize rowSize)
  { s with
    rowSize
    pvaluesRow := s.pvaluesRow ++ rows.map s.newRow
    pvaluesCol := (rows.zipIdx s.rowSize).foldl (fun cols e => addRow cols e.2 e.1) cols
    mask := Bitvector.setSize rowSize }

/-- `pvalues_col[node_pos[node->name]]`. -/
def col (s : SetcoverM) (c : Circuit) (n : NodeId) : Bitvector :=
  s.pvaluesCol.getD ((s.nodePos.lookup (c.node n).name).getD 0) {}

def genOr (s : SetcoverM) (c : Circuit) (maskTmp : Bitvector) (inputs : NodeSet) : Bitvector :=
  inputs.elems.foldl (fun mask n => mask.orCount (s.col c n)) maskTmp

/-- The rows that the inputs of the cluster cover and the mask does not. -/
def gain (s : SetcoverM) (c : Circuit) (clst : ClusterId) : Bitvector :=
  (s.genOr c (Bitvector.setSize s.rowSize) (c.cluster clst).inputNodes).maskCount s.mask

/-- One round of the loop of `SelectOnce` over the candidates: the best cluster so far. -/
def better (s : SetcoverM) (c : Circuit) (b : Option (ClusterId × Bitvector)) (clst : ClusterId) :
    Option (ClusterId × Bitvector) :=
  let maskTmp := s.gain c clst
  let maxCover := match b with
    | some b => b.2.count
    | none => 0
  if maskTmp.count > maxCover then some (clst, maskTmp) else b

def best (s : SetcoverM) (c : Circuit) : Option (ClusterId × Bitvector) :=
  s.candsC.foldl (s.better c) none

/-- `SelectOnce`; `none` is the result 0. -/
def selectOnce (c : Circuit) (r : SetcoverM × List ClusterId × NodeSet) :
    Option (SetcoverM × List ClusterId × NodeSet) :=
  match r.1.best c with
  | some (clst, maskSelected) =>
    some ({ r.1 with mask := r.1.mask.orCount maskSelected }, r.2.1 ++ [clst],
      r.2.2.insertAll (c.cluster clst).inputNodes.elems)
  | none => none

/-- The comparison `selected_clsts.size() > limit`, made in `size_t`. -/
def exceeds (size : Nat) (limit : Int) : Bool := 0 ≤ limit && limit < size

/-- One iteration of `Select`; `false` goes with the message that there is no solution. -/
def selectStep (c : Circuit) (limit : Int) (r : SetcoverM × List ClusterId × NodeSet) :
    (SetcoverM × List ClusterId × NodeSet) ⊕ (Bool × SetcoverM × List ClusterId × NodeSet) :=
  if r.1.mask.count ≠ r.1.rowSize then
    match selectOnce c r with
    | some r' => if exceeds r'.2.1.length limit then .inr (false, r'.1, [], ∅) else .inl r'
    | none => .inr (false, r.1, [], ∅)
  else .inr (true, r)

/-- `Select` from empty results; every iteration covers a row. -/
def selectRun (s : SetcoverM) (c : Circuit) (limit : Int) :
    Option (Bool × SetcoverM × List ClusterId × NodeSet) :=
  loop (selectStep c limit) (s.rowSize + 1) (s, [], ∅)

/-- What `Select` leaves behind. -/
def select (s : SetcoverM) (c : Circuit) (limit : Int) :
    Option (SetcoverM × List ClusterId × NodeSet) :=
  (s.selectRun c limit).map (·.2)

/-- A further input of the constructor takes the next column. -/
theorem init_nodePos_concat (c : Circuit) (clus : List ClusterId) (sigs : List NodeId) (a : NodeId) :
    (init c clus (sigs ++ [a])).nodePos =
      (init c clus sigs).nodePos.insert (c.node a).name sigs.length := by
  simp only [init, List.zipIdx_append, List.foldl_append]
  simp

/-- A selection only changes the mask. -/
theorem select_rest {s : SetcoverM} {c : Circuit} {limit : Int}
    {r : SetcoverM × List ClusterId × NodeSet} (h : s.select c limit = some r) :
    r.1 = { s with mask := r.1.mask } := by
  obtain ⟨r', hr', rfl⟩ := Option.map_eq_some_iff.1 h
  have honce : ∀ r r' : SetcoverM × List ClusterId × NodeSet, selectOnce c r = some r' →
      r'.1 = { r.1 with mask := r'.1.mask } := by
    intro r r' hs
    unfold selectOnce at hs
    split at hs <;> cases hs
    rfl
  refine loop_post (I := fun r => r.1 = { s with mask := r.1.mask })
    (P := fun r => r.2.1 = { s with mask := r.2.1.mask }) (fun r r' hi hs => ?_)
    (fun r r' hi hs => ?_) rfl hr'
  · unfold selectStep at hs
    split at hs
    · split at hs
      · rename_i h1
        split at hs <;> cases hs
        rw [honce _ _ h1, hi]
      · cases hs
    · cases hs
  · unfold selectStep at hs
    split at hs
    · split at hs
      · rename_i h1
        split at hs <;> cases hs
        show _ = _
        rw [honce _ _ h1, hi]
      · cases hs
        exact hi
    · cases hs
      exact hi

/-! ## The rows -/

/-- The columns hold the rows `all`. -/
structure Rows (s : SetcoverM) (all : List (List Bool)) : Prop where
  rowSize : s.rowSize = all.length
  length : s.pvaluesCol.length = s.colSize
  good : ∀ col ∈ s.pvaluesCol, col.Good ∧ col.bsize = all.length
  bit : ∀ (j : Nat) (h : j < s.pvaluesCol.length), ∀ i,
    s.pvaluesCol[j].bit i = (all.getD i []).getD j false

theorem addRow_spec {cols : List Bitvector} {i n : Nat} (row : List Bool) (hi : i < n)
    (hg : ∀ col ∈ cols, col.Good ∧ col.bsize = n) :
    (addRow cols i row).length = cols.length ∧
    (∀ col ∈ addRow cols i row, col.Good ∧ col.bsize = n) ∧
    ∀ (j : Nat) (h : j < cols.length) (h' : j < (addRow cols i row).length), ∀ k,
      (addRow cols i row)[j].bit k = (cols[j].bit k || (decide (k = i) && row.getD j false)) := by
  refine ⟨by simp [addRow], fun col hc => ?_, fun j h h' k => ?_⟩
  · obtain ⟨j, hj, rfl⟩ := List.mem_mapIdx.1 hc
    obtain ⟨h1, h2⟩ := hg _ (List.getElem_mem hj)
    split
    · obtain ⟨h3, h4, -⟩ := h1.set i (by omega)
      exact ⟨h3, h4.trans h2⟩
    · exact ⟨h1, h2⟩
  · obtain ⟨h1, h2⟩ := hg _ (List.getElem_mem h)
    simp only [addRow, List.getElem_mapIdx]
    split
    · rename_i hr
      obtain ⟨-, -, h3⟩ := h1.set i (by omega)
      rw [h3 k, hr, Bool.and_true]
    · rename_i hr
      rw [Bool.not_eq_true] at hr
      rw [hr, Bool.and_false, Bool.or_false]

/-- `m` columns of size `n` hold the rows `done`. -/
structure Holds (cols : List Bitvector) (m n : Nat) (done : List (List Bool)) : Prop where
  length : cols.length = m
  good : ∀ col ∈ cols, col.Good ∧ col.bsize = n
  bit : ∀ (j : Nat) (h : j < cols.length), ∀ i, cols[j].bit i = (done.getD i []).getD j false

theorem Holds.addRow {cols : List Bitvector} {m n : Nat} {done : List (List Bool)}
    (h : Holds cols m n done) (hlt : done.length < n) (r : List Bool) :
    Holds (SetcoverM.addRow cols done.length r) m n (done ++ [r]) := by
  obtain ⟨a1, a2, a3⟩ := addRow_spec r hlt h.good
  refine ⟨a1.trans h.length, a2, fun j hj i => ?_⟩
  rw [a3 j (a1 ▸ hj) hj i, h.bit j (a1 ▸ hj) i]
  by_cases hi : i < done.length
  · have hne : i ≠ done.length := by omega
    rw [List.getD_append _ _ _ _ hi]
    simp [hne]
  · rw [List.getD_append_right _ _ _ _ (by omega), List.getD_eq_default done _ (by omega)]
    by_cases he : i = done.length
    · simp [he]
    · rw [List.getD_eq_default [r] _ (by simp; omega)]
      simp [he]

/-- The loop over the new rows. -/
theorem Holds.addRows {cols : List Bitvector} {m n : Nat} {done rows : List (List Bool)}
    (h : Holds cols m n done) (hle : (done ++ rows).length ≤ n) :
    Holds ((rows.zipIdx done.length).foldl (fun cols e => SetcoverM.addRow cols e.2 e.1) cols) m n
      (done ++ rows) := by
  induction rows generalizing cols done with
  | nil => rwa [List.append_nil]
  | cons r rows ih =>
    rw [List.append_cons] at hle ⊢
    have hlt : done.length < n := by
      rw [List.length_append, List.length_append, List.length_singleton] at hle
      omega
    have hnext := ih (h.addRow hlt r) hle
    rw [List.length_append, List.length_singleton] at hnext
    exact hnext

/-- The columns before the new rows are entered: new ones if there were no rows, or the old ones
with room for the new rows. -/
theorem resized_holds {s : SetcoverM} {all : List (List Bool)} (hs : s.rowSize = all.length)
    (hall : all = [] ∨ s.Rows all) (rows : List (List Bool)) :
    Holds (if rows.length + s.rowSize = rows.length then
        List.replicate s.colSize (Bitvector.setSize (rows.length + s.rowSize))
      else s.pvaluesCol.map (·.resize (rows.length + s.rowSize)))
      s.colSize (all ++ rows).length all := by
  have hsz : rows.length + s.rowSize = (all ++ rows).length := by
    rw [hs, List.length_append, Nat.add_comm]
  split
  · rename_i h0
    have ha : all = [] := List.length_eq_zero_iff.1 (by omega)
    refine ⟨List.length_replicate, fun col hc => ?_, fun j h i => ?_⟩
    · rw [(List.mem_replicate.1 hc).2, hsz]
      exact ⟨(Bitvector.setSize_good _).1, rfl⟩
    · rw [List.getElem_replicate, (Bitvector.setSize_good _).2, ha]
      rfl
  · rename_i h0
    have hR : s.Rows all := hall.resolve_left fun ha => h0 (by rw [hs, ha]; rfl)
    refine ⟨by rw [List.length_map, hR.length], fun col hc => ?_, fun j h i => ?_⟩
    · obtain ⟨col', hc', rfl⟩ := List.mem_map.1 hc
      obtain ⟨h1, h2⟩ := hR.good col' hc'
      obtain ⟨h3, h4, -⟩ := h1.resize (n := rows.length + s.rowSize) (by omega)
      exact ⟨h3, h4.trans hsz⟩
    · rw [List.length_map] at h
      obtain ⟨h1, h2⟩ := hR.good _ (List.getElem_mem h)
      rw [List.getElem_map, (h1.resize (n := rows.length + s.rowSize) (by omega)).2.2 i, hR.bit j h]

theorem addRows_spec {s : SetcoverM} {all : List (List Bool)} (hs : s.rowSize = all.length)
    (hall : all = [] ∨ s.Rows all) (rows : List (List Bool)) :
    (s.addRows rows).Rows (all ++ rows) ∧
      (s.addRows rows).mask = Bitvector.setSize (all ++ rows).length := by
  have h := (resized_holds hs hall rows).addRows le_rfl
  rw [← hs] at h
  refine ⟨⟨?_, h.length, h.good, h.bit⟩, ?_⟩
  · simp [addRows, hs, Nat.add_comm]
  · simp [addRows, hs, Nat.add_comm]

theorem newRow_spec (s : SetcoverM) (row : List Bool) :
    (s.newRow row).Good ∧ (s.newRow row).bsize = s.colSize ∧
      ∀ k, (s.newRow row).bit k = (decide (k < s.colSize) && row.getD k false) := by
  have key : ∀ (l : List Nat) (v : Bitvector), v.Good → v.bsize = s.colSize →
      (∀ j ∈ l, j < s.colSize) →
      ∀ v', l.foldl (fun v j => if row.getD j false then v.set j else v) v = v' →
        v'.Good ∧ v'.bsize = s.colSize ∧
          ∀ k, v'.bit k = (v.bit k || (decide (k ∈ l) && row.getD k false)) := by
    intro l
    induction l with
    | nil =>
      intro v hv hs _ v' h
      rw [← h]
      exact ⟨hv, hs, fun k => by simp⟩
    | cons j l ih =>
      intro v hv hs hl v' h
      rw [List.foldl_cons] at h
      have hl' : ∀ i ∈ l, i < s.colSize := fun i hi => hl i (by simp [hi])
      by_cases hj : row.getD j false = true
      · obtain ⟨g1, g2, g3⟩ := hv.set j (by rw [hs]; exact hl j (by simp))
        rw [if_pos hj] at h
        obtain ⟨a1, a2, a3⟩ := ih _ g1 (g2.trans hs) hl' v' h
        refine ⟨a1, a2, fun k => ?_⟩
        rw [a3, g3]
        by_cases hk : k = j
        · rw [hk, hj]
          simp
        · simp [hk]
      · rw [if_neg hj] at h
        obtain ⟨a1, a2, a3⟩ := ih v hv hs hl' v' h
        refine ⟨a1, a2, fun k => ?_⟩
        rw [a3]
        by_cases hk : k = j
        · rw [hk, (Bool.not_eq_true _).mp hj]
          simp
        · simp [hk]
  obtain ⟨h1, h2⟩ := Bitvector.setSize_good s.colSize
  obtain ⟨a1, a2, a3⟩ := key _ _ h1 rfl (fun j hj => List.mem_range.1 hj) _ rfl
  refine ⟨a1, a2, fun k => ?_⟩
  show (s.newRow row).bit k = _
  rw [newRow, a3, h2, Bool.false_or]
  simp

/-! ## Selection -/

/-- The input covers the row. -/
def covers (s : SetcoverM) (c : Circuit) (n : NodeId) (i : Nat) : Prop := (s.col c n).bit i = true

/-- The inputs of the candidates have columns. -/
def Columns (s : SetcoverM) (c : Circuit) : Prop :=
  ∀ k ∈ s.candsC, ∀ n ∈ (c.cluster k).inputNodes, (s.col c n).Good ∧ (s.col c n).bsize = s.rowSize

/-- An input of the cluster covers the row. -/
def coveredBy (s : SetcoverM) (c : Circuit) (k : ClusterId) (i : Nat) : Bool :=
  (c.cluster k).inputNodes.elems.any fun n => (s.col c n).bit i

/-- The number of rows that the cluster covers and none of the others does. -/
def fresh (s : SetcoverM) (c : Circuit) (others : List ClusterId) (k : ClusterId) : Nat :=
  (List.range s.rowSize).countP fun i =>
    s.coveredBy c k i && !(others.any fun j => s.coveredBy c j i)

/-- What the iterations of `Select` keep: the mask holds the rows that the inputs of the selected
clusters cover, and every selected cluster covered as many new rows as any candidate did. -/
structure Picked (s : SetcoverM) (c : Circuit) (r : SetcoverM × List ClusterId × NodeSet) : Prop where
  rest : r.1 = { s with mask := r.1.mask }
  good : r.1.mask.Good
  size : r.1.mask.bsize = s.rowSize
  mem : ∀ k ∈ r.2.1, k ∈ s.candsC
  nodup : r.2.1.Nodup
  inputs : ∀ n, n ∈ r.2.2 ↔ ∃ k ∈ r.2.1, n ∈ (c.cluster k).inputNodes
  mask : ∀ i, r.1.mask.bit i = r.2.1.any fun k => s.coveredBy c k i
  greedy : ∀ pre k post, r.2.1 = pre ++ k :: post → ∀ k' ∈ s.candsC,
    s.fresh c pre k' ≤ s.fresh c pre k

theorem coveredBy_iff {s : SetcoverM} {c : Circuit} {k : ClusterId} {i : Nat} :
    s.coveredBy c k i = true ↔ ∃ n ∈ (c.cluster k).inputNodes, s.covers c n i := by
  simp [coveredBy, covers, OrdSet.mem_def]

theorem genOr_spec {s : SetcoverM} {c : Circuit} {l : List NodeId} {v : Bitvector} (hv : v.Good)
    (h : ∀ n ∈ l, (s.col c n).Good ∧ (s.col c n).bsize = v.bsize) :
    (l.foldl (fun mask n => mask.orCount (s.col c n)) v).Good ∧
    (l.foldl (fun mask n => mask.orCount (s.col c n)) v).bsize = v.bsize ∧
    ∀ i, (l.foldl (fun mask n => mask.orCount (s.col c n)) v).bit i = true ↔
      v.bit i = true ∨ ∃ n ∈ l, s.covers c n i := by
  induction l generalizing v with
  | nil => exact ⟨hv, rfl, by simp⟩
  | cons n l ih =>
    obtain ⟨h1, h2⟩ := h n (by simp)
    obtain ⟨h3, h4, h5⟩ := hv.orCount h1 h2
    obtain ⟨h6, h7, h8⟩ := ih h3 fun m hm =>
      ⟨(h m (by simp [hm])).1, (h m (by simp [hm])).2.trans h4.symm⟩
    refine ⟨h6, h7.trans h4, fun i => (h8 i).trans ?_⟩
    rw [h5, Bool.or_eq_true, or_assoc, List.exists_mem_cons_iff]
    rfl

section
variable {s : SetcoverM} {c : Circuit} (hcol : s.Columns c)
include hcol

theorem gain_spec {k : ClusterId} (hk : k ∈ s.candsC) :
    (s.gain c k).Good ∧ (s.gain c k).bsize = s.rowSize ∧
    ∀ i, (s.gain c k).bit i = (s.coveredBy c k i && !s.mask.bit i) := by
  obtain ⟨h0, h0'⟩ := Bitvector.setSize_good s.rowSize
  obtain ⟨h1, h2, h3⟩ := genOr_spec (s := s) (c := c) (l := (c.cluster k).inputNodes.elems) h0
    fun n hn => hcol k hk n hn
  obtain ⟨h4, h5, h6⟩ := h1.maskCount s.mask
  refine ⟨h4, h5.trans h2, fun i => ?_⟩
  have h7 : (s.genOr c (Bitvector.setSize s.rowSize) (c.cluster k).inputNodes).bit i =
      s.coveredBy c k i := by
    rw [Bool.eq_iff_iff, coveredBy_iff]
    have := h3 i
    rw [h0' i] at this
    simpa [genOr, OrdSet.mem_def] using this
  rw [← h7]
  exact h6 i

omit hcol

/-- `b` is the candidate of `done` with the largest gain, if one of them gains anything. -/
structure BestOf (s : SetcoverM) (c : Circuit) (done : List ClusterId)
    (b : Option (ClusterId × Bitvector)) : Prop where
  none : b = none → ∀ k ∈ done, (s.gain c k).count = 0
  some : ∀ p, b = some p → p.1 ∈ s.candsC ∧ p.2 = s.gain c p.1 ∧ 0 < p.2.count ∧
    ∀ k ∈ done, (s.gain c k).count ≤ p.2.count

theorem BestOf.better {done : List ClusterId} {b : Option (ClusterId × Bitvector)} {k : ClusterId}
    (h : BestOf s c done b) (hk : k ∈ s.candsC) : BestOf s c (done ++ [k]) (s.better c b k) := by
  have hdone : ∀ {P : ClusterId → Prop}, (∀ j ∈ done, P j) → P k → ∀ j ∈ done ++ [k], P j := by
    intro P h1 h2 j hj
    rcases List.mem_append.1 hj with hj | hj
    · exact h1 j hj
    · exact List.mem_singleton.1 hj ▸ h2
  cases b with
  | none =>
    simp only [SetcoverM.better]
    split
    · rename_i hlt
      refine ⟨fun he => (by cases he), fun p he => ?_⟩
      cases he
      exact ⟨hk, rfl, hlt, hdone (fun j hj => (h.none rfl j hj).trans_le (Nat.zero_le _)) le_rfl⟩
    · rename_i hle
      exact ⟨fun _ => hdone (h.none rfl) (Nat.eq_zero_of_not_pos hle), fun p he => by cases he⟩
  | some b =>
    obtain ⟨h1, h2, h3, h4⟩ := h.some b rfl
    simp only [SetcoverM.better]
    split
    · rename_i hlt
      refine ⟨fun he => (by cases he), fun p he => ?_⟩
      cases he
      exact ⟨hk, rfl, Nat.zero_lt_of_lt hlt,
        hdone (fun j hj => (h4 j hj).trans (Nat.le_of_lt hlt)) le_rfl⟩
    · rename_i hle
      refine ⟨fun he => (by cases he), fun p he => ?_⟩
      cases he
      exact ⟨h1, h2, h3, hdone h4 (not_lt.1 hle)⟩

/-- The candidate with the largest gain, if a candidate gains anything. -/
theorem best_spec : BestOf s c s.candsC (s.best c) :=
  foldl_prefix (BestOf s c)
    (fun done k rest b hl h => h.better (by
      rw [hl]
      exact List.mem_append_right _ List.mem_cons_self))
    ⟨fun _ k hk => absurd hk List.not_mem_nil, fun p he => by cases he⟩

include hcol

/-- A gain is a number of fresh rows. -/
theorem Picked.gain_count {r : SetcoverM × List ClusterId × NodeSet} (h : s.Picked c r)
    {k : ClusterId} (hk : k ∈ s.candsC) : (r.1.gain c k).count = s.fresh c r.2.1 k := by
  have hcol1 : r.1.Columns c := by rw [h.rest]; exact hcol
  have hk1 : k ∈ r.1.candsC := by rw [h.rest]; exact hk
  have hrs : r.1.rowSize = s.rowSize := by rw [h.rest]
  have hcb : ∀ i, r.1.coveredBy c k i = s.coveredBy c k i := fun i => by rw [h.rest]; rfl
  obtain ⟨g1, g2, g3⟩ := gain_spec hcol1 hk1
  rw [Bitvector.count, g1.counter, g2, hrs, fresh]
  exact List.countP_congr fun i _ => by rw [g3, hcb, h.mask]

/-- **One selection**: the picked cluster covers a fresh row. -/
theorem Picked.selectOnce {r r' : SetcoverM × List ClusterId × NodeSet} (h : s.Picked c r)
    (hr : selectOnce c r = some r') : s.Picked c r' ∧ r.1.mask.count < r'.1.mask.count ∧
      r'.2.1.length = r.2.1.length + 1 := by
  unfold SetcoverM.selectOnce at hr
  cases hb : r.1.best c with
  | none =>
    simp only [hb] at hr
    cases hr
  | some b =>
    obtain ⟨k, m⟩ := b
    simp only [hb, Option.some.injEq] at hr
    obtain ⟨hk, hm, hpos, hmax⟩ := best_spec.some _ hb
    simp only at hk hm hpos hmax
    have hcand : ∀ j, j ∈ s.candsC ↔ j ∈ r.1.candsC := fun j => by rw [h.rest]
    have hcol1 : r.1.Columns c := by rw [h.rest]; exact hcol
    have hrs : r.1.rowSize = s.rowSize := by rw [h.rest]
    have hcb : ∀ i, r.1.coveredBy c k i = s.coveredBy c k i := fun i => by rw [h.rest]; rfl
    obtain ⟨g1, g2, g3⟩ := gain_spec hcol1 hk
    rw [← hm] at g1 g2 g3
    obtain ⟨o1, o2, o3⟩ := h.good.orCount g1 (by rw [g2, hrs, h.size])
    subst hr
    -- a new row is covered, so the cluster is new and the count grows
    have hnew : ∃ i, m.bit i = true := by
      have h1 : 0 < (List.range m.bsize).countP m.bit := g1.counter ▸ hpos
      obtain ⟨i, -, hi⟩ := List.countP_pos_iff.1 h1
      exact ⟨i, hi⟩
    refine ⟨⟨?_, o1, o2.trans h.size, fun j hj => ?_, ?_, fun n => ?_, fun i => ?_, ?_⟩, ?_, by simp⟩
    · simp only
      rw [h.rest]
    · rcases List.mem_append.1 hj with hj | hj
      · exact h.mem j hj
      · rw [List.mem_singleton.1 hj]
        exact (hcand k).2 hk
    · refine List.nodup_append.2 ⟨h.nodup, by simp, fun a ha b hb hab => ?_⟩
      obtain ⟨i, hi⟩ := hnew
      rw [g3, Bool.and_eq_true, Bool.not_eq_true', hcb] at hi
      rw [List.mem_singleton] at hb
      have hin : r.1.mask.bit i = true := by
        rw [h.mask]
        exact List.any_eq_true.2 ⟨k, hb ▸ hab ▸ ha, hi.1⟩
      rw [hi.2] at hin
      cases hin
    · simp only [OrdSet.mem_insertAll, h.inputs, List.mem_append, List.mem_singleton]
      constructor
      · rintro (⟨j, hj, hn⟩ | hn)
        · exact ⟨j, .inl hj, hn⟩
        · exact ⟨k, .inr rfl, hn⟩
      · rintro ⟨j, hj | rfl, hn⟩
        · exact .inl ⟨j, hj, hn⟩
        · exact .inr hn
    · simp only [o3, g3, h.mask, hcb, List.any_append, List.any_cons, List.any_nil, Bool.or_false]
      cases s.coveredBy c k i <;> cases r.2.1.any fun k => s.coveredBy c k i <;> rfl
    · -- the last choice is the best one, the others were made before
      intro pre j post hsplit k' hk'
      rcases List.eq_nil_or_concat post with rfl | ⟨post, j', rfl⟩
      · obtain ⟨rfl, hj⟩ := List.append_inj' hsplit rfl
        cases hj
        rw [← h.gain_count hcol hk', ← h.gain_count hcol ((hcand k).2 hk), ← hm]
        exact hmax k' ((hcand k').1 hk')
      · rw [List.concat_eq_append, ← List.cons_append, ← List.append_assoc] at hsplit
        exact h.greedy pre j post (List.append_inj' hsplit rfl).1 k' hk'
    · have hdis : ∀ i, r.1.mask.bit i = true → m.bit i = false := fun i h => by
        rw [g3, h]
        exact Bool.and_false _
      have e1 : (r.1.mask.orCount m).counter = r.1.mask.counter + m.counter := by
        rw [o1.counter, List.countP_congr fun i _ => by rw [o3 i], Bitvector.countP_or hdis, o2,
          h.good.counter, g1.counter, h.size, g2, hrs]
      show r.1.mask.counter < (r.1.mask.orCount m).counter
      have : 0 < m.counter := hpos
      omega

/-- When no cluster is picked although a row is left, no candidate covers some row. -/
theorem Picked.selectOnce_none {r : SetcoverM × List ClusterId × NodeSet} (h : s.Picked c r)
    (hr : SetcoverM.selectOnce c r = none) (hleft : r.1.mask.count ≠ r.1.rowSize) :
    ∃ i < s.rowSize, ∀ k ∈ s.candsC, s.coveredBy c k i = false := by
  have hrs : r.1.rowSize = s.rowSize := by rw [h.rest]
  have hnone : r.1.best c = none := by
    unfold SetcoverM.selectOnce at hr
    cases hb : r.1.best c with
    | none => rfl
    | some b =>
      simp only [hb] at hr
      cases hr
  have hzero : ∀ k ∈ s.candsC, s.fresh c r.2.1 k = 0 := fun k hk => by
    rw [← h.gain_count hcol hk]
    exact best_spec.none hnone k (by rw [h.rest]; exact hk)
  -- a row that the mask leaves out
  obtain ⟨i, hi, hfree⟩ : ∃ i < s.rowSize, r.1.mask.bit i = false := by
    by_contra hall
    push Not at hall
    refine hleft ?_
    rw [Bitvector.count, h.good.counter, h.size, hrs,
      List.countP_eq_length.2 fun i hi => by simpa using hall i (List.mem_range.1 hi),
      List.length_range]
  refine ⟨i, hi, fun k hk => ?_⟩
  have := List.countP_eq_zero.1 (hzero k hk) i (List.mem_range.2 hi)
  rw [← h.mask, hfree] at this
  simpa using this

omit hcol in
theorem Picked.start (hmask : s.mask = Bitvector.setSize s.rowSize) : s.Picked c (s, [], ∅) := by
  obtain ⟨h1, h2⟩ := Bitvector.setSize_good s.rowSize
  rw [← hmask] at h1 h2
  exact ⟨rfl, h1, by rw [hmask]; rfl, by simp, List.nodup_nil, by simp, h2, by simp⟩

omit hcol in
theorem selectRun_empty (hmask : s.mask = Bitvector.setSize s.rowSize) (h0 : s.rowSize = 0)
    (limit : Int) : s.selectRun c limit = some (true, s, [], ∅) := by
  refine loop_leave _ ?_ _
  have hcount : s.mask.count = s.rowSize := by
    rw [hmask, h0]
    rfl
  simp [selectStep, hcount]

/-- **`Select` ends** with clusters whose inputs cover every row, or with the report that there is
no solution and with nothing. A limit that is not negative is kept; under a negative one the report
means that a row cannot be covered. -/
theorem selectRun_spec (hmask : s.mask = Bitvector.setSize s.rowSize) (limit : Int) :
    ∃ r, s.selectRun c limit = some r ∧ r.2.1 = { s with mask := r.2.1.mask } ∧
      (r.1 = false ∧ r.2.2.1 = [] ∧ r.2.2.2 = ∅ ∧
          (0 ≤ limit ∨ ∃ i < s.rowSize, ∀ k ∈ s.candsC, s.coveredBy c k i = false) ∨
        r.1 = true ∧ s.Picked c r.2 ∧ (∀ i < s.rowSize, ∃ n ∈ r.2.2.2, s.covers c n i) ∧
          (0 ≤ limit → (r.2.2.1.length : Int) ≤ limit)) := by
  refine loop_total (I := fun r => s.Picked c r ∧ (0 ≤ limit → (r.2.1.length : Int) ≤ limit))
    (fun r => s.rowSize - r.1.mask.count) (fun r r' h hs => ?_) (fun r r' h hs => ?_)
    ⟨Picked.start hmask, fun h => by simpa using h⟩ (by simp only; omega)
  · obtain ⟨h, -⟩ := h
    unfold selectStep at hs
    split at hs
    · split at hs
      · rename_i r1 h1
        split at hs
        · cases hs
        · rename_i hle
          cases hs
          obtain ⟨h2, h3, -⟩ := h.selectOnce hcol h1
          have h4 : r'.1.mask.count ≤ s.rowSize := by
            rw [Bitvector.count, h2.good.counter, h2.size]
            exact List.countP_le_length.trans (by simp)
          refine ⟨⟨h2, fun hl => ?_⟩, by omega⟩
          simp only [exceeds, Bool.and_eq_true, decide_eq_true_eq, not_and, not_lt] at hle
          exact hle hl
      · cases hs
    · cases hs
  · obtain ⟨h, hlim⟩ := h
    unfold selectStep at hs
    split at hs
    · rename_i hleft
      split at hs
      · rename_i r1 h1
        split at hs
        · rename_i hex
          cases hs
          simp only [exceeds, Bool.and_eq_true, decide_eq_true_eq] at hex
          exact ⟨(h.selectOnce hcol h1).1.rest, .inl ⟨rfl, rfl, rfl, .inl hex.1⟩⟩
        · cases hs
      · rename_i h1
        cases hs
        exact ⟨h.rest, .inl ⟨rfl, rfl, rfl, .inr (h.selectOnce_none hcol h1 hleft)⟩⟩
    · rename_i hfull
      cases hs
      refine ⟨h.rest, .inr ⟨rfl, h, fun i hi => ?_, hlim⟩⟩
      have hrs : r.1.rowSize = s.rowSize := by rw [h.rest]
      have hbit := h.good.full (by rw [h.size, ← hrs]; simpa using hfull) (by rw [h.size]; exact hi)
      rw [h.mask] at hbit
      obtain ⟨k, hk, hki⟩ := List.any_eq_true.1 hbit
      obtain ⟨n, hn, hni⟩ := coveredBy_iff.1 hki
      exact ⟨n, (h.inputs n).2 ⟨k, hk, hn⟩, hni⟩

theorem select_spec (hmask : s.mask = Bitvector.setSize s.rowSize) (limit : Int) :
    ∃ r, s.select c limit = some r ∧ r.1 = { s with mask := r.1.mask } ∧
      (r.2.1 = [] ∧ r.2.2 = ∅ ∨
        s.Picked c r ∧ ∀ i < s.rowSize, ∃ n ∈ r.2.2, s.covers c n i) := by
  obtain ⟨r, hr, hrest, h⟩ := selectRun_spec hcol hmask limit
  refine ⟨r.2, by rw [select, hr]; rfl, hrest, ?_⟩
  rcases h with ⟨-, h1, h2, -⟩ | ⟨-, h1, h2, -⟩
  · exact .inl ⟨h1, h2⟩
  · exact .inr ⟨h1, h2⟩

end

end SetcoverM

end Msyn.Setcover
