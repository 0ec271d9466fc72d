import Msyn.Select.Infeasible
import Msyn.Select.WeightReplace

/-!
# Optimizing the weight of a cover

`OptimizeWeight` and `OptimizeWeight_ExRange` look up the columns of the candidates, test that these
cover all rows, and give them to `ReduceWeightReplace11_Traverse` with the columns to exclude. What
comes back is taken only if it is lighter, or as light and smaller. So the candidates never get
heavier, as long as the sums of their weights fit an `int` (`WeightsFit`), they still cover all rows,
and no excluded signal is new among them (`optimizeWeight_spec`, `optimizeWeightExRange_spec`).

The time limit is for `ReduceWeightReplace22`, which is not called.
-/

namespace Msyn.SC

open Nodecircuit Bitprocess Bitvector

namespace Setcover

section
variable (s : Setcover)

/-- The loop over the columns, with the signals from `col` on. -/
def collect (currentCands : List NodeId) : List NodeId → Nat → List Nat → List Nat
  | [], _, curSol => curSol
  | x :: xs, col, curSol =>
    let curSol := if curSol.length < currentCands.length ∧ s.weight x ≠ 0 ∧ x ∈ currentCands then
      curSol ++ [col] else curSol
    if curSol.length = currentCands.length then curSol
    else collect currentCands xs (col + 1) curSol

def candCols (currentCands : List NodeId) : List Nat := s.collect currentCands s.signals 0 []

/-- The test of the new candidates: revert if not good. -/
def takeBetter (currentCands newCands : List NodeId) : List NodeId :=
  let originalWeight := sumInt s.weight currentCands
  let newWeight := sumInt s.weight newCands
  if newWeight > originalWeight ∨
      newWeight = originalWeight ∧ newCands.length ≥ currentCands.length then currentCands
  else newCands

/-- From `ReduceWeightReplace11_Traverse` on: the result and `new_cands`. -/
def improve (fuel : Nat) (currentCands : List NodeId) (inexcluded : List InExType)
    (curSol : List Nat) : Option (Nat × List NodeId) := do
  let (_, curSol) ← s.reduceWeightReplace11Traverse fuel inexcluded curSol
  let newCands := s.takeBetter currentCands (curSol.map fun p => s.signals.getD p 0)
  return if isSolutionLite s.pvaluesCol s.nomask curSol then (1, newCands) else (0, currentCands)

/-- Both functions: `exclude` gives the flags, with what is included in the solution, or `none`
where the function returns 0. -/
def optimizeWith (fuel : Nat) (currentCands : List NodeId)
    (exclude : List Nat → Option (List Nat × List InExType)) : Option (Nat × List NodeId) :=
  if currentCands = [] then some (0, currentCands)
  else
    let curSol := s.candCols currentCands
    if !isSolutionLite s.pvaluesCol s.nomask curSol then some (0, currentCands)
    else match exclude curSol with
      | none => some (0, currentCands)
      | some (curSol, inexcluded) => s.improve fuel currentCands inexcluded curSol

/-- `OptimizeWeight`: the result and `new_cands`. The copies of the columns stay empty; what it
leaves in the lists is in `inExcludeSigsFull`. -/
def optimizeWeight (fuel : Nat) (currentCands excludedSigs includedSigs : List NodeId) :
    Option (Nat × List NodeId) :=
  s.optimizeWith fuel currentCands fun curSol =>
    let o := s.inExcludeSigsFull s.start.rows (List.replicate s.colSize {}) curSol excludedSigs
      includedSigs (List.replicate s.colSize .noInEx) (Bitvector.setSize s.rowSize) false
    some (o.curSol, o.inexcluded)

/-- `OptimizeWeight_ExRange`. -/
def optimizeWeightExRange (fuel : Nat) (currentCands : List NodeId) (exColStart exColEnd : Int) :
    Option (Nat × List NodeId) :=
  s.optimizeWith fuel currentCands fun curSol =>
    let (exRet, _, _, inexcluded) := s.inExcludeSigsRange s.start.rows
      (List.replicate s.colSize {}) exColStart exColEnd (List.replicate s.colSize .noInEx)
    if exRet = 0 then none else some (curSol, inexcluded)

end

/-! ## The columns of the candidates -/

variable {s : Setcover}

/-- The column is that of a candidate with a weight. -/
def IsCand (s : Setcover) (cands : List NodeId) (p : Nat) : Prop :=
  s.weightOf p ≠ 0 ∧ s.signals.getD p 0 ∈ cands

instance (s : Setcover) (cands : List NodeId) (p : Nat) : Decidable (s.IsCand cands p) :=
  inferInstanceAs (Decidable (_ ∧ _))

section
variable (hnd : s.signals.Nodup) {cands : List NodeId}
include hnd

/-- Different columns have different signals. -/
theorem signals_nodup {sol : List Nat} (hsol : sol.Nodup) (hmem : ∀ p ∈ sol, p < s.signals.length) :
    (sol.map (s.signals.getD · 0)).Nodup := by
  refine hsol.map_on fun p hp q hq he => ?_
  rw [List.getD_eq_getElem _ _ (hmem p hp), List.getD_eq_getElem _ _ (hmem q hq)] at he
  exact hnd.getElem_inj_iff.1 he

/-- There are no more columns than candidates. -/
theorem length_cands_le :
    ((List.range s.signals.length).filter (s.IsCand cands ·)).length ≤ cands.length := by
  have hmap := signals_nodup hnd (List.nodup_range.filter (s.IsCand cands ·)) fun p hp =>
    List.mem_range.1 (List.mem_filter.1 hp).1
  have hsub := (hmap.subperm fun x hx => by
    obtain ⟨p, hp, rfl⟩ := List.mem_map.1 hx
    exact (of_decide_eq_true (List.mem_filter.1 hp).2).2 : List.Subperm _ cands)
  simpa using hsub.length_le

/-- The bound on the number of columns cuts nothing off. -/
theorem collect_eq {xs : List NodeId} {col : Nat} (hxs : s.signals.drop col = xs)
    (hcol : col ≤ s.signals.length)
    (hlt : ((List.range col).filter (s.IsCand cands ·)).length < cands.length) :
    s.collect cands xs col ((List.range col).filter (s.IsCand cands ·)) =
      (List.range s.signals.length).filter (s.IsCand cands ·) := by
  induction xs generalizing col with
  | nil =>
    rw [List.drop_eq_nil_iff] at hxs
    rw [le_antisymm hcol hxs]
    rfl
  | cons x xs ih =>
    have hlen : col < s.signals.length := by
      by_contra hge
      rw [List.drop_eq_nil_of_le (Nat.le_of_not_lt hge)] at hxs
      cases hxs
    obtain ⟨hx, hrest⟩ : s.signals[col] = x ∧ s.signals.drop (col + 1) = xs := by
      rw [List.drop_eq_getElem_cons hlen] at hxs
      exact List.cons.inj hxs
    have hcand : s.IsCand cands col ↔ s.weight x ≠ 0 ∧ x ∈ cands := by
      rw [IsCand, weightOf, List.getD_eq_getElem _ _ hlen, hx]
    have hnext : (if ((List.range col).filter (s.IsCand cands ·)).length < cands.length ∧
        s.weight x ≠ 0 ∧ x ∈ cands then (List.range col).filter (s.IsCand cands ·) ++ [col]
        else (List.range col).filter (s.IsCand cands ·)) =
          (List.range (col + 1)).filter (s.IsCand cands ·) := by
      rw [List.range_succ, List.filter_append]
      by_cases hc : s.IsCand cands col
      · rw [if_pos ⟨hlt, hcand.1 hc⟩, List.filter_cons_of_pos (by simpa using hc), List.filter_nil]
      · rw [if_neg fun h => hc (hcand.2 h.2), List.filter_cons_of_neg (by simpa using hc),
          List.filter_nil, List.append_nil]
    unfold collect
    dsimp only
    rw [hnext]
    split
    · rename_i hfull
      -- all candidates are found, so that the columns behind are none of them
      have hle := @length_cands_le s hnd cands
      have hsplit : List.range s.signals.length = List.range (col + 1) ++
          (List.range (s.signals.length - (col + 1))).map (col + 1 + ·) := by
        rw [← List.range_add, Nat.add_sub_cancel' hlen]
      rw [hsplit, List.filter_append, List.length_append, hfull] at hle
      rw [hsplit, List.filter_append]
      have hnil := List.length_eq_zero_iff.1 (Nat.le_zero.1 (Nat.le_of_add_le_add_left hle))
      rw [hnil, List.append_nil]
    · rename_i hfull
      refine ih hrest hlen (lt_of_le_of_ne ?_ hfull)
      rw [List.range_succ, List.filter_append, List.length_append]
      have hone : ([col].filter (s.IsCand cands ·)).length ≤ 1 := List.length_filter_le _ _
      omega

theorem candCols_eq (hne : cands ≠ []) :
    s.candCols cands = (List.range s.signals.length).filter (s.IsCand cands ·) :=
  collect_eq hnd List.drop_zero (Nat.zero_le _) (by simpa using List.length_pos_iff.2 hne)

end

/-! ## The reduction -/

/-- New candidates that are lighter than the old ones, or as light and fewer. -/
def Better (weight : NodeId → Int) (new old : List NodeId) : Prop :=
  (new.map weight).sum < (old.map weight).sum ∨
    (new.map weight).sum = (old.map weight).sum ∧ new.length < old.length

theorem takeBetter_spec {cands new : List NodeId} (hcands : FitsInt (cands.map s.weight).sum)
    (hnew : FitsInt (new.map s.weight).sum) : s.takeBetter cands new = cands ∨
      s.takeBetter cands new = new ∧ Better s.weight new cands := by
  unfold takeBetter
  rw [sumInt_eq, sumInt_eq, toInt_eq_iff.2 hcands, toInt_eq_iff.2 hnew]
  dsimp only
  split
  · exact .inl rfl
  · rename_i hgood
    rw [not_or, not_and, not_lt, not_le] at hgood
    refine .inr ⟨rfl, ?_⟩
    rcases lt_or_eq_of_le hgood.1 with hlt | he
    · exact .inl hlt
    · exact .inr ⟨he, hgood.2 he⟩

/-- Every sum of the weights of different signals fits an `int`. -/
def WeightsFit (weight : NodeId → Int) (sigs : List NodeId) : Prop :=
  ∀ l : List NodeId, l.Nodup → l ⊆ sigs → FitsInt (l.map weight).sum

/-- Without negative weights it is enough that the sum of all does. -/
theorem WeightsFit.of_nonneg {weight : NodeId → Int} {sigs : List NodeId}
    (hw : ∀ x ∈ sigs, 0 ≤ weight x) (h : (sigs.map weight).sum < 2 ^ 31) :
    WeightsFit weight sigs := by
  intro l hnodup hsub
  obtain ⟨l', hperm, hl'⟩ := List.subperm_of_subset hnodup hsub
  have hle : (l'.map weight).sum ≤ (sigs.map weight).sum :=
    (hl'.map weight).sum_le_sum fun w hmem => by
      obtain ⟨x, hx, rfl⟩ := List.mem_map.1 hmem
      exact hw x hx
  have hpos : 0 ≤ (l.map weight).sum := List.sum_nonneg fun w hmem => by
    obtain ⟨x, hx, rfl⟩ := List.mem_map.1 hmem
    exact hw x (hsub hx)
  rw [(hperm.map weight).sum_eq] at hle
  exact ⟨by omega, by omega⟩

section
variable (hc : s.Columns) (hsig : s.signals.length = s.colSize) {inexcluded : List InExType}
  {sol : List Nat}
include hc hsig

/-- **The candidates at the end** are the old ones, or better ones of a cover without newly excluded
columns. -/
theorem improve_spec (hlite : ∀ sol, s.Cover sol → isSolutionLite s.pvaluesCol s.nomask sol = true)
    (hnd : s.signals.Nodup) (hfit : WeightsFit s.weight s.signals) (h : s.Cover sol)
    (hnodup : sol.Nodup) (hne : sol ≠ []) {cands : List NodeId}
    (hcands : FitsInt (cands.map s.weight).sum) :
    ∃ fuel new, s.improve fuel cands inexcluded sol = some (1, new) ∧
      (new = cands ∨ Better s.weight new cands ∧ ∃ sol', s.Cover sol' ∧
        new = sol'.map (s.signals.getD · 0) ∧
          ∀ p ∈ sol', inexcluded.getD p .noInEx = .excludedFlag → p ∈ sol) := by
  obtain ⟨fuel, sol', hr, hl, -⟩ :=
    @reduceWeightReplace11Traverse_spec s hc hsig inexcluded sol h hnodup hne
  have hmem : ∀ p ∈ sol', p < s.signals.length := fun p hp => hsig ▸ hl.cover.mem p hp
  have hnew := hfit _ (signals_nodup hnd hl.nodup hmem) fun x hx => by
    obtain ⟨p, hp, rfl⟩ := List.mem_map.1 hx
    rw [List.getD_eq_getElem _ _ (hmem p hp)]
    exact List.getElem_mem _
  refine ⟨fuel, s.takeBetter cands (sol'.map (s.signals.getD · 0)), ?_, ?_⟩
  · unfold improve
    rw [hr, Option.bind_eq_bind, Option.bind_some]
    dsimp only
    rw [if_pos (hlite sol' hl.cover)]
    rfl
  · rcases takeBetter_spec hcands hnew with he | ⟨he, hb⟩
    · exact .inl he
    · exact .inr ⟨he.symm ▸ hb, sol', hl.cover, he, hl.old⟩

end

/-! ## The flags -/

/-- The columns that are put behind a solution. -/
theorem addCols_spec (l curSol : List Nat) :
    curSol ⊆ l.foldl (fun sol col => if col ∈ sol then sol else sol ++ [col]) curSol ∧
    (curSol.Nodup →
      (l.foldl (fun sol col => if col ∈ sol then sol else sol ++ [col]) curSol).Nodup) ∧
    ∀ p ∈ l.foldl (fun sol col => if col ∈ sol then sol else sol ++ [col]) curSol,
      p ∈ curSol ∨ p ∈ l := by
  induction l generalizing curSol with
  | nil => exact ⟨List.Subset.refl _, id, fun p hp => .inl hp⟩
  | cons col l ih =>
    rw [List.foldl_cons]
    by_cases hin : col ∈ curSol
    · rw [if_pos hin]
      obtain ⟨h1, h2, h3⟩ := ih curSol
      exact ⟨h1, h2, fun p hp => (h3 p hp).imp_right (List.mem_cons_of_mem col)⟩
    · rw [if_neg hin]
      obtain ⟨h1, h2, h3⟩ := ih (curSol ++ [col])
      refine ⟨fun p hp => h1 (List.mem_append_left _ hp), fun hnd => h2 ?_, fun p hp => ?_⟩
      · exact List.nodup_append'.2 ⟨hnd, List.nodup_singleton _,
          List.disjoint_singleton.2 hin⟩
      · rcases h3 p hp with hp | hp
        · rcases List.mem_append.1 hp with hp | hp
          · exact .inl hp
          · exact .inr (List.mem_singleton.1 hp ▸ List.mem_cons_self)
        · exact .inr (List.mem_cons_of_mem col hp)

/-- What comes into the solution is included. -/
theorem inExcludeSigsFull_curSol (rows cols : List Bitvector) (curSol : List Nat)
    (excludedSigs includedSigs : List NodeId) (flags : List InExType) (rowmask : Bitvector) :
    let c := s.flagScan (dropCommon excludedSigs includedSigs) flags
    let o := s.inExcludeSigsFull rows cols curSol excludedSigs includedSigs flags rowmask false
    curSol ⊆ o.curSol ∧ (curSol.Nodup → o.curSol.Nodup) ∧
      ∀ p ∈ o.curSol, p ∈ curSol ∨ p ∈ c.includecol := by
  have hsame : curSol ⊆ curSol ∧ (curSol.Nodup → curSol.Nodup) ∧ ∀ p ∈ curSol, p ∈ curSol ∨
      p ∈ (s.flagScan (dropCommon excludedSigs includedSigs) flags).includecol :=
    ⟨List.Subset.refl _, id, fun p hp => .inl hp⟩
  intro c o
  unfold o inExcludeSigsFull
  dsimp only
  split
  · exact hsame
  · split
    · exact addCols_spec _ _
    · exact hsame

section
variable (hnd : s.signals.Nodup) (hsig : s.signals.length = s.colSize)
  {excludedSigs includedSigs : List NodeId} (hex : excludedSigs.Nodup) (hinc : includedSigs.Nodup)
include hnd hsig hex hinc

/-- **The signals to be excluded** are flagged, and only columns to be included come into the
solution. -/
theorem inExcludeSigsFull_listed (rows cols : List Bitvector) (rowmask : Bitvector)
    {curSol : List Nat} (hsol : ∀ p ∈ curSol, p < s.colSize) (hnodup : curSol.Nodup) :
    let o := s.inExcludeSigsFull rows cols curSol excludedSigs includedSigs
      (List.replicate s.colSize .noInEx) rowmask false
    o.curSol.Nodup ∧ curSol ⊆ o.curSol ∧ (∀ p ∈ o.curSol, p < s.colSize) ∧
      ∀ p < s.colSize, s.signals.getD p 0 ∈ excludedSigs → s.signals.getD p 0 ∉ includedSigs →
        o.inexcluded.getD p .noInEx = .excludedFlag ∧ (p ∈ o.curSol → p ∈ curSol) := by
  intro o
  obtain ⟨hsub, hnd', hfrom⟩ := inExcludeSigsFull_curSol (s := s) rows cols curSol excludedSigs
    includedSigs (List.replicate s.colSize .noInEx) rowmask
  have hscan := flagScan_spec (s := s) (dropCommon excludedSigs includedSigs)
  rw [hsig] at hscan
  refine ⟨hnd' hnodup, hsub, fun p hp => ?_, fun p hp hx hnot => ?_⟩
  · rcases hfrom p hp with hp | hp
    · exact hsol p hp
    · exact hsig ▸ ((hscan.includecol p).1 hp).1
  · have hp' : p < s.signals.length := hsig ▸ hp
    obtain ⟨hm1, hm2⟩ := mem_dropCommon hex hinc (s.signals.getD p 0)
    have hmem := hm1.2 ⟨hx, fun hz => hnot (setIntersection_subset _ _ _ hz).2⟩
    have hinc' : ¬IncAt s.weight (dropCommon excludedSigs includedSigs).2 s.signals p :=
      fun hI => hnot (hm2.1 hI.2.1).1
    have hmet := met_lt s.weight hnd hp' hmem
    constructor
    · have hflag : o.inexcluded = _ := inExcludeSigsFull_inexcluded rows cols curSol excludedSigs
        includedSigs (List.replicate s.colSize .noInEx) rowmask false
      rw [hflag, hscan.flags p hp', flagAt_excluded]
      refine ⟨?_, hinc'⟩
      by_cases hw : s.weight (s.signals.getD p 0) = 0
      · exact .inl ⟨hw, .inr (.inl hmet)⟩
      · exact .inr ⟨hw, hmem, hmet⟩
    · intro hin
      rcases hfrom p hin with hin | hin
      · exact hin
      · exact absurd ((hscan.includecol p).1 hin).2 hinc'

end

/-! ## The rows -/

/-- The row has a 1 in the column of a signal of the list. -/
def rowCovered (sigs cands : List NodeId) (row : List Bool) : Bool :=
  (List.range sigs.length).any fun k => sigs.getD k 0 ∈ cands && row.getD k false

def CoversRows (sigs : List NodeId) (rows : List (List Bool)) (cands : List NodeId) : Prop :=
  ∀ row ∈ rows, rowCovered sigs cands row = true

instance (sigs : List NodeId) (rows : List (List Bool)) (cands : List NodeId) :
    Decidable (CoversRows sigs rows cands) :=
  inferInstanceAs (Decidable (∀ row ∈ rows, rowCovered sigs cands row = true))

theorem rowCovered_iff {sigs cands : List NodeId} {row : List Bool} :
    rowCovered sigs cands row = true ↔
      ∃ k < sigs.length, sigs.getD k 0 ∈ cands ∧ row.getD k false = true := by
  simp [rowCovered]

theorem CoversRows.mono {sigs cands cands' : List NodeId} {rows : List (List Bool)}
    (h : CoversRows sigs rows cands) (hsub : cands ⊆ cands') : CoversRows sigs rows cands' := by
  intro row hrow
  obtain ⟨k, hk, hmem, hone⟩ := rowCovered_iff.1 (h row hrow)
  exact rowCovered_iff.2 ⟨k, hk, hsub hmem, hone⟩

section
variable {sigs : List NodeId} {weight : NodeId → Int} {all : List (List Bool)}
  (hf : Filled sigs weight s all) (hne : all ≠ [])
include hf hne

theorem Filled.columns : s.Columns := ⟨(hf.copies hne).colLength, (hf.copies hne).col⟩

theorem Filled.lite_iff (hcol : sigs ≠ []) (sol : List Nat) :
    isSolutionLite s.pvaluesCol s.nomask sol = true ↔
      Passes s.rowSize fun i => sol.any fun p => (vec s.pvaluesCol p).bit i := by
  refine (hf.copies hne).lite_iff ?_ sol
  show 0 < s.colSize
  rw [hf.colSize]
  exact List.length_pos_iff.2 hcol

/-- A solution covers the rows of which its columns are. -/
theorem Filled.cover_rows {sol : List Nat} (h : s.Cover sol) :
    CoversRows sigs all (sol.map (s.signals.getD · 0)) := by
  intro row hrow
  obtain ⟨i, hi, rfl⟩ := List.getElem_of_mem hrow
  obtain ⟨p, hp, hbit⟩ := h.rows i (hf.rowSize ▸ hi)
  have hlt := h.mem p hp
  rw [(hf.col_bit hne hlt).2, List.getD_eq_getElem _ _ hi] at hbit
  refine rowCovered_iff.2 ⟨p, hf.colSize ▸ hlt, ?_, hbit⟩
  exact List.mem_map.2 ⟨p, hp, by rw [hf.signals]⟩

variable (hnd : sigs.Nodup) {cands : List NodeId} (hc : cands ≠ [])
include hnd hc

omit hne in
theorem Filled.mem_candCols {p : Nat} : p ∈ s.candCols cands ↔
    p < s.colSize ∧ sigs.getD p 0 ∈ cands.filter (weight · ≠ 0) := by
  rw [candCols_eq (hf.signals ▸ hnd) hc, List.mem_filter, List.mem_range, hf.colSize, hf.signals,
    decide_eq_true_eq, IsCand, weightOf, hf.signals, hf.weight, List.mem_filter, decide_eq_true_eq,
    and_comm (a := weight _ ≠ 0)]

/-- What the columns of the candidates cover. -/
theorem Filled.candCols_covered (i : Nat) :
    ((s.candCols cands).any fun p => (vec s.pvaluesCol p).bit i) =
      rowCovered sigs (cands.filter (weight · ≠ 0)) (all.getD i []) := by
  rw [Bool.eq_iff_iff, List.any_eq_true, rowCovered_iff]
  constructor
  · intro h
    obtain ⟨p, hp, hbit⟩ := h
    obtain ⟨hlt, hmem⟩ := (hf.mem_candCols hnd hc).1 hp
    rw [(hf.col_bit hne hlt).2] at hbit
    exact ⟨p, hf.colSize ▸ hlt, hmem, hbit⟩
  · intro h
    obtain ⟨k, hk, hmem, hone⟩ := h
    have hk' : k < s.colSize := hf.colSize.symm ▸ hk
    refine ⟨k, (hf.mem_candCols hnd hc).2 ⟨hk', hmem⟩, ?_⟩
    rw [(hf.col_bit hne hk').2]
    exact hone

theorem Filled.candCols_cover :
    s.Cover (s.candCols cands) ↔ CoversRows sigs all (cands.filter (weight · ≠ 0)) := by
  constructor
  · intro h row hrow
    obtain ⟨i, hi, rfl⟩ := List.getElem_of_mem hrow
    have := List.any_eq_true.2 (h.rows i (hf.rowSize ▸ hi))
    rw [hf.candCols_covered hne hnd hc, List.getD_eq_getElem _ _ hi] at this
    exact this
  · intro h
    refine ⟨fun p hp => ((hf.mem_candCols hnd hc).1 hp).1, fun i hi => ?_⟩
    have hi' : i < all.length := hf.rowSize ▸ hi
    apply List.any_eq_true.1
    rw [hf.candCols_covered hne hnd hc, List.getD_eq_getElem _ _ hi']
    exact h _ (List.getElem_mem hi')

/-- The first test of the solution. -/
theorem Filled.lite_candCols (hcol : sigs ≠ []) (hlast : ¬LastWordEmpty all.length fun i =>
    rowCovered sigs (cands.filter (weight · ≠ 0)) (all.getD i [])) :
    isSolutionLite s.pvaluesCol s.nomask (s.candCols cands) = true ↔
      CoversRows sigs all (cands.filter (weight · ≠ 0)) := by
  have hpos : 0 < all.length := List.length_pos_iff.2 hne
  have hbeyond : ∀ i, all.length ≤ i →
      rowCovered sigs (cands.filter (weight · ≠ 0)) (all.getD i []) = false := by
    intro i hi
    rw [List.getD_eq_default _ _ hi]
    simp [rowCovered]
  rw [hf.lite_iff hne hcol, funext (hf.candCols_covered hne hnd hc), hf.rowSize,
    (Passes.exact_iff hpos hbeyond).2 hlast, CoversRows, List.forall_mem_iff_forall_getElem]
  refine forall_congr' fun i => forall_congr' fun hi => ?_
  rw [List.getD_eq_getElem _ _ hi]

end

/-! ## The optimization -/

/-- What is returned, 1 if `feasible` and else 0, and what becomes of the candidates. -/
structure Optimized (sigs : List NodeId) (weight : NodeId → Int) (rows : List (List Bool))
    (cands : List NodeId) (feasible : Prop) (excluded : NodeId → Prop) (ret : Nat)
    (new : List NodeId) : Prop where
  ret : feasible ∧ ret = 1 ∨ ¬feasible ∧ ret = 0 ∧ new = cands
  covers : feasible → CoversRows sigs rows new
  better : new = cands ∨ Better weight new cands
  excluded : ∀ x ∈ new, excluded x → x ∈ cands

theorem Optimized.unchanged {sigs : List NodeId} {weight : NodeId → Int} {rows : List (List Bool)}
    {cands : List NodeId} {feasible : Prop} {excluded : NodeId → Prop} (h : ¬feasible) :
    Optimized sigs weight rows cands feasible excluded 0 cands :=
  ⟨.inr ⟨h, rfl, rfl⟩, fun hf => absurd hf h, .inl rfl, fun _ hx _ => hx⟩

theorem not_coversRows_nil {sigs : List NodeId} {rows : List (List Bool)} (hne : rows ≠ []) :
    ¬CoversRows sigs rows [] := by
  intro h
  obtain ⟨row, hrow⟩ := List.exists_mem_of_ne_nil _ hne
  obtain ⟨k, -, hmem, -⟩ := rowCovered_iff.1 (h row hrow)
  cases hmem

/-- The solution and the flags for the reduction. -/
structure Excludes (s : Setcover) (excluded : NodeId → Prop) (curSol sol : List Nat)
    (flags : List InExType) : Prop where
  nodup : sol.Nodup
  sub : curSol ⊆ sol
  mem : ∀ p ∈ sol, p < s.colSize
  old : ∀ p ∈ sol, excluded (s.signals.getD p 0) → p ∈ curSol
  flag : ∀ p < s.colSize, excluded (s.signals.getD p 0) → flags.getD p .noInEx = .excludedFlag

section
variable {sigs : List NodeId} {weight : NodeId → Int} {all : List (List Bool)}
  (hf : Filled sigs weight s all) (hne : all ≠ []) (hcol : sigs ≠ []) (hnd : sigs.Nodup)
  (hfit : WeightsFit weight sigs) {cands : List NodeId} (hcands : FitsInt (cands.map weight).sum)
include hf hne hcol hnd hfit hcands

/-- The reduction. -/
theorem Filled.improve_optimized {excluded : NodeId → Prop} {sol : List Nat}
    {flags : List InExType} (hc : cands ≠ [])
    (hcov : CoversRows sigs all (cands.filter (weight · ≠ 0)))
    (h : s.Excludes excluded (s.candCols cands) sol flags) {feasible : Prop} (hfeas : feasible) :
    ∃ fuel ret new, s.improve fuel cands flags sol = some (ret, new) ∧
      Optimized sigs weight all cands feasible excluded ret new := by
  have hsig : s.signals.length = s.colSize := by rw [hf.signals, hf.colSize]
  have hcover : s.Cover sol := by
    refine ⟨h.mem, fun i hi => ?_⟩
    obtain ⟨p, hp, hbit⟩ := ((hf.candCols_cover hne hnd hc).2 hcov).rows i hi
    exact ⟨p, h.sub hp, hbit⟩
  have hsol : sol ≠ [] := by
    intro he
    obtain ⟨p, hp, -⟩ := hcover.rows 0 (by rw [hf.rowSize]; exact List.length_pos_iff.2 hne)
    rw [he] at hp
    cases hp
  have hlite : ∀ sol, s.Cover sol → isSolutionLite s.pvaluesCol s.nomask sol = true :=
    fun sol hsol => (hf.lite_iff hne hcol sol).2
      (.inl fun i hi => List.any_eq_true.2 (hsol.rows i hi))
  obtain ⟨fuel, new, hr, hnew⟩ := improve_spec (hf.columns hne) hsig hlite (hf.signals ▸ hnd)
    (hf.weight ▸ hf.signals ▸ hfit) hcover h.nodup hsol (hf.weight ▸ hcands)
  refine ⟨fuel, 1, new, hr, .inl ⟨hfeas, rfl⟩, fun _ => ?_, ?_, ?_⟩
  · rcases hnew with rfl | ⟨-, sol', hcov', rfl, -⟩
    · exact hcov.mono List.filter_sublist.subset
    · exact hf.cover_rows hne hcov'
  · rw [hf.weight] at hnew
    exact hnew.imp_right And.left
  · intro x hx hxe
    rcases hnew with rfl | ⟨-, sol', hcov', rfl, hold⟩
    · exact hx
    · obtain ⟨p, hp, rfl⟩ := List.mem_map.1 hx
      have hin := h.old p (hold p hp (h.flag p (hcov'.mem p hp) hxe)) hxe
      have := ((hf.mem_candCols hnd hc).1 hin).2
      rw [hf.signals]
      exact (List.mem_filter.1 this).1

variable (hlast : ¬LastWordEmpty all.length fun i =>
    rowCovered sigs (cands.filter (weight · ≠ 0)) (all.getD i []))
  {exclude : List Nat → Option (List Nat × List InExType)} {ok : Prop} {excluded : NodeId → Prop}
  {feasible : Prop}
  (hfeas : feasible ↔ CoversRows sigs all (cands.filter (weight · ≠ 0)) ∧ ok)
  (hnone : ¬ok → exclude (s.candCols cands) = none)
  (hsome : ok → (∀ p ∈ s.candCols cands, p < s.colSize) → (s.candCols cands).Nodup →
    ∃ sol flags, exclude (s.candCols cands) = some (sol, flags) ∧
      s.Excludes excluded (s.candCols cands) sol flags)
include hlast hfeas hnone hsome

theorem Filled.optimizeWith_optimized : ∃ fuel ret new,
    s.optimizeWith fuel cands exclude = some (ret, new) ∧
      Optimized sigs weight all cands feasible excluded ret new := by
  by_cases hc : cands = []
  · subst hc
    exact ⟨0, 0, _, rfl, .unchanged fun h => not_coversRows_nil hne (hfeas.1 h).1⟩
  · by_cases hcov : CoversRows sigs all (cands.filter (weight · ≠ 0))
    · have htest := (hf.lite_candCols hne hnd hc hcol hlast).2 hcov
      by_cases hok : ok
      · have hnodup : (s.candCols cands).Nodup := by
          rw [candCols_eq (hf.signals ▸ hnd) hc]
          exact List.nodup_range.filter _
        obtain ⟨sol, flags, he, hexc⟩ :=
          hsome hok (fun p hp => ((hf.mem_candCols hnd hc).1 hp).1) hnodup
        obtain ⟨fuel, ret, new, hr, hopt⟩ :=
          hf.improve_optimized hne hcol hnd hfit hcands hc hcov hexc (hfeas.2 ⟨hcov, hok⟩)
        refine ⟨fuel, ret, new, ?_, hopt⟩
        rw [optimizeWith, if_neg hc]
        dsimp only
        rw [htest, he]
        exact hr
      · refine ⟨0, 0, cands, ?_, .unchanged fun h => hok (hfeas.1 h).2⟩
        rw [optimizeWith, if_neg hc]
        dsimp only
        rw [htest, hnone hok]
        rfl
    · have htest := (Bool.eq_false_iff).2 (mt (hf.lite_candCols hne hnd hc hcol hlast).1 hcov)
      refine ⟨0, 0, cands, ?_, .unchanged fun h => hcov (hfeas.1 h).1⟩
      rw [optimizeWith, if_neg hc]
      dsimp only
      rw [htest]
      rfl

end

/-- Every row has a 1 outside of the range. -/
def RangeLeaves (sigs : List NodeId) (rows : List (List Bool)) (a b : Int) : Prop :=
  a ≤ b ∧ ∀ row ∈ rows, ∃ k < sigs.length, row.getD k false = true ∧ ¬(a ≤ k ∧ k ≤ b)

/-- A row is left without a column exactly if all of its columns are cleared. -/
theorem resetRows_any_iff (hs : (s.withCopies s.pvaluesRow s.pvaluesCol).WellFormed) {l : List Nat}
    (hl : ∀ k ∈ l, k < s.colSize) : (s.resetRows l).any (·.count = 0) = true ↔
      ∃ i < s.rowSize, ∀ k < s.colSize, (vec s.pvaluesCol k).bit i = true → k ∈ l := by
  constructor
  · intro h
    obtain ⟨r1, r2⟩ := resetRows_spec hs hl
    obtain ⟨v, hv, hcount⟩ := List.any_eq_true.1 h
    obtain ⟨i, hi, rfl⟩ := List.getElem_of_mem hv
    have hi' : i < s.rowSize := r1 ▸ hi
    rw [← vec_eq_getElem hi, decide_eq_true_eq, count_eq_zero_iff (r2 i hi').1.1] at hcount
    refine ⟨i, hi', fun k hk hbit => ?_⟩
    have hag : (vec s.pvaluesRow i).bit k = (vec s.pvaluesCol k).bit i := hs.agree i hi' k hk
    have := hcount k
    rw [(r2 i hi').2, hag, hbit] at this
    simpa using this
  · intro h
    obtain ⟨i, hi, hall⟩ := h
    exact resetRows_zero hs hl hi hall

/-- When `InExcludeSigs_Range` returns 0. -/
theorem Filled.range_ret {sigs : List NodeId} {weight : NodeId → Int} {all : List (List Bool)}
    (hf : Filled sigs weight s all) (hne : all ≠ []) (a b : Int) (cols : List Bitvector)
    (flags : List InExType) :
    (s.inExcludeSigsRange s.start.rows cols a b flags).1 = 0 ↔ ¬RangeLeaves sigs all a b := by
  unfold inExcludeSigsRange RangeLeaves
  by_cases hgt : a > b
  · rw [if_pos hgt]
    exact ⟨fun _ h => absurd h.1 (not_le.2 hgt), fun _ => rfl⟩
  · rw [if_neg hgt]
    dsimp only
    generalize hrange : (List.range s.colSize).filter _ = l
    have hmem : ∀ k, k ∈ l ↔ k < s.colSize ∧ a ≤ k ∧ k ≤ b := by
      intro k
      rw [← hrange, List.mem_filter, List.mem_range, decide_eq_true_eq]
      refine and_congr_right fun hk => ?_
      split_ifs <;> omega
    have hany := resetRows_any_iff (hf.copies hne) (l := l) fun k hk => ((hmem k).1 hk).1
    have hrows : (∃ i < s.rowSize, ∀ k < s.colSize, (vec s.pvaluesCol k).bit i = true → k ∈ l) ↔
        ¬∀ row ∈ all, ∃ k < sigs.length, row.getD k false = true ∧ ¬(a ≤ k ∧ k ≤ b) := by
      rw [List.forall_mem_iff_forall_getElem, hf.rowSize]
      push Not
      refine exists_congr fun i => exists_prop.symm.trans (exists_congr fun hi => ?_)
      rw [hf.colSize]
      refine forall_congr' fun k => forall_congr' fun hk => ?_
      have hk' : k < s.colSize := hf.colSize.symm ▸ hk
      rw [(hf.col_bit hne hk').2, List.getD_eq_getElem _ _ hi, hmem, and_iff_right hk']
    rw [not_and, ← hrows, ← hany]
    rw [forall_prop_of_true (not_lt.1 hgt)]
    show (if (s.resetRows l).any (·.count = 0) = true then 0 else 1) = 0 ↔ _
    split
    · rename_i h
      exact ⟨fun _ => h, fun _ => rfl⟩
    · rename_i h
      exact ⟨fun h1 => absurd h1 Nat.one_ne_zero, fun h1 => absurd h1 h⟩

/-- The columns of the range are flagged. -/
theorem range_flag {a b : Int} {rows cols : List Bitvector} {p : Nat} (hp : p < s.colSize)
    (hin : a ≤ p ∧ p ≤ b) :
    (s.inExcludeSigsRange rows cols a b (List.replicate s.colSize .noInEx)).2.2.2.getD p .noInEx =
      .excludedFlag := by
  have key : ∀ (l : List Nat) (flags : List InExType), p < flags.length →
      (p ∈ l ∨ flags.getD p .noInEx = .excludedFlag) →
      (l.foldl (fun flags col => flags.set col InExType.excludedFlag) flags).getD p .noInEx =
        .excludedFlag := by
    intro l
    induction l with
    | nil =>
      intro flags _ h
      exact h.resolve_left List.not_mem_nil
    | cons col l ih =>
      intro flags hlen h
      rw [List.foldl_cons]
      refine ih _ (by rwa [List.length_set]) ?_
      by_cases he : p = col
      · right
        rw [he, getD_set_flag (he ▸ hlen), if_pos rfl]
      · rcases h with hin | hflag
        · exact .inl ((List.mem_cons.1 hin).resolve_left he)
        · right
          by_cases hcol : col < flags.length
          · rw [getD_set_flag hcol, if_neg he, hflag]
          · rw [List.set_eq_of_length_le (Nat.le_of_not_lt hcol), hflag]
  unfold inExcludeSigsRange
  rw [if_neg (by omega)]
  refine key _ _ (by simpa using hp) (.inl (List.mem_filter.2 ⟨List.mem_range.2 hp, ?_⟩))
  rw [decide_eq_true_eq]
  split_ifs <;> omega

section
variable {sigs : List NodeId} {weight : NodeId → Int} {batches : List (List (List Bool))}
  (hnd : sigs.Nodup) (hcol : sigs ≠ []) (hne : batches.flatten ≠ [])
  (hfit : WeightsFit weight sigs) {cands : List NodeId} (hcands : FitsInt (cands.map weight).sum)
  (hlast : ¬LastWordEmpty batches.flatten.length fun i =>
    rowCovered sigs (cands.filter (weight · ≠ 0)) (batches.flatten.getD i []))
include hnd hcol hne hfit hcands hlast

/-- **`OptimizeWeight`** returns 1 exactly if the candidates with a weight cover all rows. Then the
candidates that it leaves cover them, too, and are the old ones, or lighter, or as light and fewer,
and a signal that is to be excluded is only there if it was before. -/
theorem optimizeWeight_spec {excludedSigs includedSigs : List NodeId} (hex : excludedSigs.Nodup)
    (hinc : includedSigs.Nodup) : ∃ fuel ret new,
      (fill sigs weight batches).optimizeWeight fuel cands excludedSigs includedSigs =
        some (ret, new) ∧
      Optimized sigs weight batches.flatten cands
        (CoversRows sigs batches.flatten (cands.filter (weight · ≠ 0)))
        (fun x => x ∈ excludedSigs ∧ x ∉ includedSigs) ret new := by
  have hf := fill_filled sigs weight batches
  generalize fill sigs weight batches = s, batches.flatten = all at hf hne hlast ⊢
  have hsig : s.signals.length = s.colSize := by rw [hf.signals, hf.colSize]
  refine hf.optimizeWith_optimized hne hcol hnd hfit hcands hlast (and_iff_left trivial).symm
    (fun h => absurd trivial h) fun _ hmem hnodup => ?_
  obtain ⟨h1, h2, h3, h4⟩ := inExcludeSigsFull_listed (hf.signals ▸ hnd) hsig hex hinc s.start.rows
    (List.replicate s.colSize {}) (Bitvector.setSize s.rowSize) hmem hnodup
  exact ⟨_, _, rfl, h1, h2, h3, fun p hp hx => (h4 p (h3 p hp) hx.1 hx.2).2 hp,
    fun p hp hx => (h4 p hp hx.1 hx.2).1⟩

/-- **`OptimizeWeight_ExRange`** returns 1 exactly if the candidates with a weight cover all rows
and every row has a 1 outside of the range. A signal of the range is only there if it was before. -/
theorem optimizeWeightExRange_spec (a b : Int) : ∃ fuel ret new,
    (fill sigs weight batches).optimizeWeightExRange fuel cands a b = some (ret, new) ∧
      Optimized sigs weight batches.flatten cands
        (CoversRows sigs batches.flatten (cands.filter (weight · ≠ 0)) ∧
          RangeLeaves sigs batches.flatten a b)
        (fun x => ∃ k < sigs.length, sigs.getD k 0 = x ∧ a ≤ k ∧ k ≤ b) ret new := by
  have hf := fill_filled sigs weight batches
  generalize fill sigs weight batches = s, batches.flatten = all at hf hne hlast ⊢
  have hret := hf.range_ret hne a b (List.replicate s.colSize {}) (List.replicate s.colSize .noInEx)
  refine hf.optimizeWith_optimized hne hcol hnd hfit hcands hlast Iff.rfl (fun h => ?_)
    fun h hmem hnodup => ?_
  · dsimp only
    rw [if_pos (hret.2 h)]
  · refine ⟨_, _, if_neg fun h0 => hret.1 h0 h, hnodup, List.Subset.refl _, hmem, fun p hp _ => hp,
      fun p hp hx => ?_⟩
    obtain ⟨k, hk, he, hin⟩ := hx
    -- the signals are those of one column only
    have hp' : p < sigs.length := hf.colSize ▸ hp
    rw [hf.signals, List.getD_eq_getElem _ _ hk, List.getD_eq_getElem _ _ hp',
      hnd.getElem_inj_iff] at he
    exact range_flag hp (he ▸ hin)

end

/-- Two rows and three columns, of which the first two have the same row. -/
def twinColumns : List (List (List Bool)) := [[[true, true, false]], [[false, false, true]]]

def twinWeights (x : NodeId) : Int := if x = 0 then 5 else 3

theorem twinWeights_fit : WeightsFit twinWeights [0, 1, 2] := .of_nonneg (by decide) (by decide)

theorem optimizeWeight_spec_three : ∃ fuel ret new,
    (fill [0, 1, 2] twinWeights twinColumns).optimizeWeight fuel [0, 2] [] [] = some (ret, new) ∧
      Optimized [0, 1, 2] twinWeights twinColumns.flatten [0, 2]
        (CoversRows [0, 1, 2] twinColumns.flatten ([0, 2].filter (twinWeights · ≠ 0)))
        (fun x => x ∈ [] ∧ x ∉ []) ret new ∧ ret = 1 := by
  obtain ⟨fuel, ret, new, hr, hopt⟩ : ∃ fuel ret new, (fill [0, 1, 2] twinWeights
      twinColumns).optimizeWeight fuel [0, 2] [] [] = some (ret, new) ∧
        Optimized _ _ _ _ _ _ _ _ :=
    optimizeWeight_spec (by decide) (by decide) (by decide) twinWeights_fit (by decide)
      (fun h => absurd h.1 (by decide)) (by decide) (by decide)
  refine ⟨fuel, ret, new, hr, hopt, ?_⟩
  rcases hopt.ret with ⟨-, h1⟩ | ⟨hno, -⟩
  · exact h1
  · exact absurd (by decide) hno

/-- With the second column excluded. -/
theorem optimizeWeightExRange_spec_three : ∃ fuel ret new,
    (fill [0, 1, 2] twinWeights twinColumns).optimizeWeightExRange fuel [0, 2] 1 1 =
        some (ret, new) ∧ ret = 1 ∧ 1 ∉ new := by
  obtain ⟨fuel, ret, new, hr, hopt⟩ : ∃ fuel ret new, (fill [0, 1, 2] twinWeights
      twinColumns).optimizeWeightExRange fuel [0, 2] 1 1 = some (ret, new) ∧
        Optimized _ _ _ _ _ _ _ _ :=
    optimizeWeightExRange_spec (by decide) (by decide) (by decide) twinWeights_fit (by decide)
      (fun h => absurd h.1 (by decide)) 1 1
  refine ⟨fuel, ret, new, hr, ?_, fun hin => ?_⟩
  · rcases hopt.ret with ⟨-, h1⟩ | ⟨hno, -⟩
    · exact h1
    · exact absurd ⟨by decide, by decide, by decide⟩ hno
  · exact absurd (hopt.excluded 1 hin ⟨1, by decide, by decide, by decide, by decide⟩) (by decide)

end Setcover

end Msyn.SC
