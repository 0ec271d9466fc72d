import Mathlib.Data.List.TakeWhile
import Msyn.Select.MinColSearch

/-!
# What the search leaves with

The scans, the shortcuts for pairs and triples and the iterations of the search, each with what it
keeps (`Scanned`, `Sound`) and with the covers that it leaves with (`Leaves`). Only a pair or a triple
can be a false cover (`Passing`). A scan of the columns that goes through shows that no column alone
covers all rows.
-/

namespace Msyn.SC

open Bitprocess Bitvector

namespace Setcover

/-- A vector with a count of 1 has one position. -/
theorem bit_unique {v : Bitvector} (hv : v.Good) (h1 : v.count = 1) {a b : Nat}
    (ha : v.bit a = true) (hb : v.bit b = true) : a = b := by
  have hlt : ∀ i, v.bit i = true → i ∈ List.range v.bsize := by
    intro i hi
    rw [List.mem_range]
    by_contra hge
    rw [hv.beyond i (by omega)] at hi
    cases hi
  have hone := countP_add_one (p := fun j => v.bit j && !decide (j = a)) (q := v.bit)
    List.nodup_range (hlt a ha) (by simp) ha fun j hj => by simp [hj]
  have hc : v.counter = 1 := h1
  rw [← hv.counter, hc] at hone
  by_contra hne
  have hzero := List.countP_eq_zero.1 (by omega :
    (List.range v.bsize).countP (fun j => v.bit j && !decide (j = a)) = 0) b (hlt b hb)
  have hne' : ¬ b = a := fun h => hne h.symm
  simp [hb, hne'] at hzero

theorem exists_bit {v : Bitvector} (hv : v.Good) (h : v.count ≠ 0) :
    ∃ i < v.bsize, v.bit i = true := by
  have hpos : 0 < (List.range v.bsize).countP v.bit := by
    rw [← hv.counter]
    exact Nat.pos_of_ne_zero h
  obtain ⟨i, hi, hb⟩ := List.countP_pos_iff.1 hpos
  exact ⟨i, List.mem_range.1 hi, hb⟩

section
variable {s : Setcover} (hs : s.WellFormed)
include hs

/-! ## The scan of the rows -/

/-- A row with one column left: only that column covers it, and it is not covered yet. -/
theorem Sound.essential {st : Search} (h : s.Sound st) {i : Nat} (hi : i < s.rowSize)
    (h1 : (vec st.rows i).count = 1) : (vec st.rows i).nextSet (-1) < s.colSize ∧
      ∀ k < s.colSize, (vec s.pvaluesCol k).bit i = true → k = (vec st.rows i).nextSet (-1) := by
  obtain ⟨hg, hsize⟩ := h.row i hi
  obtain ⟨k, hk, hki⟩ := exists_bit hg (by omega)
  have hnext := nextSet_spec hg (-1)
  have hlt : (vec st.rows i).nextSet (-1) < (vec st.rows i).bsize := by
    by_contra hge
    rw [hnext.before k (by simp) (by omega)] at hki
    cases hki
  refine ⟨hsize ▸ hlt, fun k' hk' hk'i => bit_unique hg h1 ?_ (hnext.found hlt).2⟩
  -- the row is not covered, as some bit is left
  have hfree : st.rowmask.bit i = false := by
    rw [h.rowBit i hi, Bool.and_eq_true, Bool.not_eq_true'] at hki
    exact hki.2
  rw [h.rowBit i hi, hs.agree i hi k' hk', hk'i, hfree]
  rfl

structure Scanned (s : Setcover) (r : RowScan) : Prop where
  sound : s.Sound r.st
  proper : r.st.curSol ≠ [] → s.Proper
  left : r.st.rowmask.count < s.rowSize
  minPos : ∀ i ∈ r.minPosList, i < s.rowSize

theorem scanRow_ends {r : RowScan} (h : s.Scanned r) {i : Nat} (hi : i < s.rowSize) :
    Ends s.Leaves s.Scanned (s.scanRow r i) := by
  have hpush : ∀ l : List Nat, (∀ j ∈ l, j < s.rowSize) → ∀ j ∈ l ++ [i], j < s.rowSize :=
    fun l hl j hj => (List.mem_append.1 hj).elim (hl j) fun hj => List.mem_singleton.1 hj ▸ hi
  unfold scanRow
  dsimp only
  split
  · rename_i h1
    obtain ⟨hp, hone⟩ := h.sound.essential hs hi h1
    generalize (vec r.st.rows i).nextSet (-1) = p at hp hone ⊢
    obtain ⟨ht, hbit⟩ := h.sound.take hp
    split
    · rename_i hfull
      refine .inl ⟨ht.full hfull, fun hlen => h.proper fun hnil => ?_⟩
      have hsol : (r.st.take p).curSol = r.st.curSol ++ [p] := rfl
      rw [hsol, hnil] at hlen
      simp at hlen
    · rename_i hfull
      have hlt : (r.st.take p).rowmask.count < s.rowSize := lt_of_le_of_ne ht.count_le hfull
      refine ⟨ht, fun _ => ?_, hlt, h.minPos⟩
      by_cases hnil : r.st.curSol = []
      · -- only `p` covers row `i`, so only `p` could cover all rows
        intro k hk
        by_contra hall
        push Not at hall
        have hkp : k = p := hone k hk (by simpa using hall i hi)
        refine hfull ?_
        rw [Bitvector.count, ht.mask.counter, ht.size, List.countP_eq_length.2, List.length_range]
        intro j hj
        rw [hbit, ← hkp, Bool.or_eq_true]
        exact .inr (by simpa using hall j (List.mem_range.1 hj))
      · exact h.proper hnil
  · split
    · exact h
    · split
      · refine ⟨h.sound, h.proper, h.left, hpush _ fun j hj => ?_⟩
        split at hj
        · cases hj
        · exact h.minPos j hj
      · split
        · exact ⟨h.sound, h.proper, h.left, hpush _ h.minPos⟩
        · split
          · exact ⟨h.sound, h.proper, h.left, fun j hj => List.mem_singleton.1 hj ▸ hi⟩
          · exact h

omit hs
variable {st : Search} (h : s.Sound st) (hleft : st.rowmask.count < s.rowSize)
include h hleft

/-! ## The scan of the columns -/

/-- What the scan of the columns keeps: no column that was seen covers what is left. -/
structure ColScanned (s : Setcover) (st : Search) (seen : List Nat) (c : ColScan) : Prop where
  counts : ∀ k ∈ seen, (vec st.cols k).count + st.rowmask.count ≠ s.rowSize
  max : c.max + st.rowmask.count < s.rowSize
  maxPos : ∀ k ∈ c.maxPosList, k < s.colSize
  csum : ∀ k ∈ c.csum, k < s.colSize ∧ (vec st.cols k).count ≠ 0

omit h hleft in
theorem mem_insertCol (cols : List Bitvector) (csum : List Nat) (k x : Nat) :
    x ∈ insertCol cols csum k ↔ x = k ∨ x ∈ csum := by
  have key : ∀ l : List Nat, x ∈ insertRev cols k l ↔ x = k ∨ x ∈ l := by
    intro l
    induction l with
    | nil => simp [insertRev]
    | cons y l ih =>
      unfold insertRev
      split
      · rw [List.mem_cons, ih, List.mem_cons, or_left_comm]
      · rw [List.mem_cons]
  rw [insertCol, List.mem_reverse, key, List.mem_reverse]

theorem scanCol_ends (hp : st.curSol ≠ [] → s.Proper) {seen : List Nat} {c : ColScan} {k : Nat}
    (hc : s.ColScanned st seen c) (hk : k < s.colSize) :
    Ends s.Leaves (s.ColScanned st (seen ++ [k])) (scanCol st c k) := by
  have hle := h.count_add_le hk
  have hmsize : st.rowmask.size = s.rowSize := h.size
  -- a column with a row is entered in the order
  obtain ⟨c', hc', hmax', hpos', hcsum'⟩ : ∃ c' : ColScan,
      (if (vec st.cols k).count > 0 then { c with csum := insertCol st.cols c.csum k } else c) = c' ∧
      c'.max = c.max ∧ c'.maxPosList = c.maxPosList ∧
      ∀ x ∈ c'.csum, x < s.colSize ∧ (vec st.cols x).count ≠ 0 := by
    refine ⟨_, rfl, ?_⟩
    split
    · rename_i hpos
      refine ⟨rfl, rfl, fun x hx => ?_⟩
      rcases (mem_insertCol _ _ _ _).1 hx with rfl | hx
      · exact ⟨hk, by omega⟩
      · exact hc.csum x hx
    · exact ⟨rfl, rfl, hc.csum⟩
  have hseen : (vec st.cols k).count + st.rowmask.count ≠ s.rowSize →
      ∀ x ∈ seen ++ [k], (vec st.cols x).count + st.rowmask.count ≠ s.rowSize :=
    fun hne x hx => (List.mem_append.1 hx).elim (hc.counts x) fun hx => List.mem_singleton.1 hx ▸ hne
  unfold scanCol
  dsimp only
  rw [hc', hmax', hpos']
  split
  · rename_i hgt
    split
    · rename_i heq
      have hrest : (vec st.cols k).count + st.rowmask.count = s.rowSize := by omega
      refine .inl ⟨h.completes (h.completes_one hk hrest), fun hlen => hp fun hnil => ?_⟩
      rw [hnil] at hlen
      simp at hlen
    · rename_i hne
      exact ⟨hseen (by omega), by simp only; omega, fun x hx => List.mem_singleton.1 hx ▸ hk, hcsum'⟩
  · rename_i hgt
    have hm := hc.max
    split
    · refine ⟨hseen (by omega), by simp only; omega, fun x hx => ?_, hcsum'⟩
      rcases List.mem_append.1 hx with hx | hx
      · exact hc.maxPos x hx
      · exact List.mem_singleton.1 hx ▸ hk
    · exact ⟨hseen (by omega), by omega, fun x hx => hc.maxPos x (hpos' ▸ hx), hcsum'⟩

theorem scanCols_ends (hp : st.curSol ≠ [] → s.Proper) : Ends s.Leaves
    (s.ColScanned st (List.range s.colSize)) ((List.range s.colSize).foldlM (scanCol st) {}) := by
  refine Ends.foldlM (s.ColScanned st) (fun seen k c hpre hc => ?_)
    ⟨fun _ hk => absurd hk List.not_mem_nil, by simpa using hleft,
      fun _ hk => absurd hk List.not_mem_nil, fun _ hk => absurd hk List.not_mem_nil⟩
  exact scanCol_ends h hleft hp hc (List.mem_range.1 (hpre.subset (by simp)))

omit hleft in
/-- A scan of all columns leaves none that covers all rows. -/
theorem ColScanned.proper {c : ColScan} (hc : s.ColScanned st (List.range s.colSize) c) :
    s.Proper := by
  intro k hk
  by_contra hall
  push Not at hall
  refine hc.counts k (List.mem_range.2 hk) ((h.count_eq_iff hk).2 fun i hi => .inr ?_)
  simpa using hall i hi

end

/-! ## Pairs and triples -/

/-- What `midIndex` points before. -/
theorem lt_of_midIndex {cols : List Bitvector} {csum : List Nat} {last : Nat} {mid : Int} {ii : Nat}
    (hlast : last ≤ csum.length) (hii : ii < midIndex cols csum last mid) : ii < csum.length := by
  unfold midIndex at hii
  split at hii
  · omega
  · have := (List.takeWhile_sublist (l := csum)
      fun p => geUnsigned (vec cols p).count mid).length_le
    omega

theorem getD_mem {l : List Nat} {i : Nat} (h : i < l.length) : l.getD i 0 ∈ l := by
  rw [List.getD_eq_getElem _ _ h]
  exact List.getElem_mem h

/-- The length of a prefix, where what comes later is not in it without what comes before. -/
theorem length_takeWhile_of_pairwise {P : Nat → Bool} {l : List Nat}
    (h : l.Pairwise fun p q => P q = true → P p = true) : (l.takeWhile P).length = l.countP P := by
  induction l with
  | nil => rfl
  | cons p l ih =>
    obtain ⟨hp, hl⟩ := List.pairwise_cons.1 h
    cases hc : P p with
    | true => rw [List.takeWhile_cons_of_pos hc, List.length_cons, ih hl, List.countP_cons_of_pos hc]
    | false =>
      have hnone : l.countP P = 0 := List.countP_eq_zero.2 fun q hq hPq => by
        rw [hp q hq hPq] at hc
        cases hc
      rw [List.takeWhile_cons_of_neg (by simp [hc]), List.countP_cons_of_neg (by simp [hc]), hnone]
      rfl

/-- The large columns are those before a rank. -/
theorem lt_countP_iff {P : Nat → Bool} {l : List Nat}
    (h : l.Pairwise fun p q => P q = true → P p = true) {a : Nat} (ha : a < l.length) :
    a < l.countP P ↔ P (l.getD a 0) = true := by
  induction l generalizing a with
  | nil => exact absurd ha (Nat.not_lt_zero a)
  | cons p l ih =>
    obtain ⟨hp, hl⟩ := List.pairwise_cons.1 h
    cases hc : P p with
    | true =>
      rw [List.countP_cons_of_pos hc]
      cases a with
      | zero => simp [hc]
      | succ a =>
        rw [Nat.succ_lt_succ_iff, List.getD_cons_succ]
        exact ih hl (Nat.lt_of_succ_lt_succ ha)
    | false =>
      have hnone : ∀ q ∈ l, ¬P q = true := fun q hq hPq => by
        rw [hp q hq hPq] at hc
        cases hc
      rw [List.countP_cons_of_neg (by simp [hc]), List.countP_eq_zero.2 hnone]
      cases a with
      | zero => simp [hc]
      | succ a =>
        rw [List.getD_cons_succ]
        exact iff_of_false (Nat.not_lt_zero _)
          (hnone _ (getD_mem (Nat.lt_of_succ_lt_succ ha)))

theorem findSome?_getD {α : Type} {l : List α} {f : α → Option (List Nat)}
    (h : (l.findSome? f).getD [] ≠ []) : ∃ a ∈ l, f a = some ((l.findSome? f).getD []) := by
  cases hs : l.findSome? f with
  | none =>
    rw [hs] at h
    exact absurd rfl h
  | some best => exact List.exists_of_findSome?_eq_some hs

/-- What a cover test lets pass: columns for the rows that are left, or a false cover. -/
def Passing (s : Setcover) (st : Search) (best : List Nat) : Prop :=
  s.Completes st best ∨ s.FalseCover (st.curSol ++ best)

section
variable {s : Setcover} {st : Search} (h : s.Sound st) (hleft : st.rowmask.count < s.rowSize)
include h

theorem Sound.within : Within st.cols st.rowmask.bsize := by
  rw [h.size]
  exact within_of_good (h.colLength ▸ h.col)

/-- The mask and the copies have the rows of the columns. -/
theorem Sound.covered_append {best : List Nat} (hmem : ∀ p ∈ best, p < s.colSize) (i : Nat) :
    ((st.curSol ++ best).any fun p => (vec s.pvaluesCol p).bit i) =
      (st.rowmask.bit i || best.any fun p => (vec st.cols p).bit i) := by
  have hcur : (st.curSol.any fun p => (vec s.pvaluesCol p).bit i) = st.rowmask.bit i := by
    rw [Bool.eq_iff_iff, List.any_eq_true, h.covered]
  rw [List.any_append, hcur]
  cases hm : st.rowmask.bit i with
  | true => rfl
  | false =>
    rw [Bool.false_or, Bool.false_or, Bool.eq_iff_iff, List.any_eq_true, List.any_eq_true]
    refine exists_congr fun p => and_congr_right fun hp => ?_
    rw [h.colBit p (hmem p hp), hm, Bool.not_false, Bool.and_true]

/-- A test of the copies that passes, with a column that is not empty. -/
theorem Sound.passing {best : List Nat} (hmem : ∀ p ∈ best, p < s.colSize)
    {g : Nat → Bool} (hpass : Passes st.rowmask.bsize g)
    (hg : ∀ i, g i = (st.rowmask.bit i || best.any fun p => (vec st.cols p).bit i))
    (hne : ∃ p ∈ best, (vec st.cols p).count ≠ 0) : s.Passing st best := by
  have hcov : ∀ i, ((st.curSol ++ best).any fun p => (vec s.pvaluesCol p).bit i) = g i :=
    fun i => (h.covered_append hmem i).trans (hg i).symm
  rw [h.size] at hpass
  rcases hpass with hall | ⟨hmod, hall, hnone⟩
  · refine .inl ⟨hmem, fun i hi => ?_⟩
    have hgi := hall i hi
    rw [← hcov, List.any_append, Bool.or_eq_true, List.any_eq_true, List.any_eq_true] at hgi
    exact hgi.imp_left (h.covered i).2
  · -- the column that is not empty has a row before the last 64
    obtain ⟨p, hp, hcount⟩ := hne
    obtain ⟨r, hr, hbit⟩ := exists_bit (h.col p (hmem p hp)).1 hcount
    rw [(h.col p (hmem p hp)).2] at hr
    have hgr : g r = true := by
      rw [hg, Bool.or_eq_true]
      exact .inr (List.any_eq_true.2 ⟨p, hp, hbit⟩)
    have hlt : r < s.rowSize - 64 := by
      by_contra hge
      rw [hnone r (Nat.le_of_not_lt hge)] at hgr
      cases hgr
    refine .inr ⟨fun q hq => (List.mem_append.1 hq).elim (h.mem q) (hmem q), by omega, hmod, ?_⟩
    simp only [hcov]
    exact ⟨hall, fun i _ hi => hnone i hi⟩

include hleft

theorem Sound.pair_passing {i j : Nat} (hi : i < s.colSize) (hj : j < s.colSize)
    (htest : isSolutionLite2 st.cols st.rowmask i j = true)
    (hne : (vec st.cols i).count ≠ 0 ∨ (vec st.cols j).count ≠ 0) : s.Passing st [i, j] := by
  have hpos : 0 < st.rowmask.bsize := by rw [h.size]; omega
  refine h.passing (by simp [hi, hj])
    ((isSolutionLite2_iff h.mask hpos h.within i j).1 htest) (fun r => ?_) ?_
  · simp [Bool.or_assoc]
  · rcases hne with hne | hne
    · exact ⟨i, by simp, hne⟩
    · exact ⟨j, by simp, hne⟩

theorem Sound.triple_passing {i j k : Nat} (hi : i < s.colSize) (hj : j < s.colSize)
    (hk : k < s.colSize) (htest : isSolutionLite3 st.cols st.rowmask i j k = true)
    (hmax : maxsize st.rowmask ≤
      (vec st.cols i).count + (vec st.cols j).count + (vec st.cols k).count) :
    s.Passing st [i, j, k] := by
  have hpos : 0 < st.rowmask.bsize := by rw [h.size]; omega
  have hrest : (0 : Int) < maxsize st.rowmask := by
    have hsize : st.rowmask.size = s.rowSize := h.size
    unfold maxsize
    omega
  refine h.passing (by simp [hi, hj, hk])
    ((isSolutionLite3_iff h.mask hpos h.within i j k).1 htest) (fun r => ?_) ?_
  · simp [Bool.or_assoc]
  · by_contra hnone
    push Not at hnone
    have h1 := hnone i (by simp)
    have h2 := hnone j (by simp)
    have h3 := hnone k (by simp)
    rw [h1, h2, h3] at hmax
    omega

/-! The columns of `csum` have rows left, those of `posList` may have none. -/

section
variable {csum posList : List Nat}
  (hcsum : ∀ k ∈ csum, k < s.colSize ∧ (vec st.cols k).count ≠ 0)
  (hpos : ∀ k ∈ posList, k < s.colSize)

include hcsum in
theorem getBest2Solution_passing (hne : getBest2Solution st.cols st.rowmask csum ≠ []) :
    s.Passing st (getBest2Solution st.cols st.rowmask csum) := by
  obtain ⟨ii, hii, hf⟩ := findSome?_getD hne
  obtain ⟨j, hj, hfj⟩ := List.exists_of_findSome?_eq_some hf
  have hi := getD_mem (lt_of_midIndex (Nat.sub_le _ _) (List.mem_range.1 hii))
  have hj : j ∈ csum := List.mem_of_mem_drop
    (List.mem_reverse.1 ((List.dropWhile_sublist _).subset hj))
  split at hfj
  · rename_i htest
    rw [getBest2Solution, ← Option.some.inj hfj]
    exact h.pair_passing hleft (hcsum _ hi).1 (hcsum j hj).1 htest (.inl (hcsum _ hi).2)
  · cases hfj

include hpos in
theorem getBest2SolutionIn_passing
    (hne : getBest2SolutionIn st.cols st.rowmask s.colSize posList ≠ []) :
    s.Passing st (getBest2SolutionIn st.cols st.rowmask s.colSize posList) := by
  obtain ⟨i, hi, hf⟩ := findSome?_getD hne
  obtain ⟨j, hj, hfj⟩ := List.exists_of_findSome?_eq_some hf
  split at hfj
  · rename_i htest
    rw [getBest2SolutionIn, ← Option.some.inj hfj]
    refine h.pair_passing hleft (hpos i hi) (List.mem_range.1 hj) htest.2 ?_
    have hsize : st.rowmask.size = s.rowSize := h.size
    have hmax := htest.1
    unfold maxsize at hmax
    omega
  · cases hfj

include hcsum in
theorem getBest3Solution_passing (hne : getBest3Solution st.cols st.rowmask csum ≠ []) :
    s.Passing st (getBest3Solution st.cols st.rowmask csum) := by
  obtain ⟨ii, hii, hf⟩ := findSome?_getD hne
  obtain ⟨kk, hkk, hfk⟩ := List.exists_of_findSome?_eq_some hf
  obtain ⟨jj, hjj, hfj⟩ := List.exists_of_findSome?_eq_some hfk
  have hi := getD_mem (lt_of_midIndex (Nat.sub_le _ _) (List.mem_range.1 hii))
  have hklt : kk < csum.length :=
    List.mem_range.1 (List.mem_filter.1 (List.mem_reverse.1 hkk)).1
  have hmax := List.mem_takeWhile_imp hjj
  rw [decide_eq_true_eq] at hmax
  have hjlt := List.mem_range'_1.1 ((List.takeWhile_sublist _).subset hjj)
  split at hfj
  · rename_i htest
    rw [getBest3Solution, ← Option.some.inj hfj]
    exact h.triple_passing hleft (hcsum _ hi).1 (hcsum _ (getD_mem (by omega))).1
      (hcsum _ (getD_mem hklt)).1 htest hmax
  · cases hfj

include hcsum hpos in
theorem getBest3SolutionIn_passing
    (hne : getBest3SolutionIn st.cols st.rowmask posList csum ≠ []) :
    s.Passing st (getBest3SolutionIn st.cols st.rowmask posList csum) := by
  obtain ⟨k, hk, hf⟩ := findSome?_getD hne
  obtain ⟨ii, hii, hfi⟩ := List.exists_of_findSome?_eq_some hf
  have hi := getD_mem (lt_of_midIndex (Nat.sub_le _ _) (List.mem_range.1 hii))
  dsimp only at hfi
  split at hfi
  · cases hfi
  · obtain ⟨j, hj, hfj⟩ := List.exists_of_findSome?_eq_some hfi
    have hj : j ∈ csum := List.mem_of_mem_drop (List.mem_reverse.1 hj)
    split at hfj
    · cases hfj
    · split at hfj
      · rename_i htest
        rw [getBest3SolutionIn, ← Option.some.inj hfj]
        exact h.triple_passing hleft (hcsum _ hi).1 (hcsum j hj).1 (hpos k hk) htest.2 htest.1
      · cases hfj

end

end

/-! ## An iteration -/

theorem getBest2Selection_subset {cols : List Bitvector} {rowmask : Bitvector} {posList : List Nat}
    {p : Nat} (hp : p ∈ getBest2Selection cols rowmask posList) : p ∈ posList := by
  unfold getBest2Selection at hp
  dsimp only at hp
  -- every candidate for the best pair is a pair
  have key : ∀ (l : List (Nat × Nat)) (best : List Nat × Nat × Nat),
      (∀ q ∈ l, q.1 ∈ posList ∧ q.2 ∈ posList) → (∀ p ∈ best.1, p ∈ posList) →
      ∀ p ∈ (l.foldl (fun (best : List Nat × Nat × Nat) (p : Nat × Nat) =>
        let curWeight := (vec cols p.1).countOrMasked (vec cols p.2) rowmask
        let curOvp := (vec cols p.1).countAndMasked (vec cols p.2) rowmask
        if curWeight > best.2.1 ∨ curWeight = best.2.1 ∧ curOvp < best.2.2 then
          ([p.1, p.2], curWeight, curOvp)
        else best) best).1, p ∈ posList := by
    intro l
    induction l with
    | nil => exact fun best _ hb => hb
    | cons q l ih =>
      intro best hl hb
      rw [List.foldl_cons]
      refine ih _ (fun q hq => hl q (by simp [hq])) fun p hp => ?_
      dsimp only at hp
      split at hp
      · obtain ⟨h1, h2⟩ := hl q (by simp)
        rcases List.mem_cons.1 hp with rfl | hp
        · exact h1
        · exact List.mem_singleton.1 hp ▸ h2
      · exact hb p hp
  refine key _ _ (fun q hq => ?_) (by simp) p hp
  obtain ⟨l, hl, hq⟩ := List.mem_flatMap.1 hq
  have hsub := ((List.mem_tails _ _).1 hl).subset
  cases l with
  | nil => cases hq
  | cons i rest =>
    obtain ⟨j, hj, rfl⟩ := List.mem_map.1 hq
    exact ⟨hsub (by simp), hsub (by simp [hj])⟩

section
variable {s : Setcover} {st : Search} (h : s.Sound st) (hp : s.Proper)
include h hp

theorem tryBest_ends {size : Nat} (hsize : size ≠ 0) {best : List Nat}
    (hb : best ≠ [] → s.Passing st best) :
    Ends s.Leaves (fun _ => True) (st.tryBest size best) := by
  unfold Search.tryBest
  split
  · rename_i hlen
    have hne : best ≠ [] := fun hnil => hsize (by rw [← hlen, hnil, List.length_nil])
    exact (hb hne).imp (fun hc => ⟨h.completes hc, fun _ => hp⟩) id
  · trivial

theorem allMinPos_ends {minPosList : List Nat} (hmin : ∀ i ∈ minPosList, i < s.rowSize) :
    Ends s.Leaves (fun pos => ∀ p ∈ pos, p < s.colSize) (s.allMinPos st minPosList) := by
  have key : ∀ (l : List Nat) (v : Bitvector), (∀ i ∈ l, i < s.rowSize) → v.Good →
      v.bsize = s.colSize → ∀ v', l.foldl (fun v i => v.orCount (vec st.rows i)) v = v' →
      v'.Good ∧ v'.bsize = s.colSize := by
    intro l
    induction l with
    | nil => exact fun v _ h1 h2 v' h3 => h3 ▸ ⟨h1, h2⟩
    | cons i l ih =>
      intro v hl h1 h2 v' h3
      obtain ⟨g1, g2⟩ := h.row i (hl i (by simp))
      obtain ⟨o1, o2, -⟩ := h1.orCount g1 (g2.trans h2.symm)
      exact ih _ (fun j hj => hl j (by simp [hj])) o1 (o2.trans h2) v' h3
  obtain ⟨k1, k2⟩ := key minPosList _ hmin (setSize_good s.colSize).1 rfl _ rfl
  unfold allMinPos
  generalize minPosList.foldl (fun v i => v.orCount (vec st.rows i)) (setSize s.colSize) = v at k1 k2
  refine Ends.foldlM (fun _ pos => ∀ p ∈ pos, p < s.colSize) (fun done nn pos hpre hpos => ?_)
    (fun p hp => absurd hp List.not_mem_nil)
  have hnn : nn < s.colSize := by
    rw [← k2]
    exact ((mem_setPositions k1 nn).1 (hpre.subset (by simp))).1
  split
  · rename_i hfull
    -- a column with all rows
    have hle := h.count_add_le hnn
    exact .inl ⟨h.completes (h.completes_one hnn (by omega)), fun _ => hp⟩
  · intro p hp
    rcases List.mem_append.1 hp with hp | hp
    · exact hpos p hp
    · exact List.mem_singleton.1 hp ▸ hnn

omit hp

theorem takeBest_sound {min : Nat} {allMinPos maxPosList : List Nat}
    (hall : ∀ p ∈ allMinPos, p < s.colSize) (hmax : ∀ p ∈ maxPosList, p < s.colSize)
    (hne : maxPosList ≠ []) : s.Sound (st.takeBest min allMinPos maxPosList) := by
  have hcol : 0 < s.colSize := by
    obtain ⟨k, hk⟩ := List.exists_mem_of_ne_nil _ hne
    exact Nat.zero_lt_of_lt (hmax k hk)
  have hget : ∀ {l : List Nat} (i : Nat), (∀ p ∈ l, p < s.colSize) → l.getD i 0 < s.colSize := by
    intro l i hl
    by_cases hi : i < l.length
    · exact hl _ (getD_mem hi)
    · rw [List.getD_eq_default _ _ (by omega)]
      exact hcol
  unfold Search.takeBest
  split
  · have hbest : ∀ p ∈ getBest2Selection st.cols st.rowmask allMinPos, p < s.colSize :=
      fun p hp => hall p (getBest2Selection_subset hp)
    exact ((h.take (hget 0 hbest)).1.take (hget 1 hbest)).1
  · refine (h.take ?_).1
    cases hf : maxPosList.find? (· ∈ allMinPos) with
    | none => exact hget 0 hmax
    | some p => exact hmax p (List.mem_of_find?_eq_some hf)

end

/-- What an iteration of the search keeps. -/
structure Searching (s : Setcover) (st : Search) : Prop where
  sound : s.Sound st
  proper : st.curSol ≠ [] → s.Proper

section
variable {s : Setcover} (hs : s.WellFormed)
include hs

/-- **An iteration** keeps the search sound or leaves with a cover, true or false. -/
theorem iteration_ends {st : Search} (h : s.Searching st) (hleft : st.rowmask.count < s.rowSize) :
    Ends s.Leaves s.Searching (s.iteration st) := by
  unfold iteration
  refine Ends.bind (Ends.foldlM (fun _ => s.Scanned) (fun done i r hpre hr => ?_)
    ⟨h.sound, h.proper, hleft, fun _ hi => absurd hi List.not_mem_nil⟩) fun r hr => ?_
  · exact scanRow_ends hs hr (List.mem_range.1 (hpre.subset (by simp)))
  have hsound := hr.sound
  refine Ends.bind (scanCols_ends hsound hr.left hr.proper) fun c hc => ?_
  have hp := hc.proper hsound
  have hleft := hr.left
  have hminlist : ∀ l : List Nat, ∀ k ∈ (c.csum.filter (· ∈ l)).take l.length,
      k < s.colSize ∧ (vec r.st.cols k).count ≠ 0 :=
    fun l k hk => hc.csum k (List.mem_filter.1 (List.mem_of_mem_take hk)).1
  split
  · trivial
  · rename_i hne
    split
    · refine Ends.bind (tryBest_ends hsound hp (by omega)
        (getBest2Solution_passing hsound hleft hc.csum)) fun _ _ => ?_
      refine Ends.bind (tryBest_ends hsound hp (by omega)
        (getBest3Solution_passing hsound hleft hc.csum)) fun _ _ => ?_
      refine ⟨(hsound.take (hc.maxPos _ (getD_mem (List.length_pos_iff.2 hne)))).1, fun _ => hp⟩
    · refine Ends.bind (allMinPos_ends hsound hp hr.minPos) fun allMinPos hall => ?_
      have htake : s.Sound (r.st.takeBest r.min allMinPos c.maxPosList) :=
        takeBest_sound hsound hall hc.maxPos hne
      split
      · refine Ends.bind (tryBest_ends hsound hp (by omega)
          (getBest2Solution_passing hsound hleft (hminlist allMinPos))) fun _ _ => ?_
        refine Ends.bind (tryBest_ends hsound hp (by omega)
          (getBest2SolutionIn_passing hsound hleft hall)) fun _ _ => ?_
        refine Ends.bind (tryBest_ends hsound hp (by omega)
          (getBest3Solution_passing hsound hleft (hminlist allMinPos))) fun _ _ => ?_
        exact ⟨htake, fun _ => hp⟩
      · refine Ends.bind (tryBest_ends hsound hp (by omega)
          (getBest2SolutionIn_passing hsound hleft hall)) fun _ _ => ?_
        refine Ends.bind (tryBest_ends hsound hp (by omega)
          (getBest3SolutionIn_passing hsound hleft hc.csum hall)) fun _ _ => ?_
        exact ⟨htake, fun _ => hp⟩

/-- **A step of the search** keeps it sound or leaves with a cover, true or false. -/
theorem searchStep_spec {st : Search} (h : s.Searching st) :
    (∀ st', s.searchStep st = .inl st' → s.Searching st') ∧
      ∀ e, s.searchStep st = .inr e → s.Leaves e := by
  unfold searchStep
  split
  · rename_i hleft
    have hit := iteration_ends hs h hleft
    split
    · rename_i st1 h1
      rw [h1] at hit
      exact ⟨fun st' he => Sum.inl.inj he ▸ hit, nofun⟩
    · rename_i e1 h1
      rw [h1] at hit
      exact ⟨nofun, fun e he => Sum.inr.inj he ▸ hit⟩
  · rename_i hfull
    have hle := h.sound.count_le
    refine ⟨nofun, fun e he => Sum.inr.inj he ▸ .inl ⟨h.sound.full (by omega), fun hlen => ?_⟩⟩
    refine h.proper fun hnil => ?_
    rw [hnil] at hlen
    simp at hlen

/-- **The search** leaves with a cover, true or false, from a state that it comes to. -/
theorem search_leaves {st : Search} (h : s.Searching st) {fuel : Nat} {e : Exit}
    (he : loop s.searchStep fuel st = some e) :
    s.Leaves e ∧ ∃ st', AtHead s.searchStep st st' ∧ s.searchStep st' = .inr e := by
  refine loop_post (I := fun st' => s.Searching st' ∧ AtHead s.searchStep st st')
    (P := fun e => s.Leaves e ∧ ∃ st', AtHead s.searchStep st st' ∧ s.searchStep st' = .inr e)
    (fun st1 st2 hi hst => ?_) (fun st1 e hi hst => ?_) ⟨h, .start⟩ he
  · exact ⟨(searchStep_spec hs hi.1).1 st2 hst, hi.2.next hst⟩
  · exact ⟨(searchStep_spec hs hi.1).2 e hst, st1, hi.2, hst⟩

end

end Setcover

end Msyn.SC
