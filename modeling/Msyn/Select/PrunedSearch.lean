import Msyn.Select.MinColFound

/-!
# The pruned searches for a pair and a triple

`GetBest2Solution` and `GetBest3Solution` search a list of columns that is ordered by count. Columns
with less than half (a third) of the rows that are left do not come first, and a last column that is
too small for the first one is left out. For a pair nothing is lost (`getBest2Solution_finds`). For
a triple the last rank must lie behind the boundary, so that a covering triple in front of it is
missed (`getBest3Solution_iff`).

`Checked` is the search for a pair with every read of a list checked; `none` is a read outside of
its list.
-/

namespace Msyn.SC

open Bitprocess Bitvector

/-! ## Checked reads -/

namespace Checked

section
variable (cols : List Bitvector) (rowmask : Bitvector)

/-- `rowmask.get_word(i) | pvalues_col[pos1].get_word(i) | pvalues_col[pos2].get_word(i)`. -/
def word2 (pos1 pos2 i : Nat) : Option Word := do
  return (← rowmask.data[i]?) ||| (← (← cols[pos1]?).data[i]?) ||| (← (← cols[pos2]?).data[i]?)

def isSolutionLite2 (pos1 pos2 : Nat) : Option Bool := do
  let word := word2 cols rowmask pos1 pos2
  if ← (List.range (rowmask.wordSize - 1)).allM fun i =>
      return decide ((← word i) = 0xFFFFFFFFFFFFFFFF#64) then
    return decide (count64 (← word (rowmask.wordSize - 1)) % 64 = rowmask.size % 64)
  else return false

end

section
variable (cols : List Bitvector) (rowmask : Bitvector) (csum : List Nat)

/-- `pvalues_col[csum_sortindex[p]].count()`. -/
def count (p : Nat) : Option Nat := do
  let c ← cols[← csum[p]?]?
  return c.count

/-- `while (pvalues_col[csum_sortindex[midindex]].count() >= mid) midindex++;`, with the part of the
list from `midindex` on. -/
def scanMid (mid : Int) : List Nat → Nat → Option Nat
  | [], _ => none
  | p :: ps, midindex => do
    let c ← cols[p]?
    if geUnsigned c.count mid then scanMid mid ps (midindex + 1) else return midindex

def midIndex (last : Nat) (mid : Int) : Option Nat := do
  if geUnsigned (← count cols csum last) mid then return last else scanMid cols mid csum 0

/-- `for (; jj > ii; jj--) if (pvalues_col[j].count() >= rem_weight) break;`. -/
def skipSmall (rem : Int) : List Nat → Option (List Nat)
  | [] => some []
  | jj :: jjs => do
    if geUnsigned (← count cols csum jj) rem then return jj :: jjs else skipSmall rem jjs

/-- The body of the loop over `ii`. -/
def findPartner (ii : Nat) : Option (Option (List Nat)) := do
  let i ← csum[ii]?
  let c ← cols[i]?
  let jjs := (List.range' (ii + 1) (csum.length - (ii + 1))).reverse
  (← skipSmall cols csum (maxsize rowmask - c.count) jjs).findSomeM? fun jj => do
    let j ← csum[jj]?
    return if ← isSolutionLite2 cols rowmask i j then some [i, j] else none

def getBest2Solution : Option (List Nat) := do
  let mid ← midIndex cols csum (csum.length - 1) ((maxsize rowmask).tdiv 2)
  return (← (List.range mid).findSomeM? (findPartner cols rowmask csum)).getD []

end

end Checked

/-! ## Listed columns -/

/-- Columns of the rows that a mask leaves, of which there is one, listed by count. -/
structure Listed (cols : List Bitvector) (rowmask : Bitvector) (csum : List Nat) : Prop where
  mask : rowmask.Good
  left : ∃ i < rowmask.bsize, rowmask.bit i = false
  col : ∀ c ∈ cols, c.Good ∧ c.bsize = rowmask.bsize
  disjoint : ∀ c ∈ cols, ∀ i, c.bit i = true → rowmask.bit i = false
  mem : ∀ p ∈ csum, p < cols.length
  sorted : csum.Pairwise fun p q => (vec cols q).count ≤ (vec cols p).count

/-- The columns at the positions cover the rows that the mask leaves. -/
def CoversLeft (cols : List Bitvector) (rowmask : Bitvector) (ps : List Nat) : Prop :=
  ∀ i < rowmask.bsize, rowmask.bit i = false → ∃ p ∈ ps, (vec cols p).bit i = true

/-- A cover passes the test of the rows that are covered. -/
theorem CoversLeft.passes {cols : List Bitvector} {rowmask : Bitvector} {ps : List Nat}
    (hcov : CoversLeft cols rowmask ps) :
    Passes rowmask.bsize fun i => rowmask.bit i || ps.any fun p => (vec cols p).bit i := by
  refine .inl fun i hi => ?_
  cases hm : rowmask.bit i with
  | true => exact Bool.or_eq_true_iff.2 (.inl hm)
  | false => exact Bool.or_eq_true_iff.2 (.inr (List.any_eq_true.2 (hcov i hi hm)))

theorem countP_any_le (f : Nat → Nat → Bool) (l ps : List Nat) :
    l.countP (fun i => ps.any fun p => f p i) ≤ (ps.map fun p => l.countP (f p)).sum := by
  induction ps with
  | nil => simp
  | cons p ps ih =>
    -- what `p` does not have is counted by the rest
    have hsplit : l.countP (fun i => (p :: ps).any fun q => f q i) =
        l.countP (f p) + l.countP fun i => !f p i && ps.any fun q => f q i := by
      rw [← countP_or fun i hi => by rw [hi, Bool.not_true, Bool.false_and]]
      refine List.countP_congr fun i _ => ?_
      cases hi : f p i <;> simp [hi]
    have hrest : l.countP (fun i => !f p i && ps.any fun q => f q i) ≤
        l.countP fun i => ps.any fun q => f q i :=
      List.countP_mono_left fun i _ hi => (Bool.and_eq_true _ _ ▸ hi).2
    rw [hsplit, List.map_cons, List.sum_cons]
    exact Nat.add_le_add_left (hrest.trans ih) _

theorem mem_dropWhile {P : Nat → Bool} {l : List Nat} {x : Nat} (hx : x ∈ l) (hP : P x = false) :
    x ∈ l.dropWhile P := by
  rw [← List.takeWhile_append_dropWhile (p := P) (l := l)] at hx
  refine (List.mem_append.1 hx).resolve_left fun hmem => ?_
  rw [List.mem_takeWhile_imp hmem] at hP
  cases hP

theorem geUnsigned_mono {a a' : Nat} {b : Int} (h : a ≤ a') (hab : geUnsigned a b = true) :
    geUnsigned a' b = true := by
  simp only [geUnsigned, decide_eq_true_eq] at hab ⊢
  omega

theorem geUnsigned_of_le {a : Nat} {b : Int} (hb : 0 ≤ b) (h : b ≤ a) : geUnsigned a b = true := by
  simp only [geUnsigned, decide_eq_true_eq]
  omega

section
variable {cols : List Bitvector} {rowmask : Bitvector} {csum : List Nat}
  (h : Listed cols rowmask csum)
include h

theorem Listed.vec_col {p : Nat} (hp : p < cols.length) :
    (vec cols p).Good ∧ (vec cols p).bsize = rowmask.bsize := by
  rw [vec_eq_getElem hp]
  exact h.col _ (List.getElem_mem hp)

theorem Listed.pos : 0 < rowmask.bsize := by
  obtain ⟨i, hi, -⟩ := h.left
  exact Nat.zero_lt_of_lt hi

/-- The rows that the mask leaves are at most those of the columns that cover them. -/
theorem Listed.size_le {ps : List Nat} (hps : ∀ p ∈ ps, p < cols.length)
    (hcov : CoversLeft cols rowmask ps) :
    rowmask.size ≤ rowmask.count + (ps.map fun p => (vec cols p).count).sum := by
  have hsum : (ps.map fun p => (vec cols p).count) =
      ps.map fun p => (List.range rowmask.bsize).countP (vec cols p).bit :=
    List.map_congr_left fun p hp => by
      rw [Bitvector.count, (h.vec_col (hps p hp)).1.counter, (h.vec_col (hps p hp)).2]
  have hall : (List.range rowmask.bsize).countP
      (fun i => rowmask.bit i || (!rowmask.bit i && ps.any fun p => (vec cols p).bit i)) =
        rowmask.bsize := by
    have hlen := List.countP_eq_length (l := List.range rowmask.bsize)
      (p := fun i => rowmask.bit i || (!rowmask.bit i && ps.any fun p => (vec cols p).bit i))
    rw [List.length_range] at hlen
    refine hlen.2 fun i hi => ?_
    cases hm : rowmask.bit i with
    | true => rfl
    | false => simpa using hcov i (List.mem_range.1 hi) hm
  have hany := countP_any_le (fun p => (vec cols p).bit) (List.range rowmask.bsize) ps
  have hrest : (List.range rowmask.bsize).countP
      (fun i => !rowmask.bit i && ps.any fun p => (vec cols p).bit i) ≤
        (List.range rowmask.bsize).countP fun i => ps.any fun p => (vec cols p).bit i :=
    List.countP_mono_left fun i _ hi => (Bool.and_eq_true _ _ ▸ hi).2
  rw [countP_or fun i hi => by rw [hi, Bool.not_true, Bool.false_and]] at hall
  rw [hsum, Bitvector.count, h.mask.counter, Bitvector.size]
  omega

theorem Listed.count_le {p : Nat} (hp : p < cols.length) :
    (vec cols p).count + rowmask.count ≤ rowmask.size := by
  obtain ⟨hgood, hsize⟩ := h.vec_col hp
  have hdisj : ∀ i, (vec cols p).bit i = true → rowmask.bit i = false := by
    rw [vec_eq_getElem hp]
    exact h.disjoint _ (List.getElem_mem hp)
  rw [Bitvector.count, Bitvector.count, hgood.counter, h.mask.counter, hsize, ← countP_or hdisj]
  exact List.countP_le_length.trans (List.length_range (n := rowmask.bsize)).le

theorem Listed.large_antitone (mid : Int) : csum.Pairwise fun p q =>
    geUnsigned (vec cols q).count mid = true → geUnsigned (vec cols p).count mid = true :=
  h.sorted.imp fun hle => geUnsigned_mono hle

theorem Listed.getD_lt {a : Nat} (ha : a < csum.length) : csum.getD a 0 < cols.length :=
  h.mem _ (Setcover.getD_mem ha)

theorem Listed.count_getD {a b : Nat} (hab : a ≤ b) (hb : b < csum.length) :
    (vec cols (csum.getD b 0)).count ≤ (vec cols (csum.getD a 0)).count := by
  rcases Nat.eq_or_lt_of_le hab with he | hlt
  · rw [he]
  · have hs := List.pairwise_iff_getElem.1 h.sorted a b (Nat.lt_trans hlt hb) hb hlt
    rw [List.getD_eq_getElem _ _ (Nat.lt_trans hlt hb), List.getD_eq_getElem _ _ hb]
    exact hs

/-- The boundary: the number of large columns, but at most `last`. -/
theorem Listed.midIndex_eq {last : Nat} (hlast : last < csum.length) (mid : Int) :
    midIndex cols csum last mid =
      min last (csum.countP fun p => geUnsigned (vec cols p).count mid) := by
  have hanti := h.large_antitone mid
  have hiff := Setcover.lt_countP_iff hanti hlast
  unfold midIndex
  split
  · rename_i hbig
    have := hiff.2 hbig
    omega
  · rename_i hsmall
    have : ¬last < csum.countP fun p => geUnsigned (vec cols p).count mid :=
      fun hlt => hsmall (hiff.1 hlt)
    rw [Setcover.length_takeWhile_of_pairwise hanti]
    omega

/-- A column with its share of the rows comes before the boundary. -/
theorem Listed.lt_midIndex {last : Nat} (hlast : last < csum.length) {mid : Int} (hmid : 0 ≤ mid)
    {a : Nat} (ha : a < last) (hbig : mid ≤ (vec cols (csum.getD a 0)).count) :
    a < midIndex cols csum last mid := by
  have hcount := (Setcover.lt_countP_iff (h.large_antitone mid) (Nat.lt_trans ha hlast)).2
    (geUnsigned_of_le hmid hbig)
  rw [h.midIndex_eq hlast]
  omega

theorem Listed.maxsize_pos : 0 < maxsize rowmask := by
  obtain ⟨r, hr, hmr⟩ := h.left
  have hlt : rowmask.count < rowmask.size := by
    rw [Bitvector.count, h.mask.counter, Bitvector.size]
    refine lt_of_le_of_ne (List.countP_le_length.trans List.length_range.le) fun he => ?_
    have hall := List.countP_eq_length.1 (he.trans (List.length_range (n := rowmask.bsize)).symm)
    rw [hall r (List.mem_range.2 hr)] at hmr
    cases hmr
  unfold maxsize
  omega

/-! ## The pair -/

theorem Listed.lite2 {i j : Nat} (hcov : CoversLeft cols rowmask [i, j]) :
    isSolutionLite2 cols rowmask i j = true := by
  rw [isSolutionLite2_iff h.mask h.pos (within_of_mem h.col)]
  simpa [Bool.or_assoc] using hcov.passes

/-- **The pruned search finds a pair** if there is a covering pair. -/
theorem Listed.getBest2Solution_pair {a b : Nat} (hab : a < b) (hb : b < csum.length)
    (hcov : CoversLeft cols rowmask [csum.getD a 0, csum.getD b 0]) :
    ∃ i j, getBest2Solution cols rowmask csum = [i, j] := by
  have ha := Nat.lt_trans hab hb
  obtain ⟨i, hi⟩ : ∃ i, i = csum.getD a 0 := ⟨_, rfl⟩
  obtain ⟨j, hj⟩ : ∃ j, j = csum.getD b 0 := ⟨_, rfl⟩
  have hicol : i < cols.length := hi ▸ h.getD_lt ha
  have hjcol : j < cols.length := hj ▸ h.getD_lt hb
  rw [← hi, ← hj] at hcov
  have hsize := h.size_le (by simp [hicol, hjcol]) hcov
  simp only [List.map_cons, List.map_nil, List.sum_cons, List.sum_nil] at hsize
  have hle : (vec cols j).count ≤ (vec cols i).count := by
    rw [hi, hj]
    exact h.count_getD (Nat.le_of_lt hab) hb
  have hmax : maxsize rowmask = rowmask.size - rowmask.count := rfl
  -- the first column has half of the rows
  have hmid : a < midIndex cols csum (csum.length - 1) ((maxsize rowmask).tdiv 2) := by
    have hpos := h.maxsize_pos
    rw [Int.tdiv_eq_ediv_of_nonneg hpos.le]
    refine h.lt_midIndex (by omega) (by omega) (by omega) ?_
    rw [← hi]
    omega
  -- the second column has the rows that the first one leaves
  have hrem : geUnsigned (vec cols j).count (maxsize rowmask - (vec cols i).count) = true := by
    have := h.count_le hicol
    exact geUnsigned_of_le (by omega) (by omega)
  have hkept : j ∈ (csum.drop (a + 1)).reverse.dropWhile
      fun j => !geUnsigned (vec cols j).count (maxsize rowmask - (vec cols i).count) := by
    refine mem_dropWhile (List.mem_reverse.2 ?_) (by rw [hrem]; rfl)
    rw [hj, List.getD_eq_getElem _ _ hb, List.mem_drop_iff_getElem]
    exact ⟨b - (a + 1), by omega, by simp only [show a + 1 + (b - (a + 1)) = b by omega]⟩
  have htest := h.lite2 hcov
  simp only [getBest2Solution]
  generalize hs : List.findSome? _ (List.range _) = found
  cases found with
  | none =>
    have hnone := List.findSome?_eq_none_iff.1 hs a (List.mem_range.2 hmid)
    have hnot := List.findSome?_eq_none_iff.1 hnone j (by rw [← hi]; exact hkept)
    rw [← hi, if_pos htest] at hnot
    cases hnot
  | some best =>
    obtain ⟨ii, -, hii⟩ := List.exists_of_findSome?_eq_some hs
    obtain ⟨j', -, hj'⟩ := List.exists_of_findSome?_eq_some hii
    split at hj'
    · exact ⟨csum.getD ii 0, j', (Option.some.inj hj').symm⟩
    · cases hj'

/-! ## The checked search -/

theorem Listed.word_isSome {p : Nat} (hp : p < cols.length) {i : Nat} (hi : i < rowmask.wordSize) :
    cols[p]? = some (vec cols p) ∧ (vec cols p).data[i]? = some ((vec cols p).getWord i) := by
  obtain ⟨hgood, hsize⟩ := h.vec_col hp
  have hlen : i < (vec cols p).data.length := by
    rw [hgood.length, hgood.wsize, hsize, ← h.mask.wsize]
    exact hi
  refine ⟨?_, ?_⟩
  · rw [vec_eq_getElem hp]
    exact List.getElem?_eq_getElem hp
  · rw [getWord, List.getD_eq_getElem _ _ hlen]
    exact List.getElem?_eq_getElem hlen

theorem Listed.word2_eq {i j : Nat} (hi : i < cols.length) (hj : j < cols.length) {w : Nat}
    (hw : w < rowmask.wordSize) : Checked.word2 cols rowmask i j w =
      some (rowmask.getWord w ||| (vec cols i).getWord w ||| (vec cols j).getWord w) := by
  have hmask : rowmask.data[w]? = some (rowmask.getWord w) := by
    have hlen : w < rowmask.data.length := by
      rw [h.mask.length]
      exact hw
    rw [getWord, List.getD_eq_getElem _ _ hlen]
    exact List.getElem?_eq_getElem hlen
  obtain ⟨hi1, hi2⟩ := h.word_isSome hi hw
  obtain ⟨hj1, hj2⟩ := h.word_isSome hj hw
  simp [Checked.word2, hmask, hi1, hi2, hj1, hj2]

theorem Listed.checked_lite2 {i j : Nat} (hi : i < cols.length) (hj : j < cols.length) :
    Checked.isSolutionLite2 cols rowmask i j = some (isSolutionLite2 cols rowmask i j) := by
  have hpos : 0 < rowmask.wordSize := by
    rw [wordSize, h.mask.wsize, words_eq]
    have := h.pos
    omega
  have hall := allM_eq_some
    (f := fun w => do return decide ((← Checked.word2 cols rowmask i j w) = 0xFFFFFFFFFFFFFFFF#64))
    (g := fun w => decide ((rowmask.getWord w ||| (vec cols i).getWord w |||
      (vec cols j).getWord w) = 0xFFFFFFFFFFFFFFFF#64))
    (l := List.range (rowmask.wordSize - 1)) fun w hw => by
      rw [h.word2_eq hi hj (by have := List.mem_range.1 hw; omega), Option.bind_eq_bind,
        Option.bind_some, Option.pure_def]
  rw [Checked.isSolutionLite2, hall, h.word2_eq hi hj (Nat.sub_one_lt_of_lt hpos), isSolutionLite2,
    wordTest]
  simp only [Option.bind_eq_bind, Option.bind_some, Option.pure_def]
  split
  · rename_i hw
    rw [hw, Bool.true_and]
  · rename_i hw
    rw [Bool.not_eq_true] at hw
    rw [hw, Bool.false_and]

theorem Listed.count_eq {p : Nat} (hp : p < csum.length) :
    Checked.count cols csum p = some (vec cols (csum.getD p 0)).count := by
  have hcol : cols[csum[p]]? = some (vec cols (csum.getD p 0)) := by
    rw [List.getD_eq_getElem _ _ hp, vec_eq_getElem (h.mem _ (List.getElem_mem hp))]
    exact List.getElem?_eq_getElem _
  simp [Checked.count, List.getElem?_eq_getElem hp, hcol]

omit h in
/-- The scan stops at a small column, which there is. -/
theorem scanMid_eq {mid : Int} {ps : List Nat} (hps : ∀ p ∈ ps, p < cols.length)
    (hsmall : ∃ p ∈ ps, geUnsigned (vec cols p).count mid = false) (m : Nat) :
    Checked.scanMid cols mid ps m =
      some (m + (ps.takeWhile fun p => geUnsigned (vec cols p).count mid).length) := by
  induction ps generalizing m with
  | nil =>
    obtain ⟨p, hp, -⟩ := hsmall
    cases hp
  | cons p ps ih =>
    have hcol : cols[p]? = some (vec cols p) := by
      rw [vec_eq_getElem (hps p (by simp))]
      exact List.getElem?_eq_getElem _
    rw [Checked.scanMid, hcol, Option.bind_eq_bind, Option.bind_some, List.takeWhile_cons]
    cases hbig : geUnsigned (vec cols p).count mid with
    | true =>
      obtain ⟨q, hq, hqs⟩ := hsmall
      have hq : q ∈ ps := (List.mem_cons.1 hq).resolve_left fun he => by
        rw [he, hbig] at hqs
        cases hqs
      rw [if_pos rfl, if_pos rfl, ih (fun q hq => hps q (by simp [hq])) ⟨q, hq, hqs⟩,
        List.length_cons]
      congr 1
      omega
    | false => rfl

theorem Listed.checked_midIndex {last : Nat} (hlast : last < csum.length) (mid : Int) :
    Checked.midIndex cols csum last mid = some (midIndex cols csum last mid) := by
  rw [Checked.midIndex, midIndex, h.count_eq hlast, Option.bind_eq_bind, Option.bind_some]
  split
  · rfl
  · rename_i hsmall
    rw [scanMid_eq h.mem ⟨_, Setcover.getD_mem hlast, by simpa using hsmall⟩, Nat.zero_add]

theorem Listed.skipSmall_eq (rem : Int) {jjs : List Nat} (hjjs : ∀ jj ∈ jjs, jj < csum.length) :
    Checked.skipSmall cols csum rem jjs = some (jjs.dropWhile fun jj =>
      !geUnsigned (vec cols (csum.getD jj 0)).count rem) := by
  induction jjs with
  | nil => rfl
  | cons jj jjs ih =>
    rw [Checked.skipSmall, h.count_eq (hjjs jj (by simp)), Option.bind_eq_bind, Option.bind_some,
      List.dropWhile_cons]
    cases geUnsigned (vec cols (csum.getD jj 0)).count rem with
    | true => rfl
    | false => exact ih fun jj hjj => hjjs jj (by simp [hjj])

omit h in
/-- The columns from a rank on, in the order of the loop over `jj`. -/
theorem map_getD_ranks (csum : List Nat) (ii : Nat) :
    ((List.range' ii (csum.length - ii)).reverse.map fun jj => csum.getD jj 0) =
      (csum.drop ii).reverse := by
  rw [List.map_reverse]
  congr 1
  refine List.ext_getElem (by simp) fun n h1 h2 => ?_
  have hn : ii + n < csum.length := by
    simp only [List.length_drop] at h2
    omega
  simp [List.getElem?_eq_getElem hn]

theorem Listed.checked_getBest2Solution (hlen : csum ≠ []) :
    Checked.getBest2Solution cols rowmask csum = some (getBest2Solution cols rowmask csum) := by
  have hlast : csum.length - 1 < csum.length := by
    have := List.length_pos_iff.2 hlen
    omega
  have hbody : ∀ ii ∈ List.range (midIndex cols csum (csum.length - 1)
      ((maxsize rowmask).tdiv 2)), Checked.findPartner cols rowmask csum ii =
        some (((csum.drop (ii + 1)).reverse.dropWhile fun j => !geUnsigned (vec cols j).count
          (maxsize rowmask - (vec cols (csum.getD ii 0)).count)).findSome? fun j =>
            if isSolutionLite2 cols rowmask (csum.getD ii 0) j then some [csum.getD ii 0, j]
            else none) := by
    intro ii hii
    have hii := Setcover.lt_of_midIndex (Nat.sub_le _ _) (List.mem_range.1 hii)
    have hi := h.getD_lt hii
    have hranks : ∀ jj ∈ (List.range' (ii + 1) (csum.length - (ii + 1))).reverse,
        jj < csum.length := fun jj hjj => by
      have := List.mem_range'_1.1 (List.mem_reverse.1 hjj)
      omega
    have hget : ∀ {p : Nat}, p < csum.length → csum[p]? = some (csum.getD p 0) := fun hp => by
      rw [List.getD_eq_getElem _ _ hp]
      exact List.getElem?_eq_getElem hp
    have hcol : cols[csum.getD ii 0]? = some (vec cols (csum.getD ii 0)) := by
      rw [vec_eq_getElem hi]
      exact List.getElem?_eq_getElem hi
    simp only [Checked.findPartner, hget hii, hcol, h.skipSmall_eq _ hranks, Option.bind_eq_bind,
      Option.bind_some]
    rw [← map_getD_ranks csum (ii + 1), List.dropWhile_map, List.findSome?_map]
    refine findSomeM?_eq_some fun jj hjj => ?_
    have hjj := hranks jj ((List.dropWhile_sublist _).subset hjj)
    rw [hget hjj, Option.bind_some, h.checked_lite2 hi (h.getD_lt hjj), Option.bind_some]
    rfl
  simp only [Checked.getBest2Solution, h.checked_midIndex hlast, Option.bind_eq_bind,
    Option.bind_some, findSomeM?_eq_some hbody]
  rfl

end

/-- **The pruned search for a pair loses nothing**: no read is out of range, and two listed columns
that cover what the mask leaves make it return two columns. -/
theorem getBest2Solution_finds {cols : List Bitvector} {rowmask : Bitvector} {csum : List Nat}
    (h : Listed cols rowmask csum) (hlen : 2 ≤ csum.length) :
    ∃ sol, Checked.getBest2Solution cols rowmask csum = some sol ∧
      ((∃ i ∈ csum, ∃ j ∈ csum, i ≠ j ∧ CoversLeft cols rowmask [i, j]) → sol.length = 2) := by
  refine ⟨_, h.checked_getBest2Solution (List.ne_nil_of_length_pos (by omega)), ?_⟩
  intro ⟨i, hi, j, hj, hne, hcov⟩
  obtain ⟨a, ha, hia⟩ := List.getElem_of_mem hi
  obtain ⟨b, hb, hjb⟩ := List.getElem_of_mem hj
  rw [← List.getD_eq_getElem _ 0 ha] at hia
  rw [← List.getD_eq_getElem _ 0 hb] at hjb
  have hsome : ∃ i j, getBest2Solution cols rowmask csum = [i, j] := by
    rcases Nat.lt_trichotomy a b with hab | hab | hab
    · exact h.getBest2Solution_pair hab hb (by rw [hia, hjb]; exact hcov)
    · exact absurd (by rw [← hia, ← hjb, hab]) hne
    · refine h.getBest2Solution_pair hab ha ?_
      rw [hia, hjb]
      intro r hr hmr
      obtain ⟨p, hp, hpr⟩ := hcov r hr hmr
      exact ⟨p, List.mem_pair.2 (List.mem_pair.1 hp).symm, hpr⟩
  obtain ⟨i', j', hsol⟩ := hsome
  rw [hsol]
  rfl

/-- Listed columns under a mask without a row. -/
theorem listed_columns {n : Nat} (hn : 0 < n) {rows : List (List Nat)}
    (hrows : ∀ l ∈ rows, ∀ i ∈ l, i < n) {csum : List Nat} (hmem : ∀ p ∈ csum, p < rows.length)
    (hsorted : csum.Pairwise fun p q =>
      (vec (rows.map (column n)) q).count ≤ (vec (rows.map (column n)) p).count) :
    Listed (rows.map (column n)) (Bitvector.setSize n) csum where
  mask := (setSize_good n).1
  left := ⟨0, hn, (setSize_good n).2 0⟩
  col c hc := by
    obtain ⟨l, hl, rfl⟩ := List.mem_map.1 hc
    exact column_good (hrows l hl)
  disjoint _ _ i _ := (setSize_good n).2 i
  mem p hp := by
    rw [List.length_map]
    exact hmem p hp
  sorted := hsorted

/-- Three rows in two columns. -/
theorem getBest2Solution_finds_two :
    ∃ sol, Checked.getBest2Solution ([[0, 1], [2]].map (column 3)) (Bitvector.setSize 3) [0, 1] =
      some sol ∧ sol.length = 2 := by
  have hcov : ∀ i < 3, ∃ p ∈ [0, 1], (vec ([[0, 1], [2]].map (column 3)) p).bit i = true := by
    decide
  have hlisted : Listed ([[0, 1], [2]].map (column 3)) (Bitvector.setSize 3) [0, 1] :=
    listed_columns (by decide) (by decide) (by decide) (by decide)
  obtain ⟨sol, hsol, hlen⟩ := getBest2Solution_finds hlisted (by decide)
  exact ⟨sol, hsol, hlen ⟨0, by decide, 1, by decide, by decide, fun i hi _ => hcov i hi⟩⟩

/-! ## The triple -/

theorem mem_takeWhile_range' {P : Nat → Bool} {j : Nat} : ∀ {n m : Nat},
    m ≤ j → j < m + n → (∀ i, m ≤ i → i ≤ j → P i = true) → j ∈ (List.range' m n).takeWhile P
  | 0, m, h1, h2, _ => absurd h2 (by omega)
  | n + 1, m, h1, h2, h => by
    rw [List.range'_succ, List.takeWhile_cons_of_pos (h m le_rfl h1)]
    by_cases he : j = m
    · exact he ▸ List.mem_cons_self
    · exact List.mem_cons_of_mem _
        (mem_takeWhile_range' (by omega) (by omega) fun i h3 h4 => h i (by omega) h4)

/-- The triple of ranks that the search looks for: the last one is behind the boundary. -/
structure Visited (cols : List Bitvector) (rowmask : Bitvector) (csum : List Nat) (a b c : Nat) :
    Prop where
  ab : a < b
  bc : b < c
  lt : c < csum.length
  behind : min (csum.length - 2) (csum.countP fun p =>
    geUnsigned (vec cols p).count ((maxsize rowmask).tdiv 3)) < c
  large : maxsize rowmask ≤ (vec cols (csum.getD a 0)).count + (vec cols (csum.getD b 0)).count +
    (vec cols (csum.getD c 0)).count
  test : isSolutionLite3 cols rowmask (csum.getD a 0) (csum.getD b 0) (csum.getD c 0) = true

section
variable {cols : List Bitvector} {rowmask : Bitvector} {csum : List Nat}
  (h : Listed cols rowmask csum) (hlen : 3 ≤ csum.length)
include h hlen

/-- The search finds a triple if and only if there is one that it looks for. -/
theorem getBest3Solution_length : (getBest3Solution cols rowmask csum).length = 3 ↔
    ∃ a b c, Visited cols rowmask csum a b c := by
  have hlast : csum.length - 2 < csum.length := by omega
  have hmid := h.midIndex_eq hlast ((maxsize rowmask).tdiv 3)
  constructor
  · intro h3
    have hne : getBest3Solution cols rowmask csum ≠ [] := fun hnil => by
      rw [hnil] at h3
      cases h3
    obtain ⟨ii, hii, hf⟩ := Setcover.findSome?_getD hne
    obtain ⟨kk, hkk, hfk⟩ := List.exists_of_findSome?_eq_some hf
    obtain ⟨jj, hjj, hfj⟩ := List.exists_of_findSome?_eq_some hfk
    have hlarge := List.mem_takeWhile_imp hjj
    rw [decide_eq_true_eq] at hlarge
    have hrange := List.mem_range'_1.1 ((List.takeWhile_sublist _).subset hjj)
    obtain ⟨hk, hbehind⟩ := List.mem_filter.1 (List.mem_reverse.1 hkk)
    split at hfj
    · rename_i htest
      refine ⟨ii, jj, kk, by omega, by omega, List.mem_range.1 hk, ?_, hlarge, htest⟩
      rw [← hmid]
      exact of_decide_eq_true hbehind
    · cases hfj
  · intro ⟨a, b, c, hv⟩
    obtain ⟨hab, hbc, hc, hbehind, hlarge, htest⟩ := hv
    have hca := h.count_getD (Nat.le_of_lt hab) (Nat.lt_trans hbc hc)
    have hcb := h.count_getD (Nat.le_of_lt hbc) hc
    have ha : a < midIndex cols csum (csum.length - 2) ((maxsize rowmask).tdiv 3) := by
      have hpos := h.maxsize_pos
      rw [Int.tdiv_eq_ediv_of_nonneg hpos.le]
      refine h.lt_midIndex (by omega) (by omega) (by omega) ?_
      omega
    rw [← hmid] at hbehind
    have hcmem : c ∈ ((List.range csum.length).filter
        (midIndex cols csum (csum.length - 2) ((maxsize rowmask).tdiv 3) < ·)).reverse :=
      List.mem_reverse.2 (List.mem_filter.2 ⟨List.mem_range.2 hc, decide_eq_true hbehind⟩)
    -- the columns between the first and the middle one are at least as large as the middle one
    have hbmem : b ∈ (List.range' (a + 1) (c - (a + 1))).takeWhile fun jj => maxsize rowmask ≤
        (vec cols (csum.getD a 0)).count + (vec cols (csum.getD jj 0)).count +
          (vec cols (csum.getD c 0)).count := by
      refine mem_takeWhile_range' hab (by omega) fun i _ hi => ?_
      have := h.count_getD hi (Nat.lt_trans hbc hc)
      rw [decide_eq_true_eq]
      omega
    simp only [getBest3Solution]
    generalize hs : List.findSome? _ (List.range _) = found
    cases found with
    | none =>
      have hkk := List.findSome?_eq_none_iff.1 hs a (List.mem_range.2 ha)
      have hjj := List.findSome?_eq_none_iff.1 hkk c hcmem
      have hnot := List.findSome?_eq_none_iff.1 hjj b hbmem
      rw [if_pos htest] at hnot
      cases hnot
    | some best =>
      obtain ⟨ii, -, hii⟩ := List.exists_of_findSome?_eq_some hs
      obtain ⟨kk, -, hkk⟩ := List.exists_of_findSome?_eq_some hii
      obtain ⟨jj, -, hjj⟩ := List.exists_of_findSome?_eq_some hkk
      split at hjj
      · rw [Option.getD_some, ← Option.some.inj hjj]
        rfl
      · cases hjj

end

/-- Three different listed columns that cover what the mask leaves. -/
def CoveringTriple (cols : List Bitvector) (rowmask : Bitvector) (csum : List Nat) : Prop :=
  ∃ i ∈ csum, ∃ j ∈ csum, ∃ k ∈ csum, i ≠ j ∧ i ≠ k ∧ j ≠ k ∧ CoversLeft cols rowmask [i, j, k]

/-- **Where the pruned search for a triple loses nothing**: if there is a covering triple, there is
one that passes the test with its last rank behind the boundary. -/
theorem getBest3Solution_iff {cols : List Bitvector} {rowmask : Bitvector} {csum : List Nat}
    (h : Listed cols rowmask csum) (hlen : 3 ≤ csum.length) :
    (CoveringTriple cols rowmask csum → (getBest3Solution cols rowmask csum).length = 3) ↔
      (CoveringTriple cols rowmask csum → ∃ a b c, Visited cols rowmask csum a b c) :=
  imp_congr_right fun _ => getBest3Solution_length h hlen

/-- A cover of six rows by the first three columns, which all come before the boundary. -/
def missedColumns : List Bitvector := [[0, 1], [2, 3], [4, 5], [0]].map (column 6)

theorem missedColumns_listed : Listed missedColumns (Bitvector.setSize 6) [0, 1, 2, 3] :=
  listed_columns (by decide) (by decide) (by decide) (by decide)

theorem missedColumns_covering :
    CoveringTriple missedColumns (Bitvector.setSize 6) [0, 1, 2, 3] := by
  refine ⟨0, by decide, 1, by decide, 2, by decide, by decide, by decide, by decide, ?_⟩
  have hcov : ∀ i < 6, ∃ p ∈ [0, 1, 2], (vec missedColumns p).bit i = true := by decide
  exact fun i hi _ => hcov i hi

/-- The cover by the first three columns is missed. -/
theorem getBest3Solution_misses : ∃ (cols : List Bitvector) (rowmask : Bitvector) (csum : List Nat),
    Listed cols rowmask csum ∧ csum.Nodup ∧ 3 ≤ csum.length ∧ CoveringTriple cols rowmask csum ∧
      (getBest3Solution cols rowmask csum).length ≠ 3 :=
  ⟨_, _, _, missedColumns_listed, by decide, by decide, missedColumns_covering, by decide⟩

/-- Without the fourth column the last one of the cover is behind the boundary. -/
theorem getBest3Solution_iff_three :
    (getBest3Solution ([[0, 1], [2, 3], [4, 5]].map (column 6)) (Bitvector.setSize 6)
      [0, 1, 2]).length = 3 := by
  have hlisted : Listed ([[0, 1], [2, 3], [4, 5]].map (column 6)) (Bitvector.setSize 6) [0, 1, 2] :=
    listed_columns (by decide) (by decide) (by decide) (by decide)
  have hcov : ∀ i < 6, ∃ p ∈ [0, 1, 2],
      (vec ([[0, 1], [2, 3], [4, 5]].map (column 6)) p).bit i = true := by decide
  exact (getBest3Solution_iff hlisted (by decide)).2
    (fun _ => ⟨0, 1, 2, by decide, by decide, by decide, by decide, by decide, by decide⟩)
    ⟨0, by decide, 1, by decide, 2, by decide, by decide, by decide, by decide,
      fun i hi _ => hcov i hi⟩

end Msyn.SC
