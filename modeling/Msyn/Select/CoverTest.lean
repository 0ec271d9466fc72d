import Msyn.Select.MinCol

/-!
# The cover test

What the word-level test `IsSolutionLite` and its variants accept. With `n` rows it compares the
number of bits in the last word with `n` modulo 64, so that a last word of 64 rows may also be
empty: a test passes if all rows are covered, or if `n` is a multiple of 64, the rows before the last
64 are covered and none of the last 64 is (`wordTest_iff`).
-/

namespace Msyn.SC

open Bitprocess Bitvector

/-! ## The vectors of a list -/

theorem vec_eq_getElem {vs : List Bitvector} {i : Nat} (h : i < vs.length) : vec vs i = vs[i] :=
  List.getD_eq_getElem _ _ h

theorem vec_map {vs : List Bitvector} (f : Bitvector → Bitvector) {i : Nat} (h : i < vs.length) :
    vec (vs.map f) i = f (vec vs i) := by
  rw [vec_eq_getElem h, vec_eq_getElem (by simpa using h), List.getElem_map]

theorem vec_ofRange {n i : Nat} (f : Nat → Bitvector) (h : i < n) :
    vec ((List.range n).map f) i = f i := by
  rw [vec_eq_getElem (by simpa using h)]
  simp

/-- Every vector has only bits below the size. -/
def Within (cols : List Bitvector) (n : Nat) : Prop :=
  ∀ k i, n ≤ i → (vec cols k).bit i = false

theorem within_of_good {cols : List Bitvector} {n : Nat}
    (h : ∀ k < cols.length, (vec cols k).Good ∧ (vec cols k).bsize = n) : Within cols n := by
  intro k i hi
  by_cases hk : k < cols.length
  · exact (h k hk).1.beyond i ((h k hk).2.trans_le hi)
  · rw [vec, List.getD_eq_default _ _ (Nat.le_of_not_lt hk)]
    exact getLsbD_zeroWord _

/-- A column with the given rows. -/
def column (n : Nat) (rows : List Nat) : Bitvector := rows.foldl Bitvector.set (Bitvector.setSize n)

theorem column_good {n : Nat} {rows : List Nat} (hrows : ∀ i ∈ rows, i < n) :
    (column n rows).Good ∧ (column n rows).bsize = n := by
  have key : ∀ v : Bitvector, v.Good → v.bsize = n → (rows.foldl Bitvector.set v).Good ∧
      (rows.foldl Bitvector.set v).bsize = n := by
    induction rows with
    | nil => exact fun v hv hs => ⟨hv, hs⟩
    | cons i rows ih =>
      intro v hv hs
      obtain ⟨h1, h2, -⟩ := hv.set i (by rw [hs]; exact hrows i (by simp))
      exact ih (fun j hj => hrows j (by simp [hj])) _ h1 (h2.trans hs)
  exact key _ (setSize_good n).1 rfl

/-! ## The words -/

theorem allOnes_iff (w : Word) :
    w = 0xFFFFFFFFFFFFFFFF#64 ↔ ∀ j < 64, w.getLsbD j = true := by
  have hones : ∀ j < 64, (0xFFFFFFFFFFFFFFFF#64 : Word).getLsbD j = true := by decide
  constructor
  · intro h j hj
    rw [h]
    exact hones j hj
  · intro h
    exact BitVec.eq_of_getLsbD_eq fun j hj => (h j hj).trans (hones j hj).symm

theorem or_allOnes (w : Word) : 0xFFFFFFFFFFFFFFFF#64 ||| w = 0xFFFFFFFFFFFFFFFF#64 := by
  rw [allOnes_iff]
  intro j hj
  rw [BitVec.getLsbD_or, (allOnes_iff _).1 rfl j hj, Bool.true_or]

/-- Stopping at a full word does not change it. -/
theorem orWord_eq (cols : List Bitvector) (i : Nat) (ps : List Nat) (res : Word) :
    orWord cols i ps res = ps.foldl (fun res p => res ||| (vec cols p).getWord i) res := by
  induction ps generalizing res with
  | nil => rfl
  | cons p ps ih =>
    unfold orWord
    split
    · exact ih _
    · rename_i hfull
      have hstay : ∀ qs : List Nat, qs.foldl (fun res p => res ||| (vec cols p).getWord i)
          0xFFFFFFFFFFFFFFFF#64 = 0xFFFFFFFFFFFFFFFF#64 := by
        intro qs
        induction qs with
        | nil => rfl
        | cons q qs ih =>
          rw [List.foldl_cons, or_allOnes]
          exact ih
      rw [not_not.1 hfull]
      exact (hstay (p :: ps)).symm

theorem foldl_or_bit (cols : List Bitvector) (i : Nat) (ps : List Nat) (res : Word) (j : Nat) :
    (ps.foldl (fun res p => res ||| (vec cols p).getWord i) res).getLsbD j =
      (res.getLsbD j || ps.any fun p => ((vec cols p).getWord i).getLsbD j) := by
  induction ps generalizing res with
  | nil => rw [List.any_nil, Bool.or_false, List.foldl_nil]
  | cons p ps ih => rw [List.foldl_cons, ih, BitVec.getLsbD_or, List.any_cons, Bool.or_assoc]

/-- What a test accepts, of the rows `g` that are covered. -/
def Passes (n : Nat) (g : Nat → Bool) : Prop :=
  (∀ i < n, g i = true) ∨
    n % 64 = 0 ∧ (∀ i < n - 64, g i = true) ∧ ∀ i, n - 64 ≤ i → g i = false

/-- The number of bits in the last word, modulo 64. -/
theorem count_mod_iff {r : Nat} (hr : 0 < r) (hr' : r ≤ 64) {g : Nat → Bool}
    (hg : ∀ j, r ≤ j → g j = false) :
    (List.range 64).countP g % 64 = r % 64 ↔
      (∀ j < r, g j = true) ∨ r = 64 ∧ ∀ j < r, g j = false := by
  have hcount : (List.range 64).countP g = (List.range r).countP g := countP_beyond hr' hg
  have hle : (List.range r).countP g ≤ r :=
    List.countP_le_length.trans (List.length_range (n := r)).le
  have hall : (List.range r).countP g = r ↔ ∀ j < r, g j = true := by
    have h : (List.range r).countP g = (List.range r).length ↔ ∀ j ∈ List.range r, g j = true :=
      List.countP_eq_length
    rw [List.length_range] at h
    simpa using h
  have hnone : (List.range r).countP g = 0 ↔ ∀ j < r, g j = false := by
    simp [List.countP_eq_zero]
  rw [hcount, ← hall, ← hnone]
  omega

/-- **The test**, of words whose bits are `g`. -/
theorem wordTest_iff {rowmask : Bitvector} (hm : rowmask.Good) (hn : 0 < rowmask.bsize)
    {word : Nat → Word} {g : Nat → Bool}
    (hw : ∀ i, ∀ j < 64, (word i).getLsbD j = g (i * 64 + j))
    (hg : ∀ i, rowmask.bsize ≤ i → g i = false) :
    wordTest rowmask word (word (rowmask.wordSize - 1)) = true ↔ Passes rowmask.bsize g := by
  obtain ⟨n, hN⟩ : ∃ n, n = rowmask.bsize := ⟨_, rfl⟩
  obtain ⟨w, hW⟩ : ∃ w, w + 1 = rowmask.wordSize := by
    have := words_eq rowmask.bsize
    have := hm.wsize
    exact ⟨rowmask.wordSize - 1, by unfold wordSize; omega⟩
  have hsize : w + 1 = (n + 63) / 64 := by rw [hW, hN, ← words_eq]; exact hm.wsize
  rw [← hN] at hn hg ⊢
  -- the last word holds the rows from `w * 64` on
  have hr : 0 < n - w * 64 := by omega
  have hr' : n - w * 64 ≤ 64 := by omega
  have hlast : count64 (word w) % 64 = n % 64 ↔
      (∀ j < n - w * 64, g (w * 64 + j) = true) ∨
        n - w * 64 = 64 ∧ ∀ j < n - w * 64, g (w * 64 + j) = false := by
    rw [← count_mod_iff hr hr' fun j hj => hg (w * 64 + j) (by omega), count64_eq_countWord,
      countWord_eq, List.countP_congr fun j hj => by rw [hw w j (List.mem_range.1 hj)]]
    have : n % 64 = (n - w * 64) % 64 := by omega
    rw [this]
  have hfirst : (∀ i < w, word i = 0xFFFFFFFFFFFFFFFF#64) ↔ ∀ i < w * 64, g i = true := by
    constructor
    · intro h i hi
      have := (allOnes_iff _).1 (h (i / 64) (by omega)) (i % 64) (by omega)
      rwa [hw _ _ (by omega), Nat.div_add_mod' i 64] at this
    · intro h i hi
      rw [allOnes_iff]
      intro j hj
      rw [hw i j hj]
      exact h _ (by omega)
  have htest : wordTest rowmask word (word (rowmask.wordSize - 1)) = true ↔
      (∀ i < w * 64, g i = true) ∧ count64 (word w) % 64 = n % 64 := by
    rw [← hfirst, wordTest, ← hW, Nat.add_sub_cancel, Bool.and_eq_true, List.all_eq_true,
      decide_eq_true_eq, Bitvector.size, ← hN]
    simp
  rw [htest, hlast]
  constructor
  · intro ⟨h1, h2⟩
    rcases h2 with h2 | ⟨h2, h3⟩
    · refine .inl fun i hi => ?_
      by_cases hlt : i < w * 64
      · exact h1 i hlt
      · have := h2 (i - w * 64) (by omega)
        rwa [Nat.add_sub_cancel' (by omega)] at this
    · refine .inr ⟨by omega, fun i hi => h1 i (by omega), fun i hi => ?_⟩
      by_cases hlt : i < n
      · have := h3 (i - w * 64) (by omega)
        rwa [Nat.add_sub_cancel' (by omega)] at this
      · exact hg i (by omega)
  · intro h
    rcases h with h | ⟨h1, h2, h3⟩
    · exact ⟨fun i hi => h i (by omega), .inl fun j hj => h _ (by omega)⟩
    · exact ⟨fun i hi => h2 i (by omega), .inr ⟨by omega, fun j hj => h3 _ (by omega)⟩⟩

section
variable {cols : List Bitvector} {rowmask : Bitvector} (hm : rowmask.Good)
  (hn : 0 < rowmask.bsize) (hc : Within cols rowmask.bsize)
include hm hn hc

theorem isSolutionLite_iff (posList : List Nat) : isSolutionLite cols rowmask posList = true ↔
    Passes rowmask.bsize fun i => rowmask.bit i || posList.any fun p => (vec cols p).bit i := by
  simp only [isSolutionLite, orWord_eq]
  refine wordTest_iff hm hn (fun i j hj => ?_) fun i hi => ?_
  · rw [foldl_or_bit, word_bit _ _ hj]
    simp only [word_bit _ _ hj]
  · simp [hm.beyond i hi, hc _ i hi]

theorem isSolutionLite2_iff (p1 p2 : Nat) : isSolutionLite2 cols rowmask p1 p2 = true ↔
    Passes rowmask.bsize fun i => rowmask.bit i || (vec cols p1).bit i || (vec cols p2).bit i := by
  refine wordTest_iff hm hn (fun i j hj => ?_) fun i hi => ?_
  · simp only [BitVec.getLsbD_or, word_bit _ _ hj]
  · simp [hm.beyond i hi, hc _ i hi]

theorem isSolutionLite3_iff (p1 p2 p3 : Nat) : isSolutionLite3 cols rowmask p1 p2 p3 = true ↔
    Passes rowmask.bsize fun i =>
      rowmask.bit i || (vec cols p1).bit i || (vec cols p2).bit i || (vec cols p3).bit i := by
  refine wordTest_iff hm hn (fun i j hj => ?_) fun i hi => ?_
  · simp only [BitVec.getLsbD_or, word_bit _ _ hj]
  · simp [hm.beyond i hi, hc _ i hi]

end

/-! ## Where the test is exact -/

/-- The number of rows is a multiple of 64, and of the rows exactly the last 64 are not covered. -/
def LastWordEmpty (n : Nat) (g : Nat → Bool) : Prop :=
  n % 64 = 0 ∧ (∀ i < n - 64, g i = true) ∧ ∀ i < n, n - 64 ≤ i → g i = false

/-- What passes covers all rows, unless the last word is full and empty. -/
theorem Passes.exact_iff {n : Nat} (hn : 0 < n) {g : Nat → Bool} (hg : ∀ i, n ≤ i → g i = false) :
    (Passes n g ↔ ∀ i < n, g i = true) ↔ ¬LastWordEmpty n g := by
  have hpass : LastWordEmpty n g → Passes n g := fun h => by
    refine .inr ⟨h.1, h.2.1, fun i hi => ?_⟩
    by_cases hlt : i < n
    · exact h.2.2 i hlt hi
    · exact hg i (Nat.le_of_not_lt hlt)
  have hmiss : LastWordEmpty n g → g (n - 1) = false := fun h =>
    h.2.2 (n - 1) (by omega) (by have := h.1; omega)
  constructor
  · intro hiff hlast
    have hcovered := hiff.1 (hpass hlast) (n - 1) (by omega)
    rw [hmiss hlast] at hcovered
    cases hcovered
  · intro hlast
    refine ⟨fun h => ?_, .inl⟩
    rcases h with h | ⟨h1, h2, h3⟩
    · exact h
    · exact absurd ⟨h1, h2, fun i _ hi => h3 i hi⟩ hlast

section
variable {cols : List Bitvector} {rowmask : Bitvector} (hm : rowmask.Good)
  (hc : ∀ c ∈ cols, c.Good ∧ c.bsize = rowmask.bsize)

/-- The rows of the mask and of the columns at the positions. -/
def coveredRows (cols : List Bitvector) (rowmask : Bitvector) (posList : List Nat) (i : Nat) :
    Bool := rowmask.bit i || posList.any fun p => (vec cols p).bit i

include hc in
theorem within_of_mem : Within cols rowmask.bsize := within_of_good fun k hk => by
  rw [vec_eq_getElem hk]
  exact hc _ (List.getElem_mem hk)

include hm hc in
theorem coveredRows_beyond (posList : List Nat) {i : Nat} (hi : rowmask.bsize ≤ i) :
    coveredRows cols rowmask posList i = false := by
  simp [coveredRows, hm.beyond i hi, within_of_mem hc _ i hi]

include hm hc in
/-- **The cover tests are exact** unless the last 64 rows of a multiple of 64 are the rows that are
not covered. -/
theorem lite_exact_iff (hn : 0 < rowmask.bsize) :
    (∀ posList : List Nat, (∀ p ∈ posList, p < cols.length) →
      ((isSolutionLite cols rowmask posList = true ↔
        ∀ i < rowmask.bsize, coveredRows cols rowmask posList i = true) ↔
          ¬LastWordEmpty rowmask.bsize (coveredRows cols rowmask posList))) ∧
    (∀ p1 < cols.length, ∀ p2 < cols.length,
      ((isSolutionLite2 cols rowmask p1 p2 = true ↔
        ∀ i < rowmask.bsize, coveredRows cols rowmask [p1, p2] i = true) ↔
          ¬LastWordEmpty rowmask.bsize (coveredRows cols rowmask [p1, p2]))) ∧
    ∀ p1 < cols.length, ∀ p2 < cols.length, ∀ p3 < cols.length,
      ((isSolutionLite3 cols rowmask p1 p2 p3 = true ↔
        ∀ i < rowmask.bsize, coveredRows cols rowmask [p1, p2, p3] i = true) ↔
          ¬LastWordEmpty rowmask.bsize (coveredRows cols rowmask [p1, p2, p3])) := by
  have hw := within_of_mem hc
  have hexact := fun posList =>
    Passes.exact_iff hn fun _ hi => coveredRows_beyond hm hc posList hi
  refine ⟨fun posList _ => ?_, fun p1 _ p2 _ => ?_, fun p1 _ p2 _ p3 _ => ?_⟩
  · rw [← hexact, isSolutionLite_iff hm hn hw]
    exact Iff.rfl
  · have hrows : coveredRows cols rowmask [p1, p2] = fun i =>
        rowmask.bit i || (vec cols p1).bit i || (vec cols p2).bit i := by
      funext i
      simp [coveredRows, Bool.or_assoc]
    rw [← hexact, isSolutionLite2_iff hm hn hw, hrows]
  · have hrows : coveredRows cols rowmask [p1, p2, p3] = fun i =>
        rowmask.bit i || (vec cols p1).bit i || (vec cols p2).bit i || (vec cols p3).bit i := by
      funext i
      simp [coveredRows, Bool.or_assoc]
    rw [← hexact, isSolutionLite3_iff hm hn hw, hrows]

end

/-- A mask of 64 rows and no column: no row is covered and the test passes. -/
theorem lite_not_exact : ∃ (cols : List Bitvector) (rowmask : Bitvector), rowmask.Good ∧
    1 ≤ rowmask.bsize ∧ (∀ c ∈ cols, c.Good ∧ c.bsize = rowmask.bsize) ∧
      isSolutionLite cols rowmask [] = true ∧
        ¬∀ i < rowmask.bsize, coveredRows cols rowmask [] i = true := by
  refine ⟨[], setSize 64, (setSize_good 64).1, by decide, by simp, by decide, fun h => ?_⟩
  have h0 := h 0 (by decide)
  exact absurd h0 (by decide)

/-- A column of 70 rows. -/
theorem lite_exact_iff_seventy :
    (isSolutionLite [(setSize 70).setall] (setSize 70) [0] = true ↔
      ∀ i < (setSize 70).bsize, coveredRows [(setSize 70).setall] (setSize 70) [0] i = true) := by
  have hall := (setSize_good 70).1.setall (by decide)
  have hc : ∀ c ∈ [(setSize 70).setall], c.Good ∧ c.bsize = (setSize 70).bsize := by
    intro c hmem
    rw [List.mem_singleton.1 hmem]
    exact ⟨hall.1, hall.2.1⟩
  refine ((lite_exact_iff (setSize_good 70).1 hc (by decide)).1 [0] (by simp)).2 fun hlast => ?_
  exact absurd hlast.1 (by decide)

/-- With a number of rows that is not a multiple of 64, or is at most 64, what passes covers all rows
or none. -/
theorem Passes.all {n : Nat} {g : Nat → Bool} (h : Passes n g) (hn : n % 64 ≠ 0 ∨ n ≤ 64) {r : Nat}
    (hr : g r = true) : ∀ i < n, g i = true := by
  rcases h with h | ⟨h1, h2, h3⟩
  · exact h
  · have := h3 r (by omega)
    rw [hr] at this
    cases this

end Msyn.SC
