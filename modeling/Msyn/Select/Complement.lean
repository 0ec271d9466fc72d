import Msyn.Select.BitOps

/-!
# Complements

`not_count` flips whole words. The complement has the right bits below the size and the right
counter (`notCount_bit`, `notCount_count`), but the rest of a partial last word is set as well
(`notCount_padding`), and the operations that count words count it (`notCount_orCount`). The
invariant is kept if and only if the last word is full (`notCount_complements_iff`).
-/

namespace Msyn.Bitprocess.Bitvector

def notCount (v : Bitvector) : Bitvector :=
  { v.mapWords fun _ w => ~~~w with counter := v.bsize - v.counter }

def countOr (b1 b2 : Bitvector) : Nat :=
  if b1.size ≠ b2.size then 0
  else ((List.range b1.wordSize).map fun i => count64 (b1.getWord i ||| b2.getWord i)).sum

/-- The number of positions below the size. -/
def below (v : Bitvector) (p : Nat → Bool) : Nat := (List.range v.bsize).countP p

/-- The operations with another vector count the positions below the size. -/
structure CountsBelow (v : Bitvector) : Prop where
  orCount : ∀ b : Bitvector, b.Good → b.bsize = v.bsize →
    (v.orCount b).count = v.below fun i => v.bit i || b.bit i
  andCount : ∀ b : Bitvector, b.Good → b.bsize = v.bsize →
    (v.andCount b).count = v.below fun i => v.bit i && b.bit i
  maskCount : ∀ b : Bitvector, b.Good → b.bsize = v.bsize →
    (v.maskCount b).count = v.below fun i => v.bit i && !b.bit i
  countOr : ∀ b : Bitvector, b.Good → b.bsize = v.bsize →
    v.countOr b = v.below fun i => v.bit i || b.bit i
  countAnd : ∀ b : Bitvector, b.Good → b.bsize = v.bsize →
    v.countAnd b = v.below fun i => v.bit i && b.bit i

/-- `c` is a complement of `v`, for the operations that follow, too. -/
structure Complements (v c : Bitvector) : Prop where
  size : c.bsize = v.bsize
  bit : ∀ i < v.bsize, c.bit i = !v.bit i
  count : c.count = v.below fun i => !v.bit i
  good : c.Good
  counts : c.CountsBelow

/-! ## What the operations count -/

section
variable {v b : Bitvector} (hv : v.Good)
include hv

theorem Good.count_eq {p : Nat → Bool} (hp : ∀ i, v.bit i = p i) : v.count = v.below p := by
  show v.counter = _
  rw [hv.counter]
  exact List.countP_congr fun i _ => by rw [hp i]

/-- `count_or` is what `or_count` reports. -/
theorem Good.countOr_eq_orCount (hs : v.bsize = b.bsize) :
    v.countOr b = (v.orCount b).count := by
  have hsize : ¬v.size ≠ b.size := not_not.2 hs
  rw [Bitvector.countOr, if_neg hsize, hv.sum_count64 b (· ||| ·)]
  rfl

/-- **A vector that keeps the invariant** is counted right. -/
theorem Good.countsBelow : v.CountsBelow where
  orCount b hb hs := by
    obtain ⟨h1, h2, h3⟩ := hv.orCount hb hs
    rw [h1.count_eq h3, below, h2, below]
  andCount b _ _ := by
    obtain ⟨h1, h2, h3⟩ := hv.andCount b
    rw [h1.count_eq h3, below, h2, below]
  maskCount b _ _ := by
    obtain ⟨h1, h2, h3⟩ := hv.maskCount b
    rw [h1.count_eq h3, below, h2, below]
  countOr b hb hs := by
    obtain ⟨h1, h2, h3⟩ := hv.orCount hb hs
    rw [hv.countOr_eq_orCount hs.symm, h1.count_eq h3, below, h2, below]
  countAnd b _ hs := countAnd_eq hv hs.symm

/-! ## The complement -/

theorem notCount_bit (i : Nat) : v.notCount.bit i = (decide (i / 64 < v.wsize) && !v.bit i) := by
  show (v.mapWords fun _ w => ~~~w).bit i = _
  rw [hv.bit_mapWords]
  split
  · rename_i hi
    rw [BitVec.getLsbD_not, decide_eq_true hi]
    simp [bit, Nat.mod_lt]
  · rename_i hi
    rw [decide_eq_false hi, Bool.false_and]

theorem notCount_bit_below {i : Nat} (hi : i < v.bsize) : v.notCount.bit i = !v.bit i := by
  rw [notCount_bit hv, decide_eq_true (hv.lt hi), Bool.true_and]

/-- The rest of the last word is set. -/
theorem notCount_padding {i : Nat} (hi : v.bsize ≤ i) :
    v.notCount.bit i = decide (i / 64 < v.wsize) := by
  rw [notCount_bit hv, hv.beyond i hi, Bool.not_false, Bool.and_true]

theorem notCount_count : v.notCount.count = v.below fun i => !v.bit i := by
  have h := @List.length_eq_countP_add_countP _ v.bit (List.range v.bsize)
  rw [List.length_range] at h
  show v.bsize - v.counter = _
  rw [hv.counter, below]
  simp only [Bool.not_eq_true] at h
  have hcongr : (List.range v.bsize).countP (fun i => !v.bit i) =
      (List.range v.bsize).countP fun i => decide (v.bit i = false) :=
    List.countP_congr fun i _ => by simp
  omega

theorem notCount_good (h : v.bsize % 64 = 0) : v.notCount.Good := by
  have hw : 64 * v.wsize = v.bsize := by
    rw [hv.wsize, words_eq]
    omega
  refine ⟨⟨hv.wsize, (hv.mapWords _).length⟩, fun i hi => ?_, ?_⟩
  · have hi' : v.bsize ≤ i := hi
    rw [notCount_padding hv hi', decide_eq_false (by omega)]
  · show v.notCount.count = _
    rw [notCount_count hv]
    exact List.countP_congr fun i hi => by rw [notCount_bit_below hv (List.mem_range.1 hi)]

/-- **A count after the complement** counts the rest of the last word as well. -/
theorem notCount_orCount : (v.notCount.orCount b).count =
    v.below (fun i => !v.bit i || b.bit i) + (64 * v.wsize - v.bsize) := by
  have hsized : v.notCount.Sized := ⟨hv.wsize, (hv.mapWords _).length⟩
  have hor := hsized.mapWords fun i w => w ||| b.getWord i
  -- a recount counts every bit of the words
  have hcount : (v.notCount.orCount b).count =
      (List.range (64 * v.wsize)).countP
        (v.notCount.mapWords fun i w => w ||| b.getWord i).bit := by
    have h := countP_words (v.notCount.mapWords fun i w => w ||| b.getWord i).data (64 * v.wsize)
      (by rw [hor.length]; rfl) fun i hi => hor.outside (show ¬i / 64 < v.wsize by omega)
    show (((v.notCount.mapWords fun i w => w ||| b.getWord i).data.take v.wsize).map
      countWord).sum = _
    have hlen : (v.notCount.mapWords fun i w => w ||| b.getWord i).data.length ≤ v.wsize :=
      hor.length.le
    rw [List.take_of_length_le hlen, h]
    rfl
  have hbit : ∀ i, (v.notCount.mapWords fun i w => w ||| b.getWord i).bit i =
      if i / 64 < v.wsize then !v.bit i || b.bit i else false := by
    intro i
    rw [hsized.bit_mapWords]
    show (if i / 64 < v.wsize then _ else _) = _
    split
    · rename_i hi
      have h := notCount_bit hv i
      rw [decide_eq_true hi, Bool.true_and] at h
      rw [BitVec.getLsbD_or, ← h]
      rfl
    · rfl
  have hle : v.bsize ≤ 64 * v.wsize := hv.wsize ▸ le_words v.bsize
  obtain ⟨k, hk⟩ := Nat.exists_eq_add_of_le hle
  have hin : ∀ {i}, i < 64 * v.wsize → i / 64 < v.wsize := by omega
  rw [hcount, hk, Nat.add_sub_cancel_left, List.range_add, List.countP_append, List.countP_map,
    below]
  congr 1
  · refine List.countP_congr fun i hi => ?_
    have := List.mem_range.1 hi
    rw [hbit, if_pos (hin (by omega))]
  · have hall : ∀ j ∈ List.range k,
        ((v.notCount.mapWords fun i w => w ||| b.getWord i).bit ∘ (v.bsize + ·)) j = true := by
      intro j hj
      have := List.mem_range.1 hj
      show (v.notCount.mapWords fun i w => w ||| b.getWord i).bit (v.bsize + j) = true
      rw [hbit, if_pos (hin (by omega)), hv.beyond _ (Nat.le_add_right _ _)]
      rfl
    rw [List.countP_eq_length.2 hall, List.length_range]

/-- **The complement keeps the invariant** if and only if the last word is full. -/
theorem notCount_complements_iff : v.Complements v.notCount ↔ v.bsize % 64 = 0 := by
  constructor
  · intro h
    by_contra hne
    have hbit := h.good.beyond v.bsize le_rfl
    have hlt : v.bsize / 64 < v.wsize := by
      rw [hv.wsize, words_eq]
      omega
    rw [notCount_padding hv le_rfl, decide_eq_true hlt] at hbit
    cases hbit
  · intro h
    have hg := notCount_good hv h
    exact ⟨rfl, fun i hi => notCount_bit_below hv hi, notCount_count hv, hg, hg.countsBelow⟩

end

theorem notCount_complements_word : (setSize 64).Complements (setSize 64).notCount :=
  (notCount_complements_iff (setSize_good 64).1).2 (by decide)

/-- The complement of an empty set of one position has 64 members for the next count. -/
theorem notCount_counts_padding : (setSize 1).Good ∧
    ¬(setSize 1).Complements (setSize 1).notCount ∧
      ((setSize 1).notCount.orCount (setSize 1)).count = 64 := by
  refine ⟨(setSize_good 1).1, fun h => ?_, by decide⟩
  have h1 := h.good.beyond 1 le_rfl
  revert h1
  decide

end Msyn.Bitprocess.Bitvector
