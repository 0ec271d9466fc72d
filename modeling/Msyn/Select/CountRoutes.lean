import Mathlib.Data.Nat.Count
import Mathlib.Data.Set.Card
import Msyn.Select.BitSets
import Msyn.Select.Complement

/-!
# The routes of counting

The set cover asks for the size of a union or an intersection of two vectors, less a mask, in two
ways: by a sum over the words that leaves the vectors alone (`count_or`, `count_and` of
`bitop.cpp`), or by `copy` and the operations that change the copy and `recount` it. Both are the
number of the positions (`counts_agree`): the sum over the words is what the operation on the
first vector itself reports (`countOr_eq_orCount`, `countOrMasked_eq`), and a vector that keeps the
invariant is counted by its positions (`Good.count_eq_ncard`).
-/

namespace Msyn.Bitprocess.Bitvector

/-- The counts of two vectors, with and without a mask, are those of the sets, and so is what the
operations on a copy of the first vector report, whatever it is copied into. -/
structure CountRoutes (b1 b2 mask : Bitvector) : Prop where
  or : countOr b1 b2 = (b1.positions ∪ b2.positions).ncard
  and : countAnd b1 b2 = (b1.positions ∩ b2.positions).ncard
  orMasked : countOrMasked b1 b2 mask = ((b1.positions ∪ b2.positions) \ mask.positions).ncard
  andMasked : countAndMasked b1 b2 mask = ((b1.positions ∩ b2.positions) \ mask.positions).ncard
  copyOr : ∀ v : Bitvector, ((v.copy b1).orCount b2).count = countOr b1 b2
  copyAnd : ∀ v : Bitvector, ((v.copy b1).andCount b2).count = countAnd b1 b2
  copyOrMasked : ∀ v : Bitvector,
    (((v.copy b1).orCount b2).maskCount mask).count = countOrMasked b1 b2 mask
  copyAndMasked : ∀ v : Bitvector,
    (((v.copy b1).andCount b2).maskCount mask).count = countAndMasked b1 b2 mask

/-! ## Counters and sets -/

theorem Good.count_eq_ncard {v : Bitvector} (hv : v.Good) : v.count = v.positions.ncard := by
  have hpos : v.positions = ((Finset.range v.bsize).filter fun i => v.bit i = true) := by
    ext i
    rw [Finset.mem_coe, Finset.mem_filter, Finset.mem_range]
    refine ⟨fun h => ⟨?_, h⟩, fun h => h.2⟩
    by_contra hge
    have hfree := hv.beyond i (not_lt.1 hge)
    exact Bool.false_ne_true (hfree.symm.trans h)
  rw [hpos, Set.ncard_coe_finset, ← Nat.count_eq_card_filter_range]
  show v.counter = _
  rw [hv.counter, Nat.count]
  exact List.countP_congr fun i _ => by rw [decide_eq_true_eq]

theorem Good.positions_copy {b : Bitvector} (hb : b.Good) (v : Bitvector) :
    (v.copy b).positions = b.positions :=
  Set.ext fun i => by
    show (v.copy b).bit i = true ↔ b.bit i = true
    rw [(Good.copy v hb).2]

namespace Op

section
variable (o : Op) {b : Bitvector} (hb : b.Good) (ha : o.Allowed b)
include hb ha

/-- What an operation reports is the size of the set that it stands for. -/
theorem count_apply : (o.apply b).count = (o.effect b.bsize b.positions).ncard := by
  obtain ⟨hg, -, hpos⟩ := o.spec hb ha
  rw [hg.count_eq_ncard, hpos]

theorem count_apply_mask {mask : Bitvector} (hm : mask.Good)
    (hs : mask.bsize = (o.apply b).bsize) : ((o.apply b).maskCount mask).count =
      (o.effect b.bsize b.positions \ mask.positions).ncard := by
  obtain ⟨hg, -, hpos⟩ := o.spec hb ha
  rw [← hpos]
  exact (maskCount mask).count_apply hg ⟨hm, hs⟩

variable (v : Bitvector) (hc : o.Allowed (v.copy b))
include hc

/-- On a copy an operation reports what it reports on the vector. -/
theorem count_copy : (o.apply (v.copy b)).count = (o.apply b).count := by
  rw [o.count_apply (Good.copy v hb).1 hc, o.count_apply hb ha, hb.positions_copy v]
  rfl

theorem count_copy_mask {mask : Bitvector} (hm : mask.Good)
    (hs : mask.bsize = (o.apply b).bsize) (hs' : mask.bsize = (o.apply (v.copy b)).bsize) :
    ((o.apply (v.copy b)).maskCount mask).count = ((o.apply b).maskCount mask).count := by
  rw [o.count_apply_mask (Good.copy v hb).1 hc hm hs', o.count_apply_mask hb ha hm hs,
    hb.positions_copy v]
  rfl

end

end Op

/-! ## The sums over the words -/

/-- A masked sum over the words of a combination is what `mask_count` reports after it. -/
theorem Good.sum_masked {u : Bitvector} (hu : u.Good) (b1 b2 mask : Bitvector)
    (f : Word → Word → Word) (hsize : u.wordSize = b1.wordSize)
    (hword : ∀ i < b1.wordSize, u.getWord i = f (b1.getWord i) (b2.getWord i)) :
    ((List.range b1.wordSize).map fun i =>
      count64 (f (b1.getWord i) (b2.getWord i) &&& ~~~mask.getWord i)).sum =
      (u.maskCount mask).count := by
  have hmap : ((List.range u.wordSize).map fun i =>
      count64 (u.getWord i &&& ~~~mask.getWord i)) = (List.range b1.wordSize).map fun i =>
        count64 (f (b1.getWord i) (b2.getWord i) &&& ~~~mask.getWord i) := by
    rw [hsize]
    refine List.map_congr_left fun i hi => ?_
    rw [hword i (List.mem_range.1 hi)]
  rw [← hmap]
  exact hu.sum_count64 mask fun w m => w &&& ~~~m

section
variable {b1 b2 mask : Bitvector} (h1 : b1.Good) (hs : b1.bsize = b2.bsize)
  (hm : b2.bsize = mask.bsize)
include h1 hs hm

theorem Good.countOrMasked_eq (h2 : b2.Good) :
    countOrMasked b1 b2 mask = ((b1.orCount b2).maskCount mask).count := by
  have hsize : ¬(b1.size ≠ b2.size ∨ b2.size ≠ mask.size) := by
    rw [not_or, not_not, not_not]
    exact ⟨hs, hm⟩
  rw [countOrMasked, if_neg hsize]
  exact (h1.orCount h2 hs.symm).1.sum_masked b1 b2 mask (· ||| ·) rfl fun i hi =>
    h1.getWord_mapWords (fun i w => w ||| b2.getWord i) hi

theorem Good.countAndMasked_eq :
    countAndMasked b1 b2 mask = ((b1.andCount b2).maskCount mask).count := by
  have hsize : ¬(b1.size ≠ b2.size ∨ b2.size ≠ mask.size) := by
    rw [not_or, not_not, not_not]
    exact ⟨hs, hm⟩
  rw [countAndMasked, if_neg hsize]
  exact (h1.andCount b2).1.sum_masked b1 b2 mask (· &&& ·) rfl fun i hi =>
    h1.getWord_mapWords (fun i w => w &&& b2.getWord i) hi

end

/-! ## All routes -/

/-- **Counting**: `count64` counts the bits of every word and `recount` counts them like it, also
where it does not call it. On vectors of one size that keep the invariant, all routes to the size of
a union or an intersection, with or without a mask, agree. -/
theorem counts_agree :
    (∀ x : Word, count64 x = (List.range 64).countP (x.getLsbD ·) ∧ countWord x = count64 x) ∧
    ∀ b1 b2 mask : Bitvector, b1.Good → b2.Good → mask.Good →
      b1.bsize = b2.bsize → b2.bsize = mask.bsize → CountRoutes b1 b2 mask := by
  constructor
  · intro x
    exact ⟨count64_eq x, (count64_eq_countWord x).symm⟩
  · intro b1 b2 mask h1 h2 hmask hs hm
    have hor : (Op.orCount b2).Allowed b1 := ⟨h2, hs.symm⟩
    have hand : (Op.andCount b2).Allowed b1 := ⟨h2, hs.symm⟩
    have hsize : mask.bsize = b1.bsize := (hs.trans hm).symm
    exact {
      or := (h1.countOr_eq_orCount hs).trans ((Op.orCount b2).count_apply h1 hor)
      and := (h1.countAnd_eq_andCount hs).trans ((Op.andCount b2).count_apply h1 hand)
      orMasked := (h1.countOrMasked_eq hs hm h2).trans
        ((Op.orCount b2).count_apply_mask h1 hor hmask hsize)
      andMasked := (h1.countAndMasked_eq hs hm).trans
        ((Op.andCount b2).count_apply_mask h1 hand hmask hsize)
      copyOr := fun v => ((Op.orCount b2).count_copy h1 hor v hor).trans
        (h1.countOr_eq_orCount hs).symm
      copyAnd := fun v => ((Op.andCount b2).count_copy h1 hand v hand).trans
        (h1.countAnd_eq_andCount hs).symm
      copyOrMasked := fun v =>
        ((Op.orCount b2).count_copy_mask h1 hor v hor hmask hsize hsize).trans
          (h1.countOrMasked_eq hs hm h2).symm
      copyAndMasked := fun v =>
        ((Op.andCount b2).count_copy_mask h1 hand v hand hmask hsize hsize).trans
          (h1.countAndMasked_eq hs hm).symm }

/-- A full vector of 70 positions, one with two of them and the mask of one of these: the first
word is full, so that `recount` does not call `count64` on it. -/
theorem counts_agree_full :
    countOrMasked (setSize 70).setall (((setSize 70).set 3).set 65) ((setSize 70).set 65) = 69 ∧
    CountRoutes (setSize 70).setall (((setSize 70).set 3).set 65) ((setSize 70).set 65) := by
  have h0 := (setSize_good 70).1
  have h1 := (h0.setall (by decide)).1
  have hmask := (h0.set 65 (by decide)).1
  have h3 := h0.set 3 (by decide)
  have h2 := (h3.1.set 65 (by rw [h3.2.1]; decide)).1
  exact ⟨by decide +kernel,
    counts_agree.2 _ _ _ h1 h2 hmask (by decide +kernel) (by decide +kernel)⟩

end Msyn.Bitprocess.Bitvector
