import Msyn.Lib.Popcount

/-!
# Bit vectors

The class `bitvector` of `bitop.h`: words of 64 bits with a counter of the bits that are set. A
vector is `Good` if it has the words for its size, no bit is set beyond the size and the counter is
right; every operation keeps this, and its bits are the expected ones.
-/

namespace Msyn.Bitprocess

abbrev Word := BitVec 64

def m1 : Word := 0x5555555555555555#64
def m2 : Word := 0x3333333333333333#64
def m4 : Word := 0x0f0f0f0f0f0f0f0f#64
def h01 : Word := 0x0101010101010101#64

def count64 (x : Word) : Nat :=
  let x := x - ((x >>> 1) &&& m1)
  let x := (x &&& m2) + ((x >>> 2) &&& m2)
  let x := (x + (x >>> 4)) &&& m4
  ((x * h01) >>> 56).toNat

structure Bitvector where
  bsize : Nat := 0
  wsize : Nat := 0
  counter : Nat := 0
  data : List Word := []

namespace Bitvector

/-- The words for `size` bits. -/
def words (size : Nat) : Nat := size / 64 + if size % 64 ≠ 0 then 1 else 0

/-- `data.resize(n)`, which drops words or appends words that are 0. -/
def resizeData (d : List Word) (n : Nat) : List Word := d.take n ++ List.replicate (n - d.length) 0

/-- `for (i = 0; i < wsize; i++) data[i] = f(i, data[i])`. -/
def mapWords (f : Nat → Word → Word) (v : Bitvector) : Bitvector :=
  { v with data := v.data.mapIdx fun i w => if i < v.wsize then f i w else w }

def size (v : Bitvector) : Nat := v.bsize

def wordSize (v : Bitvector) : Nat := v.wsize

def count (v : Bitvector) : Nat := v.counter

def getWord (v : Bitvector) (loc : Nat) : Word := v.data.getD loc 0

def copy (v cpy : Bitvector) : Bitvector :=
  mapWords (fun i _ => cpy.getWord i)
    { bsize := cpy.size
      wsize := cpy.wordSize
      counter := cpy.count
      data := resizeData v.data cpy.wordSize }

def clear (v : Bitvector) : Bitvector := mapWords (fun _ _ => 0) { v with counter := 0 }

/-- `while (p > 0) { d = d << 1; d |= 1; p--; }`. -/
def shiftOnes : Nat → Word → Word
  | 0, d => d
  | p + 1, d => shiftOnes p (d <<< 1 ||| 1)

def setall (v : Bitvector) : Bitvector :=
  let v := mapWords (fun i w => if i < v.wsize - 1 then 0xFFFFFFFFFFFFFFFF#64 else w)
    { v with counter := v.bsize }
  let p := v.bsize % 64
  { v with
    data := v.data.set (v.wsize - 1) (if p = 0 then 0xFFFFFFFFFFFFFFFF#64 else shiftOnes p 0) }

/-- `resize`, which never drops words. -/
def resize (v : Bitvector) (newsize : Nat) : Bitvector :=
  if newsize = v.bsize then v
  else
    let nwsize := words newsize
    if nwsize > v.wsize then
      { v with
        bsize := newsize
        wsize := nwsize
        data := (resizeData v.data nwsize).mapIdx fun i w =>
          if v.wsize ≤ i ∧ i < nwsize then 0 else w }
    else { v with bsize := newsize }

/-- `set_size`; without a vector it is the constructor `bitvector(size)`. -/
def setSize (size : Nat) (v : Bitvector := {}) : Bitvector :=
  mapWords (fun _ _ => 0)
    { bsize := size
      wsize := words size
      counter := 0
      data := resizeData v.data (words size) }

def set (v : Bitvector) (pos : Nat) : Bitvector :=
  let p1 := pos / 64
  let mask : Word := 1#64 <<< (pos % 64)
  if v.getWord p1 &&& mask = 0 then
    { v with data := v.data.set p1 (v.getWord p1 ||| mask), counter := v.counter + 1 }
  else v

def reset (v : Bitvector) (pos : Nat) : Bitvector :=
  let p1 := pos / 64
  let mask : Word := 1#64 <<< (pos % 64)
  if v.getWord p1 &&& mask ≠ 0 then
    { v with data := v.data.set p1 (v.getWord p1 &&& ~~~mask), counter := v.counter - 1 }
  else v

/-- The bits that `recount` counts in a word. -/
def countWord (w : Word) : Nat :=
  if w = 0 then 0
  else if w = 0xFFFFFFFF00000000#64 ∨ w = 0x00000000FFFFFFFF#64 then 32
  else if w = 0xFFFFFFFFFFFFFFFF#64 then 64
  else count64 w

def recount (v : Bitvector) : Bitvector :=
  { v with counter := ((v.data.take v.wsize).map countWord).sum }

def orCount (v b : Bitvector) : Bitvector := recount (v.mapWords fun i w => w ||| b.getWord i)

def andCount (v b : Bitvector) : Bitvector := recount (v.mapWords fun i w => w &&& b.getWord i)

def maskCount (v b : Bitvector) : Bitvector := recount (v.mapWords fun i w => w &&& ~~~b.getWord i)

/-! ## The bits of a word -/

theorem toNat_sub_and (x m : Word) : (x - ((x >>> 1) &&& m)).toNat =
    x.toNat - ((x.toNat >>> 1) &&& m.toNat) := by
  have hle : (x >>> 1) &&& m ≤ x := by
    rw [BitVec.le_def, BitVec.toNat_and, BitVec.toNat_ushiftRight]
    exact Nat.and_le_left.trans (Nat.shiftRight_le _ _)
  rw [BitVec.toNat_sub_of_le hle, BitVec.toNat_and, BitVec.toNat_ushiftRight]

/-- **`count64` counts the bits.** -/
theorem count64_eq (x : Word) : count64 x = bitsBelow 64 x.toNat := by
  have hm1 : m1.toNat = spread 0x55 8 := rfl
  have hm2 : m2.toNat = spread 0x33 8 := rfl
  have hm4 : m4.toNat = spread 0x0f 8 := rfl
  have h01 : h01.toNat = spread 1 8 := rfl
  have hs2 : spread 0x33 8 = 0x3333333333333333 := rfl
  rw [← byteCounts_sum, byteCounts]
  have e1 : (x - ((x >>> 1) &&& m1)).toNat = pairCounts 8 x.toNat := by
    rw [toNat_sub_and, hm1, pairCounts]
  have e2 : ∀ y : Word, ((y &&& m2) + ((y >>> 2) &&& m2)).toNat = nibbleCounts 8 y.toNat := by
    intro y
    have h1 : y.toNat &&& spread 0x33 8 ≤ spread 0x33 8 := Nat.and_le_right
    have h2 : y.toNat >>> 2 &&& spread 0x33 8 ≤ spread 0x33 8 := Nat.and_le_right
    rw [BitVec.toNat_add_of_lt]
    · simp only [BitVec.toNat_and, BitVec.toNat_ushiftRight, hm2, nibbleCounts]
    · simp only [BitVec.toNat_and, BitVec.toNat_ushiftRight, hm2]
      omega
  have e3 : ∀ y : Word, y.toNat ≤ 2 * spread 0x33 8 →
      ((y + (y >>> 4)) &&& m4).toNat = (y.toNat + y.toNat >>> 4) &&& spread 0x0f 8 := by
    intro y hy
    rw [BitVec.toNat_and, BitVec.toNat_add_of_lt, BitVec.toNat_ushiftRight, hm4]
    rw [BitVec.toNat_ushiftRight, Nat.shiftRight_eq_div_pow]
    omega
  have hy : nibbleCounts 8 (pairCounts 8 x.toNat) ≤ 2 * spread 0x33 8 := by
    have h1 : pairCounts 8 x.toNat &&& spread 0x33 8 ≤ spread 0x33 8 := Nat.and_le_right
    have h2 : pairCounts 8 x.toNat >>> 2 &&& spread 0x33 8 ≤ spread 0x33 8 := Nat.and_le_right
    rw [nibbleCounts]
    omega
  rw [← e1, ← e2] at hy
  simp only [count64]
  rw [BitVec.toNat_ushiftRight, BitVec.toNat_mul, e3 _ hy, e2, e1, h01, Nat.shiftRight_eq_div_pow]

theorem countWord_eq (w : Word) : countWord w = (List.range 64).countP (w.getLsbD ·) := by
  have h : bitsBelow 64 w.toNat = (List.range 64).countP (w.getLsbD ·) := rfl
  rw [← h]
  unfold countWord
  split
  · rename_i h0
    rw [h0]
    decide +kernel
  · split
    · rename_i h1
      rcases h1 with h1 | h1 <;> rw [h1] <;> decide +kernel
    · split
      · rename_i h2
        rw [h2]
        decide +kernel
      · exact count64_eq w

/-! ## The bits of a vector -/

/-- The bit at a position. -/
def bit (v : Bitvector) (i : Nat) : Bool := (v.getWord (i / 64)).getLsbD (i % 64)

/-- The words are those for the size. -/
structure Sized (v : Bitvector) : Prop where
  wsize : v.wsize = words v.bsize
  length : v.data.length = v.wsize

/-- Moreover no bit is set beyond the size, and the counter is right. -/
structure Good (v : Bitvector) : Prop extends Sized v where
  beyond : ∀ i, v.bsize ≤ i → v.bit i = false
  counter : v.counter = (List.range v.bsize).countP v.bit

/-- Counting what is set below a size at which nothing is set any more. -/
theorem countP_beyond {p : Nat → Bool} {m n : Nat} (hn : m ≤ n) (h : ∀ i, m ≤ i → p i = false) :
    (List.range n).countP p = (List.range m).countP p := by
  obtain ⟨k, rfl⟩ := Nat.exists_eq_add_of_le hn
  have hnew : ((List.range k).map (m + ·)).countP p = 0 := by
    refine List.countP_eq_zero.2 fun i hi => ?_
    obtain ⟨j, -, rfl⟩ := List.mem_map.1 hi
    rw [h _ (Nat.le_add_right _ _)]
    exact Bool.false_ne_true
  rw [List.range_add, List.countP_append, hnew, Nat.add_zero]

theorem countP_words (ws : List Word) (n : Nat) (hn : n ≤ 64 * ws.length)
    (h : ∀ i, n ≤ i → ((ws.getD (i / 64) 0).getLsbD (i % 64)) = false) :
    (ws.map countWord).sum =
      (List.range n).countP fun i => (ws.getD (i / 64) 0).getLsbD (i % 64) := by
  have hall : (ws.map countWord).sum = (List.range (64 * ws.length)).countP
      fun i => (ws.getD (i / 64) 0).getLsbD (i % 64) := by
    clear hn h
    induction ws with
    | nil => simp
    | cons w ws ih =>
      have hr : List.range (64 * (w :: ws).length) =
          List.range 64 ++ (List.range (64 * ws.length)).map (64 + ·) := by
        rw [← List.range_add, List.length_cons]
        congr 1
        omega
      rw [List.map_cons, List.sum_cons, ih, hr, List.countP_append, List.countP_map, countWord_eq]
      refine congrArg₂ (· + ·) ?_ ?_
      · refine List.countP_congr fun i hi => ?_
        have := List.mem_range.1 hi
        have h1 : i / 64 = 0 := by omega
        have h2 : i % 64 = i := by omega
        rw [h1, h2]
        rfl
      · refine List.countP_congr fun i _ => ?_
        have h1 : (64 + i) / 64 = i / 64 + 1 := by omega
        have h2 : (64 + i) % 64 = i % 64 := by omega
        simp only [Function.comp, h1, h2, List.getD_cons_succ]
  rw [hall]
  exact countP_beyond hn h

theorem getLsbD_zeroWord (i : Nat) : (0 : Word).getLsbD i = false := BitVec.getLsbD_zero

theorem le_words (n : Nat) : n ≤ 64 * words n := by
  unfold words
  split <;> omega

theorem words_eq (n : Nat) : words n = (n + 63) / 64 := by
  unfold words
  split <;> omega

theorem words_mono {m n : Nat} (h : m ≤ n) : words m ≤ words n := by
  rw [words_eq, words_eq]
  exact Nat.div_le_div_right (by omega)

theorem length_resizeData (d : List Word) (n : Nat) : (resizeData d n).length = n := by
  simp only [resizeData, List.length_append, List.length_take, List.length_replicate]
  omega

theorem resizeData_getD {d : List Word} {i n : Nat} (hi : i < d.length) (hn : d.length ≤ n) :
    (resizeData d n).getD i 0 = d.getD i 0 := by
  rw [resizeData, List.take_of_length_le hn, List.getD_append _ _ _ _ hi]

/-- A position below the size lies in a word. -/
theorem Sized.lt {v : Bitvector} (h : v.Sized) {i : Nat} (hi : i < v.bsize) : i / 64 < v.wsize := by
  have := le_words v.bsize
  rw [h.wsize]
  omega

/-- A position in no word is not set. -/
theorem Sized.outside {v : Bitvector} (h : v.Sized) {i : Nat} (hi : ¬ i / 64 < v.wsize) :
    v.bit i = false := by
  rw [bit, getWord, List.getD_eq_default _ _ (by rw [h.length]; omega)]
  exact getLsbD_zeroWord _

/-- Disjoint bits are counted separately. -/
theorem countP_or {p q : Nat → Bool} (h : ∀ i, p i = true → q i = false) (l : List Nat) :
    l.countP (fun i => p i || q i) = l.countP p + l.countP q := by
  induction l with
  | nil => rfl
  | cons i l ih =>
    rw [List.countP_cons, List.countP_cons, List.countP_cons, ih]
    cases hp : p i with
    | true => rw [h i hp]; simp; omega
    | false => cases q i <;> simp; omega

theorem countP_none {p : Nat → Bool} (h : ∀ i, p i = false) (n : Nat) :
    (List.range n).countP p = 0 :=
  List.countP_eq_zero.2 fun i _ => by simp [h i]

/-! ## The loops over the words -/

section
variable {v : Bitvector} (hv : v.Sized) (f : Nat → Word → Word)
include hv

theorem Sized.mapWords : (v.mapWords f).Sized :=
  ⟨hv.wsize, by rw [Bitvector.mapWords, List.length_mapIdx]; exact hv.length⟩

theorem Sized.getWord_mapWords {i : Nat} (hi : i < v.wsize) :
    (v.mapWords f).getWord i = f i (v.getWord i) := by
  have hlen : i < v.data.length := by rw [hv.length]; exact hi
  simp [Bitvector.mapWords, getWord, List.getD_eq_getElem?_getD, hlen, hi]

theorem Sized.bit_mapWords (i : Nat) : (v.mapWords f).bit i =
    if i / 64 < v.wsize then (f (i / 64) (v.getWord (i / 64))).getLsbD (i % 64) else false := by
  split
  · rename_i hi
    rw [bit, hv.getWord_mapWords f hi]
  · rename_i hi
    exact (hv.mapWords f).outside hi

omit f in
/-- A recount is right when nothing is set beyond the size. -/
theorem Sized.recount (hb : ∀ i, v.bsize ≤ i → v.bit i = false) : v.recount.Good := by
  have hsum := countP_words v.data v.bsize (by rw [hv.length, hv.wsize]; exact le_words _) hb
  refine ⟨⟨hv.wsize, hv.length⟩, hb, ?_⟩
  show ((v.data.take v.wsize).map countWord).sum = _
  rw [List.take_of_length_le (by rw [hv.length]), hsum]
  rfl

end

section
variable {v b : Bitvector} (hv : v.Good)
include hv

/-- A count of a bitwise operation that sets nothing beyond the size. -/
theorem Good.wordwise {f : Nat → Word → Word} {g : Bool → Bool → Bool}
    (hf : ∀ i w, ∀ j < 64, (f i w).getLsbD j = g (w.getLsbD j) ((b.getWord i).getLsbD j))
    (hg : ∀ i, ¬ i < v.bsize → g false (b.bit i) = false) :
    (recount (v.mapWords f)).Good ∧ (recount (v.mapWords f)).bsize = v.bsize ∧
      ∀ i, (recount (v.mapWords f)).bit i = g (v.bit i) (b.bit i) := by
  have hbit : ∀ i, (v.mapWords f).bit i = g (v.bit i) (b.bit i) := by
    intro i
    rw [hv.bit_mapWords f i]
    split
    · exact hf _ _ _ (Nat.mod_lt _ (by omega))
    · rename_i hi
      rw [hv.outside hi]
      exact (hg i fun h => hi (hv.lt h)).symm
  refine ⟨(hv.mapWords f).recount fun i hi => ?_, rfl, hbit⟩
  have hi' : v.bsize ≤ i := hi
  rw [hbit, hv.beyond i hi', hg i (by omega)]

theorem Good.orCount (hb : b.Good) (hs : b.bsize = v.bsize) :
    (v.orCount b).Good ∧ (v.orCount b).bsize = v.bsize ∧
      ∀ i, (v.orCount b).bit i = (v.bit i || b.bit i) :=
  hv.wordwise (g := fun x y => x || y) (fun _ _ _ _ => BitVec.getLsbD_or)
    fun i hi => by rw [hb.beyond i (by omega)]; rfl

theorem Good.andCount (b : Bitvector) :
    (v.andCount b).Good ∧ (v.andCount b).bsize = v.bsize ∧
      ∀ i, (v.andCount b).bit i = (v.bit i && b.bit i) :=
  hv.wordwise (g := fun x y => x && y) (fun _ _ _ _ => BitVec.getLsbD_and) fun _ _ => rfl

theorem Good.maskCount (b : Bitvector) :
    (v.maskCount b).Good ∧ (v.maskCount b).bsize = v.bsize ∧
      ∀ i, (v.maskCount b).bit i = (v.bit i && !b.bit i) :=
  hv.wordwise (g := fun x y => x && !y)
    (fun _ _ _ hj => by rw [BitVec.getLsbD_and, BitVec.getLsbD_not]; simp [hj]) fun _ _ => rfl

end

/-! ## Sizes -/

theorem zeros_good {v : Bitvector} (hv : v.Sized) (h0 : v.counter = 0) :
    (v.mapWords fun _ _ => 0).Good ∧ ∀ i, (v.mapWords fun _ _ => 0).bit i = false := by
  have hb : ∀ i, (v.mapWords fun _ _ => 0).bit i = false := by
    intro i
    rw [hv.bit_mapWords]
    split
    · exact getLsbD_zeroWord _
    · rfl
  refine ⟨⟨hv.mapWords _, fun i _ => hb i, ?_⟩, hb⟩
  rw [countP_none hb]
  exact h0

theorem setSize_good (n : Nat) (v : Bitvector := {}) :
    (setSize n v).Good ∧ ∀ i, (setSize n v).bit i = false :=
  zeros_good ⟨rfl, length_resizeData _ _⟩ rfl

theorem Good.clear {v : Bitvector} (hv : v.Good) : v.clear.Good ∧ ∀ i, v.clear.bit i = false :=
  zeros_good ⟨hv.wsize, hv.length⟩ rfl

theorem Good.copy {b : Bitvector} (v : Bitvector) (hb : b.Good) :
    (v.copy b).Good ∧ ∀ i, (v.copy b).bit i = b.bit i := by
  have hs : Sized {
      bsize := b.size
      wsize := b.wordSize
      counter := b.count
      data := resizeData v.data b.wordSize } := ⟨hb.wsize, length_resizeData _ _⟩
  have hbit : ∀ i, (v.copy b).bit i = b.bit i := by
    intro i
    rw [Bitvector.copy, hs.bit_mapWords]
    split
    · rfl
    · rename_i hi
      exact (hb.outside hi).symm
  refine ⟨⟨hs.mapWords _, fun i hi => (hbit i).trans (hb.beyond i hi), ?_⟩, hbit⟩
  rw [List.countP_congr fun i _ => by rw [hbit i]]
  exact hb.counter

theorem Good.resize {v : Bitvector} (hv : v.Good) {n : Nat} (hn : v.bsize ≤ n) :
    (v.resize n).Good ∧ (v.resize n).bsize = n ∧ ∀ i, (v.resize n).bit i = v.bit i := by
  have hw : v.wsize ≤ words n := hv.wsize ▸ words_mono hn
  unfold Bitvector.resize
  split
  · rename_i he
    exact ⟨hv, he.symm, fun _ => rfl⟩
  -- the counter stays right, as the new positions are not set
  have hcount : v.counter = (List.range n).countP v.bit := by
    rw [countP_beyond hn hv.beyond]
    exact hv.counter
  dsimp only
  split
  · have hbit : ∀ i, bit { v with
        bsize := n
        wsize := words n
        data := (resizeData v.data (words n)).mapIdx fun i w =>
          if v.wsize ≤ i ∧ i < words n then 0 else w } i = v.bit i := by
      intro i
      by_cases hi : i / 64 < v.wsize
      · have hd : i / 64 < v.data.length := hv.length ▸ hi
        have hr : i / 64 < (resizeData v.data (words n)).length := by
          rw [length_resizeData]
          omega
        have := resizeData_getD hd (hv.length ▸ hw)
        rw [List.getD_eq_getElem _ _ hr] at this
        simp only [bit, getWord]
        rw [List.getD_eq_getElem _ _ (by rw [List.length_mapIdx]; exact hr), List.getElem_mapIdx,
          if_neg (by omega), this]
      · rw [hv.outside hi]
        simp only [bit, getWord]
        by_cases hr : i / 64 < (resizeData v.data (words n)).length
        · rw [List.getD_eq_getElem _ _ (by rw [List.length_mapIdx]; exact hr), List.getElem_mapIdx,
            if_pos ⟨by omega, by rw [length_resizeData] at hr; exact hr⟩]
          exact getLsbD_zeroWord _
        · rw [List.getD_eq_default _ _ (by rw [List.length_mapIdx]; omega)]
          exact getLsbD_zeroWord _
    refine ⟨⟨⟨rfl, ?_⟩, fun i hi => (hbit i).trans (hv.beyond i (hn.trans hi)), ?_⟩, rfl, hbit⟩
    · rw [List.length_mapIdx, length_resizeData]
    · rw [List.countP_congr fun i _ => by rw [hbit i]]
      exact hcount
  · exact ⟨⟨⟨by simp only; omega, hv.length⟩, fun i hi => hv.beyond i (hn.trans hi), hcount⟩, rfl,
      fun _ => rfl⟩

/-! ## Full vectors and single bits -/

theorem shiftOnes_getLsbD (p : Nat) (d : Word) (i : Nat) (hi : i < 64) :
    (shiftOnes p d).getLsbD i = if i < p then true else d.getLsbD (i - p) := by
  induction p generalizing d with
  | zero => simp [shiftOnes]
  | succ p ih =>
    rw [shiftOnes, ih]
    by_cases h1 : i < p
    · rw [if_pos h1, if_pos (by omega)]
    · rw [if_neg h1, BitVec.getLsbD_or, BitVec.getLsbD_shiftLeft]
      by_cases h2 : i = p
      · subst h2
        simp
      · rw [if_neg (by omega)]
        have h3 : ¬ i - p < 1 := by omega
        have h4 : i - p ≠ 0 := by omega
        have h5 : i - p < 64 := by omega
        simp [h3, h5, Nat.sub_sub, h4]

theorem getLsbD_mask {p j : Nat} (hp : p < 64) : (1#64 <<< p).getLsbD j = decide (j = p) := by
  rw [BitVec.getLsbD_shiftLeft, BitVec.getLsbD_one]
  by_cases h1 : j = p
  · simp [h1, hp]
  · by_cases h2 : j < p
    · simp [h1, h2]
    · have : j - p ≠ 0 := by omega
      simp [h1, this]

/-- The test of one bit. -/
theorem and_mask (v : Bitvector) (pos : Nat) :
    v.getWord (pos / 64) &&& 1#64 <<< (pos % 64) = 0 ↔ v.bit pos = false := by
  have hlt : pos % 64 < 64 := Nat.mod_lt _ (by omega)
  refine ⟨fun h => ?_, fun h => BitVec.eq_of_getLsbD_eq fun j hj => ?_⟩
  · have := congrArg (·.getLsbD (pos % 64)) h
    simpa [BitVec.getLsbD_and, getLsbD_mask hlt, bit] using this
  · rw [BitVec.getLsbD_and, getLsbD_mask hlt]
    by_cases hj : j = pos % 64
    · rw [hj]
      simpa [bit] using h
    · simp [hj]

/-- Writing a word changes the bits of that word. -/
theorem Sized.bit_set {v : Bitvector} (hv : v.Sized) {p : Nat} (hp : p < v.wsize) (w : Word)
    (n : Nat) (i : Nat) : bit { v with data := v.data.set p w, counter := n } i =
      if p = i / 64 then w.getLsbD (i % 64) else v.bit i := by
  simp only [bit, getWord, List.getD_eq_getElem?_getD, List.getElem?_set]
  split
  · rw [if_pos (by rw [hv.length]; exact hp), Option.getD_some]
  · rfl

/-- Counts of two predicates that differ at one position of the list. -/
theorem countP_add_one {p q : Nat → Bool} {l : List Nat} {a : Nat} (hnd : l.Nodup) (ha : a ∈ l)
    (hpa : p a = false) (hqa : q a = true) (h : ∀ i, i ≠ a → q i = p i) :
    l.countP q = l.countP p + 1 := by
  induction l with
  | nil => cases ha
  | cons b l ih =>
    obtain ⟨hb, hnd⟩ := List.nodup_cons.1 hnd
    rw [List.countP_cons, List.countP_cons]
    by_cases he : b = a
    · have hl : l.countP q = l.countP p := List.countP_congr fun i hi => by
        rw [h i fun hia => hb (he ▸ hia ▸ hi)]
      rw [hl, he, hpa, hqa]
      rfl
    · rw [ih hnd ((List.mem_cons.1 ha).resolve_left (Ne.symm he)), h b he]
      omega

section
variable {v : Bitvector} (hv : v.Good)
include hv

theorem Good.setall (h0 : 0 < v.bsize) :
    v.setall.Good ∧ v.setall.bsize = v.bsize ∧ ∀ i, v.setall.bit i = decide (i < v.bsize) := by
  have hw := hv.wsize
  rw [words_eq] at hw
  have hlen : (v.data.mapIdx fun i w =>
      if i < v.wsize then (if i < v.wsize - 1 then 0xFFFFFFFFFFFFFFFF#64 else w) else w).length =
        v.wsize := by
    rw [List.length_mapIdx, hv.length]
  have hones : ∀ j < 64, (0xFFFFFFFFFFFFFFFF#64).getLsbD j = true := by decide
  have hbit : ∀ i, v.setall.bit i = decide (i < v.bsize) := by
    intro i
    have hj : i % 64 < 64 := Nat.mod_lt _ (by omega)
    simp only [Bitvector.setall, Bitvector.mapWords, bit, getWord, List.getD_eq_getElem?_getD]
    rw [List.getElem?_set]
    by_cases hi : v.wsize - 1 = i / 64
    · -- the last word
      rw [if_pos hi, if_pos (by rw [hlen]; omega), Option.getD_some]
      split
      · rw [hones _ hj, eq_comm, decide_eq_true_eq]
        omega
      · rw [shiftOnes_getLsbD _ _ _ hj]
        split
        · rw [eq_comm, decide_eq_true_eq]
          omega
        · rw [getLsbD_zeroWord, eq_comm, decide_eq_false_iff_not]
          omega
    · rw [if_neg hi]
      by_cases hlt : i / 64 < v.wsize
      · have hd : i / 64 < v.data.length := by rw [hv.length]; exact hlt
        rw [List.getElem?_mapIdx, List.getElem?_eq_getElem hd]
        simp only [Option.map_some, Option.getD_some]
        rw [if_pos hlt, if_pos (by omega), hones _ hj, eq_comm, decide_eq_true_eq]
        omega
      · rw [List.getElem?_eq_none (by rw [hlen]; omega), Option.getD_none, getLsbD_zeroWord,
          eq_comm, decide_eq_false_iff_not]
        omega
  refine ⟨⟨⟨hv.wsize, ?_⟩, fun i hi => ?_, ?_⟩, rfl, hbit⟩
  · simp only [Bitvector.setall, Bitvector.mapWords, List.length_set]
    exact hlen
  · have hi' : v.bsize ≤ i := hi
    rw [hbit, decide_eq_false_iff_not]
    omega
  · show v.bsize = _
    rw [List.countP_congr (q := fun i => decide (i < v.bsize)) fun i _ => by rw [hbit i],
      List.countP_eq_length.2, List.length_range]
    · rfl
    · intro i hi
      exact decide_eq_true (List.mem_range.1 hi)

theorem Good.set (pos : Nat) (hp : pos < v.bsize) :
    (v.set pos).Good ∧ (v.set pos).bsize = v.bsize ∧
      ∀ i, (v.set pos).bit i = (v.bit i || decide (i = pos)) := by
  have hlt : pos % 64 < 64 := Nat.mod_lt _ (by omega)
  simp only [Bitvector.set]
  split
  · rename_i h0
    have hfree := (and_mask v pos).1 h0
    have hbit : ∀ i, bit { v with
        data := v.data.set (pos / 64) (v.getWord (pos / 64) ||| 1#64 <<< (pos % 64))
        counter := v.counter + 1 } i = (v.bit i || decide (i = pos)) := by
      intro i
      rw [hv.bit_set (hv.lt hp)]
      split
      · rename_i hi
        rw [BitVec.getLsbD_or, getLsbD_mask hlt, hi]
        exact congrArg (v.bit i || ·) (decide_eq_decide.2 (by omega))
      · rename_i hi
        have hne : i ≠ pos := fun he => hi (by rw [he])
        simp [hne]
    refine ⟨⟨⟨hv.wsize, (List.length_set).trans hv.length⟩, fun i hi => ?_, ?_⟩, rfl, hbit⟩
    · have hi' : v.bsize ≤ i := hi
      have hne : i ≠ pos := by omega
      rw [hbit, hv.beyond i hi']
      simp [hne]
    · rw [countP_add_one (p := v.bit) List.nodup_range (List.mem_range.2 hp) hfree
        (by rw [hbit]; simp) fun i hi => by rw [hbit]; simp [hi]]
      exact congrArg (· + 1) hv.counter
  · rename_i h0
    have hset : v.bit pos = true := by
      rw [← Bool.not_eq_false]
      exact fun h => h0 ((and_mask v pos).2 h)
    refine ⟨hv, rfl, fun i => ?_⟩
    by_cases he : i = pos
    · simp [he, hset]
    · simp [he]

theorem Good.reset (pos : Nat) (hp : pos < v.bsize) :
    (v.reset pos).Good ∧ (v.reset pos).bsize = v.bsize ∧
      ∀ i, (v.reset pos).bit i = (v.bit i && !decide (i = pos)) := by
  have hlt : pos % 64 < 64 := Nat.mod_lt _ (by omega)
  simp only [Bitvector.reset]
  split
  · rename_i h0
    have hset : v.bit pos = true := by
      rw [← Bool.not_eq_false]
      exact fun h => h0 ((and_mask v pos).2 h)
    have hbit : ∀ i, bit { v with
        data := v.data.set (pos / 64) (v.getWord (pos / 64) &&& ~~~(1#64 <<< (pos % 64)))
        counter := v.counter - 1 } i = (v.bit i && !decide (i = pos)) := by
      intro i
      have hj : i % 64 < 64 := Nat.mod_lt _ (by omega)
      rw [hv.bit_set (hv.lt hp)]
      split
      · rename_i hi
        rw [BitVec.getLsbD_and, BitVec.getLsbD_not, getLsbD_mask hlt, hi, decide_eq_true hj,
          Bool.true_and]
        exact congrArg (v.bit i && !·) (decide_eq_decide.2 (by omega))
      · rename_i hi
        have hne : i ≠ pos := fun he => hi (by rw [he])
        simp [hne]
    refine ⟨⟨⟨hv.wsize, (List.length_set).trans hv.length⟩, fun i hi => ?_, ?_⟩, rfl, hbit⟩
    · rw [hbit, hv.beyond i hi]
      rfl
    · have := countP_add_one (q := v.bit) List.nodup_range (List.mem_range.2 hp)
        (p := fun i => v.bit i && !decide (i = pos)) (by simp) hset fun i hi => by simp [hi]
      rw [← hv.counter] at this
      rw [List.countP_congr fun i _ => by rw [hbit i], eq_comm]
      exact (Nat.eq_sub_of_add_eq this.symm)
  · rename_i h0
    have hfree : v.bit pos = false := (and_mask v pos).1 (not_not.1 h0)
    refine ⟨hv, rfl, fun i => ?_⟩
    by_cases he : i = pos
    · simp [he, hfree]
    · simp [he]

/-- A full counter means that every bit is set. -/
theorem Good.full (h : v.count = v.bsize) {i : Nat} (hi : i < v.bsize) : v.bit i = true := by
  have h1 : (List.range v.bsize).countP v.bit = (List.range v.bsize).length := by
    rw [← hv.counter, List.length_range]
    exact h
  exact List.countP_eq_length.1 h1 i (List.mem_range.2 hi)

end

end Bitvector

end Msyn.Bitprocess
