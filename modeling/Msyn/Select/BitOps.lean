import Msyn.Select.Bitvector

/-!
# Scanning and counting

The scan `next_set` of a bit vector and the counts of `bitop.cpp`. The scan looks at the words after
the one that it starts in; it finds the next position that is set (`nextSet_spec`), and a loop over
it visits exactly the positions that are set (`mem_setPositions`).
-/

namespace Msyn.Bitprocess

namespace Bitvector

/-- `while (p2 < WSIZE && pos < bound) { if (d & 1) return pos; pos++; p2++; d = d >> 1; }`, where
`n` is `WSIZE - p2`. -/
def firstOne (bound : Nat) : Nat → Nat → Word → Option Nat
  | 0, _, _ => none
  | n + 1, pos, d =>
    if pos < bound then
      if d &&& 1 ≠ 0 then some pos else firstOne bound n (pos + 1) (d >>> 1)
    else none

/-- The scan of a word, unless it is 0. -/
def scanWord (bound n pos : Nat) (d : Word) : Option Nat :=
  if d ≠ 0 then firstOne bound n pos d else none

/-- The scan from word `p1` on, with `n` words before the last one. Only the last word can end
before its 64 bits do. -/
def scanWords (v : Bitvector) : Nat → Nat → Nat
  | 0, p1 => (scanWord v.bsize 64 (p1 * 64) (v.getWord p1)).getD v.bsize
  | n + 1, p1 =>
    match scanWord ((p1 + 1) * 64) 64 (p1 * 64) (v.getWord p1) with
    | some q => q
    | none => scanWords v n (p1 + 1)

def nextSet (v : Bitvector) (pos : Int) : Nat :=
  let pos := (pos + 1).toNat
  if v.bsize ≤ pos then v.bsize
  else
    let p1 := pos / 64
    let p2 := pos % 64
    let d := v.getWord p1 >>> p2
    match scanWord v.bsize (64 - p2) pos d with
    | some q => q
    | none =>
      if d ≠ 0 ∧ v.bsize ≤ (p1 + 1) * 64 then v.bsize
      else scanWords v (v.wsize - 1 - (p1 + 1)) (p1 + 1)

/-- The positions that `nn = next_set(pos); while (nn < size()) { …; nn = next_set(nn); }` visits. -/
def visited (v : Bitvector) : Nat → Int → List Nat
  | 0, _ => []
  | fuel + 1, pos =>
    let nn := v.nextSet pos
    if nn < v.size then nn :: visited v fuel nn else []

/-- The same from the start, which takes at most `size()` rounds. -/
def setPositions (v : Bitvector) : List Nat := v.visited v.size (-1)

def countAnd (b1 b2 : Bitvector) : Nat :=
  if b1.size ≠ b2.size then 0
  else ((List.range b1.wordSize).map fun i => count64 (b1.getWord i &&& b2.getWord i)).sum

/-- `count_or` with a mask. -/
def countOrMasked (b1 b2 mask : Bitvector) : Nat :=
  if b1.size ≠ b2.size ∨ b2.size ≠ mask.size then 0
  else ((List.range b1.wordSize).map fun i =>
    count64 ((b1.getWord i ||| b2.getWord i) &&& ~~~mask.getWord i)).sum

/-- `count_and` with a mask. -/
def countAndMasked (b1 b2 mask : Bitvector) : Nat :=
  if b1.size ≠ b2.size ∨ b2.size ≠ mask.size then 0
  else ((List.range b1.wordSize).map fun i =>
    count64 (b1.getWord i &&& b2.getWord i &&& ~~~mask.getWord i)).sum

/-! ## The scan -/

/-- `r` is the first position from `pos` on that is set, or the size if there is none. -/
structure IsNext (v : Bitvector) (pos r : Nat) : Prop where
  le : r ≤ v.bsize
  found : r < v.bsize → pos ≤ r ∧ v.bit r = true
  before : ∀ i, pos ≤ i → i < r → v.bit i = false

theorem and_one_eq_zero (d : Word) : d &&& 1 = 0 ↔ d.getLsbD 0 = false := by
  constructor
  · intro h
    have := congrArg (·.getLsbD 0) h
    simpa using this
  · intro h
    refine BitVec.eq_of_getLsbD_eq fun i hi => ?_
    cases i with
    | zero =>
      rw [BitVec.getLsbD_and, h]
      rfl
    | succ i => simp [BitVec.getLsbD_one]

section
variable {v : Bitvector}

/-- The scan of a word whose bits are those of the vector from `pos` on. -/
theorem firstOne_spec (bound : Nat) {n pos : Nat} {d : Word}
    (hd : ∀ j < n, d.getLsbD j = v.bit (pos + j)) :
    (∀ q, firstOne bound n pos d = some q → pos ≤ q ∧ q < pos + n ∧ q < bound ∧ v.bit q = true ∧
      ∀ i, pos ≤ i → i < q → v.bit i = false) ∧
    (firstOne bound n pos d = none → ∀ i, pos ≤ i → i < pos + n → i < bound → v.bit i = false) := by
  induction n generalizing pos d with
  | zero => exact ⟨fun q h => (by cases h), fun _ i h1 h2 => by omega⟩
  | succ n ih =>
    have h0 : d.getLsbD 0 = v.bit pos := hd 0 (Nat.zero_lt_succ n)
    unfold firstOne
    split
    · rename_i hb
      split
      · rename_i hone
        refine ⟨fun q h => ?_, fun h => by cases h⟩
        cases h
        refine ⟨le_rfl, by omega, hb, ?_, fun i h1 h2 => by omega⟩
        rw [← h0, ← Bool.not_eq_false]
        exact fun h => hone ((and_one_eq_zero d).2 h)
      · rename_i hone
        have hfree : v.bit pos = false := h0 ▸ (and_one_eq_zero d).1 (not_not.1 hone)
        obtain ⟨ih1, ih2⟩ := @ih (pos + 1) (d >>> 1) fun j hj => by
          rw [BitVec.getLsbD_ushiftRight, hd (1 + j) (by omega), Nat.add_assoc]
        refine ⟨fun q h => ?_, fun h i h1 h2 h3 => ?_⟩
        · obtain ⟨a1, a2, a3, a4, a5⟩ := ih1 q h
          refine ⟨by omega, by omega, a3, a4, fun i h1 h2 => ?_⟩
          by_cases he : i = pos
          · rw [he]
            exact hfree
          · exact a5 i (by omega) h2
        · by_cases he : i = pos
          · rw [he]
            exact hfree
          · exact ih2 h i (by omega) (by omega) h3
    · exact ⟨fun q h => (by cases h), fun _ i h1 h2 h3 => by omega⟩

theorem scanWord_spec (bound : Nat) {n pos : Nat} {d : Word}
    (hd : ∀ j < n, d.getLsbD j = v.bit (pos + j)) :
    (∀ q, scanWord bound n pos d = some q → pos ≤ q ∧ q < pos + n ∧ q < bound ∧ v.bit q = true ∧
      ∀ i, pos ≤ i → i < q → v.bit i = false) ∧
    (scanWord bound n pos d = none → ∀ i, pos ≤ i → i < pos + n → i < bound → v.bit i = false) := by
  unfold scanWord
  split
  · exact firstOne_spec bound hd
  · rename_i h0
    refine ⟨fun q h => (by cases h), fun _ i h1 h2 _ => ?_⟩
    have := hd (i - pos) (by omega)
    rw [not_not.1 h0, getLsbD_zeroWord, Nat.add_sub_cancel' h1] at this
    exact this.symm

/-- Positions before that are not set do not matter. -/
theorem IsNext.extend {pos pos' r : Nat} (h : v.IsNext pos' r) (hle : pos ≤ pos')
    (hfree : ∀ i, pos ≤ i → i < pos' → v.bit i = false) : v.IsNext pos r where
  le := h.le
  found hr := ⟨hle.trans (h.found hr).1, (h.found hr).2⟩
  before i h1 h2 := by
    by_cases hi : i < pos'
    · exact hfree i h1 hi
    · exact h.before i (by omega) h2

/-- What a scan found. -/
theorem Good.isNext (hv : v.Good) {pos q : Nat} (h1 : pos ≤ q) (h2 : v.bit q = true)
    (h3 : ∀ i, pos ≤ i → i < q → v.bit i = false) : v.IsNext pos q where
  le := by
    by_contra hq
    have := hv.beyond q (by omega)
    rw [h2] at this
    cases this
  found _ := ⟨h1, h2⟩
  before := h3

theorem Good.isNext_size {pos : Nat} (h : ∀ i, pos ≤ i → i < v.bsize → v.bit i = false) :
    v.IsNext pos v.bsize where
  le := le_rfl
  found hr := absurd hr (Nat.lt_irrefl _)
  before := h

theorem word_bit (v : Bitvector) (p1 : Nat) {j : Nat} (hj : j < 64) :
    (v.getWord p1).getLsbD j = v.bit (p1 * 64 + j) := by
  have h1 : (p1 * 64 + j) / 64 = p1 := by omega
  have h2 : (p1 * 64 + j) % 64 = j := by omega
  rw [bit, h1, h2]

theorem scanWords_spec (hv : v.Good) (n p1 : Nat) (hn : v.wsize ≤ p1 + n + 1) :
    v.IsNext (p1 * 64) (scanWords v n p1) := by
  induction n generalizing p1 with
  | zero =>
    obtain ⟨h1, h2⟩ := scanWord_spec v.bsize fun j hj => word_bit v p1 hj
    unfold scanWords
    cases hs : scanWord v.bsize 64 (p1 * 64) (v.getWord p1) with
    | some q =>
      obtain ⟨a1, -, -, a4, a5⟩ := h1 q hs
      exact hv.isNext a1 a4 a5
    | none =>
      have hle := le_words v.bsize
      rw [← hv.wsize] at hle
      exact Good.isNext_size fun i h3 h4 => h2 hs i h3 (by omega) h4
  | succ n ih =>
    obtain ⟨h1, h2⟩ := scanWord_spec ((p1 + 1) * 64) fun j hj => word_bit v p1 hj
    unfold scanWords
    cases hs : scanWord ((p1 + 1) * 64) 64 (p1 * 64) (v.getWord p1) with
    | some q =>
      obtain ⟨a1, -, -, a4, a5⟩ := h1 q hs
      exact hv.isNext a1 a4 a5
    | none =>
      exact (ih (p1 + 1) (by omega)).extend (by omega) fun i h3 h4 =>
        h2 hs i h3 (by omega) h4

/-- **`next_set`** finds the next position that is set. -/
theorem nextSet_spec (hv : v.Good) (pos : Int) : v.IsNext (pos + 1).toNat (v.nextSet pos) := by
  unfold nextSet
  generalize (pos + 1).toNat = pos
  simp only
  split
  · rename_i hle
    exact ⟨le_rfl, fun h => absurd h (Nat.lt_irrefl _), fun i h1 h2 => by omega⟩
  · rename_i hlt
    have hword : ∀ j < 64 - pos % 64,
        (v.getWord (pos / 64) >>> (pos % 64)).getLsbD j = v.bit (pos + j) := by
      intro j hj
      rw [BitVec.getLsbD_ushiftRight, word_bit v _ (by omega)]
      congr 1
      omega
    obtain ⟨h1, h2⟩ := scanWord_spec v.bsize hword
    split
    · rename_i q hs
      obtain ⟨a1, -, -, a4, a5⟩ := h1 q hs
      exact hv.isNext a1 a4 a5
    · rename_i hs
      split
      · rename_i hend
        exact Good.isNext_size fun i h3 h4 => h2 hs i h3 (by omega) h4
      · refine (scanWords_spec hv _ _ (by omega)).extend (by omega) fun i h3 h4 => ?_
        by_cases hi : i < v.bsize
        · exact h2 hs i h3 (by omega) hi
        · exact hv.beyond i (by omega)

theorem mem_visited (hv : v.Good) {fuel : Nat} {pos : Int} (hf : v.bsize ≤ (pos + 1).toNat + fuel)
    (nn : Nat) : nn ∈ v.visited fuel pos ↔
      (pos + 1).toNat ≤ nn ∧ nn < v.bsize ∧ v.bit nn = true := by
  induction fuel generalizing pos with
  | zero =>
    simp only [visited, List.not_mem_nil, false_iff]
    omega
  | succ fuel ih =>
    have hnext := nextSet_spec hv pos
    unfold visited
    simp only
    split
    · rename_i hlt
      obtain ⟨h1, h2⟩ := hnext.found hlt
      have hcast : ((v.nextSet pos : Int) + 1).toNat = v.nextSet pos + 1 := by omega
      rw [List.mem_cons, ih (by omega), hcast]
      constructor
      · intro h
        rcases h with rfl | ⟨h3, h4, h5⟩
        · exact ⟨h1, hlt, h2⟩
        · exact ⟨by omega, h4, h5⟩
      · intro ⟨h3, h4, h5⟩
        by_cases he : nn = v.nextSet pos
        · exact .inl he
        · refine .inr ⟨?_, h4, h5⟩
          by_contra hle
          rw [hnext.before nn h3 (by omega)] at h5
          cases h5
    · rename_i hge
      have hge : ¬ v.nextSet pos < v.bsize := hge
      simp only [List.not_mem_nil, false_iff]
      intro ⟨h3, h4, h5⟩
      rw [hnext.before nn h3 (by omega)] at h5
      cases h5

/-- **The loop over `next_set`** visits the positions that are set. -/
theorem mem_setPositions (hv : v.Good) (nn : Nat) :
    nn ∈ v.setPositions ↔ nn < v.bsize ∧ v.bit nn = true := by
  have h := @mem_visited v hv v.size (-1) (Nat.le_add_left _ _) nn
  simpa [setPositions] using h

end

/-! ## Counts -/

theorem count64_eq_countWord (w : Word) : count64 w = countWord w := by
  rw [count64_eq, countWord_eq]
  rfl

/-- The counts of the words of a combination are those of a recount. -/
theorem Good.sum_count64 {v : Bitvector} (hv : v.Good) (b : Bitvector) (f : Word → Word → Word) :
    ((List.range v.wordSize).map fun i => count64 (f (v.getWord i) (b.getWord i))).sum =
      (recount (v.mapWords fun i w => f w (b.getWord i))).count := by
  have hlen : (v.mapWords fun i w => f w (b.getWord i)).data.length = v.wsize := by
    rw [mapWords, List.length_mapIdx, hv.length]
  show _ = (((v.mapWords fun i w => f w (b.getWord i)).data.take v.wsize).map countWord).sum
  rw [List.take_of_length_le hlen.le]
  congr 1
  refine List.ext_getElem (by rw [List.length_map, List.length_map, List.length_range, hlen]; rfl)
    fun k hk hk' => ?_
  have hkw : k < v.wsize := by simpa [wordSize] using hk
  have hkd : k < v.data.length := hv.length ▸ hkw
  simp [mapWords, getWord, count64_eq_countWord, hkw, hkd, List.getD_eq_getElem?_getD]

/-- `count_and` is what `and_count` reports. -/
theorem Good.countAnd_eq_andCount {b1 b2 : Bitvector} (h1 : b1.Good) (hs : b1.bsize = b2.bsize) :
    countAnd b1 b2 = (b1.andCount b2).count := by
  have hsize : ¬b1.size ≠ b2.size := not_not.2 hs
  rw [countAnd, if_neg hsize, h1.sum_count64 b2 (· &&& ·)]
  rfl

/-- The common count of vectors of one size. -/
theorem countAnd_eq {b1 b2 : Bitvector} (h1 : b1.Good) (hs : b1.bsize = b2.bsize) :
    countAnd b1 b2 = (List.range b1.bsize).countP fun i => b1.bit i && b2.bit i := by
  obtain ⟨g1, g2, g3⟩ := h1.andCount b2
  rw [h1.countAnd_eq_andCount hs]
  show (b1.andCount b2).counter = _
  rw [g1.counter, g2]
  exact List.countP_congr fun i _ => by rw [g3]

theorem count_pos {v : Bitvector} (hv : v.Good) {i : Nat} (hi : v.bit i = true) : 0 < v.count := by
  have hlt : i < v.bsize := by
    by_contra hge
    rw [hv.beyond i (by omega)] at hi
    cases hi
  rw [Bitvector.count, hv.counter]
  exact List.countP_pos_iff.2 ⟨i, List.mem_range.2 hlt, hi⟩

/-- A common count that is the whole count of one vector is one of a subset. -/
theorem subset_of_countAnd {b1 b2 : Bitvector} (h1 : b1.Good) (h : countAnd b1 b2 = b1.count) {i : Nat}
    (hi : b1.bit i = true) : b2.bit i = true := by
  have hs : b1.bsize = b2.bsize := by
    by_contra hne
    have hpos := count_pos h1 hi
    have hsize : b1.size ≠ b2.size := hne
    rw [countAnd, if_pos hsize] at h
    omega
  have hlt : i < b1.bsize := by
    by_contra hge
    rw [h1.beyond i (by omega)] at hi
    cases hi
  rw [countAnd_eq h1 hs, Bitvector.count, h1.counter] at h
  by_contra hb
  rw [Bool.not_eq_true] at hb
  have hone := countP_add_one (p := fun j => b1.bit j && !decide (j = i)) (q := b1.bit)
    List.nodup_range (List.mem_range.2 hlt) (by simp) hi fun j hj => by simp [hj]
  have hle : (List.range b1.bsize).countP (fun j => b1.bit j && b2.bit j) ≤
      (List.range b1.bsize).countP fun j => b1.bit j && !decide (j = i) := by
    refine List.countP_mono_left fun j _ hj => ?_
    rw [Bool.and_eq_true] at hj
    rw [hj.1, Bool.true_and]
    by_cases he : j = i
    · rw [he, hb] at hj
      cases hj.2
    · simp [he]
  omega

/-- Conversely, the common count with a vector that has all the bits. -/
theorem countAnd_of_subset {b1 b2 : Bitvector} (h1 : b1.Good) (hs : b1.bsize = b2.bsize)
    (hsub : ∀ i, b1.bit i = true → b2.bit i = true) : countAnd b1 b2 = b1.count := by
  rw [countAnd_eq h1 hs, Bitvector.count, h1.counter]
  refine List.countP_congr fun i _ => ?_
  rw [Bool.and_eq_true]
  exact and_iff_left_of_imp (hsub i)

theorem count_le_of_subset {b1 b2 : Bitvector} (h1 : b1.Good) (h2 : b2.Good)
    (hs : b1.bsize = b2.bsize) (hsub : ∀ i, b1.bit i = true → b2.bit i = true) :
    b1.count ≤ b2.count := by
  rw [Bitvector.count, Bitvector.count, h1.counter, h2.counter, hs]
  exact List.countP_mono_left fun i _ => hsub i

end Bitvector

end Msyn.Bitprocess
