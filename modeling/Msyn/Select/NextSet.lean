import Msyn.Lib.Loop
import Msyn.Lib.MachineInt
import Msyn.Select.BitOps

/-!
# The reads of `next_set`

`nextSetFrom` is `next_set` with the words that it reads behind a parameter and with the arithmetic
of `int` and `unsigned int`. Where the scan starts in the last word and finds nothing there, it
reads one word more (`nextSet_inside_iff`); whatever that delivers, the result is the next position
that is set, and the loop over the set positions visits them in order (`nextSet_enumerates`).
-/

namespace Msyn.Bitprocess.Bitvector

/-- The scan of a word up to position `bound`, where `n` is `WSIZE - p2`; the words in the middle
have no bound. An error is the `return` of a position, else the position is the one after the
loop. -/
def scanBits (bound : Option Nat) : Nat → Int → Word → Except Int Int
  | 0, pos, _ => .ok pos
  | n + 1, pos, d =>
    if bound.all (toUInt pos < ·) then
      if d &&& 1 ≠ 0 then .error pos else scanBits bound n (toInt (pos + 1)) (d >>> 1)
    else .ok pos

/-- `if (d != 0ULL) { … }`. -/
def scanNonzero (bound : Option Nat) (n : Nat) (pos : Int) (d : Word) : Except Int Int :=
  if d ≠ 0 then scanBits bound n pos d else .ok pos

/-- The scan from word `p1` on, with `n` rounds of `while (p1 < wsize - 1)` left. -/
def scanFrom (read : Nat → Option Word) (bsize : Nat) : Nat → Nat → Option Int
  | 0, p1 =>
    (read p1).map fun d =>
      match scanNonzero (some bsize) 64 (toInt (p1 * 64)) d with
      | .error q => q
      | .ok _ => toInt bsize
  | n + 1, p1 =>
    (read p1).bind fun d =>
      match scanNonzero none 64 (toInt (p1 * 64)) d with
      | .error q => some q
      | .ok _ => scanFrom read bsize n (p1 + 1)

/-- `next_set`, where `data[p1]` is `read p1`; `none` if a read fails. -/
def nextSetFrom (read : Nat → Option Word) (bsize wsize : Nat) (pos : Int) : Option Int :=
  let pos := toInt (pos + 1)
  if bsize ≤ toUInt pos then some (toInt bsize)
  else
    let p1 := (pos / 64).toNat
    let p2 := (pos % 64).toNat
    (read p1).bind fun w =>
      let d := w >>> p2
      match scanNonzero (some bsize) (64 - p2) pos d with
      | .error q => some q
      | .ok pos =>
        if d ≠ 0 ∧ bsize ≤ toUInt pos then some (toInt bsize)
        else scanFrom read bsize (wsize - 1 - (p1 + 1)) (p1 + 1)

/-- The words, and whatever there is behind them. -/
def readAny (v : Bitvector) (stray : Nat → Word) (p1 : Nat) : Option Word :=
  some (if p1 < v.wsize then v.getWord p1 else stray p1)

theorem readAny_inside (v : Bitvector) (stray : Nat → Word) (p1 : Nat) (h : p1 < v.wsize) :
    v.readAny stray p1 = some (v.getWord p1) := by
  rw [readAny, if_pos h]

/-- The words, where a read behind them fails. -/
def readInside (v : Bitvector) (p1 : Nat) : Option Word :=
  if p1 < v.wsize then some (v.getWord p1) else none

theorem readInside_inside (v : Bitvector) (p1 : Nat) (h : p1 < v.wsize) :
    v.readInside p1 = some (v.getWord p1) := by
  rw [readInside, if_pos h]

/-- `next_set` on a vector in memory with the words `stray` behind it. -/
def nextSetStray (v : Bitvector) (stray : Nat → Word) (pos : Int) : Option Int :=
  nextSetFrom (v.readAny stray) v.bsize v.wsize pos

/-- `next_set`, where a read outside of the vector fails. -/
def nextSetInside (v : Bitvector) (pos : Int) : Option Int :=
  nextSetFrom v.readInside v.bsize v.wsize pos

/-- One round of `nn = next_set(-1); while (nn < size()) { …; nn = next_set(nn); }`, with the
positions that were visited. -/
def visitStep (v : Bitvector) (stray : Nat → Word) (s : Option Int × List Int) :
    (Option Int × List Int) ⊕ Option (List Int) :=
  match s.1 with
  | none => .inr none
  | some nn =>
    if nn < toInt v.bsize then .inl (v.nextSetStray stray nn, s.2 ++ [nn]) else .inr (some s.2)

/-- The loop, for at most `fuel` rounds. -/
def visitLoop (v : Bitvector) (stray : Nat → Word) (fuel : Nat) : Option (List Int) :=
  (loop (v.visitStep stray) fuel (v.nextSetStray stray (-1), [])).join

/-! ## The scan of a word -/

theorem scanBits_some (bound : Nat) {n p : Nat} (d : Word) (hp : p + n < 2 ^ 32)
    (hb : bound < 2 ^ 31) :
    (∀ q, firstOne bound n p d = some q → scanBits (some bound) n (toInt p) d = .error q) ∧
    (firstOne bound n p d = none → ∃ p' : Nat,
      scanBits (some bound) n (toInt p) d = .ok (toInt p') ∧ p' ≤ p + n ∧ (p' = p + n ∨ bound ≤ p')) := by
  induction n generalizing p d with
  | zero => exact ⟨fun q h => (by cases h), fun _ => ⟨p, rfl, le_rfl, .inl rfl⟩⟩
  | succ n ih =>
    have hlt : toUInt (toInt p) = p := by rw [toUInt_toInt, toUInt_natCast (by omega)]
    unfold firstOne scanBits
    simp only [Option.all_some, hlt, decide_eq_true_eq]
    split
    · rename_i hpb
      split
      · refine ⟨fun q h => ?_, fun h => by cases h⟩
        cases h
        rw [toInt_natCast (by omega)]
      · have hstep : toInt (toInt p + 1) = toInt ((p + 1 : Nat) : Int) := by
          rw [toInt_add_toInt]
          rfl
        obtain ⟨h1, h2⟩ := @ih (p + 1) (d >>> 1) (by omega)
        rw [hstep]
        refine ⟨h1, fun h => ?_⟩
        obtain ⟨p', h3, h4, h5⟩ := h2 h
        exact ⟨p', h3, by omega, by omega⟩
    · exact ⟨fun q h => (by cases h), fun _ => ⟨p, rfl, by omega, by omega⟩⟩

/-- In the middle every bit of a word is looked at. -/
theorem scanBits_none {n p : Nat} (d : Word) (hp : p + n < 2 ^ 31) :
    scanBits none n (toInt p) d =
      ((firstOne (p + n) n p d).map fun q => Except.error (q : Int)).getD
        (.ok (toInt ((p + n : Nat) : Int))) := by
  induction n generalizing p d with
  | zero => rfl
  | succ n ih =>
    have hpb : p < p + (n + 1) := by omega
    unfold firstOne scanBits
    simp only [Option.all_none, if_true, if_pos hpb]
    split
    · rw [toInt_natCast (by omega)]
      rfl
    · have hstep : toInt (toInt p + 1) = toInt ((p + 1 : Nat) : Int) := by
        rw [toInt_add_toInt]
        rfl
      have hend : p + (n + 1) = p + 1 + n := by omega
      rw [hstep, ih _ (by omega), hend]

/-- The scan of a word in the middle. -/
theorem scanNonzero_none {p : Nat} (d : Word) (hp : p + 64 < 2 ^ 31) :
    (∀ q, scanWord (p + 64) 64 p d = some q → scanNonzero none 64 (toInt p) d = .error q) ∧
    (scanWord (p + 64) 64 p d = none → ∃ p', scanNonzero none 64 (toInt p) d = .ok p') := by
  unfold scanWord scanNonzero
  split
  · rw [scanBits_none d hp]
    cases firstOne (p + 64) 64 p d with
    | none => exact ⟨fun q h => (by cases h), fun _ => ⟨_, rfl⟩⟩
    | some q =>
      refine ⟨fun q' h => ?_, fun h => by cases h⟩
      cases h
      rfl
  · exact ⟨fun q h => (by cases h), fun _ => ⟨_, rfl⟩⟩

/-- The scan of a word that may be the last one. -/
theorem scanNonzero_some (bound : Nat) {n p : Nat} (d : Word) (hp : p + n < 2 ^ 32)
    (hb : bound < 2 ^ 31) :
    (∀ q, scanWord bound n p d = some q → scanNonzero (some bound) n (toInt p) d = .error q) ∧
    (scanWord bound n p d = none → ∃ p' : Nat,
      scanNonzero (some bound) n (toInt p) d = .ok (toInt p') ∧
        p' ≤ p + n ∧ (d ≠ 0 → p' = p + n ∨ bound ≤ p')) := by
  obtain ⟨h1, h2⟩ := scanBits_some bound d hp hb
  unfold scanWord scanNonzero
  split
  · refine ⟨h1, fun h => ?_⟩
    obtain ⟨p', h3, h4, h5⟩ := h2 h
    exact ⟨p', h3, h4, fun _ => h5⟩
  · rename_i h0
    exact ⟨fun q h => (by cases h), fun _ => ⟨p, rfl, by omega, fun hd => absurd hd h0⟩⟩

/-! ## The scan of the words -/

/-- The search after `pos` starts in the last word, and nothing is set there after `pos`. -/
def LastExhausted (v : Bitvector) (pos : Int) : Prop :=
  pos + 1 < v.bsize ∧ (v.wsize : Int) - 1 ≤ (pos + 1) / 64 ∧ ∀ i : Nat, pos < i → v.bit i = false

section
variable {v : Bitvector} (hv : v.Good) (hs : v.bsize < 2 ^ 31) {read : Nat → Option Word}
  (hr : ∀ p1 < v.wsize, read p1 = some (v.getWord p1))
include hv hs

omit hs in
theorem Good.wsize_le : v.bsize ≤ 64 * v.wsize ∧ 64 * v.wsize < v.bsize + 64 := by
  rw [hv.wsize, words_eq]
  omega

/-- A word behind the last one does not matter. -/
theorem scanFrom_stray : scanFrom read v.bsize 0 v.wsize =
    (read v.wsize).map fun _ => (v.bsize : Int) := by
  obtain ⟨h1, h2⟩ := hv.wsize_le
  unfold scanFrom
  cases read v.wsize with
  | none => rfl
  | some d =>
    have hcast : ((v.wsize : Int) * 64) = ((v.wsize * 64 : Nat) : Int) := by push_cast; rfl
    have hnone : scanWord v.bsize 64 (v.wsize * 64) d = none := by
      have hge : ¬ v.wsize * 64 < v.bsize := by omega
      unfold scanWord firstOne
      rw [if_neg hge, ite_self]
    obtain ⟨p', h3, -⟩ := (scanNonzero_some v.bsize d (by omega) hs).2 hnone
    rw [hcast, Option.map_some, h3, Option.map_some, toInt_natCast hs]

include hr

theorem scanFrom_eq (n p1 : Nat) (hn : p1 + n + 1 = v.wsize) :
    scanFrom read v.bsize n p1 = some (scanWords v n p1 : Int) := by
  obtain ⟨hw1, hw2⟩ := hv.wsize_le
  induction n generalizing p1 with
  | zero =>
    have hcast : ((p1 : Int) * 64) = ((p1 * 64 : Nat) : Int) := by push_cast; rfl
    obtain ⟨h1, h2⟩ := scanNonzero_some (n := 64) (p := p1 * 64) v.bsize (v.getWord p1) (by omega) hs
    unfold scanFrom scanWords
    rw [hr p1 (by omega), Option.map_some, hcast]
    cases hscan : scanWord v.bsize 64 (p1 * 64) (v.getWord p1) with
    | some q => rw [h1 q hscan, Option.getD_some]
    | none =>
      obtain ⟨p', h3, -⟩ := h2 hscan
      rw [h3, Option.getD_none, toInt_natCast hs]
  | succ n ih =>
    have hcast : ((p1 : Int) * 64) = ((p1 * 64 : Nat) : Int) := by push_cast; rfl
    have hend : (p1 + 1) * 64 = p1 * 64 + 64 := by omega
    obtain ⟨h1, h2⟩ := scanNonzero_none (p := p1 * 64) (v.getWord p1) (by omega)
    unfold scanFrom scanWords
    rw [hr p1 (by omega), Option.bind_some, hcast, hend]
    cases hscan : scanWord (p1 * 64 + 64) 64 (p1 * 64) (v.getWord p1) with
    | some q => rw [h1 q hscan]
    | none =>
      obtain ⟨p', h3⟩ := h2 hscan
      rw [h3]
      exact ih (p1 + 1) (by omega)

/-- The scan is `nextSet`, except that it reads the word behind the last one if the search starts
in the last one and nothing is set there. -/
theorem nextSetFrom_eq {pos : Int} (h1 : -1 ≤ pos) (h2 : pos < 2 ^ 31) :
    (¬ v.LastExhausted pos → nextSetFrom read v.bsize v.wsize pos = some (v.nextSet pos : Int)) ∧
    (v.LastExhausted pos → nextSetFrom read v.bsize v.wsize pos =
      (read v.wsize).map fun _ => (v.bsize : Int)) := by
  obtain ⟨hw1, hw2⟩ := hv.wsize_le
  obtain ⟨p, hp⟩ : ∃ p : Nat, pos + 1 = p := ⟨(pos + 1).toNat, by omega⟩
  have hu : toUInt (toInt p) = p := by rw [toUInt_toInt, toUInt_natCast (by omega)]
  unfold nextSetFrom nextSet LastExhausted
  simp only [hp, hu, Int.toNat_natCast]
  by_cases hge : v.bsize ≤ p
  · rw [if_pos hge, if_pos hge, toInt_natCast hs]
    exact ⟨fun _ => rfl, fun h => by omega⟩
  have hlt : p < 2 ^ 31 := by omega
  rw [if_neg hge, if_neg hge]
  -- the first word
  have hdiv : ((toInt (p : Int)) / 64).toNat = p / 64 := by rw [toInt_natCast hlt]; omega
  have hmod : ((toInt (p : Int)) % 64).toNat = p % 64 := by rw [toInt_natCast hlt]; omega
  rw [hdiv, hmod, hr (p / 64) (by omega), Option.bind_some]
  have hword : ∀ j < 64 - p % 64,
      (v.getWord (p / 64) >>> (p % 64)).getLsbD j = v.bit (p + j) := by
    intro j hj
    have hpos : p / 64 * 64 + (p % 64 + j) = p + j := by omega
    rw [BitVec.getLsbD_ushiftRight, word_bit v _ (by omega), hpos]
  obtain ⟨hf1, hf2⟩ := scanWord_spec v.bsize hword
  have hzero : (∀ i : Nat, pos < i → v.bit i = false) → v.getWord (p / 64) >>> (p % 64) = 0 := by
    intro hex
    refine BitVec.eq_of_getLsbD_eq fun j _ => ?_
    by_cases hj : j < 64 - p % 64
    · rw [hword j hj, hex (p + j) (by omega), getLsbD_zeroWord]
    · rw [BitVec.getLsbD_ushiftRight, getLsbD_zeroWord, BitVec.getLsbD_of_ge _ _ (by omega)]
  generalize v.getWord (p / 64) >>> (p % 64) = d at hf1 hf2 hzero ⊢
  obtain ⟨hn1, hn2⟩ := scanNonzero_some v.bsize d (show p + (64 - p % 64) < 2 ^ 32 by omega) hs
  cases hscan : scanWord v.bsize (64 - p % 64) p d with
  | some q =>
    obtain ⟨a1, -, -, a4, -⟩ := hf1 q hscan
    rw [hn1 q hscan]
    refine ⟨fun _ => rfl, fun h => ?_⟩
    rw [h.2.2 q (by omega)] at a4
    cases a4
  | none =>
    obtain ⟨p', h3, h4, h5⟩ := hn2 hscan
    have hfree := hf2 hscan
    have hu' : toUInt (toInt p') = p' := by rw [toUInt_toInt, toUInt_natCast (by omega)]
    rw [h3]
    simp only [hu']
    have hend : d ≠ 0 ∧ v.bsize ≤ p' ↔ d ≠ 0 ∧ v.bsize ≤ (p / 64 + 1) * 64 := by
      refine and_congr_right fun hd => ?_
      have := h5 hd
      omega
    rw [if_congr hend rfl rfl]
    by_cases hlast : p / 64 + 1 < v.wsize
    · -- more words follow
      have hmore : ¬(d ≠ 0 ∧ v.bsize ≤ (p / 64 + 1) * 64) := by omega
      rw [if_neg hmore, if_neg hmore, scanFrom_eq hv hs hr _ _ (by omega)]
      exact ⟨fun _ => rfl, fun h => by omega⟩
    · have hnext : p / 64 + 1 = v.wsize := by omega
      have hex : ∀ i : Nat, pos < i → v.bit i = false := by
        intro i hi
        by_cases hib : i < v.bsize
        · exact hfree i (by omega) (by omega) hib
        · exact hv.beyond i (by omega)
      refine ⟨fun h => absurd ⟨by omega, by omega, hex⟩ h, fun _ => ?_⟩
      have hmore : ¬(d ≠ 0 ∧ v.bsize ≤ (p / 64 + 1) * 64) := fun h => h.1 (hzero hex)
      have hlast0 : v.wsize - 1 - (p / 64 + 1) = 0 := by omega
      rw [if_neg hmore, hlast0, hnext]
      exact scanFrom_stray hv hs

end

/-! ## The results -/

section
variable {v : Bitvector} (hv : v.Good) (hs : v.bsize < 2 ^ 31)
include hv hs

theorem nextSetStray_eq (stray : Nat → Word) {pos : Int} (h1 : -1 ≤ pos) (h2 : pos < 2 ^ 31) :
    v.nextSetStray stray pos = some (v.nextSet pos : Int) := by
  obtain ⟨h3, h4⟩ := nextSetFrom_eq hv hs (v.readAny_inside stray) h1 h2
  by_cases hex : v.LastExhausted pos
  · -- then the result is the size
    have hn := nextSet_spec hv pos
    have hsize : v.nextSet pos = v.bsize := by
      by_contra hne
      obtain ⟨h5, h6⟩ := hn.found (lt_of_le_of_ne hn.le hne)
      rw [hex.2.2 _ (by omega)] at h6
      cases h6
    rw [nextSetStray, h4 hex, hsize]
    rfl
  · exact h3 hex

/-- **`next_set` stays in the vector** unless it starts in the last word and finds nothing there. -/
theorem nextSet_inside_iff {pos : Int} (h1 : -1 ≤ pos) (h2 : pos < 2 ^ 31) :
    (v.nextSetInside pos).isSome ↔ ¬ v.LastExhausted pos := by
  obtain ⟨h3, h4⟩ := nextSetFrom_eq hv hs v.readInside_inside h1 h2
  constructor
  · intro hsome hex
    have hout : v.readInside v.wsize = none := by rw [readInside, if_neg (Nat.lt_irrefl _)]
    rw [nextSetInside, h4 hex, hout] at hsome
    cases hsome
  · intro hex
    rw [nextSetInside, h3 hex]
    rfl

end

theorem nextSet_inside_first : (((setSize 70).set 65).nextSetInside 3).isSome := by
  obtain ⟨h1, h2, h3⟩ := (setSize_good 70).1.set 65 (by decide)
  refine (nextSet_inside_iff h1 (by rw [h2]; decide) (by decide) (by decide)).2 fun h => ?_
  have h4 := h.2.2 65 (by decide)
  rw [h3] at h4
  cases h4

/-- The only word of an empty set is exhausted at once. -/
theorem nextSet_reads_outside :
    (setSize 1).Good ∧ (setSize 1).nextSetInside (-1) = none :=
  ⟨(setSize_good 1).1, by decide⟩

/-! ## The loop -/

/-- No position of a gap passes the filter. -/
theorem filter_range_gap {p : Nat → Bool} {m n : Nat} (hmn : m ≤ n)
    (h : ∀ i, m ≤ i → i < n → p i = false) : (List.range n).filter p = (List.range m).filter p := by
  obtain ⟨k, rfl⟩ := Nat.exists_eq_add_of_le hmn
  have hgap : ((List.range k).map (m + ·)).filter p = [] := by
    refine List.filter_eq_nil_iff.2 fun i hi => ?_
    obtain ⟨j, hj, rfl⟩ := List.mem_map.1 hi
    rw [h _ (Nat.le_add_right _ _) (by have := List.mem_range.1 hj; omega)]
    exact Bool.false_ne_true
  rw [List.range_add, List.filter_append, hgap, List.append_nil]

/-- At the head of the loop the set positions before `nn` have been visited. -/
def Visited (v : Bitvector) (s : Option Int × List Int) : Prop :=
  ∃ r : Nat, s = (some (r : Int), ((List.range r).filter v.bit).map (↑)) ∧ r ≤ v.bsize ∧
    (r < v.bsize → v.bit r = true)

section
variable {v : Bitvector} (hv : v.Good) (hs : v.bsize < 2 ^ 31) (stray : Nat → Word)
include hv hs

/-- The search after the position `r`, before which all set positions have been visited. -/
theorem Visited.search {p : Int} {m : Nat} (h1 : -1 ≤ p) (h2 : p < 2 ^ 31)
    (hm : p + 1 = m) (hle : m ≤ v.bsize) :
    Visited v (v.nextSetStray stray p, ((List.range m).filter v.bit).map (↑)) ∧
      m ≤ v.nextSet p := by
  have hn := nextSet_spec hv p
  have hm' : (p + 1).toNat = m := by omega
  rw [hm'] at hn
  have hmn : m ≤ v.nextSet p := by
    by_cases hlt : v.nextSet p < v.bsize
    · exact (hn.found hlt).1
    · omega
  refine ⟨⟨v.nextSet p, ?_, hn.le, fun hlt => (hn.found hlt).2⟩, hmn⟩
  rw [nextSetStray_eq hv hs stray h1 h2, filter_range_gap hmn hn.before]

theorem Visited.step {s s' : Option Int × List Int} (h : Visited v s)
    (he : v.visitStep stray s = .inl s') :
    Visited v s' ∧ v.bsize - (s'.1.getD 0).toNat < v.bsize - (s.1.getD 0).toNat := by
  obtain ⟨r, rfl, hle, hbit⟩ := h
  unfold visitStep at he
  simp only [toInt_natCast hs] at he
  split at he
  · rename_i hlt
    cases he
    have hlt' : r < v.bsize := by omega
    have hacc : ((List.range r).filter v.bit).map (Nat.cast : Nat → Int) ++ [(r : Int)] =
        ((List.range (r + 1)).filter v.bit).map (↑) := by
      rw [List.range_succ, List.filter_append, List.map_append, List.filter_cons_of_pos (hbit hlt')]
      rfl
    obtain ⟨h1, h2⟩ := Visited.search hv hs stray (p := r) (m := r + 1) (by omega) (by omega)
      (by omega) hlt'
    refine ⟨hacc ▸ h1, ?_⟩
    rw [nextSetStray_eq hv hs stray (by omega) (by omega)]
    simp only [Option.getD_some, Int.toNat_natCast]
    omega
  · cases he

/-- **Iterating `next_set`** visits the positions that are set, in increasing order. -/
theorem nextSet_enumerates :
    (∀ pos : Int, -1 ≤ pos → pos < 2 ^ 31 → ∃ r : Nat, v.nextSetStray stray pos = some (r : Int) ∧
      v.IsNext (pos + 1).toNat r) ∧
    ∃ fuel, v.visitLoop stray fuel = some (((List.range v.bsize).filter v.bit).map (↑)) := by
  refine ⟨fun pos h1 h2 => ⟨_, nextSetStray_eq hv hs stray h1 h2, nextSet_spec hv pos⟩, ?_⟩
  obtain ⟨hstart, -⟩ := Visited.search hv hs stray (p := -1) (m := 0) le_rfl (by norm_num) rfl
    (Nat.zero_le _)
  obtain ⟨r, hr, hp⟩ := loop_total (P := (· = some (((List.range v.bsize).filter v.bit).map (↑))))
    (fun s => v.bsize - (s.1.getD 0).toNat) (fun s s' h he => h.step hv hs stray he)
    (fun s r h he => by
      obtain ⟨q, rfl, hle, -⟩ := h
      unfold visitStep at he
      simp only [toInt_natCast hs] at he
      split at he
      · cases he
      · cases he
        have hq : q = v.bsize := by omega
        rw [hq]) hstart (Nat.lt_succ_self _)
  exact ⟨_, (congrArg Option.join hr).trans hp⟩

end

theorem nextSet_enumerates_two : ∃ fuel,
    ((setSize 2).set 1).visitLoop (fun _ => 1) fuel = some [1] := by
  obtain ⟨h1, h2, -⟩ := (setSize_good 2).1.set 1 (by decide)
  exact (nextSet_enumerates h1 (by rw [h2]; decide) fun _ => 1).2

end Msyn.Bitprocess.Bitvector
