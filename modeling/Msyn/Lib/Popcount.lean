import Mathlib.Tactic.Common
import Mathlib.Data.Nat.Bitwise

/-!
# Counting bits in parallel

A word is counted by adding neighbouring fields of 1, 2 and 4 bits, so that every byte holds its
own count, and then adding the bytes by a multiplication. The three additions work on each byte by
itself (`byteCounts_succ`), and a byte is counted right (`byteCounts_byte`), so the sum is the
number of bits of the word (`byteCounts_sum`).
-/

namespace Msyn

/-- The number of bits of `x` below `k`. -/
def bitsBelow (k x : Nat) : Nat := (List.range k).countP (x.testBit ·)

/-- The word of `n` bytes `d`. -/
def spread (d : Nat) : Nat → Nat
  | 0 => 0
  | n + 1 => 2 ^ 8 * spread d n + d

/-- The counts of the 2-bit fields. -/
def pairCounts (n x : Nat) : Nat := x - ((x >>> 1) &&& spread 0x55 n)

/-- The counts of the 4-bit fields from those of the 2-bit fields. -/
def nibbleCounts (n x : Nat) : Nat := (x &&& spread 0x33 n) + ((x >>> 2) &&& spread 0x33 n)

/-- The counts of the bytes of a word of `n` bytes. -/
def byteCounts (n x : Nat) : Nat :=
  let y := nibbleCounts n (pairCounts n x)
  (y + (y >>> 4)) &&& spread 0x0f n

/-- Masked shifts that drop what crosses a byte work on each byte by itself. -/
theorem shift_and_split {h l c d s : Nat} (hl : l < 2 ^ 8) (hs : s ≤ 8) (hd : d < 2 ^ (8 - s)) :
    ((2 ^ 8 * h + l) >>> s) &&& (2 ^ 8 * c + d) = 2 ^ 8 * ((h >>> s) &&& c) + ((l >>> s) &&& d) := by
  have hd8 : d < 2 ^ 8 := hd.trans_le (Nat.pow_le_pow_right (by omega) (by omega))
  have hlow : (l >>> s) &&& d < 2 ^ 8 := Nat.and_lt_two_pow _ hd8
  refine Nat.eq_of_testBit_eq fun i => ?_
  rw [Nat.testBit_and, Nat.testBit_shiftRight, Nat.testBit_two_pow_mul_add _ hl,
    Nat.testBit_two_pow_mul_add _ hd8, Nat.testBit_two_pow_mul_add _ hlow]
  by_cases hi : i < 8
  · rw [if_pos hi, if_pos hi, Nat.testBit_and, Nat.testBit_shiftRight]
    by_cases hsi : s + i < 8
    · rw [if_pos hsi]
    · have : d.testBit i = false := Nat.testBit_lt_two_pow (hd.trans_le
        (Nat.pow_le_pow_right (by omega) (by omega)))
      simp [this]
  · rw [if_neg hi, if_neg hi, if_neg (by omega), Nat.testBit_and, Nat.testBit_shiftRight]
    congr 2
    omega

theorem pairCounts_split {n h l : Nat} (hl : l < 2 ^ 8) :
    pairCounts (n + 1) (2 ^ 8 * h + l) = 2 ^ 8 * pairCounts n h + (l - ((l >>> 1) &&& 0x55)) := by
  have hle : ∀ x m : Nat, (x >>> 1) &&& m ≤ x := fun x m =>
    Nat.and_le_left.trans (Nat.shiftRight_le x 1)
  have h1 := hle h (spread 0x55 n)
  have h2 := hle l 0x55
  rw [pairCounts, pairCounts, spread, shift_and_split hl (by omega) (by omega)]
  omega

theorem nibbleCounts_split {n h l : Nat} (hl : l < 2 ^ 8) :
    nibbleCounts (n + 1) (2 ^ 8 * h + l) =
      2 ^ 8 * nibbleCounts n h + ((l &&& 0x33) + ((l >>> 2) &&& 0x33)) := by
  have h0 := shift_and_split (h := h) (c := spread 0x33 n) (d := 0x33) (s := 0) hl (by omega)
    (by omega)
  simp only [Nat.shiftRight_zero] at h0
  rw [nibbleCounts, nibbleCounts, spread, shift_and_split hl (by omega) (by omega), h0]
  omega

theorem nibbleCounts_mod (n x : Nat) : nibbleCounts n x % 16 ≤ 6 := by
  have key : ∀ y, (y &&& spread 0x33 n) % 2 ^ 4 ≤ 3 := by
    intro y
    rw [Nat.and_mod_two_pow]
    cases n with
    | zero => simp [spread]
    | succ n =>
      have : spread 0x33 (n + 1) % 2 ^ 4 = 3 := by rw [spread]; omega
      rw [this]
      exact Nat.and_le_right
  have h1 := key x
  have h2 := key (x >>> 2)
  rw [nibbleCounts]
  omega

/-- The count of a byte, as the three additions compute it. -/
def byteCount (l : Nat) : Nat :=
  let p := l - ((l >>> 1) &&& 0x55)
  let y := (p &&& 0x33) + ((p >>> 2) &&& 0x33)
  (y + (y >>> 4)) &&& 0x0f

theorem byteCounts_byte : ∀ l < 2 ^ 8, byteCount l = bitsBelow 8 l ∧ bitsBelow 8 l ≤ 8 := by
  decide +kernel

theorem byteCounts_succ (n x : Nat) :
    byteCounts (n + 1) x = 2 ^ 8 * byteCounts n (x / 2 ^ 8) + byteCount (x % 2 ^ 8) := by
  have hl : x % 2 ^ 8 < 2 ^ 8 := Nat.mod_lt _ (by omega)
  have hx : x = 2 ^ 8 * (x / 2 ^ 8) + x % 2 ^ 8 := (Nat.div_add_mod _ _).symm
  generalize x / 2 ^ 8 = h, x % 2 ^ 8 = l at hx hl
  subst hx
  have hp : l - ((l >>> 1) &&& 0x55) < 2 ^ 8 := (Nat.sub_le _ _).trans_lt hl
  rw [byteCounts, pairCounts_split hl, nibbleCounts_split hp, byteCounts, byteCount]
  generalize l - ((l >>> 1) &&& 0x55) = p at hp
  have hy : (p &&& 0x33) + ((p >>> 2) &&& 0x33) ≤ 0x66 := by
    have h1 : p &&& 0x33 ≤ 0x33 := Nat.and_le_right
    have h2 : (p >>> 2) &&& 0x33 ≤ 0x33 := Nat.and_le_right
    omega
  have hz := nibbleCounts_mod n (pairCounts n h)
  generalize (p &&& 0x33) + ((p >>> 2) &&& 0x33) = y at hy
  generalize nibbleCounts n (pairCounts n h) = z at hz
  -- the carry out of the upper bytes stays in the upper half of the byte
  have hsum : 2 ^ 8 * z + y + ((2 ^ 8 * z + y) >>> 4) =
      2 ^ 8 * (z + z >>> 4) + (y + y >>> 4 + 16 * (z % 16)) := by
    simp only [Nat.shiftRight_eq_div_pow]
    omega
  have hlt : y + y >>> 4 + 16 * (z % 16) < 2 ^ 8 := by
    simp only [Nat.shiftRight_eq_div_pow]
    omega
  have h0 := shift_and_split (h := z + z >>> 4) (c := spread 0x0f n) (d := 0x0f) (s := 0) hlt
    (by omega) (by omega)
  simp only [Nat.shiftRight_zero] at h0
  have hmod : ∀ a : Nat, a &&& 0x0f = a % 2 ^ 4 := fun a => Nat.and_two_pow_sub_one_eq_mod a 4
  simp only [hsum, spread, h0, hmod]
  omega

theorem bitsBelow_succ (n x : Nat) :
    bitsBelow (8 * (n + 1)) x = bitsBelow (8 * n) (x / 2 ^ 8) + bitsBelow 8 (x % 2 ^ 8) := by
  have hsplit : List.range (8 * (n + 1)) = List.range 8 ++ (List.range (8 * n)).map (8 + ·) := by
    rw [← List.range_add]
    congr 1
    omega
  rw [bitsBelow, hsplit, List.countP_append, List.countP_map, Nat.add_comm]
  congr 1
  · refine List.countP_congr fun i _ => ?_
    rw [Function.comp, Nat.testBit_div_two_pow, Nat.add_comm]
  · refine List.countP_congr fun i hi => ?_
    rw [Nat.testBit_mod_two_pow]
    simp [List.mem_range.1 hi]

/-- Multiplication by a word of ones adds the bytes into the highest one. -/
theorem mul_ones {a b c d e f g h : Nat} (ha : a ≤ 8) (hb : b ≤ 8) (hc : c ≤ 8) (hd : d ≤ 8)
    (he : e ≤ 8) (hf : f ≤ 8) (hg : g ≤ 8) (hh : h ≤ 8) :
    (2 ^ 8 * (2 ^ 8 * (2 ^ 8 * (2 ^ 8 * (2 ^ 8 * (2 ^ 8 * (2 ^ 8 * h + g) + f) + e) + d) + c) + b)
      + a) * 0x0101010101010101 % 2 ^ 64 / 2 ^ 56 = h + g + f + e + d + c + b + a := by
  -- the part below the highest byte, and the part above it
  obtain ⟨lo, hlo⟩ : ∃ lo, lo = a + 2 ^ 8 * (a + b) + 2 ^ 16 * (a + b + c) +
    2 ^ 24 * (a + b + c + d) + 2 ^ 32 * (a + b + c + d + e) + 2 ^ 40 * (a + b + c + d + e + f) +
    2 ^ 48 * (a + b + c + d + e + f + g) := ⟨_, rfl⟩
  obtain ⟨hi, hhi⟩ : ∃ hi, hi = b + c + d + e + f + g + h + 2 ^ 8 * (c + d + e + f + g + h) +
    2 ^ 16 * (d + e + f + g + h) + 2 ^ 24 * (e + f + g + h) + 2 ^ 32 * (f + g + h) +
    2 ^ 40 * (g + h) + 2 ^ 48 * h := ⟨_, rfl⟩
  have hsum : (2 ^ 8 * (2 ^ 8 * (2 ^ 8 * (2 ^ 8 * (2 ^ 8 * (2 ^ 8 * (2 ^ 8 * h + g) + f) + e) + d)
      + c) + b) + a) * 0x0101010101010101 =
      2 ^ 64 * hi + (2 ^ 56 * (h + g + f + e + d + c + b + a) + lo) := by omega
  have hlt : lo < 2 ^ 56 := by omega
  rw [hsum]
  clear hsum hlo hhi
  omega

/-- **The bytes add up to the number of bits.** -/
theorem byteCounts_sum {x : Nat} :
    byteCounts 8 x * spread 1 8 % 2 ^ 64 / 2 ^ 56 = bitsBelow 64 x := by
  have hc : ∀ l, byteCount (l % 2 ^ 8) = bitsBelow 8 (l % 2 ^ 8) ∧ bitsBelow 8 (l % 2 ^ 8) ≤ 8 :=
    fun l => byteCounts_byte _ (Nat.mod_lt _ (by omega))
  have hb0 : ∀ y, byteCounts 0 y = 0 := fun y => by simp [byteCounts, spread]
  have hp0 : ∀ y, bitsBelow (8 * 0) y = 0 := fun y => rfl
  have hs : spread 1 8 = 0x0101010101010101 := rfl
  rw [show bitsBelow 64 x = bitsBelow (8 * (7 + 1)) x from rfl, bitsBelow_succ]
  simp only [byteCounts_succ, bitsBelow_succ, hb0, hp0, hc, hs, Nat.mul_zero, Nat.zero_add]
  exact mul_ones (hc _).2 (hc _).2 (hc _).2 (hc _).2 (hc _).2 (hc _).2 (hc _).2 (hc _).2

end Msyn
