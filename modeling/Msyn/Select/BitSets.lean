import Mathlib.Data.Set.Insert
import Msyn.Select.Bitvector

/-!
# Bit vectors as sets

A vector stands for the set of the positions that are set in it. A history of operations on a
vector makes the vector and, next to it, the size and the set that the operations stand for
(`Made`); the vector is always the one of that size and set (`made_spec`).
-/

namespace Msyn.Bitprocess.Bitvector

/-- The positions that are set. -/
def positions (v : Bitvector) : Set Nat := {i | v.bit i = true}

/-- The operations, with the vectors that they read. -/
inductive Op where
  | setSize (n : Nat)
  | resize (m : Nat)
  | copy (b : Bitvector)
  | clear
  | setall
  | set (pos : Nat)
  | reset (pos : Nat)
  | orCount (b : Bitvector)
  | andCount (b : Bitvector)
  | maskCount (b : Bitvector)

namespace Op

def apply : Op → Bitvector → Bitvector
  | setSize n, v => v.setSize n
  | resize m, v => v.resize m
  | copy b, v => v.copy b
  | clear, v => v.clear
  | setall, v => v.setall
  | set pos, v => v.set pos
  | reset pos, v => v.reset pos
  | orCount b, v => v.orCount b
  | andCount b, v => v.andCount b
  | maskCount b, v => v.maskCount b

/-- A vector only grows, positions are below its size, and what it is combined with is a good
vector of its size. -/
def Allowed : Op → Bitvector → Prop
  | resize m, v => v.bsize ≤ m
  | copy b, _ => b.Good
  | setall, v => 0 < v.bsize
  | set pos, v | reset pos, v => pos < v.bsize
  | orCount b, v | andCount b, v | maskCount b, v => b.Good ∧ b.bsize = v.bsize
  | setSize _, _ | clear, _ => True

/-- The size after the operation. -/
def newSize : Op → Nat → Nat
  | setSize n, _ => n
  | resize m, _ => m
  | copy b, _ => b.bsize
  | _, n => n

/-- What the operation does to a set of positions below `n`. -/
def effect : Op → Nat → Set Nat → Set Nat
  | setSize _, _, _ | clear, _, _ => ∅
  | resize _, _, S => S
  | copy b, _, _ => b.positions
  | setall, n, _ => {i | i < n}
  | set pos, _, S => insert pos S
  | reset pos, _, S => S \ {pos}
  | orCount b, _, S => S ∪ b.positions
  | andCount b, _, S => S ∩ b.positions
  | maskCount b, _, S => S \ b.positions

/-- **One operation** keeps a vector good and does to its positions what it stands for. -/
theorem spec (o : Op) {v : Bitvector} (hv : v.Good) (ha : o.Allowed v) :
    (o.apply v).Good ∧ (o.apply v).bsize = o.newSize v.bsize ∧
      (o.apply v).positions = o.effect v.bsize v.positions := by
  cases o with
  | setSize n =>
    obtain ⟨h1, h2⟩ := setSize_good n v
    exact ⟨h1, rfl, Set.ext fun i => by simp [positions, effect, apply, h2]⟩
  | resize m =>
    obtain ⟨h1, h2, h3⟩ := hv.resize ha
    exact ⟨h1, h2, Set.ext fun i => by simp only [positions, effect, apply, h3]⟩
  | copy b =>
    obtain ⟨h1, h2⟩ := Good.copy v ha
    exact ⟨h1, rfl, Set.ext fun i => by simp only [positions, effect, apply, h2]⟩
  | clear =>
    obtain ⟨h1, h2⟩ := hv.clear
    exact ⟨h1, rfl, Set.ext fun i => by simp [positions, effect, apply, h2]⟩
  | setall =>
    obtain ⟨h1, h2, h3⟩ := hv.setall ha
    exact ⟨h1, h2, Set.ext fun i => by simp [positions, effect, apply, h3]⟩
  | set pos =>
    obtain ⟨h1, h2, h3⟩ := hv.set pos ha
    exact ⟨h1, h2, Set.ext fun i => by simp [positions, effect, apply, h3, or_comm]⟩
  | reset pos =>
    obtain ⟨h1, h2, h3⟩ := hv.reset pos ha
    exact ⟨h1, h2, Set.ext fun i => by simp [positions, effect, apply, h3]⟩
  | orCount b =>
    obtain ⟨h1, h2, h3⟩ := hv.orCount ha.1 ha.2
    exact ⟨h1, h2, Set.ext fun i => by simp [positions, effect, apply, h3]⟩
  | andCount b =>
    obtain ⟨h1, h2, h3⟩ := hv.andCount b
    exact ⟨h1, h2, Set.ext fun i => by simp [positions, effect, apply, h3]⟩
  | maskCount b =>
    obtain ⟨h1, h2, h3⟩ := hv.maskCount b
    exact ⟨h1, h2, Set.ext fun i => by simp [positions, effect, apply, h3]⟩

end Op

/-- A history of operations from one of the constructors makes the vector; it stands for a vector
of size `n` with the positions `S`. -/
inductive Made : Bitvector → Nat → Set Nat → Prop
  | new : Made {} 0 ∅
  | ofSize (n : Nat) : Made (setSize n) n ∅
  | step {v : Bitvector} {n : Nat} {S : Set Nat} (o : Op) :
      Made v n S → o.Allowed v → Made (o.apply v) (o.newSize n) (o.effect n S)

theorem Made.good {v : Bitvector} {n : Nat} {S : Set Nat} (h : Made v n S) :
    v.Good ∧ v.bsize = n ∧ v.positions = S := by
  induction h with
  | new => exact ⟨⟨⟨rfl, rfl⟩, fun i _ => by simp [bit, getWord], rfl⟩, rfl,
      Set.ext fun i => by simp [positions, bit, getWord]⟩
  | ofSize n =>
    obtain ⟨h1, h2⟩ := setSize_good n
    exact ⟨h1, rfl, Set.ext fun i => by simp [positions, h2]⟩
  | step o _ ha ih =>
    obtain ⟨hg, rfl, rfl⟩ := ih
    exact o.spec hg ha

/-- **Bit vectors**: after every history of operations the words are those for the size, nothing is
set beyond the size, the counter is the number of positions that are set, and the size and the set
are those that the operations stand for. -/
theorem made_spec {v : Bitvector} {n : Nat} {S : Set Nat} (h : Made v n S) :
    (v.wsize = (v.bsize + 63) / 64 ∧ v.data.length = v.wsize) ∧
    (∀ i, v.bsize ≤ i → v.bit i = false) ∧
    v.counter = (List.range v.bsize).countP v.bit ∧
    v.bsize = n ∧ v.positions = S := by
  obtain ⟨hg, hn, hS⟩ := h.good
  exact ⟨⟨hg.wsize.trans (words_eq _), hg.length⟩, hg.beyond, hg.counter, hn, hS⟩

/-- A vector that grows into a second word and is masked with what it was before. -/
theorem made_spec_grown :
    ∃ v, Made v 70 (insert 65 (insert 63 ∅) \ insert 63 ∅) ∧
      v.wsize = 2 ∧ v.counter = 1 ∧ v.positions = insert 65 (insert 63 ∅) \ insert 63 ∅ := by
  have hb : Made (((setSize 64).set 63).resize 70) 70 (insert 63 ∅) :=
    ((Made.ofSize 64).step (.set 63) (by decide : 63 < 64)).step (.resize 70)
      (by decide +kernel : ((setSize 64).set 63).bsize ≤ 70)
  have hlt : 65 < (((setSize 64).set 63).resize 70).bsize := by decide +kernel
  have hv := (hb.step (.set 65) hlt).step (.maskCount (((setSize 64).set 63).resize 70))
    ⟨hb.good.1, by decide +kernel⟩
  simp only [Op.newSize, Op.effect, hb.good.2.2] at hv
  exact ⟨_, hv, by decide +kernel, by decide +kernel, (made_spec hv).2.2.2.2⟩

end Msyn.Bitprocess.Bitvector
