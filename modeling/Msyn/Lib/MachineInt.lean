import Mathlib.Tactic.NormNum

/-!
# Machine integers

Arithmetic of 32 bits on integers: `toInt` wraps as an `int` does, `toUInt` is the conversion to
`unsigned int`, and `sumInt` is a sum that is formed in an `int`. Such a sum may wrap at every step;
only the exact sum has to fit for it to be right (`sumInt_eq`).
-/

namespace Msyn

/-- The value that an `int` keeps of an exact result. -/
def toInt (x : Int) : Int := x.bmod (2 ^ 32)

/-- The conversion of an `int` to `unsigned int`. -/
def toUInt (x : Int) : Nat := (x % 2 ^ 32).toNat

/-- The values of an `int`. -/
def FitsInt (x : Int) : Prop := -2 ^ 31 ≤ x ∧ x < 2 ^ 31

instance (x : Int) : Decidable (FitsInt x) := inferInstanceAs (Decidable (_ ∧ _))

theorem toInt_eq {x : Int} (h1 : -2 ^ 31 ≤ x) (h2 : x < 2 ^ 31) : toInt x = x :=
  Int.bmod_eq_of_le (by push_cast; omega) (by push_cast; omega)

theorem toInt_natCast {n : Nat} (h : n < 2 ^ 31) : toInt n = n := toInt_eq (by omega) (by omega)

theorem toInt_lt (x : Int) : toInt x < 2 ^ 31 := by
  have := @Int.bmod_lt x (2 ^ 32) (by norm_num)
  push_cast at this
  exact this

theorem le_toInt (x : Int) : -2 ^ 31 ≤ toInt x := by
  have := @Int.le_bmod x (2 ^ 32) (by norm_num)
  push_cast at this
  exact this

/-- What fits is kept. -/
theorem toInt_eq_iff {x : Int} : toInt x = x ↔ FitsInt x :=
  ⟨fun h => h ▸ ⟨le_toInt x, toInt_lt x⟩, fun h => toInt_eq h.1 h.2⟩

/-- A value with the bit of the sign. -/
theorem toInt_neg {x : Int} (h1 : 2 ^ 31 ≤ x) (h2 : x < 2 ^ 32) : toInt x < 0 := by
  have hsub : toInt x = x - 2 ^ 32 := by
    rw [← toInt_eq (x := x - 2 ^ 32) (by omega) (by omega)]
    exact (Int.sub_bmod_right x (2 ^ 32)).symm
  omega

theorem toInt_add_toInt (x y : Int) : toInt (toInt x + y) = toInt (x + y) := Int.bmod_add_bmod ..

theorem toInt_sub_add (x y z : Int) : toInt (toInt (toInt x - y) + z) = toInt (x - y + z) := by
  rw [toInt_add_toInt, sub_eq_add_neg, sub_eq_add_neg, add_assoc, add_assoc, toInt_add_toInt]

theorem toInt_mul_add (x y z : Int) : toInt (toInt x * y + z) = toInt (x * y + z) := by
  rw [toInt, toInt, toInt, Int.add_bmod, Int.bmod_mul_bmod, ← Int.add_bmod]

/-! ## Sums -/

/-- `for (a : l) sum = sum + f(a)`. -/
def sumInt {α : Type*} (f : α → Int) (l : List α) : Int := l.foldl (fun sum a => toInt (sum + f a)) 0

theorem foldl_toInt {α : Type*} (f : α → Int) (l : List α) (sum : Int) :
    l.foldl (fun sum a => toInt (sum + f a)) (toInt sum) = toInt (sum + (l.map f).sum) := by
  induction l generalizing sum with
  | nil => rw [List.foldl_nil, List.map_nil, List.sum_nil, add_zero]
  | cons a l ih =>
    rw [List.foldl_cons, toInt_add_toInt, ih, List.map_cons, List.sum_cons, add_assoc]

theorem sumInt_eq {α : Type*} (f : α → Int) (l : List α) : sumInt f l = toInt (l.map f).sum := by
  have h := foldl_toInt f l 0
  rwa [zero_add] at h

/-! ## Conversion -/

theorem toUInt_toInt (x : Int) : toUInt (toInt x) = toUInt x := by
  have h : ((2 ^ 32 : Nat) : Int) = 2 ^ 32 := by norm_num
  rw [toUInt, toUInt, toInt, ← h, Int.bmod_emod]

theorem toUInt_natCast {n : Nat} (h : n < 2 ^ 32) : toUInt n = n := by
  rw [toUInt, Int.emod_eq_of_lt (by omega) (by omega), Int.toNat_natCast]

end Msyn
