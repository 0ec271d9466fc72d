import Mathlib.Algebra.Group.Action.Defs
import Mathlib.Algebra.Order.Archimedean.Basic
import Mathlib.Algebra.Order.BigOperators.Group.List
import Mathlib.Algebra.Order.Field.Rat
import Mathlib.Tactic.Common
import Mathlib.Tactic.Positivity
import Mathlib.Tactic.Ring

/-!
# Greedy covers

Sets `cov j` over a list of points, picked one after the other so that none of the sets `js` has
more of the points that are left than the set that is picked (`Greedy`). When `k` sets cover all `n`
points, `t` picks leave at most `n * ((k - 1) / k) ^ t` of them (`Greedy.left_mul_pow_le`): a
largest of `k` sets has at least the `k`-th part of what they cover together
(`length_le_mul`).
-/

namespace Msyn.GreedyCover

variable {ι α : Type*} (cov : ι → α → Bool)

/-- The points that none of the picked sets has. -/
def left (all : List α) (picks : List ι) : Nat :=
  all.countP fun a => !(picks.any fun j => cov j a)

/-- The points that the set has and none of the picked ones does. -/
def gain (all : List α) (picks : List ι) (j : ι) : Nat :=
  all.countP fun a => cov j a && !(picks.any fun i => cov i a)

/-- None of the sets `js` gains more than a picked one when that was picked. -/
def Greedy (all : List α) (js picks : List ι) : Prop :=
  ∀ pre p post, picks = pre ++ p :: post → ∀ j ∈ js, gain cov all pre j ≤ gain cov all pre p

variable {cov} {all : List α} {js picks : List ι}

/-- Sets that cover a list, none with more than `g` of its points. -/
theorem length_le_mul {l : List α} {g : Nat} (hcov : ∀ a ∈ l, ∃ j ∈ js, cov j a = true)
    (hg : ∀ j ∈ js, l.countP (cov j) ≤ g) : l.length ≤ js.length * g := by
  have hsum : l.length ≤ (js.map fun j => l.countP (cov j)).sum := by
    clear hg
    induction l with
    | nil => exact Nat.zero_le _
    | cons a l ih =>
      obtain ⟨j, hj, hja⟩ := hcov a (by simp)
      have hsplit : (js.map fun j => (a :: l).countP (cov j)).sum =
          (js.map fun j => l.countP (cov j)).sum + js.countP fun j => cov j a := by
        clear ih hcov hj hja
        induction js with
        | nil => rfl
        | cons i js ih =>
          rw [List.map_cons, List.map_cons, List.sum_cons, List.sum_cons, ih, List.countP_cons,
            List.countP_cons]
          omega
      have hpos : 0 < js.countP fun j => cov j a := List.countP_pos_iff.2 ⟨j, hj, hja⟩
      have := ih fun b hb => hcov b (by simp [hb])
      rw [List.length_cons, hsplit]
      omega
  refine hsum.trans ?_
  have hle := List.sum_le_card_nsmul (js.map fun j => l.countP (cov j)) g fun x hx => by
    obtain ⟨j, hj, rfl⟩ := List.mem_map.1 hx
    exact hg j hj
  rwa [List.length_map, smul_eq_mul] at hle

theorem left_nil : left cov all [] = all.length := by
  simp [left]

theorem left_concat (p : ι) : left cov all (picks ++ [p]) + gain cov all picks p =
    left cov all picks := by
  unfold left gain
  induction all with
  | nil => rfl
  | cons a all ih =>
    simp only [List.countP_cons, List.any_append, List.any_cons, List.any_nil, Bool.or_false,
      Bool.not_or] at ih ⊢
    cases picks.any fun j => cov j a <;> cases cov p a <;> simp <;> omega

theorem Greedy.init {p : ι} (h : Greedy cov all js (picks ++ [p])) : Greedy cov all js picks :=
  fun pre q post hs => h pre q (post ++ [p]) (by rw [hs, List.append_assoc, List.cons_append])

variable (hcov : ∀ a ∈ all, ∃ j ∈ js, cov j a = true)
include hcov

/-- **One pick** of a best set has at least the `k`-th part of what is left. -/
theorem left_le_mul_gain {p : ι} (hp : ∀ j ∈ js, gain cov all picks j ≤ gain cov all picks p) :
    left cov all picks ≤ js.length * gain cov all picks p := by
  have h : (all.filter fun a => !(picks.any fun j => cov j a)).length ≤
      js.length * gain cov all picks p := by
    refine length_le_mul (fun a ha => hcov a (List.mem_filter.1 ha).1) fun j hj => ?_
    rw [List.countP_filter]
    exact hp j hj
  rwa [← List.countP_eq_length_filter] at h

/-- **The greedy bound.** -/
theorem Greedy.left_mul_pow_le (h : Greedy cov all js picks) (hk : 1 ≤ js.length) :
    left cov all picks * js.length ^ picks.length ≤
      all.length * (js.length - 1) ^ picks.length := by
  induction picks using List.reverseRecOn with
  | nil => rw [left_nil]; simp
  | append_singleton picks p ih =>
    have hgain := left_le_mul_gain hcov (h picks p [] rfl)
    have hadd : left cov all (picks ++ [p]) + gain cov all picks p = left cov all picks :=
      left_concat p
    obtain ⟨k, hk⟩ : ∃ k, js.length = k + 1 := ⟨js.length - 1, by omega⟩
    rw [hk, Nat.add_sub_cancel] at ih ⊢
    rw [hk] at hgain
    -- what is left after the pick, against what was left before
    have hstep : left cov all (picks ++ [p]) * (k + 1) ≤ left cov all picks * k := by
      have hexp : (left cov all (picks ++ [p]) + gain cov all picks p) * (k + 1) =
          left cov all picks * k + left cov all picks := by
        rw [hadd, Nat.mul_succ]
      rw [Nat.add_mul, Nat.mul_comm (gain _ _ _ _)] at hexp
      omega
    rw [List.length_append, List.length_singleton, pow_succ', pow_succ']
    calc left cov all (picks ++ [p]) * ((k + 1) * (k + 1) ^ picks.length)
        = left cov all (picks ++ [p]) * (k + 1) * (k + 1) ^ picks.length := by ring
      _ ≤ left cov all picks * k * (k + 1) ^ picks.length := Nat.mul_le_mul_right _ hstep
      _ = k * (left cov all picks * (k + 1) ^ picks.length) := by ring
      _ ≤ k * (all.length * k ^ picks.length) := Nat.mul_le_mul_left _ (ih h.init)
      _ = all.length * (k * k ^ picks.length) := by ring

omit hcov

/-- Enough picks leave nothing. -/
theorem exists_mul_pow_lt (n : Nat) {k : Nat} (hk : 1 ≤ k) : ∃ t, n * (k - 1) ^ t < k ^ t := by
  obtain ⟨m, rfl⟩ : ∃ m, k = m + 1 := ⟨k - 1, by omega⟩
  have hm : (0 : ℚ) < m + 1 := by positivity
  obtain ⟨t, ht⟩ := exists_pow_lt_of_lt_one (show (0 : ℚ) < 1 / (n + 1) by positivity)
    (show (m / (m + 1) : ℚ) < 1 by rw [div_lt_one hm]; exact lt_add_one _)
  refine ⟨t, ?_⟩
  rw [div_pow, div_lt_div_iff₀ (pow_pos hm t) (by positivity), one_mul] at ht
  have hnat : m ^ t * (n + 1) < (m + 1) ^ t := by exact_mod_cast ht
  rw [Nat.add_sub_cancel, Nat.mul_comm]
  exact (Nat.mul_le_mul_left _ (Nat.le_succ n)).trans_lt hnat

/-- More picks leave nothing either. -/
theorem mul_pow_lt_mono {n k t t' : Nat} (hk : 1 ≤ k) (h : n * (k - 1) ^ t < k ^ t)
    (hle : t ≤ t') : n * (k - 1) ^ t' < k ^ t' := by
  obtain ⟨d, rfl⟩ := Nat.exists_eq_add_of_le hle
  rw [pow_add, pow_add, ← Nat.mul_assoc]
  exact Nat.mul_lt_mul_of_lt_of_le h (Nat.pow_le_pow_left (Nat.sub_le k 1) d) (pow_pos hk d)

end Msyn.GreedyCover
