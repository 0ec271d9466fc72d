import Mathlib.Data.List.Basic
import Mathlib.Data.List.Nodup
import Mathlib.Data.List.TakeWhile
import Mathlib.Tactic.Common

/-!
# Sweeps over a set that shrinks

`sweep body succ fuel s it` runs `body` at the element that the iterator `it` points at and moves
on with `succ`, until the iterator is at its end; `none` means that a body failed or that the fuel
ran out. `sweep_total`: an invariant of the heads of the loop and a measure that every round
decreases; `sweep_ends`: the same where a body may fail.

`remaining it l` counts the elements of `l` from the iterator on. Elements may leave `l` behind or
ahead of the iterator, as long as the one that it points at stays (`split_sublist`).
-/

namespace Msyn

section
variable {σ κ : Type*} (body : σ → κ → Option σ) (succ : σ → κ → Option κ)

def sweep : Nat → σ → Option κ → Option σ
  | _, s, none => some s
  | 0, _, some _ => none
  | fuel + 1, s, some k => do
    let s ← body s k
    sweep fuel s (succ s k)

variable {body succ}

theorem sweep_total {I : σ → Option κ → Prop} (μ : σ → Option κ → Nat)
    (hpos : ∀ s k, I s (some k) → 0 < μ s (some k))
    (hbody : ∀ s k, I s (some k) → ∃ s', body s k = some s' ∧ I s' (succ s' k) ∧
      μ s' (succ s' k) < μ s (some k)) :
    ∀ {fuel : Nat} {s : σ} {it : Option κ}, I s it → μ s it ≤ fuel →
      ∃ s', sweep body succ fuel s it = some s' ∧ I s' none
  | fuel, s, none, hi, _ => ⟨s, by cases fuel <;> rfl, hi⟩
  | 0, s, some k, hi, hf => absurd (hpos s k hi) (by omega)
  | fuel + 1, s, some k, hi, hf => by
    obtain ⟨s1, h1, h2, h3⟩ := hbody s k hi
    have hle : μ s1 (succ s1 k) ≤ fuel := by omega
    obtain ⟨s', h4, h5⟩ := sweep_total μ hpos hbody h2 hle
    exact ⟨s', by rw [sweep, h1]; exact h4, h5⟩

variable (body succ) in
/-- A sweep whose bodies may fail returns, or it fails in a body. -/
theorem sweep_ends {I : σ → Option κ → Prop} (μ : σ → Option κ → Nat)
    (hpos : ∀ s k s', I s (some k) → body s k = some s' → 0 < μ s (some k))
    (hbody : ∀ s k s', I s (some k) → body s k = some s' →
      I s' (succ s' k) ∧ μ s' (succ s' k) < μ s (some k)) :
    ∀ {fuel : Nat} {s : σ} {it : Option κ}, I s it → μ s it ≤ fuel →
      (∃ s', sweep body succ fuel s it = some s' ∧ I s' none) ∨
        ∃ s' k, I s' (some k) ∧ body s' k = none
  | fuel, s, none, hi, _ => .inl ⟨s, by cases fuel <;> rfl, hi⟩
  | 0, s, some k, hi, hf => by
    refine .inr ⟨s, k, hi, ?_⟩
    by_contra hne
    obtain ⟨s', h1⟩ := Option.ne_none_iff_exists'.1 hne
    have := hpos s k s' hi h1
    omega
  | fuel + 1, s, some k, hi, hf => by
    cases h1 : body s k with
    | none => exact .inr ⟨s, k, hi, h1⟩
    | some s1 =>
      obtain ⟨h2, h3⟩ := hbody s k s1 hi h1
      have hle : μ s1 (succ s1 k) ≤ fuel := by omega
      rw [sweep, h1]
      exact sweep_ends μ hpos hbody h2 hle

end

/-! ## Iterators into a list -/

section
variable {κ : Type*} [DecidableEq κ]

/-- The elements from the iterator on. -/
def remaining : Option κ → List κ → Nat
  | none, _ => 0
  | some k, l => (l.dropWhile (· ≠ k)).length

theorem remaining_le (it : Option κ) (l : List κ) : remaining it l ≤ l.length := by
  cases it with
  | none => exact Nat.zero_le _
  | some k => exact (List.dropWhile_suffix _).length_le

theorem dropWhile_split {k : κ} {a b : List κ} (h : k ∉ a) :
    (a ++ k :: b).dropWhile (· ≠ k) = k :: b := by
  induction a with
  | nil => simp
  | cons x a ih =>
    obtain ⟨h1, h2⟩ := not_or.1 (mt List.mem_cons.2 h)
    rw [List.cons_append, List.dropWhile_cons_of_pos (by simpa using Ne.symm h1), ih h2]

theorem remaining_pos {k : κ} {l : List κ} (h : k ∈ l) : 0 < remaining (some k) l := by
  obtain ⟨a, b, rfl, hk⟩ := List.eq_append_cons_of_mem h
  rw [remaining, dropWhile_split hk]
  exact Nat.succ_pos _

/-- An iterator that moves on. -/
theorem remaining_head {k : κ} {a b : List κ} (h : (a ++ k :: b).Nodup) :
    remaining b.head? (a ++ k :: b) = b.length := by
  cases b with
  | nil => rfl
  | cons x b =>
    have hx : x ∉ a ++ [k] := fun hx => by
      rw [← List.singleton_append, ← List.append_assoc] at h
      exact (List.nodup_append.1 h).2.2 x hx x (by simp) rfl
    rw [List.head?_cons, remaining, ← List.singleton_append, ← List.append_assoc,
      dropWhile_split hx]

omit [DecidableEq κ] in
/-- A list that shrinks around an element. -/
theorem split_sublist {k : κ} {l' : List κ} : ∀ {a b : List κ}, k ∉ a →
    l'.Sublist (a ++ k :: b) → (a ++ k :: b).Nodup → k ∈ l' →
    ∃ a' b', l' = a' ++ k :: b' ∧ k ∉ a' ∧ b'.Sublist b := by
  intro a b hka hsub hnd hk
  obtain ⟨l1, l2, rfl, h1, h2⟩ := List.sublist_append_iff.1 hsub
  have hk1 : k ∉ l1 := fun h => hka (h1.mem h)
  have hk2 : k ∈ l2 := (List.mem_append.1 hk).resolve_left hk1
  obtain ⟨-, hnd2, -⟩ := List.nodup_append.1 hnd
  cases h2 with
  | cons _ h3 => exact absurd (h3.mem hk2) (List.nodup_cons.1 hnd2).1
  | cons_cons _ h3 => exact ⟨l1, _, rfl, hk1, h3⟩

/-- Elements that leave do not put the iterator back; if its own element leaves it is at the end. -/
theorem remaining_sublist {l l' : List κ} (hnd : l.Nodup) (hsub : l'.Sublist l) (it : Option κ) :
    remaining it l' ≤ remaining it l := by
  cases it with
  | none => exact Nat.le_refl 0
  | some k =>
    by_cases hk : k ∈ l'
    · obtain ⟨a, b, rfl, hka⟩ := List.eq_append_cons_of_mem (hsub.mem hk)
      obtain ⟨a', b', rfl, hka', hb⟩ := split_sublist hka hsub hnd hk
      rw [remaining, remaining, dropWhile_split hka, dropWhile_split hka']
      exact Nat.succ_le_succ hb.length_le
    · have hnil : l'.dropWhile (· ≠ k) = [] := by
        rw [List.dropWhile_eq_nil_iff]
        intro j hj
        exact decide_eq_true fun he => hk (he ▸ hj)
      rw [remaining, hnil]
      exact Nat.zero_le _

end

end Msyn
