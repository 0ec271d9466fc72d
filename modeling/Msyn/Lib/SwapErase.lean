import Mathlib.Data.List.Basic
import Mathlib.Data.List.Nodup
import Mathlib.Data.List.Perm.Subperm
import Mathlib.Tactic.Common

/-!
# Erasing by moving the last entry

`swapErase l i` overwrites the entry `i` with the last one and drops the last place. The loop
`scanErase x l` does this wherever it meets `x`, and goes on behind the entry that it has moved. If
`l` has no duplicates it erases `x` from `l` (`scanErase_spec`).
-/

namespace Msyn

section
variable {α : Type*}

/-- `l[i] = l[size - 1]; l.pop_back();` -/
def swapErase (l : List α) (i : Nat) : List α :=
  match l[l.length - 1]? with
  | some x => (l.set i x).dropLast
  | none => l

/-- What is erased and what stays. -/
theorem swapErase_perm {l : List α} {i : Nat} (hi : i < l.length) :
    (l[i] :: swapErase l i).Perm l := by
  have hlast : l.length - 1 < l.length := by omega
  have hne : l.set i l[l.length - 1] ≠ [] := by
    rw [ne_eq, List.set_eq_nil_iff]
    rintro rfl
    exact absurd hi (Nat.not_lt_zero i)
  have hend : (l.set i l[l.length - 1]).getLast hne = l[l.length - 1] := by
    rw [List.getLast_eq_getElem, List.getElem_set]
    simp only [List.length_set]
    split <;> rfl
  have hset : (l.set i l[l.length - 1]).Perm (l[l.length - 1] :: l.eraseIdx i) :=
    List.set_perm_cons_eraseIdx hi _
  rw [← List.dropLast_append_getLast hne, hend] at hset
  have herase : (swapErase l i).Perm (l.eraseIdx i) := by
    unfold swapErase
    rw [List.getElem?_eq_getElem hlast]
    exact ((List.perm_append_singleton _ _).symm.trans hset).cons_inv
  exact (herase.cons _).trans (List.getElem_cons_eraseIdx_perm hi)

variable [DecidableEq α]

/-- `for (; i < l.size(); i++) if (l[i] == x) …`, which has at most `rounds` rounds. -/
def scanFrom (x : α) : Nat → List α → Nat → List α
  | 0, l, _ => l
  | rounds + 1, l, i =>
    if l[i]? = some x then scanFrom x rounds (swapErase l i) (i + 1)
    else scanFrom x rounds l (i + 1)

def scanErase (l : List α) (x : α) : List α := scanFrom x l.length l 0

theorem scanFrom_of_not_mem {x : α} {l : List α} (hx : x ∉ l) (rounds i : Nat) :
    scanFrom x rounds l i = l := by
  induction rounds generalizing i with
  | zero => rfl
  | succ rounds ih =>
    rw [scanFrom, if_neg fun h => hx (List.mem_of_getElem? h), ih]

theorem scanFrom_spec {x : α} {l : List α} (hl : l.Nodup) {rounds i : Nat}
    (hi : ∀ j < i, l[j]? ≠ some x) (hrounds : l.length ≤ rounds + i) :
    (scanFrom x rounds l i).Nodup ∧ ∀ y, y ∈ scanFrom x rounds l i ↔ y ∈ l ∧ y ≠ x := by
  induction rounds generalizing i with
  | zero =>
    refine ⟨hl, fun y => ⟨fun hy => ⟨hy, fun he => ?_⟩, And.left⟩⟩
    rw [he] at hy
    obtain ⟨j, hj, hx⟩ := List.getElem_of_mem (show x ∈ l from hy)
    exact hi j (by omega) (by rw [List.getElem?_eq_getElem hj, hx])
  | succ rounds ih =>
    unfold scanFrom
    split
    · -- the list has no other `x`, so the rest of the loop changes nothing
      rename_i hx
      obtain ⟨hlt, he⟩ := List.getElem?_eq_some_iff.1 hx
      have hperm := swapErase_perm hlt
      rw [he] at hperm
      obtain ⟨hnot, hnd⟩ := List.nodup_cons.1 (hperm.nodup_iff.2 hl)
      rw [scanFrom_of_not_mem hnot]
      refine ⟨hnd, fun y => ?_⟩
      rw [← hperm.mem_iff, List.mem_cons]
      constructor
      · intro hy
        exact ⟨.inr hy, fun h => hnot (h ▸ hy)⟩
      · intro hy
        exact hy.1.resolve_left hy.2
    · rename_i hx
      refine ih (fun j hj => ?_) (by omega)
      rcases Nat.lt_succ_iff_lt_or_eq.1 hj with hj | rfl
      · exact hi j hj
      · exact hx

/-- **The loop erases `x`** from a list without duplicates. -/
theorem scanErase_spec {l : List α} (hl : l.Nodup) (x : α) :
    (scanErase l x).Nodup ∧ ∀ y, y ∈ scanErase l x ↔ y ∈ l ∧ y ≠ x :=
  scanFrom_spec hl (fun j hj => absurd hj (Nat.not_lt_zero j)) (Nat.le_add_right _ _)

theorem foldl_scanErase_spec {l : List α} (xs : List α) (hl : l.Nodup) :
    (xs.foldl scanErase l).Nodup ∧ ∀ y, y ∈ xs.foldl scanErase l ↔ y ∈ l ∧ y ∉ xs := by
  induction xs generalizing l with
  | nil => exact ⟨hl, fun y => (and_iff_left List.not_mem_nil).symm⟩
  | cons x xs ih =>
    obtain ⟨hnd, hmem⟩ := scanErase_spec hl x
    obtain ⟨hnd', hmem'⟩ := ih hnd
    refine ⟨hnd', fun y => ?_⟩
    rw [List.foldl_cons, hmem', hmem, List.mem_cons, not_or, and_assoc]

end

end Msyn
