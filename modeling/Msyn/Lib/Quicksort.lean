import Mathlib.Algebra.GroupWithZero.Nat
import Mathlib.Data.List.GetD
import Mathlib.Data.List.Perm.Basic
import Mathlib.Order.Basic
import Msyn.Lib.Loop

/-!
# Quicksort in place

Sorting a list by a key, larger keys first, with a partition that moves a hole: the pivot is taken
out at `low`, entries are moved into the hole from the right and from the left in turn, and the
pivot is put where the hole ends. The ranges that are left are kept on a stack.

* `set_hole_perm`: moving an entry into the hole permutes the list with the pivot in the hole.
* `partition_parted`: a partition ends, with the range parted at the place of the pivot.
* `sort_sorted`: the sort ends, with a permutation in which the keys do not increase.
-/

namespace Msyn.Quicksort

variable {α β : Type*} [Inhabited α] [LinearOrder β] (key : α → β)

/-! ## The partition -/

section
variable (l : List α) (pivot : α)

/-- `while (low < high && key(l[high]) <= key(pivot)) high--;`. -/
def fromRight (low : Nat) : Nat → Nat
  | 0 => 0
  | high + 1 =>
    if low < high + 1 ∧ key (l.getD (high + 1) default) ≤ key pivot then fromRight low high
    else high + 1

/-- `while (low < high && key(l[low]) >= key(pivot)) low++;`, where `high = low + d`. -/
def fromLeft : Nat → Nat → Nat
  | 0, low => low
  | d + 1, low => if key pivot ≤ key (l.getD low default) then fromLeft d (low + 1) else low

end

/-- One round of `while (low < high)`; at its end the pivot is put into the hole. -/
def partitionStep (pivot : α) (s : List α × Nat × Nat) : (List α × Nat × Nat) ⊕ (List α × Nat) :=
  if s.2.1 < s.2.2 then
    let high := fromRight key s.1 pivot s.2.1 s.2.2
    let l := s.1.set s.2.1 (s.1.getD high default)
    let low := fromLeft key l pivot (high - s.2.1) s.2.1
    .inl (l.set high (l.getD low default), low, high)
  else .inr (s.1.set s.2.1 pivot, s.2.1)

def partition (l : List α) (low high : Nat) : Option (List α × Nat) :=
  loop (partitionStep key (l.getD low default)) (high - low + 1) (l, low, high)

/-! ## The sort -/

/-- The parts beside the pivot that have more than one entry. -/
def parts (low mid high : Nat) : List (Nat × Nat) :=
  (if mid + 1 < high then [(mid + 1, high)] else []) ++ if low + 1 < mid then [(low, mid - 1)] else []

/-- One partition, of the range on the top of the stack. -/
def sortStep (s : List α × List (Nat × Nat)) :
    (List α × List (Nat × Nat)) ⊕ Option (List α) :=
  match s.2 with
  | [] => .inr (some s.1)
  | (low, high) :: rest =>
    match partition key s.1 low high with
    | some (l, mid) => .inl (l, parts low mid high ++ rest)
    | none => .inr none

def sort (l : List α) : Option (List α) :=
  (loop (sortStep key) (l.length + 2) (l, [(0, l.length - 1)])).join

/-! ## Permutations -/

/-- Moving the entry at `v` into the hole at `u`. -/
theorem set_hole_perm {l : List α} {u v : Nat} (hu : u < l.length) (hv : v < l.length) (x : α) :
    ((l.set u (l.getD v default)).set v x).Perm (l.set u x) := by
  rw [List.getD_eq_getElem l default hv]
  by_cases he : u = v
  · subst he
    rw [List.set_set]
  have h := @List.set_set_perm _ (l.set u x) u v (by simpa using hu) (by simpa using hv)
  rwa [List.set_set, List.getElem_set_of_ne he, List.getElem_set_self] at h

section
variable {l : List α} (pivot : α)

theorem fromRight_spec (low high : Nat) (h : low ≤ high) :
    low ≤ fromRight key l pivot low high ∧ fromRight key l pivot low high ≤ high ∧
      (low < high → fromRight key l pivot low high = high →
        ¬ key (l.getD high default) ≤ key pivot) := by
  induction high with
  | zero => exact ⟨h, le_rfl, fun hlt => absurd hlt (Nat.not_lt_zero _)⟩
  | succ high ih =>
    unfold fromRight
    split
    · rename_i hc
      obtain ⟨h1, h2, -⟩ := ih (by omega)
      exact ⟨h1, by omega, fun _ he => by omega⟩
    · rename_i hc
      exact ⟨h, le_rfl, fun hlt _ hle => hc ⟨hlt, hle⟩⟩

theorem fromLeft_spec (d low : Nat) :
    low ≤ fromLeft key l pivot d low ∧ fromLeft key l pivot d low ≤ low + d ∧
      (0 < d → key pivot ≤ key (l.getD low default) → low < fromLeft key l pivot d low) := by
  induction d generalizing low with
  | zero => exact ⟨le_rfl, le_rfl, fun h => absurd h (Nat.lt_irrefl _)⟩
  | succ d ih =>
    unfold fromLeft
    split
    · obtain ⟨h1, h2, -⟩ := ih (low + 1)
      exact ⟨by omega, by omega, fun _ _ => by omega⟩
    · rename_i hc
      exact ⟨le_rfl, by omega, fun _ hle => absurd hle hc⟩

/-- The entries that were passed from the right. -/
theorem fromRight_passed (low high : Nat) : ∀ i, fromRight key l pivot low high < i → i ≤ high →
    key (l.getD i default) ≤ key pivot := by
  induction high with
  | zero => exact fun i h1 h2 => absurd h1 (by simp only [fromRight]; omega)
  | succ high ih =>
    intro i h1 h2
    unfold fromRight at h1
    split at h1
    · rename_i hc
      by_cases hi : i = high + 1
      · exact hi ▸ hc.2
      · exact ih i h1 (by omega)
    · omega

/-- The entries that were passed from the left. -/
theorem fromLeft_passed (d low : Nat) : ∀ i, low ≤ i → i < fromLeft key l pivot d low →
    key pivot ≤ key (l.getD i default) := by
  induction d generalizing low with
  | zero => exact fun i h1 h2 => absurd h2 (by simp only [fromLeft]; omega)
  | succ d ih =>
    intro i h1 h2
    unfold fromLeft at h2
    split at h2
    · rename_i hc
      by_cases hi : i = low
      · exact hi ▸ hc
      · exact ih (low + 1) i (by omega) h2
    · omega

end

/-- What the rounds of a partition keep: with the pivot in the hole the list is a permutation. -/
structure Hole (l : List α) (pivot : α) (low high : Nat) (s : List α × Nat × Nat) : Prop where
  perm : (s.1.set s.2.1 pivot).Perm l
  low : low ≤ s.2.1
  le : s.2.1 ≤ s.2.2
  high : s.2.2 ≤ high

theorem Hole.step {l : List α} {pivot : α} {low high : Nat} {s s' : List α × Nat × Nat}
    (h : Hole l pivot low high s) (hh : high < l.length)
    (hs : partitionStep key pivot s = .inl s') :
    Hole l pivot low high s' ∧ s'.2.2 - s'.2.1 < s.2.2 - s.2.1 := by
  obtain ⟨hp, hl, hle, hhi⟩ := h
  unfold partitionStep at hs
  split at hs
  · rename_i hlt
    cases hs
    have hlen : s.1.length = l.length := by simpa using hp.length_eq
    obtain ⟨a1, a2, a3⟩ := fromRight_spec (l := s.1) key pivot _ _ hle
    generalize fromRight key s.1 pivot s.2.1 s.2.2 = high' at a1 a2 a3 ⊢
    obtain ⟨b1, b2, b3⟩ := fromLeft_spec (l := s.1.set s.2.1 (s.1.getD high' default)) key pivot
      (high' - s.2.1) s.2.1
    generalize fromLeft key (s.1.set s.2.1 (s.1.getD high' default)) pivot (high' - s.2.1) s.2.1 =
      low' at b1 b2 b3 ⊢
    refine ⟨⟨?_, by simp only; omega, by simp only; omega, by simp only; omega⟩, ?_⟩
    · -- the hole moves to `high'` and from there to `low'`
      refine (set_hole_perm (by simp; omega) (by simp; omega) _).trans ?_
      exact (set_hole_perm (by omega) (by omega) _).trans hp
    · show high' - low' < s.2.2 - s.2.1
      by_cases he : high' = s.2.2
      · -- the entry that was moved from `high` is passed over
        have hmove := b3 (by omega) (by
          rw [List.getD_eq_getElem _ _ (by simp; omega), List.getElem_set_self, he]
          exact le_of_not_ge (a3 hlt he))
        omega
      · omega
  · cases hs

/-- Moreover the entries that were passed are on their sides, and nothing else was touched. -/
structure Sides (l : List α) (pivot : α) (low high : Nat) (s : List α × Nat × Nat) : Prop where
  left : ∀ i, low ≤ i → i < s.2.1 → key pivot ≤ key (s.1.getD i default)
  right : ∀ i, s.2.2 < i → i ≤ high → key (s.1.getD i default) ≤ key pivot
  outside : ∀ i, i < low ∨ high < i → s.1.getD i default = l.getD i default

theorem getD_set_of_ne {l : List α} {i j : Nat} (h : j ≠ i) (x : α) :
    (l.set j x).getD i default = l.getD i default := by
  simp only [List.getD_eq_getElem?_getD, List.getElem?_set_ne h]

theorem getD_set_self {l : List α} {i : Nat} (h : i < l.length) (x : α) :
    (l.set i x).getD i default = x := by
  rw [List.getD_eq_getElem _ _ (by simpa using h), List.getElem_set_self]

theorem Sides.step {l : List α} {pivot : α} {low high : Nat} {s s' : List α × Nat × Nat}
    (h : Sides key l pivot low high s) (hh : Hole l pivot low high s)
    (hs : partitionStep key pivot s = .inl s') : Sides key l pivot low high s' := by
  obtain ⟨-, hl, hle, hhi⟩ := hh
  obtain ⟨hleft, hright, hout⟩ := h
  unfold partitionStep at hs
  split at hs
  · rename_i hlt
    cases hs
    obtain ⟨a1, a2, -⟩ := fromRight_spec (l := s.1) key pivot _ _ hle
    have hpr := fromRight_passed (l := s.1) key pivot s.2.1 s.2.2
    generalize fromRight key s.1 pivot s.2.1 s.2.2 = high' at a1 a2 hpr ⊢
    obtain ⟨b1, b2, -⟩ := fromLeft_spec (l := s.1.set s.2.1 (s.1.getD high' default)) key pivot
      (high' - s.2.1) s.2.1
    have hpl := fromLeft_passed (l := s.1.set s.2.1 (s.1.getD high' default)) key pivot
      (high' - s.2.1) s.2.1
    generalize fromLeft key (s.1.set s.2.1 (s.1.getD high' default)) pivot (high' - s.2.1) s.2.1 =
      low' at b1 b2 hpl ⊢
    refine ⟨fun i h1 h2 => ?_, fun i h1 h2 => ?_, fun i hi => ?_⟩
    · have h2' : i < low' := h2
      show key pivot ≤ key (((s.1.set _ _).set _ _).getD i default)
      rw [getD_set_of_ne (by omega)]
      by_cases hi : i < s.2.1
      · rw [getD_set_of_ne (by omega)]
        exact hleft i h1 hi
      · exact hpl i (by omega) h2'
    · have h1' : high' < i := h1
      show key (((s.1.set _ _).set _ _).getD i default) ≤ key pivot
      rw [getD_set_of_ne (by omega), getD_set_of_ne (by omega)]
      by_cases hi : s.2.2 < i
      · exact hright i hi h2
      · exact hpr i h1' (by omega)
    · show ((s.1.set _ _).set _ _).getD i default = _
      rw [getD_set_of_ne (by omega), getD_set_of_ne (by omega)]
      exact hout i hi
  · cases hs

/-- The range is permuted such that the entries before `mid` are not smaller than the one there,
and those after it are not larger. -/
structure Parted (l : List α) (low high : Nat) (r : List α × Nat) : Prop where
  perm : r.1.Perm l
  le_mid : low ≤ r.2
  mid_le : r.2 ≤ high
  left : ∀ i, low ≤ i → i < r.2 → key (r.1.getD r.2 default) ≤ key (r.1.getD i default)
  right : ∀ i, r.2 < i → i ≤ high → key (r.1.getD i default) ≤ key (r.1.getD r.2 default)
  outside : ∀ i, i < low ∨ high < i → r.1.getD i default = l.getD i default

/-- **A partition ends**, with the range parted at the place of the pivot. -/
theorem partition_parted (l : List α) {low high : Nat} (hlh : low ≤ high) (hh : high < l.length) :
    ∃ r, partition key l low high = some r ∧ Parted key l low high r := by
  refine loop_total
    (I := fun s => Hole l (l.getD low default) low high s ∧ Sides key l (l.getD low default) low high s)
    (fun s => s.2.2 - s.2.1) (fun s s' hi hs => ?_) (fun s r hi hs => ?_) ⟨⟨?_, le_rfl, hlh, le_rfl⟩,
      fun i h1 h2 => ?_, fun i h1 h2 => ?_, fun i _ => rfl⟩ (Nat.lt_succ_self _)
  · obtain ⟨h1, h2⟩ := hi.1.step key hh hs
    exact ⟨⟨h1, hi.2.step key hi.1 hs⟩, h2⟩
  · obtain ⟨⟨hp, hl, hle, hhi⟩, hleft, hright, hout⟩ := hi
    have hlen : s.1.length = l.length := by simpa using hp.length_eq
    unfold partitionStep at hs
    split at hs
    · cases hs
    · rename_i hge
      cases hs
      have hself := getD_set_self (l := s.1) (i := s.2.1) (by omega) (l.getD low default)
      refine ⟨hp, hl, hle.trans hhi, fun i h1 h2 => ?_, fun i h1 h2 => ?_, fun i hi => ?_⟩
      · have h2' : i < s.2.1 := h2
        show key ((s.1.set _ _).getD s.2.1 default) ≤ _
        rw [hself, getD_set_of_ne (by omega)]
        exact hleft i h1 h2'
      · have h1' : s.2.1 < i := h1
        show _ ≤ key ((s.1.set _ _).getD s.2.1 default)
        rw [hself, getD_set_of_ne (by omega)]
        exact hright i (by omega) h2
      · show (s.1.set _ _).getD i default = _
        rw [getD_set_of_ne (by omega)]
        exact hout i hi
  · show (l.set low (l.getD low default)).Perm l
    rw [List.getD_eq_getElem _ _ (by omega), List.set_getElem_self]
  · exact absurd h2 (Nat.not_lt.2 h1)
  · exact absurd h2 (Nat.not_le.2 h1)

theorem partition_spec (l : List α) {low high : Nat} (hlh : low ≤ high) (hh : high < l.length) :
    ∃ r, partition key l low high = some r ∧ r.1.Perm l ∧ low ≤ r.2 ∧ r.2 ≤ high := by
  obtain ⟨r, h1, h2⟩ := partition_parted key l hlh hh
  exact ⟨r, h1, h2.perm, h2.le_mid, h2.mid_le⟩

/-- The number of entries of the ranges on the stack. -/
def stackSize (stack : List (Nat × Nat)) : Nat := (stack.map fun p => p.2 - p.1 + 1).sum

theorem stackSize_parts {low mid high : Nat} (h1 : low ≤ mid) (h2 : mid ≤ high) :
    stackSize (parts low mid high) ≤ high - low := by
  unfold parts
  split <;> split <;> simp only [stackSize, List.append_nil, List.nil_append, List.cons_append,
    List.map_cons, List.map_nil, List.sum_cons, List.sum_nil] <;> omega

theorem parts_range {low mid high : Nat} (h : mid ≤ high) :
    ∀ p ∈ parts low mid high, p.1 ≤ p.2 ∧ p.2 ≤ high := by
  intro p hp
  unfold parts at hp
  rcases List.mem_append.1 hp with hp | hp
  · split at hp
    · rw [List.mem_singleton.1 hp]
      exact ⟨by simp only; omega, le_rfl⟩
    · cases hp
  · split at hp
    · rw [List.mem_singleton.1 hp]
      exact ⟨by simp only; omega, by simp only; omega⟩
    · cases hp

/-- What the partitions keep. -/
structure Ranges (l : List α) (s : List α × List (Nat × Nat)) : Prop where
  perm : s.1.Perm l
  range : ∀ p ∈ s.2, p.1 ≤ p.2 ∧ p.2 < l.length

theorem Ranges.step {l : List α} {s s' : List α × List (Nat × Nat)} (h : Ranges l s)
    (hs : sortStep key s = .inl s') : Ranges l s' ∧ stackSize s'.2 < stackSize s.2 := by
  unfold sortStep at hs
  split at hs
  · cases hs
  · rename_i low high rest he
    obtain ⟨h1, h2⟩ := h.range (low, high) (by rw [he]; simp)
    obtain ⟨⟨l', mid⟩, hpart, hp, h3, h4⟩ := partition_spec key s.1 h1 (h.perm.length_eq ▸ h2)
    simp only at h1 h2 hp h3 h4
    rw [hpart] at hs
    cases hs
    refine ⟨⟨hp.trans h.perm, fun p hmem => ?_⟩, ?_⟩
    · rcases List.mem_append.1 hmem with hmem | hmem
      · obtain ⟨h5, h6⟩ := parts_range h4 p hmem
        exact ⟨h5, by omega⟩
      · exact h.range p (by rw [he]; simp [hmem])
    · have hparts := stackSize_parts h3 h4
      rw [he]
      simp only [stackSize, List.map_append, List.sum_append, List.map_cons, List.sum_cons]
        at hparts ⊢
      omega

/-! ## The order -/

/-- A list that agrees outside of a range and is a permutation permutes the range. -/
theorem mem_range_of_perm {l l' : List α} {low high : Nat} (hp : l'.Perm l)
    (hout : ∀ i, i < low ∨ high < i → l'.getD i default = l.getD i default) {i : Nat}
    (h1 : low ≤ i) (h2 : i ≤ high) (h3 : i < l.length) :
    ∃ j, low ≤ j ∧ j ≤ high ∧ j < l.length ∧ l'.getD i default = l.getD j default := by
  have hlen := hp.length_eq
  have htake : l'.take low = l.take low := by
    refine List.ext_getElem (by simp [hlen]) fun k hk hk' => ?_
    have hkl : k < low := by simp at hk; omega
    have := hout k (.inl hkl)
    rw [List.getElem_take, List.getElem_take]
    rwa [List.getD_eq_getElem _ _ (by simp at hk; omega),
      List.getD_eq_getElem _ _ (by simp at hk'; omega)] at this
  have hdrop : l'.drop (high + 1) = l.drop (high + 1) := by
    refine List.ext_getElem (by simp [hlen]) fun k hk hk' => ?_
    have := hout (high + 1 + k) (.inr (by omega))
    rw [List.getElem_drop, List.getElem_drop]
    rwa [List.getD_eq_getElem _ _ (by simp at hk; omega),
      List.getD_eq_getElem _ _ (by simp at hk'; omega)] at this
  have hsplit : ∀ m : List α, m = m.take low ++ ((m.drop low).take (high + 1 - low) ++
      m.drop (high + 1)) := by
    intro m
    have hd : m.drop (high + 1) = (m.drop low).drop (high + 1 - low) := by
      rw [List.drop_drop]
      congr 1
      omega
    rw [hd, List.take_append_drop, List.take_append_drop]
  have hmid : ((l'.drop low).take (high + 1 - low)).Perm ((l.drop low).take (high + 1 - low)) := by
    have h := hp
    rw [hsplit l', hsplit l, htake, hdrop] at h
    exact (List.perm_append_right_iff _).1 ((List.perm_append_left_iff _).1 h)
  have hmem : l'.getD i default ∈ (l'.drop low).take (high + 1 - low) := by
    refine List.mem_iff_getElem.2 ⟨i - low, by simp; omega, ?_⟩
    rw [List.getElem_take, List.getElem_drop, List.getD_eq_getElem _ _ (by omega)]
    congr 1
    omega
  obtain ⟨k, hk, he⟩ := List.mem_iff_getElem.1 (hmid.mem_iff.1 hmem)
  have hk' : k < high + 1 - low ∧ low + k < l.length := by simp at hk; omega
  refine ⟨low + k, by omega, by omega, hk'.2, ?_⟩
  rw [← he, List.getElem_take, List.getElem_drop, List.getD_eq_getElem _ _ hk'.2]

/-- Two places are in order, or in one range that is still to be sorted; these are disjoint. -/
structure Pending (s : List α × List (Nat × Nat)) : Prop where
  ordered : ∀ i j, i < j → j < s.1.length → (∃ p ∈ s.2, p.1 ≤ i ∧ j ≤ p.2) ∨
    key (s.1.getD j default) ≤ key (s.1.getD i default)
  disjoint : s.2.Pairwise fun p q => p.2 < q.1 ∨ q.2 < p.1

theorem parts_sub {low mid high : Nat} {p : Nat × Nat} (hp : p ∈ parts low mid high) :
    (mid < p.1 ∧ p.2 = high) ∨ (p.1 = low ∧ p.2 < mid) := by
  unfold parts at hp
  rcases List.mem_append.1 hp with hp | hp
  · split at hp
    · rw [List.mem_singleton.1 hp]
      exact .inl ⟨by simp, rfl⟩
    · cases hp
  · split at hp
    · rw [List.mem_singleton.1 hp]
      exact .inr ⟨rfl, by simp only; omega⟩
    · cases hp

theorem parts_disjoint (low mid high : Nat) :
    (parts low mid high).Pairwise fun p q => p.2 < q.1 ∨ q.2 < p.1 := by
  unfold parts
  split <;> split
  · refine List.pairwise_pair.2 ?_
    simp only
    omega
  · exact List.pairwise_singleton _ _
  · exact List.pairwise_singleton _ _
  · exact List.Pairwise.nil

/-- Inside of the range that was parted. -/
theorem Parted.ordered {l : List α} {low high mid : Nat} {l' : List α} {rest : List (Nat × Nat)}
    (h : Parted key l low high (l', mid)) {i j : Nat} (hi : low ≤ i) (hij : i < j) (hj : j ≤ high) :
    (∃ p ∈ parts low mid high ++ rest, p.1 ≤ i ∧ j ≤ p.2) ∨
      key (l'.getD j default) ≤ key (l'.getD i default) := by
  by_cases hjm : j < mid
  · have hpart : (low, mid - 1) ∈ parts low mid high := by
      have hlt : low + 1 < mid := by omega
      rw [parts, if_pos hlt]
      simp
    exact .inl ⟨_, List.mem_append_left _ hpart, hi, by simp only; omega⟩
  by_cases him : mid < i
  · have hpart : (mid + 1, high) ∈ parts low mid high := by
      have hlt : mid + 1 < high := by omega
      rw [parts, if_pos hlt]
      simp
    exact .inl ⟨_, List.mem_append_left _ hpart, by simp only; omega, hj⟩
  · have hl : i = mid ∨ key (l'.getD mid default) ≤ key (l'.getD i default) := by
      by_cases he : i = mid
      · exact .inl he
      · exact .inr (h.left i hi (show i < mid by omega))
    have hr : j = mid ∨ key (l'.getD j default) ≤ key (l'.getD mid default) := by
      by_cases he : j = mid
      · exact .inl he
      · exact .inr (h.right j (show mid < j by omega) hj)
    rcases hl with rfl | hl
    · exact .inr (hr.resolve_left (by omega))
    · rcases hr with rfl | hr
      · exact .inr hl
      · exact .inr (hr.trans hl)

theorem Pending.step {l : List α} {s s' : List α × List (Nat × Nat)} (h : Pending key s)
    (hr : Ranges l s) (hs : sortStep key s = .inl s') : Pending key s' := by
  unfold sortStep at hs
  split at hs
  · cases hs
  · rename_i low high rest he
    obtain ⟨h1, h2⟩ := hr.range (low, high) (by rw [he]; simp)
    simp only at h1 h2
    have hlen := hr.perm.length_eq
    obtain ⟨⟨l', mid⟩, hpart, hp⟩ := partition_parted key s.1 h1 (hlen ▸ h2)
    rw [hpart] at hs
    cases hs
    have hlen' : l'.length = s.1.length := hp.perm.length_eq
    have hdis := h.disjoint
    rw [he, List.pairwise_cons] at hdis
    have hold : ∀ i j, i < j → j < s.1.length → (low ≤ i ∧ j ≤ high) ∨
        (∃ p ∈ rest, p.1 ≤ i ∧ j ≤ p.2) ∨ key (s.1.getD j default) ≤ key (s.1.getD i default) := by
      intro i j hij hj
      have := h.ordered i j hij hj
      rwa [he, List.exists_mem_cons_iff, or_assoc] at this
    refine ⟨fun i j hij hj => ?_,
      List.pairwise_append.2 ⟨parts_disjoint .., hdis.2, fun p hp' q hq => ?_⟩⟩
    · have hj : j < s.1.length := hlen' ▸ hj
      have hkeep : (∃ p ∈ rest, p.1 ≤ i ∧ j ≤ p.2) → ∃ p ∈ parts low mid high ++ rest,
          p.1 ≤ i ∧ j ≤ p.2 := by
        intro h
        obtain ⟨p, hp, hle⟩ := h
        exact ⟨p, List.mem_append_right _ hp, hle⟩
      by_cases hi : low ≤ i ∧ i ≤ high
      · by_cases hjr : j ≤ high
        · exact hp.ordered key hi.1 hij hjr
        · -- the entry at `i` comes from the range, the one at `j` is where it was
          obtain ⟨k, k1, k2, k3, hk⟩ := mem_range_of_perm hp.perm hp.outside hi.1 hi.2 (by omega)
          simp only at hk ⊢
          rw [hk, hp.outside j (by omega)]
          rcases hold k j (by omega) hj with hr | ⟨p, hp', hle⟩ | hle
          · omega
          · have := hdis.1 p hp'
            simp only at this
            omega
          · exact .inr hle
      · by_cases hjr : low ≤ j ∧ j ≤ high
        · obtain ⟨k, k1, k2, k3, hk⟩ := mem_range_of_perm hp.perm hp.outside hjr.1 hjr.2 hj
          simp only at hk ⊢
          rw [hk, hp.outside i (by omega)]
          rcases hold i k (by omega) k3 with hr | ⟨p, hp', hle⟩ | hle
          · omega
          · have := hdis.1 p hp'
            simp only at this
            omega
          · exact .inr hle
        · simp only
          rw [hp.outside j (by omega), hp.outside i (by omega)]
          rcases hold i j hij hj with hr | hr | hle
          · omega
          · exact .inl (hkeep hr)
          · exact .inr hle
    · have hpq := hdis.1 q hq
      have := parts_sub hp'
      have := hp.le_mid
      have := hp.mid_le
      simp only at *
      omega

/-- What the partitions keep at the start of the sort. -/
theorem start_inv {l : List α} (hne : l ≠ []) :
    Ranges l (l, [(0, l.length - 1)]) ∧ Pending key (l, [(0, l.length - 1)]) := by
  have hpos : 0 < l.length := List.length_pos_iff.2 hne
  refine ⟨⟨.refl _, fun p hp => ?_⟩,
    fun i j hij hj => .inl ⟨_, List.mem_singleton_self _, Nat.zero_le _, ?_⟩, by simp⟩
  · rw [List.mem_singleton.1 hp]
    exact ⟨Nat.zero_le _, by simp only; omega⟩
  · have hj : j < l.length := hj
    simp only
    omega

/-- **The sort ends**, with a permutation in which the keys do not increase. -/
theorem sort_sorted {l : List α} (hne : l ≠ []) :
    ∃ l', sort key l = some l' ∧ l'.Perm l ∧ l'.Pairwise fun a b => key b ≤ key a := by
  have hpos : 0 < l.length := List.length_pos_iff.2 hne
  have hsize : stackSize [(0, l.length - 1)] = l.length := by
    simp only [stackSize, List.map_cons, List.map_nil, List.sum_cons, List.sum_nil]
    omega
  have hloop : ∃ r, loop (sortStep key) (l.length + 2) (l, [(0, l.length - 1)]) = some r ∧
      ∃ l', r = some l' ∧ l'.Perm l ∧ l'.Pairwise fun a b => key b ≤ key a := by
    refine loop_total (I := fun s => Ranges l s ∧ Pending key s) (fun s => stackSize s.2)
      (fun s s' hi hs => ?_) (fun s r hi hs => ?_) (start_inv key hne) (by rw [hsize]; omega)
    · obtain ⟨h1, h2⟩ := hi.1.step key hs
      exact ⟨⟨h1, hi.2.step key hi.1 hs⟩, h2⟩
    · unfold sortStep at hs
      split at hs
      · rename_i hempty
        cases hs
        refine ⟨_, rfl, hi.1.perm, List.pairwise_iff_getElem.2 fun i j hi1 hj1 hij => ?_⟩
        rcases hi.2.ordered i j hij hj1 with ⟨p, hp, -⟩ | hle
        · rw [hempty] at hp
          cases hp
        · rwa [List.getD_eq_getElem _ _ hi1, List.getD_eq_getElem _ _ hj1] at hle
      · rename_i low high rest he
        obtain ⟨h1, h2⟩ := hi.1.range (low, high) (by rw [he]; simp)
        obtain ⟨r', hpart, -⟩ := partition_spec key s.1 h1 (hi.1.perm.length_eq ▸ h2)
        rw [hpart] at hs
        cases hs
  obtain ⟨r, hr, l', rfl, hp⟩ := hloop
  exact ⟨l', by rw [sort, hr]; rfl, hp⟩

theorem sort_spec {l : List α} (hne : l ≠ []) : ∃ l', sort key l = some l' ∧ l'.Perm l := by
  obtain ⟨l', h1, h2, -⟩ := sort_sorted key hne
  exact ⟨l', h1, h2⟩

/-- A sort only permutes. -/
theorem sort_perm {l l' : List α} (hne : l ≠ []) (h : sort key l = some l') : l'.Perm l := by
  obtain ⟨l1, h1, hp⟩ := sort_spec key hne
  rw [h1, Option.some.injEq] at h
  exact h ▸ hp

end Msyn.Quicksort
