import Msyn.Select.MinCol

/-!
# SortWei

`SortWei` with every access to `sol` and to `signals` tested: `none` where an index is out of range.
On columns in range no test fails, so that the sort is the one of the library (`sortWeiIn_eq`) and
ends with the weights in order (`sortWei_sorts`).
-/

namespace Msyn.SC

open Nodecircuit

namespace Setcover

variable (s : Setcover)

/-- `signals[p]->weight`, if there is one. -/
def weightIn (p : Nat) : Option Int := s.signals[p]?.map s.weight

/-- `sol[i] = p`. -/
def putIn (sol : List Nat) (i p : Nat) : Option (List Nat) :=
  if i < sol.length then some (sol.set i p) else none

/-- `while (low < high && signals[sol[high]]->weight <= signals[pivot]->weight) high--;`. -/
def fromRightIn (sol : List Nat) (pivot low : Nat) : Nat → Option Nat
  | 0 => some 0
  | high + 1 =>
    if low < high + 1 then do
      let w ← (← sol[high + 1]?.map s.weightIn)
      let wp ← s.weightIn pivot
      if w ≤ wp then fromRightIn sol pivot low high else some (high + 1)
    else some (high + 1)

/-- `while (low < high && signals[sol[low]]->weight >= signals[pivot]->weight) low++;`, where
`high = low + d`. -/
def fromLeftIn (sol : List Nat) (pivot : Nat) : Nat → Nat → Option Nat
  | 0, low => some low
  | d + 1, low => do
    let w ← (← sol[low]?.map s.weightIn)
    let wp ← s.weightIn pivot
    if wp ≤ w then fromLeftIn sol pivot d (low + 1) else some low

/-- One round of `while (low < high)`. -/
def partitionRound (pivot : Nat) (sol : List Nat) (low high : Nat) :
    Option (List Nat × Nat × Nat) := do
  let high ← s.fromRightIn sol pivot low high
  let sol ← putIn sol low (← sol[high]?)
  let low' ← s.fromLeftIn sol pivot (high - low) low
  let sol ← putIn sol high (← sol[low']?)
  some (sol, low', high)

def partitionStepIn (pivot : Nat) (st : List Nat × Nat × Nat) :
    (List Nat × Nat × Nat) ⊕ Option (List Nat × Nat) :=
  if st.2.1 < st.2.2 then
    match s.partitionRound pivot st.1 st.2.1 st.2.2 with
    | some st => .inl st
    | none => .inr none
  else .inr ((putIn st.1 st.2.1 pivot).map (·, st.2.1))

def partitionWei (sol : List Nat) (low high : Nat) : Option (List Nat × Nat) := do
  let pivot ← sol[low]?
  (loop (s.partitionStepIn pivot) (high - low + 1) (sol, low, high)).join

/-- One partition, of the range on the top of the stack `pivots`. -/
def sortWeiStep (st : List Nat × List (Nat × Nat)) :
    (List Nat × List (Nat × Nat)) ⊕ Option (List Nat) :=
  match st.2 with
  | [] => .inr (some st.1)
  | (low, high) :: rest =>
    match s.partitionWei st.1 low high with
    | some (sol, mid) => .inl (sol, Quicksort.parts low mid high ++ rest)
    | none => .inr none

/-- `SortWei`; the partition before the loop is that of the range `[0, size - 1]`. -/
def sortWeiIn (sol : List Nat) : Option (List Nat) :=
  (loop s.sortWeiStep (sol.length + 2) (sol, [(0, sol.length - 1)])).join

/-! ## The tests pass -/

/-- The columns are columns of the matrix. -/
def InMatrix (sol : List Nat) : Prop := ∀ p ∈ sol, p < s.signals.length

section
variable {s} {sol : List Nat}

theorem weightIn_eq {p : Nat} (hp : p < s.signals.length) : s.weightIn p = some (s.weightOf p) := by
  rw [weightIn, weightOf, List.getElem?_eq_getElem hp, List.getD_eq_getElem _ _ hp, Option.map_some]

theorem getElem?_eq_getD {i : Nat} (hi : i < sol.length) : sol[i]? = some (sol.getD i default) := by
  rw [List.getElem?_eq_getElem hi, List.getD_eq_getElem _ _ hi]

theorem InMatrix.getD (h : s.InMatrix sol) {i : Nat} (hi : i < sol.length) :
    sol.getD i default < s.signals.length := by
  rw [List.getD_eq_getElem _ _ hi]
  exact h _ (List.getElem_mem hi)

theorem InMatrix.set (h : s.InMatrix sol) {p : Nat} (hp : p < s.signals.length) (i : Nat) :
    s.InMatrix (sol.set i p) := by
  intro q hq
  rcases List.mem_or_eq_of_mem_set hq with hq | rfl
  · exact h q hq
  · exact hp

theorem InMatrix.read (h : s.InMatrix sol) {i : Nat} (hi : i < sol.length) :
    (do let w ← (← sol[i]?.map s.weightIn); some w) = some (s.weightOf (sol.getD i default)) := by
  rw [getElem?_eq_getD hi]
  show (s.weightIn _).bind some = _
  rw [weightIn_eq (h.getD hi)]
  rfl

section
variable (hsol : s.InMatrix sol) {pivot : Nat} (hpivot : pivot < s.signals.length)
include hsol hpivot

theorem fromRightIn_eq (low high : Nat) (hh : high < sol.length) :
    s.fromRightIn sol pivot low high =
      some (Quicksort.fromRight s.weightOf sol pivot low high) := by
  induction high with
  | zero => rfl
  | succ high ih =>
    unfold fromRightIn Quicksort.fromRight
    by_cases hlt : low < high + 1
    · rw [if_pos hlt, getElem?_eq_getD hh, Option.map_some]
      simp only [bind, Option.bind_some, weightIn_eq (hsol.getD hh), weightIn_eq hpivot, hlt, true_and]
      split
      · exact ih (by omega)
      · rfl
    · have hno : ¬(low < high + 1 ∧
        s.weightOf (sol.getD (high + 1) default) ≤ s.weightOf pivot) := fun h => hlt h.1
      rw [if_neg hlt, if_neg hno]

theorem fromLeftIn_eq (d low : Nat) (hd : low + d ≤ sol.length) :
    s.fromLeftIn sol pivot d low = some (Quicksort.fromLeft s.weightOf sol pivot d low) := by
  induction d generalizing low with
  | zero => rfl
  | succ d ih =>
    have hlow : low < sol.length := by omega
    unfold fromLeftIn Quicksort.fromLeft
    rw [getElem?_eq_getD hlow, Option.map_some]
    simp only [bind, Option.bind_some, weightIn_eq (hsol.getD hlow), weightIn_eq hpivot]
    split
    · exact ih (low + 1) (by omega)
    · rfl

end

theorem putIn_eq {i : Nat} (hi : i < sol.length) (p : Nat) : putIn sol i p = some (sol.set i p) :=
  if_pos hi

/-- What the rounds of a partition keep. -/
structure RoundInv (s : Setcover) (pivot n : Nat) (st : List Nat × Nat × Nat) : Prop where
  columns : s.InMatrix st.1
  length : st.1.length = n
  pivot : pivot < s.signals.length
  le : st.2.1 ≤ st.2.2
  lt : st.2.2 < n

theorem RoundInv.step_eq {pivot n : Nat} {st : List Nat × Nat × Nat} (h : RoundInv s pivot n st) :
    s.partitionStepIn pivot st =
      (Quicksort.partitionStep s.weightOf pivot st).map id some := by
  obtain ⟨hcol, hlen, hpivot, hle, hlt⟩ := h
  unfold partitionStepIn Quicksort.partitionStep
  split
  · have hround : s.partitionRound pivot st.1 st.2.1 st.2.2 =
        some (let high := Quicksort.fromRight s.weightOf st.1 pivot st.2.1 st.2.2
          let l := st.1.set st.2.1 (st.1.getD high default)
          let low := Quicksort.fromLeft s.weightOf l pivot (high - st.2.1) st.2.1
          (l.set high (l.getD low default), low, high)) := by
      obtain ⟨a1, a2, -⟩ := Quicksort.fromRight_spec (l := st.1) s.weightOf pivot _ _ hle
      rw [partitionRound, fromRightIn_eq hcol hpivot _ _ (by omega)]
      generalize Quicksort.fromRight s.weightOf st.1 pivot st.2.1 st.2.2 = high at a1 a2 ⊢
      have hcol' := hcol.set (hcol.getD (show high < st.1.length by omega)) st.2.1
      simp only [bind, Option.bind_some, getElem?_eq_getD (show high < st.1.length by omega),
        putIn_eq (show st.2.1 < st.1.length by omega)]
      generalize hsol : st.1.set st.2.1 (st.1.getD high default) = sol at hcol' ⊢
      have hlen' : sol.length = n := by rw [← hsol, List.length_set, hlen]
      obtain ⟨b1, b2, -⟩ :=
        Quicksort.fromLeft_spec (l := sol) s.weightOf pivot (high - st.2.1) st.2.1
      rw [fromLeftIn_eq hcol' hpivot _ _ (by omega)]
      generalize Quicksort.fromLeft s.weightOf sol pivot (high - st.2.1) st.2.1 = low at b1 b2 ⊢
      simp only [Option.bind_some, getElem?_eq_getD (show low < sol.length by omega),
        putIn_eq (show high < sol.length by omega)]
    rw [hround]
    rfl
  · rw [putIn_eq (by omega)]
    rfl

theorem RoundInv.step {pivot n : Nat} {st st' : List Nat × Nat × Nat} (h : RoundInv s pivot n st)
    (hs : Quicksort.partitionStep s.weightOf pivot st = .inl st') : RoundInv s pivot n st' := by
  obtain ⟨hcol, hlen, hpivot, hle, hlt⟩ := h
  unfold Quicksort.partitionStep at hs
  split at hs
  · cases hs
    obtain ⟨a1, a2, -⟩ := Quicksort.fromRight_spec (l := st.1) s.weightOf pivot _ _ hle
    generalize Quicksort.fromRight s.weightOf st.1 pivot st.2.1 st.2.2 = high at a1 a2 ⊢
    have hcol' := hcol.set (hcol.getD (show high < st.1.length by omega)) st.2.1
    generalize hsol : st.1.set st.2.1 (st.1.getD high default) = sol at hcol' ⊢
    have hlen' : sol.length = n := by rw [← hsol, List.length_set, hlen]
    obtain ⟨b1, b2, -⟩ := Quicksort.fromLeft_spec (l := sol) s.weightOf pivot (high - st.2.1) st.2.1
    generalize Quicksort.fromLeft s.weightOf sol pivot (high - st.2.1) st.2.1 = low at b1 b2 ⊢
    refine ⟨hcol'.set (hcol'.getD (by omega)) high, ?_, hpivot, ?_, ?_⟩
    · show (sol.set high _).length = n
      rw [List.length_set, hlen']
    · show low ≤ high
      omega
    · show high < n
      omega
  · cases hs

/-- **The tests of a partition pass.** -/
theorem partitionWei_eq {low high : Nat} (hsol : s.InMatrix sol) (hlh : low ≤ high)
    (hh : high < sol.length) :
    s.partitionWei sol low high = Quicksort.partition s.weightOf sol low high := by
  have hlow : low < sol.length := by omega
  have hinv : RoundInv s (sol.getD low default) sol.length (sol, low, high) :=
    ⟨hsol, rfl, hsol.getD hlow, hlh, hh⟩
  rw [partitionWei, getElem?_eq_getD hlow]
  show (loop (s.partitionStepIn (sol.getD low default)) _ _).join = _
  rw [loop_congr some (fun _ _ h hs => h.step hs) (fun _ h => h.step_eq) hinv,
    Quicksort.partition]
  cases loop (Quicksort.partitionStep s.weightOf (sol.getD low default)) (high - low + 1)
    (sol, low, high) <;> rfl

theorem sortWeiStep_eq {st : List Nat × List (Nat × Nat)} (hsol : s.InMatrix sol)
    (h : Quicksort.Ranges sol st) : s.sortWeiStep st = Quicksort.sortStep s.weightOf st := by
  obtain ⟨l, stack⟩ := st
  cases stack with
  | nil => rfl
  | cons p rest =>
    obtain ⟨h1, h2⟩ := h.range p (by simp)
    have hl : s.InMatrix l := fun q hq => hsol q (h.perm.mem_iff.1 hq)
    have hlen : l.length = sol.length := h.perm.length_eq
    unfold sortWeiStep Quicksort.sortStep
    simp only
    rw [partitionWei_eq hl h1 (hlen ▸ h2)]
    cases Quicksort.partition s.weightOf l p.1 p.2 <;> rfl

theorem sortWeiIn_eq (hne : sol ≠ []) (hsol : s.InMatrix sol) : s.sortWeiIn sol = s.sortWei sol := by
  have heq : ∀ st, Quicksort.Ranges sol st →
      s.sortWeiStep st = (Quicksort.sortStep s.weightOf st).map id id := fun st h => by
    rw [sortWeiStep_eq hsol h, Sum.map_id_id, id]
  have hloop := loop_congr id (fun _ _ h hs => (h.step s.weightOf hs).1) heq
    (Quicksort.start_inv s.weightOf hne).1 (sol.length + 2)
  rw [sortWeiIn, hloop, Option.map_id, id]
  rfl

/-- **`SortWei` sorts**: on columns of the matrix all indices are in range, and it ends with a
permutation in which the weights do not increase. -/
theorem sortWei_sorts (hne : sol ≠ []) (hsol : s.InMatrix sol) :
    ∃ sol', s.sortWeiIn sol = some sol' ∧ sol'.Perm sol ∧
      sol'.Pairwise fun p q => s.weightOf q ≤ s.weightOf p := by
  rw [sortWeiIn_eq hne hsol]
  exact Quicksort.sort_sorted s.weightOf hne

end

/-- Three columns, one of them listed twice. -/
def threeWeights : Setcover where
  signals := [4, 5, 6]
  weight := fun n => n
  colSize := 3

theorem sortWei_sorts_three : ∃ sol', threeWeights.sortWeiIn [0, 2, 1, 0] = some sol' ∧
    sol'.Perm [0, 2, 1, 0] ∧
      sol'.Pairwise fun p q => threeWeights.weightOf q ≤ threeWeights.weightOf p :=
  sortWei_sorts (by decide) fun p hp => by
    revert p
    decide

end Setcover

end Msyn.SC
