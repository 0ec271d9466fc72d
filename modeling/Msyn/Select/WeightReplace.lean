import Mathlib.Algebra.Order.BigOperators.Group.List
import Msyn.Select.Replace

/-!
# Replacing columns by lighter ones

`ReduceWeightReplace11` puts a lighter column in the place of one that covers no more rows alone, as
long as there is one, and starts again after each exchange; `ReduceWeightReplace11_Traverse` tries
this from every rotation of the solution and keeps the lightest result. Each exchange takes a column
of a smaller rank, so that the loop ends; the running weight stays the total weight of the solution,
both as an `int` (`reduceWeightReplace11_spec`). What is returned is the weight of the result exactly
if that fits an `int`, as it does where all sums do (`reduceWeightReplace11Traverse_fits`).

The scan reads `signals[index]` before it tests `index`; `none` is a read behind the end.
-/

namespace Msyn.SC

open Nodecircuit Bitprocess Bitvector

namespace Setcover

section
variable (s : Setcover)

/-- The loops that add up the weights of the columns. -/
def totalWeight (sol : List Nat) : Int := sumInt s.weightOf sol

/-- The weight of the columns, whether it fits an `int` or not. -/
def exactWeight (sol : List Nat) : Int := (sol.map s.weightOf).sum

/-- `for (index = 0; signals[index]->weight < cur_col_wei && index < col_size; index++)`, with the
signals from `index` on: a lighter column outside of the solution that has all rows of `curcol`. -/
def findLighter (inexcluded : List InExType) (sol : List Nat) (curcol : Bitvector)
    (curColWei : Int) : List NodeId → Nat → Option (Option Nat)
  | [], _ => none
  | x :: xs, index =>
    if s.weight x < curColWei ∧ index < s.colSize then
      if curcol.count ≤ (vec s.pvaluesCol index).count ∧
          inexcluded.getD index .noInEx ≠ .excludedFlag then
        if index ∈ sol then findLighter inexcluded sol curcol curColWei xs (index + 1)
        else if curcol.countAnd (vec s.pvaluesCol index) = curcol.count then some (some index)
        else findLighter inexcluded sol curcol curColWei xs (index + 1)
      else findLighter inexcluded sol curcol curColWei xs (index + 1)
    else some none

/-- The body of the loop over `cur_sig`, with `cur_sol` and `cur_weight`. -/
def replace11Step (inexcluded : List InExType) (t : List Nat × Int × Nat) :
    (List Nat × Int × Nat) ⊕ Option (Int × List Nat) :=
  let (sol, curWeight, curSig) := t
  if curSig < sol.length then
    let curcol := bothOf s.pvaluesCol sol [curSig]
    let curColWei := s.weightOf (sol.getD curSig 0)
    match s.findLighter inexcluded sol curcol curColWei s.signals 0 with
    | none => .inr none
    | some none => .inl (sol, curWeight, curSig + 1)
    | some (some index) =>
      match s.sortWei (sol.set curSig index) with
      | none => .inr none
      | some sol => .inl (sol, toInt (toInt (curWeight - curColWei) + s.weightOf index), 0)
  else .inr (some (curWeight, sol))

/-- `ReduceWeightReplace11`: the weight that it returns, and `cur_sol`. -/
def reduceWeightReplace11 (fuel : Nat) (inexcluded : List InExType) (sol : List Nat) :
    Option (Int × List Nat) :=
  (loop (s.replace11Step inexcluded) fuel (sol, s.totalWeight sol, 0)).join

/-- `ReduceWeightReplace11_Traverse`: the weight that it returns, and `cur_sol`. -/
def reduceWeightReplace11Traverse (fuel : Nat) (inexcluded : List InExType) (sol : List Nat) :
    Option (Int × List Nat) := do
  let curSol ← s.sortWei sol
  let presolWeight := s.totalWeight curSol
  let best ← (List.range curSol.length).foldlM (fun (best : Int × List Nat) start => do
    let new ← s.reduceWeightReplace11 fuel inexcluded (curSol.drop start ++ curSol.take start)
    return if best.1 > new.1 then new else best) (presolWeight, [])
  return (best.1, if best.1 < presolWeight then best.2 else curSol)

/-- The number of lighter columns. -/
def rank (p : Nat) : Nat := (List.range s.colSize).countP fun q => s.weightOf q < s.weightOf p

end

variable {s : Setcover}

theorem rank_lt {p q : Nat} (hq : q < s.colSize) (h : s.weightOf q < s.weightOf p) :
    s.rank q < s.rank p := by
  have hone := countP_add_one (p := fun r => decide (s.weightOf r < s.weightOf q))
    (q := fun r => decide (s.weightOf r < s.weightOf q) || decide (r = q))
    List.nodup_range (List.mem_range.2 hq) (by simp) (by simp) fun r hr => by simp [hr]
  have hle : (List.range s.colSize).countP
      (fun r => decide (s.weightOf r < s.weightOf q) || decide (r = q)) ≤ s.rank p := by
    refine List.countP_mono_left fun r _ hr => ?_
    rw [Bool.or_eq_true, decide_eq_true_eq, decide_eq_true_eq] at hr
    rw [decide_eq_true_eq]
    rcases hr with hr | rfl
    · exact hr.trans h
    · exact h
  unfold rank at hle ⊢
  omega

theorem totalWeight_eq (sol : List Nat) : s.totalWeight sol = toInt (s.exactWeight sol) :=
  sumInt_eq s.weightOf sol

theorem exactWeight_perm {sol sol' : List Nat} (h : sol.Perm sol') :
    s.exactWeight sol = s.exactWeight sol' := (h.map s.weightOf).sum_eq

theorem totalWeight_perm {sol sol' : List Nat} (h : sol.Perm sol') :
    s.totalWeight sol = s.totalWeight sol' := by
  rw [totalWeight_eq, totalWeight_eq, exactWeight_perm h]

/-- A sum that is below 2^32 wraps exactly from 2^31 on, and a lighter one is above it then. -/
theorem totalWeight_eq_iff {sol sol' : List Nat} (hpos : 0 ≤ s.exactWeight sol')
    (hle : s.exactWeight sol' ≤ s.exactWeight sol) (hlt : s.exactWeight sol < 2 ^ 32)
    (hsum : s.totalWeight sol' ≤ s.totalWeight sol) :
    s.totalWeight sol' = s.exactWeight sol' ↔ s.exactWeight sol < 2 ^ 31 := by
  constructor
  · intro he
    by_contra hge
    have hneg : s.totalWeight sol < 0 := by
      rw [totalWeight_eq]
      exact toInt_neg (not_lt.1 hge) hlt
    omega
  · intro hfit
    rw [totalWeight_eq, toInt_eq_iff]
    exact ⟨by omega, by omega⟩

section
variable {inexcluded : List InExType} {sol : List Nat} {curcol : Bitvector} {curColWei : Int}

/-- The scan stops at the latest at a column of the solution, which is not lighter. -/
theorem findLighter_spec {i0 : Nat} (h0 : i0 < s.signals.length) (hwei : s.weightOf i0 = curColWei)
    {xs : List NodeId} {index : Nat} (hxs : s.signals.drop index = xs) (hle : index ≤ i0) :
    ∃ r, s.findLighter inexcluded sol curcol curColWei xs index = some r ∧ ∀ q, r = some q →
      q < s.colSize ∧ q ∉ sol ∧ inexcluded.getD q .noInEx ≠ .excludedFlag ∧
        s.weightOf q < curColWei ∧ curcol.countAnd (vec s.pvaluesCol q) = curcol.count := by
  induction xs generalizing index with
  | nil =>
    rw [List.drop_eq_nil_iff] at hxs
    omega
  | cons x xs ih =>
    have hlen : index < s.signals.length := by omega
    obtain ⟨hx, hrest⟩ : s.signals[index] = x ∧ s.signals.drop (index + 1) = xs := by
      rw [List.drop_eq_getElem_cons hlen] at hxs
      exact List.cons.inj hxs
    have hweight : s.weight x = s.weightOf index := by
      rw [weightOf, List.getD_eq_getElem _ _ hlen, hx]
    unfold findLighter
    split
    · rename_i hlight
      rw [hweight] at hlight
      have hlt : index + 1 ≤ i0 := by
        rcases Nat.eq_or_lt_of_le hle with he | hlt
        · rw [he, hwei] at hlight
          exact absurd hlight.1 (lt_irrefl _)
        · exact hlt
      have hgo := ih hrest hlt
      split
      · rename_i hbig
        split
        · exact hgo
        · rename_i hnot
          split
          · rename_i hand
            refine ⟨_, rfl, fun q hq => ?_⟩
            cases hq
            exact ⟨hlight.2, hnot, hbig.2, hlight.1, hand⟩
          · exact hgo
      · exact hgo
    · exact ⟨none, rfl, fun q hq => by cases hq⟩

end

/-! ## The exchange -/

/-- What the exchanges keep of the solution, which never gets heavier: without the bounds of an `int`,
as they compare single weights only. -/
structure Lighter (s : Setcover) (inexcluded : List InExType) (sol0 sol : List Nat) : Prop where
  cover : s.Cover sol
  nodup : sol.Nodup
  length : sol.length = sol0.length
  weight : s.exactWeight sol ≤ s.exactWeight sol0
  old : ∀ p ∈ sol, inexcluded.getD p .noInEx = .excludedFlag → p ∈ sol0

theorem Lighter.perm {inexcluded : List InExType} {sol0 sol sol' : List Nat}
    (h : s.Lighter inexcluded sol0 sol) (hperm : sol'.Perm sol) : s.Lighter inexcluded sol0 sol' where
  cover := h.cover.congr hperm.symm.subset hperm.subset
  nodup := hperm.nodup_iff.2 h.nodup
  length := hperm.length_eq.trans h.length
  weight := (exactWeight_perm hperm).trans_le h.weight
  old p hp := h.old p (hperm.subset hp)

theorem Lighter.weight_nonneg {inexcluded : List InExType} {sol0 sol : List Nat}
    (h : s.Lighter inexcluded sol0 sol) (hw : ∀ p < s.colSize, 0 ≤ s.weightOf p) : 0 ≤ s.exactWeight sol :=
  List.sum_nonneg fun w hmem => by
    obtain ⟨p, hp, rfl⟩ := List.mem_map.1 hmem
    exact hw p (h.cover.mem p hp)

theorem exactWeight_set {sol : List Nat} {i : Nat} (hi : i < sol.length) (a : Nat) :
    s.exactWeight (sol.set i a) =
      s.exactWeight sol - s.weightOf (sol.getD i 0) + s.weightOf a := by
  have hset := exactWeight_perm (s := s) (List.set_perm_cons_eraseIdx hi a)
  have hget := exactWeight_perm (s := s) (List.getElem_cons_eraseIdx_perm hi)
  unfold exactWeight at hset hget ⊢
  rw [List.map_cons, List.sum_cons] at hset hget
  rw [hset, ← hget, List.getD_eq_getElem _ _ hi]
  omega

/-- The running weight stays the total weight. -/
theorem totalWeight_set {sol : List Nat} {i : Nat} (hi : i < sol.length) (a : Nat) :
    s.totalWeight (sol.set i a) =
      toInt (toInt (s.totalWeight sol - s.weightOf (sol.getD i 0)) + s.weightOf a) := by
  rw [totalWeight_eq, totalWeight_eq, toInt_sub_add, exactWeight_set hi]

/-- The sum of the ranks. -/
def totalRank (s : Setcover) (sol : List Nat) : Nat := (sol.map s.rank).sum

theorem totalRank_perm {sol sol' : List Nat} (h : sol.Perm sol') :
    s.totalRank sol = s.totalRank sol' := (h.map s.rank).sum_eq

section
variable (hc : s.Columns) {inexcluded : List InExType} {sol0 sol : List Nat} {i q : Nat}
  (hi : i < sol.length) (hq : q < s.colSize) (hnot : q ∉ sol)

include hq in
/-- A lighter column has a smaller rank. -/
theorem totalRank_set (hlight : s.weightOf q < s.weightOf (sol.getD i 0)) (hi : i < sol.length) :
    s.totalRank (sol.set i q) < s.totalRank sol := by
  have hset := totalRank_perm (s := s) (List.set_perm_cons_eraseIdx hi q)
  have hget := totalRank_perm (s := s) (List.getElem_cons_eraseIdx_perm hi)
  have hlt := rank_lt hq hlight
  rw [List.getD_eq_getElem _ _ hi] at hlt
  unfold totalRank at hset hget ⊢
  rw [List.map_cons, List.sum_cons] at hset hget
  omega

include hc hi hq hnot in
/-- **An exchange** keeps a duplicate-free cover. -/
theorem Lighter.set (h : s.Lighter inexcluded sol0 sol)
    (hfree : inexcluded.getD q .noInEx ≠ .excludedFlag)
    (hlight : s.weightOf q < s.weightOf (sol.getD i 0))
    (hand : (bothOf s.pvaluesCol sol [i]).countAnd (vec s.pvaluesCol q) =
      (bothOf s.pvaluesCol sol [i]).count) : s.Lighter inexcluded sol0 (sol.set i q) := by
  obtain ⟨b1, -, b2⟩ := bothOf_spec hc h.cover.mem
    (by simpa using hi : ∀ p ∈ [i], p < sol.length)
  have hmem : ∀ p ∈ sol.set i q, p = q ∨ p ∈ sol := fun p hp =>
    (List.mem_or_eq_of_mem_set hp).symm
  refine ⟨⟨fun p hp => ?_, fun r hr => ?_⟩, ?_, (List.length_set).trans h.length, ?_,
    fun p hp hex => ?_⟩
  · rcases hmem p hp with rfl | hp
    · exact hq
    · exact h.cover.mem p hp
  · by_cases hrest : ∃ m < sol.length, m ≠ i ∧ (vec s.pvaluesCol (sol.getD m 0)).bit r = true
    · obtain ⟨m, hm, hne, hbit⟩ := hrest
      refine ⟨sol.getD m 0, ?_, hbit⟩
      have hm' : m < (sol.set i q).length := by rwa [List.length_set]
      have hget : (sol.set i q)[m] = sol.getD m 0 := by
        rw [List.getElem_set_ne hne.symm, List.getD_eq_getElem _ _ hm]
      exact hget ▸ List.getElem_mem hm'
    · -- the row is covered at the place alone
      push Not at hrest
      obtain ⟨p, hp, hbit⟩ := h.cover.rows r hr
      obtain ⟨m, hm, rfl⟩ := List.getElem_of_mem hp
      rw [← List.getD_eq_getElem _ 0 hm] at hbit
      have he : m = i := by
        by_contra hne
        exact hrest m hm hne hbit
      refine ⟨q, List.mem_set hi q, subset_of_countAnd b1 hand ((b2 r).2 ⟨⟨i, by simp, ?_⟩, ?_⟩)⟩
      · rw [← he]
        exact hbit
      · intro m hm hne
        exact (Bool.not_eq_true _).mp (hrest m hm (by simpa using hne))
  · exact (List.set_perm_cons_eraseIdx hi q).nodup_iff.2 (List.nodup_cons.2
      ⟨fun hin => hnot (List.mem_of_mem_eraseIdx hin), h.nodup.sublist (List.eraseIdx_sublist _ _)⟩)
  · have := h.weight
    rw [exactWeight_set hi]
    omega
  · rcases hmem p hp with rfl | hp
    · exact absurd hex hfree
    · exact h.old p hp hex

end

/-! ## The loops -/

/-- An exchange takes columns of smaller ranks, and without one the loop goes on. -/
def before11 (s : Setcover) (t' t : List Nat × Int × Nat) : Prop :=
  Prod.Lex (· < ·) (· < ·) (s.totalRank t'.1, t'.1.length - t'.2.2)
    (s.totalRank t.1, t.1.length - t.2.2)

theorem before11_wf : WellFounded s.before11 :=
  InvImage.wf _ (WellFounded.prod_lex Nat.lt_wfRel.wf Nat.lt_wfRel.wf)

section
variable (hc : s.Columns) (hsig : s.signals.length = s.colSize) {inexcluded : List InExType}
  {sol0 sol : List Nat}
include hc hsig

/-- One round: the scan reads no signal behind the end. -/
theorem Lighter.step {t : List Nat × Int × Nat} (h : s.Lighter inexcluded sol0 t.1)
    (hw : t.2.1 = s.totalWeight t.1) :
    (∃ t', s.replace11Step inexcluded t = .inl t' ∧ s.Lighter inexcluded sol0 t'.1 ∧
      t'.2.1 = s.totalWeight t'.1 ∧ s.before11 t' t) ∨
    s.replace11Step inexcluded t = .inr (some (t.2.1, t.1)) := by
  obtain ⟨sol, w, i⟩ := t
  dsimp only at h hw ⊢
  unfold replace11Step
  dsimp only
  split
  · rename_i hi
    left
    have hcol := h.cover.mem _ (getD_mem hi)
    obtain ⟨r, hr, hspec⟩ := @findLighter_spec s inexcluded sol (bothOf s.pvaluesCol sol [i])
      (s.weightOf (sol.getD i 0)) (sol.getD i 0) (hsig ▸ hcol) rfl s.signals 0 List.drop_zero
      (Nat.zero_le _)
    rw [hr]
    cases r with
    | none =>
      exact ⟨_, rfl, h, hw, Prod.Lex.right _ (by dsimp only; omega)⟩
    | some q =>
      obtain ⟨hq, hnot, hfree, hlight, hand⟩ := hspec q rfl
      have hne : sol.set i q ≠ [] := List.ne_nil_of_mem (List.mem_set hi q)
      obtain ⟨sol', hsort, hperm⟩ := Quicksort.sort_spec s.weightOf hne
      have hwei : s.sortWei (sol.set i q) = some sol' := hsort
      dsimp only
      rw [hwei]
      refine ⟨_, rfl, (h.set hc hi hq hnot hfree hlight hand).perm hperm, ?_, Prod.Lex.left _ _ ?_⟩
      · dsimp only
        rw [totalWeight_perm hperm, totalWeight_set hi, hw]
      · dsimp only
        rw [totalRank_perm hperm]
        exact totalRank_set hq hlight hi
  · exact .inr rfl

/-- What a round goes on with. -/
theorem Lighter.next {t t' : List Nat × Int × Nat} (h : s.Lighter inexcluded sol0 t.1)
    (hw : t.2.1 = s.totalWeight t.1) (hst : s.replace11Step inexcluded t = .inl t') :
    s.Lighter inexcluded sol0 t'.1 ∧ t'.2.1 = s.totalWeight t'.1 ∧ s.before11 t' t := by
  rcases h.step hc hsig hw with ⟨t1, h1, h2⟩ | h1
  · rw [hst] at h1
    cases h1
    exact h2
  · rw [hst] at h1
    cases h1

/-- What the loop is left with. -/
theorem Lighter.leave {t : List Nat × Int × Nat} {r : Option (Int × List Nat)}
    (h : s.Lighter inexcluded sol0 t.1) (hw : t.2.1 = s.totalWeight t.1)
    (hst : s.replace11Step inexcluded t = .inr r) : r = some (s.totalWeight t.1, t.1) := by
  rcases h.step hc hsig hw with ⟨t1, h1, -⟩ | h1
  · rw [hst] at h1
    cases h1
  · rw [hst] at h1
    rw [Sum.inr.inj h1, hw]

/-- **`ReduceWeightReplace11`** ends with a duplicate-free cover of the same size, which is not heavier
than the first one, and returns the sum of its weights. -/
theorem reduceWeightReplace11_spec (h : s.Lighter inexcluded sol0 sol) :
    ∃ fuel sol' i, s.reduceWeightReplace11 fuel inexcluded sol = some (s.totalWeight sol', sol') ∧
      s.Lighter inexcluded sol0 sol' ∧ AtHead (s.replace11Step inexcluded) (sol, s.totalWeight sol, 0)
        (sol', s.totalWeight sol', i) := by
  let I (t : List Nat × Int × Nat) : Prop := s.Lighter inexcluded sol0 t.1 ∧
    t.2.1 = s.totalWeight t.1 ∧
      AtHead (s.replace11Step inexcluded) (sol, s.totalWeight sol, 0) t
  have hstay : ∀ t t', I t → s.replace11Step inexcluded t = .inl t' → I t' ∧ s.before11 t' t := by
    intro t t' ⟨hl, hw, hhead⟩ hst
    obtain ⟨hl', hw', hlt⟩ := hl.next hc hsig hw hst
    exact ⟨⟨hl', hw', hhead.next hst⟩, hlt⟩
  have hleave : ∀ t r, I t → s.replace11Step inexcluded t = .inr r →
      ∃ sol' i, r = some (s.totalWeight sol', sol') ∧ s.Lighter inexcluded sol0 sol' ∧
        AtHead (s.replace11Step inexcluded) (sol, s.totalWeight sol, 0)
          (sol', s.totalWeight sol', i) := by
    intro ⟨sol', w, i⟩ r ⟨hl, hw, hhead⟩ hst
    have hr := hl.leave hc hsig hw hst
    dsimp only at hl hw hr
    subst hw
    exact ⟨sol', i, hr, hl, hhead⟩
  obtain ⟨fuel, r, hr, sol', i, rfl, hl, hhead⟩ :=
    loop_wf before11_wf hstay hleave (s := (sol, s.totalWeight sol, 0)) ⟨h, rfl, .start⟩
  exact ⟨fuel, sol', i, by rw [reduceWeightReplace11, hr]; rfl, hl, hhead⟩

omit hc hsig

theorem reduceWeightReplace11_mono {n m : Nat} (hnm : n ≤ m) {r : Int × List Nat}
    (h : s.reduceWeightReplace11 n inexcluded sol = some r) :
    s.reduceWeightReplace11 m inexcluded sol = some r := by
  unfold reduceWeightReplace11 at h ⊢
  rw [Option.join_eq_some_iff] at h ⊢
  exact loop_mono h hnm

theorem reduceWeightReplace11Traverse_mono {n m : Nat} (hnm : n ≤ m) {r : Int × List Nat}
    (h : s.reduceWeightReplace11Traverse n inexcluded sol = some r) :
    s.reduceWeightReplace11Traverse m inexcluded sol = some r := by
  unfold reduceWeightReplace11Traverse at h ⊢
  rw [Option.bind_eq_bind, Option.bind_eq_some_iff] at h ⊢
  obtain ⟨curSol, hsort, h⟩ := h
  obtain ⟨best, hbest, h⟩ := Option.bind_eq_some_iff.1 h
  refine ⟨curSol, hsort, Option.bind_eq_some_iff.2 ⟨best, foldlM_mono (fun b start b' hb => ?_) hbest, h⟩⟩
  obtain ⟨new, hnew, hb⟩ := Option.bind_eq_some_iff.1 hb
  exact Option.bind_eq_some_iff.2 ⟨new, reduceWeightReplace11_mono hnm hnew, hb⟩

/-- A solution that the exchanges come to from a rotation of the first one. -/
def Comes (s : Setcover) (inexcluded : List InExType) (sol sol' : List Nat) : Prop :=
  ∃ curSol start w i, s.sortWei sol = some curSol ∧
    AtHead (s.replace11Step inexcluded) (curSol.drop start ++ curSol.take start,
      s.totalWeight (curSol.drop start ++ curSol.take start), 0) (sol', w, i)

/-- The weights of all these solutions fit an `int`. -/
def SumsFit (s : Setcover) (inexcluded : List InExType) (sol : List Nat) : Prop :=
  ∀ sol', s.Comes inexcluded sol sol' → FitsInt (s.exactWeight sol')

include hc hsig

theorem Comes.lighter (h : s.Lighter inexcluded sol sol) (hne : sol ≠ []) {sol' : List Nat}
    (hcomes : s.Comes inexcluded sol sol') : s.Lighter inexcluded sol sol' := by
  obtain ⟨curSol, start, w, i, hsort, hhead⟩ := hcomes
  have hperm : curSol.Perm sol := Quicksort.sort_perm s.weightOf hne hsort
  have hrot : (curSol.drop start ++ curSol.take start).Perm sol :=
    (List.perm_append_comm.trans (List.Perm.of_eq (List.take_append_drop start curSol))).trans hperm
  refine (AtHead.inv (I := fun t : List Nat × Int × Nat => s.Lighter inexcluded sol t.1 ∧
    t.2.1 = s.totalWeight t.1) (fun t t' hi hst => ?_) ⟨h.perm hrot, rfl⟩ hhead).1
  obtain ⟨hl, hw, -⟩ := hi.1.next hc hsig hi.2 hst
  exact ⟨hl, hw⟩

/-- Without negative weights the sums fit if the first one does. -/
theorem SumsFit.of_nonneg (hw : ∀ p < s.colSize, 0 ≤ s.weightOf p) (h : s.Cover sol)
    (hnodup : sol.Nodup) (hne : sol ≠ []) (hfit : s.exactWeight sol < 2 ^ 31) :
    s.SumsFit inexcluded sol := by
  intro sol' hcomes
  have hl := hcomes.lighter hc hsig ⟨h, hnodup, rfl, le_rfl, fun p hp _ => hp⟩ hne
  have hpos := hl.weight_nonneg hw
  have hle := hl.weight
  exact ⟨by omega, by omega⟩

/-- **The rotations together**: the result is one that the exchanges come to, with its sum, which is
not above the first one. -/
theorem reduceWeightReplace11Traverse_spec (h : s.Cover sol) (hnodup : sol.Nodup) (hne : sol ≠ []) :
    ∃ fuel sol', s.reduceWeightReplace11Traverse fuel inexcluded sol =
      some (s.totalWeight sol', sol') ∧ s.Lighter inexcluded sol sol' ∧
        s.Comes inexcluded sol sol' ∧ s.totalWeight sol' ≤ s.totalWeight sol := by
  obtain ⟨curSol, hsort, hperm⟩ := Quicksort.sort_spec s.weightOf hne
  have hwei : s.sortWei sol = some curSol := hsort
  have hstart : s.Lighter inexcluded sol sol := ⟨h, hnodup, rfl, le_rfl, fun p hp _ => hp⟩
  have hcur := hstart.perm hperm
  -- enough fuel for all rotations
  have hrun : ∀ start ∈ List.range curSol.length, ∃ fuel sol', s.reduceWeightReplace11 fuel
      inexcluded (curSol.drop start ++ curSol.take start) = some (s.totalWeight sol', sol') ∧
        s.Lighter inexcluded sol sol' ∧ s.Comes inexcluded sol sol' := by
    intro start _
    obtain ⟨fuel, sol', i, hr, hl, hhead⟩ := reduceWeightReplace11_spec hc hsig
      (hcur.perm (List.perm_append_comm.trans (List.Perm.of_eq (List.take_append_drop start curSol))))
    exact ⟨fuel, sol', hr, hl, curSol, start, _, i, hwei, hhead⟩
  obtain ⟨fuel, hfuel⟩ := exists_fuel (fun start n m hnm hn => by
    obtain ⟨sol', hr, hl⟩ := hn
    exact ⟨sol', reduceWeightReplace11_mono hnm hr, hl⟩) hrun
  obtain ⟨best, hbest, hle, hgood⟩ := foldlM_total
    (P := fun best : Int × List Nat => best.1 ≤ s.totalWeight curSol ∧
      (best.1 < s.totalWeight curSol → best.1 = s.totalWeight best.2 ∧
        s.Lighter inexcluded sol best.2 ∧ s.Comes inexcluded sol best.2))
    (f := fun (best : Int × List Nat) start => do
      let new ← s.reduceWeightReplace11 fuel inexcluded (curSol.drop start ++ curSol.take start)
      return if best.1 > new.1 then new else best)
    (l := List.range curSol.length) (s := (s.totalWeight curSol, [])) (fun best start hstart hb => by
      obtain ⟨sol', hr, hl⟩ := hfuel start hstart
      refine ⟨if best.1 > s.totalWeight sol' then (s.totalWeight sol', sol') else best,
        by rw [hr]; rfl, ?_⟩
      split
      · rename_i hgt
        exact ⟨hgt.le.trans hb.1, fun _ => ⟨rfl, hl⟩⟩
      · exact hb) ⟨le_rfl, fun hlt => absurd hlt (lt_irrefl _)⟩
  have hresult : s.reduceWeightReplace11Traverse fuel inexcluded sol =
      some (best.1, if best.1 < s.totalWeight curSol then best.2 else curSol) := by
    unfold reduceWeightReplace11Traverse
    rw [hwei, Option.bind_eq_bind, Option.bind_some]
    dsimp only
    rw [hbest]
    rfl
  by_cases hlt : best.1 < s.totalWeight curSol
  · obtain ⟨hw, hl, hcomes⟩ := hgood hlt
    rw [if_pos hlt, hw] at hresult
    exact ⟨fuel, best.2, hresult, hl, hcomes, (hw ▸ hle).trans_eq (totalWeight_perm hperm)⟩
  · rw [if_neg hlt, le_antisymm hle (not_lt.1 hlt)] at hresult
    have hzero : curSol.drop 0 ++ curSol.take 0 = curSol := by
      rw [List.drop_zero, List.take_zero, List.append_nil]
    refine ⟨fuel, curSol, hresult, hcur, ⟨curSol, 0, s.totalWeight curSol, 0, hwei, ?_⟩,
      (totalWeight_perm hperm).le⟩
    rw [hzero]
    exact .start

/-- **Weight reduction** ends with a duplicate-free cover of as many columns, none of them newly
excluded, that is not heavier, and reads no signal behind the end. What it returns is the weight of
this cover exactly if that fits an `int`, and it does if all sums on the way do. Without negative
weights it does exactly if the first sum does, as long as this is below 2^32. -/
theorem reduceWeightReplace11Traverse_fits (h : s.Cover sol) (hnodup : sol.Nodup) (hne : sol ≠ []) :
    ∃ fuel w sol', s.reduceWeightReplace11Traverse fuel inexcluded sol = some (w, sol') ∧
      s.Cover sol' ∧ sol'.Nodup ∧ sol'.length = sol.length ∧
      (∀ p ∈ sol', inexcluded.getD p .noInEx = .excludedFlag → p ∈ sol) ∧
      s.exactWeight sol' ≤ s.exactWeight sol ∧
      (w = s.exactWeight sol' ↔ FitsInt (s.exactWeight sol')) ∧
      (s.SumsFit inexcluded sol → w = s.exactWeight sol') ∧
      ((∀ p < s.colSize, 0 ≤ s.weightOf p) → s.exactWeight sol < 2 ^ 32 →
        (w = s.exactWeight sol' ↔ s.exactWeight sol < 2 ^ 31)) := by
  obtain ⟨fuel, sol', hr, hl, hcomes, hsum⟩ :=
    @reduceWeightReplace11Traverse_spec s hc hsig inexcluded sol h hnodup hne
  have hw : s.totalWeight sol' = s.exactWeight sol' ↔ FitsInt (s.exactWeight sol') := by
    rw [totalWeight_eq, toInt_eq_iff]
  exact ⟨fuel, s.totalWeight sol', sol', hr, hl.cover, hl.nodup, hl.length, hl.old, hl.weight, hw,
    fun hfit => hw.2 (hfit sol' hcomes),
    fun hpos hlt => totalWeight_eq_iff (hl.weight_nonneg hpos) hl.weight hlt hsum⟩

end

/-- The first of three columns is exchanged for the second one, which is lighter. -/
theorem reduceWeightReplace11Traverse_fits_three : ∃ fuel w sol',
    (ofColumns 2 [[0], [0], [1]] fun x => if x = 0 then 5 else 3).reduceWeightReplace11Traverse fuel
      (List.replicate 3 .noInEx) [0, 2] = some (w, sol') ∧ sol'.length = 2 ∧ w ≤ 8 := by
  have hcover : (ofColumns 2 [[0], [0], [1]] fun x => if x = 0 then 5 else 3).Cover [0, 2] :=
    ⟨by decide, by decide⟩
  have hc := @ofColumns_columns 2 [[0], [0], [1]] (by decide) fun x => if x = 0 then 5 else 3
  obtain ⟨fuel, w, sol', hr, -, -, hlen, -, hle, -, hw, -⟩ :=
    reduceWeightReplace11Traverse_fits hc rfl hcover (by decide) (by decide)
  have hfit := @SumsFit.of_nonneg _ hc rfl (List.replicate 3 .noInEx) _ (by decide) hcover
    (by decide) (by decide) (by decide)
  exact ⟨fuel, w, sol', hr, hlen, (hw hfit).trans_le hle⟩

/-- Two rows, and a column of the greatest weight for each of them. -/
def heavyColumns : Setcover := ofColumns 2 [[0], [1]] fun _ => 2147483647

/-- The sum of the two weights is -2, in every run that ends. -/
theorem reduceWeightReplace11Traverse_wraps : heavyColumns.Cover [0, 1] ∧ [0, 1].Nodup ∧
    heavyColumns.reduceWeightReplace11Traverse 3 (List.replicate 2 .noInEx) [0, 1] =
      some (-2, [0, 1]) ∧ heavyColumns.exactWeight [0, 1] = 4294967294 ∧
    ∀ fuel r, heavyColumns.reduceWeightReplace11Traverse fuel (List.replicate 2 .noInEx) [0, 1] =
      some r → r = (-2, [0, 1]) := by
  have hrun : heavyColumns.reduceWeightReplace11Traverse 3 (List.replicate 2 .noInEx) [0, 1] =
      some (-2, [0, 1]) := by decide
  refine ⟨⟨by decide, by decide⟩, by decide, hrun, by decide, fun fuel r h => ?_⟩
  have h1 := reduceWeightReplace11Traverse_mono (Nat.le_max_left fuel 3) h
  rw [reduceWeightReplace11Traverse_mono (Nat.le_max_right fuel 3) hrun] at h1
  exact (Option.some.inj h1).symm

-- A sum that does not fit need not matter: the first one is 6442450941, and all three columns are
-- exchanged for light ones.
example : (ofColumns 3 [[0], [1], [2], [0], [1], [2]] fun x =>
    if x < 3 then 1 else 2147483647).reduceWeightReplace11Traverse 12 (List.replicate 6 .noInEx)
      [3, 4, 5] = some (3, [1, 2, 0]) := by
  decide

end Setcover

end Msyn.SC
