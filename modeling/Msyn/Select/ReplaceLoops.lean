import Msyn.Select.Replace

/-!
# The replacement loops

`ReduceColReplace21` and `ReduceColReplace31` try all pairs (triples) of places and start again after
a replacement. Each replacement makes the solution smaller, so that the loops end. The first one
leaves a local optimum (`reduceColReplace21_spec`). The second one takes two columns away at a time:
from three columns it comes to one, and `sol.size() - 2` wraps around. It stays in range exactly if
no solution of three columns is reached that a listed column could replace as a whole
(`reduceColReplace31_iff`).
-/

namespace Msyn.SC

open Nodecircuit Bitprocess Bitvector

namespace Setcover

variable {s : Setcover}

theorem sizeSub_eq {a b : Nat} (hb : b ≤ a) (ha : a < 2 ^ 64) : sizeSub a b = a - b := by
  unfold sizeSub
  omega

/-! ## What the loops keep -/

/-- What the loops keep of the solution. -/
structure Replacing (s : Setcover) (csum sol0 sol : List Nat) : Prop where
  cover : s.Cover sol
  nodup : sol.Nodup
  length : sol.length ≤ sol0.length
  pos : 1 ≤ sol.length
  old : ∀ x ∈ sol, x ∈ sol0 ∨ x ∈ csum

section
variable {csum sol0 sol : List Nat} {inexcluded : List InExType}

theorem Cover.length_le (h : s.Cover sol) (hnodup : sol.Nodup) : sol.length ≤ s.colSize := by
  have hrange : sol ⊆ List.range s.colSize := fun p hp => List.mem_range.2 (h.mem p hp)
  have hsub := (hnodup.subperm hrange).length_le
  rwa [List.length_range] at hsub

/-- A replacement keeps this, and makes the solution smaller by all places but one. -/
theorem Replacing.replaceAt (h : s.Replacing csum sol0 sol) (hc : s.Columns)
    (hcsum : s.Sorted csum inexcluded) {i : Nat} {js : List Nat}
    (hsorted : (i :: js).Pairwise (· < ·)) (hps : ∀ p ∈ i :: js, p < sol.length) {sol' : List Nat}
    (hr : s.replaceAt csum inexcluded sol (i :: js) = some (some sol')) :
    s.Replacing csum sol0 sol' ∧ sol'.length + js.length = sol.length := by
  obtain ⟨hnodup, hlen, newcol, hmem, -, hin, hnew⟩ := replaceAt_nodup hsorted hps h.nodup hr
  refine ⟨⟨replaceAt_cover hsorted hps hc h.cover hcsum.mem hr, hnodup, ?_,
    List.length_pos_of_mem hin, fun x hx => ?_⟩, hlen⟩
  · have := h.length
    omega
  · rcases hnew x hx with rfl | hx
    · exact .inr hmem
    · exact h.old x hx

/-! ## Two columns by one -/

/-- Before the pair of places `(i, j)` all pairs have been tried. -/
structure Trying21 (s : Setcover) (csum sol0 : List Nat) (t : List Nat × Nat × Nat) : Prop where
  replacing : s.Replacing csum sol0 t.1
  lt : t.2.1 < t.2.2
  tried : ∀ a b, a < b → b < t.1.length → a < t.2.1 ∨ a = t.2.1 ∧ b < t.2.2 →
    s.Irreplaceable csum t.1 [t.1.getD a 0, t.1.getD b 0]

/-- A replacement makes the solution smaller, and without one the places go on. -/
def before21 (t' t : List Nat × Nat × Nat) : Prop :=
  Prod.Lex (· < ·) (Prod.Lex (· < ·) (· < ·)) (t'.1.length, t'.1.length - t'.2.1, t'.1.length - t'.2.2)
    (t.1.length, t.1.length - t.2.1, t.1.length - t.2.2)

theorem before21_wf : WellFounded before21 :=
  InvImage.wf _ (WellFounded.prod_lex Nat.lt_wfRel.wf
    (WellFounded.prod_lex Nat.lt_wfRel.wf Nat.lt_wfRel.wf))

variable (hc : s.Columns) (hsize : s.colSize < 2 ^ 31) (hcsum : s.Sorted csum inexcluded)
include hc hsize hcsum

theorem Trying21.step {t t' : List Nat × Nat × Nat} (h : s.Trying21 csum sol0 t)
    (hst : s.replace21Step csum inexcluded t = .inl t') :
    s.Trying21 csum sol0 t' ∧ before21 t' t := by
  obtain ⟨sol, i, j⟩ := t
  obtain ⟨hrep, hij, htried⟩ := h
  have hle := hrep.cover.length_le hrep.nodup
  have hpos := hrep.pos
  unfold replace21Step at hst
  dsimp only at hst hij htried hrep hle hpos
  rw [sizeSub_eq hpos (by omega)] at hst
  split at hst
  · rename_i hi
    split at hst
    · rename_i hj
      have hps : ∀ p ∈ [i, j], p < sol.length := by
        intro p hp
        rcases List.mem_pair.1 hp with rfl | rfl <;> omega
      obtain ⟨r, hr, hnone⟩ := replaceAt_total hc hcsum hrep.cover hps
      rw [hr] at hst
      cases r with
      | none =>
        cases hst
        refine ⟨⟨hrep, Nat.lt_succ_of_lt hij, fun a b hab hb htr => ?_⟩, ?_⟩
        · dsimp only at hab hb htr ⊢
          by_cases heq : a = i ∧ b = j
          · rw [heq.1, heq.2]
            exact hnone rfl
          · exact htried a b hab hb (by omega)
        · exact Prod.Lex.right _ (Prod.Lex.right _ (by dsimp only; omega))
      | some sol' =>
        cases hst
        obtain ⟨hrep', hlen⟩ := hrep.replaceAt hc hcsum (by simpa using hij) hps hr
        refine ⟨⟨hrep', Nat.zero_lt_one, fun a b hab hb htr => ?_⟩, ?_⟩
        · dsimp only at htr
          omega
        · exact Prod.Lex.left _ _ (by simp only [List.length_singleton] at hlen ⊢; omega)
    · rename_i hj
      cases hst
      refine ⟨⟨hrep, Nat.lt_succ_self _, fun a b hab hb htr => htried a b hab hb ?_⟩, ?_⟩
      · dsimp only at htr hb
        omega
      · exact Prod.Lex.right _ (Prod.Lex.left _ _ (by dsimp only; omega))
  · cases hst

theorem Trying21.leaves {t : List Nat × Nat × Nat} (h : s.Trying21 csum sol0 t)
    {r : Option (List Nat)} (hst : s.replace21Step csum inexcluded t = .inr r) :
    ∃ sol, r = some sol ∧ s.Replacing csum sol0 sol ∧ ∀ a b, a < b → b < sol.length →
      s.Irreplaceable csum sol [sol.getD a 0, sol.getD b 0] := by
  obtain ⟨sol, i, j⟩ := t
  obtain ⟨hrep, hij, htried⟩ := h
  have hle := hrep.cover.length_le hrep.nodup
  have hpos := hrep.pos
  unfold replace21Step at hst
  dsimp only at hst hij htried hrep hle hpos
  rw [sizeSub_eq hpos (by omega)] at hst
  split at hst
  · split at hst
    · rename_i hj
      have hps : ∀ p ∈ [i, j], p < sol.length := by
        intro p hp
        rcases List.mem_pair.1 hp with rfl | rfl <;> omega
      obtain ⟨r, hr, -⟩ := replaceAt_total hc hcsum hrep.cover hps
      rw [hr] at hst
      cases r <;> cases hst
    · cases hst
  · cases hst
    exact ⟨sol, rfl, hrep, fun a b hab hb => htried a b hab hb (by omega)⟩

/-- **`ReduceColReplace21` ends in a local optimum**: a duplicate-free cover that is at most as large,
with no new excluded column, and no two of its columns can be replaced by a listed one. -/
theorem reduceColReplace21_spec (h : s.Cover sol) (hnodup : sol.Nodup) (hlen : 2 ≤ sol.length) :
    ∃ fuel sol', s.reduceColReplace21 fuel csum inexcluded sol = some sol' ∧ s.Cover sol' ∧
      sol'.Nodup ∧ sol'.length ≤ sol.length ∧
      (∀ p ∈ sol', inexcluded.getD p .noInEx = .excludedFlag → p ∈ sol) ∧
      ∀ p ∈ sol', ∀ q ∈ sol', p ≠ q → s.Irreplaceable csum sol' [p, q] := by
  have hstart : s.Trying21 csum sol (sol, 0, 1) :=
    ⟨⟨h, hnodup, le_rfl, Nat.le_of_succ_le hlen, fun x hx => .inl hx⟩, Nat.zero_lt_one,
      fun a b hab hb htr => by
        dsimp only at htr
        omega⟩
  obtain ⟨fuel, r, hr, sol', rfl, hrep, hopt⟩ := loop_wf before21_wf
    (fun t t' hi hst => hi.step hc hsize hcsum hst)
    (fun t r hi hst => hi.leaves hc hsize hcsum hst) hstart
  refine ⟨fuel, sol', by rw [reduceColReplace21, hr]; rfl, hrep.cover, hrep.nodup, hrep.length,
    fun p hp hex => (hrep.old p hp).resolve_right fun hin => hcsum.free p hin hex,
    fun p hp q hq hne => ?_⟩
  obtain ⟨a, ha, hpa⟩ := List.getElem_of_mem hp
  obtain ⟨b, hb, hqb⟩ := List.getElem_of_mem hq
  rw [← List.getD_eq_getElem _ 0 ha] at hpa
  rw [← List.getD_eq_getElem _ 0 hb] at hqb
  rcases Nat.lt_trichotomy a b with hab | hab | hab
  · rw [← hpa, ← hqb]
    exact hopt a b hab hb
  · exact absurd (by rw [← hpa, ← hqb, hab]) hne
  · intro c hcmem hcnot hcover
    refine hopt b a hab ha c hcmem hcnot ?_
    have hswap : (sol'.filter fun x => x ∉ [p, q]) = sol'.filter fun x => x ∉ [q, p] :=
      List.filter_congr fun x _ => by
        rw [decide_eq_decide, List.mem_pair, List.mem_pair, or_comm]
    rw [hpa, hqb, ← hswap]
    exact hcover

omit hc hsize hcsum in
/-- Two of three columns are replaced by the third one. -/
theorem reduceColReplace21_spec_three : ∃ fuel sol',
    (ofColumns 3 [[0, 1], [1, 2], [0, 1, 2]] fun _ => 1).reduceColReplace21 fuel [2, 0, 1]
      (List.replicate 3 .noInEx) [0, 1] = some sol' ∧ sol'.Nodup ∧ sol'.length ≤ 2 := by
  have hcover : (ofColumns 3 [[0, 1], [1, 2], [0, 1, 2]] fun _ => 1).Cover [0, 1] :=
    ⟨by decide, by decide⟩
  have hsorted : (ofColumns 3 [[0, 1], [1, 2], [0, 1, 2]] fun _ => 1).Sorted [2, 0, 1]
      (List.replicate 3 .noInEx) := ⟨by decide, by decide, by decide⟩
  obtain ⟨fuel, sol', hr, -, hnodup, hle, -⟩ := reduceColReplace21_spec
    (ofColumns_columns (by decide) _) (by decide) hsorted hcover (by decide) (by decide)
  exact ⟨fuel, sol', hr, hnodup, hle⟩

omit hc hsize hcsum

/-! ## Three columns by one -/

/-- The bounds `sol.size() - 2` and `sol.size() - 1` do not wrap around, and the counters are ints,
also `j1` and `j2` after a replacement, when they count up to `sol.size() + 3`. -/
structure InRange31 (sol0 : List Nat) (t : List Nat × Nat × Nat × Nat) : Prop where
  two : 2 ≤ t.1.length
  i : t.2.1 < 2 ^ 31
  j1 : t.2.2.1 < 2 ^ 31
  j2 : t.2.2.2 < 2 ^ 31
  restart : t.1.length < sol0.length → t.1.length + 3 < 2 ^ 31

/-- What holds at the head of the loops while they are in range. -/
structure Trying31 (s : Setcover) (csum sol0 : List Nat) (t : List Nat × Nat × Nat × Nat) :
    Prop where
  replacing : s.Replacing csum sol0 t.1
  lt1 : t.2.1 < t.2.2.1
  lt2 : t.2.2.1 < t.2.2.2
  i : t.2.1 + 2 ≤ t.1.length
  j1 : t.2.2.1 + 1 ≤ t.1.length
  j2 : t.2.2.2 ≤ t.1.length
  restart : t.1.length < sol0.length → t.1.length + 3 ≤ s.colSize

def before31 (t' t : List Nat × Nat × Nat × Nat) : Prop :=
  Prod.Lex (· < ·) (Prod.Lex (· < ·) (Prod.Lex (· < ·) (· < ·)))
    (t'.1.length, t'.1.length - t'.2.1, t'.1.length - t'.2.2.1, t'.1.length - t'.2.2.2)
    (t.1.length, t.1.length - t.2.1, t.1.length - t.2.2.1, t.1.length - t.2.2.2)

theorem before31_wf : WellFounded before31 :=
  InvImage.wf _ (WellFounded.prod_lex Nat.lt_wfRel.wf (WellFounded.prod_lex Nat.lt_wfRel.wf
    (WellFounded.prod_lex Nat.lt_wfRel.wf Nat.lt_wfRel.wf)))

/-- No listed column outside of the solution covers all rows. -/
def NoWhole (s : Setcover) (csum sol : List Nat) : Prop :=
  ∀ c ∈ csum, c ∉ sol → ∃ r < s.rowSize, (vec s.pvaluesCol c).bit r = false

include hc hcsum in
/-- A solution of three columns is replaced as a whole, if there is a column for it. -/
theorem replaceAt_three (h : s.Cover sol) (hnodup : sol.Nodup) (hlen : sol.length = 3) :
    ∃ r, s.replaceAt csum inexcluded sol [0, 1, 2] = some r ∧ (r = none ↔ s.NoWhole csum sol) := by
  have hps : ∀ p ∈ [0, 1, 2], p < sol.length := by
    rw [hlen]
    decide
  obtain ⟨r, hr, hnone⟩ := replaceAt_total hc hcsum h hps
  refine ⟨r, hr, fun he c hcmem hcnot => ?_, fun hno => ?_⟩
  · by_contra hall
    push Not at hall
    refine hnone he c hcmem hcnot ⟨fun p hp => ?_, fun i hi => ⟨c, by simp, ?_⟩⟩
    · rcases List.mem_cons.1 hp with rfl | hp
      · exact hcsum.mem p hcmem
      · exact h.mem p (List.mem_filter.1 hp).1
    · exact (Bool.not_eq_false _).mp (hall i hi)
  · cases r with
    | none => rfl
    | some sol' =>
      obtain ⟨-, hlen', c, hcmem, hcnot, hin, -⟩ :=
        replaceAt_nodup (by decide) hps hnodup hr
      have hone : sol' = [c] := by
        obtain ⟨x, hx⟩ := List.length_eq_one_iff.1 (by simpa [hlen] using hlen')
        rw [hx] at hin ⊢
        rw [List.mem_singleton.1 hin]
      have hcover := replaceAt_cover (by decide) hps hc h hcsum.mem hr
      obtain ⟨i, hi, hfree⟩ := hno c hcmem hcnot
      obtain ⟨p, hp, hpi⟩ := hcover.rows i hi
      rw [hone, List.mem_singleton] at hp
      rw [hp, hfree] at hpi
      cases hpi

/-- The places of a triple are in order. -/
def Ordered (t : List Nat × Nat × Nat × Nat) : Prop := t.2.1 < t.2.2.1 ∧ t.2.2.1 < t.2.2.2

/-- A step goes on with the solution, or replaces three of its columns and starts again. -/
theorem replace31Step_cases {t t' : List Nat × Nat × Nat × Nat}
    (hst : s.replace31Step csum inexcluded t = .inl t') :
    t'.1 = t.1 ∧ (Ordered t → Ordered t') ∨
      t.2.2.2 < t.1.length ∧ ∃ sol', s.replaceAt csum inexcluded t.1 [t.2.1, t.2.2.1, t.2.2.2] =
        some (some sol') ∧ t' = (sol', 0, 1, 2) := by
  obtain ⟨sol, i, j1, j2⟩ := t
  unfold replace31Step at hst
  dsimp only at hst ⊢
  split at hst
  · split at hst
    · split at hst
      · rename_i hj2
        split at hst
        · cases hst
        · cases hst
          exact .inl ⟨rfl, fun ho => ⟨ho.1, Nat.lt_succ_of_lt ho.2⟩⟩
        · rename_i sol' hr
          cases hst
          exact .inr ⟨hj2, sol', hr, rfl⟩
      · cases hst
        exact .inl ⟨rfl, fun ho => ⟨Nat.lt_succ_of_lt ho.1, Nat.lt_succ_self _⟩⟩
    · cases hst
      exact .inl ⟨rfl, fun _ => ⟨Nat.lt_succ_self _, Nat.lt_succ_self _⟩⟩
  · cases hst

theorem ordered_places {t : List Nat × Nat × Nat × Nat} (ho : Ordered t)
    (hlt : t.2.2.2 < t.1.length) : [t.2.1, t.2.2.1, t.2.2.2].Pairwise (· < ·) ∧
      ∀ p ∈ [t.2.1, t.2.2.1, t.2.2.2], p < t.1.length := by
  obtain ⟨h1, h2⟩ := ho
  refine ⟨by simp; omega, fun p hp => ?_⟩
  simp only [List.mem_cons, List.not_mem_nil, or_false] at hp
  omega

/-- Every solution that is reached is tried from the first places on. -/
theorem atHead_first {sol0 : List Nat} {t : List Nat × Nat × Nat × Nat}
    (h : AtHead (s.replace31Step csum inexcluded) (sol0, 0, 1, 2) t) :
    AtHead (s.replace31Step csum inexcluded) (sol0, 0, 1, 2) (t.1, 0, 1, 2) := by
  induction h with
  | start => exact .start
  | next hprev hst ih =>
    rcases replace31Step_cases hst with ⟨he, -⟩ | ⟨-, sol', -, rfl⟩
    · rw [he]
      exact ih
    · exact hprev.next hst

include hc hcsum in
/-- Every solution that is reached is a duplicate-free cover, smaller by an even number of columns. -/
theorem atHead_cover {sol0 : List Nat} (h : s.Cover sol0) (hnodup : sol0.Nodup)
    {t : List Nat × Nat × Nat × Nat}
    (ht : AtHead (s.replace31Step csum inexcluded) (sol0, 0, 1, 2) t) :
    s.Cover t.1 ∧ t.1.Nodup ∧ t.1.length % 2 = sol0.length % 2 := by
  have key : Ordered t ∧ s.Cover t.1 ∧ t.1.Nodup ∧ t.1.length % 2 = sol0.length % 2 := by
    refine AtHead.inv (I := fun t => Ordered t ∧ s.Cover t.1 ∧ t.1.Nodup ∧
      t.1.length % 2 = sol0.length % 2) (fun t t' hi hst => ?_)
      ⟨⟨Nat.zero_lt_one, Nat.one_lt_two⟩, h, hnodup, rfl⟩ ht
    obtain ⟨ho, hcover, hnodup, hparity⟩ := hi
    rcases replace31Step_cases hst with ⟨he, ho'⟩ | ⟨hlt, sol', hr, rfl⟩
    · rw [he]
      exact ⟨ho' ho, hcover, hnodup, hparity⟩
    · obtain ⟨hsorted, hps⟩ := ordered_places ho hlt
      obtain ⟨hnodup', hlen, -⟩ := replaceAt_nodup hsorted hps hnodup hr
      refine ⟨⟨Nat.zero_lt_one, Nat.one_lt_two⟩, replaceAt_cover hsorted hps hc hcover hcsum.mem hr,
        hnodup', ?_⟩
      simp only [List.length_cons, List.length_nil] at hlen
      dsimp only
      omega
  exact key.2

include hc hsize hcsum

theorem Trying31.step {t t' : List Nat × Nat × Nat × Nat} (h : s.Trying31 csum sol0 t)
    (hno : t.1.length = 3 → s.NoWhole csum t.1)
    (hst : s.replace31Step csum inexcluded t = .inl t') :
    s.Trying31 csum sol0 t' ∧ before31 t' t := by
  obtain ⟨sol, i, j1, j2⟩ := t
  obtain ⟨hrep, hij, hjj, hi, hj1, hj2, hrestart⟩ := h
  have hle := hrep.cover.length_le hrep.nodup
  unfold replace31Step at hst
  dsimp only at hst hij hjj hi hj1 hj2 hrestart hrep hle hno
  rw [sizeSub_eq (by omega) (by omega), sizeSub_eq (by omega) (by omega)] at hst
  split at hst
  · split at hst
    · split at hst
      · rename_i hlt
        have hps : ∀ p ∈ [i, j1, j2], p < sol.length := by
          intro p hp
          simp only [List.mem_cons, List.not_mem_nil, or_false] at hp
          omega
        obtain ⟨r, hr, -⟩ := replaceAt_total hc hcsum hrep.cover hps
        rw [hr] at hst
        cases r with
        | none =>
          cases hst
          refine ⟨⟨hrep, hij, Nat.lt_succ_of_lt hjj, hi, hj1, hlt, hrestart⟩, ?_⟩
          exact Prod.Lex.right _ (Prod.Lex.right _ (Prod.Lex.right _ (by dsimp only; omega)))
        | some sol' =>
          cases hst
          have hsorted : [i, j1, j2].Pairwise (· < ·) := by
            simp
            omega
          obtain ⟨hrep', hlen⟩ := hrep.replaceAt hc hcsum hsorted hps hr
          obtain ⟨-, -, c, hcmem, hcnot, -⟩ := replaceAt_nodup hsorted hps hrep.nodup hr
          -- the new column was outside of the solution
          have hroom : sol.length + 1 ≤ s.colSize := by
            have hcover : s.Cover (c :: sol) :=
              ⟨fun p hp => (List.mem_cons.1 hp).elim (fun he => he ▸ hcsum.mem c hcmem)
                (hrep.cover.mem p), fun r hr => by
                  obtain ⟨p, hp, hpr⟩ := hrep.cover.rows r hr
                  exact ⟨p, List.mem_cons_of_mem _ hp, hpr⟩⟩
            exact hcover.length_le (List.nodup_cons.2 ⟨hcnot, hrep.nodup⟩)
          -- three columns are not replaced
          have hfour : sol.length ≠ 3 := fun hthree => by
            obtain ⟨r, hr3, hiff⟩ := replaceAt_three hc hcsum hrep.cover hrep.nodup hthree
            rw [show i = 0 by omega, show j1 = 1 by omega, show j2 = 2 by omega, hr3,
              hiff.2 (hno hthree)] at hr
            cases hr
          simp only [List.length_cons, List.length_nil] at hlen
          refine ⟨⟨hrep', Nat.zero_lt_one, Nat.one_lt_two, ?_, ?_, ?_, fun _ => ?_⟩,
            Prod.Lex.left _ _ ?_⟩ <;> dsimp only <;> omega
      · cases hst
        refine ⟨⟨hrep, Nat.lt_succ_of_lt hij, Nat.lt_succ_self _, hi, ?_, ?_, hrestart⟩,
          Prod.Lex.right _ (Prod.Lex.right _ (Prod.Lex.left _ _ ?_))⟩ <;> dsimp only <;> omega
    · cases hst
      refine ⟨⟨hrep, Nat.lt_succ_self _, Nat.lt_succ_self _, ?_, ?_, ?_, hrestart⟩,
        Prod.Lex.right _ (Prod.Lex.left _ _ ?_)⟩ <;> dsimp only <;> omega
  · cases hst

omit hsize in
theorem Trying31.leaves {t : List Nat × Nat × Nat × Nat} (h : s.Trying31 csum sol0 t)
    {r : Option (List Nat)} (hst : s.replace31Step csum inexcluded t = .inr r) :
    ∃ sol, r = some sol ∧ s.Replacing csum sol0 sol := by
  obtain ⟨sol, i, j1, j2⟩ := t
  obtain ⟨hrep, hij, hjj, -, -, -, -⟩ := h
  unfold replace31Step at hst
  dsimp only at hst hij hjj hrep
  split at hst
  · split at hst
    · split at hst
      · rename_i hlt
        have hps : ∀ p ∈ [i, j1, j2], p < sol.length := by
          intro p hp
          simp only [List.mem_cons, List.not_mem_nil, or_false] at hp
          omega
        obtain ⟨r, hr, -⟩ := replaceAt_total hc hcsum hrep.cover hps
        rw [hr] at hst
        cases r <;> cases hst
      · cases hst
    · cases hst
  · cases hst
    exact ⟨sol, rfl, hrep⟩

/-- **Where `ReduceColReplace31` stays in range** and ends with a duplicate-free cover that is at most
as large: no solution of three columns is reached that a listed column could replace as a whole. -/
theorem reduceColReplace31_iff (h : s.Cover sol) (hnodup : sol.Nodup) (hlen : 5 < sol.length) :
    ((∀ t, AtHead (s.replace31Step csum inexcluded) (sol, 0, 1, 2) t → InRange31 sol t) ∧
      ∃ fuel sol', s.reduceColReplace31 fuel csum inexcluded sol = some sol' ∧ s.Cover sol' ∧
        sol'.Nodup ∧ sol'.length ≤ sol.length) ↔
    ∀ t, AtHead (s.replace31Step csum inexcluded) (sol, 0, 1, 2) t → t.1.length = 3 →
      s.NoWhole csum t.1 := by
  have hstart : s.Trying31 csum sol (sol, 0, 1, 2) :=
    ⟨⟨h, hnodup, le_rfl, Nat.one_le_of_lt hlen, fun x hx => .inl hx⟩, Nat.zero_lt_one,
      Nat.one_lt_two, by dsimp only; omega, by dsimp only; omega, by dsimp only; omega,
      fun hlt => absurd hlt (Nat.lt_irrefl _)⟩
  constructor
  · intro ⟨hrange, _⟩ t ht hthree
    -- the solution is tried as a whole, and may not be replaced
    have hfirst := atHead_first ht
    obtain ⟨hcover, hnodup', -⟩ := atHead_cover hc hcsum h hnodup ht
    obtain ⟨r, hr, hiff⟩ := replaceAt_three hc hcsum hcover hnodup' hthree
    refine hiff.1 ?_
    cases r with
    | none => rfl
    | some sol' =>
      have hstep : s.replace31Step csum inexcluded (t.1, 0, 1, 2) = .inl (sol', 0, 1, 2) := by
        unfold replace31Step
        dsimp only
        rw [hthree, if_pos (by decide), if_pos (by decide), if_pos (by decide), hr]
      have htwo := (hrange _ (hfirst.next hstep)).two
      have hps : ∀ p ∈ [0, 1, 2], p < t.1.length := by
        rw [hthree]
        decide
      have hone := (replaceAt_nodup (by decide) hps hnodup' hr).2.1
      simp only [List.length_cons, List.length_nil] at hone htwo
      omega
  · intro hno
    have hinv : ∀ t, AtHead (s.replace31Step csum inexcluded) (sol, 0, 1, 2) t →
        s.Trying31 csum sol t := fun t ht => by
      induction ht with
      | start => exact hstart
      | next hprev hst ih => exact (ih.step hc hsize hcsum (hno _ hprev) hst).1
    refine ⟨fun t ht => ?_, ?_⟩
    · obtain ⟨hrep, h1, h2, h3, h4, h5, h6⟩ := hinv t ht
      have hle := hrep.cover.length_le hrep.nodup
      exact ⟨by omega, by omega, by omega, by omega, fun hlt => by
        have := h6 hlt
        omega⟩
    · obtain ⟨fuel, r, hr, sol', rfl, hrep⟩ := loop_wf before31_wf
        (I := AtHead (s.replace31Step csum inexcluded) (sol, 0, 1, 2))
        (fun t t' ht hst =>
          ⟨ht.next hst, ((hinv t ht).step hc hsize hcsum (hno t ht) hst).2⟩)
        (fun t r ht hst => (hinv t ht).leaves hc hcsum hst) .start
      exact ⟨fuel, sol', by rw [reduceColReplace31, hr]; rfl, hrep.cover, hrep.nodup, hrep.length⟩

end

/-- An even number of columns never becomes three. -/
theorem noWhole_of_even {csum sol : List Nat} {inexcluded : List InExType} (hc : s.Columns)
    (hcsum : s.Sorted csum inexcluded) (h : s.Cover sol) (hnodup : sol.Nodup)
    (heven : sol.length % 2 = 0) {t : List Nat × Nat × Nat × Nat}
    (ht : AtHead (s.replace31Step csum inexcluded) (sol, 0, 1, 2) t) : t.1.length ≠ 3 := by
  have := (atHead_cover hc hcsum h hnodup ht).2.2
  omega

/-- Six columns stay as they are. -/
theorem reduceColReplace31_iff_six : ∃ fuel sol',
    (ofColumns 6 ((List.range 6).map fun i => [i]) fun _ => 1).reduceColReplace31 fuel
      (List.range 6) (List.replicate 6 .noInEx) (List.range 6) = some sol' ∧ sol'.length ≤ 6 := by
  have hc : (ofColumns 6 ((List.range 6).map fun i => [i]) fun _ => 1).Columns :=
    ofColumns_columns (by decide) _
  have hsorted : (ofColumns 6 ((List.range 6).map fun i => [i]) fun _ => 1).Sorted (List.range 6)
      (List.replicate 6 .noInEx) := ⟨by decide, by decide, by decide⟩
  have hcover : (ofColumns 6 ((List.range 6).map fun i => [i]) fun _ => 1).Cover (List.range 6) :=
    ⟨by decide, by decide⟩
  obtain ⟨-, fuel, sol', hr, -, -, hle⟩ := (reduceColReplace31_iff hc (by decide) hsorted hcover
    (by decide) (by decide)).2 fun t ht hthree =>
      absurd hthree (noWhole_of_even hc hsorted hcover (by decide) (by decide) ht)
  exact ⟨fuel, sol', hr, hle⟩

/-- Seven columns of one row each, and three columns of all rows. -/
def wholeColumns : Setcover :=
  ofColumns 7 ((List.range 7).map (fun i => [i]) ++ List.replicate 3 (List.range 7)) fun _ => 1

theorem wholeColumns_steps : AtHead (wholeColumns.replace31Step [7, 8, 9]
    (List.replicate 10 .noInEx)) (List.range 7, 0, 1, 2) ([7], 0, 1, 2) := by
  have h1 : wholeColumns.replace31Step [7, 8, 9] (List.replicate 10 .noInEx)
      (List.range 7, 0, 1, 2) = .inl ([4, 5, 6, 3, 9], 0, 1, 2) := by decide
  have h2 : wholeColumns.replace31Step [7, 8, 9] (List.replicate 10 .noInEx)
      ([4, 5, 6, 3, 9], 0, 1, 2) = .inl ([9, 3, 8], 0, 1, 2) := by decide
  have h3 : wholeColumns.replace31Step [7, 8, 9] (List.replicate 10 .noInEx)
      ([9, 3, 8], 0, 1, 2) = .inl ([7], 0, 1, 2) := by decide
  exact ((AtHead.start.next h1).next h2).next h3

/-- Seven columns become one, and `sol.size() - 2` wraps around. -/
theorem reduceColReplace31_wraps : ∃ (s : Setcover) (csum : List Nat) (inexcluded : List InExType)
    (sol : List Nat), s.Columns ∧ s.colSize < 2 ^ 31 ∧ s.Sorted csum inexcluded ∧ s.Cover sol ∧
      sol.Nodup ∧ 5 < sol.length ∧ ∃ t,
        AtHead (s.replace31Step csum inexcluded) (sol, 0, 1, 2) t ∧ ¬InRange31 sol t := by
  have hsorted : wholeColumns.Sorted [7, 8, 9] (List.replicate 10 .noInEx) :=
    ⟨by decide, by decide, by decide⟩
  have hcover : wholeColumns.Cover (List.range 7) := ⟨by decide, by decide⟩
  exact ⟨_, _, _, _, ofColumns_columns (by decide) _, by decide, hsorted, hcover, by decide,
    by decide, _, wholeColumns_steps, fun hrange => absurd hrange.two (by decide)⟩

end Setcover

end Msyn.SC
