import Msyn.Select.Replace

/-!
# The reductions keep covers

Compression and replacement, from a cover of an instance that no column alone covers. A column is
left out where the rest passes the cover test, which is then a cover, true or false
(`Cover.without`); two or three columns are replaced by one that has all rows that only they cover
(`replaceAt_cover`). What one step keeps, the loops keep (`reduceColCompressAll_all`,
`reduceColReplace31_all`, `reduceColReplace21Traverse_all`). If no test of the compression accepts a
false cover (`Accepts`), what is selected is a cover (`finish_cover`).
-/

namespace Msyn.SC

open Nodecircuit Bitprocess Bitvector

namespace Setcover

variable {s : Setcover}

/-! ## Compression -/

/-- The cover test of a solution in the whole instance. -/
theorem WellFormed.lite_iff (hs : s.WellFormed) (hcol : 0 < s.colSize) (sol : List Nat) :
    isSolutionLite s.pvaluesCol s.nomask sol = true ↔
      Passes s.rowSize fun i => sol.any fun p => (vec s.pvaluesCol p).bit i := by
  have hnomask : s.nomask = Bitvector.setSize s.rowSize := by
    rw [nomask, Bitvector.size, (hs.col 0 hcol).2]
  have hmask := setSize_good s.rowSize
  rw [hnomask, isSolutionLite_iff hmask.1 hs.pos hs.within]
  simp only [hmask.2, Bool.false_or]
  exact Iff.rfl

section
variable (hs : s.WellFormed) (hproper : s.Proper)
include hs hproper

/-- **A column that is left out** leaves a cover, true or false, as it does not cover all rows
alone. -/
theorem Cover.without {sol : List Nat} (h : s.Cover sol) {x : Nat} (hx : x ∈ sol)
    (htest : s.coversWithout sol x = true) :
    s.Cover (sol.filter (· ≠ x)) ∨ s.FalseCover (sol.filter (· ≠ x)) := by
  have hmem : ∀ q ∈ sol.filter (· ≠ x), q < s.colSize := fun q hq =>
    h.mem q (List.mem_filter.1 hq).1
  rcases (hs.lite_iff (Nat.zero_lt_of_lt (h.mem x hx)) _).1 htest with hall | ⟨hmod, hall, hnone⟩
  · exact .inl ⟨hmem, fun i hi => List.any_eq_true.1 (hall i hi)⟩
  · -- a row that `x` does not cover is before the last 64
    obtain ⟨r, hr, hxr⟩ := hproper x (h.mem x hx)
    obtain ⟨p, hp, hpr⟩ := h.rows r hr
    have hpx : p ≠ x := fun he => by
      rw [he, hxr] at hpr
      cases hpr
    have hlt : r < s.rowSize - 64 := by
      by_contra hge
      have hno := hnone r (Nat.le_of_not_lt hge)
      rw [List.any_eq_false] at hno
      exact hno p (List.mem_filter.2 ⟨hp, by simpa using hpx⟩) hpr
    exact .inr ⟨hmem, by omega, hmod, hall, fun i _ hi => hnone i hi⟩

/-- The columns that `ReduceColCompress` leaves of its solution when a test passes. -/
def passedFrom (s : Setcover) (done : List Nat) : List Nat → List (List Nat)
  | [] => []
  | x :: rest =>
    if s.coversWithout (done ++ x :: rest) x then
      (done ++ x :: rest).filter (· ≠ x) :: passedFrom s done rest
    else passedFrom s (done ++ [x]) rest

theorem compressFrom_cover {done rest : List Nat} (h : s.Cover (done ++ rest))
    (hpass : ∀ t ∈ s.passedFrom done rest, ¬s.FalseCover t) : s.Cover (s.compressFrom done rest) := by
  induction rest generalizing done with
  | nil =>
    rw [List.append_nil] at h
    exact h
  | cons x rest ih =>
    unfold passedFrom at hpass
    unfold compressFrom
    split
    · rename_i htest
      rw [if_pos htest] at hpass
      have hw := (h.without hs hproper (by simp) htest).resolve_right (hpass _ (by simp))
      refine ih ⟨fun p hp => h.mem p ?_, fun i hi => ?_⟩ fun t ht => hpass t (by simp [ht])
      · rcases List.mem_append.1 hp with hp | hp <;> simp [hp]
      · obtain ⟨p, hp, hpi⟩ := hw.rows i hi
        obtain ⟨hmem, hne⟩ := List.mem_filter.1 hp
        have hne : p ≠ x := by simpa using hne
        exact ⟨p, by simpa [hne] using hmem, hpi⟩
    · rename_i htest
      rw [if_neg htest] at hpass
      refine ih ?_ hpass
      rw [List.append_assoc]
      exact h

end

/-- The solutions that `ReduceColCompress_All` comes to by leaving out columns, as its tests allow. -/
inductive Drops (s : Setcover) (sol : List Nat) : List Nat → Prop
  | start : Drops s sol sol
  | drop {t : List Nat} {x : Nat} : Drops s sol t → x ∈ t → s.coversWithout t x = true →
      Drops s sol (t.filter (· ≠ x))

/-- The solution, or one that a test of its compression accepts. -/
def Accepts (s : Setcover) (sol t : List Nat) : Prop :=
  t = sol ∨ if sol.length ≤ 5 then s.Drops sol t else t ∈ s.passedFrom [] sol

/-! A property that holds of a solution with the columns left out that the test allows holds of what
a compression returns. -/

section
variable {P : List Nat → Prop}
  (hout : ∀ sol x, P sol → x ∈ sol → s.coversWithout sol x = true → P (sol.filter (· ≠ x)))
include hout

theorem extend_all {all : List (List Nat)} (hall : ∀ t ∈ all, P t) {sol : List Nat} (h : P sol) :
    (∀ t ∈ s.extend all sol, P t) ∧ all ⊆ s.extend all sol := by
  have key : ∀ (l : List Nat) (all : List (List Nat)), (∀ x ∈ l, x ∈ sol) →
      (∀ t ∈ all, P t) → ∀ all', l.foldl (fun all x =>
        if sol.filter (· ≠ x) ∈ all then all
        else if s.coversWithout sol x then all ++ [sol.filter (· ≠ x)] else all) all = all' →
      (∀ t ∈ all', P t) ∧ all ⊆ all' := by
    intro l
    induction l with
    | nil => exact fun all _ hall all' he => he ▸ ⟨hall, List.Subset.refl _⟩
    | cons x l ih =>
      intro all hl hall all' he
      rw [List.foldl_cons] at he
      have hl' : ∀ y ∈ l, y ∈ sol := fun y hy => hl y (by simp [hy])
      split at he
      · exact ih all hl' hall all' he
      · split at he
        · rename_i htest
          have hw := hout sol x h (hl x (by simp)) htest
          obtain ⟨h1, h2⟩ := ih _ hl' (fun t ht => (List.mem_append.1 ht).elim (hall t) fun ht =>
            List.mem_singleton.1 ht ▸ hw) all' he
          exact ⟨h1, fun t ht => h2 (List.mem_append_left _ ht)⟩
        · exact ih all hl' hall all' he
  exact key sol all (fun _ hx => hx) hall _ rfl

/-- The solutions of a compression, of which there is at least one. -/
theorem compressRounds_all {fuel : Nat} {t : Nat × List (List Nat)} (hne : t.2 ≠ [])
    (ht : ∀ sol ∈ t.2, P sol) {all : List (List Nat)}
    (h : loop s.compressRound fuel t = some all) : all ≠ [] ∧ ∀ sol ∈ all, P sol := by
  refine loop_post (I := fun t => t.2 ≠ [] ∧ ∀ sol ∈ t.2, P sol)
    (P := fun all => all ≠ [] ∧ ∀ sol ∈ all, P sol) (fun t t' hi hst => ?_)
    (fun t all hi hst => ?_) ⟨hne, ht⟩ h
  · unfold compressRound at hst
    split at hst
    · rename_i hlt
      cases hst
      have hdrop : ∀ sol ∈ t.2.drop t.1, P sol := fun sol hs => hi.2 sol (List.mem_of_mem_drop hs)
      have key : ∀ (l all : List (List Nat)), (∀ sol ∈ l, P sol) →
          (∀ sol ∈ all, P sol) → all ≠ [] →
          l.foldl s.extend all ≠ [] ∧ ∀ sol ∈ l.foldl s.extend all, P sol := by
        intro l
        induction l with
        | nil => exact fun all _ h1 h2 => ⟨h2, h1⟩
        | cons sol l ih =>
          intro all hl h1 h2
          obtain ⟨e1, e2⟩ := extend_all hout h1 (hl sol (by simp))
          obtain ⟨t, ht⟩ := List.exists_mem_of_ne_nil _ h2
          exact ih _ (fun t ht => hl t (by simp [ht])) e1 (List.ne_nil_of_mem (e2 ht))
      refine key _ _ hdrop hdrop fun hnil => ?_
      rw [List.drop_eq_nil_iff] at hnil
      omega
    · cases hst
  · unfold compressRound at hst
    split at hst
    · cases hst
    · cases hst
      exact hi

theorem reduceColCompressAll_all {fuel : Nat} {sol sol' : List Nat} (h : P sol)
    (hr : s.reduceColCompressAll fuel sol = some sol') : P sol' := by
  obtain ⟨all, hall, rfl⟩ := Option.map_eq_some_iff.1 hr
  obtain ⟨h1, h2⟩ := compressRounds_all hout (by simp) (by simpa using h) hall
  split
  · obtain ⟨t, all, rfl⟩ := List.exists_cons_of_ne_nil h1
    have key : ∀ (weigh : List Nat → Int) (l : List (List Nat)) (best : List Nat),
        P best → (∀ t ∈ l, P t) → P (l.foldl (fun best sol =>
          if sol.length < best.length ∨ sol.length = best.length ∧ weigh sol < weigh best then sol
          else best) best) := by
      intro weigh l
      induction l with
      | nil => exact fun best hb _ => hb
      | cons t l ih =>
        intro best hb hl
        rw [List.foldl_cons]
        refine ih _ ?_ fun t ht => hl t (by simp [ht])
        split
        · exact hl t (by simp)
        · exact hb
    exact key _ all t (h2 t (by simp)) fun t ht => h2 t (by simp [ht])
  · exact h

end

/-! ## Replacement -/

section
variable {csum : List Nat} {inexcluded : List InExType} {P : List Nat → Prop}
  (hrep : ∀ sol i js sol', (i :: js).Pairwise (· < ·) → (∀ p ∈ i :: js, p < sol.length) → P sol →
    s.replaceAt csum inexcluded sol (i :: js) = some (some sol') → P sol')
include hrep

theorem reduceColReplace21_all {fuel : Nat} {sol sol' : List Nat} (h : P sol)
    (hr : s.reduceColReplace21 fuel csum inexcluded sol = some sol') : P sol' := by
  refine loop_post (I := fun t => P t.1 ∧ t.2.1 < t.2.2)
    (P := fun r => ∀ sol', r = some sol' → P sol') (fun t t' hi hst => ?_)
    (fun t r hi hst => ?_) ⟨h, Nat.zero_lt_one⟩ (Option.join_eq_some_iff.1 hr) sol' rfl
  · obtain ⟨sol, i, j⟩ := t
    obtain ⟨hc, hij⟩ := hi
    unfold replace21Step at hst
    dsimp only at hst hc hij
    split at hst
    · split at hst
      · rename_i hj
        split at hst
        · cases hst
        · cases hst
          exact ⟨hc, Nat.lt_succ_of_lt hij⟩
        · rename_i sol1 h1
          cases hst
          refine ⟨hrep sol i [j] sol1 (by simpa using hij) (fun p hp => ?_) hc h1, Nat.zero_lt_one⟩
          simp only [List.mem_cons, List.not_mem_nil, or_false] at hp
          omega
      · cases hst
        exact ⟨hc, Nat.lt_succ_self _⟩
    · cases hst
  · obtain ⟨sol, i, j⟩ := t
    unfold replace21Step at hst
    dsimp only at hst
    split at hst
    · split at hst
      · split at hst
        · cases hst
          intro sol' he
          cases he
        · cases hst
        · cases hst
      · cases hst
    · cases hst
      intro sol' he
      cases he
      exact hi.1

theorem reduceColReplace31_all {fuel : Nat} {sol sol' : List Nat} (h : P sol)
    (hr : s.reduceColReplace31 fuel csum inexcluded sol = some sol') : P sol' := by
  refine loop_post (I := fun t => P t.1 ∧ t.2.1 < t.2.2.1 ∧ t.2.2.1 < t.2.2.2)
    (P := fun r => ∀ sol', r = some sol' → P sol') (fun t t' hi hst => ?_)
    (fun t r hi hst => ?_) ⟨h, Nat.zero_lt_one, Nat.one_lt_two⟩ (Option.join_eq_some_iff.1 hr) sol' rfl
  · obtain ⟨sol, i, j1, j2⟩ := t
    obtain ⟨hc, hij, hjj⟩ := hi
    unfold replace31Step at hst
    dsimp only at hst hc hij hjj
    split at hst
    · split at hst
      · split at hst
        · rename_i hj
          split at hst
          · cases hst
          · cases hst
            exact ⟨hc, hij, Nat.lt_succ_of_lt hjj⟩
          · rename_i sol1 h1
            cases hst
            refine ⟨hrep sol i [j1, j2] sol1 (by simp; omega) (fun p hp => ?_) hc h1,
              Nat.zero_lt_one, Nat.one_lt_two⟩
            simp only [List.mem_cons, List.not_mem_nil, or_false] at hp
            omega
        · cases hst
          exact ⟨hc, Nat.lt_succ_of_lt hij, Nat.lt_succ_self _⟩
      · cases hst
        exact ⟨hc, Nat.lt_succ_self _, Nat.lt_succ_self _⟩
    · cases hst
  · obtain ⟨sol, i, j1, j2⟩ := t
    unfold replace31Step at hst
    dsimp only at hst
    split at hst
    · split at hst
      · split at hst
        · split at hst
          · cases hst
            intro sol' he
            cases he
          · cases hst
          · cases hst
        · cases hst
      · cases hst
    · cases hst
      intro sol' he
      cases he
      exact hi.1

/-- Every order of the columns is tried. -/
theorem reduceColReplace21Traverse_all
    (hrot : ∀ sol start, P sol → P (sol.drop start ++ sol.take start)) {fuel : Nat}
    {sol sol' : List Nat} (h : P sol)
    (hr : s.reduceColReplace21Traverse fuel csum inexcluded sol = some sol') : P sol' := by
  obtain ⟨best, hbest, rfl⟩ := Option.map_eq_some_iff.1 hr
  have key : best.1 < sol.length → P best.2 := by
    refine foldlM_inv (P := fun best : Nat × List Nat => best.1 < sol.length → P best.2)
      (fun b b' start _ hb hst => ?_) (fun hlt => absurd hlt (Nat.lt_irrefl _)) hbest
    obtain ⟨tmp, htmp, rfl⟩ := Option.map_eq_some_iff.1 hst
    split
    · exact fun _ => reduceColReplace21_all hrep (hrot sol start h) htmp
    · exact hb
  split
  · rename_i hlt
    exact key hlt
  · exact h

end

/-! ## From `PRINT_EXIT` on -/

theorem ite_bind {α β : Type} (p : Prop) [Decidable p] (x y : Option α) (f : α → Option β) :
    (if p then x else y).bind f = if p then x.bind f else y.bind f := by
  split <;> rfl

/-- The three reductions, one after the other. -/
theorem finish_eq (fuel : Nat) (csum : List Nat) (inexcluded : List InExType) (sol : List Nat) :
    s.finish fuel csum inexcluded sol =
      (if 2 ≤ sol.length ∧ sol.length ≤ 5 then s.reduceColCompressAll fuel sol
        else if 6 ≤ sol.length then some (s.reduceColCompress sol) else some sol).bind fun sol =>
      (if 5 < sol.length then s.reduceColReplace31 fuel csum inexcluded sol else some sol).bind
        fun sol =>
      (if 2 ≤ sol.length ∧ sol.length ≤ 5 then
          s.reduceColReplace21Traverse fuel csum inexcluded sol
        else if 6 ≤ sol.length then s.reduceColReplace21 fuel csum inexcluded sol
        else some sol).bind fun sol =>
      some (if isSolutionLite s.pvaluesCol s.nomask sol then 1 else 0,
        sol.map fun p => s.signals.getD p 0) := by
  simp only [finish, ite_bind]
  rfl

/-- **What is selected** covers all rows, when the search found a cover and the tests of the
compression accept no false one. -/
theorem finish_cover (hs : s.WellFormed) {csum : List Nat} (hcsum : ∀ k ∈ csum, k < s.colSize)
    {inexcluded : List InExType} {fuel : Nat} {sol : List Nat} (h : s.Found sol)
    (hacc : ∀ t, s.Accepts sol t → ¬s.FalseCover t) {r : Nat × List NodeId}
    (hr : s.finish fuel csum inexcluded sol = some r) :
    ∃ sol', s.Cover sol' ∧ r.2 = sol'.map fun p => s.signals.getD p 0 := by
  rw [finish_eq] at hr
  have hrep : ∀ (sol : List Nat) (i : Nat) (js sol' : List Nat), (i :: js).Pairwise (· < ·) →
      (∀ p ∈ i :: js, p < sol.length) → s.Cover sol →
      s.replaceAt csum inexcluded sol (i :: js) = some (some sol') → s.Cover sol' :=
    fun _ _ _ _ hsorted hps hc hr => replaceAt_cover hsorted hps hs.columns hc hcsum hr
  obtain ⟨sol1, h1, hr⟩ := Option.bind_eq_some_iff.1 hr
  have c1 : s.Cover sol1 := by
    split at h1
    · rename_i hlen
      refine (reduceColCompressAll_all (P := fun t => s.Cover t ∧ s.Drops sol t)
        (fun t x ht hx htest => ?_) ⟨h.toCover, .start⟩ h1).1
      have hdrop := ht.2.drop hx htest
      refine ⟨(ht.1.without hs (h.proper hlen.1) hx htest).resolve_right (hacc _ (.inr ?_)), hdrop⟩
      rw [if_pos hlen.2]
      exact hdrop
    · split at h1
      · rename_i hlen
        cases h1
        refine compressFrom_cover hs (h.proper (by omega)) h.toCover fun t ht => hacc t (.inr ?_)
        rw [if_neg (by omega)]
        exact ht
      · cases h1
        exact h.toCover
  obtain ⟨sol2, h2, hr⟩ := Option.bind_eq_some_iff.1 hr
  have c2 : s.Cover sol2 := by
    split at h2
    · exact reduceColReplace31_all hrep c1 h2
    · cases h2
      exact c1
  obtain ⟨sol3, h3, hr⟩ := Option.bind_eq_some_iff.1 hr
  have c3 : s.Cover sol3 := by
    split at h3
    · refine reduceColReplace21Traverse_all hrep (fun sol start hc => ?_) c2 h3
      -- the columns in another order
      have hperm : (sol.drop start ++ sol.take start).Perm sol :=
        List.perm_append_comm.trans (List.Perm.of_eq (List.take_append_drop start sol))
      exact hc.congr hperm.symm.subset hperm.subset
    · split at h3
      · exact reduceColReplace21_all hrep c2 h3
      · cases h3
        exact c2
  cases hr
  exact ⟨sol3, c3, rfl⟩

end Setcover

end Msyn.SC
