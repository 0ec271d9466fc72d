import Msyn.Lib.SwapErase
import Msyn.Select.MinColFound

/-!
# Replacing columns of a cover

`replaceAt` replaces the columns at two or three places of a solution by one listed column that has
all rows which only they cover. A cover stays one (`replaceAt_cover`). On a list that is ordered by
count and has no excluded column the scan for that column ends (`replaceAt_total`), and if there is
none the columns at the places are `Irreplaceable`.
-/

namespace Msyn.SC

open Nodecircuit Bitprocess Bitvector

namespace Setcover

variable {s : Setcover}

/-- The columns are bit vectors of the rows. -/
structure Columns (s : Setcover) : Prop where
  length : s.pvaluesCol.length = s.colSize
  col : ∀ k < s.colSize, (vec s.pvaluesCol k).Good ∧ (vec s.pvaluesCol k).bsize = s.rowSize

theorem WellFormed.columns (hs : s.WellFormed) : s.Columns := ⟨hs.colLength, hs.col⟩

/-- A cover is a matter of its columns. -/
theorem Cover.congr {sol sol' : List Nat} (h : s.Cover sol) (hsub : sol ⊆ sol')
    (hsub' : sol' ⊆ sol) : s.Cover sol' where
  mem p hp := h.mem p (hsub' hp)
  rows i hi := by
    obtain ⟨p, hp, hpi⟩ := h.rows i hi
    exact ⟨p, hsub hp, hpi⟩

/-- A matrix of columns with the given rows. -/
def ofColumns (n : Nat) (rows : List (List Nat)) (weight : NodeId → Int) : Setcover where
  signals := List.range rows.length
  weight
  rowSize := n
  colSize := rows.length
  pvaluesCol := rows.map (column n)

theorem ofColumns_columns {n : Nat} {rows : List (List Nat)} (hrows : ∀ l ∈ rows, ∀ i ∈ l, i < n)
    (weight : NodeId → Int) : (ofColumns n rows weight).Columns where
  length := List.length_map _
  col k hk := by
    have hlen : k < (rows.map (column n)).length := by rwa [List.length_map]
    have hvec : vec (ofColumns n rows weight).pvaluesCol k = (rows.map (column n))[k] :=
      vec_eq_getElem hlen
    obtain ⟨l, hl, he⟩ := List.mem_map.1 (List.getElem_mem hlen)
    rw [hvec, ← he]
    exact column_good (hrows l hl)

/-! ## Places that are dropped -/

/-- An entry at another place is still there, not before the place that was filled. -/
theorem dropAt_spec {sol : List Nat} {j : Nat} (hj : j < sol.length) :
    (dropAt sol j).length = sol.length - 1 ∧ dropAt sol j ⊆ sol ∧
      ∀ m, m < sol.length → m ≠ j → ∃ m', m' < (dropAt sol j).length ∧
        (dropAt sol j).getD m' 0 = sol.getD m 0 ∧ (m' = m ∨ m' = j) := by
  have hlen : (dropAt sol j).length = sol.length - 1 := by simp [dropAt]
  have hget : ∀ m', m' < sol.length - 1 → (dropAt sol j).getD m' 0 =
      if j = m' then sol.getD (sol.length - 1) 0 else sol.getD m' 0 := by
    intro m' hm'
    rw [List.getD_eq_getElem _ _ (hlen.symm ▸ hm')]
    simp only [dropAt, List.getElem_dropLast, List.getElem_set]
    split
    · rfl
    · exact (List.getD_eq_getElem _ _ (by omega)).symm
  refine ⟨hlen, fun x hx => ?_, fun m hm hne => ?_⟩
  · rcases List.mem_or_eq_of_mem_set (List.mem_of_mem_dropLast hx) with hx | rfl
    · exact hx
    · exact getD_mem (by omega)
  · by_cases hlast : m = sol.length - 1
    · refine ⟨j, by omega, ?_, .inr rfl⟩
      rw [hget j (by omega), if_pos rfl, hlast]
    · refine ⟨m, by omega, ?_, .inl rfl⟩
      rw [hget m (by omega), if_neg fun h => hne h.symm]

/-- The entries at the places that are not dropped are still there. -/
theorem dropAts_spec {ps : List Nat} (hsorted : ps.Pairwise (· > ·)) {sol : List Nat}
    (hps : ∀ p ∈ ps, p < sol.length) : ps.foldl dropAt sol ⊆ sol ∧
      ∀ m, m < sol.length → m ∉ ps → sol.getD m 0 ∈ ps.foldl dropAt sol := by
  induction ps generalizing sol with
  | nil => exact ⟨List.Subset.refl _, fun m hm _ => getD_mem hm⟩
  | cons j ps ih =>
    obtain ⟨hj, hsorted⟩ := List.pairwise_cons.1 hsorted
    have hjlt := hps j (by simp)
    obtain ⟨d1, d2, d3⟩ := dropAt_spec hjlt
    obtain ⟨ih1, ih2⟩ := @ih hsorted (dropAt sol j) fun p hp => by
      have := hj p hp
      omega
    refine ⟨fun x hx => d2 (ih1 hx), fun m hm hmem => ?_⟩
    rw [List.mem_cons, not_or] at hmem
    obtain ⟨m', h1, h2, h3⟩ := d3 m hm hmem.1
    rw [List.foldl_cons, ← h2]
    refine ih2 m' h1 ?_
    rcases h3 with rfl | rfl
    · exact hmem.2
    · exact fun hin => absurd (hj m' hin) (Nat.lt_irrefl _)

theorem dropAt_eq_swapErase {sol : List Nat} {j : Nat} (hj : j < sol.length) :
    dropAt sol j = swapErase sol j := by
  have hlast : sol.length - 1 < sol.length := by omega
  rw [dropAt, swapErase, List.getElem?_eq_getElem hlast, List.getD_eq_getElem _ _ hlast]

/-- What is dropped and what stays. -/
theorem dropAt_perm {sol : List Nat} {j : Nat} (hj : j < sol.length) :
    (sol.getD j 0 :: dropAt sol j).Perm sol := by
  rw [dropAt_eq_swapErase hj, List.getD_eq_getElem _ _ hj]
  exact swapErase_perm hj

theorem dropAts_perm {ps : List Nat} (hsorted : ps.Pairwise (· > ·)) {sol : List Nat}
    (hps : ∀ p ∈ ps, p < sol.length) :
    (ps.map (fun p => sol.getD p 0) ++ ps.foldl dropAt sol).Perm sol := by
  induction ps generalizing sol with
  | nil => exact List.Perm.refl _
  | cons j ps ih =>
    obtain ⟨hj, hsorted⟩ := List.pairwise_cons.1 hsorted
    have hjlt := hps j (by simp)
    have hlen := (dropAt_spec hjlt).1
    have hget : ps.map (fun p => sol.getD p 0) = ps.map fun p => (dropAt sol j).getD p 0 := by
      refine List.map_congr_left fun p hp => ?_
      have hpj : p < j := hj p hp
      have hp' : p < (dropAt sol j).length := by omega
      rw [List.getD_eq_getElem _ _ hp', List.getD_eq_getElem _ _ (by omega)]
      simp only [dropAt, List.getElem_dropLast, List.getElem_set]
      rw [if_neg (by omega)]
    rw [List.map_cons, List.foldl_cons, hget]
    refine List.Perm.trans ?_ (dropAt_perm hjlt)
    exact (ih hsorted fun p hp => by
      have := hj p hp
      omega).cons _

/-! ## The rows of the places -/

section
variable (hc : s.Columns) {sol : List Nat} (hsol : ∀ p ∈ sol, p < s.colSize)
include hc hsol

/-- `both` holds the rows that are covered at the places `ps` and nowhere else. -/
theorem bothOf_spec {i : Nat} {js : List Nat} (hps : ∀ p ∈ i :: js, p < sol.length) :
    (bothOf s.pvaluesCol sol (i :: js)).Good ∧
      (bothOf s.pvaluesCol sol (i :: js)).bsize = s.rowSize ∧
      ∀ r, (bothOf s.pvaluesCol sol (i :: js)).bit r = true ↔
        (∃ p ∈ i :: js, (vec s.pvaluesCol (sol.getD p 0)).bit r = true) ∧
          ∀ m < sol.length, m ∉ i :: js → (vec s.pvaluesCol (sol.getD m 0)).bit r = false := by
  have hcol : ∀ p < sol.length, (vec s.pvaluesCol (sol.getD p 0)).Good ∧
      (vec s.pvaluesCol (sol.getD p 0)).bsize = s.rowSize :=
    fun p hp => hc.col _ (hsol _ (getD_mem hp))
  -- the columns together
  have hor : ∀ (js : List Nat) (v : Bitvector), (∀ p ∈ js, p < sol.length) → v.Good →
      v.bsize = s.rowSize → ∀ v', js.foldl (fun both j =>
        both.orCount (vec s.pvaluesCol (sol.getD j 0))) v = v' → (v'.Good ∧ v'.bsize = s.rowSize) ∧
        ∀ r, v'.bit r = true ↔
          v.bit r = true ∨ ∃ p ∈ js, (vec s.pvaluesCol (sol.getD p 0)).bit r = true := by
    intro js
    induction js with
    | nil => exact fun v _ h1 h2 v' h3 => h3 ▸ ⟨⟨h1, h2⟩, fun r => by simp⟩
    | cons j js ih =>
      intro v hj h1 h2 v' h3
      obtain ⟨g1, g2⟩ := hcol j (hj j (by simp))
      obtain ⟨o1, o2, o3⟩ := h1.orCount g1 (g2.trans h2.symm)
      obtain ⟨k1, k2⟩ := ih _ (fun p hp => hj p (by simp [hp])) o1 (o2.trans h2) v' h3
      refine ⟨k1, fun r => ?_⟩
      rw [k2, o3, Bool.or_eq_true, or_assoc, List.exists_mem_cons_iff]
  -- without the rows of the other columns
  have hmask : ∀ (l : List Nat) (v : Bitvector), v.Good → v.bsize = s.rowSize →
      ∀ v', l.foldl (fun both m =>
        if m ∈ i :: js then both else both.maskCount (vec s.pvaluesCol (sol.getD m 0))) v = v' →
      (v'.Good ∧ v'.bsize = s.rowSize) ∧ ∀ r, v'.bit r = true ↔ v.bit r = true ∧
        ∀ m ∈ l, m ∉ i :: js → (vec s.pvaluesCol (sol.getD m 0)).bit r = false := by
    intro l
    induction l with
    | nil => exact fun v h1 h2 v' h3 => h3 ▸ ⟨⟨h1, h2⟩, fun r => by simp⟩
    | cons m l ih =>
      intro v h1 h2 v' h3
      rw [List.foldl_cons] at h3
      split at h3
      · rename_i hin
        obtain ⟨k1, k2⟩ := ih v h1 h2 v' h3
        refine ⟨k1, fun r => ?_⟩
        rw [k2, List.forall_mem_cons]
        exact and_congr_right fun _ => (and_iff_right fun hnot => absurd hin hnot).symm
      · rename_i hnot
        obtain ⟨m1, m2, m3⟩ := h1.maskCount (vec s.pvaluesCol (sol.getD m 0))
        obtain ⟨k1, k2⟩ := ih _ m1 (m2.trans h2) v' h3
        refine ⟨k1, fun r => ?_⟩
        rw [k2, m3, Bool.and_eq_true, Bool.not_eq_true', List.forall_mem_cons, and_assoc]
        exact and_congr_right fun _ => and_congr_left fun _ => (imp_iff_right hnot).symm
  obtain ⟨c1, c2⟩ := Good.copy {} (hcol i (hps i (by simp))).1
  obtain ⟨⟨o1, o2⟩, o3⟩ := hor js _ (fun p hp => hps p (by simp [hp])) c1
    (hcol i (hps i (by simp))).2 _ rfl
  obtain ⟨⟨k1, k2⟩, k3⟩ := hmask (List.range sol.length) _ o1 o2 _ rfl
  refine ⟨k1, k2, fun r => ?_⟩
  have hr := k3 r
  rw [o3, c2] at hr
  rw [List.exists_mem_cons_iff]
  simp only [List.mem_range] at hr
  exact hr

end

/-! ## The column that is put there -/

theorem findCol_spec {csum sol : List Nat} {inexcluded : List InExType} {both : Bitvector} {k : Nat}
    (hk : k ≤ csum.length) {newcol : Nat}
    (hf : s.findCol csum sol inexcluded both k = some (some newcol)) :
    newcol ∈ csum ∧ newcol ∉ sol ∧ both.countAnd (vec s.pvaluesCol newcol) = both.count := by
  induction k with
  | zero => cases hf
  | succ k ih =>
    unfold findCol at hf
    dsimp only at hf
    split at hf
    · exact ih (by omega) hf
    · rename_i hnot
      split at hf
      · split at hf
        · rename_i heq
          cases hf
          exact ⟨getD_mem (by omega), hnot, heq⟩
        · exact ih (by omega) hf
      · cases hf

/-- The scan ends on large columns that are not excluded; what it passes over is in the solution or
does not have all rows. -/
theorem findCol_total {csum sol : List Nat} {inexcluded : List InExType} {both : Bitvector}
    (hex : ∀ p ∈ csum, inexcluded.getD p .noInEx ≠ .excludedFlag) {k : Nat} (hk : k ≤ csum.length)
    (hlarge : ∀ m < k, both.count ≤ (vec s.pvaluesCol (csum.getD m 0)).count) :
    ∃ r, s.findCol csum sol inexcluded both k = some r ∧ (r = none → ∀ m < k,
      csum.getD m 0 ∉ sol → both.countAnd (vec s.pvaluesCol (csum.getD m 0)) ≠ both.count) := by
  induction k with
  | zero => exact ⟨none, rfl, fun _ m hm => absurd hm (Nat.not_lt_zero m)⟩
  | succ k ih =>
    obtain ⟨r, hr, hnone⟩ := ih (by omega) fun m hm => hlarge m (by omega)
    unfold findCol
    dsimp only
    split
    · rename_i hin
      refine ⟨r, hr, fun he m hm hnot => ?_⟩
      rcases Nat.lt_succ_iff_lt_or_eq.1 hm with hm | rfl
      · exact hnone he m hm hnot
      · exact absurd hin hnot
    · rw [if_pos ⟨hlarge k (Nat.lt_succ_self k), hex _ (getD_mem (by omega))⟩]
      split
      · exact ⟨_, rfl, fun he => by cases he⟩
      · rename_i hne
        refine ⟨r, hr, fun he m hm hnot => ?_⟩
        rcases Nat.lt_succ_iff_lt_or_eq.1 hm with hm | rfl
        · exact hnone he m hm hnot
        · exact hne

/-- No listed column outside of the solution can stand for the columns `xs` of it. -/
def Irreplaceable (s : Setcover) (csum sol xs : List Nat) : Prop :=
  ∀ c ∈ csum, c ∉ sol → ¬s.Cover (c :: sol.filter (· ∉ xs))

section
variable {sol csum : List Nat} {inexcluded : List InExType} {i : Nat} {js : List Nat}

theorem replaceAt_perm {sol' : List Nat}
    (hr : s.replaceAt csum inexcluded sol (i :: js) = some (some sol')) :
    ∃ newcol ∈ csum, newcol ∉ sol ∧ (bothOf s.pvaluesCol sol (i :: js)).countAnd
        (vec s.pvaluesCol newcol) = (bothOf s.pvaluesCol sol (i :: js)).count ∧
      sol'.Perm (newcol :: (i :: js).reverse.foldl dropAt sol) := by
  unfold replaceAt at hr
  dsimp only at hr
  split at hr
  · cases hr
  · cases hr
  · rename_i newcol hf
    obtain ⟨f1, f2, f3⟩ := findCol_spec (List.takeWhile_sublist _).length_le hf
    obtain ⟨sol1, hsort, he⟩ := Option.map_eq_some_iff.1 hr
    cases he
    exact ⟨newcol, f1, f2, f3,
      (Quicksort.sort_perm _ (by simp) hsort).trans (List.perm_append_singleton _ _)⟩

section
variable (hsorted : (i :: js).Pairwise (· < ·)) (hps : ∀ p ∈ i :: js, p < sol.length)
include hsorted hps

/-- **A replacement** gives a cover. -/
theorem replaceAt_cover (hc : s.Columns) (h : s.Cover sol) (hcsum : ∀ k ∈ csum, k < s.colSize)
    {sol' : List Nat} (hr : s.replaceAt csum inexcluded sol (i :: js) = some (some sol')) :
    s.Cover sol' := by
  obtain ⟨b1, -, b2⟩ := bothOf_spec hc h.mem hps
  obtain ⟨newcol, f1, -, f2, hperm⟩ := replaceAt_perm hr
  obtain ⟨d1, d2⟩ := @dropAts_spec _ (List.pairwise_reverse.2 hsorted) sol
    fun p hp => hps p (List.mem_reverse.1 hp)
  have hcover : s.Cover (newcol :: (i :: js).reverse.foldl dropAt sol) := by
    refine ⟨fun p hp => ?_, fun r hr => ?_⟩
    · rcases List.mem_cons.1 hp with rfl | hp
      · exact hcsum p f1
      · exact h.mem p (d1 hp)
    · by_cases hrest : ∃ m < sol.length, m ∉ i :: js ∧
          (vec s.pvaluesCol (sol.getD m 0)).bit r = true
      · obtain ⟨m, hm, hnot, hbit⟩ := hrest
        exact ⟨_, List.mem_cons_of_mem _ (d2 m hm fun hin => hnot (List.mem_reverse.1 hin)), hbit⟩
      · -- only the places that are dropped cover the row
        push Not at hrest
        have hfree : ∀ m < sol.length, m ∉ i :: js →
            (vec s.pvaluesCol (sol.getD m 0)).bit r = false :=
          fun m hm hnot => (Bool.not_eq_true _).mp (hrest m hm hnot)
        obtain ⟨p, hp, hbit⟩ := h.rows r hr
        obtain ⟨m, hm, rfl⟩ := List.getElem_of_mem hp
        rw [← List.getD_eq_getElem _ 0 hm] at hbit
        have hin : m ∈ i :: js := by
          by_contra hnot
          rw [hfree m hm hnot] at hbit
          cases hbit
        exact ⟨newcol, by simp, subset_of_countAnd b1 f2 ((b2 r).2 ⟨⟨m, hin, hbit⟩, hfree⟩)⟩
  exact hcover.congr hperm.symm.subset hperm.subset

/-- The new solution is duplicate-free, smaller by all places but one, and has one new column. -/
theorem replaceAt_nodup (hnodup : sol.Nodup) {sol' : List Nat}
    (hr : s.replaceAt csum inexcluded sol (i :: js) = some (some sol')) :
    sol'.Nodup ∧ sol'.length + js.length = sol.length ∧
      ∃ newcol ∈ csum, newcol ∉ sol ∧ newcol ∈ sol' ∧ ∀ x ∈ sol', x = newcol ∨ x ∈ sol := by
  obtain ⟨newcol, f1, f2, -, hperm⟩ := replaceAt_perm hr
  have hdrop := dropAts_perm (List.pairwise_reverse.2 hsorted)
    fun p hp => hps p (List.mem_reverse.1 hp)
  have hrest := (List.nodup_append.1 (hdrop.nodup_iff.2 hnodup)).2.1
  have hsub : (i :: js).reverse.foldl dropAt sol ⊆ sol :=
    fun x hx => hdrop.subset (List.mem_append_right _ hx)
  refine ⟨hperm.nodup_iff.2 (List.nodup_cons.2 ⟨fun hin => f2 (hsub hin), hrest⟩), ?_,
    newcol, f1, f2, hperm.symm.subset (by simp), fun x hx => ?_⟩
  · have h1 := hperm.length_eq
    have h2 := hdrop.length_eq
    simp only [List.length_append, List.length_map, List.length_reverse, List.length_cons] at h1 h2
    omega
  · exact (List.mem_cons.1 (hperm.subset hx)).imp_right fun hin => hsub hin

end

/-- A list of columns that is ordered by count and has no excluded column. -/
structure Sorted (s : Setcover) (csum : List Nat) (inexcluded : List InExType) : Prop where
  mem : ∀ p ∈ csum, p < s.colSize
  sorted : csum.Pairwise fun p q => (vec s.pvaluesCol q).count ≤ (vec s.pvaluesCol p).count
  free : ∀ p ∈ csum, inexcluded.getD p .noInEx ≠ .excludedFlag

/-- **The replacement is total**; without one the columns at the places are irreplaceable. -/
theorem replaceAt_total (hc : s.Columns) (hcsum : s.Sorted csum inexcluded) (h : s.Cover sol)
    (hps : ∀ p ∈ i :: js, p < sol.length) :
    ∃ r, s.replaceAt csum inexcluded sol (i :: js) = some r ∧
      (r = none → s.Irreplaceable csum sol ((i :: js).map fun p => sol.getD p 0)) := by
  obtain ⟨b1, b2, b3⟩ := bothOf_spec hc h.mem hps
  obtain ⟨both, hboth⟩ : ∃ both, both = bothOf s.pvaluesCol sol (i :: js) := ⟨_, rfl⟩
  rw [← hboth] at b1 b2 b3
  obtain ⟨k, hk⟩ : ∃ k, k =
      (csum.takeWhile fun p => both.count ≤ (vec s.pvaluesCol p).count).length := ⟨_, rfl⟩
  have hle : k ≤ csum.length := hk ▸ (List.takeWhile_sublist _).length_le
  have hanti : csum.Pairwise fun p q => decide (both.count ≤ (vec s.pvaluesCol q).count) = true →
      decide (both.count ≤ (vec s.pvaluesCol p).count) = true :=
    hcsum.sorted.imp fun hle => by
      rw [decide_eq_true_eq, decide_eq_true_eq]
      exact fun hq => hq.trans hle
  have hlarge : ∀ m < csum.length, m < k ↔
      both.count ≤ (vec s.pvaluesCol (csum.getD m 0)).count := fun m hm => by
    rw [hk, length_takeWhile_of_pairwise hanti, lt_countP_iff hanti hm, decide_eq_true_eq]
  obtain ⟨r, hr, hnone⟩ := @findCol_total s csum sol inexcluded both hcsum.free k hle
    fun m hm => (hlarge m (by omega)).1 hm
  have hr' : s.findCol csum sol inexcluded (bothOf s.pvaluesCol sol (i :: js))
      (csum.takeWhile fun p => (bothOf s.pvaluesCol sol (i :: js)).count ≤
        (vec s.pvaluesCol p).count).length = some r := by
    rw [← hboth, ← hk]
    exact hr
  unfold replaceAt
  simp only [hr']
  cases r with
  | some newcol =>
    obtain ⟨sol', hsort, -⟩ := Quicksort.sort_spec s.weightOf
      (l := (i :: js).reverse.foldl dropAt sol ++ [newcol]) (by simp)
    refine ⟨some sol', ?_, fun he => by cases he⟩
    have hwei : s.sortWei ((i :: js).reverse.foldl dropAt sol ++ [newcol]) = some sol' := hsort
    show Option.map some (s.sortWei _) = _
    rw [hwei]
    rfl
  | none =>
    refine ⟨none, rfl, fun _ c hcmem hcnot hcover => ?_⟩
    obtain ⟨m, hm, rfl⟩ := List.getElem_of_mem hcmem
    rw [← List.getD_eq_getElem _ 0 hm] at hcmem hcnot hcover
    obtain ⟨g1, g2⟩ := hc.col _ (hcsum.mem _ hcmem)
    -- the column has all rows of the places
    have hsub : ∀ r, both.bit r = true → (vec s.pvaluesCol (csum.getD m 0)).bit r = true := by
      intro r hbit
      have hrow : r < s.rowSize := by
        by_contra hge
        rw [b1.beyond r (by omega)] at hbit
        cases hbit
      obtain ⟨p, hp, hpr⟩ := hcover.rows r hrow
      rcases List.mem_cons.1 hp with rfl | hp
      · exact hpr
      · obtain ⟨hpsol, hpnot⟩ := List.mem_filter.1 hp
        obtain ⟨n, hn, rfl⟩ := List.getElem_of_mem hpsol
        have hnot : n ∉ i :: js := fun hin => of_decide_eq_true hpnot
          (List.mem_map.2 ⟨n, hin, List.getD_eq_getElem _ _ hn⟩)
        have hfree := ((b3 r).1 hbit).2 n hn hnot
        rw [List.getD_eq_getElem _ _ hn, hpr] at hfree
        cases hfree
    refine hnone rfl m ((hlarge m hm).2 ?_) hcnot ?_
    · exact count_le_of_subset b1 g1 (b2.trans g2.symm) hsub
    · exact countAnd_of_subset b1 (b2.trans g2.symm) hsub

end

end Setcover

end Msyn.SC
