import Msyn.Lib.GreedyCover
import Msyn.Select.Covering

/-!
# How good the greedy covers are

When `k` candidates cover all `n` rows, `t` calls of `SelectOnce` leave at most
`n * ((k - 1) / k) ^ t` rows, so that `Select` only gives up under a limit that is below the first
`t` where this is less than 1 (`select_greedy_bound`). The bound is that of `Greedy`, with the rows
as the points and the clusters as the sets.
-/

namespace Msyn.Setcover

open Nodecircuit Bitprocess GreedyCover

/-- Some `k` candidates cover all rows together. -/
def CoveredBy (c : Circuit) (clus : List ClusterId) (sigs : List NodeId) (all : List (List Bool))
    (k : Nat) : Prop :=
  ∃ js : List ClusterId, js.length = k ∧ (∀ j ∈ js, j ∈ clus) ∧
    ∀ row ∈ all, ∃ j ∈ js, rowCovered c sigs row j = true

/-- The number of rows that no selected cluster covers. -/
def uncovered (c : Circuit) (sigs : List NodeId) (all : List (List Bool)) (sel : List ClusterId) :
    Nat :=
  all.countP fun row => !(sel.any fun j => rowCovered c sigs row j)

namespace SetcoverM

/-- `t` calls of `SelectOnce` that succeed. -/
def selectTimes (c : Circuit) (r : SetcoverM × List ClusterId × NodeSet) :
    Nat → Option (SetcoverM × List ClusterId × NodeSet)
  | 0 => some r
  | t + 1 => (selectTimes c r t).bind (selectOnce c)

section
variable {s : SetcoverM} {c : Circuit} (hcol : s.Columns c)
  (hmask : s.mask = Bitvector.setSize s.rowSize)
include hcol hmask

theorem selectTimes_picked {t : Nat} {r : SetcoverM × List ClusterId × NodeSet}
    (h : selectTimes c (s, [], ∅) t = some r) : s.Picked c r ∧ r.2.1.length = t := by
  induction t generalizing r with
  | zero =>
    cases h
    exact ⟨Picked.start hmask, rfl⟩
  | succ t ih =>
    obtain ⟨r1, h1, h⟩ := Option.bind_eq_some_iff.1 h
    obtain ⟨hp, hlen⟩ := ih h1
    obtain ⟨hp', -, hlen'⟩ := hp.selectOnce hcol h
    exact ⟨hp', by rw [hlen', hlen]⟩

/-- The report that there is no solution comes when no candidate gains anything, or when the limit
is reached and a row is left. -/
theorem selectRun_reports {limit : Int} {r' : SetcoverM × List ClusterId × NodeSet}
    (h : s.selectRun c limit = some (false, r')) : ∃ r, s.Picked c r ∧
      r.1.mask.count ≠ r.1.rowSize ∧ (selectOnce c r = none ∨ limit ≤ r.2.1.length) := by
  refine loop_post (I := s.Picked c) (P := fun out => out.1 = false → ∃ r, s.Picked c r ∧
    r.1.mask.count ≠ r.1.rowSize ∧ (selectOnce c r = none ∨ limit ≤ r.2.1.length))
    (fun r r' hp hs => ?_) (fun r out hp hs => ?_) (Picked.start hmask) h rfl
  · unfold selectStep at hs
    split at hs
    · split at hs
      · rename_i r1 h1
        split at hs <;> cases hs
        exact (hp.selectOnce hcol h1).1
      · cases hs
    · cases hs
  · unfold selectStep at hs
    split at hs
    · rename_i hleft
      split at hs
      · rename_i r1 h1
        split at hs
        · rename_i hex
          cases hs
          refine fun _ => ⟨r, hp, hleft, .inr ?_⟩
          obtain ⟨-, -, hlen⟩ := hp.selectOnce hcol h1
          simp only [exceeds, Bool.and_eq_true, decide_eq_true_eq] at hex
          omega
        · cases hs
      · rename_i hnone
        cases hs
        exact fun _ => ⟨r, hp, hleft, .inl hnone⟩
    · cases hs
      intro hf
      cases hf

end

end SetcoverM

section
variable {c : Circuit} {clus : List ClusterId} {sigs : List NodeId} {s : SetcoverM}
  {all : List (List Bool)} (h : Filled c clus sigs s all) (hR : s.Rows all)
  (hsig : ∀ k ∈ clus, ∀ n ∈ (c.cluster k).inputNodes, Listed c sigs n)
  {r : SetcoverM × List ClusterId × NodeSet} (hp : s.Picked c r)
include h hR hsig hp

/-- The mask leaves out the uncovered rows. -/
theorem Filled.mask_count : r.1.mask.count + uncovered c sigs all r.2.1 = all.length := by
  have hmask : ∀ i, r.1.mask.bit i =
      r.2.1.any fun j => rowCovered c sigs (all.getD i []) j := by
    intro i
    rw [hp.mask]
    exact any_congr_mem fun j hj => h.coveredBy hR hsig (h.candsC ▸ hp.mem j hj) i
  have hcount : r.1.mask.count =
      all.countP fun row => r.2.1.any fun j => rowCovered c sigs row j := by
    rw [Bitvector.count, hp.good.counter, hp.size, hR.rowSize, ← countP_getD]
    exact List.countP_congr fun i _ => by rw [hmask]
  have hsplit := List.length_eq_countP_add_countP
    (fun row => r.2.1.any fun j => rowCovered c sigs row j) (l := all)
  simp only [Bool.not_eq_true, Bool.decide_eq_false] at hsplit
  rw [hcount, uncovered, hsplit]

/-- The selected clusters are greedy picks. -/
theorem Filled.greedy : Greedy (fun k row => rowCovered c sigs row k) all clus r.2.1 := by
  intro pre k post hs k' hk'
  have hmem : ∀ j ∈ r.2.1, j ∈ clus := fun j hj => h.candsC ▸ hp.mem j hj
  have hpre : ∀ j ∈ pre, j ∈ clus := fun j hj => hmem j (by rw [hs]; simp [hj])
  have hk : k ∈ clus := hmem k (by rw [hs]; simp)
  have hfresh := hp.greedy pre k post hs k' (h.candsC.symm ▸ hk')
  rwa [h.fresh hR hsig hk hpre, h.fresh hR hsig hk' hpre] at hfresh

variable {k : Nat} (hk : 1 ≤ k) (hcov : CoveredBy c clus sigs all k)
include hcov

/-- A row that is left is covered by a candidate, which `SelectOnce` then finds. -/
theorem Filled.selectOnce_isSome (hleft : r.1.mask.count ≠ r.1.rowSize) :
    (SetcoverM.selectOnce c r).isSome := by
  rw [← Option.ne_none_iff_isSome]
  intro hnone
  obtain ⟨i, hi, hun⟩ := hp.selectOnce_none (h.columns hR hsig) hnone hleft
  have hi : i < all.length := hR.rowSize ▸ hi
  obtain ⟨js, -, hjs, hrows⟩ := hcov
  obtain ⟨j, hj, hrow⟩ := hrows _ (List.getElem_mem hi)
  have := hun j (h.candsC.symm ▸ hjs j hj)
  rw [h.coveredBy hR hsig (hjs j hj), List.getD_eq_getElem _ _ hi, hrow] at this
  cases this

include hk

theorem Filled.uncovered_le : uncovered c sigs all r.2.1 * k ^ r.2.1.length ≤
    all.length * (k - 1) ^ r.2.1.length := by
  obtain ⟨js, rfl, hjs, hrows⟩ := hcov
  have hg : Greedy (fun k row => rowCovered c sigs row k) all js r.2.1 :=
    fun pre p post hs j hj => h.greedy hR hsig hp pre p post hs j (hjs j hj)
  exact hg.left_mul_pow_le hrows hk

/-- While a row is left, the first `t` with `n * (k - 1) ^ t < k ^ t` is not reached. -/
theorem Filled.length_lt (hleft : r.1.mask.count ≠ r.1.rowSize) {t : Nat}
    (ht : all.length * (k - 1) ^ t < k ^ t) : r.2.1.length < t := by
  by_contra hge
  have hlt := mul_pow_lt_mono hk ht (Nat.le_of_not_lt hge)
  have hle := h.uncovered_le hR hsig hp hk hcov
  have hrs : r.1.rowSize = all.length := by rw [hp.rest, hR.rowSize]
  have hcount := h.mask_count hR hsig hp
  have hpos : 1 ≤ uncovered c sigs all r.2.1 := by omega
  have := Nat.mul_le_mul_right (k ^ r.2.1.length) hpos
  omega

end

section
variable {c : Circuit} {clus : List ClusterId} {sigs : List NodeId} {s : SetcoverM}
  {all : List (List Bool)} (h : Filled c clus sigs s all) (hR : s.Rows all)
  (hsig : ∀ k ∈ clus, ∀ n ∈ (c.cluster k).inputNodes, Listed c sigs n)
  (hmask : s.mask = Bitvector.setSize s.rowSize)
include h hR hsig hmask

/-- A report under a limit, when `k` candidates cover all rows. -/
theorem Filled.reports_lt {k : Nat} (hk : 1 ≤ k) (hcov : CoveredBy c clus sigs all k) {limit : Int}
    {r' : SetcoverM × List ClusterId × NodeSet} (hrun : s.selectRun c limit = some (false, r'))
    {t : Nat} (ht : all.length * (k - 1) ^ t < k ^ t) : limit < t := by
  obtain ⟨r, hp, hleft, hwhy⟩ := SetcoverM.selectRun_reports (h.columns hR hsig) hmask hrun
  rcases hwhy with hnone | hlim
  · have hsome := h.selectOnce_isSome hR hsig hp hcov hleft
    rw [hnone] at hsome
    cases hsome
  · have hlen := h.length_lt hR hsig hp hk hcov hleft ht
    omega

/-- A candidate that covers all rows is the first pick and the last one. -/
theorem Filled.one_pick (hne : all ≠ []) (hcov : CoveredBy c clus sigs all 1) {limit : Int}
    (hlimit : 1 ≤ limit) : ∃ s' j ins, s.selectRun c limit = some (true, s', [j], ins) := by
  have hcol := h.columns hR hsig
  obtain ⟨⟨solved, s', sel, ins⟩, hrun, -, hres⟩ := SetcoverM.selectRun_spec hcol hmask limit
  rcases hres with ⟨rfl, -⟩ | ⟨rfl, hp, hrows, -⟩
  · have hlt := h.reports_lt hR hsig hmask le_rfl hcov hrun (t := 1) (by simp)
    exact absurd hlt (by omega)
  · have hle : sel.length ≤ 1 := by
      refine loop_post (I := fun r => s.Picked c r ∧ r.2.1.length ≤ 1)
        (P := fun out => out.1 = true → out.2.2.1.length ≤ 1) (fun r r' hi hs => ?_)
        (fun r out hi hs => ?_) ⟨SetcoverM.Picked.start hmask, Nat.zero_le _⟩ hrun rfl
      · unfold SetcoverM.selectStep at hs
        split at hs
        · rename_i hleft
          split at hs
          · rename_i r1 h1
            split at hs <;> cases hs
            obtain ⟨hp', -, hlen⟩ := hi.1.selectOnce hcol h1
            have := h.length_lt hR hsig hi.1 le_rfl hcov hleft (t := 1) (by simp)
            exact ⟨hp', by omega⟩
          · cases hs
        · cases hs
      · unfold SetcoverM.selectStep at hs
        split at hs
        · split at hs
          · split at hs <;> cases hs
            intro hf
            cases hf
          · cases hs
            intro hf
            cases hf
        · cases hs
          exact fun _ => hi.2
    obtain ⟨n, hn, -⟩ := hrows 0 (by rw [hR.rowSize]; exact List.length_pos_iff.2 hne)
    obtain ⟨j, hj, -⟩ := (hp.inputs n).1 hn
    have hpos : 0 < sel.length := List.length_pos_of_mem hj
    obtain ⟨j, rfl⟩ := List.length_eq_one_iff.1 (Nat.le_antisymm hle hpos)
    exact ⟨s', j, ins, hrun⟩

end

/-- **The greedy bound of `Select`** right after `AddRows`, for every matrix that `k` candidates
cover. -/
theorem select_greedy_bound {c : Circuit} {clus : List ClusterId} {sigs : List NodeId}
    {s : SetcoverM} {all : List (List Bool)} (h : History c clus sigs s all)
    (hsig : ∀ k ∈ clus, ∀ n ∈ (c.cluster k).inputNodes, Listed c sigs n)
    (rows : List (List Bool)) (hne : all ++ rows ≠ []) (k : Nat) (hk : 1 ≤ k)
    (hcov : CoveredBy c clus sigs (all ++ rows) k) :
    (∀ t r, SetcoverM.selectTimes c (s.addRows rows, [], ∅) t = some r →
      r.1.mask.count + uncovered c sigs (all ++ rows) r.2.1 = (all ++ rows).length ∧
      uncovered c sigs (all ++ rows) r.2.1 * k ^ t ≤ (all ++ rows).length * (k - 1) ^ t ∧
      (uncovered c sigs (all ++ rows) r.2.1 ≠ 0 → (SetcoverM.selectOnce c r).isSome)) ∧
    (k = 1 → ∀ limit : Int, 1 ≤ limit →
      ∃ s' j ins, (s.addRows rows).selectRun c limit = some (true, s', [j], ins)) ∧
    ∀ (limit : Int) (r : SetcoverM × List ClusterId × NodeSet),
      (s.addRows rows).selectRun c limit = some (false, r) →
      ∃ t : Nat, IsLeast {t | (all ++ rows).length * (k - 1) ^ t < k ^ t} t ∧ limit < t := by
  obtain ⟨hF, hR, hmask⟩ := h.filled.addRows rows
  refine ⟨fun t r ht => ?_, fun hone limit hlimit => ?_, fun limit r hrun => ?_⟩
  · obtain ⟨hp, rfl⟩ := SetcoverM.selectTimes_picked (hF.columns hR hsig) hmask ht
    have hcount := hF.mask_count hR hsig hp
    refine ⟨hcount, hF.uncovered_le hR hsig hp hk hcov, fun hleft => ?_⟩
    refine hF.selectOnce_isSome hR hsig hp hcov ?_
    have hrs : r.1.rowSize = (all ++ rows).length := by rw [hp.rest, hR.rowSize]
    omega
  · subst hone
    exact hF.one_pick hR hsig hmask hne hcov hlimit
  · have hex := exists_mul_pow_lt (all ++ rows).length hk
    exact ⟨Nat.find hex, ⟨Nat.find_spec hex, fun t ht => Nat.find_min' hex ht⟩,
      hF.reports_lt hR hsig hmask hk hcov hrun (Nat.find_spec hex)⟩

/-- Two clusters for two rows. -/
theorem select_greedy_bound_two :
    (∀ r, SetcoverM.selectTimes twoInputs ((SetcoverM.init twoInputs [0, 1] [0, 1]).addRows
        [[true, false], [false, true]], [], ∅) 1 = some r →
      uncovered twoInputs [0, 1] [[true, false], [false, true]] r.2.1 * 2 ^ 1 ≤ 2 * (2 - 1) ^ 1) ∧
    CoveredBy twoInputs [0, 1] [0, 1] [[true, false], [false, true]] 2 := by
  have hcov : CoveredBy twoInputs [0, 1] [0, 1] [[true, false], [false, true]] 2 :=
    ⟨[0, 1], rfl, by simp, by decide +kernel⟩
  exact ⟨fun r hr => ((select_greedy_bound .init twoInputs_listed [[true, false], [false, true]]
    (by simp) 2 (by decide) hcov).1 1 r hr).2.1, hcov⟩

end Msyn.Setcover
