import Msyn.Select.Replace

/-!
# Excluded and included signals

`InExcludeSigs`: signals in both lists are erased from them, one scan of the columns flags what is
excluded or included, and the copies of the matrix lose the excluded columns. The scan counts the
listed signals that it meets and breaks off once it has met as many as there are, so that a column of
weight 0 behind that point keeps no flag (`inExcludeSigs_flags_iff`).

Pointers are compared by their numbers. `set_intersection` merges, which finds all common signals of
lists in order (`mem_setIntersection`).
-/

namespace Msyn.SC

open Nodecircuit Bitprocess Bitvector

/-- A round of the merge at the first signal of one list, with the merge of the rest of that list. -/
def interFrom (x : Nat) (rest : List Nat → List Nat) : List Nat → List Nat
  | [] => []
  | y :: ys =>
    if x < y then rest (y :: ys)
    else if y < x then interFrom x rest ys
    else x :: rest ys

/-- `set_intersection`. -/
def setIntersection : List Nat → List Nat → List Nat
  | [], _ => []
  | x :: xs, ys => interFrom x (setIntersection xs) ys

/-- What the scan of the columns keeps. -/
structure FlagScan where
  excludecol : List Nat := []
  includecol : List Nat := []
  inexcluded : List InExType
  excludedCnt : Nat := 0
  includedCnt : Nat := 0

namespace FlagScan

def exclude (c : FlagScan) (col : Nat) : FlagScan :=
  { c with
    excludecol := c.excludecol ++ [col]
    inexcluded := c.inexcluded.set col .excludedFlag }

def include' (c : FlagScan) (col : Nat) : FlagScan :=
  { c with
    includecol := c.includecol ++ [col]
    inexcluded := c.inexcluded.set col .includedFlag
    includedCnt := c.includedCnt + 1 }

section
variable (weight : NodeId → Int) (excludedSigs includedSigs : List NodeId)

def scanExcluded (c : FlagScan) (col : Nat) (x : NodeId) : FlagScan :=
  if c.excludedCnt < excludedSigs.length ∧ excludedSigs.length ≠ 0 ∧ weight x ≠ 0 then
    if x ∈ excludedSigs then { c.exclude col with excludedCnt := c.excludedCnt + 1 } else c
  else if weight x = 0 then c.exclude col
  else c

def scanIncluded (c : FlagScan) (col : Nat) (x : NodeId) : FlagScan :=
  if c.includedCnt < includedSigs.length ∧ includedSigs.length ≠ 0 ∧ weight x ≠ 0 then
    if x ∈ includedSigs then c.include' col else c
  else c

/-- The loop over the columns, with the signals from a column on. -/
def scan : List NodeId → Nat → FlagScan → FlagScan
  | [], _, c => c
  | x :: xs, col, c =>
    let c := scanIncluded weight includedSigs (scanExcluded weight excludedSigs c col x) col x
    if c.includedCnt = includedSigs.length ∧ c.excludedCnt = excludedSigs.length then c
    else scan xs (col + 1) c

end

end FlagScan

/-- What `InExcludeSigs` returns and the arguments that it changes. -/
structure InExcluded where
  ret : Nat
  rows : List Bitvector
  cols : List Bitvector
  curSol : List Nat
  excludedSigs : List NodeId
  includedSigs : List NodeId
  inexcluded : List InExType
  rowmask : Bitvector

namespace Setcover

section
variable (s : Setcover)

/-- The lists without the signals that are in both. -/
def dropCommon (excludedSigs includedSigs : List NodeId) : List NodeId × List NodeId :=
  if excludedSigs.length ≠ 0 ∧ includedSigs.length ≠ 0 then
    let intersection := setIntersection excludedSigs includedSigs
    (intersection.foldl List.erase excludedSigs, intersection.foldl List.erase includedSigs)
  else (excludedSigs, includedSigs)

/-- The scan of the columns with these lists. -/
def flagScan (sigs : List NodeId × List NodeId) (inexcluded : List InExType) : FlagScan :=
  FlagScan.scan s.weight sigs.1 sigs.2 s.signals 0 { inexcluded }

/-- `InExcludeSigs`. -/
def inExcludeSigsFull (rows cols : List Bitvector) (curSol : List Nat)
    (excludedSigs includedSigs : List NodeId) (inexcluded : List InExType) (rowmask : Bitvector)
    (wriPvalue : Bool) : InExcluded :=
  let sigs := dropCommon excludedSigs includedSigs
  let c := s.flagScan sigs inexcluded
  let cols' := c.excludecol.foldl (fun cols col => cols.set col (vec cols col).clear) cols
  let rows' := c.excludecol.foldl (fun rows col => rows.map (·.reset col)) rows
  let out : InExcluded :=
    { ret := 1
      rows := rows'
      cols := cols'
      curSol
      excludedSigs := sigs.1
      includedSigs := sigs.2
      inexcluded := c.inexcluded
      rowmask }
  if c.excludecol ≠ [] ∧ rows'.any (·.count = 0) then { out with ret := 0 }
  else if c.includecol ≠ [] then
    let curSol := c.includecol.foldl (fun sol col => if col ∈ sol then sol else sol ++ [col]) curSol
    if wriPvalue then
      let rowmask := c.includecol.foldl (fun mask col => mask.orCount (vec cols' col)) rowmask
      let st := Search.removeRowCol1 { curSol, rowmask, rows := rows', cols := cols' }
      { out with rows := st.rows, cols := st.cols, curSol, rowmask }
    else { out with curSol }
  else out

end

end Setcover

/-! ## The intersection -/

theorem interFrom_subset {x : Nat} {rest : List Nat → List Nat} {xs : List Nat}
    (hrest : ∀ ys, ∀ z ∈ rest ys, z ∈ xs ∧ z ∈ ys) (ys : List Nat) :
    ∀ z ∈ interFrom x rest ys, z ∈ x :: xs ∧ z ∈ ys := by
  induction ys with
  | nil => exact fun z hz => absurd hz List.not_mem_nil
  | cons y ys ih =>
    intro z hz
    unfold interFrom at hz
    split at hz
    · exact ⟨List.mem_cons_of_mem _ (hrest _ z hz).1, (hrest _ z hz).2⟩
    · split at hz
      · exact ⟨(ih z hz).1, List.mem_cons_of_mem _ (ih z hz).2⟩
      · have hxy : x = y := by omega
        rcases List.mem_cons.1 hz with rfl | hz
        · exact ⟨List.mem_cons_self, hxy ▸ List.mem_cons_self⟩
        · exact ⟨List.mem_cons_of_mem _ (hrest _ z hz).1, List.mem_cons_of_mem _ (hrest _ z hz).2⟩

/-- What the merge finds is in both lists. -/
theorem setIntersection_subset (xs : List Nat) : ∀ ys, ∀ z ∈ setIntersection xs ys,
    z ∈ xs ∧ z ∈ ys := by
  induction xs with
  | nil => exact fun ys z hz => absurd hz List.not_mem_nil
  | cons x xs ih => exact interFrom_subset ih

theorem mem_interFrom {x : Nat} {rest : List Nat → List Nat} {xs : List Nat}
    (hx : ∀ z ∈ xs, x < z) {ys : List Nat} (hys : ys.Pairwise (· < ·))
    (hrest : ∀ l, l.Pairwise (· < ·) → ∀ z, z ∈ rest l ↔ z ∈ xs ∧ z ∈ l) (z : Nat) :
    z ∈ interFrom x rest ys ↔ z ∈ x :: xs ∧ z ∈ ys := by
  induction ys with
  | nil => exact iff_of_false List.not_mem_nil fun h => List.not_mem_nil h.2
  | cons y ys ih =>
    obtain ⟨hy, hys'⟩ := List.pairwise_cons.1 hys
    unfold interFrom
    split
    · rename_i hxy
      rw [hrest _ hys, List.mem_cons (a := z) (b := x)]
      refine and_congr_left fun hz => (or_iff_right fun he => ?_).symm
      rcases List.mem_cons.1 hz with rfl | hz
      · omega
      · have := hy z hz
        omega
    · split
      · rename_i hyx
        rw [ih hys', List.mem_cons (a := z) (b := y)]
        refine and_congr_right fun hz => (or_iff_right fun he => ?_).symm
        rcases List.mem_cons.1 hz with rfl | hz
        · omega
        · have := hx z hz
          omega
      · have hxy : x = y := by omega
        rw [List.mem_cons, hrest _ hys', List.mem_cons, List.mem_cons, hxy]
        constructor
        · rintro (rfl | ⟨h1, h2⟩)
          · exact ⟨.inl rfl, .inl rfl⟩
          · exact ⟨.inr h1, .inr h2⟩
        · rintro ⟨rfl | h1, h2⟩
          · exact .inl rfl
          · refine .inr ⟨h1, h2.resolve_left fun he => ?_⟩
            have := hx z h1
            omega

/-- The merge finds all common signals of lists in order. -/
theorem mem_setIntersection {xs : List Nat} (hxs : xs.Pairwise (· < ·)) :
    ∀ ys : List Nat, ys.Pairwise (· < ·) → ∀ z, z ∈ setIntersection xs ys ↔ z ∈ xs ∧ z ∈ ys := by
  induction xs with
  | nil => exact fun ys _ z => iff_of_false List.not_mem_nil fun h => List.not_mem_nil h.1
  | cons x xs ih =>
    obtain ⟨hx, hxs'⟩ := List.pairwise_cons.1 hxs
    exact fun ys hys z => mem_interFrom hx hys (ih hxs') z

theorem mem_foldl_erase {l zs : List Nat} (hl : l.Nodup) {x : Nat} :
    x ∈ zs.foldl List.erase l ↔ x ∈ l ∧ x ∉ zs := by
  induction zs generalizing l with
  | nil => simp
  | cons z zs ih =>
    rw [List.foldl_cons, ih (hl.erase z), hl.mem_erase_iff, List.mem_cons, not_or]
    constructor
    · rintro ⟨⟨h1, h2⟩, h3⟩
      exact ⟨h2, h1, h3⟩
    · rintro ⟨h1, h2, h3⟩
      exact ⟨⟨h2, h1⟩, h3⟩

/-! ## The scan -/

section
variable (weight : NodeId → Int) (ex inc signals : List NodeId)

/-- The number of columns before `p` that have a weight and a signal of the list. -/
def met (l : List NodeId) (p : Nat) : Nat :=
  (signals.take p).countP fun x => weight x ≠ 0 ∧ x ∈ l

/-- The scan has not broken off before the column. -/
def LookedAt (p : Nat) : Prop :=
  p = 0 ∨ met weight signals ex p < ex.length ∨ met weight signals inc p < inc.length

/-- The column is pushed onto `excludecol`. -/
def ExAt (p : Nat) : Prop :=
  weight (signals.getD p 0) = 0 ∧ LookedAt weight ex inc signals p ∨
    weight (signals.getD p 0) ≠ 0 ∧ signals.getD p 0 ∈ ex ∧ met weight signals ex p < ex.length

/-- The column is pushed onto `includecol`. -/
def IncAt (p : Nat) : Prop :=
  weight (signals.getD p 0) ≠ 0 ∧ signals.getD p 0 ∈ inc ∧ met weight signals inc p < inc.length

instance (p : Nat) : Decidable (LookedAt weight ex inc signals p) :=
  inferInstanceAs (Decidable (_ ∨ _ ∨ _))

instance (p : Nat) : Decidable (ExAt weight ex inc signals p) :=
  inferInstanceAs (Decidable (_ ∧ _ ∨ _ ∧ _ ∧ _))

instance (p : Nat) : Decidable (IncAt weight inc signals p) :=
  inferInstanceAs (Decidable (_ ∧ _ ∧ _))

/-- The flag of a column: a flag for including it is set later. -/
def flagAt (p : Nat) : InExType :=
  if IncAt weight inc signals p then .includedFlag
  else if ExAt weight ex inc signals p then .excludedFlag
  else .noInEx

/-- What the scan has done after the columns before `p`. -/
structure Flagged (p : Nat) (c : FlagScan) : Prop where
  excludedCnt : c.excludedCnt = min ex.length (met weight signals ex p)
  includedCnt : c.includedCnt = min inc.length (met weight signals inc p)
  excludecol : ∀ q, q ∈ c.excludecol ↔ q < p ∧ ExAt weight ex inc signals q
  includecol : ∀ q, q ∈ c.includecol ↔ q < p ∧ IncAt weight inc signals q
  length : c.inexcluded.length = signals.length
  flags : ∀ q, c.inexcluded.getD q .noInEx =
    if q < p then flagAt weight ex inc signals q else .noInEx

/-- What the whole scan has done. -/
structure AllFlagged (c : FlagScan) : Prop where
  excludecol : ∀ q, q ∈ c.excludecol ↔ q < signals.length ∧ ExAt weight ex inc signals q
  includecol : ∀ q, q ∈ c.includecol ↔ q < signals.length ∧ IncAt weight inc signals q
  flags : ∀ q < signals.length,
    c.inexcluded.getD q .noInEx = flagAt weight ex inc signals q

end

section
variable {weight : NodeId → Int} {ex inc signals : List NodeId}

theorem met_succ (weight : NodeId → Int) (l : List NodeId) {p : Nat} (hp : p < signals.length) :
    met weight signals l (p + 1) = met weight signals l p +
      if weight (signals.getD p 0) ≠ 0 ∧ signals.getD p 0 ∈ l then 1 else 0 := by
  rw [met, met, List.take_add_one, List.countP_append, List.getElem?_eq_getElem hp,
    List.getD_eq_getElem _ _ hp, Option.toList_some, List.countP_singleton]
  simp only [decide_eq_true_eq]

theorem met_mono (weight : NodeId → Int) (signals l : List NodeId) {p q : Nat} (h : p ≤ q) :
    met weight signals l p ≤ met weight signals l q :=
  (List.take_sublist_take_left h).countP_le

/-- Before the column of a listed signal not all listed signals are met. -/
theorem met_lt (weight : NodeId → Int) {l : List NodeId} (hnd : signals.Nodup) {p : Nat}
    (hp : p < signals.length) (hmem : signals.getD p 0 ∈ l) : met weight signals l p < l.length := by
  have hget : signals.getD p 0 = signals[p] := List.getD_eq_getElem _ _ hp
  have hnew : signals.getD p 0 ∉ signals.take p := by
    intro hin
    obtain ⟨q, hq, he⟩ := List.getElem_of_mem hin
    rw [List.length_take] at hq
    rw [List.getElem_take, hget] at he
    have := hnd.getElem_inj_iff.1 he
    omega
  have hnodup : (signals.getD p 0 :: (signals.take p).filter fun x =>
      decide (weight x ≠ 0 ∧ x ∈ l)).Nodup :=
    List.nodup_cons.2 ⟨fun hin => hnew (List.mem_filter.1 hin).1,
      (hnd.sublist (List.take_sublist p _)).filter _⟩
  rw [met, List.countP_eq_length_filter]
  refine (hnodup.subperm fun x hx => ?_).length_le
  rcases List.mem_cons.1 hx with rfl | hx
  · exact hmem
  · exact (of_decide_eq_true (List.mem_filter.1 hx).2).2

theorem getD_set_flag {l : List InExType} {p q : Nat} (hp : p < l.length) (f : InExType) :
    (l.set p f).getD q .noInEx = if q = p then f else l.getD q .noInEx := by
  rw [List.getD_eq_getElem?_getD, List.getElem?_set, List.getD_eq_getElem?_getD]
  by_cases he : q = p
  · simp [he, hp]
  · rw [if_neg (Ne.symm he), if_neg he]

section
variable {p : Nat} {c : FlagScan} (hp : p < signals.length)
include hp

/-- The column is pushed exactly if it has to be, and the counter goes up to the number of signals. -/
theorem scanExcluded_eq (hlook : LookedAt weight ex inc signals p)
    (hcnt : c.excludedCnt = min ex.length (met weight signals ex p)) :
    FlagScan.scanExcluded weight ex c p (signals.getD p 0) =
      { (if ExAt weight ex inc signals p then c.exclude p else c) with
        excludedCnt := min ex.length (met weight signals ex (p + 1)) } := by
  have hsucc := met_succ weight ex hp
  unfold FlagScan.scanExcluded
  split
  · rename_i hcond
    obtain ⟨hlt, -, hw⟩ := hcond
    have hmet : met weight signals ex p < ex.length := by omega
    split
    · rename_i hin
      have hat : ExAt weight ex inc signals p := .inr ⟨hw, hin, hmet⟩
      rw [if_pos ⟨hw, hin⟩] at hsucc
      rw [if_pos hat, show min ex.length (met weight signals ex (p + 1)) = c.excludedCnt + 1 by omega]
    · rename_i hnot
      have hat : ¬ExAt weight ex inc signals p := fun hat => by
        rcases hat with ⟨hw0, -⟩ | ⟨-, hin, -⟩
        · exact hw hw0
        · exact hnot hin
      rw [if_neg fun h => hnot h.2] at hsucc
      rw [if_neg hat, show min ex.length (met weight signals ex (p + 1)) = c.excludedCnt by omega]
  · rename_i hcond
    split
    · rename_i hw
      rw [if_neg fun h => h.1 hw] at hsucc
      rw [if_pos (.inl ⟨hw, hlook⟩),
        show min ex.length (met weight signals ex (p + 1)) = c.excludedCnt by omega]
      rfl
    · rename_i hw
      have hfull : ex.length ≤ met weight signals ex p := by
        by_contra hlt
        exact hcond ⟨by omega, by omega, hw⟩
      have hat : ¬ExAt weight ex inc signals p := fun hat => by
        rcases hat with ⟨hw0, -⟩ | ⟨-, -, hlt⟩
        · exact hw hw0
        · omega
      have hmono := met_mono weight signals ex (Nat.le_succ p)
      rw [if_neg hat, show min ex.length (met weight signals ex (p + 1)) = c.excludedCnt by omega]

theorem scanIncluded_eq (hcnt : c.includedCnt = min inc.length (met weight signals inc p)) :
    FlagScan.scanIncluded weight inc c p (signals.getD p 0) =
      { (if IncAt weight inc signals p then c.include' p else c) with
        includedCnt := min inc.length (met weight signals inc (p + 1)) } := by
  have hsucc := met_succ weight inc hp
  unfold FlagScan.scanIncluded
  split
  · rename_i hcond
    obtain ⟨hlt, -, hw⟩ := hcond
    have hmet : met weight signals inc p < inc.length := by omega
    split
    · rename_i hin
      rw [if_pos ⟨hw, hin⟩] at hsucc
      rw [if_pos ⟨hw, hin, hmet⟩,
        show min inc.length (met weight signals inc (p + 1)) = c.includedCnt + 1 by omega]
      rfl
    · rename_i hnot
      rw [if_neg fun h => hnot h.2] at hsucc
      rw [if_neg fun hat => hnot hat.2.1,
        show min inc.length (met weight signals inc (p + 1)) = c.includedCnt by omega]
  · rename_i hcond
    have hat : ¬IncAt weight inc signals p := fun hat =>
      hcond ⟨by have := hat.2.2; omega, by have := hat.2.2; omega, hat.1⟩
    rw [if_neg hat]
    by_cases hw : weight (signals.getD p 0) = 0
    · rw [if_neg fun h => h.1 hw] at hsucc
      rw [show min inc.length (met weight signals inc (p + 1)) = c.includedCnt by omega]
    · have hfull : inc.length ≤ met weight signals inc p := by
        by_contra hlt
        exact hcond ⟨by omega, by omega, hw⟩
      have hmono := met_mono weight signals inc (Nat.le_succ p)
      rw [show min inc.length (met weight signals inc (p + 1)) = c.includedCnt by omega]

/-- The scan of a column. -/
theorem Flagged.step (h : Flagged weight ex inc signals p c)
    (hlook : LookedAt weight ex inc signals p) :
    Flagged weight ex inc signals (p + 1)
      (FlagScan.scanIncluded weight inc (FlagScan.scanExcluded weight ex c p (signals.getD p 0)) p
        (signals.getD p 0)) := by
  obtain ⟨hex, hinc, hmex, hminc, hlen, hflag⟩ := h
  rw [scanExcluded_eq hp hlook hex, scanIncluded_eq hp (by split <;> exact hinc)]
  have hlt : p < c.inexcluded.length := hlen ▸ hp
  have hnext : ∀ (P : Nat → Prop) (q : Nat), q < p + 1 ∧ P q ↔ q < p ∧ P q ∨ q = p ∧ P p := by
    intro P q
    rw [Nat.lt_succ_iff_lt_or_eq, or_and_right]
    refine or_congr_right (and_congr_right fun he => ?_)
    rw [he]
  refine ⟨by split <;> rfl, rfl, fun q => ?_, fun q => ?_, ?_, fun q => ?_⟩
  · rw [hnext, ← hmex]
    by_cases hE : ExAt weight ex inc signals p <;> by_cases hI : IncAt weight inc signals p <;>
      simp [hE, hI, FlagScan.exclude, FlagScan.include']
  · rw [hnext, ← hminc]
    by_cases hE : ExAt weight ex inc signals p <;> by_cases hI : IncAt weight inc signals p <;>
      simp [hE, hI, FlagScan.exclude, FlagScan.include']
  · by_cases hE : ExAt weight ex inc signals p <;> by_cases hI : IncAt weight inc signals p <;>
      simp [hE, hI, FlagScan.exclude, FlagScan.include', hlen]
  · have hfree := hflag p
    rw [if_neg (Nat.lt_irrefl p)] at hfree
    have hrest : q ≠ p → (q < p + 1 ↔ q < p) := fun hne => by omega
    by_cases hq : q = p
    · rw [hq, if_pos (Nat.lt_succ_self p), flagAt]
      by_cases hE : ExAt weight ex inc signals p <;> by_cases hI : IncAt weight inc signals p <;>
        simp only [hE, hI, if_true, if_false, FlagScan.exclude, FlagScan.include'] <;>
        first
          | exact hfree
          | simp only [List.set_set, getD_set_flag hlt, if_true]
    · simp only [hrest hq]
      rw [← hflag q]
      by_cases hE : ExAt weight ex inc signals p <;> by_cases hI : IncAt weight inc signals p <;>
        simp only [hE, hI, if_true, if_false, FlagScan.exclude, FlagScan.include'] <;>
        first
          | rfl
          | simp only [List.set_set, getD_set_flag hlt, if_neg hq]

end

theorem Flagged.start {inexcluded : List InExType}
    (h : inexcluded = List.replicate signals.length .noInEx) :
    Flagged weight ex inc signals 0 { inexcluded } where
  excludedCnt := by simp [met]
  includedCnt := by simp [met]
  excludecol q := by simp
  includecol q := by simp
  length := by rw [h, List.length_replicate]
  flags q := by
    rw [if_neg (Nat.not_lt_zero q), h, List.getD_eq_getElem?_getD, List.getElem?_replicate]
    split <;> rfl

/-- Behind the point where both lists are used up no column is flagged. -/
theorem Flagged.finish {p : Nat} {c : FlagScan} (h : Flagged weight ex inc signals p c)
    (hp : p ≤ signals.length) (hbreak : ∀ q, p ≤ q → q < signals.length →
      ¬ExAt weight ex inc signals q ∧ ¬IncAt weight inc signals q) :
    AllFlagged weight ex inc signals c where
  excludecol q := by
    rw [h.excludecol]
    refine ⟨fun hq => ⟨by omega, hq.2⟩, fun hq => ⟨?_, hq.2⟩⟩
    by_contra hge
    exact (hbreak q (by omega) hq.1).1 hq.2
  includecol q := by
    rw [h.includecol]
    refine ⟨fun hq => ⟨by omega, hq.2⟩, fun hq => ⟨?_, hq.2⟩⟩
    by_contra hge
    exact (hbreak q (by omega) hq.1).2 hq.2
  flags q hlt := by
    rw [h.flags]
    by_cases hq : q < p
    · rw [if_pos hq]
    · obtain ⟨hE, hI⟩ := hbreak q (by omega) hlt
      rw [if_neg hq, flagAt, if_neg hI, if_neg hE]

theorem scan_spec {xs : List NodeId} {p : Nat} {c : FlagScan} (hxs : signals.drop p = xs)
    (hp : p ≤ signals.length) (h : Flagged weight ex inc signals p c)
    (hlook : LookedAt weight ex inc signals p) :
    AllFlagged weight ex inc signals (FlagScan.scan weight ex inc xs p c) := by
  induction xs generalizing p c with
  | nil =>
    rw [List.drop_eq_nil_iff] at hxs
    exact h.finish hp fun q h1 h2 => absurd h2 (by omega)
  | cons x xs ih =>
    have hlt : p < signals.length := by
      by_contra hge
      rw [List.drop_eq_nil_of_le (Nat.le_of_not_lt hge)] at hxs
      cases hxs
    obtain ⟨hx, hrest⟩ : signals[p] = x ∧ signals.drop (p + 1) = xs := by
      rw [List.drop_eq_getElem_cons hlt] at hxs
      exact List.cons.inj hxs
    have hstep := h.step hlt hlook
    rw [List.getD_eq_getElem _ _ hlt, hx] at hstep
    unfold FlagScan.scan
    dsimp only
    split
    · -- both lists are used up
      rename_i hbreak
      have h1 := hstep.includedCnt
      have h2 := hstep.excludedCnt
      refine hstep.finish hlt fun q hq _ => ?_
      have m1 := met_mono weight signals ex hq
      have m2 := met_mono weight signals inc hq
      refine ⟨fun hE => ?_, fun hI => ?_⟩
      · rcases hE with ⟨-, h0 | h0 | h0⟩ | ⟨-, -, h0⟩ <;> omega
      · have := hI.2.2
        omega
    · rename_i hgo
      refine ih hrest hlt hstep (.inr ?_)
      have h1 := hstep.includedCnt
      have h2 := hstep.excludedCnt
      by_contra hfull
      push Not at hfull
      exact hgo ⟨by omega, by omega⟩

end

theorem flagAt_excluded (weight : NodeId → Int) (ex inc signals : List NodeId) (q : Nat) :
    flagAt weight ex inc signals q = .excludedFlag ↔
      ExAt weight ex inc signals q ∧ ¬IncAt weight inc signals q := by
  unfold flagAt
  split
  · rename_i hI
    exact ⟨fun h => (by cases h), fun h => absurd hI h.2⟩
  · rename_i hI
    split
    · rename_i hE
      exact ⟨fun _ => ⟨hE, hI⟩, fun _ => rfl⟩
    · rename_i hE
      exact ⟨fun h => (by cases h), fun h => absurd h.1 hE⟩

theorem flagAt_included (weight : NodeId → Int) (ex inc signals : List NodeId) (q : Nat) :
    flagAt weight ex inc signals q = .includedFlag ↔ IncAt weight inc signals q := by
  unfold flagAt
  split
  · rename_i hI
    exact ⟨fun _ => hI, fun _ => rfl⟩
  · rename_i hI
    refine ⟨fun h => ?_, fun h => absurd h hI⟩
    split at h <;> cases h

namespace Setcover

section
variable {s : Setcover}

/-- What `InExcludeSigs` flags. -/
theorem flagScan_spec (sigs : List NodeId × List NodeId) :
    AllFlagged s.weight sigs.1 sigs.2 s.signals
      (s.flagScan sigs (List.replicate s.signals.length .noInEx)) :=
  scan_spec List.drop_zero (Nat.zero_le _) (.start rfl) (.inl rfl)

theorem mem_dropCommon {excludedSigs includedSigs : List NodeId} (hex : excludedSigs.Nodup)
    (hinc : includedSigs.Nodup) (x : NodeId) :
    (x ∈ (dropCommon excludedSigs includedSigs).1 ↔
      x ∈ excludedSigs ∧ x ∉ setIntersection excludedSigs includedSigs) ∧
    (x ∈ (dropCommon excludedSigs includedSigs).2 ↔
      x ∈ includedSigs ∧ x ∉ setIntersection excludedSigs includedSigs) := by
  unfold dropCommon
  split
  · exact ⟨mem_foldl_erase hex, mem_foldl_erase hinc⟩
  · rename_i hempty
    have hnone : ∀ z, z ∉ setIntersection excludedSigs includedSigs := fun z hz => by
      obtain ⟨h1, h2⟩ := setIntersection_subset _ _ z hz
      exact hempty ⟨(List.length_pos_of_mem h1).ne', (List.length_pos_of_mem h2).ne'⟩
    exact ⟨(and_iff_left (hnone x)).symm, (and_iff_left (hnone x)).symm⟩

/-- The columns have the flags that they should have. -/
def FlagsExact (s : Setcover) (excludedSigs includedSigs : List NodeId) (flags : List InExType) :
    Prop :=
  ∀ q < s.signals.length,
    (flags.getD q .noInEx = .excludedFlag ↔ s.weightOf q = 0 ∨
      s.signals.getD q 0 ∈ excludedSigs ∧ s.signals.getD q 0 ∉ includedSigs) ∧
    (flags.getD q .noInEx = .includedFlag ↔ s.weightOf q ≠ 0 ∧
      s.signals.getD q 0 ∈ includedSigs ∧ s.signals.getD q 0 ∉ excludedSigs)

/-- The scan comes to the column before it has met as many listed signals as there are, and does not
meet a signal of both lists that the merge missed. -/
def InTime (s : Setcover) (excludedSigs includedSigs : List NodeId) (q : Nat) : Prop :=
  let x := s.signals.getD q 0
  let sigs := dropCommon excludedSigs includedSigs
  let e := met s.weight s.signals sigs.1 q
  let i := met s.weight s.signals sigs.2 q
  (s.weight x = 0 → q = 0 ∨ e < sigs.1.length ∨ i < sigs.2.length) ∧
  (s.weight x ≠ 0 → x ∈ excludedSigs → x ∉ includedSigs → e < sigs.1.length) ∧
  (s.weight x ≠ 0 → x ∈ includedSigs → x ∉ excludedSigs → i < sigs.2.length) ∧
  (s.weight x ≠ 0 → x ∈ excludedSigs → x ∈ includedSigs →
    x ∉ setIntersection excludedSigs includedSigs → sigs.1.length ≤ e ∧ sigs.2.length ≤ i)

theorem inExcludeSigsFull_inexcluded (rows cols : List Bitvector) (curSol : List Nat)
    (excludedSigs includedSigs : List NodeId) (inexcluded : List InExType) (rowmask : Bitvector)
    (wriPvalue : Bool) :
    (s.inExcludeSigsFull rows cols curSol excludedSigs includedSigs inexcluded rowmask
      wriPvalue).inexcluded = (s.flagScan (dropCommon excludedSigs includedSigs) inexcluded).inexcluded := by
  unfold inExcludeSigsFull
  dsimp only
  split
  · rfl
  · split
    · split <;> rfl
    · rfl

/-- **`InExcludeSigs` flags what it should** exactly if the scan comes to every column in time. -/
theorem inExcludeSigs_flags_iff (s : Setcover) {excludedSigs includedSigs : List NodeId}
    (hex : excludedSigs.Nodup) (hinc : includedSigs.Nodup) (rows cols : List Bitvector)
    (curSol : List Nat) (rowmask : Bitvector) (wriPvalue : Bool) :
    s.FlagsExact excludedSigs includedSigs (s.inExcludeSigsFull rows cols curSol excludedSigs
      includedSigs (List.replicate s.signals.length .noInEx) rowmask wriPvalue).inexcluded ↔
    ∀ q < s.signals.length, s.InTime excludedSigs includedSigs q := by
  rw [inExcludeSigsFull_inexcluded]
  refine forall₂_congr fun q hq => ?_
  rw [(flagScan_spec (s := s) (dropCommon excludedSigs includedSigs)).flags q hq,
    flagAt_excluded, flagAt_included]
  obtain ⟨hmex, hminc⟩ := mem_dropCommon hex hinc (s.signals.getD q 0)
  have hsub := setIntersection_subset excludedSigs includedSigs (s.signals.getD q 0)
  have hweight : s.weightOf q = s.weight (s.signals.getD q 0) := rfl
  unfold InTime ExAt IncAt LookedAt
  dsimp only
  rw [hweight, hmex, hminc, ← not_lt, ← not_lt]
  by_cases hw : s.weight (s.signals.getD q 0) = 0
  · -- a column of weight 0
    simp only [hw, ne_eq, not_true_eq_false, false_and, not_false_eq_true, true_and, true_or,
      or_false, iff_true, forall_const, IsEmpty.forall_iff, and_true, and_self]
  · simp only [hw, ne_eq, not_false_eq_true, true_and, false_and, false_or, forall_const,
      IsEmpty.forall_iff]
    by_cases hboth : s.signals.getD q 0 ∈ setIntersection excludedSigs includedSigs
    · obtain ⟨h1, h2⟩ := hsub hboth
      simp only [h1, h2, hboth, not_true_eq_false, and_false, false_and, not_false_eq_true, and_self,
        IsEmpty.forall_iff, implies_true]
    · by_cases h1 : s.signals.getD q 0 ∈ excludedSigs
      · by_cases h2 : s.signals.getD q 0 ∈ includedSigs
        · -- the merge has missed the signal, and it gets a flag unless both counters are full
          simp only [h1, h2, hboth, not_true_eq_false, not_false_eq_true, and_true, true_and,
            and_false, iff_false, forall_const, IsEmpty.forall_iff]
          tauto
        · simp only [h1, h2, hboth, not_true_eq_false, not_false_eq_true, and_true, true_and,
            false_and, and_self, iff_true, forall_const, IsEmpty.forall_iff]
      · by_cases h2 : s.signals.getD q 0 ∈ includedSigs <;>
          simp only [h1, h2, hboth, not_true_eq_false, not_false_eq_true, and_true, true_and,
            false_and, and_self, iff_true, forall_const, IsEmpty.forall_iff]

end

/-- Two columns of weight 1, one excluded and one included. -/
theorem inExcludeSigs_flags_iff_two :
    (init [0, 1] fun _ => 1).FlagsExact [0] [1] ((init [0, 1] fun _ => 1).inExcludeSigsFull [] [] []
      [0] [1] (List.replicate 2 .noInEx) {} true).inexcluded := by
  have hin : ∀ q < 2, (init [0, 1] fun _ => 1).InTime [0] [1] q := by
    intro q hq
    match q, hq with
    | 0, _ => exact ⟨by decide, by decide, by decide, by decide⟩
    | 1, _ => exact ⟨by decide, by decide, by decide, by decide⟩
  exact (inExcludeSigs_flags_iff (init [0, 1] fun _ => 1) (by decide) (by decide) [] [] [] {}
    true).2 hin

/-- A column of weight 0 behind one of weight 1, and nothing to exclude or include: the scan breaks
off at once. -/
theorem inExcludeSigs_unflagged : ¬(init [0, 1] fun x => if x = 0 then 1 else 0).FlagsExact [] []
    ((init [0, 1] fun x => if x = 0 then 1 else 0).inExcludeSigsFull [] [] [] [] []
      (List.replicate 2 .noInEx) {} true).inexcluded := by
  intro h
  exact absurd ((h 1 (by decide)).1.2 (.inl (by decide))) (by decide)

end Setcover

end Msyn.SC
