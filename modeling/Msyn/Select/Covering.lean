import Msyn.Select.Setcover

/-!
# The covers that `Select` returns

What a call of `Select` right after `AddRows` returns, said by the rows themselves (`IsCover`):
after any history of batches and selections the call ends, with a cover of all rows by clusters of
which each was a best choice, or with nothing. Only a negative limit is not kept, since the number
of clusters is compared with it in `size_t` (`selectRun_selects_iff`, `negative_limit`).
-/

namespace Msyn.Setcover

open Nodecircuit Bitprocess

/-! ## Rows and inputs -/

/-- The row has a 1 in the column of the input. -/
def hasOne (sigs : List NodeId) (row : List Bool) (n : NodeId) : Bool :=
  row.getD (sigs.idxOf n) false

/-- The row has a 1 in the column of an input of the cluster. -/
def rowCovered (c : Circuit) (sigs : List NodeId) (row : List Bool) (k : ClusterId) : Bool :=
  (c.cluster k).inputNodes.elems.any (hasOne sigs row)

/-- The number of rows that the cluster covers and none of the others does. -/
def freshRows (c : Circuit) (sigs : List NodeId) (all : List (List Bool)) (others : List ClusterId)
    (k : ClusterId) : Nat :=
  all.countP fun row => rowCovered c sigs row k && !(others.any fun j => rowCovered c sigs row j)

/-- The input occurs in the signal list, and nothing else there has its name. -/
structure Listed (c : Circuit) (sigs : List NodeId) (n : NodeId) : Prop where
  mem : n ∈ sigs
  once : (sigs.map fun m => (c.node m).name).count (c.node n).name = 1

/-- The selection covers every row, and each of its clusters was a best choice. -/
structure IsCover (c : Circuit) (clus : List ClusterId) (sigs : List NodeId)
    (all : List (List Bool)) (limit : Int) (sel : List ClusterId) (ins : NodeSet) : Prop where
  rows : ∀ row ∈ all, ∃ n ∈ ins, hasOne sigs row n = true
  inputs : ∀ n, n ∈ ins ↔ ∃ k ∈ sel, n ∈ (c.cluster k).inputNodes
  mem : ∀ k ∈ sel, k ∈ clus
  nodup : sel.Nodup
  limited : (sel.length : Int) ≤ limit
  greedy : ∀ pre k post, sel = pre ++ k :: post → ∀ k' ∈ clus,
    freshRows c sigs all pre k' ≤ freshRows c sigs all pre k

/-- `Select` ends; what it selects is a cover, and nothing is left where it reports no solution. -/
def Selects (c : Circuit) (clus : List ClusterId) (sigs : List NodeId) (s : SetcoverM)
    (all : List (List Bool)) (limit : Int) : Prop :=
  ∃ solved s' sel ins, s.selectRun c limit = some (solved, s', sel, ins) ∧
    (sel ≠ [] → IsCover c clus sigs all limit sel ins) ∧ (solved = false → sel = [] ∧ ins = ∅)

/-- The set cover after a history of calls; `all` are the rows that it was given. -/
inductive History (c : Circuit) (clus : List ClusterId) (sigs : List NodeId) :
    SetcoverM → List (List Bool) → Prop
  | init : History c clus sigs (SetcoverM.init c clus sigs) []
  | addRows {s : SetcoverM} {all : List (List Bool)} (rows : List (List Bool)) :
      History c clus sigs s all → History c clus sigs (s.addRows rows) (all ++ rows)
  | select {s : SetcoverM} {all : List (List Bool)} {limit : Int}
      {r : SetcoverM × List ClusterId × NodeSet} :
      History c clus sigs s all → s.select c limit = some r → History c clus sigs r.1 all

theorem any_congr_mem {α : Type} {l : List α} {p q : α → Bool} (h : ∀ a ∈ l, p a = q a) :
    l.any p = l.any q := by
  induction l with
  | nil => rfl
  | cons a l ih => rw [List.any_cons, List.any_cons, h a (by simp), ih fun b hb => h b (by simp [hb])]

/-- A count over the rows by their numbers. -/
theorem countP_getD (all : List (List Bool)) (p : List Bool → Bool) :
    (List.range all.length).countP (fun i => p (all.getD i [])) = all.countP p := by
  have hall : (List.range all.length).map (fun i => all.getD i []) = all :=
    List.ext_getElem (by simp) fun i h1 h2 => by simp [h2]
  conv_rhs => rw [← hall, List.countP_map]
  rfl

/-! ## The state after a history -/

/-- What a history leaves: the columns of the rows, under the names of the inputs. -/
structure Filled (c : Circuit) (clus : List ClusterId) (sigs : List NodeId) (s : SetcoverM)
    (all : List (List Bool)) : Prop where
  rowSize : s.rowSize = all.length
  rows : all = [] ∨ s.Rows all
  colSize : s.colSize = sigs.length
  candsC : s.candsC = clus
  nodePos : s.nodePos = (SetcoverM.init c clus sigs).nodePos

section
variable {c : Circuit} {clus : List ClusterId} {sigs : List NodeId} {s : SetcoverM}
  {all : List (List Bool)}

theorem Filled.addRows (h : Filled c clus sigs s all) (rows : List (List Bool)) :
    Filled c clus sigs (s.addRows rows) (all ++ rows) ∧ (s.addRows rows).Rows (all ++ rows) ∧
      (s.addRows rows).mask = Bitvector.setSize (s.addRows rows).rowSize := by
  obtain ⟨hR, hmask⟩ := SetcoverM.addRows_spec h.rowSize h.rows rows
  exact ⟨⟨hR.rowSize, .inr hR, h.colSize, h.candsC, h.nodePos⟩, hR, by rw [hmask, hR.rowSize]⟩

/-- Another mask. -/
theorem Filled.mask (h : Filled c clus sigs s all) (m : Bitvector) :
    Filled c clus sigs { s with mask := m } all :=
  ⟨h.rowSize, h.rows.imp id fun hR => ⟨hR.rowSize, hR.length, hR.good, hR.bit⟩, h.colSize,
    h.candsC, h.nodePos⟩

theorem History.filled (h : History c clus sigs s all) : Filled c clus sigs s all := by
  induction h with
  | init => exact ⟨rfl, .inl rfl, rfl, rfl, rfl⟩
  | addRows rows _ ih => exact (ih.addRows rows).1
  | select _ hs ih =>
    rw [SetcoverM.select_rest hs]
    exact ih.mask _

theorem lookup_nodePos (clus : List ClusterId) {n : NodeId} (h : Listed c sigs n) :
    (SetcoverM.init c clus sigs).nodePos.lookup (c.node n).name = some (sigs.idxOf n) := by
  obtain ⟨hmem, hone⟩ := h
  induction sigs using List.reverseRecOn with
  | nil => cases hmem
  | append_singleton l a ih =>
    rw [SetcoverM.init_nodePos_concat]
    rw [List.map_append, List.count_append] at hone
    by_cases he : (c.node n).name = (c.node a).name
    · -- the input is the last one, as no other has its name
      have hl : n ∉ l := fun hn => by
        have h1 : 0 < (l.map fun m => (c.node m).name).count (c.node n).name :=
          List.count_pos_iff.2 (List.mem_map_of_mem hn)
        have h2 : (List.map (fun m => (c.node m).name) [a]).count (c.node n).name = 1 := by
          simp [he]
        omega
      have ha : n = a := by
        rcases List.mem_append.1 hmem with h | h
        · exact absurd h hl
        · exact List.mem_singleton.1 h
      rw [he, AList.lookup_insert, List.idxOf_append_of_notMem hl, ha]
      simp
    · have hn : n ∈ l := by
        rcases List.mem_append.1 hmem with h | h
        · exact h
        · exact absurd (by rw [List.mem_singleton.1 h]) he
      have h0 : (List.map (fun m => (c.node m).name) [a]).count (c.node n).name = 0 := by
        simp [Ne.symm he]
      rw [AList.lookup_insert_ne he, List.idxOf_append_of_mem hn]
      exact ih hn (by omega)

section
variable (h : Filled c clus sigs s all) (hR : s.Rows all)
include h hR

theorem Filled.col {n : NodeId} (hn : Listed c sigs n) :
    (s.col c n).Good ∧ (s.col c n).bsize = s.rowSize ∧
      ∀ i, (s.col c n).bit i = hasOne sigs (all.getD i []) n := by
  have hlen : sigs.idxOf n < s.pvaluesCol.length := by
    rw [hR.length, h.colSize]
    exact List.idxOf_lt_length_of_mem hn.mem
  have hcol : s.col c n = s.pvaluesCol[sigs.idxOf n] := by
    rw [SetcoverM.col, h.nodePos, lookup_nodePos clus hn, Option.getD_some,
      List.getD_eq_getElem _ _ hlen]
  obtain ⟨h1, h2⟩ := hR.good _ (List.getElem_mem hlen)
  rw [hcol]
  exact ⟨h1, h2.trans hR.rowSize.symm, hR.bit _ hlen⟩

variable (hsig : ∀ k ∈ clus, ∀ n ∈ (c.cluster k).inputNodes, Listed c sigs n)
include hsig

theorem Filled.columns : s.Columns c := by
  intro k hk n hn
  obtain ⟨h1, h2, -⟩ := h.col hR (hsig k (h.candsC ▸ hk) n hn)
  exact ⟨h1, h2⟩

theorem Filled.coveredBy {k : ClusterId} (hk : k ∈ clus) (i : Nat) :
    s.coveredBy c k i = rowCovered c sigs (all.getD i []) k := by
  unfold SetcoverM.coveredBy rowCovered
  exact any_congr_mem fun n hn => (h.col hR (hsig k hk n hn)).2.2 i

theorem Filled.fresh {k : ClusterId} (hk : k ∈ clus) {others : List ClusterId}
    (ho : ∀ j ∈ others, j ∈ clus) : s.fresh c others k = freshRows c sigs all others k := by
  unfold SetcoverM.fresh freshRows
  rw [← countP_getD, hR.rowSize]
  refine List.countP_congr fun i _ => ?_
  rw [h.coveredBy hR hsig hk, any_congr_mem fun j hj => h.coveredBy hR hsig (ho j hj) i]

end

/-- **`Select` right after `AddRows`**, after any history and under any limit, ends with a cover or
with nothing, except under a negative limit when there are rows and each can be covered. -/
theorem selectRun_selects_iff (h : History c clus sigs s all)
    (hsig : ∀ k ∈ clus, ∀ n ∈ (c.cluster k).inputNodes, Listed c sigs n)
    (rows : List (List Bool)) (limit : Int) :
    Selects c clus sigs (s.addRows rows) (all ++ rows) limit ↔
      0 ≤ limit ∨ all ++ rows = [] ∨
        ∃ row ∈ all ++ rows, ∀ k ∈ clus, rowCovered c sigs row k = false := by
  obtain ⟨hF, hR, hmask⟩ := h.filled.addRows rows
  generalize s.addRows rows = s, all ++ rows = all at hF hR hmask ⊢
  obtain ⟨⟨solved, s', sel, ins⟩, hrun, hrest, hres⟩ :=
    SetcoverM.selectRun_spec (hF.columns hR hsig) hmask limit
  simp only at hrest hres
  rcases hres with ⟨rfl, rfl, rfl, hwhy⟩ | ⟨rfl, hp, hcov, hlim⟩
  · -- no solution
    refine ⟨fun _ => hwhy.imp id fun ⟨i, hi, hk⟩ => .inr ?_, fun _ =>
      ⟨false, s', [], ∅, hrun, fun hne => absurd rfl hne, fun _ => ⟨rfl, rfl⟩⟩⟩
    rw [hR.rowSize] at hi
    refine ⟨all[i], List.getElem_mem hi, fun k hkc => ?_⟩
    have := hk k (hF.candsC.symm ▸ hkc)
    rwa [hF.coveredBy hR hsig hkc, List.getD_eq_getElem _ _ hi] at this
  · have hmem : ∀ k ∈ sel, k ∈ clus := fun k hk => hF.candsC ▸ hp.mem k hk
    have hrow : ∀ row ∈ all, ∃ n ∈ ins, hasOne sigs row n = true := by
      intro row hrow
      obtain ⟨i, hi, rfl⟩ := List.getElem_of_mem hrow
      obtain ⟨n, hn, hni⟩ := hcov i (by rw [hR.rowSize]; exact hi)
      obtain ⟨k, hk, hkn⟩ := (hp.inputs n).1 hn
      refine ⟨n, hn, ?_⟩
      rwa [SetcoverM.covers, (hF.col hR (hsig k (hmem k hk) n hkn)).2.2 i,
        List.getD_eq_getElem _ _ hi] at hni
    constructor
    · rintro ⟨solved, s1, sel1, ins1, hrun1, hcover, -⟩
      rw [hrun] at hrun1
      cases hrun1
      by_cases hsel : sel = []
      · -- nothing is selected, so there is no row
        refine .inr (.inl (List.eq_nil_iff_forall_not_mem.2 fun row hr => ?_))
        obtain ⟨n, hn, -⟩ := hrow row hr
        obtain ⟨k, hk, -⟩ := (hp.inputs n).1 hn
        rw [hsel] at hk
        cases hk
      · exact .inl (le_trans (Int.natCast_nonneg _) (hcover hsel).limited)
    · intro hwhen
      refine ⟨true, s', sel, ins, hrun, fun hne => ?_, fun h => by cases h⟩
      have hl : 0 ≤ limit := by
        rcases hwhen with hl | hnil | ⟨row, hr, hun⟩
        · exact hl
        · rw [SetcoverM.selectRun_empty hmask (by rw [hR.rowSize, hnil]; rfl)] at hrun
          cases hrun
          exact absurd rfl hne
        · obtain ⟨n, hn, hone⟩ := hrow row hr
          obtain ⟨k, hk, hkn⟩ := (hp.inputs n).1 hn
          have := hun k (hmem k hk)
          rw [rowCovered, List.any_eq_false] at this
          exact absurd hone (this n hkn)
      refine ⟨hrow, hp.inputs, hmem, hp.nodup, hlim hl, fun pre k post hs k' hk' => ?_⟩
      have hpre : ∀ j ∈ pre, j ∈ clus := fun j hj => hmem j (by rw [hs]; simp [hj])
      have hk : k ∈ clus := hmem k (by rw [hs]; simp)
      rw [← hF.fresh hR hsig hk hpre, ← hF.fresh hR hsig hk' hpre]
      exact hp.greedy pre k post hs k' (hF.candsC.symm ▸ hk')

end

/-! ## Two clusters -/

/-- Inputs `a` and `b`, and for each a cluster that reads it. -/
def twoInputs : Circuit where
  node i := if i = 0 then { name := "a" } else { name := "b" }
  cluster k := { inputNodes := (∅ : OrdSet NodeId).insert k }

theorem twoInputs_listed : ∀ k ∈ [0, 1], ∀ n ∈ (twoInputs.cluster k).inputNodes,
    Listed twoInputs [0, 1] n := by
  intro k hk n hn
  have hnk : n = k := by simpa [twoInputs] using hn
  rw [hnk]
  rcases List.mem_cons.1 hk with rfl | hk
  · exact ⟨by decide, by decide +kernel⟩
  · rw [List.mem_singleton.1 hk]
    exact ⟨by decide, by decide +kernel⟩

theorem selectRun_selects_iff_two :
    History twoInputs [0, 1] [0, 1] (SetcoverM.init twoInputs [0, 1] [0, 1]) [] ∧
      Selects twoInputs [0, 1] [0, 1]
        ((SetcoverM.init twoInputs [0, 1] [0, 1]).addRows [[true, false], [false, true]])
        [[true, false], [false, true]] 2 :=
  ⟨.init, (selectRun_selects_iff .init twoInputs_listed [[true, false], [false, true]] 2).2
    (.inl (by decide))⟩

/-- Under the limit -1 two clusters are selected. -/
theorem negative_limit :
    History twoInputs [0, 1] [0, 1] (SetcoverM.init twoInputs [0, 1] [0, 1]) [] ∧
    (∀ k ∈ [0, 1], ∀ n ∈ (twoInputs.cluster k).inputNodes, Listed twoInputs [0, 1] n) ∧
    ¬ Selects twoInputs [0, 1] [0, 1]
        ((SetcoverM.init twoInputs [0, 1] [0, 1]).addRows [[true, false], [false, true]])
        [[true, false], [false, true]] (-1) := by
  have hrun : ((((SetcoverM.init twoInputs [0, 1] [0, 1]).addRows
      [[true, false], [false, true]]).selectRun twoInputs (-1)).any fun r => decide
        (r.2.2.1 = [0, 1])) = true := by
    decide +kernel
  refine ⟨.init, twoInputs_listed, fun ⟨solved, s', sel, ins, hsel, hcover, _⟩ => ?_⟩
  obtain ⟨r, h1, h2⟩ := (Option.any_eq_true _ _).1 hrun
  rw [hsel] at h1
  cases h1
  have hs : sel = [0, 1] := of_decide_eq_true h2
  have := (hcover (by simp [hs])).limited
  rw [hs] at this
  exact absurd this (by decide)

end Msyn.Setcover
