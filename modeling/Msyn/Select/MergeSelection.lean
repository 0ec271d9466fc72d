import Msyn.Select.MakeSolver
import Msyn.Select.Setcover

/-!
# The selection loop

`MergeSelection::Solve_c`. A model of the formula of `MakeSolver` gives a pattern of the candidate
inputs where the seed must be 0 and one where it must be 1. Every pattern found is blocked, every
pair of patterns becomes a row of the set cover, and the inputs that `Select` returns are assumed
to agree in the next query. Two unsatisfiable answers in a row, one for the patterns of each kind
that are still open, end the loop with a solution (`solveC_spec`).

`alarm i` says that the timer fires during the `i`-th call of the solver. The answers of an exact
solver are arbitrary otherwise, and may depend on the number of the call.
-/

namespace Msyn.MergeSelection

open Nodecircuit Cnf CNFgen Glucose GInterface Setcover

abbrev Pattern := OrdMap NodeId Bool

/-- `data[sig]`. -/
def Pattern.at (data : Pattern) (sig : NodeId) : Bool := (data.find sig).getD false

inductive FType where
  | in0
  | in1

structure State where
  made : Made
  set : SetcoverM
  in0cases : List Pattern := []
  in1cases : List Pattern := []
  solutionC : List ClusterId := []
  solutionInputs : NodeSet := ∅
  noIn0case : Bool := false
  noIn1case : Bool := false
  flag : Bool
  firstIteration : Bool := true
  calls : Nat := 0

/-- How the loop ends: with the message that a solution is found, or otherwise, and after how many
calls of the solver. -/
structure Outcome where
  found : Bool
  solutionC : List ClusterId
  solutionInputs : NodeSet
  calls : Nat

section
variable (impl spec : CNFGenerator) (c : Circuit) (seed : NodeId) (cands : List ClusterId)
  (candInputs : List NodeId) (limit : Int) (solver : Nat → Solve) (alarm : Nat → Bool)

/-- The clause that blocks a pattern unless its kind is disabled. -/
def removeCase (made : Made) (data : Pattern) : FType → Made
  | .in0 => { made with glu := made.glu.addClause (candInputs.flatMap fun sig =>
      [(impl.getIndex (c.node sig).name, !data.at sig), ((made.enIn0 : Int), true)]) }
  | .in1 => { made with glu := made.glu.addClause (candInputs.flatMap fun sig =>
      [(impl.getIndex (c.node sig).name + ((2 * impl.numVars : Nat) : Int), !data.at sig),
        ((made.enIn1 : Int), true)]) }

/-- The pattern of a model in the copy at the offset. -/
def patternOf (m : Model) (offset : Nat) : Pattern :=
  OrdMap.tabulate candInputs fun sig => m (impl.getIndex (c.node sig).name + (offset : Int)).toNat

/-- The row that tells two patterns apart. -/
def diffRow (p q : Pattern) : List Bool := candInputs.map fun sig => p.at sig != q.at sig

/-- After a timeout: a new solver with the formula and the patterns found so far. -/
def rebuild (st : State) : Made :=
  let made := makeSolver impl spec c seed candInputs
  let made := st.in0cases.foldl (fun made p => removeCase impl c candInputs made p .in0) made
  st.in1cases.foldl (fun made p => removeCase impl c candInputs made p .in1) made

/-- The new `in0case` of a model, with its rows. -/
def addIn0 (st : State) (m : Model) : State × List (List Bool) :=
  if st.noIn0case then (st, [])
  else
    let in0case := patternOf impl c candInputs m 0
    ({ st with
        in0cases := st.in0cases ++ [in0case]
        made := removeCase impl c candInputs st.made in0case .in0 },
      st.in1cases.map (diffRow candInputs in0case))

/-- The new `in1case` of a model, with its rows. -/
def addIn1 (st : State) (m : Model) : State × List (List Bool) :=
  if st.noIn1case then (st, [])
  else
    let in1case := patternOf impl c candInputs m (impl.numVars * 2)
    ({ st with
        in1cases := st.in1cases ++ [in1case]
        made := removeCase impl c candInputs st.made in1case .in1 },
      st.in0cases.map (diffRow candInputs in1case))

def onSat (st : State) (m : Model) : State × List (List Bool) :=
  let (st, rows0) := addIn0 impl c candInputs { st with flag := false, firstIteration := false } m
  let (st, rows1) := addIn1 impl c candInputs st m
  (st, rows0 ++ rows1)

/-- The set cover of the rows so far; `none` if `Select` did not return. -/
def reselect (st : State) (rows : List (List Bool)) : State ⊕ Option Outcome :=
  match (st.set.addRows rows).select c limit with
  | none => .inr none
  | some (set, solutionC, solutionInputs) =>
    if solutionC = [] then .inr (some { found := false, solutionC, solutionInputs, calls := st.calls })
    else .inl { st with set, solutionC, solutionInputs }

/-- The loop ends with the selection it has. -/
def State.outcome (st : State) (found : Bool) : Outcome :=
  { found, solutionC := st.solutionC, solutionInputs := st.solutionInputs, calls := st.calls }

def onUnsat (st : State) : State ⊕ Option Outcome :=
  if st.firstIteration then .inr (some (st.outcome false))
  else if st.flag then .inr (some (st.outcome true))
  else if st.noIn1case = false then
    if st.noIn0case = false then .inl { st with noIn1case := true }
    else .inl { st with noIn1case := true, noIn0case := false, flag := true }
  else if st.noIn0case = false then
    .inl { st with noIn0case := true, noIn1case := false, flag := true }
  else reselect c limit st []

/-- The assumptions `con`. -/
def assumptions (st : State) : List Lit :=
  st.solutionInputs.elems.map (fun sig => (st.made.eq sig, true)) ++
    [(st.made.enIn0, st.noIn0case), (st.made.enIn1, st.noIn1case)]

/-- One iteration of `Solve_c`. -/
def solveStep (st : State) : State ⊕ Option Outcome :=
  let i := st.calls
  let st := { st with calls := i + 1 }
  if alarm i then onUnsat c limit { st with made := rebuild impl spec c seed candInputs st }
  else
    match solver i st.made.glu.clauses (assumptions st) with
    | some m =>
      let (st, rows) := onSat impl c candInputs st m
      reselect c limit st rows
    | none => onUnsat c limit st

/-- The state before the loop; `flag` is not initialised. -/
def start (flag : Bool) : State where
  made := makeSolver impl spec c seed candInputs
  set := SetcoverM.init c cands candInputs
  flag

/-- `Solve_c` with a bound on the number of iterations. -/
def solveC (fuel : Nat) (flag : Bool) : Option (Option Outcome) :=
  loop (solveStep impl spec c seed candInputs limit solver alarm) fuel
    (start impl spec c seed cands candInputs flag)

end

/-! ## Patterns -/

/-- All patterns of the nodes. -/
def patterns (l : List NodeId) : List Pattern :=
  l.foldl (fun ms k => ms.flatMap fun m => [m.set k false, m.set k true]) [∅]

theorem tabulate_mem (l : List NodeId) (f : NodeId → Bool) : OrdMap.tabulate l f ∈ patterns l := by
  have key : ∀ (l : List NodeId) (m : Pattern) (ms : List Pattern), m ∈ ms →
      l.foldl (fun m k => m.set k (f k)) m ∈
        l.foldl (fun ms k => ms.flatMap fun m => [m.set k false, m.set k true]) ms := by
    intro l
    induction l with
    | nil => exact fun _ _ => id
    | cons k l ih =>
      intro m ms hm
      refine ih _ _ (List.mem_flatMap.2 ⟨m, hm, ?_⟩)
      cases hf : f k <;> simp [hf]
  exact key l ∅ [∅] (by simp)

theorem Pattern.at_tabulate {l : List NodeId} {f : NodeId → Bool} {sig : NodeId} (h : sig ∈ l) :
    Pattern.at (OrdMap.tabulate l f) sig = f sig := by
  rw [Pattern.at, OrdMap.find_tabulate, if_pos h]
  rfl

/-- A pattern over the given nodes. -/
def Over (l : List NodeId) (p : Pattern) : Prop := ∃ f, p = OrdMap.tabulate l f

theorem Over.ext {l : List NodeId} {p q : Pattern} (hp : Over l p) (hq : Over l q)
    (h : ∀ sig ∈ l, p.at sig = q.at sig) : p = q := by
  obtain ⟨f, rfl⟩ := hp
  obtain ⟨g, rfl⟩ := hq
  refine OrdMap.tabulate_inj.2 fun sig hsig => ?_
  have := h sig hsig
  rwa [Pattern.at_tabulate hsig, Pattern.at_tabulate hsig] at this

theorem cases_length_le {l : List NodeId} {ps : List Pattern} (hnd : ps.Nodup)
    (h : ∀ p ∈ ps, Over l p) : ps.length ≤ (patterns l).length := by
  refine (List.subperm_of_subset hnd fun p hp => ?_).length_le
  obtain ⟨f, rfl⟩ := h p hp
  exact tabulate_mem l f

/-! ## The set cover of the loop -/

section
variable {c : Circuit} {cands : List ClusterId} {candInputs : List NodeId}

theorem nodePos_spec (cands : List ClusterId) : ∀ {l : List NodeId}, (∀ a ∈ l, ∀ b ∈ l,
    (c.node a).name = (c.node b).name → a = b) → ∀ sig ∈ l,
    ∃ j, ∃ h : j < l.length,
      (SetcoverM.init c cands l).nodePos.lookup (c.node sig).name = some j ∧ l[j] = sig := by
  intro l
  induction l using List.reverseRecOn with
  | nil => intro _ sig h; cases h
  | append_singleton l a ih =>
    intro hinj sig hsig
    have hpos := SetcoverM.init_nodePos_concat c cands l a
    by_cases he : (c.node sig).name = (c.node a).name
    · refine ⟨l.length, by simp, ?_, ?_⟩
      · rw [hpos, he, AList.lookup_insert]
      · rw [List.getElem_append_right (Nat.le_refl _)]
        simpa using (hinj sig hsig a (by simp) he).symm
    · have hsl : sig ∈ l := by
        rcases List.mem_append.1 hsig with h | h
        · exact h
        · exact absurd (by rw [List.mem_singleton.1 h]) he
      obtain ⟨j, hj, h1, h2⟩ := ih (fun x hx y hy => hinj x (by simp [hx]) y (by simp [hy])) sig hsl
      refine ⟨j, by simp; omega, ?_, ?_⟩
      · rw [hpos, AList.lookup_insert_ne he, h1]
      · rw [List.getElem_append_left hj, h2]

/-- The set cover holds the rows `all`, each of which tells two patterns apart. -/
structure Table (c : Circuit) (cands : List ClusterId) (candInputs : List NodeId) (set : SetcoverM)
    (all : List (List Bool)) : Prop where
  rowSize : set.rowSize = all.length
  rows : all = [] ∨ set.Rows all
  colSize : set.colSize = candInputs.length
  candsC : set.candsC = cands
  nodePos : set.nodePos = (SetcoverM.init c cands candInputs).nodePos
  shape : ∀ row ∈ all, ∃ p q, row = diffRow candInputs p q

/-- What `Select` returns if it finds a cover. -/
structure Chosen (c : Circuit) (cands solutionC : List ClusterId) (solutionInputs : NodeSet) : Prop where
  nonempty : solutionC ≠ []
  mem : ∀ k ∈ solutionC, k ∈ cands
  nodup : solutionC.Nodup
  inputs : ∀ n, n ∈ solutionInputs ↔ ∃ k ∈ solutionC, n ∈ (c.cluster k).inputNodes

/-- The nodes tell the patterns apart. -/
def Splits (sigs : NodeSet) (p q : Pattern) : Prop := ∃ sig ∈ sigs, p.at sig ≠ q.at sig

variable (hinj : ∀ a ∈ candInputs, ∀ b ∈ candInputs, (c.node a).name = (c.node b).name → a = b)
  (hcands : ∀ k ∈ cands, ∀ n ∈ (c.cluster k).inputNodes, n ∈ candInputs)
include hinj hcands

omit hcands in
theorem Table.covers {set : SetcoverM} {all : List (List Bool)} (ht : Table c cands candInputs set all)
    (hR : set.Rows all) {sig : NodeId} (hsig : sig ∈ candInputs) {i : Nat} {p q : Pattern}
    (hi : all[i]? = some (diffRow candInputs p q)) (hc : set.covers c sig i) : p.at sig ≠ q.at sig := by
  obtain ⟨j, hj, h1, h2⟩ := nodePos_spec cands hinj sig hsig
  have hlen : j < set.pvaluesCol.length := by rw [hR.length, ht.colSize]; exact hj
  have hcol : set.col c sig = set.pvaluesCol[j] := by
    rw [SetcoverM.col, ht.nodePos, h1, Option.getD_some, List.getD_eq_getElem _ _ hlen]
  have hrow : all.getD i [] = diffRow candInputs p q := by
    rw [List.getD_eq_getElem?_getD, hi, Option.getD_some]
  rw [SetcoverM.covers, hcol, hR.bit j hlen, hrow, diffRow,
    List.getD_eq_getElem _ _ (by simpa using hj), List.getElem_map, h2] at hc
  simpa using hc

theorem Table.columns {set : SetcoverM} {all : List (List Bool)} (ht : Table c cands candInputs set all)
    (hR : set.Rows all) : set.Columns c := by
  intro k hk n hn
  rw [ht.candsC] at hk
  obtain ⟨j, hj, h1, -⟩ := nodePos_spec cands hinj n (hcands k hk n hn)
  have hlen : j < set.pvaluesCol.length := by rw [hR.length, ht.colSize]; exact hj
  have hcol : set.col c n = set.pvaluesCol[j] := by
    rw [SetcoverM.col, ht.nodePos, h1, Option.getD_some, List.getD_eq_getElem _ _ hlen]
  rw [hcol, ht.rowSize]
  exact hR.good _ (List.getElem_mem hlen)

/-- **One set cover**: nothing, or clusters whose inputs tell all pairs of patterns apart. -/
theorem reselect_spec {st : State} {all rows : List (List Bool)} {limit : Int}
    (ht : Table c cands candInputs st.set all)
    (hrows : ∀ row ∈ rows, ∃ p q, row = diffRow candInputs p q) :
    (∃ solutionInputs, reselect c limit st rows =
      .inr (some { found := false, solutionC := [], solutionInputs, calls := st.calls })) ∨
    ∃ set solutionC solutionInputs, reselect c limit st rows =
        .inl { st with set, solutionC, solutionInputs } ∧
      Table c cands candInputs set (all ++ rows) ∧ Chosen c cands solutionC solutionInputs ∧
      (∀ sig ∈ solutionInputs, sig ∈ candInputs) ∧
      ∀ p q, diffRow candInputs p q ∈ all ++ rows → Splits solutionInputs p q := by
  obtain ⟨hR, hmask⟩ := SetcoverM.addRows_spec ht.rowSize ht.rows rows
  have ht' : Table c cands candInputs (st.set.addRows rows) (all ++ rows) :=
    ⟨hR.rowSize, .inr hR, ht.colSize, ht.candsC, ht.nodePos, fun row hrow => by
      rcases List.mem_append.1 hrow with h | h
      · exact ht.shape row h
      · exact hrows row h⟩
  obtain ⟨⟨set, solC, solI⟩, hsel, hrest, hres⟩ := SetcoverM.select_spec
    (ht'.columns hinj hcands hR) (by rw [hmask, hR.rowSize]) limit
  simp only at hrest hres
  unfold reselect
  rw [hsel]
  simp only
  split
  · rename_i hnil
    exact .inl ⟨solI, by rw [hnil]⟩
  · rename_i hne
    obtain ⟨hp, hcov⟩ := hres.resolve_left fun h => hne h.1
    have hin : ∀ sig ∈ solI, sig ∈ candInputs := fun sig hsig => by
      obtain ⟨k, hk, hn⟩ := (hp.inputs sig).1 hsig
      exact hcands k (ht'.candsC ▸ hp.mem k hk) sig hn
    refine .inr ⟨set, solC, solI, rfl, ?_, ⟨hne, fun k hk => ht'.candsC ▸ hp.mem k hk, hp.nodup,
      hp.inputs⟩, hin, fun p q hpq => ?_⟩
    · rw [hrest]
      exact ⟨ht'.rowSize, .inr ⟨hR.rowSize, hR.length, hR.good, hR.bit⟩, ht'.colSize, ht'.candsC,
        ht'.nodePos, ht'.shape⟩
    · obtain ⟨i, hi, he⟩ := List.getElem_of_mem hpq
      obtain ⟨sig, hsig, hc⟩ := hcov i (by rw [hR.rowSize]; exact hi)
      exact ⟨sig, hsig, ht'.covers hinj hR (hin sig hsig)
        (by rw [← he]; exact List.getElem?_eq_getElem hi) hc⟩

end

end Msyn.MergeSelection
