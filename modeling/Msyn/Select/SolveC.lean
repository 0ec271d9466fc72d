import Msyn.Select.MergeSelection

/-!
# Solve_c ends with a selection that separates

`Inv` is the invariant of the loop of `Solve_c`: the solver holds the formula of `MakeSolver` and a
clause for each pattern found (`Formed`), the set cover has a row for each pair of patterns of the
two kinds, the selection covers all rows, and `flag` says that the query with the two enables
exchanged was unsatisfiable. Every answer finds a new pattern or moves to a mode that is closer to
the end (`solveStep_spec`), so the loop ends, and a solution that rests on two answers without a
timeout separates the assignments of the two kinds (`solveC_spec`).
-/

namespace Msyn.MergeSelection

open Nodecircuit Cnf CNFgen Glucose GInterface Setcover

section
variable (impl spec : CNFGenerator) (c : Circuit) (seed : NodeId) (cands : List ClusterId)
  (candInputs : List NodeId) (alarm : Nat → Bool)

/-- The model differs from the pattern in the copy, or the kind is disabled by `en`. -/
def Blocks (m : Model) (k en : Nat) (p : Pattern) : Prop :=
  ∃ sig ∈ candInputs, implModel impl m k (varOf c impl sig) ≠ p.at sig ∨ m en = true

/-- The clause that `removeCase` adds for a pattern of the kind. -/
def BlocksKind (m : Model) (made : Made) (p : Pattern) : FType → Prop
  | .in0 => Blocks impl c candInputs m 0 made.enIn0 p
  | .in1 => Blocks impl c candInputs m 2 made.enIn1 p

/-- The solver holds the formula and the patterns found, which are different. -/
structure Formed (st : State) : Prop where
  en0 : st.made.enIn0 = (makeSolver impl spec c seed candInputs).enIn0
  en1 : st.made.enIn1 = (makeSolver impl spec c seed candInputs).enIn1
  eq : st.made.eqTrigger = (makeSolver impl spec c seed candInputs).eqTrigger
  sat : ∀ m, Sat m st.made.glu.clauses ↔
    Sat m (makeSolver impl spec c seed candInputs).glu.clauses ∧
      (∀ p ∈ st.in0cases, Blocks impl c candInputs m 0 st.made.enIn0 p) ∧
      ∀ p ∈ st.in1cases, Blocks impl c candInputs m 2 st.made.enIn1 p
  over0 : ∀ p ∈ st.in0cases, Over candInputs p
  over1 : ∀ p ∈ st.in1cases, Over candInputs p
  nodup0 : st.in0cases.Nodup
  nodup1 : st.in1cases.Nodup

/-- The query of the selection with the given enables is satisfiable. -/
def Query (st : State) (b0 b1 : Bool) : Prop :=
  ∃ m, Sat m st.made.glu.clauses ∧ (∀ sig ∈ st.solutionInputs, m (st.made.eq sig) = true) ∧
    m st.made.enIn0 = b0 ∧ m st.made.enIn1 = b1

/-- The invariant at the head of the loop. -/
structure Inv (st : State) : Prop where
  formed : Formed impl spec c seed candInputs st
  modes : st.noIn0case = true → st.noIn1case = false
  table : ∃ all, Table c cands candInputs st.set all ∧
    ∀ p ∈ st.in0cases, ∀ q ∈ st.in1cases, diffRow candInputs p q ∈ all
  first : st.firstIteration = true → st.in0cases = [] ∧ st.in1cases = [] ∧ st.solutionC = [] ∧
    st.noIn0case = false ∧ st.noIn1case = false
  later : st.firstIteration = false → st.in0cases ≠ [] ∧ st.in1cases ≠ [] ∧
    Chosen c cands st.solutionC st.solutionInputs ∧ (∀ sig ∈ st.solutionInputs, sig ∈ candInputs) ∧
    ∀ p ∈ st.in0cases, ∀ q ∈ st.in1cases, Splits st.solutionInputs p q
  flagged : st.firstIteration = false → st.flag = true → st.noIn0case ≠ st.noIn1case ∧
    1 ≤ st.calls ∧ (alarm (st.calls - 1) = false → ¬Query st (!st.noIn0case) (!st.noIn1case))
  must : st.firstIteration = false → ∃ m m' s, Must impl spec c seed true m m' s

/-- No assignments of the two kinds agree on the nodes. -/
def Separates (sigs : NodeSet) : Prop :=
  ¬∃ m0 m1 m2 m3 s0 s1, Must impl spec c seed false m0 m1 s0 ∧ Must impl spec c seed true m3 m2 s1 ∧
    ∀ sig ∈ sigs, m0 (varOf c impl sig) = m2 (varOf c impl sig)

/-- How the loop may end. -/
structure Ends (o : Option Outcome) : Prop where
  returns : ∃ r, o = some r
  empty : ∀ r, o = some r → r.found = false → r.solutionC = []
  chosen : ∀ r, o = some r → r.found = true → Chosen c cands r.solutionC r.solutionInputs ∧
    (∀ sig ∈ r.solutionInputs, sig ∈ candInputs) ∧ 2 ≤ r.calls ∧
    (alarm (r.calls - 1) = false → alarm (r.calls - 2) = false →
      Separates impl spec c seed r.solutionInputs)
  must : ∀ r, o = some r → r.found = true → ∃ m m' s, Must impl spec c seed true m m' s

/-- The modes left until the loop ends without a new pattern. -/
def rank (st : State) : Nat :=
  if st.firstIteration then 3
  else if st.flag then 1
  else if st.noIn0case = false ∧ st.noIn1case = false then 3 else 2

def measure (st : State) : Nat :=
  4 * (2 * (patterns candInputs).length - st.in0cases.length - st.in1cases.length) + rank st

end

variable {impl spec : CNFGenerator} {c : Circuit} {seed : NodeId} {cands : List ClusterId}
  {candInputs : List NodeId} {limit : Int} {solver : Nat → Solve} {alarm : Nat → Bool}

theorem diffRow_comm (p q : Pattern) : diffRow candInputs p q = diffRow candInputs q p :=
  List.map_congr_left fun _ _ => bne_comm

theorem onSat_both {st : State} (h0 : st.noIn0case = false) (h1 : st.noIn1case = false) (m : Model) :
    let p := patternOf impl c candInputs m 0
    let q := patternOf impl c candInputs m (impl.numVars * 2)
    onSat impl c candInputs st m = ({ st with
      flag := false
      firstIteration := false
      in0cases := st.in0cases ++ [p]
      in1cases := st.in1cases ++ [q]
      made := removeCase impl c candInputs (removeCase impl c candInputs st.made p .in0) q .in1 },
      st.in1cases.map (diffRow candInputs p) ++ (st.in0cases ++ [p]).map (diffRow candInputs q)) := by
  simp [onSat, addIn0, addIn1, h0, h1]

theorem onSat_in0 {st : State} (h0 : st.noIn0case = false) (h1 : st.noIn1case = true) (m : Model) :
    let p := patternOf impl c candInputs m 0
    onSat impl c candInputs st m = ({ st with
      flag := false
      firstIteration := false
      in0cases := st.in0cases ++ [p]
      made := removeCase impl c candInputs st.made p .in0 },
      st.in1cases.map (diffRow candInputs p)) := by
  simp [onSat, addIn0, addIn1, h0, h1]

theorem onSat_in1 {st : State} (h0 : st.noIn0case = true) (h1 : st.noIn1case = false) (m : Model) :
    let q := patternOf impl c candInputs m (impl.numVars * 2)
    onSat impl c candInputs st m = ({ st with
      flag := false
      firstIteration := false
      in1cases := st.in1cases ++ [q]
      made := removeCase impl c candInputs st.made q .in1 },
      st.in0cases.map (diffRow candInputs q)) := by
  simp [onSat, addIn0, addIn1, h0, h1]

section
variable (hn : Names impl spec c seed candInputs)
include hn

theorem removeCase_sat (made : Made) (p : Pattern) (m : Model) :
    (Sat m (removeCase impl c candInputs made p .in0).glu.clauses ↔
      Sat m made.glu.clauses ∧ Blocks impl c candInputs m 0 made.enIn0 p) ∧
    (Sat m (removeCase impl c candInputs made p .in1).glu.clauses ↔
      Sat m made.glu.clauses ∧ Blocks impl c candInputs m 2 made.enIn1 p) := by
  have hne : ∀ a b : Bool, a = !b ↔ a ≠ b := by decide
  constructor
  · rw [removeCase, (addClause_adds _ _).sat]
    refine and_congr_right fun _ => ?_
    simp only [List.mem_flatMap, List.mem_cons, List.not_mem_nil, or_false]
    constructor
    · rintro ⟨l, ⟨sig, hsig, rfl | rfl⟩, hl⟩
      · have hl : m (impl.getIndex (c.node sig).name).natAbs = !p.at sig := hl
        rw [(hn.cands sig hsig).natAbs] at hl
        exact ⟨sig, hsig, .inl ((hne _ _).1 hl)⟩
      · exact ⟨sig, hsig, .inr hl⟩
    · rintro ⟨sig, hsig, h | h⟩
      · refine ⟨_, ⟨sig, hsig, .inl rfl⟩, ?_⟩
        rw [(hn.cands sig hsig).natAbs]
        exact (hne _ _).2 h
      · exact ⟨_, ⟨sig, hsig, .inr rfl⟩, h⟩
  · rw [removeCase, (addClause_adds _ _).sat]
    refine and_congr_right fun _ => ?_
    have hoff : ∀ sig ∈ candInputs, implModel impl m 2 (varOf c impl sig) =
        m (impl.getIndex (c.node sig).name + ((2 * impl.numVars : Nat) : Int)).natAbs := by
      intro sig hsig
      rw [(hn.cands sig hsig).natAbs_add, implModel, Nat.mul_comm]
      rfl
    simp only [List.mem_flatMap, List.mem_cons, List.not_mem_nil, or_false]
    constructor
    · rintro ⟨l, ⟨sig, hsig, rfl | rfl⟩, hl⟩
      · exact ⟨sig, hsig, .inl ((hne _ _).1 (by rw [hoff sig hsig]; exact hl))⟩
      · exact ⟨sig, hsig, .inr hl⟩
    · rintro ⟨sig, hsig, h | h⟩
      · exact ⟨_, ⟨sig, hsig, .inl rfl⟩, (hne _ _).2 (by rw [← hoff sig hsig]; exact h)⟩
      · exact ⟨_, ⟨sig, hsig, .inr rfl⟩, h⟩

theorem patternOf_at {m : Model} {k : Nat} {sig : NodeId} (hsig : sig ∈ candInputs) :
    (patternOf impl c candInputs m (impl.numVars * k)).at sig =
      implModel impl m k (varOf c impl sig) := by
  rw [patternOf, Pattern.at_tabulate hsig, (hn.cands sig hsig).getIndex]
  rfl

/-- A model whose kind is enabled has a pattern that was not found yet. -/
theorem not_mem_of_blocks {m : Model} {k en : Nat} {ps : List Pattern} (hen : m en = false)
    (h : ∀ p ∈ ps, Blocks impl c candInputs m k en p) :
    patternOf impl c candInputs m (impl.numVars * k) ∉ ps := by
  intro hp
  obtain ⟨sig, hsig, hd | hd⟩ := h _ hp
  · exact hd (patternOf_at hn hsig).symm
  · rw [hen] at hd
    cases hd

/-- After a timeout the new solver holds the same formula. -/
theorem Formed.rebuild {st : State} (h : Formed impl spec c seed candInputs st) :
    Formed impl spec c seed candInputs
      { st with made := rebuild impl spec c seed candInputs st } := by
  have key : ∀ (ps : List Pattern) (t : FType) (made : Made),
      (ps.foldl (fun made p => removeCase impl c candInputs made p t) made).enIn0 = made.enIn0 ∧
      (ps.foldl (fun made p => removeCase impl c candInputs made p t) made).enIn1 = made.enIn1 ∧
      (ps.foldl (fun made p => removeCase impl c candInputs made p t) made).eqTrigger =
        made.eqTrigger ∧
      ∀ m, Sat m (ps.foldl (fun made p => removeCase impl c candInputs made p t) made).glu.clauses ↔
        Sat m made.glu.clauses ∧ ∀ p ∈ ps, BlocksKind impl c candInputs m made p t := by
    intro ps t
    induction ps with
    | nil => intro made; simp
    | cons p ps ih =>
      intro made
      obtain ⟨h1, h2, h3, h4⟩ := ih (removeCase impl c candInputs made p t)
      cases t with
      | in0 =>
        refine ⟨h1, h2, h3, fun m => (h4 m).trans ?_⟩
        rw [(removeCase_sat hn made p m).1, and_assoc, List.forall_mem_cons]
        rfl
      | in1 =>
        refine ⟨h1, h2, h3, fun m => (h4 m).trans ?_⟩
        rw [(removeCase_sat hn made p m).2, and_assoc, List.forall_mem_cons]
        rfl
  obtain ⟨a1, a2, a3, a4⟩ := key st.in0cases .in0 (makeSolver impl spec c seed candInputs)
  obtain ⟨b1, b2, b3, b4⟩ := key st.in1cases .in1 (st.in0cases.foldl (fun made p =>
    removeCase impl c candInputs made p .in0) (makeSolver impl spec c seed candInputs))
  refine ⟨b1.trans a1, b2.trans a2, b3.trans a3, fun m => ?_, h.over0, h.over1, h.nodup0, h.nodup1⟩
  have e0 : (MergeSelection.rebuild impl spec c seed candInputs st).enIn0 =
    (makeSolver impl spec c seed candInputs).enIn0 := b1.trans a1
  have e1 : (MergeSelection.rebuild impl spec c seed candInputs st).enIn1 =
    (makeSolver impl spec c seed candInputs).enIn1 := b2.trans a2
  refine (b4 m).trans ?_
  simp only [a4 m, BlocksKind, a2, e0, e1, and_assoc]

/-! ## The answers of the solver -/

variable (impl spec c seed candInputs) in
/-- What a satisfiable answer adds. -/
structure Grown (st st' : State) (rows : List (List Bool)) : Prop where
  formed : Formed impl spec c seed candInputs st'
  rest : st' = { st with
    flag := false
    firstIteration := false
    in0cases := st'.in0cases
    in1cases := st'.in1cases
    made := st'.made }
  sub0 : ∃ ps, st'.in0cases = st.in0cases ++ ps
  sub1 : ∃ ps, st'.in1cases = st.in1cases ++ ps
  grows : st.in0cases.length + st.in1cases.length < st'.in0cases.length + st'.in1cases.length
  nonempty0 : st.noIn0case = false → st'.in0cases ≠ []
  nonempty1 : st.noIn1case = false → st'.in1cases ≠ []
  shape : ∀ row ∈ rows, ∃ p q, row = diffRow candInputs p q
  pairs : ∀ p ∈ st'.in0cases, ∀ q ∈ st'.in1cases,
    (p ∈ st.in0cases ∧ q ∈ st.in1cases) ∨ diffRow candInputs p q ∈ rows

theorem Formed.addIn0 {st : State} (h : Formed impl spec c seed candInputs st) {m : Model}
    (hnew : patternOf impl c candInputs m 0 ∉ st.in0cases) :
    Formed impl spec c seed candInputs { st with
      in0cases := st.in0cases ++ [patternOf impl c candInputs m 0]
      made := removeCase impl c candInputs st.made (patternOf impl c candInputs m 0) .in0 } where
  en0 := h.en0
  en1 := h.en1
  eq := h.eq
  sat m' := by
    simp only [(removeCase_sat hn _ _ _).1, h.sat, List.forall_mem_append, List.forall_mem_singleton]
    exact ⟨fun ⟨⟨a, b, c⟩, d⟩ => ⟨a, ⟨b, d⟩, c⟩, fun ⟨a, ⟨b, d⟩, c⟩ => ⟨⟨a, b, c⟩, d⟩⟩
  over0 p hp := by
    rcases List.mem_append.1 hp with hp | hp
    · exact h.over0 p hp
    · rw [List.mem_singleton.1 hp]
      exact ⟨_, rfl⟩
  over1 := h.over1
  nodup0 := List.nodup_append.2 ⟨h.nodup0, by simp, fun a ha b hb hab => by
    rw [List.mem_singleton] at hb
    exact hnew (hb ▸ hab ▸ ha)⟩
  nodup1 := h.nodup1

theorem Formed.addIn1 {st : State} (h : Formed impl spec c seed candInputs st) {m : Model}
    (hnew : patternOf impl c candInputs m (impl.numVars * 2) ∉ st.in1cases) :
    Formed impl spec c seed candInputs { st with
      in1cases := st.in1cases ++ [patternOf impl c candInputs m (impl.numVars * 2)]
      made := removeCase impl c candInputs st.made
        (patternOf impl c candInputs m (impl.numVars * 2)) .in1 } where
  en0 := h.en0
  en1 := h.en1
  eq := h.eq
  sat m' := by
    simp only [(removeCase_sat hn _ _ _).2, h.sat, List.forall_mem_append, List.forall_mem_singleton]
    exact ⟨fun ⟨⟨a, b, c⟩, d⟩ => ⟨a, b, c, d⟩, fun ⟨a, b, c, d⟩ => ⟨⟨a, b, c⟩, d⟩⟩
  over0 := h.over0
  over1 p hp := by
    rcases List.mem_append.1 hp with hp | hp
    · exact h.over1 p hp
    · rw [List.mem_singleton.1 hp]
      exact ⟨_, rfl⟩
  nodup0 := h.nodup0
  nodup1 := List.nodup_append.2 ⟨h.nodup1, by simp, fun a ha b hb hab => by
    rw [List.mem_singleton] at hb
    exact hnew (hb ▸ hab ▸ ha)⟩

/-- **A satisfiable answer** finds a new pattern of each enabled kind, with rows for the new pairs. -/
theorem onSat_spec {st : State} (h : Formed impl spec c seed candInputs st)
    (hmodes : st.noIn0case = true → st.noIn1case = false) {m : Model}
    (hm : Sat m st.made.glu.clauses) (has : Holds m (assumptions st)) :
    Grown impl spec c seed candInputs st
      (onSat impl c candInputs st m).1 (onSat impl c candInputs st m).2 := by
  obtain ⟨-, hs0, hs1⟩ := (h.sat m).1 hm
  simp only [assumptions, holds_append, holds_cons, holds_nil, and_true] at has
  obtain ⟨-, he0, he1⟩ := has
  have hnew0 : st.noIn0case = false → patternOf impl c candInputs m 0 ∉ st.in0cases := fun hf =>
    not_mem_of_blocks hn (k := 0) (he0.trans hf) hs0
  have hnew1 : st.noIn1case = false →
      patternOf impl c candInputs m (impl.numVars * 2) ∉ st.in1cases := fun hf =>
    not_mem_of_blocks hn (he1.trans hf) hs1
  have h' : Formed impl spec c seed candInputs { st with flag := false, firstIteration := false } :=
    ⟨h.en0, h.en1, h.eq, h.sat, h.over0, h.over1, h.nodup0, h.nodup1⟩
  have hshape : ∀ (p : Pattern) (ps : List Pattern), ∀ row ∈ ps.map (diffRow candInputs p),
      ∃ p q, row = diffRow candInputs p q := by
    intro p ps row hrow
    obtain ⟨q, -, rfl⟩ := List.mem_map.1 hrow
    exact ⟨p, q, rfl⟩
  cases h0 : st.noIn0case with
  | false =>
    have f0 := Formed.addIn0 hn h' (m := m) (hnew0 h0)
    cases h1 : st.noIn1case with
    | false =>
      have f1 := Formed.addIn1 hn f0 (m := m) (hnew1 h1)
      rw [onSat_both h0 h1]
      refine ⟨f1, rfl, ⟨_, rfl⟩, ⟨_, rfl⟩, by simp; omega, by simp, by simp,
        fun row hrow => ?_, fun p hp q hq => ?_⟩
      · rcases List.mem_append.1 hrow with hrow | hrow
        · exact hshape _ _ row hrow
        · exact hshape _ _ row hrow
      · simp only [List.mem_append, List.mem_singleton] at hp hq ⊢
        rcases hq with hq | rfl
        · rcases hp with hp | rfl
          · exact .inl ⟨hp, hq⟩
          · exact .inr (.inl (List.mem_map_of_mem hq))
        · refine .inr (.inr (List.mem_map.2 ⟨p, ?_, diffRow_comm _ _⟩))
          simpa using hp
    | true =>
      rw [onSat_in0 h0 h1]
      refine ⟨f0, rfl, ⟨_, rfl⟩, ⟨[], (List.append_nil _).symm⟩, by simp, by simp,
        fun h => (by rw [h1] at h; cases h), fun row hrow => hshape _ _ row hrow,
        fun p hp q hq => ?_⟩
      rcases List.mem_append.1 hp with hp | hp
      · exact .inl ⟨hp, hq⟩
      · rw [List.mem_singleton.1 hp]
        exact .inr (List.mem_map_of_mem hq)
  | true =>
    have h1 := hmodes h0
    have f1 := Formed.addIn1 hn h' (m := m) (hnew1 h1)
    rw [onSat_in1 h0 h1]
    refine ⟨f1, rfl, ⟨[], (List.append_nil _).symm⟩, ⟨_, rfl⟩, by simp,
      fun h => (by rw [h0] at h; cases h), by simp, fun row hrow => hshape _ _ row hrow,
      fun p hp q hq => ?_⟩
    rcases List.mem_append.1 hq with hq | hq
    · exact .inl ⟨hp, hq⟩
    · rw [List.mem_singleton.1 hq]
      exact .inr (List.mem_map.2 ⟨p, hp, diffRow_comm _ _⟩)

/-- **Two unsatisfiable answers** with the enables exchanged: the selection separates. -/
theorem separates_of_unsat {st : State} (h : Formed impl spec c seed candInputs st)
    (hsigs : ∀ sig ∈ st.solutionInputs, sig ∈ candInputs)
    (hsplit : ∀ p ∈ st.in0cases, ∀ q ∈ st.in1cases, Splits st.solutionInputs p q)
    (hne : candInputs ≠ []) (h01 : ¬Query st false true) (h10 : ¬Query st true false) :
    Separates impl spec c seed st.solutionInputs := by
  rintro ⟨m0, m1, m2, m3, s0, s1, k0, k1, hagree⟩
  obtain ⟨sig0, hsig0⟩ := List.exists_mem_of_ne_nil _ hne
  -- a query that one of the two patterns would satisfy if it were open
  have key : ∀ b0 b1,
      (∀ p ∈ st.in0cases, b0 = true ∨
        ∃ sig ∈ candInputs, m0 (varOf c impl sig) ≠ p.at sig) →
      (∀ q ∈ st.in1cases, b1 = true ∨
        ∃ sig ∈ candInputs, m2 (varOf c impl sig) ≠ q.at sig) → Query st b0 b1 := by
    intro b0 b1 ho0 ho1
    obtain ⟨m, hm, he0, he1, hmi, htr⟩ := makeSolver_extend hn
      (fun k => [m0, m1, m2, m3].getD k m0) (fun k => [s0, s1].getD k s0) k0 k1 b0 b1
    have hv : ∀ sig ∈ candInputs, implModel impl m 0 (varOf c impl sig) = m0 (varOf c impl sig) ∧
        implModel impl m 2 (varOf c impl sig) = m2 (varOf c impl sig) := fun sig hsig =>
      ⟨hmi 0 (by omega) _ (varOf_lt (hn.cands sig hsig)),
        hmi 2 (by omega) _ (varOf_lt (hn.cands sig hsig))⟩
    refine ⟨m, (h.sat m).2 ⟨hm, fun p hp => ?_, fun q hq => ?_⟩, fun sig hsig => ?_, ?_, ?_⟩
    · rcases ho0 p hp with hb | ⟨sig, hsig, hd⟩
      · exact ⟨sig0, hsig0, .inr (by rw [h.en0, he0, hb])⟩
      · exact ⟨sig, hsig, .inl (by rw [(hv sig hsig).1]; exact hd)⟩
    · rcases ho1 q hq with hb | ⟨sig, hsig, hd⟩
      · exact ⟨sig0, hsig0, .inr (by rw [h.en1, he1, hb])⟩
      · exact ⟨sig, hsig, .inl (by rw [(hv sig hsig).2]; exact hd)⟩
    · have := htr sig (hsigs sig hsig)
      rw [Made.eq, h.eq]
      rw [Made.eq] at this
      rw [this]
      exact beq_iff_eq.2 (hagree sig hsig)
    · rw [h.en0, he0]
    · rw [h.en1, he1]
  have hin0 : ∃ p ∈ st.in0cases, ∀ sig ∈ candInputs, m0 (varOf c impl sig) = p.at sig := by
    by_contra hc
    refine h01 (key false true (fun p hp => .inr ?_) fun q _ => .inl rfl)
    by_contra hd
    exact hc ⟨p, hp, fun sig hsig => by_contra fun he => hd ⟨sig, hsig, he⟩⟩
  have hin1 : ∃ q ∈ st.in1cases, ∀ sig ∈ candInputs, m2 (varOf c impl sig) = q.at sig := by
    by_contra hc
    refine h10 (key true false (fun p _ => .inl rfl) fun q hq => .inr ?_)
    by_contra hd
    exact hc ⟨q, hq, fun sig hsig => by_contra fun he => hd ⟨sig, hsig, he⟩⟩
  obtain ⟨p, hp, hp'⟩ := hin0
  obtain ⟨q, hq, hq'⟩ := hin1
  obtain ⟨sig, hsig, hd⟩ := hsplit p hp q hq
  exact hd (by rw [← hp' sig (hsigs sig hsig), ← hq' sig (hsigs sig hsig), hagree sig hsig])

end

/-! ## The loop -/

theorem Formed.of_eq {st st' : State} (h : Formed impl spec c seed candInputs st)
    (hm : st'.made = st.made) (h0 : st'.in0cases = st.in0cases) (h1 : st'.in1cases = st.in1cases) :
    Formed impl spec c seed candInputs st' := by
  refine ⟨hm ▸ h.en0, hm ▸ h.en1, hm ▸ h.eq, fun m => ?_, h0 ▸ h.over0, h1 ▸ h.over1, h0 ▸ h.nodup0,
    h1 ▸ h.nodup1⟩
  rw [hm, h0, h1]
  exact h.sat m

/-- States with the same patterns and the same selection ask the same queries. -/
theorem Formed.query_iff {st st' : State} (h : Formed impl spec c seed candInputs st)
    (h' : Formed impl spec c seed candInputs st') (h0 : st'.in0cases = st.in0cases)
    (h1 : st'.in1cases = st.in1cases) (hs : st'.solutionInputs = st.solutionInputs) (b0 b1 : Bool) :
    Query st' b0 b1 ↔ Query st b0 b1 := by
  have heq : ∀ sig, st'.made.eq sig = st.made.eq sig := fun sig => by
    rw [Made.eq, Made.eq, h'.eq, h.eq]
  simp only [Query, h'.sat, h.sat, heq, h'.en0, h'.en1, h.en0, h.en1, h0, h1, hs]

/-- Two modes with the enables exchanged are the two modes with one kind open. -/
theorem exchange {P : Bool → Bool → Prop} {a b : Bool} (hd : a ≠ b) (h : ¬P a b)
    (h' : ¬P (!a) (!b)) : ¬P false true ∧ ¬P true false := by
  cases a <;> cases b
  · exact absurd rfl hd
  · exact ⟨h, h'⟩
  · exact ⟨h', h⟩
  · exact absurd rfl hd

section
variable (hn : Names impl spec c seed candInputs)
  (hinj : ∀ a ∈ candInputs, ∀ b ∈ candInputs, (c.node a).name = (c.node b).name → a = b)
  (hcands : ∀ k ∈ cands, ∀ n ∈ (c.cluster k).inputNodes, n ∈ candInputs)

/-- A change of the mode after the solver was asked. -/
theorem Inv.mode {st : State} (h : Inv impl spec c seed cands candInputs alarm st) {made : Made}
    (hf : Formed impl spec c seed candInputs { st with calls := st.calls + 1, made })
    (hfirst : st.firstIteration = false) {a b f : Bool} (hm : a = true → b = false)
    (hfl : f = true → a ≠ b ∧ (alarm st.calls = false →
      ¬Query { st with calls := st.calls + 1, made } (!a) (!b))) :
    Inv impl spec c seed cands candInputs alarm { st with
      calls := st.calls + 1, made, noIn0case := a, noIn1case := b, flag := f } := by
  refine ⟨hf.of_eq rfl rfl rfl, hm, h.table, fun hc => ?_, fun _ => h.later hfirst,
    fun _ hflag => ?_, fun _ => h.must hfirst⟩
  · rw [hfirst] at hc
    cases hc
  · obtain ⟨h1, h2⟩ := hfl hflag
    exact ⟨h1, Nat.le_add_left 1 _, h2⟩

theorem measure_lt_of_rank {st st' : State} (h0 : st'.in0cases = st.in0cases)
    (h1 : st'.in1cases = st.in1cases) (hr : rank st' < rank st) :
    measure candInputs st' < measure candInputs st := by
  rw [measure, measure, h0, h1]
  omega

/-- Without a first model there is no selection. -/
theorem Inv.ends_first {st : State} (h : Inv impl spec c seed cands candInputs alarm st)
    (hfirst : st.firstIteration = true) (calls : Nat) (made : Made) :
    Ends impl spec c seed cands candInputs alarm
      (some (State.outcome { st with calls, made } false)) := by
  refine ⟨⟨_, rfl⟩, fun r hr _ => ?_, fun r hr hfound => ?_, fun r hr hfound => ?_⟩
  · cases hr
    exact (h.first hfirst).2.2.1
  all_goals
    cases hr
    cases hfound

include hn in
/-- With the flag both enables were asked for, so the selection separates. -/
theorem Inv.ends_flag {st : State} (h : Inv impl spec c seed cands candInputs alarm st) {made : Made}
    (hf : Formed impl spec c seed candInputs { st with calls := st.calls + 1, made })
    (hfirst : st.firstIteration = false) (hflag : st.flag = true)
    (hq : alarm st.calls = false →
      ¬Query { st with calls := st.calls + 1, made } st.noIn0case st.noIn1case) :
    Ends impl spec c seed cands candInputs alarm
      (some (State.outcome { st with calls := st.calls + 1, made } true)) := by
  obtain ⟨hne0, hne1, hch, hsub, hsplit⟩ := h.later hfirst
  obtain ⟨hd, hc1, hq'⟩ := h.flagged hfirst hflag
  refine ⟨⟨_, rfl⟩, fun r hr hfound => ?_, fun r hr _ => ?_, fun r _ _ => h.must hfirst⟩
  · cases hr
    cases hfound
  · cases hr
    refine ⟨hch, hsub, Nat.succ_le_succ hc1, fun ha ha' => ?_⟩
    have k1 := hq ha
    have k2 := hq' ha'
    rw [h.formed.query_iff hf rfl rfl rfl] at k1
    obtain ⟨p, hp⟩ := List.exists_mem_of_ne_nil _ hne0
    obtain ⟨q, hq⟩ := List.exists_mem_of_ne_nil _ hne1
    obtain ⟨sig, hsig, -⟩ := hsplit p hp q hq
    obtain ⟨h01, h10⟩ := exchange hd k1 k2
    exact separates_of_unsat hn h.formed hsub hsplit (List.ne_nil_of_mem (hsub sig hsig)) h01 h10

include hn in
/-- **An unsatisfiable answer, or a timeout**: the loop ends, or goes to its next mode. -/
theorem onUnsat_spec {st st1 : State} (h : Inv impl spec c seed cands candInputs alarm st) {made : Made}
    (hst1 : st1 = { st with calls := st.calls + 1, made }) (hf : Formed impl spec c seed candInputs st1)
    (hq : alarm st.calls = false → ¬Query st1 st.noIn0case st.noIn1case) :
    (∀ st', onUnsat c limit st1 = .inl st' → Inv impl spec c seed cands candInputs alarm st' ∧
      measure candInputs st' < measure candInputs st) ∧
    ∀ o, onUnsat c limit st1 = .inr o → Ends impl spec c seed cands candInputs alarm o := by
  subst hst1
  unfold onUnsat
  by_cases hfirst : st.firstIteration = true
  · rw [if_pos hfirst]
    refine ⟨by simp, fun o ho => ?_⟩
    cases ho
    exact h.ends_first hfirst _ made
  have hnext : st.firstIteration = false := Bool.eq_false_iff.2 hfirst
  rw [if_neg hfirst]
  by_cases hflag : st.flag = true
  · rw [if_pos hflag]
    refine ⟨by simp, fun o ho => ?_⟩
    cases ho
    exact h.ends_flag hn hf hnext hflag hq
  rw [if_neg hflag]
  have hr : rank st = if st.noIn0case = false ∧ st.noIn1case = false then 3 else 2 := by
    simp [rank, hnext, hflag]
  by_cases h1 : st.noIn1case = false
  · rw [if_pos h1]
    by_cases h0 : st.noIn0case = false
    · -- both kinds were asked for: only the kind 0 from here
      rw [if_pos h0]
      refine ⟨fun st' hs => ?_, by simp⟩
      cases hs
      refine ⟨h.mode hf hnext (fun hc => ?_) fun hc => absurd hc hflag, measure_lt_of_rank rfl rfl ?_⟩
      · rw [h0] at hc
        cases hc
      · rw [hr, if_pos ⟨h0, h1⟩]
        simp [rank, hnext, hflag]
    · rw [if_neg h0]
      refine ⟨fun st' hs => ?_, by simp⟩
      cases hs
      refine ⟨h.mode hf hnext (fun hc => (by cases hc)) fun _ => ⟨Bool.false_ne_true, fun ha => ?_⟩,
        measure_lt_of_rank rfl rfl ?_⟩
      · have := hq ha
        rw [Bool.not_eq_false _ |>.mp h0, h1] at this
        exact this
      · rw [hr, if_neg fun hc => h0 hc.1]
        simp [rank, hnext]
  · have h0 : st.noIn0case = false := by
      by_contra h0
      exact h1 (h.modes (by simpa using h0))
    rw [if_neg h1, if_pos h0]
    refine ⟨fun st' hs => ?_, by simp⟩
    cases hs
    refine ⟨h.mode hf hnext (fun _ => rfl) fun _ => ⟨Bool.false_ne_true.symm, fun ha => ?_⟩,
      measure_lt_of_rank rfl rfl ?_⟩
    · have := hq ha
      rw [h0, Bool.not_eq_false _ |>.mp h1] at this
      exact this
    · rw [hr, if_neg fun hc => h1 hc.2]
      simp [rank, hnext]

include hinj hcands in
/-- **A model**: the patterns grow and a new selection is made, or the limit ends the loop. -/
theorem Grown.reselect_spec {st st2 : State} {rows : List (List Bool)}
    (h : Inv impl spec c seed cands candInputs alarm st)
    (hG : Grown impl spec c seed candInputs { st with calls := st.calls + 1 } st2 rows)
    (hmust : ∃ m m' s, Must impl spec c seed true m m' s) :
    (∀ st', reselect c limit st2 rows = .inl st' → Inv impl spec c seed cands candInputs alarm st' ∧
      measure candInputs st' < measure candInputs st) ∧
    ∀ o, reselect c limit st2 rows = .inr o → Ends impl spec c seed cands candInputs alarm o := by
  obtain ⟨all, htab, hall⟩ := h.table
  have hset : st2.set = st.set := by rw [hG.rest]
  rcases MergeSelection.reselect_spec hinj hcands (hset ▸ htab) hG.shape with
    ⟨solI, he⟩ | ⟨set, solC, solI, he, ht, hch, hsub, hsplit⟩
  · rw [he]
    refine ⟨by simp, fun o ho => ?_⟩
    cases ho
    exact ⟨⟨_, rfl⟩, fun r hr _ => by cases hr; rfl, fun r hr hfd => (by cases hr; cases hfd),
      fun r hr hfd => (by cases hr; cases hfd)⟩
  rw [he]
  refine ⟨fun st' hst' => ?_, by simp⟩
  cases hst'
  obtain ⟨ps, hps⟩ := hG.sub0
  obtain ⟨qs, hqs⟩ := hG.sub1
  have hpairs : ∀ p ∈ st2.in0cases, ∀ q ∈ st2.in1cases,
      diffRow candInputs p q ∈ all ++ rows := by
    intro p hp q hq
    rcases hG.pairs p hp q hq with ⟨h1, h2⟩ | h1
    · exact List.mem_append_left _ (hall p h1 q h2)
    · exact List.mem_append_right _ h1
  refine ⟨⟨hG.formed.of_eq rfl rfl rfl, fun h0 => ?_, ⟨_, ht, hpairs⟩, fun hc => ?_, fun _ =>
    ⟨?_, ?_, hch, hsub, fun p hp q hq => hsplit p q (hpairs p hp q hq)⟩, fun _ hc => ?_,
    fun _ => hmust⟩, ?_⟩
  · have h0 : st2.noIn0case = true := h0
    show st2.noIn1case = false
    rw [hG.rest] at h0 ⊢
    exact h.modes h0
  · have hc : st2.firstIteration = true := hc
    rw [hG.rest] at hc
    cases hc
  · show st2.in0cases ≠ []
    by_cases h0 : st.noIn0case = false
    · exact hG.nonempty0 h0
    · have hfi : st.firstIteration = false := by
        by_contra hfi
        exact h0 (h.first (by simpa using hfi)).2.2.2.1
      rw [hps]
      exact fun hnil => (h.later hfi).1 (List.append_eq_nil_iff.1 hnil).1
  · show st2.in1cases ≠ []
    by_cases h1 : st.noIn1case = false
    · exact hG.nonempty1 h1
    · have hfi : st.firstIteration = false := by
        by_contra hfi
        exact h1 (h.first (by simpa using hfi)).2.2.2.2
      rw [hqs]
      exact fun hnil => (h.later hfi).2.1 (List.append_eq_nil_iff.1 hnil).1
  · have hc : st2.flag = true := hc
    rw [hG.rest] at hc
    cases hc
  · -- a new pattern counts for more than the modes that are left
    have hl0 := cases_length_le hG.formed.nodup0 hG.formed.over0
    have hl1 := cases_length_le hG.formed.nodup1 hG.formed.over1
    have hgr := hG.grows
    have hr1 : 1 ≤ rank st := by
      unfold rank
      repeat' split
      all_goals omega
    have hr2 : rank { st2 with set, solutionC := solC, solutionInputs := solI } ≤ 3 := by
      unfold rank
      repeat' split
      all_goals omega
    simp only [measure] at hgr ⊢
    omega

include hn hinj hcands in
/-- **One iteration** keeps the invariant and comes closer to the end, or ends the loop well. -/
theorem solveStep_spec (hex : ∀ i, Exact (solver i)) {st : State}
    (h : Inv impl spec c seed cands candInputs alarm st) :
    (∀ st', solveStep impl spec c seed candInputs limit solver alarm st = .inl st' →
      Inv impl spec c seed cands candInputs alarm st' ∧
        measure candInputs st' < measure candInputs st) ∧
    ∀ o, solveStep impl spec c seed candInputs limit solver alarm st = .inr o →
      Ends impl spec c seed cands candInputs alarm o := by
  have hf1 : Formed impl spec c seed candInputs { st with calls := st.calls + 1 } :=
    h.formed.of_eq rfl rfl rfl
  unfold solveStep
  simp only
  cases ha : alarm st.calls with
  | true =>
    simp only [if_true]
    exact onUnsat_spec hn h rfl (Formed.rebuild hn hf1) fun hc => by rw [ha] at hc; cases hc
  | false =>
    simp only [Bool.false_eq_true, if_false]
    have hans := hex st.calls st.made.glu.clauses (assumptions { st with calls := st.calls + 1 })
    cases hs : solver st.calls st.made.glu.clauses (assumptions { st with calls := st.calls + 1 }) with
    | none =>
      rw [hs] at hans
      simp only
      refine onUnsat_spec hn h rfl hf1 fun _ hquery => ?_
      obtain ⟨m, hm, htr, h0, h1⟩ := hquery
      refine hans ⟨m, hm, ?_⟩
      simp only [assumptions, holds_append, holds_cons, holds_nil, and_true]
      refine ⟨fun l hl => ?_, h0, h1⟩
      obtain ⟨sig, hsig, rfl⟩ := List.mem_map.1 hl
      exact htr sig hsig
    | some m =>
      rw [hs] at hans
      obtain ⟨hm, has⟩ := hans
      simp only
      exact Grown.reselect_spec hinj hcands h (onSat_spec hn hf1 h.modes hm has)
        ⟨_, _, _, (makeSolver_sound hn ((h.formed.sat m).1 hm).1).2.1⟩

include hn hinj hcands in
/-- **`Solve_c` ends**, whatever models the solver picks and whenever the timer fires. -/
theorem solveC_spec (hex : ∀ i, Exact (solver i)) (flag : Bool) :
    ∃ fuel o, solveC impl spec c seed cands candInputs limit solver alarm fuel flag = some o ∧
      Ends impl spec c seed cands candInputs alarm o := by
  have hstart : Inv impl spec c seed cands candInputs alarm
      (start impl spec c seed cands candInputs flag) := by
    refine ⟨⟨rfl, rfl, rfl, fun m => ?_, by simp [start], by simp [start], List.nodup_nil,
      List.nodup_nil⟩, by simp [start], ⟨[], ⟨rfl, .inl rfl, rfl, rfl, rfl, by simp⟩, by simp [start]⟩,
      fun _ => ⟨rfl, rfl, rfl, rfl, rfl⟩, fun hc => (by cases hc), fun hc => (by cases hc),
      fun hc => (by cases hc)⟩
    simp [start]
  obtain ⟨o, ho, he⟩ := loop_total
    (I := Inv impl spec c seed cands candInputs alarm)
    (P := Ends impl spec c seed cands candInputs alarm) (measure candInputs)
    (fun st st' hi hs => (solveStep_spec hn hinj hcands hex hi).1 st' hs)
    (fun st o hi hs => (solveStep_spec hn hinj hcands hex hi).2 o hs) hstart (Nat.lt_succ_self _)
  exact ⟨_, o, ho, he⟩

end

end Msyn.MergeSelection
