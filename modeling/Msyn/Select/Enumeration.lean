import Msyn.Select.Formulas

/-!
# getDC::solve enumerates the needed patterns

Every iteration of `solve` finds a sensitive pair whose pattern is not blocked, and records it under
a value that the target must have there (`solveStep_spec`). When `main` has no model left, every
needed pattern was recorded (`solve_sound`). The loop ends so, whatever models the solvers pick,
exactly if some value of the target is right at every sensitive pair and the codes of
`removed_cases` tell the needed patterns apart (`solve_complete_iff`).
-/

namespace Msyn.DC

open Nodecircuit Circuit Cnf CNFgen Glucose GInterface MergeSelection

variable {fcnf gcnf : CNFGenerator} {c : Circuit} {target : NodeId} {signals : List NodeId}
  {solver solverCheck : Nat → Solve} {alarm : Nat → Bool}

/-! ## The solver check -/

/-- `check` after some iterations: the formula of the constructor, and clauses over control
variables that are off. -/
structure Checked (fcnf gcnf : CNFGenerator) (c : Circuit) (g : GInterface) : Prop where
  below : Below g.nVars g.clauses
  le : (makeCheck fcnf gcnf c).nVars ≤ g.nVars
  sound : ∀ m, Sat m g.clauses → Sat m (makeCheck fcnf gcnf c).clauses
  extend : ∀ m, Sat m (makeCheck fcnf gcnf c).clauses →
    ∃ m', Sat m' g.clauses ∧ ∀ v < (makeCheck fcnf gcnf c).nVars, m' v = m v

section
variable (h : Setting fcnf gcnf c target signals)
include h

theorem fixInputs_adds (g : GInterface) (control : Nat) (m : Model) :
    Adds g (fixInputs fcnf c g control m) fun m' => ∀ pi ∈ c.inputs,
      m' (varOf c fcnf pi) = m (varOf c fcnf pi) ∨ m' control = false := by
  refine (Adds.foldl (l := c.inputs) (fun pin _ g => addClause_adds g
    [(idx fcnf c pin, m (idx fcnf c pin).natAbs), ((control : Int), false)]) g).congr fun m' => ?_
  refine forall₂_congr fun pi hpi => ?_
  simp only [List.mem_cons, List.not_mem_nil, or_false, exists_eq_or_imp, exists_eq_left,
    (natAbs_idx h (n := pi) (by simp [hpi])).1, Int.natAbs_natCast]

/-- **One query of `check`** asks for a pair that matches at the inputs of `m`. -/
theorem Checked.query {g : GInterface} (hg : Checked fcnf gcnf c g) (m : Model) :
    (∃ m', Sat m' ((fixInputs fcnf c g g.nVars m).genLit ((g.nVars : Int), true)).clauses ∧
        Holds m' [(g.nVars, true)]) ↔
      ∃ m', Sat m' (makeCheck fcnf gcnf c).clauses ∧
        ∀ pi ∈ c.inputs, m' (varOf c fcnf pi) = m (varOf c fcnf pi) := by
  have hsat := (fixInputs_adds h g g.nVars m).sat
  constructor
  · rintro ⟨m', h1, h2⟩
    obtain ⟨h3, h4⟩ := (hsat m').1 h1
    rw [holds_cons] at h2
    refine ⟨m', hg.sound m' h3, fun pi hpi => (h4 pi hpi).resolve_right ?_⟩
    rw [h2.1]
    simp
  · rintro ⟨m', h1, h2⟩
    obtain ⟨m1, h3, h4⟩ := hg.extend m' h1
    have hold : ∀ v < g.nVars, (fun v => if v = g.nVars then true else m1 v) v = m1 v := fun v hv =>
      if_neg hv.ne
    refine ⟨fun v => if v = g.nVars then true else m1 v, (hsat _).2
      ⟨(sat_congr hg.below hold).2 h3, fun pi hpi => .inl ?_⟩, by simp⟩
    have hlt := makeCheck_lt h hpi
    exact (hold _ (hlt.trans_le hg.le)).trans ((h4 _ hlt).trans (h2 pi hpi))

theorem Checked.next {g : GInterface} (hg : Checked fcnf gcnf c g) (m : Model) :
    Checked fcnf gcnf c (((fixInputs fcnf c g g.nVars m).genLit ((g.nVars : Int), true)).addClause
      [((g.nVars : Int), false)]) := by
  have h1 := fixInputs_adds h g g.nVars m
  have h2 := addClause_adds ((fixInputs fcnf c g g.nVars m).genLit ((g.nVars : Int), true))
    [((g.nVars : Int), false)]
  have hle : (fixInputs fcnf c g g.nVars m).nVars ≤
    ((fixInputs fcnf c g g.nVars m).genLit ((g.nVars : Int), true)).nVars := le_max_left _ _
  refine ⟨h2.below ((h1.below hg.below).mono hle), ((hg.le.trans h1.le).trans hle).trans h2.le,
    fun m' hm' => hg.sound m' ((h1.sat m').1 ((h2.sat m').1 hm').1).1, fun m' hm' => ?_⟩
  obtain ⟨m1, h3, h4⟩ := hg.extend m' hm'
  have hold : ∀ v < g.nVars, (fun v => if v = g.nVars then false else m1 v) v = m1 v := fun v hv =>
    if_neg hv.ne
  refine ⟨fun v => if v = g.nVars then false else m1 v, (h2.sat _).2 ⟨(h1.sat _).2
    ⟨(sat_congr hg.below hold).2 h3, fun pi hpi => .inr (by simp)⟩, by simp⟩, fun v hv => ?_⟩
  exact (hold v (hv.trans_le hg.le)).trans (h4 v hv)

/-! ## The invariant -/

omit h in
theorem Needed.over {b : Bool} {p : Pattern} (hp : Needed fcnf gcnf c target signals b p) :
    Over signals p := by
  obtain ⟨m, -, -, -, rfl⟩ := hp
  exact ⟨_, rfl⟩

end

/-- The invariant at the head of the loop. -/
structure Inv (fcnf gcnf : CNFGenerator) (c : Circuit) (target : NodeId) (signals : List NodeId)
    (st : State) : Prop where
  main : ∀ m, Sat m st.main.clauses ↔ Sat m (makeMain fcnf c target).clauses ∧
    ∀ p ∈ st.in1cases ++ st.in2cases, ∃ sig ∈ signals, m (varOf c fcnf sig) ≠ p.at sig
  check : Checked fcnf gcnf c st.check
  needed1 : ∀ p ∈ st.in1cases, Needed fcnf gcnf c target signals false p
  needed2 : ∀ p ∈ st.in2cases, Needed fcnf gcnf c target signals true p
  codes : ∀ k, k ∈ st.removedCases ↔ ∃ p ∈ st.in1cases ++ st.in2cases, curCase signals p = k
  nodup : ((st.in1cases ++ st.in2cases).map (curCase signals)).Nodup

theorem Inv.needed {st : State} (hi : Inv fcnf gcnf c target signals st) {p : Pattern}
    (hp : p ∈ st.in1cases ++ st.in2cases) : ∃ b, Needed fcnf gcnf c target signals b p := by
  rcases List.mem_append.1 hp with hp | hp
  · exact ⟨false, hi.needed1 p hp⟩
  · exact ⟨true, hi.needed2 p hp⟩

theorem Inv.of_eq {st st' : State} (hi : Inv fcnf gcnf c target signals st)
    (hm : st'.main = st.main) (hc : Checked fcnf gcnf c st'.check) (h1 : st'.in1cases = st.in1cases)
    (h2 : st'.in2cases = st.in2cases) (hr : st'.removedCases = st.removedCases) :
    Inv fcnf gcnf c target signals st' := by
  refine ⟨fun m => ?_, hc, h1 ▸ hi.needed1, h2 ▸ hi.needed2, fun k => ?_, ?_⟩
  · rw [hm, h1, h2]
    exact hi.main m
  · rw [hr, h1, h2]
    exact hi.codes k
  · rw [h1, h2]
    exact hi.nodup

section
variable (h : Setting fcnf gcnf c target signals)
include h

theorem Inv.start : Inv fcnf gcnf c target signals (start fcnf gcnf c target) := by
  refine ⟨fun m => by simp [DC.start], ⟨(makeCheck_adds h).below fun _ hcl => (by cases hcl), le_rfl,
    fun _ => id, fun m hm => ⟨m, hm, fun _ _ => rfl⟩⟩, by simp [DC.start], by simp [DC.start],
    by simp [DC.start], by simp [DC.start]⟩

omit h in
/-- A recorded pattern is its own copy. -/
theorem folder_eq (m : Model) : OrdMap.tabulate signals (patternAt fcnf c signals m).at =
    patternAt fcnf c signals m :=
  OrdMap.tabulate_inj.2 fun _ hsig => Pattern.at_tabulate hsig

/-- The kind under which a pattern is recorded. -/
def kind (b : Bool) : FType := if b then .in2 else .in1

/-- **`removeCase`** of a needed pattern. -/
theorem removeCase_spec {st : State} (hi : Inv fcnf gcnf c target signals st) {m : Model} {b : Bool}
    (hp : Needed fcnf gcnf c target signals b (patternAt fcnf c signals m)) {st' : State}
    (hst' : st' = removeCase fcnf c signals st (patternAt fcnf c signals m) (kind b)) :
    Inv fcnf gcnf c target signals st' ∧ st'.check = st.check ∧ st'.calls = st.calls ∧
      (curCase signals (patternAt fcnf c signals m) ∉ st.removedCases →
        st'.in1cases.length + st'.in2cases.length = st.in1cases.length + st.in2cases.length + 1) := by
  by_cases hk : curCase signals (patternAt fcnf c signals m) ∈ st.removedCases
  · simp only [DC.removeCase, if_pos hk] at hst'
    subst hst'
    exact ⟨hi, rfl, rfl, fun hn => absurd hk hn⟩
  simp only [DC.removeCase, if_neg hk, folder_eq] at hst'
  -- the two lists together gain the pattern
  have hperm : (st'.in1cases ++ st'.in2cases).Perm
      (patternAt fcnf c signals m :: (st.in1cases ++ st.in2cases)) := by
    subst hst'
    cases b with
    | false => simp [kind]
    | true =>
      simp only [kind, if_true]
      rw [← List.append_assoc]
      exact List.perm_append_singleton _ _
  have hcheck : st'.check = st.check := by rw [hst']
  have hadds := addClause_adds st.main
    (signals.map fun sig => (idx fcnf c sig, !(patternAt fcnf c signals m).at sig))
  refine ⟨⟨fun m' => ?_, hcheck ▸ hi.check, fun p hp' => ?_, fun p hp' => ?_, fun k => ?_, ?_⟩,
    hcheck, by rw [hst'], fun _ => ?_⟩
  · have hmain : st'.main = st.main.addClause
      (signals.map fun sig => (idx fcnf c sig, !(patternAt fcnf c signals m).at sig)) := by rw [hst']
    rw [hmain, hadds.sat, hi.main]
    simp only [hperm.mem_iff, List.forall_mem_cons, and_assoc]
    refine and_congr_right fun _ => ?_
    rw [and_comm]
    refine and_congr_left fun _ => ?_
    simp only [List.mem_map, exists_exists_and_eq_and]
    refine exists_congr fun sig => and_congr_right fun hsig => ?_
    rw [(natAbs_idx h (n := sig) (by simp [hsig])).1]
    cases m' (varOf c fcnf sig) <;> cases (patternAt fcnf c signals m).at sig <;> simp
  · cases b with
    | true =>
      have : st'.in1cases = st.in1cases := by rw [hst']; rfl
      exact hi.needed1 p (this ▸ hp')
    | false =>
      have : st'.in1cases = st.in1cases ++ [patternAt fcnf c signals m] := by rw [hst']; rfl
      rw [this, List.mem_append, List.mem_singleton] at hp'
      rcases hp' with hp' | rfl
      · exact hi.needed1 p hp'
      · exact hp
  · cases b with
    | false =>
      have : st'.in2cases = st.in2cases := by rw [hst']; rfl
      exact hi.needed2 p (this ▸ hp')
    | true =>
      have : st'.in2cases = st.in2cases ++ [patternAt fcnf c signals m] := by rw [hst']; rfl
      rw [this, List.mem_append, List.mem_singleton] at hp'
      rcases hp' with hp' | rfl
      · exact hi.needed2 p hp'
      · exact hp
  · have hrem : st'.removedCases =
      st.removedCases.insert (curCase signals (patternAt fcnf c signals m)) := by rw [hst']
    simp only [hrem, OrdSet.mem_insert, hi.codes, hperm.mem_iff, List.exists_mem_cons_iff]
    exact or_congr_left eq_comm
  · rw [(hperm.map _).nodup_iff, List.map_cons, List.nodup_cons]
    refine ⟨fun hm => hk ((hi.codes _).2 ?_), hi.nodup⟩
    obtain ⟨p, hp', he⟩ := List.mem_map.1 hm
    exact ⟨p, hp', he⟩
  · have := hperm.length_eq
    rw [List.length_append, List.length_cons, List.length_append] at this
    exact this

/-! ## One iteration -/

theorem Fixable.check {m : Model} (hf : Fixable fcnf gcnf c target)
    (hm : Sat m (makeMain fcnf c target).clauses) : ∃ m', Sat m' (makeCheck fcnf gcnf c).clauses ∧
      ∀ pi ∈ c.inputs, m' (varOf c fcnf pi) = m (varOf c fcnf pi) := by
  obtain ⟨m', s, h1, h2⟩ := hf _ _ (makeMain_sound h hm)
  obtain ⟨m'', h3, h4⟩ := makeCheck_extend h h1
  exact ⟨m'', h3, fun pi hpi => (h4 _ (DC.varOf_lt h (by simp [hpi]))).trans (h2 pi hpi)⟩

/-- The pattern of a model of `check` is needed, and is that of the model of `main`. -/
theorem needed_of_check {m m' : Model} (hm : Sat m (makeMain fcnf c target).clauses)
    (hm' : Sat m' (makeCheck fcnf gcnf c).clauses)
    (hin : ∀ pi ∈ c.inputs, m' (varOf c fcnf pi) = m (varOf c fcnf pi)) :
    Needed fcnf gcnf c target signals (m' (varOf c fcnf target)) (patternAt fcnf c signals m') ∧
      patternAt fcnf c signals m' = patternAt fcnf c signals m := by
  have hd := makeMain_sound h hm
  have hmatch := (((makeCheck_adds h).sat m').1 hm').2
  obtain ⟨m'', hmust⟩ := must_of_matches h hd hmatch hin
  exact ⟨⟨m', m'', _, hmust, rfl⟩, OrdMap.tabulate_inj.2 fun sig hsig =>
    h.free m' m hmatch.sat hd.sat1 hin sig hsig⟩

omit h in
/-- `removeCase` leaves `check` alone. -/
theorem removeCase_check (st : State) (g : GInterface) (data : Pattern) (type : FType) :
    DC.removeCase fcnf c signals { st with check := g } data type =
      { DC.removeCase fcnf c signals st data type with check := g } := by
  by_cases hk : curCase signals data ∈ st.removedCases
  · simp only [DC.removeCase, if_pos hk]
  · simp only [DC.removeCase, if_neg hk]

/-- A model of `check` with a needed pattern, `m` being the model of `main`. -/
theorem record_spec {st : State} (hi : Inv fcnf gcnf c target signals st) (m : Model) {m' : Model}
    (hp : Needed fcnf gcnf c target signals (m' (varOf c fcnf target))
      (patternAt fcnf c signals m')) :
    let st' := record fcnf c target signals st
      ((fixInputs fcnf c st.check st.check.nVars m).genLit ((st.check.nVars : Int), true))
      st.check.nVars m'
    Inv fcnf gcnf c target signals st' ∧
      (curCase signals (patternAt fcnf c signals m') ∉ st.removedCases →
        st'.in1cases.length + st'.in2cases.length =
          st.in1cases.length + st.in2cases.length + 1) := by
  have htmp : (OrdMap.tabulate signals fun sig => m' (idx fcnf c sig).natAbs) =
      patternAt fcnf c signals m' := OrdMap.tabulate_inj.2 fun sig hsig => by
    rw [(natAbs_idx h (n := sig) (by simp [hsig])).1]
  have hkind : (if m' (idx fcnf c target).natAbs then FType.in2 else FType.in1) =
      kind (m' (varOf c fcnf target)) := by
    rw [(natAbs_idx h (n := target) (by simp)).1, kind]
  have hrec : ∀ g, record fcnf c target signals st g st.check.nVars m' =
      { DC.removeCase fcnf c signals st (patternAt fcnf c signals m')
          (kind (m' (varOf c fcnf target))) with
        check := g.addClause [((st.check.nVars : Int), false)] } := by
    intro g
    rw [record, htmp, hkind, removeCase_check]
  obtain ⟨h1, h2, h3, h4⟩ := removeCase_spec h hi hp rfl
  intro st'
  have hst' : st' = _ := hrec _
  refine ⟨h1.of_eq (by rw [hst']) ?_ (by rw [hst']) (by rw [hst']) (by rw [hst']), fun hk => ?_⟩
  · rw [hst']
    exact hi.check.next h m
  · rw [hst']
    exact h4 hk

/-- **One iteration** records the pattern of a new pair, or leaves the loop. -/
theorem solveStep_spec (hex : ∀ i, Exact (solver i)) (hexC : ∀ i, Exact (solverCheck i)) {st : State}
    (hi : Inv fcnf gcnf c target signals st) :
    (∀ st', solveStep fcnf c target signals solver solverCheck alarm st = .inl st' →
      Inv fcnf gcnf c target signals st' ∧ ∃ b p, Needed fcnf gcnf c target signals b p ∧
        p ∉ st.in1cases ++ st.in2cases ∧ (curCase signals p ∉ st.removedCases →
          st'.in1cases.length + st'.in2cases.length =
            st.in1cases.length + st.in2cases.length + 1)) ∧
    ∀ o, solveStep fcnf c target signals solver solverCheck alarm st = .inr o →
      o = none ∧ ¬Fixable fcnf gcnf c target ∨ ∃ st', o = some st' ∧
        Inv fcnf gcnf c target signals st' ∧ st'.calls = st.calls + 1 ∧
        (alarm st.calls = false → ¬∃ m, Sat m st'.main.clauses) := by
  have hi1 : Inv fcnf gcnf c target signals { st with calls := st.calls + 1 } :=
    hi.of_eq rfl hi.check rfl rfl rfl
  have hans := hex st.calls st.main.clauses []
  unfold solveStep
  simp only
  cases hs : if alarm st.calls then none else solver st.calls st.main.clauses [] with
  | none =>
    simp only
    refine ⟨fun st' hc => (by cases hc), fun o ho => .inr ⟨_, (Sum.inr.inj ho).symm, hi1, rfl,
      fun ha => ?_⟩⟩
    rw [ha, if_neg Bool.false_ne_true] at hs
    rw [hs] at hans
    rintro ⟨m, hm⟩
    exact hans ⟨m, hm, holds_nil m⟩
  | some m =>
    have hm : Sat m st.main.clauses := by
      cases ha : alarm st.calls with
      | true => rw [ha, if_pos rfl] at hs; cases hs
      | false =>
        rw [ha, if_neg Bool.false_ne_true] at hs
        rw [hs] at hans
        exact hans.1
    obtain ⟨hmain, hnew⟩ := (hi.main m).1 hm
    have hq := hi.check.query h m
    have hansC := hexC st.calls
      ((fixInputs fcnf c st.check st.check.nVars m).genLit ((st.check.nVars : Int), true)).clauses
      [(st.check.nVars, true)]
    simp only
    cases hc : solverCheck st.calls
        ((fixInputs fcnf c st.check st.check.nVars m).genLit ((st.check.nVars : Int), true)).clauses
        [(st.check.nVars, true)] with
    | none =>
      rw [hc] at hansC
      refine ⟨fun st' hc => (by cases hc), fun o ho => .inl ⟨(Sum.inr.inj ho).symm, fun hf => ?_⟩⟩
      exact hansC (hq.2 (Fixable.check h hf hmain))
    | some m' =>
      rw [hc] at hansC
      obtain ⟨h1, h2⟩ := hansC
      have hsat := (fixInputs_adds h st.check st.check.nVars m).sat m'
      obtain ⟨h3, h4⟩ := hsat.1 h1
      rw [holds_cons] at h2
      have hin : ∀ pi ∈ c.inputs, m' (varOf c fcnf pi) = m (varOf c fcnf pi) := fun pi hpi =>
        (h4 pi hpi).resolve_right (by rw [h2.1]; simp)
      obtain ⟨hneed, hpat⟩ := needed_of_check h hmain (hi.check.sound m' h3) hin
      refine ⟨fun st' hst' => ?_, fun o ho => (by cases ho)⟩
      obtain ⟨h5, h6⟩ := record_spec h hi1 m hneed
      cases hst'
      refine ⟨h5, _, _, hneed, fun hp => ?_, h6⟩
      obtain ⟨sig, hsig, hne⟩ := hnew _ hp
      rw [hpat, patternAt, Pattern.at_tabulate hsig] at hne
      exact hne rfl

/-! ## The loop -/

/-- When `main` has no model left every needed pattern was recorded. -/
theorem Inv.all {st : State} (hi : Inv fcnf gcnf c target signals st)
    (hun : ¬∃ m, Sat m st.main.clauses) {b : Bool} {p : Pattern}
    (hp : Needed fcnf gcnf c target signals b p) : p ∈ st.in1cases ++ st.in2cases := by
  obtain ⟨m, m', s, hm, rfl⟩ := hp
  by_contra hnot
  have hd := sensitive_of_must hm
  obtain ⟨mm, h1, h2⟩ := makeMain_extend h hd
  refine hun ⟨mm, (hi.main mm).2 ⟨h1, fun q hq => ?_⟩⟩
  obtain ⟨b', hq'⟩ := hi.needed hq
  by_contra hall
  refine hnot ?_
  have he : patternAt fcnf c signals m = q := Over.ext ⟨_, rfl⟩ hq'.over fun sig hsig => by
    have h3 : mm (varOf c fcnf sig) = q.at sig := by
      by_contra hne
      exact hall ⟨sig, hsig, hne⟩
    rw [← h3, h2 _ (DC.varOf_lt h (by simp [hsig])), patternAt, Pattern.at_tabulate hsig]
    refine h.free _ _ hm.sat hd.sat1 (fun pi hpi => ?_) sig hsig
    cases b with
    | true => rfl
    | false => exact (hm.inputs pi hpi).1.trans (hm.inputs pi hpi).2.symm
  exact he ▸ hq

/-- **If `solve` returns**, what it recorded is needed, and after a last call without a timeout
everything that is needed was recorded. -/
theorem solve_sound (hex : ∀ i, Exact (solver i)) (hexC : ∀ i, Exact (solverCheck i)) {fuel : Nat}
    {st : State} (hs : solve fcnf gcnf c target signals solver solverCheck alarm fuel =
      some (some st)) :
    Inv fcnf gcnf c target signals st ∧ (alarm (st.calls - 1) = false → ∀ b p,
      Needed fcnf gcnf c target signals b p → p ∈ st.in1cases ++ st.in2cases) := by
  refine loop_post (I := Inv fcnf gcnf c target signals) (P := fun o => ∀ st, o = some st →
    Inv fcnf gcnf c target signals st ∧ (alarm (st.calls - 1) = false → ∀ b p,
      Needed fcnf gcnf c target signals b p → p ∈ st.in1cases ++ st.in2cases))
    (fun st st' hi hst => ((solveStep_spec h hex hexC hi).1 st' hst).1) (fun st o hi hst => ?_)
    (Inv.start h) hs st rfl
  rintro st' rfl
  rcases (solveStep_spec h hex hexC hi).2 _ hst with ⟨hc, -⟩ | ⟨st'', he, hi', hcalls, hun⟩
  · cases hc
  · cases he
    refine ⟨hi', fun ha b p hp => hi'.all h (hun ?_) hp⟩
    rwa [hcalls, Nat.add_sub_cancel] at ha

end

/-- The lists hold the needed patterns, each once. -/
structure Complete (fcnf gcnf : CNFGenerator) (c : Circuit) (target : NodeId) (signals : List NodeId)
    (st : State) : Prop where
  nodup1 : st.in1cases.Nodup
  nodup2 : st.in2cases.Nodup
  mem1 : ∀ p, p ∈ st.in1cases ↔ Needed fcnf gcnf c target signals false p
  mem2 : ∀ p, p ∈ st.in2cases ↔ Needed fcnf gcnf c target signals true p

/-- Needed patterns that agree on the last 32 signals are equal. -/
def Coded (fcnf gcnf : CNFGenerator) (c : Circuit) (target : NodeId) (signals : List NodeId) : Prop :=
  ∀ b b' p q, Needed fcnf gcnf c target signals b p → Needed fcnf gcnf c target signals b' q →
    (∀ sig ∈ signals.drop (signals.length - 32), p.at sig = q.at sig) → p = q

section
variable (h : Setting fcnf gcnf c target signals)
  (hcons : ∀ p, ¬(Needed fcnf gcnf c target signals false p ∧ Needed fcnf gcnf c target signals true p))

include hcons in
theorem Inv.complete {st : State} (hi : Inv fcnf gcnf c target signals st)
    (hall : ∀ b p, Needed fcnf gcnf c target signals b p → p ∈ st.in1cases ++ st.in2cases) :
    Complete fcnf gcnf c target signals st := by
  have hnd := List.nodup_append.1 (List.Nodup.of_map _ hi.nodup)
  refine ⟨hnd.1, hnd.2.1, fun p => ⟨hi.needed1 p, fun hp => ?_⟩, fun p => ⟨hi.needed2 p, fun hp => ?_⟩⟩
  · exact (List.mem_append.1 (hall _ p hp)).resolve_right fun h2 => hcons p ⟨hp, hi.needed2 p h2⟩
  · exact (List.mem_append.1 (hall _ p hp)).resolve_left fun h1 => hcons p ⟨hi.needed1 p h1, hp⟩

theorem Inv.length_le {st : State} (hi : Inv fcnf gcnf c target signals st) :
    st.in1cases.length + st.in2cases.length ≤ (patterns signals).length := by
  rw [← List.length_append]
  exact cases_length_le (List.Nodup.of_map _ hi.nodup) fun p hp => (hi.needed hp).choose_spec.over

include h hcons in
/-- **`solve` ends with all needed patterns** if some value of the target is always right and the
codes tell the patterns apart. -/
theorem solve_complete (hf : Fixable fcnf gcnf c target) (hk : Coded fcnf gcnf c target signals)
    (hex : ∀ i, Exact (solver i)) (hexC : ∀ i, Exact (solverCheck i)) :
    ∃ fuel st, solve fcnf gcnf c target signals solver solverCheck (fun _ => false) fuel =
      some (some st) ∧ Complete fcnf gcnf c target signals st := by
  have hstay : ∀ st st', Inv fcnf gcnf c target signals st →
      solveStep fcnf c target signals solver solverCheck (fun _ => false) st = .inl st' →
      Inv fcnf gcnf c target signals st' ∧
        (patterns signals).length - (st'.in1cases.length + st'.in2cases.length) <
          (patterns signals).length - (st.in1cases.length + st.in2cases.length) := by
    intro st st' hi hst
    obtain ⟨hi', b, p, hp, hnew, hgrow⟩ := (solveStep_spec h hex hexC hi).1 st' hst
    have hle := hi'.length_le
    have := hgrow fun hmem => by
      obtain ⟨q, hq, he⟩ := (hi.codes _).1 hmem
      obtain ⟨b', hq'⟩ := hi.needed hq
      exact hnew (hk b' b q p hq' hp (curCase_eq_iff.1 he) ▸ hq)
    exact ⟨hi', by omega⟩
  have hleave : ∀ st o, Inv fcnf gcnf c target signals st →
      solveStep fcnf c target signals solver solverCheck (fun _ => false) st = .inr o →
      ∃ st, o = some st ∧ Complete fcnf gcnf c target signals st := by
    intro st o hi hst
    rcases (solveStep_spec h hex hexC hi).2 o hst with ⟨-, hc⟩ | ⟨st', rfl, hi', -, hun⟩
    · exact absurd hf hc
    · exact ⟨st', rfl, hi'.complete hcons fun b p hp => hi'.all h (hun rfl) hp⟩
  obtain ⟨o, ho, st, rfl, hc⟩ := loop_total _ hstay hleave (Inv.start h) (Nat.lt_succ_self _)
  exact ⟨_, st, ho, hc⟩

/-- A solver that prefers the model `m`. -/
def prefer (m : Model) : Solve := fun cs as =>
  if Sat m cs ∧ Holds m as then some m else dpllSolve cs as

omit hcons in
theorem prefer_exact (m : Model) : Exact (prefer m) := by
  intro cs as
  unfold prefer
  split
  · assumption
  · exact dpll_exact cs as

include h in
/-- The first model of `main` may be one that no value of the target fixes. -/
theorem fixable_of_complete (hall : ∀ solver solverCheck : Nat → Solve, (∀ i, Exact (solver i)) →
      (∀ i, Exact (solverCheck i)) → ∃ fuel st, solve fcnf gcnf c target signals solver solverCheck
        (fun _ => false) fuel = some (some st)) : Fixable fcnf gcnf c target := by
  intro m1 m0 hd
  by_contra hno
  obtain ⟨mm, h1, h2⟩ := makeMain_extend h hd
  obtain ⟨fuel, st, hs⟩ := hall (fun _ => prefer mm) (fun _ => dpllSolve) (fun _ => prefer_exact mm)
    fun _ => dpll_exact
  have hstep : solveStep fcnf c target signals (fun _ => prefer mm) (fun _ => dpllSolve)
      (fun _ => false) (start fcnf gcnf c target) = .inr none := by
    have hq := (Inv.start h).check.query h mm
    have hans := dpll_exact ((fixInputs fcnf c (makeCheck fcnf gcnf c) (makeCheck fcnf gcnf c).nVars
      mm).genLit (((makeCheck fcnf gcnf c).nVars : Int), true)).clauses
      [((makeCheck fcnf gcnf c).nVars, true)]
    cases hc : dpllSolve ((fixInputs fcnf c (makeCheck fcnf gcnf c) (makeCheck fcnf gcnf c).nVars
        mm).genLit (((makeCheck fcnf gcnf c).nVars : Int), true)).clauses
        [((makeCheck fcnf gcnf c).nVars, true)] with
    | none => simp [solveStep, prefer, DC.start, h1, hc]
    | some m' =>
      rw [hc] at hans
      obtain ⟨m'', h3, h4⟩ := hq.1 ⟨m', hans⟩
      refine absurd ⟨m'', _, (((makeCheck_adds h).sat m'').1 h3).2, fun pi hpi => ?_⟩ hno
      rw [h4 pi hpi, h2 _ (DC.varOf_lt h (by simp [hpi]))]
  cases fuel with
  | zero => cases hs
  | succ fuel =>
    rw [solve, loop_leave _ hstep] at hs
    cases hs

include h hcons in
/-- **The enumeration is complete** for all exact solvers exactly if some value of the target is
always right and no two needed patterns agree on the last 32 signals. -/
theorem solve_complete_iff : (∀ solver solverCheck : Nat → Solve, (∀ i, Exact (solver i)) →
      (∀ i, Exact (solverCheck i)) → ∃ fuel st, solve fcnf gcnf c target signals solver solverCheck
        (fun _ => false) fuel = some (some st) ∧ Complete fcnf gcnf c target signals st) ↔
    Fixable fcnf gcnf c target ∧ Coded fcnf gcnf c target signals := by
  refine ⟨fun hall => ⟨?_, ?_⟩, fun ⟨hf, hk⟩ _ _ hex hexC => solve_complete h hcons hf hk hex hexC⟩
  · refine fixable_of_complete h fun solver solverCheck hex hexC => ?_
    obtain ⟨fuel, st, hs, -⟩ := hall solver solverCheck hex hexC
    exact ⟨fuel, st, hs⟩
  · obtain ⟨fuel, st, hs, hc⟩ := hall (fun _ => dpllSolve) (fun _ => dpllSolve) (fun _ => dpll_exact)
      fun _ => dpll_exact
    obtain ⟨hi, -⟩ := solve_sound h (fun _ => dpll_exact) (fun _ => dpll_exact) hs
    have hmem : ∀ b p, Needed fcnf gcnf c target signals b p →
        p ∈ st.in1cases ++ st.in2cases := by
      intro b p hp
      cases b with
      | false => exact List.mem_append_left _ ((hc.mem1 p).2 hp)
      | true => exact List.mem_append_right _ ((hc.mem2 p).2 hp)
    intro b b' p q hp hq hagree
    exact List.inj_on_of_nodup_map hi.nodup (hmem b p hp) (hmem b' q hq) (curCase_eq_iff.2 hagree)

end

end Msyn.DC
