import Msyn.Sat.CNFGenerator

/-!
# The solver interface

`GInterface` of `glucoseInterface.cpp`: the variables and the clauses of a Glucose solver. Every
operation only adds to them: `Adds g g' P` says that the models of `g'` are those of `g` that
satisfy `P`. The auxiliary variables of `setNEqual` are new, so a model of the clauses before has
an extension to them (`setNEqual_extend`).
-/

namespace Msyn.Glucose

open Cnf CNFgen

/-- The number of variables and the clauses of the solver. -/
structure GInterface where
  nVars : Nat := 0
  clauses : List Clause := []

/-- The literal of `genLit(x, b)`. -/
def mkLit (l : Int × Bool) : Lit := (l.1.natAbs, l.2)

namespace GInterface

/-- `genLit`: the solver gets the variables up to `|x|`. -/
def genLit (g : GInterface) (l : Int × Bool) : GInterface :=
  { g with nVars := max g.nVars (l.1.natAbs + 1) }

/-- `genLit` of some literals, then `addClause` of them. -/
def addClause (g : GInterface) (ls : List (Int × Bool)) : GInterface :=
  let g := ls.foldl genLit g
  { g with clauses := g.clauses ++ [ls.map mkLit] }

def addCNF (g : GInterface) (cnf : CNFGenerator) (offset : Int) : GInterface :=
  cnf.clauses.foldl (fun g cl => g.addClause (cl.entries.map fun l => (l.1 + offset, l.2))) g

/-- `setEqual(a, b)`. -/
def setEqual (g : GInterface) (a b : Int) : GInterface :=
  if a = b then g else (g.addClause [(a, true), (b, false)]).addClause [(b, true), (a, false)]

/-- `setEqual(values1, values2)` for vectors of one length. -/
def setEquals (g : GInterface) (values1 values2 : List Int) : GInterface :=
  (values1.zip values2).foldl (fun g p => g.setEqual p.1 p.2) g

/-- The four clauses that make `x` the exclusive or of `a` and `b`. -/
def setXor (g : GInterface) (a b x : Int) : GInterface :=
  (((g.addClause [(a, false), (b, false), (x, false)]).addClause
    [(a, false), (b, true), (x, true)]).addClause
    [(a, true), (b, true), (x, false)]).addClause
    [(a, true), (b, false), (x, true)]

/-- `setNEqual(values1, values2)` for vectors of one length. -/
def setNEqual (g : GInterface) (values1 values2 : List Int) : GInterface :=
  let max := g.nVars
  let g := (values1.zip values2).zipIdx.foldl (fun g e =>
    g.setXor e.1.1 e.1.2 ((max + e.2 : Nat) : Int)) g
  g.addClause ((List.range values1.length).map fun i => (((max + i : Nat) : Int), true))

/-- `ifTrue_thenEQ(values1, values2, flag)` for vectors of one length. -/
def ifTrueThenEQ (g : GInterface) (values1 values2 : List Int) (flag : Int) : GInterface :=
  (values1.zip values2).foldl (fun g p =>
    (g.addClause [(p.1, true), (p.2, false), (flag, false)]).addClause
      [(p.1, false), (p.2, true), (flag, false)]) g

/-- The vectors are equal or the flag is `pol`, for vectors of one length. -/
def thenEQ (g : GInterface) (values1 values2 : List Int) (flag : Int) (pol : Bool) : GInterface :=
  (values1.zip values2).foldl (fun g p =>
    (g.addClause [(p.1, true), (p.2, false), (flag, pol)]).addClause
      [(p.1, false), (p.2, true), (flag, pol)]) g

/-! ## What the operations add -/

/-- The models of `g'` are the models of `g` that satisfy `P`. -/
structure Adds (g g' : GInterface) (P : Model → Prop) : Prop where
  le : g.nVars ≤ g'.nVars
  below : Below g.nVars g.clauses → Below g'.nVars g'.clauses
  sat : ∀ m, Sat m g'.clauses ↔ Sat m g.clauses ∧ P m

theorem Adds.refl (g : GInterface) : Adds g g fun _ => True := ⟨le_rfl, id, by simp⟩

theorem Adds.trans {g g1 g2 : GInterface} {P Q : Model → Prop} (h : Adds g g1 P)
    (h' : Adds g1 g2 Q) : Adds g g2 fun m => P m ∧ Q m :=
  ⟨h.le.trans h'.le, fun hb => h'.below (h.below hb), fun m => by rw [h'.sat, h.sat, and_assoc]⟩

theorem Adds.congr {g g' : GInterface} {P Q : Model → Prop} (h : Adds g g' P)
    (hPQ : ∀ m, P m ↔ Q m) : Adds g g' Q :=
  ⟨h.le, h.below, fun m => by rw [h.sat, hPQ]⟩

theorem Adds.foldl {α : Type*} {f : GInterface → α → GInterface} {P : α → Model → Prop} :
    ∀ {l : List α}, (∀ a ∈ l, ∀ g, Adds g (f g a) (P a)) → ∀ g,
      Adds g (l.foldl f g) fun m => ∀ a ∈ l, P a m
  | [], _, g => (Adds.refl g).congr (by simp)
  | a :: l, h, g => ((h a (by simp) g).trans (Adds.foldl (fun b hb => h b (by simp [hb]))
      (f g a))).congr (by simp)

theorem foldl_genLit (ls : List (Int × Bool)) (g : GInterface) :
    g.nVars ≤ (ls.foldl genLit g).nVars ∧ (ls.foldl genLit g).clauses = g.clauses ∧
      ∀ l ∈ ls, l.1.natAbs < (ls.foldl genLit g).nVars := by
  induction ls generalizing g with
  | nil => simp
  | cons l ls ih =>
    obtain ⟨h1, h2, h3⟩ := ih (g.genLit l)
    have h4 : g.nVars ≤ (g.genLit l).nVars := le_max_left _ _
    have h5 : l.1.natAbs < (g.genLit l).nVars := (Nat.lt_succ_self _).trans_le (le_max_right _ _)
    refine ⟨h4.trans h1, h2, fun k hk => ?_⟩
    rcases List.mem_cons.1 hk with rfl | hk
    · exact h5.trans_le h1
    · exact h3 k hk

theorem addClause_adds (g : GInterface) (ls : List (Int × Bool)) :
    Adds g (g.addClause ls) fun m => ∃ l ∈ ls, m l.1.natAbs = l.2 := by
  obtain ⟨h1, h2, h3⟩ := foldl_genLit ls g
  refine ⟨h1, fun hb => ?_, fun m => ?_⟩
  · simp only [addClause, h2]
    refine below_append.2 ⟨hb.mono h1, ?_⟩
    intro c hc l hl
    rw [List.mem_singleton.1 hc] at hl
    obtain ⟨k, hk, rfl⟩ := List.mem_map.1 hl
    exact h3 k hk
  · simp only [addClause, h2, sat_append, sat_cons, sat_nil, and_true, List.mem_map]
    simp [mkLit]

/-- The literals of an added clause are variables of the solver. -/
theorem addClause_lt (g : GInterface) (ls : List (Int × Bool)) :
    ∀ l ∈ ls, l.1.natAbs < (g.addClause ls).nVars := (foldl_genLit ls g).2.2

theorem addCNF_adds (g : GInterface) (cnf : CNFGenerator) (k : Nat) :
    Adds g (g.addCNF cnf k) fun m => Sat (fun v => m (v + k)) cnf.cnf := by
  have h := Adds.foldl (l := cnf.clauses) (fun cl _ g =>
    addClause_adds g (cl.entries.map fun l => ((l.1 : Int) + k, l.2))) g
  refine h.congr fun m => ?_
  simp only [Sat, CNFGenerator.cnf, List.mem_map, forall_exists_index, and_imp,
    forall_apply_eq_imp_iff₂, exists_exists_and_eq_and]
  refine forall₂_congr fun cl _ => exists_congr fun l => and_congr_right fun _ => ?_
  have : ((l.1 : Int) + k).natAbs = l.1 + k := by omega
  rw [this]

theorem setEqual_adds (g : GInterface) (a b : Int) :
    Adds g (g.setEqual a b) fun m => m a.natAbs = m b.natAbs := by
  unfold setEqual
  split
  · rename_i he
    exact (Adds.refl g).congr fun m => by simp [he]
  · refine ((addClause_adds g _).trans (addClause_adds _ _)).congr fun m => ?_
    simp only [List.mem_cons, List.not_mem_nil, or_false, exists_eq_or_imp, exists_eq_left]
    generalize m a.natAbs = p, m b.natAbs = q
    revert p q
    decide

theorem setEquals_adds (g : GInterface) (values1 values2 : List Int) :
    Adds g (g.setEquals values1 values2) fun m =>
      ∀ p ∈ values1.zip values2, m p.1.natAbs = m p.2.natAbs :=
  Adds.foldl (fun p _ g => setEqual_adds g p.1 p.2) g

theorem forall_mem_or_left {α : Type*} {l : List α} {a : Prop} {p : α → Prop} :
    (∀ x ∈ l, a ∨ p x) ↔ a ∨ ∀ x ∈ l, p x := by
  by_cases ha : a
  · simp [ha]
  · simp [ha]

theorem thenEQ_adds (g : GInterface) (values1 values2 : List Int) (flag : Int) (pol : Bool) :
    Adds g (g.thenEQ values1 values2 flag pol) fun m =>
      m flag.natAbs = pol ∨ ∀ p ∈ values1.zip values2, m p.1.natAbs = m p.2.natAbs := by
  have h := Adds.foldl (l := values1.zip values2) (P := fun p m =>
    m flag.natAbs = pol ∨ m p.1.natAbs = m p.2.natAbs) (fun p _ g =>
      ((addClause_adds g [(p.1, true), (p.2, false), (flag, pol)]).trans
        (addClause_adds _ [(p.1, false), (p.2, true), (flag, pol)])).congr fun m => by
          simp only [List.mem_cons, List.not_mem_nil, or_false, exists_eq_or_imp, exists_eq_left]
          generalize m p.1.natAbs = a, m p.2.natAbs = b, m flag.natAbs = x
          revert a b x pol
          decide) g
  exact h.congr fun m => forall_mem_or_left

/-- `ifTrue_thenEQ` is for a flag that is false. -/
theorem ifTrueThenEQ_adds (g : GInterface) (values1 values2 : List Int) (flag : Int) :
    Adds g (g.ifTrueThenEQ values1 values2 flag) fun m =>
      ∀ p ∈ values1.zip values2, m flag.natAbs = true → m p.1.natAbs = m p.2.natAbs := by
  have h : Adds g (g.ifTrueThenEQ values1 values2 flag) _ := thenEQ_adds g values1 values2 flag false
  refine h.congr fun m => ?_
  rw [← forall_mem_or_left]
  refine forall₂_congr fun p _ => ?_
  cases m flag.natAbs
  · simp
  · simp

theorem setXor_adds (g : GInterface) (a b x : Int) :
    Adds g (g.setXor a b x) fun m => m x.natAbs = (m a.natAbs != m b.natAbs) := by
  refine ((((addClause_adds g _).trans (addClause_adds _ _)).trans (addClause_adds _ _)).trans
    (addClause_adds _ _)).congr fun m => ?_
  simp only [List.mem_cons, List.not_mem_nil, or_false, exists_eq_or_imp, exists_eq_left]
  generalize m a.natAbs = p, m b.natAbs = q, m x.natAbs = r
  revert p q r
  decide

theorem setNEqual_adds (g : GInterface) (values1 values2 : List Int) :
    Adds g (g.setNEqual values1 values2) fun m =>
      (∀ e ∈ (values1.zip values2).zipIdx,
        m (g.nVars + e.2) = (m e.1.1.natAbs != m e.1.2.natAbs)) ∧
      ∃ i < values1.length, m (g.nVars + i) = true := by
  refine ((Adds.foldl (fun e _ g' => setXor_adds g' e.1.1 e.1.2
    ((g.nVars + e.2 : Nat) : Int)) g).trans (addClause_adds _ _)).congr fun m => ?_
  simp only [Int.natAbs_natCast, List.mem_map, List.mem_range, exists_exists_and_eq_and]

/-- What is mentioned becomes a variable. -/
theorem setEqual_lt {g : GInterface} {a b : Int} (h : a ≠ b) :
    a.natAbs < (g.setEqual a b).nVars ∧ b.natAbs < (g.setEqual a b).nVars := by
  rw [setEqual, if_neg h]
  exact ⟨addClause_lt _ _ (a, false) (by simp), addClause_lt _ _ (b, true) (by simp)⟩

/-- A variable that one round of a loop makes is a variable after the loop. -/
theorem foldl_lt {α : Type*} {f : GInterface → α → GInterface} {x : Nat} {a : α} {l : List α}
    (hle : ∀ b ∈ l, ∀ g, g.nVars ≤ (f g b).nVars) (ha : a ∈ l) (hx : ∀ g, x < (f g a).nVars)
    (g : GInterface) : x < (l.foldl f g).nVars := by
  obtain ⟨l1, l2, rfl⟩ := List.append_of_mem ha
  have key : ∀ (l : List α) g, (∀ b ∈ l, ∀ g, g.nVars ≤ (f g b).nVars) →
      g.nVars ≤ (l.foldl f g).nVars := by
    intro l
    induction l with
    | nil => exact fun g _ => le_rfl
    | cons b l ih => exact fun g h =>
        (h b (by simp) g).trans (ih _ fun b' hb' => h b' (by simp [hb']))
  rw [List.foldl_append, List.foldl_cons]
  exact (hx _).trans_le (key l2 _ fun b hb => hle b (by simp [hb]))

theorem addCNF_lt (g : GInterface) (cnf : CNFGenerator) (k : Nat) {cl : Clause} (hcl : cl ∈ cnf.cnf)
    {l : Lit} (hl : l ∈ cl) : l.1 + k < (g.addCNF cnf k).nVars := by
  obtain ⟨m, hm, rfl⟩ := List.mem_map.1 hcl
  refine foldl_lt (fun b _ g => (addClause_adds g _).le) hm (fun g => ?_) g
  have := addClause_lt g (m.entries.map fun l => ((l.1 : Int) + k, l.2)) ((l.1 : Int) + k, l.2)
    (List.mem_map.2 ⟨l, hl, rfl⟩)
  have he : ((l.1 : Int) + k).natAbs = l.1 + k := by omega
  rwa [he] at this

theorem setEquals_lt {g : GInterface} {values1 values2 : List Int} {p : Int × Int}
    (hp : p ∈ values1.zip values2) (h : p.1 ≠ p.2) :
    p.1.natAbs < (g.setEquals values1 values2).nVars ∧
      p.2.natAbs < (g.setEquals values1 values2).nVars :=
  ⟨foldl_lt (fun p _ g => (setEqual_adds g p.1 p.2).le) hp (fun _ => (setEqual_lt h).1) g,
    foldl_lt (fun p _ g => (setEqual_adds g p.1 p.2).le) hp (fun _ => (setEqual_lt h).2) g⟩

/-- The auxiliary variables of `setNEqual` are the first `values1.length` new ones. -/
theorem setNEqual_lt (g : GInterface) (values1 values2 : List Int) {i : Nat}
    (hi : i < values1.length) : g.nVars + i < (g.setNEqual values1 values2).nVars := by
  have := addClause_lt ((values1.zip values2).zipIdx.foldl (fun g' e =>
    g'.setXor e.1.1 e.1.2 ((g.nVars + e.2 : Nat) : Int)) g)
    ((List.range values1.length).map fun i => (((g.nVars + i : Nat) : Int), true))
    (((g.nVars + i : Nat) : Int), true)
    (List.mem_map.2 ⟨i, List.mem_range.2 hi, rfl⟩)
  rwa [Int.natAbs_natCast] at this

/-- **A model in which the vectors differ** extends to the auxiliary variables. -/
theorem setNEqual_extend {g : GInterface} {values1 values2 : List Int} {m : Model}
    (hb : Below g.nVars g.clauses) (hs : Sat m g.clauses)
    (hlt : ∀ p ∈ values1.zip values2, p.1.natAbs < g.nVars ∧ p.2.natAbs < g.nVars)
    (hne : ∃ p ∈ values1.zip values2, m p.1.natAbs ≠ m p.2.natAbs) :
    ∃ m', (∀ v < g.nVars, m' v = m v) ∧ Sat m' (g.setNEqual values1 values2).clauses := by
  let ps := values1.zip values2
  let m' : Model := fun v =>
    if v < g.nVars then m v
    else match ps[v - g.nVars]? with
      | some p => m p.1.natAbs != m p.2.natAbs
      | none => false
  have hold : ∀ v < g.nVars, m' v = m v := fun v hv => if_pos hv
  have hnew : ∀ i p, ps[i]? = some p → m' (g.nVars + i) = (m p.1.natAbs != m p.2.natAbs) := by
    intro i p hp
    have h1 : ¬g.nVars + i < g.nVars := by omega
    have h2 : g.nVars + i - g.nVars = i := by omega
    simp only [m', if_neg h1, h2, hp]
  refine ⟨m', hold, ((setNEqual_adds g values1 values2).sat m').2
    ⟨(sat_congr hb fun v hv => (hold v hv).symm).1 hs, ?_, ?_⟩⟩
  · rintro ⟨p, i⟩ he
    obtain ⟨-, hp⟩ := List.mem_zipIdx' he
    have hp' : ps[i]? = some p := by rw [hp]; exact List.getElem?_eq_getElem _
    obtain ⟨h1, h2⟩ := hlt p (List.mem_of_getElem? hp')
    rw [hnew i p hp', hold _ h1, hold _ h2]
  · obtain ⟨p, hp, hd⟩ := hne
    obtain ⟨i, hi, he⟩ := List.getElem_of_mem hp
    refine ⟨i, ?_, ?_⟩
    · rw [List.length_zip] at hi
      omega
    · rw [hnew i p (by rw [← he]; exact List.getElem?_eq_getElem hi)]
      simpa using hd

/-- A model of the clauses that `setNEqual` adds makes some pair differ. -/
theorem setNEqual_differ {α : Type*} {g : GInterface} {l : List α} {f f' : α → Int} {m : Model}
    (hm : Sat m (g.setNEqual (l.map f) (l.map f')).clauses) :
    Sat m g.clauses ∧ ∃ a ∈ l, m (f a).natAbs ≠ m (f' a).natAbs := by
  obtain ⟨h1, h2, i, hi, h3⟩ := ((setNEqual_adds g _ _).sat m).1 hm
  refine ⟨h1, ?_⟩
  have hi' : i < l.length := by rwa [List.length_map] at hi
  have := h2 ((f l[i], f' l[i]), i) (List.mem_zipIdx_iff_getElem?.2 (by simp [List.zip_map', hi']))
  simp only [h3] at this
  exact ⟨_, List.getElem_mem hi', by simpa using this.symm⟩

/-- `setNEqual_extend` for the values of one list of nodes. -/
theorem setNEqual_map_extend {α : Type*} {g : GInterface} {l : List α} {f h : α → Int} {m : Model}
    (hb : Below g.nVars g.clauses) (hs : Sat m g.clauses)
    (hlt : ∀ a ∈ l, (f a).natAbs < g.nVars ∧ (h a).natAbs < g.nVars)
    (hne : ∃ a ∈ l, m (f a).natAbs ≠ m (h a).natAbs) :
    ∃ m', (∀ v < g.nVars, m' v = m v) ∧ Sat m' (g.setNEqual (l.map f) (l.map h)).clauses := by
  refine setNEqual_extend hb hs ?_ ?_
  · rw [List.zip_map', List.forall_mem_map]
    exact hlt
  · obtain ⟨a, ha, hd⟩ := hne
    rw [List.zip_map']
    exact ⟨_, List.mem_map.2 ⟨a, ha, rfl⟩, hd⟩

/-! ## The variables of the clauses -/

/-- Every variable of the clauses satisfies `V`. -/
def Over (V : Nat → Prop) (cs : List Clause) : Prop := ∀ c ∈ cs, ∀ l ∈ c, V l.1

section
variable {V : Nat → Prop} {g : GInterface}

theorem Over.foldl {α : Type*} {f : GInterface → α → GInterface} :
    ∀ {l : List α} {g : GInterface}, Over V g.clauses →
      (∀ a ∈ l, ∀ g, Over V g.clauses → Over V (f g a).clauses) → Over V (l.foldl f g).clauses
  | [], _, h, _ => h
  | a :: _, g, h, hf => by
    rw [List.foldl_cons]
    exact Over.foldl (hf a (by simp) g h) fun b hb => hf b (by simp [hb])

theorem Over.addClause (h : Over V g.clauses) {ls : List (Int × Bool)}
    (hl : ∀ l ∈ ls, V l.1.natAbs) : Over V (g.addClause ls).clauses := by
  have h2 := (foldl_genLit ls g).2.1
  intro c hc l hlc
  simp only [GInterface.addClause, h2, List.mem_append, List.mem_singleton] at hc
  rcases hc with hc | rfl
  · exact h c hc l hlc
  · obtain ⟨k, hk, rfl⟩ := List.mem_map.1 hlc
    exact hl k hk

theorem Over.addCNF (h : Over V g.clauses) {cnf : CNFGenerator} {k : Nat}
    (hl : ∀ cl ∈ cnf.cnf, ∀ l ∈ cl, V (l.1 + k)) : Over V (g.addCNF cnf k).clauses := by
  refine Over.foldl h fun cl hcl g hg => hg.addClause fun l hlc => ?_
  obtain ⟨e, he, rfl⟩ := List.mem_map.1 hlc
  have hn : ((e.1 : Int) + k).natAbs = e.1 + k := by omega
  rw [hn]
  exact hl _ (List.mem_map_of_mem hcl) e he

theorem Over.setEqual (h : Over V g.clauses) {a b : Int} (ha : V a.natAbs) (hb : V b.natAbs) :
    Over V (g.setEqual a b).clauses := by
  unfold GInterface.setEqual
  split
  · exact h
  · exact (h.addClause (by simp [ha, hb])).addClause (by simp [ha, hb])

theorem Over.setEquals (h : Over V g.clauses) {values1 values2 : List Int}
    (hv : ∀ p ∈ values1.zip values2, V p.1.natAbs ∧ V p.2.natAbs) :
    Over V (g.setEquals values1 values2).clauses :=
  Over.foldl h fun p hp _ hg => hg.setEqual (hv p hp).1 (hv p hp).2

theorem Over.setNEqual (h : Over V g.clauses) {values1 values2 : List Int}
    (hv : ∀ p ∈ values1.zip values2, V p.1.natAbs ∧ V p.2.natAbs)
    (hx : ∀ i < values1.length, V (g.nVars + i)) :
    Over V (g.setNEqual values1 values2).clauses := by
  have h1 := Over.foldl (l := (values1.zip values2).zipIdx) (f := fun g' e =>
    g'.setXor e.1.1 e.1.2 ((g.nVars + e.2 : Nat) : Int)) h fun e he g' hg => by
      obtain ⟨hi, hp⟩ := List.mem_zipIdx' he
      have ha := hv e.1 (hp ▸ List.getElem_mem _)
      rw [List.length_zip] at hi
      have hxi := hx e.2 (by omega)
      have he' : ((g.nVars + e.2 : Nat) : Int).natAbs = g.nVars + e.2 := Int.natAbs_natCast _
      exact (((hg.addClause (by simp only [List.forall_mem_cons, he']; simp [ha, hxi])).addClause
        (by simp only [List.forall_mem_cons, he']; simp [ha, hxi])).addClause
        (by simp only [List.forall_mem_cons, he']; simp [ha, hxi])).addClause
        (by simp only [List.forall_mem_cons, he']; simp [ha, hxi])
  refine h1.addClause fun l hl => ?_
  obtain ⟨i, hi, rfl⟩ := List.mem_map.1 hl
  rw [Int.natAbs_natCast]
  exact hx i (List.mem_range.1 hi)

theorem Over.ifTrueThenEQ (h : Over V g.clauses) {values1 values2 : List Int} {flag : Int}
    (hv : ∀ p ∈ values1.zip values2, V p.1.natAbs ∧ V p.2.natAbs) (hf : V flag.natAbs) :
    Over V (g.ifTrueThenEQ values1 values2 flag).clauses :=
  Over.foldl h fun p hp _ hg =>
    (hg.addClause (by simp [hv p hp, hf])).addClause (by simp [hv p hp, hf])

end

end GInterface

end Msyn.Glucose
