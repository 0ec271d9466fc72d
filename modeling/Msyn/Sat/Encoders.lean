import Msyn.Sat.GInterface

/-!
# The solver-interface encoders

The conditional encoders of `glucoseInterface.cpp`: `ifTrue_thenNEQ`, `ifFalse_thenNEQ` and
`ifFalse_thenEQ`, and the two that put one condition on each side of a flag. They add the clauses
of `setEqual` and `setNEqual` with a literal of the flag in each. `Encodes g g' P` says that `g'`
extends `g` by exactly `P`: a model of `g` has an extension to the variables of `g'` that is a
model of `g'` if and only if `P` holds of it. Encodings compose (`Encodes.trans`), so any calls on
one solver encode what each of them encodes (`encoders_conservative`).
-/

namespace Msyn.Glucose

open Cnf

namespace GInterface

/-- The clauses of `setXor`, each with the literal of the flag. -/
def setXorOr (g : GInterface) (a b x flag : Int) (pol : Bool) : GInterface :=
  (((g.addClause [(a, false), (b, false), (x, false), (flag, pol)]).addClause
    [(a, false), (b, true), (x, true), (flag, pol)]).addClause
    [(a, true), (b, true), (x, false), (flag, pol)]).addClause
    [(a, true), (b, false), (x, true), (flag, pol)]

/-- The vectors differ or the flag is `pol`, for vectors of one length. -/
def thenNEQ (g : GInterface) (values1 values2 : List Int) (flag : Int) (pol : Bool) :
    GInterface :=
  let g := g.genLit (flag, true)
  let max := g.nVars
  let g := (values1.zip values2).zipIdx.foldl (fun g e =>
    g.setXorOr e.1.1 e.1.2 ((max + e.2 : Nat) : Int) flag pol) g
  g.addClause (((List.range values1.length).map fun i => (((max + i : Nat) : Int), true)) ++
    [(flag, pol)])

/-- `ifTrue_thenNEQ(values1, values2, flag)`. -/
def ifTrueThenNEQ (g : GInterface) (values1 values2 : List Int) (flag : Int) : GInterface :=
  g.thenNEQ values1 values2 flag false

/-- `ifFalse_thenNEQ(values1, values2, flag)`. -/
def ifFalseThenNEQ (g : GInterface) (values1 values2 : List Int) (flag : Int) : GInterface :=
  g.thenNEQ values1 values2 flag true

/-- `ifFalse_thenEQ(values1, values2, flag)`. -/
def ifFalseThenEQ (g : GInterface) (values1 values2 : List Int) (flag : Int) : GInterface :=
  g.thenEQ values1 values2 flag true

/-- `ifTrue_thenEQ_elseNEQ(values1, values2, flag)`. -/
def ifTrueThenEQElseNEQ (g : GInterface) (values1 values2 : List Int) (flag : Int) : GInterface :=
  (g.ifTrueThenEQ values1 values2 flag).ifFalseThenNEQ values1 values2 flag

/-- `ifTrue_thenNEQ_elseEQ(values1, values2, flag)`. -/
def ifTrueThenNEQElseEQ (g : GInterface) (values1 values2 : List Int) (flag : Int) : GInterface :=
  (g.ifTrueThenNEQ values1 values2 flag).ifFalseThenEQ values1 values2 flag

/-! ## Conservative extensions -/

/-- `g'` adds clauses and variables to `g` that say `P` of the variables of `g`. -/
structure Encodes (g g' : GInterface) (P : Model → Prop) : Prop where
  le : g.nVars ≤ g'.nVars
  below : Below g'.nVars g'.clauses
  sound : ∀ m, Sat m g'.clauses → Sat m g.clauses ∧ P m
  extend : ∀ m, Sat m g.clauses → P m →
    ∃ m', (∀ v < g.nVars, m' v = m v) ∧ Sat m' g'.clauses

/-- `P` reads only the first `n` variables. -/
def Local (n : Nat) (P : Model → Prop) : Prop :=
  ∀ m m' : Model, (∀ v < n, m' v = m v) → (P m' ↔ P m)

theorem Adds.encodes {g g' : GInterface} {P : Model → Prop} (h : Adds g g' P)
    (hb : Below g.nVars g.clauses) : Encodes g g' P where
  le := h.le
  below := h.below hb
  sound m hm := (h.sat m).1 hm
  extend m hm hP := ⟨m, fun _ _ => rfl, (h.sat m).2 ⟨hm, hP⟩⟩

namespace Encodes

variable {g g1 g2 : GInterface} {P Q : Model → Prop}

theorem refl (hb : Below g.nVars g.clauses) : Encodes g g fun _ => True := (Adds.refl g).encodes hb

theorem congr (h : Encodes g g1 P) (hPQ : ∀ m, P m ↔ Q m) : Encodes g g1 Q where
  le := h.le
  below := h.below
  sound m hm := ⟨(h.sound m hm).1, (hPQ m).1 (h.sound m hm).2⟩
  extend m hm hQ := h.extend m hm ((hPQ m).2 hQ)

/-- Two steps encode the conjunction when the second one is about the variables before both. -/
theorem trans (h : Encodes g g1 P) (h' : Encodes g1 g2 Q) (hQ : Local g.nVars Q) :
    Encodes g g2 fun m => P m ∧ Q m where
  le := h.le.trans h'.le
  below := h'.below
  sound m hm := by
    obtain ⟨h1, hq⟩ := h'.sound m hm
    obtain ⟨h0, hp⟩ := h.sound m h1
    exact ⟨h0, hp, hq⟩
  extend m hm hPQ := by
    obtain ⟨m1, ha1, hs1⟩ := h.extend m hm hPQ.1
    obtain ⟨m2, ha2, hs2⟩ := h'.extend m1 hs1 ((hQ m m1 ha1).2 hPQ.2)
    exact ⟨m2, fun v hv => (ha2 v (hv.trans_le h.le)).trans (ha1 v hv), hs2⟩

/-- A literal in every clause weakens what is encoded by that literal. -/
theorem or (h : Encodes g g1 P) {x : Nat} {b : Bool} (hle : g.nVars ≤ g2.nVars)
    (hb : Below g2.nVars g2.clauses)
    (hsat : ∀ m, Sat m g2.clauses ↔ Sat m g.clauses ∧ (m x = b ∨ Sat m g1.clauses)) :
    Encodes g g2 fun m => m x = b ∨ P m where
  le := hle
  below := hb
  sound m hm := by
    obtain ⟨h0, hor⟩ := (hsat m).1 hm
    exact ⟨h0, hor.imp_right fun h1 => (h.sound m h1).2⟩
  extend m hm hor := by
    rcases hor with hv | hp
    · exact ⟨m, fun _ _ => rfl, (hsat m).2 ⟨hm, .inl hv⟩⟩
    · obtain ⟨m', ha, hs⟩ := h.extend m hm hp
      exact ⟨m', ha, (hsat m').2 ⟨(h.sound m' hs).1, .inr hs⟩⟩

/-- A loop of steps that encode conditions on the variables before all of them. -/
theorem foldl {α : Type*} {f : GInterface → α → GInterface} {R : α → Model → Prop} {n : Nat} :
    ∀ {l : List α} {g : GInterface}, (∀ a ∈ l, ∀ g, n ≤ g.nVars → Below g.nVars g.clauses →
      Encodes g (f g a) (R a)) → (∀ a ∈ l, Local n (R a)) → n ≤ g.nVars → Below g.nVars g.clauses →
      Encodes g (l.foldl f g) fun m => ∀ a ∈ l, R a m
  | [], _, _, _, _, hb => (refl hb).congr fun _ => by simp
  | a :: l, g, hf, hl, hn, hb => by
    have h := hf a List.mem_cons_self g hn hb
    have hrest : ∀ b ∈ l, Local n (R b) := fun b hb => hl b (List.mem_cons_of_mem a hb)
    have hloc : Local g.nVars fun m => ∀ b ∈ l, R b m := fun m m' hm =>
      forall₂_congr fun b hb => hrest b hb m m' fun v hv => hm v (hv.trans_le hn)
    exact (h.trans (foldl (fun b hb => hf b (List.mem_cons_of_mem a hb)) hrest (hn.trans h.le) h.below)
      hloc).congr fun _ => by simp

/-- **An encoding is conservative**: a model extends exactly when the encoded condition holds. -/
theorem iff (h : Encodes g g1 P) (hP : Local g.nVars P) {m : Model} (hm : Sat m g.clauses) :
    (∃ m', (∀ v < g.nVars, m' v = m v) ∧ Sat m' g1.clauses) ↔ P m := by
  constructor
  · intro hex
    obtain ⟨m', ha, hs⟩ := hex
    exact (hP m m' ha).1 (h.sound m' hs).2
  · exact h.extend m hm

end Encodes

/-- A variable on which all models agree that agree on the variables of the solver is one of them. -/
theorem lt_of_determined {g : GInterface} (hb : Below g.nVars g.clauses) {m : Model}
    (hm : Sat m g.clauses) {x : Nat} (hdet : ∀ m', Sat m' g.clauses →
      (∀ v < g.nVars, m' v = m v) → m' x = m x) : x < g.nVars := by
  by_contra hx
  -- otherwise the clauses do not mention it, and a model may flip it
  have hsame : ∀ v < g.nVars, (fun v => if v = x then !m v else m v) v = m v := fun v hv =>
    if_neg (by omega)
  have := hdet _ ((sat_congr hb hsame).2 hm) hsame
  simp at this

/-! ## What the encoders encode -/

/-- The values of a vector of variables. -/
def vectorValue (m : Model) (values : List Int) : List Bool := values.map fun x => m x.natAbs

theorem vectorValue_eq_iff {m : Model} : ∀ {values1 values2 : List Int},
    values1.length = values2.length →
      (vectorValue m values1 = vectorValue m values2 ↔
        ∀ p ∈ values1.zip values2, m p.1.natAbs = m p.2.natAbs)
  | [], [], _ => by simp [vectorValue]
  | a :: values1, b :: values2, h => by
    have ih := vectorValue_eq_iff (m := m) (Nat.succ.inj h)
    simp only [vectorValue] at ih
    simp [vectorValue, ih]

theorem vectorValue_local {n : Nat} {values : List Int} (h : ∀ x ∈ values, x.natAbs < n)
    {m m' : Model} (hm : ∀ v < n, m' v = m v) : vectorValue m' values = vectorValue m values :=
  List.map_congr_left fun x hx => hm _ (h x hx)

theorem genLit_of_lt {g : GInterface} {l : Int × Bool} (h : l.1.natAbs < g.nVars) :
    g.genLit l = g := by
  have hmax : max g.nVars (l.1.natAbs + 1) = g.nVars := max_eq_left h
  simp only [genLit, hmax]

theorem setXorOr_adds (g : GInterface) (a b x flag : Int) (pol : Bool) :
    Adds g (g.setXorOr a b x flag pol) fun m =>
      m flag.natAbs = pol ∨ m x.natAbs = (m a.natAbs != m b.natAbs) := by
  refine ((((addClause_adds g _).trans (addClause_adds _ _)).trans (addClause_adds _ _)).trans
    (addClause_adds _ _)).congr fun m => ?_
  simp only [List.mem_cons, List.not_mem_nil, or_false, exists_eq_or_imp, exists_eq_left]
  generalize m a.natAbs = p, m b.natAbs = q, m x.natAbs = r, m flag.natAbs = s
  revert p q r s pol
  decide

section
variable {g : GInterface} {values1 values2 : List Int} {flag : Int}
  (hb : Below g.nVars g.clauses) (hlen : values1.length = values2.length)

/-- The clauses of `thenNEQ` are those of `setNEqual` with the literal of the flag. -/
theorem thenNEQ_sat (pol : Bool) (hf : flag.natAbs < g.nVars) :
    Adds g (g.thenNEQ values1 values2 flag pol) fun m =>
      m flag.natAbs = pol ∨ ((∀ e ∈ (values1.zip values2).zipIdx,
        m (g.nVars + e.2) = (m e.1.1.natAbs != m e.1.2.natAbs)) ∧
      ∃ i < values1.length, m (g.nVars + i) = true) := by
  have hg : g.genLit (flag, true) = g := genLit_of_lt hf
  simp only [thenNEQ, hg]
  refine ((Adds.foldl (fun e _ g' => setXorOr_adds g' e.1.1 e.1.2
    ((g.nVars + e.2 : Nat) : Int) flag pol) g).trans (addClause_adds _ _)).congr fun m => ?_
  simp only [Int.natAbs_natCast, List.mem_append, List.mem_map, List.mem_range,
    List.mem_singleton, or_and_right, exists_or, exists_exists_and_eq_and, exists_eq_left]
  rw [forall_mem_or_left, or_and_left]
  exact and_congr_right fun _ => or_comm

include hb hlen

theorem setEquals_encodes : Encodes g (g.setEquals values1 values2) fun m =>
    vectorValue m values1 = vectorValue m values2 :=
  ((setEquals_adds g values1 values2).encodes hb).congr fun _ => (vectorValue_eq_iff hlen).symm

theorem thenEQ_encodes (pol : Bool) : Encodes g (g.thenEQ values1 values2 flag pol) fun m =>
    m flag.natAbs = pol ∨ vectorValue m values1 = vectorValue m values2 :=
  ((thenEQ_adds g values1 values2 flag pol).encodes hb).congr fun _ =>
    or_congr_right (vectorValue_eq_iff hlen).symm

variable (h1 : ∀ x ∈ values1, x.natAbs < g.nVars) (h2 : ∀ x ∈ values2, x.natAbs < g.nVars)
include h1 h2

theorem setNEqual_encodes : Encodes g (g.setNEqual values1 values2) fun m =>
    vectorValue m values1 ≠ vectorValue m values2 := by
  have hne : ∀ m, vectorValue m values1 ≠ vectorValue m values2 ↔
      ∃ p ∈ values1.zip values2, m p.1.natAbs ≠ m p.2.natAbs := fun m => by
    rw [Ne, vectorValue_eq_iff hlen]
    push Not
    exact Iff.rfl
  have hadds := setNEqual_adds g values1 values2
  refine ⟨hadds.le, hadds.below hb, fun m hm => ?_, fun m hm hd => ?_⟩
  · rw [hne]
    have hfst : (values1.zip values2).map Prod.fst = values1 := List.map_fst_zip hlen.le
    have hsnd : (values1.zip values2).map Prod.snd = values2 := List.map_snd_zip hlen.ge
    have hm' : Sat m (g.setNEqual ((values1.zip values2).map Prod.fst)
        ((values1.zip values2).map Prod.snd)).clauses := by
      rwa [hfst, hsnd]
    exact setNEqual_differ hm'
  · refine setNEqual_extend hb hm (fun p hp => ?_) ((hne m).1 hd)
    obtain ⟨hp1, hp2⟩ := List.of_mem_zip hp
    exact ⟨h1 _ hp1, h2 _ hp2⟩

theorem thenNEQ_encodes (pol : Bool) (hf : flag.natAbs < g.nVars) :
    Encodes g (g.thenNEQ values1 values2 flag pol) fun m =>
      m flag.natAbs = pol ∨ vectorValue m values1 ≠ vectorValue m values2 := by
  have hadds : Adds g (g.thenNEQ values1 values2 flag pol) _ := thenNEQ_sat pol hf
  refine (setNEqual_encodes hb hlen h1 h2).or hadds.le (hadds.below hb) fun m => ?_
  rw [hadds.sat, (setNEqual_adds g values1 values2).sat]
  constructor
  · intro h
    exact ⟨h.1, h.2.imp_right fun hx => ⟨h.1, hx⟩⟩
  · intro h
    exact ⟨h.1, h.2.imp_right And.right⟩

omit hb hlen in
/-- What is said of the flag and the two vectors reads only created variables. -/
theorem flag_local {R : Bool → List Bool → List Bool → Prop} (hf : flag.natAbs < g.nVars) :
    Local g.nVars fun m =>
      R (m flag.natAbs) (vectorValue m values1) (vectorValue m values2) := fun m m' hm => by
  show R (m' flag.natAbs) (vectorValue m' values1) (vectorValue m' values2) ↔ _
  rw [vectorValue_local h1 hm, vectorValue_local h2 hm, hm _ hf]

theorem ifTrueThenEQElseNEQ_encodes (hf : flag.natAbs < g.nVars) :
    Encodes g (g.ifTrueThenEQElseNEQ values1 values2 flag) fun m =>
      (m flag.natAbs = true ↔ vectorValue m values1 = vectorValue m values2) := by
  have heq : Encodes g (g.ifTrueThenEQ values1 values2 flag) _ := thenEQ_encodes hb hlen false
  have hlt : ∀ {x : Int}, x.natAbs < g.nVars →
    x.natAbs < (g.ifTrueThenEQ values1 values2 flag).nVars := fun hx => hx.trans_le heq.le
  have hne := thenNEQ_encodes heq.below hlen (fun x hx => hlt (h1 x hx))
    (fun x hx => hlt (h2 x hx)) true (hlt hf)
  refine (heq.trans hne (flag_local (R := fun b u v => b = true ∨ u ≠ v) h1 h2 hf)).congr
    fun m => ?_
  cases m flag.natAbs
  · simp
  · simp

theorem ifTrueThenNEQElseEQ_encodes (hf : flag.natAbs < g.nVars) :
    Encodes g (g.ifTrueThenNEQElseEQ values1 values2 flag) fun m =>
      (m flag.natAbs = true ↔ vectorValue m values1 ≠ vectorValue m values2) := by
  have hne : Encodes g (g.ifTrueThenNEQ values1 values2 flag) _ :=
    thenNEQ_encodes hb hlen h1 h2 false hf
  have heq : Encodes _ (g.ifTrueThenNEQElseEQ values1 values2 flag) _ :=
    thenEQ_encodes hne.below hlen true
  refine (hne.trans heq (flag_local (R := fun b u v => b = true ∨ u = v) h1 h2 hf)).congr
    fun m => ?_
  cases m flag.natAbs
  · simp
  · simp

end

/-! ## Calls on one solver -/

/-- The encoders, with the flag of those that have one. -/
inductive Encoder where
  | setEqual
  | setNEqual
  | ifTrueThenEQElseNEQ (flag : Int)
  | ifTrueThenNEQElseEQ (flag : Int)
  deriving DecidableEq

/-- A call of an encoder on two vectors of one length. -/
structure Call where
  encoder : Encoder
  values1 : List Int
  values2 : List Int
  length_eq : values1.length = values2.length

namespace Call

/-- The solver after the call. -/
def run (g : GInterface) (c : Call) : GInterface :=
  match c.encoder with
  | .setEqual => g.setEquals c.values1 c.values2
  | .setNEqual => g.setNEqual c.values1 c.values2
  | .ifTrueThenEQElseNEQ flag => g.ifTrueThenEQElseNEQ c.values1 c.values2 flag
  | .ifTrueThenNEQElseEQ flag => g.ifTrueThenNEQElseEQ c.values1 c.values2 flag

/-- What the call is for. -/
def Holds (m : Model) (c : Call) : Prop :=
  match c.encoder with
  | .setEqual => vectorValue m c.values1 = vectorValue m c.values2
  | .setNEqual => vectorValue m c.values1 ≠ vectorValue m c.values2
  | .ifTrueThenEQElseNEQ flag =>
    m flag.natAbs = true ↔ vectorValue m c.values1 = vectorValue m c.values2
  | .ifTrueThenNEQElseEQ flag =>
    m flag.natAbs = true ↔ vectorValue m c.values1 ≠ vectorValue m c.values2

/-- The variables of the call are among the first `n`. -/
structure Created (n : Nat) (c : Call) : Prop where
  values1 : ∀ x ∈ c.values1, x.natAbs < n
  values2 : ∀ x ∈ c.values2, x.natAbs < n
  flag : ∀ f, c.encoder = .ifTrueThenEQElseNEQ f ∨ c.encoder = .ifTrueThenNEQElseEQ f →
    f.natAbs < n

theorem Created.mono {n n' : Nat} {c : Call} (h : c.Created n) (hn : n ≤ n') : c.Created n' :=
  ⟨fun x hx => (h.values1 x hx).trans_le hn, fun x hx => (h.values2 x hx).trans_le hn,
    fun f hf => (h.flag f hf).trans_le hn⟩

theorem Created.holds_local {n : Nat} {c : Call} (h : c.Created n) :
    Local n fun m => c.Holds m := by
  intro m m' hm
  have hv1 := vectorValue_local h.values1 hm
  have hv2 := vectorValue_local h.values2 hm
  show c.Holds m' ↔ c.Holds m
  unfold Holds
  split
  · rw [hv1, hv2]
  · rw [hv1, hv2]
  · rename_i flag he
    rw [hv1, hv2, hm _ (h.flag flag (.inl he))]
  · rename_i flag he
    rw [hv1, hv2, hm _ (h.flag flag (.inr he))]

/-- One call encodes what it is for. -/
theorem run_encodes {g : GInterface} {c : Call} (hb : Below g.nVars g.clauses)
    (hc : c.Created g.nVars) : Encodes g (c.run g) fun m => c.Holds m := by
  unfold run Holds
  split
  · exact setEquals_encodes hb c.length_eq
  · exact setNEqual_encodes hb c.length_eq hc.values1 hc.values2
  · rename_i flag he
    exact ifTrueThenEQElseNEQ_encodes hb c.length_eq hc.values1 hc.values2 (hc.flag flag (.inl he))
  · rename_i flag he
    exact ifTrueThenNEQElseEQ_encodes hb c.length_eq hc.values1 hc.values2 (hc.flag flag (.inr he))

/-- Calls one after the other encode the conjunction. -/
theorem runs_encodes : ∀ {calls : List Call} {g : GInterface}, Below g.nVars g.clauses →
    (∀ c ∈ calls, c.Created g.nVars) →
      Encodes g (calls.foldl run g) fun m => ∀ c ∈ calls, c.Holds m
  | [], _, hb, _ => (Encodes.refl hb).congr (by simp)
  | c :: calls, g, hb, hc => by
    have h := run_encodes hb (hc c (by simp))
    have hrest : ∀ c' ∈ calls, c'.Created g.nVars := fun c' hc' => hc c' (by simp [hc'])
    have ih := @runs_encodes calls _ h.below fun c' hc' => (hrest c' hc').mono h.le
    have hlocal : Local g.nVars fun m => ∀ c' ∈ calls, c'.Holds m := fun m m' hm =>
      forall₂_congr fun c' hc' => (hrest c' hc').holds_local m m' hm
    exact (h.trans ih hlocal).congr fun m => by simp

end Call

/-- **The encoders are conservative.** After any calls on a solver, over its variables, exactly the
models that satisfy what each call is for extend to the new variables. The clauses are again over
the variables of the solver, so this holds of the calls that follow too. -/
theorem encoders_conservative {g : GInterface} (hb : Below g.nVars g.clauses) {calls : List Call}
    (hc : ∀ c ∈ calls, c.Created g.nVars) :
    Below (calls.foldl Call.run g).nVars (calls.foldl Call.run g).clauses ∧
      ∀ m, Sat m g.clauses →
        ((∃ m', (∀ v < g.nVars, m' v = m v) ∧ Sat m' (calls.foldl Call.run g).clauses) ↔
          ∀ c ∈ calls, c.Holds m) := by
  have h := Call.runs_encodes hb hc
  refine ⟨h.below, fun m hm => h.iff (fun m m' ha => ?_) hm⟩
  exact forall₂_congr fun c hcm => (hc c hcm).holds_local m m' ha

/-- Two calls with one flag, the first with a position that names one variable twice. -/
theorem encoders_conservative_two :
    let g : GInterface := ⟨3, [[(0, true), (1, false)]]⟩
    let calls : List Call :=
      [⟨.ifTrueThenNEQElseEQ 2, [0, 1], [1, 1], rfl⟩, ⟨.setNEqual, [2], [0], rfl⟩]
    ∀ m, Sat m g.clauses →
      ((∃ m', (∀ v < g.nVars, m' v = m v) ∧ Sat m' (calls.foldl Call.run g).clauses) ↔
        ∀ c ∈ calls, c.Holds m) :=
  (encoders_conservative (by unfold Below; decide) fun c hc => by
    rcases List.mem_cons.1 hc with rfl | hc
    · exact ⟨by simp, by simp, by simp⟩
    · rw [List.mem_singleton.1 hc]
      exact ⟨by simp, by simp, by simp⟩).2

end GInterface

end Msyn.Glucose
