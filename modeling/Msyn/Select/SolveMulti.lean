import Mathlib.Data.Nat.Bitwise
import Msyn.Select.JointOnSet

/-!
# The patterns of solve_multi

The constructor of `getDC` for several targets puts `pow(2, t_num - 1)` copies of the implementation
into the solver: the first target is at 0 in all of them, and the bits of the number of a copy are
the values of the others. In each copy the outputs must differ from those of the specification. So
`solve_multi` finds the patterns that occur where the first target must be 1, whatever the others
are (`found_iff`), and ends with all of them exactly if `removed_cases` tells them apart
(`solveMulti_complete_iff`).
-/

namespace Msyn.DC.GetDC

open Nodecircuit Circuit Cnf CNFgen Glucose GInterface MergeSelection

/-! ## The constructor and the loop -/

section
variable (fcnf gcnf : CNFGenerator) (c : Circuit) (t0 : NodeId) (ts signals : List NodeId)

/-- `pow(2, t_num - 1)` for the targets `t0 :: ts`; `targets->at(0)` throws if there are none. -/
def copies : Nat := 2 ^ ts.length

/-- The clauses for the targets in a copy: bit `j - 1` of `i` for `targets->at(j)`. -/
def fixTargets (main : GInterface) (i : Nat) : GInterface :=
  let main := main.addClause [(idx fcnf c t0 + ((i * fcnf.numVars : Nat) : Int), false)]
  (ts.foldl (fun (r : GInterface × Nat) t =>
    (r.1.addClause [(idx fcnf c t + ((i * fcnf.numVars : Nat) : Int), decide (r.2 % 2 ≠ 0))],
      r.2 / 2)) (main, i)).1

/-- One round of the loop over the inputs. -/
def tieCopies (main : GInterface) (pin : NodeId) : GInterface :=
  let main := (List.range' 1 (copies ts - 1)).foldl (fun main i =>
    main.setEqual (idx fcnf c pin) (idx fcnf c pin + ((fcnf.numVars * i : Nat) : Int))) main
  main.setEqual (idx fcnf c pin)
    (gcnf.getIndex (c.node pin).name + ((fcnf.numVars * copies ts : Nat) : Int))

def outsSpec : List Int := c.outputs.map fun pout =>
  gcnf.getIndex (c.node pout).name + ((fcnf.numVars * copies ts : Nat) : Int)

def outsCopy (i : Nat) : List Int := c.outputs.map fun pout =>
  idx fcnf c pout + ((fcnf.numVars * i : Nat) : Int)

/-- `main` up to the outputs that must differ. -/
def multiBase : GInterface :=
  let main := (List.range (copies ts)).foldl (fun main i =>
    main.addCNF fcnf ((fcnf.numVars * i : Nat) : Int)) ({} : GInterface)
  let main := main.addCNF gcnf ((fcnf.numVars * copies ts : Nat) : Int)
  let main := (List.range (copies ts)).foldl (fixTargets fcnf c t0 ts) main
  c.inputs.foldl (tieCopies fcnf gcnf c ts) main

def makeMulti : GInterface :=
  (List.range (copies ts)).foldl (fun main i =>
    main.setNEqual (outsCopy fcnf c i) (outsSpec fcnf gcnf c ts)) (multiBase fcnf gcnf c t0 ts)

variable (solver : Nat → Solve) (alarm : Nat → Bool)

/-- One iteration of `solve_multi`; the alarm ends the loop as an unsatisfiable answer does. -/
def multiStep (st : State) : State ⊕ State :=
  let i := st.calls
  let st := { st with calls := i + 1 }
  match if alarm i then none else solver i st.main.clauses [] with
  | none => .inr st
  | some m => .inl (removeCase fcnf c signals st (newPattern fcnf c signals m) .in2)

/-- `solve_multi` with a bound on the number of iterations. -/
def solveMulti (fuel : Nat) : Option State :=
  loop (multiStep fcnf c signals solver alarm) fuel
    { main := makeMulti fcnf gcnf c t0 ts, check := {} }

/-- What the constructor relies on: the index maps know the names, the outputs are functions of the
primary inputs and the targets, and the signals of the primary inputs. -/
structure Setting : Prop extends SettingMulti fcnf gcnf c (t0 :: ts) signals where
  detSpec : ∀ s s', Sat s gcnf.cnf → Sat s' gcnf.cnf →
    (∀ pi ∈ c.inputs, s (varOf c gcnf pi) = s' (varOf c gcnf pi)) →
    ∀ po ∈ c.outputs, s (varOf c gcnf po) = s' (varOf c gcnf po)

/-- Models of the copies of the implementation and one of the specification. -/
structure Copies (ms : Nat → Model) (s : Model) : Prop where
  sat : ∀ i < copies ts, Sat (ms i) fcnf.cnf
  satS : Sat s gcnf.cnf
  first : ∀ i < copies ts, ms i (varOf c fcnf t0) = false
  others : ∀ i < copies ts, ∀ j (hj : j < ts.length), ms i (varOf c fcnf ts[j]) = i.testBit j
  inputs : ∀ pi ∈ c.inputs, (∀ i < copies ts, ms 0 (varOf c fcnf pi) = ms i (varOf c fcnf pi)) ∧
    ms 0 (varOf c fcnf pi) = s (varOf c gcnf pi)

/-- No values of the other targets make the first one right at 0 where the pattern occurs. -/
def Found (p : Pattern) : Prop :=
  ∃ ms s, Copies fcnf gcnf c t0 ts ms s ∧ (∀ i < copies ts, ¬SameOutputs fcnf gcnf c (ms i) s) ∧
    p = patternAt fcnf c signals (ms 0)

end

/-! ## The formula -/

section
variable {fcnf gcnf : CNFGenerator} {c : Circuit} {t0 : NodeId} {ts signals : List NodeId}
  (h : Setting fcnf gcnf c t0 ts signals)
include h

omit h in
theorem copies_pos (ts : List NodeId) : 0 < copies ts := Nat.two_pow_pos _

theorem Setting.natAbs {n : NodeId} (hn : n ∈ c.inputs ++ c.outputs ++ t0 :: ts ++ signals)
    (k : Nat) : (idx fcnf c n + (k : Int)).natAbs = varOf c fcnf n + k :=
  natAbs_of_known (h.known n hn) k

theorem Setting.natAbs_zero {n : NodeId} (hn : n ∈ c.inputs ++ c.outputs ++ t0 :: ts ++ signals) :
    (idx fcnf c n).natAbs = varOf c fcnf n := (h.toSettingMulti.natAbs hn).1

theorem Setting.natAbs_spec {n : NodeId} (hn : n ∈ c.inputs ++ c.outputs) (k : Nat) :
    (gcnf.getIndex (c.node n).name + (k : Int)).natAbs = varOf c gcnf n + k :=
  (h.knownSpec n hn).natAbs_add _

theorem Setting.lt {n : NodeId} (hn : n ∈ c.inputs ++ c.outputs ++ t0 :: ts ++ signals) :
    varOf c fcnf n < fcnf.numVars := (h.known n hn).1.lt

theorem fixTargets_adds (g : GInterface) (i : Nat) : Adds g (fixTargets fcnf c t0 ts g i) fun m =>
    m (varOf c fcnf t0 + fcnf.numVars * i) = false ∧
      ∀ j (hj : j < ts.length), m (varOf c fcnf ts[j] + fcnf.numVars * i) = i.testBit j := by
  have hclause : ∀ (g : GInterface) (b : Bool) {t : NodeId}, t ∈ t0 :: ts →
      Adds g (g.addClause [(idx fcnf c t + ((i * fcnf.numVars : Nat) : Int), b)]) fun m =>
        m (varOf c fcnf t + fcnf.numVars * i) = b := by
    intro g b t ht
    apply (addClause_adds g _).congr
    intro m
    simp only [List.mem_singleton, exists_eq_left]
    rw [h.natAbs (n := t) (List.mem_append_left _ (List.mem_append_right _ ht)), Nat.mul_comm]
  -- the rest of the number gives the values of the rest of the targets
  have key : ∀ (l : List NodeId), (∀ t ∈ l, t ∈ t0 :: ts) → ∀ (g : GInterface) (temp : Nat),
      Adds g (l.foldl (fun (r : GInterface × Nat) t =>
        (r.1.addClause [(idx fcnf c t + ((i * fcnf.numVars : Nat) : Int), decide (r.2 % 2 ≠ 0))],
          r.2 / 2)) (g, temp)).1 fun m =>
        ∀ j (hj : j < l.length), m (varOf c fcnf l[j] + fcnf.numVars * i) = temp.testBit j := by
    intro l
    induction l with
    | nil => exact fun _ g _ => (Adds.refl g).congr fun m => by simp
    | cons t l ih =>
      intro hl g temp
      have hstep := hclause g (decide (temp % 2 ≠ 0)) (hl t List.mem_cons_self)
      apply (hstep.trans (ih (fun u hu => hl u (List.mem_cons_of_mem _ hu)) _ (temp / 2))).congr
      intro m
      have hbit : decide (temp % 2 ≠ 0) = temp.testBit 0 := by
        rw [Nat.testBit_zero]
        simp
      constructor
      · intro hm j hj
        cases j with
        | zero => exact hm.1.trans hbit
        | succ j => rw [Nat.testBit_succ]; exact hm.2 j (Nat.lt_of_succ_lt_succ hj)
      · intro hm
        refine ⟨(hm 0 (Nat.succ_pos _)).trans hbit.symm, fun j hj => ?_⟩
        rw [← Nat.testBit_succ]
        exact hm (j + 1) (Nat.succ_lt_succ hj)
  exact (hclause g false List.mem_cons_self).trans
    (key ts (fun t ht => List.mem_cons_of_mem _ ht) _ i)

theorem tieCopies_adds (g : GInterface) {pin : NodeId} (hpin : pin ∈ c.inputs) :
    Adds g (tieCopies fcnf gcnf c ts g pin) fun m =>
      (∀ i < copies ts, m (varOf c fcnf pin) = m (varOf c fcnf pin + fcnf.numVars * i)) ∧
        m (varOf c fcnf pin) = m (varOf c gcnf pin + fcnf.numVars * copies ts) := by
  have hmem : pin ∈ c.inputs ++ c.outputs ++ t0 :: ts ++ signals := by simp [hpin]
  apply ((Adds.foldl (l := List.range' 1 (copies ts - 1)) (f := fun main i =>
    main.setEqual (idx fcnf c pin) (idx fcnf c pin + ((fcnf.numVars * i : Nat) : Int)))
    (fun i _ g => setEqual_adds g _ _) g).trans (setEqual_adds _ _ _)).congr
  intro m
  have hpos := copies_pos ts
  simp only [h.natAbs_zero hmem, h.natAbs hmem, h.natAbs_spec (n := pin) (by simp [hpin]),
    List.mem_range'_1]
  refine and_congr_left fun _ => ⟨fun hm i hi => ?_, fun hm i hi => hm i (by omega)⟩
  rcases Nat.eq_zero_or_pos i with rfl | h0
  · rfl
  · exact hm i (by omega)

/-- The models before the outputs are compared. -/
theorem multiBase_adds : Adds {} (multiBase fcnf gcnf c t0 ts) fun m =>
    Copies fcnf gcnf c t0 ts (fun i v => m (v + fcnf.numVars * i))
      fun v => m (v + fcnf.numVars * copies ts) := by
  apply ((((Adds.foldl (l := List.range (copies ts)) (f := fun main i =>
      main.addCNF fcnf ((fcnf.numVars * i : Nat) : Int)) (fun i _ g => addCNF_adds g fcnf _) {}).trans
    (addCNF_adds _ gcnf (fcnf.numVars * copies ts))).trans
    (Adds.foldl (f := fixTargets fcnf c t0 ts) (fun i _ g => fixTargets_adds h g i) _)).trans
    (Adds.foldl (f := tieCopies fcnf gcnf c ts) (fun pin hpin g => tieCopies_adds h g hpin) _)).congr
  intro m
  simp only [List.mem_range]
  constructor
  · rintro ⟨⟨⟨h1, h2⟩, h3⟩, h4⟩
    exact ⟨h1, h2, fun i hi => (h3 i hi).1, fun i hi => (h3 i hi).2, fun pi hpi => by
      simpa using h4 pi hpi⟩
  · intro hc
    exact ⟨⟨⟨hc.sat, hc.satS⟩, fun i hi => ⟨hc.first i hi, hc.others i hi⟩⟩, fun pi hpi => by
      simpa using hc.inputs pi hpi⟩

theorem multiBase_below :
    Below (multiBase fcnf gcnf c t0 ts).nVars (multiBase fcnf gcnf c t0 ts).clauses :=
  (multiBase_adds h).below fun _ hcl => (by cases hcl)

omit h in
/-- The models of the copies side by side, and behind them that of the specification. -/
def sideBySide (n k : Nat) (ms : Nat → Model) (s : Model) : Model := fun v =>
  if v < n * k then ms (v / n) (v % n) else s (v - n * k)

omit h in
theorem sideBySide_copy {n k i v : Nat} (ms : Nat → Model) (s : Model) (hv : v < n) (hi : i < k) :
    sideBySide n k ms s (v + n * i) = ms i v := by
  have hlt : v + n * i < n * k := by
    calc v + n * i < n + n * i := Nat.add_lt_add_right hv _
      _ = n * (i + 1) := by rw [Nat.mul_add_one, Nat.add_comm]
      _ ≤ n * k := Nat.mul_le_mul_left n hi
  rw [sideBySide, if_pos hlt, Nat.add_mul_div_left v i (Nat.zero_lt_of_lt hv), Nat.div_eq_of_lt hv,
    Nat.zero_add, Nat.add_mul_mod_self_left, Nat.mod_eq_of_lt hv]

omit h in
theorem sideBySide_spec (n k : Nat) (ms : Nat → Model) (s : Model) (v : Nat) :
    sideBySide n k ms s (v + n * k) = s v := by
  rw [sideBySide, if_neg (Nat.not_lt.2 (Nat.le_add_left _ _)), Nat.add_sub_cancel]

theorem multiBase_sat {ms : Nat → Model} {s : Model} (hc : Copies fcnf gcnf c t0 ts ms s) :
    Sat (sideBySide fcnf.numVars (copies ts) ms s) (multiBase fcnf gcnf c t0 ts).clauses := by
  have hcopy : ∀ i < copies ts, ∀ v < fcnf.numVars,
      sideBySide fcnf.numVars (copies ts) ms s (v + fcnf.numVars * i) = ms i v := fun i hi v hv =>
    sideBySide_copy ms s hv hi
  have hpin : ∀ pi ∈ c.inputs, ∀ i < copies ts,
      sideBySide fcnf.numVars (copies ts) ms s (varOf c fcnf pi + fcnf.numVars * i) =
        ms i (varOf c fcnf pi) := fun pi hpi i hi =>
    hcopy i hi _ (h.lt (n := pi) (by simp [hpi]))
  apply ((multiBase_adds h).sat _).2
  refine ⟨sat_nil _, fun i hi => ?_, ?_, fun i hi => ?_, fun i hi j hj => ?_, fun pi hpi => ⟨?_, ?_⟩⟩
  · exact (sat_congr h.below (hcopy i hi)).2 (hc.sat i hi)
  · simp only [sideBySide_spec]
    exact hc.satS
  · exact (hcopy i hi _ (h.lt (n := t0) (by simp))).trans (hc.first i hi)
  · exact (hcopy i hi _ (h.lt (n := ts[j]) (by simp))).trans (hc.others i hi j hj)
  · intro i hi
    simp only [hpin pi hpi 0 (copies_pos ts), hpin pi hpi i hi]
    exact (hc.inputs pi hpi).1 i hi
  · simp only [hpin pi hpi 0 (copies_pos ts), sideBySide_spec]
    exact (hc.inputs pi hpi).2

/-- The inputs are variables of the solver. -/
theorem multiBase_lt {pi : NodeId} (hpi : pi ∈ c.inputs) :
    varOf c fcnf pi < (multiBase fcnf gcnf c t0 ts).nVars ∧
      varOf c gcnf pi + fcnf.numVars * copies ts < (multiBase fcnf gcnf c t0 ts).nVars := by
  have hmem : pi ∈ c.inputs ++ c.outputs ++ t0 :: ts ++ signals := by simp [hpi]
  have e1 := h.natAbs_zero hmem
  have e2 := h.natAbs_spec (n := pi) (by simp [hpi]) (fcnf.numVars * copies ts)
  have hle : fcnf.numVars ≤ fcnf.numVars * copies ts := Nat.le_mul_of_pos_right _ (copies_pos ts)
  have hne : idx fcnf c pi ≠
      gcnf.getIndex (c.node pi).name + ((fcnf.numVars * copies ts : Nat) : Int) := by
    have := h.lt hmem
    omega
  have hround : ∀ g : GInterface, varOf c fcnf pi < (tieCopies fcnf gcnf c ts g pi).nVars ∧
      varOf c gcnf pi + fcnf.numVars * copies ts < (tieCopies fcnf gcnf c ts g pi).nVars := by
    intro g
    rw [← e1, ← e2]
    exact setEqual_lt hne
  have hmono : ∀ b ∈ c.inputs, ∀ g : GInterface,
      g.nVars ≤ (tieCopies fcnf gcnf c ts g b).nVars := fun b hb g => (tieCopies_adds h g hb).le
  exact ⟨foldl_lt hmono hpi (fun g => (hround g).1) _, foldl_lt hmono hpi (fun g => (hround g).2) _⟩

/-- So are the outputs of all copies, which the inputs and the targets determine. -/
theorem multiBase_lt_out {m : Model} (hm : Sat m (multiBase fcnf gcnf c t0 ts).clauses) {po : NodeId}
    (hpo : po ∈ c.outputs) :
    (∀ i < copies ts, varOf c fcnf po + fcnf.numVars * i < (multiBase fcnf gcnf c t0 ts).nVars) ∧
      varOf c gcnf po + fcnf.numVars * copies ts < (multiBase fcnf gcnf c t0 ts).nVars := by
  have hcopies := fun m' hm' => (((multiBase_adds h).sat m').1 hm').2
  have hc := hcopies m hm
  -- the inputs of a copy are those of the first
  have hin : ∀ m' : Model, Sat m' (multiBase fcnf gcnf c t0 ts).clauses →
      (∀ v < (multiBase fcnf gcnf c t0 ts).nVars, m' v = m v) → ∀ pi ∈ c.inputs, ∀ i < copies ts,
        m' (varOf c fcnf pi + fcnf.numVars * i) = m (varOf c fcnf pi + fcnf.numVars * i) := by
    intro m' hm' hag pi hpi i hi
    have h1 := ((hcopies m' hm').inputs pi hpi).1 i hi
    have h2 := (hc.inputs pi hpi).1 i hi
    simp only [Nat.mul_zero, Nat.add_zero] at h1 h2
    rw [← h1, ← h2]
    exact hag _ (multiBase_lt h hpi).1
  constructor
  · intro i hi
    apply lt_of_determined (multiBase_below h) hm
    intro m' hm' hag
    have hc' := hcopies m' hm'
    apply h.det _ _ (hc'.sat i hi) (hc.sat i hi) (fun pi hpi => hin m' hm' hag pi hpi i hi) _ po hpo
    intro t ht
    rcases List.mem_cons.1 ht with rfl | ht
    · exact (hc'.first i hi).trans (hc.first i hi).symm
    · obtain ⟨j, hj, rfl⟩ := List.getElem_of_mem ht
      exact (hc'.others i hi j hj).trans (hc.others i hi j hj).symm
  · apply lt_of_determined (multiBase_below h) hm
    intro m' hm' hag
    exact h.detSpec _ _ (hcopies m' hm').satS hc.satS (fun pi hpi => hag _ (multiBase_lt h hpi).2) po hpo

theorem outs_differ (m : Model) (i : Nat) :
    vectorValue m (outsCopy fcnf c i) ≠ vectorValue m (outsSpec fcnf gcnf c ts) ↔
      ¬SameOutputs fcnf gcnf c (fun v => m (v + fcnf.numVars * i))
        fun v => m (v + fcnf.numVars * copies ts) := by
  rw [Ne, vectorValue_eq_iff (by simp [outsCopy, outsSpec]), outsCopy, outsSpec, List.zip_map',
    List.forall_mem_map]
  refine not_congr (forall₂_congr fun po hpo => ?_)
  rw [h.natAbs (n := po) (by simp [hpo]), h.natAbs_spec (by simp [hpo])]

/-- The comparisons of the outputs, once the copies have a model. -/
theorem makeMulti_encodes {m : Model} (hm : Sat m (multiBase fcnf gcnf c t0 ts).clauses) :
    Encodes (multiBase fcnf gcnf c t0 ts) (makeMulti fcnf gcnf c t0 ts) fun m => ∀ i ∈
      List.range (copies ts), vectorValue m (outsCopy fcnf c i) ≠ vectorValue m (outsSpec fcnf gcnf c ts) := by
  have hspec : ∀ x ∈ outsSpec fcnf gcnf c ts, x.natAbs < (multiBase fcnf gcnf c t0 ts).nVars := by
    intro x hx
    obtain ⟨po, hpo, rfl⟩ := List.mem_map.1 hx
    rw [h.natAbs_spec (n := po) (by simp [hpo])]
    exact (multiBase_lt_out h hm hpo).2
  have hcopy : ∀ i ∈ List.range (copies ts), ∀ x ∈ outsCopy fcnf c i,
      x.natAbs < (multiBase fcnf gcnf c t0 ts).nVars := by
    intro i hi x hx
    obtain ⟨po, hpo, rfl⟩ := List.mem_map.1 hx
    rw [h.natAbs (n := po) (by simp [hpo])]
    exact (multiBase_lt_out h hm hpo).1 i (List.mem_range.1 hi)
  refine Encodes.foldl (n := (multiBase fcnf gcnf c t0 ts).nVars) (fun i hi g hg hb => ?_)
    (fun i hi m m' hm => ?_) le_rfl (multiBase_below h)
  · exact setNEqual_encodes hb (by simp [outsCopy, outsSpec])
      (fun x hx => (hcopy i hi x hx).trans_le hg) fun x hx => (hspec x hx).trans_le hg
  · rw [vectorValue_local (hcopy i hi) hm, vectorValue_local hspec hm]

/-- The models of the solver show what is found. -/
theorem found_of_model {m : Model} (hm : Sat m (makeMulti fcnf gcnf c t0 ts).clauses) :
    Found fcnf gcnf c t0 ts signals (newPattern fcnf c signals m) := by
  -- the comparisons only add clauses
  have hback : ∀ (l : List Nat) (g : GInterface), Sat m (l.foldl (fun main i =>
      main.setNEqual (outsCopy fcnf c i) (outsSpec fcnf gcnf c ts)) g).clauses → Sat m g.clauses := by
    intro l
    induction l with
    | nil => exact fun _ => id
    | cons i l ih => exact fun g hg => (((setNEqual_adds g _ _).sat m).1 (ih _ hg)).1
  have hbase := hback _ _ hm
  obtain ⟨-, hne⟩ := (makeMulti_encodes h hbase).sound m hm
  refine ⟨_, _, (((multiBase_adds h).sat m).1 hbase).2, fun i hi => (outs_differ h m i).1
    (hne i (List.mem_range.2 hi)), OrdMap.tabulate_inj.2 fun sig hsig => ?_⟩
  rw [h.natAbs_zero (n := sig) (by simp [hsig])]
  rfl

theorem model_of_found {p : Pattern} (hp : Found fcnf gcnf c t0 ts signals p) :
    ∃ m, Sat m (makeMulti fcnf gcnf c t0 ts).clauses ∧ newPattern fcnf c signals m = p := by
  obtain ⟨ms, s, hc, hne, rfl⟩ := hp
  have hbase := multiBase_sat h hc
  have hdiff : ∀ i ∈ List.range (copies ts),
      vectorValue (sideBySide fcnf.numVars (copies ts) ms s) (outsCopy fcnf c i) ≠
        vectorValue (sideBySide fcnf.numVars (copies ts) ms s) (outsSpec fcnf gcnf c ts) := by
    intro i hi
    rw [outs_differ h]
    refine fun hsame => hne i (List.mem_range.1 hi) fun po hpo => ?_
    have := hsame po hpo
    simp only at this
    rwa [sideBySide_spec, sideBySide_copy ms s (h.lt (n := po) (by simp [hpo]))
      (List.mem_range.1 hi)] at this
  obtain ⟨m, hag, hm⟩ := (makeMulti_encodes h hbase).extend _ hbase hdiff
  refine ⟨m, hm, OrdMap.tabulate_inj.2 fun sig hsig => ?_⟩
  rw [h.natAbs_zero (n := sig) (by simp [hsig])]
  -- the signals are functions of the inputs
  have hcm := ((multiBase_adds h).sat m).1 ((makeMulti_encodes h hbase).sound m hm).1 |>.2
  apply h.free m (ms 0) (hcm.sat 0 (copies_pos ts)) (hc.sat 0 (copies_pos ts)) _ sig hsig
  intro pi hpi
  rw [hag _ (multiBase_lt h hpi).1]
  exact sideBySide_copy ms s (h.lt (n := pi) (by simp [hpi])) (copies_pos ts)

/-! ## The loop -/

/-- The invariant at the head of the loop. -/
structure Inv (fcnf gcnf : CNFGenerator) (c : Circuit) (t0 : NodeId) (ts signals : List NodeId)
    (st : State) : Prop where
  main : ∀ m, Sat m st.main.clauses ↔ Sat m (makeMulti fcnf gcnf c t0 ts).clauses ∧
    newPattern fcnf c signals m ∉ st.in2cases
  found : ∀ p ∈ st.in2cases, Found fcnf gcnf c t0 ts signals p
  codes : ∀ k, k ∈ st.removedCases ↔ ∃ p ∈ st.in2cases, curCase signals p = k
  nodup : (st.in2cases.map (curCase signals)).Nodup
  in1cases : st.in1cases = []

omit h in
theorem Inv.start : Inv fcnf gcnf c t0 ts signals
    { main := makeMulti fcnf gcnf c t0 ts, check := {} } where
  main m := by simp
  found p hp := absurd hp List.not_mem_nil
  codes k := by simp
  nodup := List.nodup_nil
  in1cases := rfl

omit h in
theorem Found.over {p : Pattern} (hp : Found fcnf gcnf c t0 ts signals p) : Over signals p := by
  obtain ⟨ms, s, -, -, rfl⟩ := hp
  exact ⟨_, rfl⟩

omit h in
/-- **`removeCase`** of a pattern that is found. -/
theorem Inv.record {st : State} (hi : Inv fcnf gcnf c t0 ts signals st) {m : Model}
    (hp : Found fcnf gcnf c t0 ts signals (newPattern fcnf c signals m)) :
    Inv fcnf gcnf c t0 ts signals
        (removeCase fcnf c signals st (newPattern fcnf c signals m) .in2) ∧
      (curCase signals (newPattern fcnf c signals m) ∉ st.removedCases →
        (removeCase fcnf c signals st (newPattern fcnf c signals m) .in2).in2cases =
          st.in2cases ++ [newPattern fcnf c signals m]) := by
  by_cases hk : curCase signals (newPattern fcnf c signals m) ∈ st.removedCases
  · rw [removeCase, if_pos hk]
    exact ⟨hi, fun hn => absurd hk hn⟩
  have hfolder : OrdMap.tabulate signals (newPattern fcnf c signals m).at =
      newPattern fcnf c signals m := OrdMap.tabulate_inj.2 fun _ hsig => Pattern.at_tabulate hsig
  rw [removeCase, if_neg hk, hfolder]
  refine ⟨⟨fun m' => ?_, fun p hp' => ?_, fun k => ?_, ?_, hi.in1cases⟩, fun _ => rfl⟩
  · -- the clause excludes the pattern
    have hne : newPattern fcnf c signals m' ≠ newPattern fcnf c signals m ↔ ∃ sig ∈ signals,
        m' (idx fcnf c sig).natAbs ≠ m (idx fcnf c sig).natAbs := by
      rw [newPattern, newPattern, Ne, OrdMap.tabulate_inj]
      push Not
      rfl
    rw [(addClause_adds _ _).sat, hi.main, List.mem_append, List.mem_singleton, not_or, and_assoc,
      ← Ne, hne]
    refine and_congr_right fun _ => and_congr_right fun _ => ?_
    simp only [List.mem_map, exists_exists_and_eq_and]
    refine exists_congr fun sig => and_congr_right fun hsig => ?_
    rw [newPattern, Pattern.at_tabulate hsig]
    cases m' (idx fcnf c sig).natAbs <;> cases m (idx fcnf c sig).natAbs <;> simp
  · rcases List.mem_append.1 hp' with hp' | hp'
    · exact hi.found p hp'
    · exact List.mem_singleton.1 hp' ▸ hp
  · rw [OrdSet.mem_insert, hi.codes]
    simp only [List.mem_append, List.mem_singleton, or_and_right, exists_or, exists_eq_left]
    rw [or_comm, eq_comm (a := k)]
  · rw [List.map_append, List.map_singleton]
    refine List.nodup_append.2 ⟨hi.nodup, List.nodup_singleton _, fun a ha b hb he => hk ?_⟩
    obtain ⟨p, hp', rfl⟩ := List.mem_map.1 ha
    exact (hi.codes _).2 ⟨p, hp', he.trans (List.mem_singleton.1 hb)⟩

/-- **One iteration** records the pattern of a model, or leaves the loop. -/
theorem multiStep_spec {solver : Nat → Solve} {alarm : Nat → Bool} (hex : ∀ i, Exact (solver i))
    {st : State} (hi : Inv fcnf gcnf c t0 ts signals st) :
    (∀ st', multiStep fcnf c signals solver alarm st = .inl st' →
      Inv fcnf gcnf c t0 ts signals st' ∧ ∃ p, Found fcnf gcnf c t0 ts signals p ∧
        p ∉ st.in2cases ∧ (curCase signals p ∉ st.removedCases → st'.in2cases = st.in2cases ++ [p])) ∧
    ∀ st', multiStep fcnf c signals solver alarm st = .inr st' →
      Inv fcnf gcnf c t0 ts signals st' ∧
        (alarm st.calls = false → ¬∃ m, Sat m st'.main.clauses) := by
  have hi1 : Inv fcnf gcnf c t0 ts signals { st with calls := st.calls + 1 } :=
    ⟨hi.main, hi.found, hi.codes, hi.nodup, hi.in1cases⟩
  have hans := hex st.calls st.main.clauses []
  unfold multiStep
  simp only
  cases hs : if alarm st.calls then none else solver st.calls st.main.clauses [] with
  | none =>
    refine ⟨fun st' hc => (by cases hc), fun st' hst' => ?_⟩
    cases hst'
    refine ⟨hi1, fun ha hm => ?_⟩
    rw [ha, if_neg Bool.false_ne_true] at hs
    rw [hs] at hans
    obtain ⟨m, hm⟩ := hm
    exact hans ⟨m, hm, holds_nil m⟩
  | some m =>
    have hm : Sat m st.main.clauses := by
      cases ha : alarm st.calls with
      | true =>
        rw [ha, if_pos rfl] at hs
        cases hs
      | false =>
        rw [ha, if_neg Bool.false_ne_true] at hs
        rw [hs] at hans
        exact hans.1
    obtain ⟨h1, h2⟩ := (hi.main m).1 hm
    have hp := found_of_model h h1
    obtain ⟨h3, h4⟩ := hi1.record hp
    refine ⟨fun st' hst' => ?_, fun st' hc => (by cases hc)⟩
    cases hst'
    exact ⟨h3, _, hp, h2, h4⟩

/-- When the solver has no model left everything was recorded. -/
theorem Inv.all {st : State} (hi : Inv fcnf gcnf c t0 ts signals st)
    (hun : ¬∃ m, Sat m st.main.clauses) {p : Pattern} (hp : Found fcnf gcnf c t0 ts signals p) :
    p ∈ st.in2cases := by
  by_contra hnot
  obtain ⟨m, h1, rfl⟩ := model_of_found h hp
  exact hun ⟨m, (hi.main m).2 ⟨h1, hnot⟩⟩

/-- **`solve_multi` ends with what is found**, each pattern once, if the codes tell them apart. -/
theorem solveMulti_total {solver : Nat → Solve} (hex : ∀ i, Exact (solver i))
    (hk : ∀ p q, Found fcnf gcnf c t0 ts signals p → Found fcnf gcnf c t0 ts signals q →
      (∀ sig ∈ signals.drop (signals.length - 32), p.at sig = q.at sig) → p = q) :
    ∃ fuel st, solveMulti fcnf gcnf c t0 ts signals solver (fun _ => false) fuel = some st ∧
      st.in1cases = [] ∧ st.in2cases.Nodup ∧
      ∀ p, p ∈ st.in2cases ↔ Found fcnf gcnf c t0 ts signals p := by
  have hle : ∀ {st}, Inv fcnf gcnf c t0 ts signals st →
      st.in2cases.length ≤ (patterns signals).length := fun hi =>
    cases_length_le (List.Nodup.of_map _ hi.nodup) fun p hp => (hi.found p hp).over
  have hstay : ∀ st st', Inv fcnf gcnf c t0 ts signals st →
      multiStep fcnf c signals solver (fun _ => false) st = .inl st' →
      Inv fcnf gcnf c t0 ts signals st' ∧ (patterns signals).length - st'.in2cases.length <
        (patterns signals).length - st.in2cases.length := by
    intro st st' hi hst
    obtain ⟨hi', p, hp, hnew, hgrow⟩ := (multiStep_spec h hex hi).1 st' hst
    have hgrow := hgrow fun hmem => by
      obtain ⟨q, hq, he⟩ := (hi.codes _).1 hmem
      exact hnew (hk q p (hi.found q hq) hp (curCase_eq_iff.1 he) ▸ hq)
    have hlen := hle hi'
    rw [hgrow, List.length_append, List.length_singleton] at hlen ⊢
    exact ⟨hi', by omega⟩
  have hleave : ∀ st st', Inv fcnf gcnf c t0 ts signals st →
      multiStep fcnf c signals solver (fun _ => false) st = .inr st' →
      st'.in1cases = [] ∧ st'.in2cases.Nodup ∧
        ∀ p, p ∈ st'.in2cases ↔ Found fcnf gcnf c t0 ts signals p := by
    intro st st' hi hst
    obtain ⟨hi', hun⟩ := (multiStep_spec h hex hi).2 st' hst
    exact ⟨hi'.in1cases, List.Nodup.of_map _ hi'.nodup, fun p => ⟨hi'.found p, hi'.all h (hun rfl)⟩⟩
  obtain ⟨st, h1, h2⟩ := loop_total _ hstay hleave Inv.start (Nat.lt_succ_self _)
  exact ⟨_, st, h1, h2⟩

/-- Whatever `solve_multi` returns has one pattern for a code. -/
theorem solveMulti_codes {solver : Nat → Solve} {alarm : Nat → Bool} (hex : ∀ i, Exact (solver i))
    {fuel : Nat} {st : State}
    (hst : solveMulti fcnf gcnf c t0 ts signals solver alarm fuel = some st) :
    (st.in2cases.map (curCase signals)).Nodup :=
  loop_post (I := Inv fcnf gcnf c t0 ts signals)
    (P := fun st => (st.in2cases.map (curCase signals)).Nodup)
    (fun _ st' hi hs => ((multiStep_spec h hex hi).1 st' hs).1)
    (fun _ st' hi hs => ((multiStep_spec h hex hi).2 st' hs).1.nodup) Inv.start hst

end

/-! ## The circuits -/

/-- What the constructor is called on; `abc` returns netlists of the circuits. -/
structure Problem (abc : Circuit → List NodeId → List NodeId → Netlist) (c specC : Circuit)
    (targets signals : List NodeId) : Prop where
  ports : Ports c
  portsSpec : Ports specC
  interface : Interface c specC
  notInput : ∀ t ∈ targets, (c.node t).isInput = false
  delivers : Delivers (abc c targets signals) c targets signals
  deliversSpec : Delivers (abc specC [] []) specC [] []

/-- Whatever the values of the other targets are, the first one is wrong at 0. -/
def MustBeOne (c specC : Circuit) (t0 : NodeId) (ts : List NodeId) (x : String → Bool) : Prop :=
  ∀ b : NodeId → Bool, b t0 = false → ¬WorksWith c specC (t0 :: ts) b x

section
variable {abc : Circuit → List NodeId → List NodeId → Netlist} {c specC : Circuit} {t0 : NodeId}
  {ts signals : List NodeId} (h : Problem abc c specC (t0 :: ts) signals)
include h

theorem Problem.coupled : Coupled (multiCnf abc c (t0 :: ts) signals) (specCnf abc specC) c specC
    (t0 :: ts) (c.inputs ++ c.outputs ++ t0 :: ts ++ signals) where
  ports := h.ports
  portsSpec := h.portsSpec
  interface := h.interface
  notFree n hn ht := by
    have := ((h.ports.inputs n).1 hn).2
    rw [h.notInput n ht] at this
    cases this
  sub _ hn := List.mem_append_left _ (List.mem_append_left _ hn)
  encodes := (CNFGenerator.encodes_init h.delivers).describes
  encodesSpec := by
    have := (CNFGenerator.encodes_init h.deliversSpec).describes
    simpa only [List.append_nil] using this

variable (hac : c.IsAcyclic) (hcl : c.Closed) (hacS : specC.IsAcyclic) (hclS : specC.Closed)
  (hind : IndependentOf c (t0 :: ts) signals)
include hac hcl hacS hclS hind

theorem Problem.setting :
    Setting (multiCnf abc c (t0 :: ts) signals) (specCnf abc specC) c t0 ts signals where
  below := h.coupled.encodes.below
  known n hn := ⟨h.coupled.encodes.known n hn, (CNFGenerator.encodes_init h.delivers).pointer n hn⟩
  knownSpec n hn := by
    obtain ⟨q, hq, he⟩ := h.coupled.port (List.mem_append.1 hn)
    exact he ▸ h.coupled.encodesSpec.known q hq
  det m m' hm hm' hin ht po hpo := by
    obtain ⟨x, v, v', hv, hv', hmv, hmv'⟩ := h.coupled.valuations hm hm' hin
    rw [hmv po (by simp [hpo]), hmv' po (by simp [hpo])]
    apply hv.unique hac hcl hv' _ po (h.ports.outputs po hpo).1
    intro t htt
    have hmem : t ∈ c.inputs ++ c.outputs ++ t0 :: ts ++ signals :=
      List.mem_append_left _ (List.mem_append_right _ htt)
    rw [← hmv t hmem, ← hmv' t hmem]
    exact ht t htt
  free m m' hm hm' hin sig hs := by
    obtain ⟨x, v, v', hv, hv', hmv, hmv'⟩ := h.coupled.valuations hm hm' hin
    rw [hmv sig (by simp [hs]), hmv' sig (by simp [hs])]
    exact hind x v v' hv hv' sig hs
  detSpec s s' hs hs' hin po hpo := by
    obtain ⟨x, w, hw, hsw⟩ := h.coupled.encodesSpec.sound s hs
    obtain ⟨x', w', hw', hsw'⟩ := h.coupled.encodesSpec.sound s' hs'
    have hx : ∀ n ∈ specC.allNodes, n ∉ ([] : List NodeId) → (specC.node n).isInput = true →
        x' (specC.node n).name = x (specC.node n).name := by
      intro n hn hf hi
      have hn' := (h.portsSpec.inputs n).2 ⟨hn, hi⟩
      obtain ⟨pi, hpi, he⟩ := h.interface.inputs' n hn'
      have := hin pi hpi
      rw [Coupled.varOf_eq he.symm, hsw n (by simp [hn']), hsw' n (by simp [hn']),
        hw.input h.portsSpec hn' hf, hw'.input h.portsSpec hn' hf] at this
      exact this.symm
    obtain ⟨qo, hqo, he⟩ := h.interface.outputs po hpo
    rw [Coupled.varOf_eq he, hsw qo (by simp [hqo]), hsw' qo (by simp [hqo])]
    exact hw.unique hacS hclS (valuation_congr hx hw') (fun a ha => absurd ha List.not_mem_nil) qo
      (h.portsSpec.outputs qo hqo).1

variable (hnd : (t0 :: ts).Nodup)
include hnd

/-- **What is found**, for the circuits: the numbers of the copies run through all values of the
other targets. -/
theorem found_iff {p : Pattern} :
    Found (multiCnf abc c (t0 :: ts) signals) (specCnf abc specC) c t0 ts signals p ↔
      ∃ x, Shows c (t0 :: ts) signals x p ∧ MustBeOne c specC t0 ts x := by
  have hC := h.coupled
  constructor
  · intro hp
    obtain ⟨ms, s, hc, hne, rfl⟩ := hp
    obtain ⟨x, w, hw, hsw⟩ := hC.encodesSpec.sound s hc.satS
    have hval : ∀ i < copies ts, ∃ v, c.Valuation (t0 :: ts) x v ∧
        ∀ n ∈ c.inputs ++ c.outputs ++ t0 :: ts ++ signals,
          ms i (varOf c (multiCnf abc c (t0 :: ts) signals) n) = v n := fun i hi =>
      hC.valuation_of_model hw hsw (hc.sat i hi) fun pi hpi =>
        ((hc.inputs pi hpi).1 i hi).symm.trans (hc.inputs pi hpi).2
    obtain ⟨v0, hv0, hm0⟩ := hval 0 (copies_pos ts)
    refine ⟨x, ⟨v0, hv0, OrdMap.tabulate_inj.2 fun sig hs => hm0 sig (by simp [hs])⟩,
      fun b hb hworks => ?_⟩
    -- the copy with these values
    let i := Nat.ofBits fun j : Fin ts.length => b ts[j]
    have hi : i < copies ts := Nat.ofBits_lt_two_pow _
    obtain ⟨v, hv, hmv⟩ := hval i hi
    have ht : ∀ t ∈ t0 :: ts, v t = b t := by
      intro t ht
      rw [← hmv t (List.mem_append_left _ (List.mem_append_right _ ht))]
      rcases List.mem_cons.1 ht with rfl | ht
      · exact (hc.first i hi).trans hb.symm
      · obtain ⟨j, hj, rfl⟩ := List.getElem_of_mem ht
        exact (hc.others i hi j hj).trans (Nat.testBit_ofBits_lt _ _ hj)
    rw [worksWith_agree h.ports h.portsSpec hac hcl hacS hclS hv ht hw] at hworks
    exact hne i hi ((hC.ports_iff hv hw hmv hsw).2.2 hworks)
  · intro hp
    obtain ⟨x, ⟨v, hv, rfl⟩, hmust⟩ := hp
    obtain ⟨w, hw, -⟩ := exists_valuation hacS hclS [] x fun _ => false
    obtain ⟨s, hs, hsw⟩ := hC.encodesSpec.complete x w hw
    let b : Nat → NodeId → Bool := fun i n => if n = t0 then false else i.testBit (ts.idxOf n)
    have hval : ∀ i, ∃ v, c.Valuation (t0 :: ts) x v ∧ ∀ t ∈ t0 :: ts, v t = b i t := fun i =>
      exists_valuation hac hcl (t0 :: ts) x (b i)
    choose vs hvs hts using hval
    have hmod : ∀ i, ∃ m, Sat m (multiCnf abc c (t0 :: ts) signals).cnf ∧
        ∀ n ∈ c.inputs ++ c.outputs ++ t0 :: ts ++ signals,
          m (varOf c (multiCnf abc c (t0 :: ts) signals) n) = vs i n := fun i =>
      hC.encodes.complete x (vs i) (hvs i)
    choose ms hms hmv using hmod
    have hports := fun i => hC.ports_iff (hvs i) hw (hmv i) hsw
    have htar : ∀ i, ∀ t ∈ t0 :: ts,
        ms i (varOf c (multiCnf abc c (t0 :: ts) signals) t) = b i t := fun i t ht =>
      (hmv i t (List.mem_append_left _ (List.mem_append_right _ ht))).trans (hts i t ht)
    refine ⟨ms, s, ⟨fun i _ => hms i, hs, fun i _ => ?_, fun i _ j hj => ?_, fun pi hpi => ⟨fun i _ => ?_,
      (hports 0).1 pi hpi⟩⟩, fun i _ hsame => ?_, OrdMap.tabulate_inj.2 fun sig hs => ?_⟩
    · exact (htar i t0 List.mem_cons_self).trans (if_pos rfl)
    · have hmem : ts[j] ∈ ts := List.getElem_mem hj
      have hne : ts[j] ≠ t0 := fun he => (List.nodup_cons.1 hnd).1 (he ▸ hmem)
      rw [htar i ts[j] (List.mem_cons_of_mem _ hmem)]
      show (if ts[j] = t0 then false else i.testBit (ts.idxOf ts[j])) = i.testBit j
      rw [if_neg hne, (List.nodup_cons.1 hnd).2.idxOf_getElem]
    · exact ((hports 0).1 pi hpi).trans ((hports i).1 pi hpi).symm
    · apply hmust (b i) (if_pos rfl)
      exact ⟨vs i, w, hvs i, hts i, hw, (hports i).2.1 hsame⟩
    · rw [hmv 0 sig (by simp [hs])]
      exact hind x v (vs 0) hv (hvs 0) sig hs

/-- **`solve_multi` ends with precisely the patterns where the first target must be 1**, whatever
models the solver picks, exactly if no two of them agree on the last 32 signals. -/
theorem solveMulti_complete_iff : (∀ solver : Nat → Solve, (∀ i, Exact (solver i)) →
      ∃ fuel st, solveMulti (multiCnf abc c (t0 :: ts) signals) (specCnf abc specC) c t0 ts signals
          solver (fun _ => false) fuel = some st ∧ st.in1cases = [] ∧ st.in2cases.Nodup ∧
        ∀ p, p ∈ st.in2cases ↔ ∃ x, Shows c (t0 :: ts) signals x p ∧ MustBeOne c specC t0 ts x) ↔
    ∀ x y p q, Shows c (t0 :: ts) signals x p → MustBeOne c specC t0 ts x →
      Shows c (t0 :: ts) signals y q → MustBeOne c specC t0 ts y →
      (∀ sig ∈ signals.drop (signals.length - 32), p.at sig = q.at sig) → p = q := by
  have hS := Problem.setting h hac hcl hacS hclS hind
  have hF := fun p => found_iff h hac hcl hacS hclS hind hnd (p := p)
  constructor
  · intro hall x y p q hp hx hq hy hag
    obtain ⟨fuel, st, hst, -, -, hmem⟩ := hall (fun _ => dpllSolve) fun _ => dpll_exact
    exact List.inj_on_of_nodup_map (solveMulti_codes hS (fun _ => dpll_exact) hst)
      ((hmem p).2 ⟨x, hp, hx⟩) ((hmem q).2 ⟨y, hq, hy⟩) (curCase_eq_iff.2 hag)
  · intro hk solver hex
    obtain ⟨fuel, st, h1, h2, h3, h4⟩ := solveMulti_total hS hex fun p q hp hq hag => by
      obtain ⟨x, hx⟩ := (hF p).1 hp
      obtain ⟨y, hy⟩ := (hF q).1 hq
      exact hk x y p q hx.1 hx.2 hy.1 hy.2 hag
    exact ⟨fuel, st, h1, h2, h3, fun p => (h4 p).trans (hF p)⟩

end

/-- The outputs are buffers of the two targets, and must be the input and its negation. -/
theorem solveMulti_complete_iff_two : (∀ solver : Nat → Solve, (∀ i, Exact (solver i)) →
      ∃ fuel st, solveMulti (multiCnf netlistOf (ofNodes twoTargets) [1, 2] [0])
          (specCnf netlistOf (ofNodes inputAndNegation)) (ofNodes twoTargets) 1 [2] [0] solver
          (fun _ => false) fuel = some st ∧ st.in1cases = [] ∧ st.in2cases.Nodup ∧
        ∀ p, p ∈ st.in2cases ↔ ∃ x, Shows (ofNodes twoTargets) [1, 2] [0] x p ∧
          MustBeOne (ofNodes twoTargets) (ofNodes inputAndNegation) 1 [2] x) ↔
    ∀ x y p q, Shows (ofNodes twoTargets) [1, 2] [0] x p →
      MustBeOne (ofNodes twoTargets) (ofNodes inputAndNegation) 1 [2] x →
      Shows (ofNodes twoTargets) [1, 2] [0] y q →
      MustBeOne (ofNodes twoTargets) (ofNodes inputAndNegation) 1 [2] y →
      (∀ sig ∈ [0].drop (List.length [0] - 32), p.at sig = q.at sig) → p = q := by
  have ho : Ordered twoTargets := by decide
  have hs : Ordered inputAndNegation := by decide
  have hP : Problem netlistOf (ofNodes twoTargets) (ofNodes inputAndNegation) [1, 2] [0] := by
    refine ⟨ho.ports, hs.ports, by constructor <;> decide, by decide, ?_, ?_⟩
    · exact netlistOf_delivers ho.ports ho.mirror.closed (by decide) (by decide)
    · exact netlistOf_delivers hs.ports hs.mirror.closed (by decide) (by decide)
  exact solveMulti_complete_iff hP ho.acyclic ho.mirror.closed hs.acyclic hs.mirror.closed
    twoTargets_independent (by decide)

end Msyn.DC.GetDC
