import Msyn.Select.GetDC
import Msyn.Select.Separation

/-!
# The formulas of getDC

A model of `main` is a `Sensitive` pair of models of the implementation: same primary inputs, the
target at 1 and at 0, different outputs (`makeMain_sound`, `makeMain_extend`). A model of `check` is
a model of each circuit with the same ports (`makeCheck_adds`, `makeCheck_extend`). At the inputs of
a sensitive pair the target must have the value that `check` finds (`must_of_matches`).
-/

namespace Msyn.DC

open Nodecircuit Circuit Cnf CNFgen Glucose GInterface MergeSelection

/-- What `getDC` relies on: the index maps know the names, the outputs are a function of the
primary inputs and the target, and the signals of the primary inputs. -/
structure Setting (fcnf gcnf : CNFGenerator) (c : Circuit) (target : NodeId)
    (signals : List NodeId) : Prop where
  below : Below fcnf.numVars fcnf.cnf
  belowSpec : Below gcnf.numVars gcnf.cnf
  known : ∀ n ∈ c.inputs ++ c.outputs ++ [target] ++ signals, fcnf.Known (c.node n).name ∧
    fcnf.getIndexNode n (c.node n).name = fcnf.getIndex (c.node n).name
  knownSpec : ∀ n ∈ c.inputs ++ c.outputs, gcnf.Known (c.node n).name
  det : ∀ m m', Sat m fcnf.cnf → Sat m' fcnf.cnf →
    (∀ pi ∈ c.inputs, m (varOf c fcnf pi) = m' (varOf c fcnf pi)) →
    m (varOf c fcnf target) = m' (varOf c fcnf target) →
    ∀ po ∈ c.outputs, m (varOf c fcnf po) = m' (varOf c fcnf po)
  free : ∀ m m', Sat m fcnf.cnf → Sat m' fcnf.cnf →
    (∀ pi ∈ c.inputs, m (varOf c fcnf pi) = m' (varOf c fcnf pi)) →
    ∀ sig ∈ signals, m (varOf c fcnf sig) = m' (varOf c fcnf sig)

/-- The outputs of the models with the target at 1 and at 0 differ. -/
structure Sensitive (fcnf : CNFGenerator) (c : Circuit) (target : NodeId) (m1 m0 : Model) : Prop where
  sat1 : Sat m1 fcnf.cnf
  sat0 : Sat m0 fcnf.cnf
  target1 : m1 (varOf c fcnf target) = true
  target0 : m0 (varOf c fcnf target) = false
  inputs : ∀ pi ∈ c.inputs, m1 (varOf c fcnf pi) = m0 (varOf c fcnf pi)
  outputs : ∃ po ∈ c.outputs, m1 (varOf c fcnf po) ≠ m0 (varOf c fcnf po)

/-- The models of the two circuits have the same ports. -/
structure Matches (fcnf gcnf : CNFGenerator) (c : Circuit) (m s : Model) : Prop where
  sat : Sat m fcnf.cnf
  satS : Sat s gcnf.cnf
  inputs : ∀ pi ∈ c.inputs, m (varOf c fcnf pi) = s (varOf c gcnf pi)
  outputs : ∀ po ∈ c.outputs, m (varOf c fcnf po) = s (varOf c gcnf po)

/-- The pattern of the signals in a model. -/
def patternAt (fcnf : CNFGenerator) (c : Circuit) (signals : List NodeId) (m : Model) : Pattern :=
  OrdMap.tabulate signals fun sig => m (varOf c fcnf sig)

/-- The pattern occurs where the target must be `b`. -/
def Needed (fcnf gcnf : CNFGenerator) (c : Circuit) (target : NodeId) (signals : List NodeId)
    (b : Bool) (p : Pattern) : Prop :=
  ∃ m m' s, Must fcnf gcnf c target b m m' s ∧ p = patternAt fcnf c signals m

/-- Some value of the target gives the outputs of the specification. -/
def Fixable (fcnf gcnf : CNFGenerator) (c : Circuit) (target : NodeId) : Prop :=
  ∀ m1 m0, Sensitive fcnf c target m1 m0 → ∃ m s, Matches fcnf gcnf c m s ∧
    ∀ pi ∈ c.inputs, m (varOf c fcnf pi) = m1 (varOf c fcnf pi)

variable {fcnf gcnf : CNFGenerator} {c : Circuit} {target : NodeId} {signals : List NodeId}
  {solver solverCheck : Nat → Solve} {alarm : Nat → Bool}

/-- A model that matches, at the inputs of a sensitive pair. -/
theorem must_of_matches (h : Setting fcnf gcnf c target signals) {m1 m0 m s : Model}
    (hd : Sensitive fcnf c target m1 m0) (hm : Matches fcnf gcnf c m s)
    (hin : ∀ pi ∈ c.inputs, m (varOf c fcnf pi) = m1 (varOf c fcnf pi)) :
    ∃ m', Must fcnf gcnf c target (m (varOf c fcnf target)) m m' s := by
  obtain ⟨po, hpo, hne⟩ := hd.outputs
  cases hb : m (varOf c fcnf target) with
  | true =>
    refine ⟨m0, hm.sat, hd.sat0, hm.satS, hb, hd.target0, fun pi hpi => ?_, hm.outputs, po, hpo, ?_⟩
    · exact ⟨hm.inputs pi hpi, by rw [← hd.inputs pi hpi, ← hin pi hpi]; exact hm.inputs pi hpi⟩
    · rw [← hm.outputs po hpo, h.det m m1 hm.sat hd.sat1 hin (hb.trans hd.target1.symm) po hpo]
      exact hne.symm
  | false =>
    refine ⟨m1, hm.sat, hd.sat1, hm.satS, hb, hd.target1, fun pi hpi => ?_, hm.outputs, po, hpo, ?_⟩
    · exact ⟨hm.inputs pi hpi, by rw [← hin pi hpi]; exact hm.inputs pi hpi⟩
    · rw [← hm.outputs po hpo, h.det m m0 hm.sat hd.sat0 (fun pi hpi => (hin pi hpi).trans
        (hd.inputs pi hpi)) (hb.trans hd.target0.symm) po hpo]
      exact hne

/-- Where the target must be `b` the outputs depend on it. -/
theorem sensitive_of_must {b : Bool} {m m' s : Model} (hm : Must fcnf gcnf c target b m m' s) :
    Sensitive fcnf c target (if b then m else m') (if b then m' else m) := by
  obtain ⟨po, hpo, hne⟩ := hm.outputs'
  have hin : ∀ pi ∈ c.inputs, m (varOf c fcnf pi) = m' (varOf c fcnf pi) := fun pi hpi =>
    (hm.inputs pi hpi).1.trans (hm.inputs pi hpi).2.symm
  rw [← hm.outputs po hpo] at hne
  cases b with
  | true => exact ⟨hm.sat, hm.sat', hm.seedAt, hm.seedAt', hin, po, hpo, hne.symm⟩
  | false =>
    exact ⟨hm.sat', hm.sat, hm.seedAt', hm.seedAt, fun pi hpi => (hin pi hpi).symm, po, hpo, hne⟩

/-! ## The formula of main -/

section
variable (h : Setting fcnf gcnf c target signals)
include h

theorem idx_eq {n : NodeId} (hn : n ∈ c.inputs ++ c.outputs ++ [target] ++ signals) :
    idx fcnf c n = varOf c fcnf n := by
  obtain ⟨h1, h2⟩ := h.known n hn
  rw [idx, h2, h1.getIndex]
  rfl

theorem natAbs_idx {n : NodeId} (hn : n ∈ c.inputs ++ c.outputs ++ [target] ++ signals) :
    (idx fcnf c n).natAbs = varOf c fcnf n ∧
      (idx fcnf c n + (fcnf.numVars : Int)).natAbs = varOf c fcnf n + fcnf.numVars := by
  rw [idx_eq h hn]
  omega

theorem varOf_lt {n : NodeId} (hn : n ∈ c.inputs ++ c.outputs ++ [target] ++ signals) :
    varOf c fcnf n < fcnf.numVars := (h.known n hn).1.lt

theorem makeBase_adds : Adds {} (DC.makeBase fcnf c target) fun m =>
    Sat m fcnf.cnf ∧ Sat (fun v => m (v + fcnf.numVars)) fcnf.cnf ∧
      m (varOf c fcnf target) = true ∧ m (varOf c fcnf target + fcnf.numVars) = false ∧
      ∀ pi ∈ c.inputs, m (varOf c fcnf pi) = m (varOf c fcnf pi + fcnf.numVars) := by
  have ht := natAbs_idx h (n := target) (by simp)
  refine (((((addCNF_adds {} fcnf 0).trans (addCNF_adds _ fcnf fcnf.numVars)).trans
    (addClause_adds _ _)).trans (addClause_adds _ _)).trans
    (Adds.foldl (f := tieCopies fcnf c) (fun _ _ g => setEqual_adds g _ _) _)).congr fun m => ?_
  simp only [List.mem_singleton, exists_eq_left, ht, Nat.add_zero, and_assoc]
  refine and_congr_right fun _ => and_congr_right fun _ => and_congr_right fun _ =>
    and_congr_right fun _ => forall₂_congr fun pi hpi => ?_
  rw [(natAbs_idx h (n := pi) (by simp [hpi])).1, (natAbs_idx h (n := pi) (by simp [hpi])).2]

theorem makeMain_sound {m : Model} (hm : Sat m (makeMain fcnf c target).clauses) :
    Sensitive fcnf c target m fun v => m (v + fcnf.numVars) := by
  obtain ⟨hb, po, hpo, hne⟩ := setNEqual_differ hm
  obtain ⟨-, h1, h2, h3, h4, h5⟩ := ((makeBase_adds h).sat m).1 hb
  obtain ⟨e1, e2⟩ := natAbs_idx h (n := po) (by simp [hpo])
  rw [e1, e2] at hne
  exact ⟨h1, h2, h3, h4, h5, po, hpo, hne⟩

/-- The outputs are variables of the clauses: they are functions of the inputs and the target. -/
theorem output_lt {m1 m0 : Model} (hd : Sensitive fcnf c target m1 m0) {po : NodeId}
    (hpo : po ∈ c.outputs) :
    varOf c fcnf po + fcnf.numVars < (DC.makeBase fcnf c target).nVars := by
  let g := ((({} : GInterface).addCNF fcnf ((0 : Nat) : Int)).addCNF fcnf (fcnf.numVars : Int)).addClause
    [(idx fcnf c target, true)]
  have hle : ∀ g', g'.nVars ≤ (c.inputs.foldl (tieCopies fcnf c) g').nVars := fun g' =>
    (Adds.foldl (f := tieCopies fcnf c) (fun _ _ g => setEqual_adds g _ _) g').le
  by_contra hlt
  have hout : ∀ v, v + fcnf.numVars < (DC.makeBase fcnf c target).nVars → v ≠ varOf c fcnf po := by
    rintro v hv rfl
    exact hlt hv
  -- the clauses, the target and the inputs do not mention the output, so a model may flip it
  let m' : Model := fun v => if v = varOf c fcnf po then !m1 v else m1 v
  have hsame : ∀ v, v ≠ varOf c fcnf po → m' v = m1 v := fun v hv => if_neg hv
  have hsat : Sat m' fcnf.cnf := by
    intro cl hcl
    obtain ⟨l, hl, hm⟩ := hd.sat1 cl hcl
    refine ⟨l, hl, ?_⟩
    rw [hsame l.1 (hout _ ?_)]
    · exact hm
    · have h1 := addCNF_lt (({} : GInterface).addCNF fcnf ((0 : Nat) : Int)) fcnf fcnf.numVars hcl hl
      have h2 := (addClause_adds ((({} : GInterface).addCNF fcnf ((0 : Nat) : Int)).addCNF fcnf
        (fcnf.numVars : Int)) [(idx fcnf c target, true)]).le
      have h3 := (addClause_adds g [(idx fcnf c target + (fcnf.numVars : Int), false)]).le
      exact h1.trans_le ((h2.trans h3).trans (hle _))
  have htar : m' (varOf c fcnf target) = m1 (varOf c fcnf target) := by
    refine hsame _ (hout _ ?_)
    have h1 := addClause_lt g [(idx fcnf c target + (fcnf.numVars : Int), false)] _
      (List.mem_singleton.2 rfl)
    rw [(natAbs_idx h (n := target) (by simp)).2] at h1
    exact h1.trans_le (hle _)
  have hin : ∀ pi ∈ c.inputs, m' (varOf c fcnf pi) = m1 (varOf c fcnf pi) := by
    intro pi hpi
    refine hsame _ (hout _ ?_)
    have hpos := (h.known po (by simp [hpo])).1.lt
    exact foldl_lt (f := tieCopies fcnf c) (x := varOf c fcnf pi + fcnf.numVars)
      (fun _ _ g => (setEqual_adds g _ _).le) hpi (fun g => by
        have := (setEqual_lt (g := g) (a := idx fcnf c pi)
          (b := idx fcnf c pi + (fcnf.numVars : Int)) (by omega)).2
        rwa [(natAbs_idx h (n := pi) (by simp [hpi])).2] at this)
      (g.addClause [(idx fcnf c target + (fcnf.numVars : Int), false)])
  have := h.det m' m1 hsat hd.sat1 hin htar po hpo
  simp [m'] at this

theorem makeMain_extend {m1 m0 : Model} (hd : Sensitive fcnf c target m1 m0) :
    ∃ m, Sat m (makeMain fcnf c target).clauses ∧ ∀ v < fcnf.numVars, m v = m1 v := by
  let m : Model := fun v => if v < fcnf.numVars then m1 v else m0 (v - fcnf.numVars)
  have hm1 : ∀ v < fcnf.numVars, m v = m1 v := fun v hv => if_pos hv
  have hm0 : ∀ v, m (v + fcnf.numVars) = m0 v := fun v => by
    have : ¬v + fcnf.numVars < fcnf.numVars := by omega
    simp only [m, if_neg this, Nat.add_sub_cancel]
  have hlt : ∀ n ∈ c.inputs ++ c.outputs ++ [target] ++ signals,
      varOf c fcnf n < fcnf.numVars := fun n => DC.varOf_lt h
  have hbase : Sat m (DC.makeBase fcnf c target).clauses := by
    refine ((makeBase_adds h).sat m).2 ⟨sat_nil m, (sat_congr h.below hm1).2 hd.sat1, ?_, ?_, ?_, ?_⟩
    · simp only [hm0]
      exact hd.sat0
    · rw [hm1 _ (hlt target (by simp))]
      exact hd.target1
    · rw [hm0]
      exact hd.target0
    · intro pi hpi
      rw [hm1 _ (hlt pi (by simp [hpi])), hm0]
      exact hd.inputs pi hpi
  obtain ⟨po, hpo, hne⟩ := hd.outputs
  have hpo' := output_lt h hd hpo
  obtain ⟨m', hm', hs⟩ := setNEqual_map_extend (l := c.outputs) (f := idx fcnf c)
    (h := fun pout => idx fcnf c pout + (fcnf.numVars : Int))
    ((makeBase_adds h).below (fun _ hcl => by cases hcl)) hbase (fun a ha => by
      obtain ⟨e1, e2⟩ := natAbs_idx h (n := a) (by simp [ha])
      have := output_lt h hd ha
      rw [e1, e2]
      omega)
    ⟨po, hpo, by
      obtain ⟨e1, e2⟩ := natAbs_idx h (n := po) (by simp [hpo])
      rw [e1, e2, hm1 _ (hlt po (by simp [hpo])), hm0]
      exact hne⟩
  exact ⟨m', hs, fun v hv => by rw [hm' v (by omega), hm1 v hv]⟩

/-! ## The formula of check -/

theorem makeCheck_adds : Adds {} (makeCheck fcnf gcnf c) fun m =>
    Matches fcnf gcnf c m fun v => m (v + fcnf.numVars) := by
  have htie : ∀ n ∈ c.inputs ++ c.outputs, ∀ g, Adds g (tiePort fcnf gcnf c g n) fun m =>
      m (varOf c fcnf n) = m (varOf c gcnf n + fcnf.numVars) := by
    intro n hn g
    refine (setEqual_adds g _ _).congr fun m => ?_
    have hn' : n ∈ c.inputs ++ c.outputs ++ [target] ++ signals :=
      List.mem_append_left _ (List.mem_append_left _ hn)
    rw [(natAbs_idx h hn').1, (h.knownSpec n hn).natAbs_add, varOf, varOf]
  refine ((((addCNF_adds {} fcnf 0).trans (addCNF_adds _ gcnf fcnf.numVars)).trans
    (Adds.foldl (f := tiePort fcnf gcnf c) (fun n hn => htie n (List.mem_append_left _ hn)) _)).trans
    (Adds.foldl (f := tiePort fcnf gcnf c) (fun n hn => htie n (List.mem_append_right _ hn)) _)).congr
    fun m => ?_
  refine ⟨?_, fun h => ⟨⟨⟨h.sat, h.satS⟩, h.inputs⟩, h.outputs⟩⟩
  rintro ⟨⟨⟨h1, h2⟩, h3⟩, h4⟩
  exact ⟨h1, h2, h3, h4⟩

theorem makeCheck_lt {pi : NodeId} (hpi : pi ∈ c.inputs) :
    varOf c fcnf pi < (makeCheck fcnf gcnf c).nVars := by
  have hle := fun g => (Adds.foldl (l := c.outputs) (f := tiePort fcnf gcnf c)
    (fun n _ g => setEqual_adds g _ _) g).le
  refine (foldl_lt (f := tiePort fcnf gcnf c) (fun b _ g => (setEqual_adds g _ _).le) hpi
    (fun g => ?_) _).trans_le (hle _)
  have hne : idx fcnf c pi ≠ gcnf.getIndex (c.node pi).name + (fcnf.numVars : Int) := by
    rw [idx_eq h (n := pi) (by simp [hpi]), (h.knownSpec pi (by simp [hpi])).getIndex]
    have := DC.varOf_lt h (n := pi) (by simp [hpi])
    omega
  have := (setEqual_lt (g := g) hne).1
  rwa [(natAbs_idx h (n := pi) (by simp [hpi])).1] at this

/-- A pair that matches as one model of `check`. -/
theorem makeCheck_extend {m s : Model} (hm : Matches fcnf gcnf c m s) :
    ∃ m', Sat m' (makeCheck fcnf gcnf c).clauses ∧ ∀ v < fcnf.numVars, m' v = m v := by
  let m' : Model := fun v => if v < fcnf.numVars then m v else s (v - fcnf.numVars)
  have hlow : ∀ v < fcnf.numVars, m' v = m v := fun v hv => if_pos hv
  have hhigh : (fun v => m' (v + fcnf.numVars)) = s := by
    funext v
    have : ¬v + fcnf.numVars < fcnf.numVars := by omega
    simp only [m', if_neg this, Nat.add_sub_cancel]
  have hlt : ∀ n ∈ c.inputs ++ c.outputs, varOf c fcnf n < fcnf.numVars := fun n hn =>
    DC.varOf_lt h (List.mem_append_left _ (List.mem_append_left _ hn))
  refine ⟨m', ((makeCheck_adds h).sat m').2 ⟨sat_nil m', ?_⟩, hlow⟩
  rw [hhigh]
  refine ⟨(sat_congr h.below hlow).2 hm.sat, hm.satS, fun pi hpi => ?_, fun po hpo => ?_⟩
  · rw [hlow _ (hlt pi (by simp [hpi]))]
    exact hm.inputs pi hpi
  · rw [hlow _ (hlt po (by simp [hpo]))]
    exact hm.outputs po hpo

end

end Msyn.DC
