import Msyn.Select.SolveNew

/-!
# The on-sets of several targets

`getDCMulti` asks for an assignment under which some values of the targets give the outputs of the
specification and the targets at 0 do not. It records the pattern of the signals there in the on-set
of every target (`solveMulti_spec`), whatever the values are that the model has for the targets.
-/

namespace Msyn.DC

open Nodecircuit Circuit Cnf CNFgen Glucose GInterface MergeSelection AllSat

/-- The solver and the on-sets, one for each target. -/
structure Multi where
  main : GInterface
  in2cases : List (List Pattern)

section
variable (implcnf speccnf : CNFGenerator) (c : Circuit) (targets signals : List NodeId)

/-- The outputs of the copies of the implementation and of the specification. -/
def outs1 : List Int := c.outputs.map (idx implcnf c)

def outs2 : List Int := c.outputs.map fun pout => idx implcnf c pout + (implcnf.numVars : Int)

def outs3 : List Int := c.outputs.map fun pout =>
  speccnf.getIndex (c.node pout).name + ((implcnf.numVars * 2 : Nat) : Int)

/-- One round of the loop over the targets. -/
def targetZero (main : GInterface) (nd : NodeId) : GInterface :=
  main.addClause [(idx implcnf c nd + (implcnf.numVars : Int), false)]

/-- `main` up to the outputs that must differ. -/
def multiBase : GInterface :=
  let main := (({} : GInterface).addCNF implcnf ((0 : Nat) : Int)).addCNF implcnf
    (implcnf.numVars : Int)
  let main := main.addCNF speccnf ((implcnf.numVars * 2 : Nat) : Int)
  let main := c.inputs.foldl (tieThree implcnf speccnf c) main
  let main := targets.foldl (targetZero implcnf c) main
  main.setEquals (outs1 implcnf c) (outs3 implcnf speccnf c)

/-- `main` of the constructor. -/
def makeMulti : GInterface :=
  (multiBase implcnf speccnf c targets).setNEqual (outs2 implcnf c) (outs3 implcnf speccnf c)

/-- `Elim`. -/
def elimMulti (main : GInterface) (ca : Pattern) : GInterface :=
  main.addClause (signals.map fun sig => (idx implcnf c sig, !ca.at sig))

/-- One round of `Solve`: the pattern goes to all targets. -/
def multiRound (st : Multi) (m : Model) : Multi :=
  let tmp := newPattern implcnf c signals m
  { in2cases := st.in2cases.map fun cases => cases ++ [tmp]
    main := elimMulti implcnf c signals st.main tmp }

/-- The constructor with a bound on the rounds of `Solve`. -/
def solveMulti (solve : Nat → Solve) (fuel : Nat) : Option Multi :=
  (enum solve (fun st : Multi => st.main.clauses) [] (newPattern implcnf c signals)
    (multiRound implcnf c signals) fuel
    { main := makeMulti implcnf speccnf c targets, in2cases := targets.map fun _ => [] } 0).map
    (·.solver)

/-- What `getDCMulti` relies on: the index maps know the names, the outputs are a function of the
primary inputs and the targets, and the signals of the primary inputs. -/
structure SettingMulti : Prop where
  below : Below implcnf.numVars implcnf.cnf
  known : ∀ n ∈ c.inputs ++ c.outputs ++ targets ++ signals, implcnf.Known (c.node n).name ∧
    implcnf.getIndexNode n (c.node n).name = implcnf.getIndex (c.node n).name
  knownSpec : ∀ n ∈ c.inputs ++ c.outputs, speccnf.Known (c.node n).name
  det : ∀ m m', Sat m implcnf.cnf → Sat m' implcnf.cnf →
    (∀ pi ∈ c.inputs, m (varOf c implcnf pi) = m' (varOf c implcnf pi)) →
    (∀ t ∈ targets, m (varOf c implcnf t) = m' (varOf c implcnf t)) →
    ∀ po ∈ c.outputs, m (varOf c implcnf po) = m' (varOf c implcnf po)
  free : ∀ m m', Sat m implcnf.cnf → Sat m' implcnf.cnf →
    (∀ pi ∈ c.inputs, m (varOf c implcnf pi) = m' (varOf c implcnf pi)) →
    ∀ sig ∈ signals, m (varOf c implcnf sig) = m' (varOf c implcnf sig)

/-- Models of the implementation, with the outputs of the specification and with the targets at 0,
and one of the specification, with the same primary inputs. -/
structure CopiesMulti (m1 m2 s : Model) : Prop where
  sat1 : Sat m1 implcnf.cnf
  sat2 : Sat m2 implcnf.cnf
  satS : Sat s speccnf.cnf
  inputs : ∀ pi ∈ c.inputs, m1 (varOf c implcnf pi) = m2 (varOf c implcnf pi) ∧
    m1 (varOf c implcnf pi) = s (varOf c speccnf pi)
  targets : ∀ t ∈ targets, m2 (varOf c implcnf t) = false
  outputs : SameOutputs implcnf speccnf c m1 s

/-- The pattern of a model where some values of the targets are right and 0 for all is not. -/
def FoundMulti (p : Pattern) : Prop :=
  ∃ m1 m2 s, CopiesMulti implcnf speccnf c targets m1 m2 s ∧ ¬SameOutputs implcnf speccnf c m2 s ∧
    p = patternAt implcnf c signals m1

end

section
variable {implcnf speccnf : CNFGenerator} {c : Circuit} {targets signals : List NodeId}
  (h : SettingMulti implcnf speccnf c targets signals)
include h

theorem SettingMulti.natAbs {n : NodeId} (hn : n ∈ c.inputs ++ c.outputs ++ targets ++ signals) :
    (idx implcnf c n).natAbs = varOf c implcnf n ∧
      (idx implcnf c n + (implcnf.numVars : Int)).natAbs = varOf c implcnf n + implcnf.numVars := by
  have h1 := natAbs_of_known (h.known n hn) 0
  rw [Nat.cast_zero, Int.add_zero] at h1
  exact ⟨h1, natAbs_of_known (h.known n hn) _⟩

theorem SettingMulti.natAbs_spec {n : NodeId} (hn : n ∈ c.inputs ++ c.outputs) :
    (speccnf.getIndex (c.node n).name + ((implcnf.numVars * 2 : Nat) : Int)).natAbs =
      varOf c speccnf n + implcnf.numVars * 2 := (h.knownSpec n hn).natAbs_add _

theorem SettingMulti.tied {pin : NodeId} (hpin : pin ∈ c.inputs) :
    (implcnf.Known (c.node pin).name ∧
      implcnf.getIndexNode pin (c.node pin).name = implcnf.getIndex (c.node pin).name) ∧
    speccnf.Known (c.node pin).name :=
  ⟨h.known pin (by simp [hpin]), h.knownSpec pin (by simp [hpin])⟩

theorem targetZero_adds (g : GInterface) {t : NodeId} (ht : t ∈ targets) :
    Adds g (targetZero implcnf c g t) fun m =>
      m (varOf c implcnf t + implcnf.numVars) = false := by
  refine (addClause_adds g _).congr fun m => ?_
  rw [← (h.natAbs (n := t) (by simp [ht])).2]
  simp only [List.mem_singleton, exists_eq_left]

/-- What `setEqual` says of the outputs. -/
theorem outs_equal (m : Model) :
    (∀ p ∈ (outs1 implcnf c).zip (outs3 implcnf speccnf c), m p.1.natAbs = m p.2.natAbs) ↔
      SameOutputs implcnf speccnf c m fun v => m (v + implcnf.numVars * 2) := by
  rw [outs1, outs3, List.zip_map', List.forall_mem_map]
  refine forall₂_congr fun po hpo => ?_
  rw [(h.natAbs (n := po) (by simp [hpo])).1, h.natAbs_spec (by simp [hpo])]

theorem multiBase_adds : Adds {} (multiBase implcnf speccnf c targets) fun m =>
    CopiesMulti implcnf speccnf c targets m (fun v => m (v + implcnf.numVars))
      (fun v => m (v + implcnf.numVars * 2)) := by
  refine ((((((addCNF_adds {} implcnf 0).trans (addCNF_adds _ implcnf implcnf.numVars)).trans
    (addCNF_adds _ speccnf (implcnf.numVars * 2))).trans
    (Adds.foldl (f := tieThree implcnf speccnf c) (fun pin hpin g =>
      tieThree_adds (h.tied hpin).1 (h.tied hpin).2 g) _)).trans
    (Adds.foldl (f := targetZero implcnf c) (fun t ht g => targetZero_adds h g ht) _)).trans
    (setEquals_adds _ _ _)).congr fun m => ?_
  rw [outs_equal h]
  constructor
  · rintro ⟨⟨⟨⟨⟨s1, s2⟩, s3⟩, hin⟩, ht⟩, hout⟩
    exact ⟨s1, s2, s3, hin, ht, hout⟩
  · exact fun hc => ⟨⟨⟨⟨⟨hc.sat1, hc.sat2⟩, hc.satS⟩, hc.inputs⟩, hc.targets⟩, hc.outputs⟩

theorem multiBase_below :
    Below (multiBase implcnf speccnf c targets).nVars (multiBase implcnf speccnf c targets).clauses :=
  (multiBase_adds h).below fun _ hcl => (by cases hcl)

/-- The ports of the second copy and the outputs of the specification are variables of the solver. -/
theorem multiBase_lt :
    (∀ pi ∈ c.inputs,
      varOf c implcnf pi + implcnf.numVars < (multiBase implcnf speccnf c targets).nVars) ∧
    (∀ t ∈ targets,
      varOf c implcnf t + implcnf.numVars < (multiBase implcnf speccnf c targets).nVars) ∧
    ∀ po ∈ c.outputs,
      varOf c speccnf po + implcnf.numVars * 2 < (multiBase implcnf speccnf c targets).nVars := by
  have hle : ∀ g : GInterface,
      g.nVars ≤ (g.setEquals (outs1 implcnf c) (outs3 implcnf speccnf c)).nVars := fun g =>
    (setEquals_adds g _ _).le
  have hzero : ∀ b ∈ targets, ∀ g, g.nVars ≤ (targetZero implcnf c g b).nVars := fun b hb g =>
    (targetZero_adds h g hb).le
  have hzeros : ∀ g, g.nVars ≤ (targets.foldl (targetZero implcnf c) g).nVars := fun g =>
    (Adds.foldl (f := targetZero implcnf c) (fun t ht g => targetZero_adds h g ht) g).le
  refine ⟨fun pi hpi => ?_, fun t ht => ?_, fun po hpo => ?_⟩
  · have hmono : ∀ b ∈ c.inputs, ∀ g, g.nVars ≤ (tieThree implcnf speccnf c g b).nVars :=
      fun b hb g => (tieThree_adds (h.tied hb).1 (h.tied hb).2 g).le
    exact (foldl_lt hmono hpi (fun g => (tieThree_lt (h.tied hpi).1 (h.tied hpi).2 g).2.1) _).trans_le
      ((hzeros _).trans (hle _))
  · refine (foldl_lt hzero ht (fun g => ?_) _).trans_le (hle _)
    have := addClause_lt g [(idx implcnf c t + (implcnf.numVars : Int), false)] _
      (List.mem_singleton.2 rfl)
    rwa [(h.natAbs (n := t) (by simp [ht])).2] at this
  · have hmem : (idx implcnf c po, speccnf.getIndex (c.node po).name +
        ((implcnf.numVars * 2 : Nat) : Int)) ∈ (outs1 implcnf c).zip (outs3 implcnf speccnf c) := by
      rw [outs1, outs3, List.zip_map']
      exact List.mem_map_of_mem hpo
    have e1 := (h.natAbs (n := po) (by simp [hpo])).1
    have e3 := h.natAbs_spec (n := po) (by simp [hpo])
    have hpos : varOf c implcnf po < implcnf.numVars := (h.known po (by simp [hpo])).1.lt
    have hlast : ∀ g : GInterface, varOf c speccnf po + implcnf.numVars * 2 <
        (g.setEquals (outs1 implcnf c) (outs3 implcnf speccnf c)).nVars := by
      intro g
      have := (setEquals_lt (g := g) hmem (by
        simp only
        omega)).2
      rwa [e3] at this
    exact hlast _

theorem foundMulti_of_model {m : Model} (hm : Sat m (makeMulti implcnf speccnf c targets).clauses) :
    FoundMulti implcnf speccnf c targets signals (newPattern implcnf c signals m) := by
  obtain ⟨hb, po, hpo, hne⟩ := setNEqual_differ hm
  obtain ⟨-, hcopies⟩ := ((multiBase_adds h).sat m).1 hb
  rw [(h.natAbs (n := po) (by simp [hpo])).2, h.natAbs_spec (by simp [hpo])] at hne
  refine ⟨_, _, _, hcopies, fun hsame => hne (hsame po hpo), OrdMap.tabulate_inj.2 fun sig hsig => ?_⟩
  rw [(h.natAbs (n := sig) (by simp [hsig])).1]

theorem model_of_foundMulti {p : Pattern} (hp : FoundMulti implcnf speccnf c targets signals p) :
    ∃ m, Sat m (makeMulti implcnf speccnf c targets).clauses ∧ newPattern implcnf c signals m = p := by
  obtain ⟨m1, m2, s, hc, hne, rfl⟩ := hp
  have h1 : ∀ v < implcnf.numVars, three implcnf.numVars m1 m2 s v = m1 v := fun v => three_first
  have h2 : ∀ v < implcnf.numVars, three implcnf.numVars m1 m2 s (v + implcnf.numVars) = m2 v :=
    fun v => three_second
  have hlt : ∀ n ∈ c.inputs ++ c.outputs ++ targets ++ signals, varOf c implcnf n < implcnf.numVars :=
    fun n hn => (h.known n hn).1.lt
  have hbase : Sat (three implcnf.numVars m1 m2 s) (multiBase implcnf speccnf c targets).clauses := by
    refine ((multiBase_adds h).sat _).2 ⟨sat_nil _, (sat_congr h.below h1).2 hc.sat1,
      (sat_congr h.below h2).2 hc.sat2, ?_, fun pi hpi => ?_, fun t ht => ?_, fun po hpo => ?_⟩
    · simp only [three_third]
      exact hc.satS
    · rw [h1 _ (hlt pi (by simp [hpi])), h2 _ (hlt pi (by simp [hpi])), three_third]
      exact hc.inputs pi hpi
    · rw [h2 _ (hlt t (by simp [ht]))]
      exact hc.targets t ht
    · rw [h1 _ (hlt po (by simp [hpo])), three_third]
      exact hc.outputs po hpo
  obtain ⟨lin, ltar, lout⟩ := multiBase_lt h
  have hcopies := fun m' hm' => (((multiBase_adds h).sat m').1 hm').2
  -- the outputs of the second copy are functions of its inputs and the targets
  have lout2 : ∀ po ∈ c.outputs,
      varOf c implcnf po + implcnf.numVars < (multiBase implcnf speccnf c targets).nVars := by
    intro po hpo
    refine lt_of_determined (multiBase_below h) hbase fun m' hm' hag => ?_
    exact h.det _ _ (hcopies m' hm').sat2 (hcopies _ hbase).sat2 (fun pi hpi => hag _ (lin pi hpi))
      (fun t ht => hag _ (ltar t ht)) po hpo
  obtain ⟨po, hpo, hd⟩ : ∃ po ∈ c.outputs, m2 (varOf c implcnf po) ≠ s (varOf c speccnf po) := by
    by_contra hno
    exact hne fun po hpo => by
      by_contra hd
      exact hno ⟨po, hpo, hd⟩
  obtain ⟨m, hag, hsat⟩ := setNEqual_map_extend (l := c.outputs)
    (f := fun pout => idx implcnf c pout + (implcnf.numVars : Int))
    (h := fun pout => speccnf.getIndex (c.node pout).name + ((implcnf.numVars * 2 : Nat) : Int))
    (multiBase_below h) hbase (fun a ha => by
      rw [(h.natAbs (n := a) (by simp [ha])).2, h.natAbs_spec (by simp [ha])]
      exact ⟨lout2 a ha, lout a ha⟩)
    ⟨po, hpo, by
      rw [(h.natAbs (n := po) (by simp [hpo])).2, h.natAbs_spec (by simp [hpo]),
        h2 _ (hlt po (by simp [hpo])), three_third]
      exact hd⟩
  refine ⟨m, hsat, OrdMap.tabulate_inj.2 fun sig hsig => ?_⟩
  have hm := hcopies m (setNEqual_differ hsat).1
  rw [(h.natAbs (n := sig) (by simp [hsig])).1]
  -- the signals are functions of the inputs, which both models share with the second copy
  refine h.free m m1 hm.sat1 hc.sat1 (fun pi hpi => ?_) sig hsig
  rw [(hm.inputs pi hpi).1, hag _ (lin pi hpi), h2 _ (hlt pi (by simp [hpi]))]
  exact (hc.inputs pi hpi).1.symm

/-- **The constructor ends** with the found patterns in the on-set of every target. -/
theorem solveMulti_spec {solve : Nat → Solve} (hex : ∀ i, Exact (solve i)) :
    ∃ fuel st found, solveMulti implcnf speccnf c targets signals solve fuel = some st ∧
      st.in2cases = targets.map (fun _ => found) ∧ found.Nodup ∧
      ∀ p, p ∈ found ↔ FoundMulti implcnf speccnf c targets signals p := by
  have hblock : Excludes (fun st : Multi => st.main.clauses) [] (newPattern implcnf c signals)
      (multiRound implcnf c signals) := by
    intro st m0 m _
    simp only [multiRound, elimMulti]
    rw [(addClause_adds st.main _).sat]
    simp only [List.mem_map, exists_exists_and_eq_and]
    refine and_congr_right fun _ => ?_
    rw [newPattern, newPattern, ne_eq, OrdMap.tabulate_inj]
    push Not
    refine exists_congr fun sig => and_congr_right fun hsig => ?_
    rw [Pattern.at_tabulate hsig]
    cases m (idx implcnf c sig).natAbs <;> cases m0 (idx implcnf c sig).natAbs <;> simp
  obtain ⟨fuel, st, hst, hI, hnd, hmem⟩ := enum_total hblock hex (l := patterns signals)
    (fun m => tabulate_mem signals _)
    (I := fun st ps => st.in2cases = targets.map fun _ => ps)
    (fun st ps m hst => by
      rw [multiRound, hst, List.map_map]
      rfl)
    (s := { main := makeMulti implcnf speccnf c targets, in2cases := targets.map fun _ => [] })
    rfl 0
  refine ⟨fuel, st.solver, st.found, ?_, hI, hnd, fun p => (hmem p).trans ⟨?_, fun hp => ?_⟩⟩
  · rw [solveMulti, hst, Option.map_some]
  · rintro ⟨m, h1, -, rfl⟩
    exact foundMulti_of_model h h1
  · obtain ⟨m, h1, h2⟩ := model_of_foundMulti h hp
    exact ⟨m, h1, holds_nil m, h2⟩

end

end Msyn.DC
