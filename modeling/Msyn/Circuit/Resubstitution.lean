import Msyn.Circuit.Equivalence
import Msyn.Lib.Resub

/-!
# A node as an on-set of other nodes

If the patterns where `t` must be 1 are in the on-set and none where it must be 0, the circuit with
the cover of the on-set in the place of `t` computes the specification
(`equivalent_of_onSet`).
-/

namespace Msyn.Nodecircuit.Circuit

variable {b c' spec : Circuit} {t : NodeId}

/-- An assignment, with a valuation of the specification under it. -/
abbrev Case (spec : Circuit) : Type :=
  { q : (String → Bool) × (NodeId → Bool) // spec.Valuation [] q.1 q.2 }

/-- With the value `e` of `t` the outputs are right. -/
def Right (b spec : Circuit) (t : NodeId) (q : Case spec) (e : Bool) : Prop :=
  ∃ u, b.Valuation [t] q.1.1 u ∧ u t = e ∧ Agree b spec u q.1.2

section
variable (hac : b.IsAcyclic) (hcl : b.Closed)

/-- The values with `t` at 0. -/
noncomputable def base (q : Case spec) : NodeId → Bool :=
  (exists_valuation hac hcl [t] q.1.1 fun _ => false).choose

theorem base_valuation (q : Case spec) : b.Valuation [t] q.1.1 (base (t := t) hac hcl q) :=
  (exists_valuation hac hcl [t] q.1.1 fun _ => false).choose_spec.1

/-- The pattern of the nodes. -/
noncomputable def patternOf (sigs : List NodeId) (q : Case spec) : OrdMap NodeId Bool :=
  OrdMap.tabulate sigs (base (t := t) hac hcl q)

variable {hac hcl}

theorem patternOf_eq {sigs : List NodeId} (hind : Independent b t sigs) {q : Case spec}
    {v : NodeId → Bool} (hv : b.Valuation [t] q.1.1 v) :
    patternOf (t := t) hac hcl sigs q = OrdMap.tabulate sigs v :=
  OrdMap.tabulate_inj.2 fun sig hsig => hind _ _ _ (base_valuation hac hcl q) hv sig hsig

/-- What `t` must be under an assignment is what the two valuations there tell. -/
theorem mustBe_of_right (hac : b.IsAcyclic) (hcl : b.Closed) {q : Case spec} {e : Bool}
    (h : Resub.Must (Right b spec t) e q) : ∃ v v', MustBe b spec t e q.1.1 v v' q.1.2 := by
  obtain ⟨⟨v, hv, hvt, hag⟩, hno⟩ := h
  obtain ⟨v', hv', hvt'⟩ := exists_valuation hac hcl [t] q.1.1 fun _ => !e
  have ht : v' t = !e := hvt' t (by simp)
  exact ⟨v, v', hv, hv', q.2, hvt, ht, hag, fun hag' => hno ⟨v', hv', ht, hag'⟩⟩

/-- The cover of an on-set over sorted keys. -/
theorem evalCube_onSet {sigs : List NodeId} (hs : sigs.Pairwise (· < ·))
    {onset : List (OrdMap NodeId Bool)} (hover : ∀ p ∈ onset, ∃ f, p = OrdMap.tabulate sigs f)
    {v : NodeId → Bool} :
    evalCube (writeCube onset) (sigs.map v) = true ↔ OrdMap.tabulate sigs v ∈ onset := by
  have hent : ∀ f : NodeId → Bool, (OrdMap.tabulate sigs f).entries = sigs.map fun k => (k, f k) :=
    fun f => OrdMap.entries_tabulate hs f
  rw [evalCube_writeCube fun m hm => by
    obtain ⟨f, rfl⟩ := hover m hm
    rw [hent, List.length_map, List.length_map]]
  constructor
  · rintro ⟨m, hm, he⟩
    obtain ⟨f, rfl⟩ := hover m hm
    rw [hent, List.map_map] at he
    have hf : OrdMap.tabulate sigs f = OrdMap.tabulate sigs v :=
      OrdMap.tabulate_inj.2 (List.map_inj_left.1 he)
    exact hf ▸ hm
  · intro hm
    exact ⟨_, hm, by rw [hent, List.map_map]; rfl⟩

/-- **The circuit with the cover of the on-set** computes the specification. -/
theorem equivalent_of_onSet (hac : b.IsAcyclic) (hcl : b.Closed) (hac' : c'.IsAcyclic)
    (hcl' : c'.Closed) (hr : Restricts b c' t) (ht : t ∈ c'.allNodes)
    (hti : (c'.node t).isInput = false) (hpos : ∀ po ∈ c'.outputs, po ∈ c'.allNodes)
    (hcur : ∀ x w, spec.Valuation [] x w → ∃ v, b.Valuation [t] x v ∧ Agree b spec v w)
    {sigs : NodeSet} (hind : Independent b t sigs.elems) {onset : List (OrdMap NodeId Bool)}
    (hins : (c'.node t).inputs = sigs.elems) (hcube : (c'.node t).cube = writeCube onset)
    (hover : ∀ p ∈ onset, ∃ f, p = OrdMap.tabulate sigs.elems f)
    (hcov : ∀ x v v' w, MustBe b spec t true x v v' w → OrdMap.tabulate sigs.elems v ∈ onset)
    (havoid : ∀ x v v' w, MustBe b spec t false x v v' w →
      OrdMap.tabulate sigs.elems v ∉ onset) : Equivalent c' spec := by
  intro x v w hv hw
  let q : Case spec := ⟨(x, w), hw⟩
  have hset : Resub.OnSet (Right b spec t) (patternOf (t := t) hac hcl sigs.elems)
      {p | p ∈ onset} := by
    refine ⟨fun q hq => ?_, fun q hq => ?_⟩ <;> obtain ⟨v, v', hb⟩ := mustBe_of_right hac hcl hq
    · rw [patternOf_eq hind hb.val]
      exact hcov _ _ _ _ hb
    · rw [patternOf_eq hind hb.val]
      exact havoid _ _ _ _ hb
  -- the valuation of `b` with `t` at its new value is that of `c'` on the nodes of `c'`
  obtain ⟨u, hu, hut⟩ := exists_valuation hac hcl [t] x v
  have hsame : ∀ n ∈ c'.allNodes, v n = u n :=
    (hv.mono [t]).unique hac' hcl' (hr.valuation hu) fun s hs => (hut s hs).symm
  have hbit : v t = true ↔ patternOf (t := t) hac hcl sigs.elems q ∈ {p | p ∈ onset} := by
    rw [hv t ht (by simp), eval, if_neg (by rw [hti]; simp), hins, hcube, patternOf_eq hind hu]
    rw [List.map_congr_left fun i hi => hsame i (hcl' t ht i (hins ▸ hi))]
    exact evalCube_onSet sigs.sorted hover
  obtain ⟨u', hu', hut', hag⟩ := hset.sound (fun q => by
    obtain ⟨v, hv, hag⟩ := hcur q.1.1 q.1.2 q.2
    exact ⟨v t, v, hv, rfl, hag⟩) hbit
  have huu : ∀ n ∈ b.allNodes, u' n = u n := hu'.unique hac hcl hu fun s hs => by
    rw [List.mem_singleton.1 hs, hut', hut t (by simp)]
  intro po hpo qo hqo he
  have hpo' := hpos po hpo
  rw [hsame po hpo', ← huu po (hr.allNodes po hpo')]
  exact hr.agree.2 hag po hpo qo hqo he

end

end Msyn.Nodecircuit.Circuit
