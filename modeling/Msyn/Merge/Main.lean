import Mathlib.Data.List.Sort
import Msyn.Circuit.Levels
import Msyn.Merge.Histogram
import Msyn.Merge.Keeps

/-!
# The program

`main` reads the file, orders its nodes, puts each in a cluster, runs the passes and writes the
circuit by nodes and by clusters. What it does not determine itself is in `Surroundings`: the order
of equal nodes, addresses, the order of the unordered set of clusters, ABC and the solvers.

`Sound p c`: the circuit `c` is well formed, computes the outputs of the circuit `p` that was read,
and keeps its names and ports. Every step of the passes keeps this (`Sound.selectIter`,
`Sound.sameNet`), so that all files that are written are read back as circuits with the ports and
the outputs of `p` (`main_sound`).
-/

namespace Msyn.NodeMerge

open Nodecircuit Circuit MergeSelection Msyn.Parser

/-! ## The function main -/

/-- What `main` does not determine itself. `env lmt seed` answers the solver calls for the cluster
`seed` in the pass `SelectMerge(lmt)`; `fuel` bounds the loops that need not end. -/
structure Surroundings where
  fuel : Nat
  sort : (NodeId → Nat) → List NodeId → List NodeId
  new : NodeId → ClusterId
  bucket : List ClusterId → List ClusterId
  env : Int → ClusterId → Env

/-- Sorting sorts, allocations are distinct, and the unordered set holds what was inserted. -/
structure Surroundings.Valid (w : Surroundings) : Prop where
  sort : ∀ order l, SortByOrder order l (w.sort order l)
  new : Function.Injective w.new
  bucket : ∀ l, (w.bucket l).Perm l

/-- The files that `main` writes. -/
structure Written where
  test : String
  outputM : String
  output : String

section
variable (w : Surroundings)

/-- `AssignOrder`, `SortByOrder` and `InitCluster`. -/
def prepare (c : Circuit) : Option Circuit := do
  let order ← c.assignOrder w.fuel fun _ => 0
  let c := { c with allNodes := w.sort order c.allNodes }
  let c := c.initCluster w.new
  some { c with allClusters := w.bucket c.allClusters }

/-- The selection that `SelectMerge(lmt)` makes for a seed. -/
def selector (spec : Circuit) (lmt : Int) (seed : ClusterId) : Selector :=
  mergeSelection (w.env lmt seed) w.fuel spec

/-- The passes in the order of `main`. -/
def passes (spec c : Circuit) : Option Circuit := do
  let c ← selectMerge (selector w spec 1) spec 1 c
  let c ← faninMerge c
  let c ← selectMerge (selector w spec 2) spec 2 c
  let c ← faninMerge c
  quickMerge c

/-- `main` on the text of the input file; `none` where it is undefined or does not end. The numbers
that it prints are left out, but for the table. -/
def main (text : String) : Option Written := do
  let spec ← lex text
  let impl ← lex text
  let c ← prepare w impl.circuit
  let c ← passes w spec.circuit c
  let _ ← ioCnt c
  some { test := impl.circuit.writeBlif, outputM := c.writeBlifM, output := c.writeBlif }

end

/-! ## What holds between the steps -/

/-- What the passes keep of the circuit `p` that was read. -/
structure Sound (p c : Circuit) : Prop where
  wf : Wf c
  paired : Paired c p
  keeps : Keeps p c

/-- The valuations of a circuit are those of the same nodes in another order and with other
clusters. -/
theorem valuation_iff_of_nodes {c c' : Circuit} (hall : ∀ n, n ∈ c'.allNodes ↔ n ∈ c.allNodes)
    (hnode : ∀ n, c'.node n = { c.node n with myCluster := (c'.node n).myCluster })
    {x : String → Bool} {v : NodeId → Bool} : c'.Valuation [] x v ↔ c.Valuation [] x v := by
  have heval : ∀ n, c'.eval x v n = c.eval x v n := fun n => by
    rw [eval, eval, hnode n]
  simp only [Circuit.Valuation, hall, heval]

theorem Paired.of_nodes {c c' p : Circuit} (h : Paired c p)
    (hall : ∀ n, n ∈ c'.allNodes ↔ n ∈ c.allNodes)
    (hnode : ∀ n, c'.node n = { c.node n with myCluster := (c'.node n).myCluster })
    (hpis : c'.inputs = c.inputs) (hpos : c'.outputs = c.outputs) : Paired c' p := by
  have hname : ∀ n, (c'.node n).name = (c.node n).name := fun n => by rw [hnode n]
  refine ⟨⟨fun n => ?_, fun n hn => ?_, fun a ha b hb he => ?_⟩, h.portsSpec, ⟨fun n hn => ?_,
    fun n hn => ?_, fun n hn => ?_⟩, fun x v u hv hu => ?_⟩
  · rw [hpis, hall, hnode n]
    exact h.ports.inputs n
  · rw [hall, hnode n]
    exact h.ports.outputs n (hpos ▸ hn)
  · rw [hname, hname] at he
    exact h.ports.names a ((hall a).1 ha) b ((hall b).1 hb) he
  · rw [hname]
    exact h.interface.inputs n (hpis ▸ hn)
  · obtain ⟨m, hm, he⟩ := h.interface.inputs' n hn
    exact ⟨m, hpis ▸ hm, (hname m).trans he⟩
  · rw [hname]
    exact h.interface.outputs n (hpos ▸ hn)
  · have hag := h.equivalent x v u ((valuation_iff_of_nodes hall hnode).1 hv) hu
    intro po hpo qo hqo he
    exact hag po (hpos ▸ hpo) qo hqo (he.trans (hname po))

section
variable {p c c' : Circuit} (h : Sound p c)
include h

/-- Steps that change only the clusters. -/
theorem Sound.sameNet (hs : SameNet c c') (hp : c'.Part) : Sound p c' where
  wf := SameNet.wf h.wf hs hp
  paired := h.paired.of_nodes (fun _ => by rw [hs.allNodes]) hs.node hs.pis hs.pos
  keeps := h.keeps.sameNet hs

/-- The seed of a merge is a node that is written. -/
theorem Sound.not_bare (hex : c.Exact) {env : Env} {fuel : Nat} {c1 : Circuit} {seed : ClusterId}
    {t : NodeId} {cl : List ClusterId} {ci : List NodeId} {lmt : Int} {sel : Selection}
    {onset : List (OrdMap NodeId Bool)} (hs : Selects env fuel p c c1 seed t cl ci lmt sel onset) :
    ¬Bare p t := by
  obtain ⟨ht, hti⟩ := hs.offer.node h.wf
  intro hb
  exact hs.not_constant h.wf hex h.paired (h.keeps.bare t (h.keeps.sub t ht) hb)

/-- What an iteration of `SelectMerge` does: nothing, a merge that is taken back, or a merge of a
node that is written. -/
theorem Sound.selectIter_steps {env : Env} {fuel : Nat} {lmt : Int} {seed : ClusterId}
    {it : Option ClusterId} (ha : Answers env p c seed) (hs : Spared env fuel p lmt c seed)
    (he : NodeMerge.selectIter (mergeSelection env fuel p) p lmt c seed = some (c', it)) :
    c' = c ∨ (∃ t, Rejected c c' t) ∨ ∃ sol onset t c3, onset ≠ [] ∧ ¬Bare p t ∧
      Prepared c c3 sol onset seed t ∧ Cleaned c c3 t (newInputs onset) (c.node t).inputs c' ∧
      mergeSeed sol onset seed t c = some (c', it) := by
  obtain ⟨hseed, ⟨rfl, -⟩ | ⟨t, cl, ci, c1, sel, hn, -, hi, h1, hsel, he⟩⟩ := selectIter_cases he
  · exact .inl rfl
  have ho : Offer p c c1 seed t cl ci := ⟨hseed, hn, hi, h1⟩
  rcases he with ⟨hacc, onset, hon, hmerge⟩ | ⟨-, hrej, -⟩
  · obtain ⟨hex, htr⟩ := hs t cl ci c1 sel ho hsel hacc
    have hS : Selects env fuel p c c1 seed t cl ci lmt sel onset :=
      ⟨ho, ha.translates hex t cl ci c1 ho, ha.exact, hsel, accepts_ne hacc, hon⟩
    have hM := hS.mergeable h.wf hex h.paired htr
    have hlost := hM.not_lost h.wf.mirror h.wf.part h.wf.acyclic
    have hsafe : CleanupSafe c t (newInputs onset) (c.node t).inputs := by
      by_contra hsafe
      rw [commit_undefined h.wf.mirror h.wf.part hM hlost hsafe] at hmerge
      cases hmerge
    obtain ⟨c3, c4, h3, h4, h5⟩ := commit_spec h.wf.mirror h.wf.part hM hlost hsafe
    have hmerge' := hmerge
    rw [h4] at hmerge
    cases hmerge
    exact .inr (.inr ⟨_, onset, t, c3, hM.onsetNe, h.not_bare hex hS, h3, h5, hmerge'⟩)
  · obtain ⟨ht, hti⟩ := ho.node h.wf
    obtain ⟨c2, h2, h3⟩ := reject_spec h.wf.mirror ht hti
    rw [h2] at hrej
    cases hrej
    exact .inr (.inl ⟨t, h3⟩)

/-- **An iteration of `SelectMerge`** that merges only with exact caches, and where the timer spares
what the merge rests on. -/
theorem Sound.selectIter {env : Env} {fuel : Nat} {lmt : Int} {seed : ClusterId}
    {it : Option ClusterId} (ha : Answers env p c seed) (hs : Spared env fuel p lmt c seed)
    (he : NodeMerge.selectIter (mergeSelection env fuel p) p lmt c seed = some (c', it)) :
    Sound p c' := by
  obtain ⟨hw', hp'⟩ := selectIter_equivalent h.wf h.paired ha hs he
  refine ⟨hw', hp', ?_⟩
  obtain rfl | ⟨t, hrej⟩ | ⟨sol, onset, t, c3, -, hb, h3, h5, hmerge⟩ := h.selectIter_steps ha hs he
  · exact h.keeps
  · exact h.keeps.reject hrej
  · exact h.keeps.commit h3 h5 hmerge hb

end

/-! ## The passes -/

/-- What a pass `SelectMerge(lmt)` meets at a seed: ABC is faithful and the solvers answer exactly
unless the timer strikes; if a merge is accepted, the caches are exact and the timer spares what it
rests on. -/
def Sure (w : Surroundings) (p : Circuit) (lmt : Int) (c : Circuit) (seed : ClusterId) : Prop :=
  Answers (w.env lmt seed) p c seed ∧ Spared (w.env lmt seed) w.fuel p lmt c seed

theorem Sound.selectHead {w : Surroundings} {p c c' : Circuit} {lmt : Int} {it : Option ClusterId}
    (h : Sound p c) (hs : ∀ c1 seed, SelectHead (selector w p lmt) p lmt c c1 (some seed) →
      Sure w p lmt c1 seed) (hh : SelectHead (selector w p lmt) p lmt c c' it) : Sound p c' := by
  induction hh with
  | begin => exact h
  | next hh he ih =>
    obtain ⟨ha, hsp⟩ := hs _ _ hh
    exact ih.selectIter ha hsp he

theorem faninMergeF_same : ∀ {fuel : Nat} {c c' : Circuit} {it : Option ClusterId}, c.Part →
    faninMergeF fuel c it = some c' → SameNet c c' ∧ c'.Part
  | fuel, c, c', none, hp, h => by
    cases fuel <;> cases h <;> exact ⟨.refl _, hp⟩
  | 0, _, _, some _, _, h => by cases h
  | fuel + 1, c, c', some seed, hp, h => by
    obtain ⟨c1, h1, h2⟩ := Option.bind_eq_some_iff.1 h
    have hstep : SameNet c c1 ∧ c1.Part := by
      obtain ⟨-, ⟨-, rfl⟩ | ⟨-, hg⟩⟩ := faninIter_cases hp h1
      · exact ⟨.refl _, hp⟩
      · exact ⟨hg.same, hg.part⟩
    obtain ⟨h3, h4⟩ := faninMergeF_same hstep.2 h2
    exact ⟨hstep.1.trans h3, h4⟩

theorem quickLoop_same : ∀ {fuel : Nat} {c c' : Circuit} {seed : ClusterId}, c.Part →
    seed ∈ c.allClusters → quickLoop fuel c seed = some c' → SameNet c c' ∧ c'.Part
  | 0, _, _, _, _, _, h => by cases h
  | fuel + 1, c, c', seed, hp, hs, h => by
    rw [quickLoop] at h
    split at h
    · split at h
      · rename_i k hsel
        obtain ⟨c1, h1, h2, h3⟩ := quick_spec hp hs hsel
        rw [h1] at h
        have hs' : seed ∈ c1.allClusters := by
          rw [h2.allClusters]
          exact (List.mem_erase_of_ne (quickSelect_spec hsel).ne.symm).2 hs
        obtain ⟨h4, h5⟩ := quickLoop_same h3 hs' h
        exact ⟨h2.same.trans h4, h5⟩
      · cases h
        exact ⟨.refl c, hp⟩
    · cases h
      exact ⟨.refl c, hp⟩

theorem quickMergeF_same : ∀ {fuel : Nat} {c c' : Circuit} {it : Option ClusterId}, c.Part →
    (∀ k, it = some k → k ∈ c.allClusters) → quickMergeF fuel c it = some c' →
    SameNet c c' ∧ c'.Part
  | fuel, c, c', none, hp, _, h => by
    cases fuel <;> cases h <;> exact ⟨.refl _, hp⟩
  | 0, _, _, some _, _, _, h => by cases h
  | fuel + 1, c, c', some seed, hp, hs, h => by
    obtain ⟨c1, h1, h2⟩ := Option.bind_eq_some_iff.1 h
    obtain ⟨h3, h4⟩ := quickLoop_same hp (hs seed rfl) h1
    obtain ⟨h5, h6⟩ := quickMergeF_same h4 (fun k hk => next_mem hk) h2
    exact ⟨h3.trans h5, h6⟩

/-- A seed that a pass `SelectMerge(lmt)` of `main` comes to. -/
inductive AtSeed (w : Surroundings) (p : Circuit) : Int → Circuit → ClusterId → Prop
  | first {c₀ c : Circuit} {seed : ClusterId} : prepare w p = some c₀ →
      SelectHead (selector w p 1) p 1 c₀ c (some seed) → AtSeed w p 1 c seed
  | second {c₀ c1 c2 c : Circuit} {seed : ClusterId} : prepare w p = some c₀ →
      selectMerge (selector w p 1) p 1 c₀ = some c1 → faninMerge c1 = some c2 →
      SelectHead (selector w p 2) p 2 c2 c (some seed) → AtSeed w p 2 c seed

/-- **The passes.** -/
theorem Sound.passes {w : Surroundings} {p c c' : Circuit} (h : Sound p c)
    (hc : prepare w p = some c)
    (hs : ∀ lmt c seed, AtSeed w p lmt c seed → Sure w p lmt c seed)
    (he : NodeMerge.passes w p c = some c') : Sound p c' := by
  simp only [NodeMerge.passes, Option.bind_eq_bind, Option.bind_eq_some_iff] at he
  obtain ⟨c1, h1, c2, h2, c3, h3, c4, h4, h5⟩ := he
  have s1 : Sound p c1 := h.selectHead (fun d seed hd => hs 1 d seed (.first hc hd))
    (selectMergeF_head .begin h1)
  obtain ⟨e2, q2⟩ := faninMergeF_same s1.wf.part h2
  have s2 : Sound p c2 := s1.sameNet e2 q2
  have s3 : Sound p c3 := s2.selectHead (fun d seed hd => hs 2 d seed (.second hc h1 h2 hd))
    (selectMergeF_head .begin h3)
  obtain ⟨e4, q4⟩ := faninMergeF_same s3.wf.part h4
  have s4 : Sound p c4 := s3.sameNet e4 q4
  obtain ⟨e5, q5⟩ := quickMergeF_same s4.wf.part (fun k hk => List.mem_of_mem_head? hk) h5
  exact s4.sameNet e5 q5

/-! ## The clusters that the passes start from -/

theorem mirror_perm {c : Circuit} {ns : List NodeId} (hm : c.Mirror) (hp : ns.Perm c.allNodes) :
    Mirror { c with allNodes := ns } where
  nodup := hp.nodup_iff.2 hm.nodup
  closed n hn i hi := hp.mem_iff.2 (hm.closed n (hp.mem_iff.1 hn) i hi)
  outs n hn m hmem := hp.mem_iff.2 (hm.outs n (hp.mem_iff.1 hn) m hmem)
  count a ha b hb := hm.count a (hp.mem_iff.1 ha) b (hp.mem_iff.1 hb)

/-- The circuit of a text, ordered and with a cluster for each node. -/
theorem Sound.prepare {w : Surroundings} {text : String} {l : Lexer} {c : Circuit} (hv : w.Valid)
    (hl : lex text = some l) (ht : Tidy l.circuit) (h : NodeMerge.prepare w l.circuit = some c) :
    Sound l.circuit c ∧ l.circuit.IsAcyclic := by
  obtain ⟨order, h1, h2⟩ := Option.bind_eq_some_iff.1 h
  cases h2
  have hw := Tidy.writable hl ht
  have hm := lex_mirror hl
  have hpi : l.circuit.PisClean := fun n hn hi => (ht.leaf n hn hi).1
  have hac : l.circuit.IsAcyclic := (assignOrder_acyclic h1).mono fun i n hin => by
    refine ⟨hin, ?_⟩
    by_contra hi
    rw [Bool.not_eq_false] at hi
    have := hin.2
    rw [hpi n hin.1 hi] at this
    cases this
  have hports : Ports l.circuit := ⟨hw.inputs, fun n hn => (hw.outputs n).1 hn,
    fun a ha b hb => hw.nameOf_inj ha hb⟩
  have hperm := (hv.sort order l.circuit.allNodes).perm
  have hstart : Start w.new { l.circuit with allNodes := w.sort order l.circuit.allNodes } := {
    mirror := mirror_perm hm hperm
    acyclic := hac.mono fun i n hin => ⟨hperm.mem_iff.1 hin.1, hin.2⟩
    pisClean := fun n hn => hpi n (hperm.mem_iff.1 hn)
    names := fun s n hn => hperm.mem_iff.2 ((hw.map s n).1 hn).1
    noClusters := (lex_formed hl).noClusters
    new := fun _ _ _ _ he => hv.new he }
  have hbucket := hv.bucket
    (({ l.circuit with allNodes := w.sort order l.circuit.allNodes } : Circuit).initCluster
      w.new).allClusters
  have hsame := initCluster_sameNet hstart.new
  have hs : SameNet { l.circuit with allNodes := w.sort order l.circuit.allNodes }
      { ({ l.circuit with allNodes := w.sort order l.circuit.allNodes } : Circuit).initCluster w.new
        with allClusters := w.bucket (({ l.circuit with
          allNodes := w.sort order l.circuit.allNodes } : Circuit).initCluster w.new).allClusters } :=
    ⟨hsame.node, by simp only; rw [hsame.rest]⟩
  refine ⟨⟨(hstart.wf hbucket).1, ?_, ((Keeps.refl hw).perm hperm).sameNet hs⟩, hac⟩
  refine (Paired.refl hports hac hm.closed).of_nodes (fun n => ?_) hs.node hs.pis hs.pos
  rw [hs.allNodes]
  exact hperm.mem_iff

/-! ## What is written -/

/-- The circuit has the ports of the specification, no cycle, and computes its outputs. -/
structure Implements (c spec : Circuit) : Prop where
  inputs : (c.inputs.map fun n => (c.node n).name) = spec.inputs.map fun n => (spec.node n).name
  outputs : (c.outputs.map fun n => (c.node n).name) = spec.outputs.map fun n => (spec.node n).name
  acyclic : c.IsAcyclic
  equivalent : Equivalent c spec

/-- What is read for a circuit implements what the circuit does. -/
theorem Implements.reread {c spec : Circuit} (h : Implements c spec) (hw : Writable c) {l : Lexer}
    (hr : Reread c l) : Implements l.circuit spec where
  inputs := hr.same.inputs.trans h.inputs
  outputs := hr.same.outputs.trans h.outputs
  acyclic := hr.isAcyclic hw h.acyclic
  equivalent x v' u hv' hu := by
    obtain ⟨v, hv, hvv⟩ := hr.valuation hw hv'
    intro po' hpo' qo hqo he
    -- the output of the circuit that has this name
    have hmem : (l.circuit.node po').name ∈ c.outputs.map fun n => (c.node n).name := by
      rw [← hr.same.outputs]
      exact List.mem_map_of_mem hpo'
    obtain ⟨po, hpo, hname⟩ := List.mem_map.1 hmem
    have hpoc : po' ∈ l.circuit.allNodes := by
      rw [hr.formed.outputs] at hpo'
      exact (List.mem_filter.1 hpo').1
    have hval := hvv po ((hw.outputs po).1 hpo).1 po' hpoc hname.symm
    rw [← hval]
    exact h.equivalent x v u hv hu po hpo qo hqo (he.trans hname.symm)

/-- A circuit of the passes, as it is written. -/
theorem Sound.written {p c : Circuit} (h : Sound p c) (hp : Writable p) :
    (∃ l, lex c.writeBlif = some l ∧ Implements l.circuit p) ∧
      ∃ l, lex c.writeBlifM = some l ∧ Implements l.circuit p := by
  obtain ⟨d, hd, hg, e1, e2, hac, e3, e4, e5, hsub⟩ := h.keeps.written hp h.wf
  have himp : Implements d p := {
    inputs := by
      rw [e3, e5, h.keeps.pis]
      simp only [h.keeps.names]
    outputs := by
      rw [e4, e5, h.keeps.pos]
      simp only [h.keeps.names]
    acyclic := hac
    equivalent := fun x v u hv hu => by
      have hv' : c.Valuation [] x v := fun n hn hf => by
        have := hv n (hsub n hn) hf
        rwa [eval, e5] at this
      have hag := h.paired.equivalent x v u hv' hu
      intro po hpo qo hqo he
      rw [e5] at he
      exact hag po (e4 ▸ hpo) qo hqo he }
  obtain ⟨l1, h1, h2⟩ := hd.rereads
  obtain ⟨l2, h3, h4⟩ := hd.rereadsM hg
  exact ⟨⟨l1, e1 ▸ h1, himp.reread hd h2⟩, l2, e2 ▸ h3, himp.reread hd h4⟩

theorem Implements.refl {c : Circuit} (hp : Ports c) (hac : c.IsAcyclic) (hcl : c.Closed) :
    Implements c c where
  inputs := rfl
  outputs := rfl
  acyclic := hac
  equivalent := (Paired.refl hp hac hcl).equivalent

/-- The files that are written for the circuit that was read and for one that the passes make of
it. -/
theorem Sound.files {text : String} {l : Lexer} {c : Circuit} (hl : lex text = some l)
    (ht : Tidy l.circuit) (hac : l.circuit.IsAcyclic) (h : Sound l.circuit c) :
    ∀ file ∈ [l.circuit.writeBlif, c.writeBlifM, c.writeBlif],
      ∃ l', lex file = some l' ∧ Implements l'.circuit l.circuit := by
  have hw := Tidy.writable hl ht
  obtain ⟨hplain, hclustered⟩ := h.written hw
  have hports : Ports l.circuit := ⟨hw.inputs, fun n hn => (hw.outputs n).1 hn,
    fun a ha b hb => hw.nameOf_inj ha hb⟩
  obtain ⟨l0, h3, h4⟩ := hw.rereads
  intro file hfile
  simp only [List.mem_cons, List.not_mem_nil, or_false] at hfile
  rcases hfile with rfl | rfl | rfl
  · exact ⟨l0, h3, (Implements.refl hports hac hw.closed).reread hw h4⟩
  · exact hclustered
  · exact hplain

/-- **The program keeps the function of the circuit**: if `main` returns, every file that it writes
is read back as a circuit without cycles that has the ports of the one that was read and computes
its outputs. -/
theorem main_sound {w : Surroundings} {text : String} {l : Lexer} {out : Written} (hv : w.Valid)
    (hl : lex text = some l) (ht : Tidy l.circuit)
    (hs : ∀ lmt c seed, AtSeed w l.circuit lmt c seed → Sure w l.circuit lmt c seed)
    (h : main w text = some out) : ∀ file ∈ [out.test, out.outputM, out.output],
      ∃ l', lex file = some l' ∧ Implements l'.circuit l.circuit := by
  simp only [main, hl, Option.bind_eq_bind, Option.bind_some, Option.bind_eq_some_iff,
    Option.some.injEq] at h
  obtain ⟨c, h1, c', h2, cnt, -, rfl⟩ := h
  obtain ⟨hsound, hac⟩ := Sound.prepare hv hl ht h1
  exact (hsound.passes h1 hs h2).files hl ht hac

/-! ## A run that is checked -/

instance (c : Circuit) : Decidable c.Exact :=
  decidable_of_iff (∀ k ∈ c.allClusters,
    (∀ i ∈ (c.cluster k).inputNodes.elems, i ∉ (c.cluster k).nodesC ∧
      ∃ n ∈ (c.cluster k).nodesC, i ∈ (c.node n).inputs) ∧
    ∀ n ∈ (c.cluster k).nodesC, ∀ i ∈ (c.node n).inputs, i ∉ (c.cluster k).nodesC →
      i ∈ (c.cluster k).inputNodes.elems) (by
    refine forall₂_congr fun k _ => ⟨fun ⟨h1, h2⟩ i => ⟨h1 i, ?_⟩, fun h => ⟨fun i hi => (h i).1 hi, ?_⟩⟩
    · rintro ⟨hi, n, hn, hin⟩
      exact h2 n hn i hin hi
    · exact fun n hn i hi him => (h i).2 ⟨him, n, hn, hi⟩)

/-- The caches are exact, and ABC gets a simple netlist. -/
def seedOk (p c : Circuit) (seed : ClusterId) : Bool :=
  decide c.Exact && match (c.cluster seed).nodesC with
  | [t] => (initCand p c seed).all fun r => (setTargets [t] c).all fun c1 =>
    decide (CNFgen.netlistOf c1 [t] r.2).Simple
  | _ => true

/-- Without timeouts, and with ABC returning the circuits as they are. -/
theorem Sound.sure_of_ok {w : Surroundings} {p c : Circuit} {lmt : Int} {seed : ClusterId}
    (h : Sound p c) (hw : ∀ lmt seed, w.env lmt seed = plainEnv) (hcl : p.Closed)
    (hp : (CNFgen.netlistOf p [] []).Simple) (hok : seedOk p c seed = true) : Sure w p lmt c seed := by
  rw [seedOk, Bool.and_eq_true, decide_eq_true_eq] at hok
  obtain ⟨hex, hok⟩ := hok
  refine ⟨?_, fun t cl ci c1 sel _ _ _ => ⟨hex, ?_⟩⟩
  · rw [hw]
    refine ⟨plainEnv_exact, fun hex t cl ci c1 ho => ?_⟩
    rw [ho.nodes] at hok
    exact (answers_netlistOf rfl plainEnv_exact h.wf h.paired hcl ho.nodes hp hok).translates hex t cl
      ci c1 ho
  · rw [hw]
    exact plainEnv_quiet.trusted

theorem Sound.sure_of_checked {w : Surroundings} {p c₀ c : Circuit} {lmt : Int} {fuel : Nat}
    {it : Option ClusterId} (h : Sound p c₀) (hw : ∀ lmt seed, w.env lmt seed = plainEnv)
    (hcl : p.Closed) (hp : (CNFgen.netlistOf p [] []).Simple)
    (hc : checkSeeds (selector w p lmt) p lmt (seedOk p) fuel c₀ c₀.allClusters.head? = true)
    (hh : SelectHead (selector w p lmt) p lmt c₀ c it) :
    Sound p c ∧ ∀ seed, it = some seed → Sure w p lmt c seed := by
  have hsure : ∀ {c1 : Circuit} {seed : ClusterId}, Sound p c1 →
      SelectHead (selector w p lmt) p lmt c₀ c1 (some seed) → Sure w p lmt c1 seed :=
    fun hs hh => hs.sure_of_ok hw hcl hp (hh.check hc)
  induction hh with
  | begin => exact ⟨h, fun seed hit => hsure h (hit ▸ .begin)⟩
  | next hh he ih =>
    obtain ⟨ha, hsp⟩ := ih.2 _ rfl
    have hs := ih.1.selectIter ha hsp he
    exact ⟨hs, fun seed hit => hsure hs (hit ▸ hh.next he)⟩

/-- Both passes `SelectMerge` check their seeds. -/
def seedsOk (w : Surroundings) (p : Circuit) : Bool :=
  (prepare w p).any fun c₀ =>
    checkSeeds (selector w p 1) p 1 (seedOk p) c₀.allClusters.length c₀ c₀.allClusters.head? &&
      (selectMerge (selector w p 1) p 1 c₀).any fun c1 => (faninMerge c1).any fun c2 =>
        checkSeeds (selector w p 2) p 2 (seedOk p) c2.allClusters.length c2 c2.allClusters.head?

theorem seedsOk_sure {w : Surroundings} {text : String} {l : Lexer} (hv : w.Valid)
    (hl : lex text = some l) (ht : Tidy l.circuit) (hw : ∀ lmt seed, w.env lmt seed = plainEnv)
    (hp : (CNFgen.netlistOf l.circuit [] []).Simple) (h : seedsOk w l.circuit = true) :
    ∀ lmt c seed, AtSeed w l.circuit lmt c seed → Sure w l.circuit lmt c seed := by
  obtain ⟨c₀, h0, h⟩ := (Option.any_eq_true _ _).1 h
  obtain ⟨h1, h⟩ := Bool.and_eq_true _ _ ▸ h
  obtain ⟨c1, e1, h⟩ := (Option.any_eq_true _ _).1 h
  obtain ⟨c2, e2, h2⟩ := (Option.any_eq_true _ _).1 h
  have hcl := (lex_mirror hl).closed
  obtain ⟨s0, -⟩ := Sound.prepare hv hl ht h0
  obtain ⟨s1, -⟩ := s0.sure_of_checked hw hcl hp h1 (selectMergeF_head .begin e1)
  obtain ⟨hsame, hpart⟩ := faninMergeF_same s1.wf.part e2
  have s2 : Sound l.circuit c2 := s1.sameNet hsame hpart
  intro lmt c seed hat
  cases hat with
  | first e0 hh =>
    cases h0.symm.trans e0
    exact (s0.sure_of_checked hw hcl hp h1 hh).2 seed rfl
  | second e0 e3 e4 hh =>
    cases h0.symm.trans e0
    cases e1.symm.trans e3
    cases e2.symm.trans e4
    exact (s2.sure_of_checked hw hcl hp h2 hh).2 seed rfl

/-- A stable sort, no timeouts, and ABC that returns the circuits as they are. -/
def plainSurroundings : Surroundings where
  fuel := 40
  sort order l := l.insertionSort fun a b => order a ≤ order b
  new := id
  bucket l := l
  env _ _ := plainEnv

theorem plainSurroundings_valid : plainSurroundings.Valid where
  sort order l := {
    perm := List.perm_insertionSort _ l
    sorted := by
      have : Std.Total fun a b : NodeId => order a ≤ order b := ⟨fun a b => Nat.le_total _ _⟩
      have : IsTrans NodeId fun a b => order a ≤ order b := ⟨fun a b c => Nat.le_trans⟩
      refine (List.pairwise_insertionSort (fun a b => order a ≤ order b) l).imp fun {a b} hab => ?_
      exact decide_eq_false (Nat.not_lt_of_le hab) }
  new := Function.injective_id
  bucket l := .refl l

/-- `s` reads `p` through `a`. -/
def buffersText : String :=
  ".model t\n.inputs p\n.outputs s\n.names p a\n1 1\n.names a s\n1 1\n.end\n"

/-- `s` becomes a buffer of `p`, and `a` is gone. -/
theorem main_sound_buffers : ∃ l out, lex buffersText = some l ∧
    main plainSurroundings buffersText = some out ∧
    ∀ file ∈ [out.test, out.outputM, out.output],
      ∃ l', lex file = some l' ∧ Implements l'.circuit l.circuit := by
  have hlex : ((lex buffersText).any fun l => decide (Tidy l.circuit ∧
      (CNFgen.netlistOf l.circuit [] []).Simple ∧ seedsOk plainSurroundings l.circuit = true)) = true := by
    decide +kernel
  have hrun : (main plainSurroundings buffersText).isSome = true := by decide +kernel
  obtain ⟨l, hl, h⟩ := (Option.any_eq_true _ _).1 hlex
  obtain ⟨h1, h2, h3⟩ := of_decide_eq_true h
  obtain ⟨out, ho⟩ := Option.isSome_iff_exists.1 hrun
  exact ⟨l, out, hl, ho, main_sound plainSurroundings_valid hl h1
    (seedsOk_sure plainSurroundings_valid hl h1 (fun _ _ => rfl) h2 h3) ho⟩

end Msyn.NodeMerge
