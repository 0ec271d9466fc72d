import Msyn.Merge.Main
import Msyn.Sat.Circuit2Abc

/-!
# The networks of a run

`main_sound` takes from the environment what ABC delivers for a circuit. Here this is what ABC's
commands `opt` make of the network that `Circuit2Abc` writes (`throughAbc`), so that it is enough
that the commands keep the valuations of the networks that the run hands to them.

The assertion of `Circuit2Abc` asks for covers that are not empty. No merge writes an empty cover
(`Filled.commit`), so it holds at every seed if it holds of the circuit that was read
(`atSeed_filled`).
-/

namespace Msyn.NodeMerge

open Nodecircuit Circuit CNFgen MergeSelection
open Msyn.Parser hiding Netlist

/-- What `Init` gets back from ABC; nothing is read of a network that was not made. -/
def throughAbc (opt : Netlist → Netlist) (c : Circuit) (exIn exOut : List NodeId) : Netlist :=
  ((circuit2Abc c exIn exOut).map opt).getD { pis := [], pos := [], nodes := [] }

/-- Every node that is no input has a cover. -/
def Filled (c : Circuit) : Prop :=
  ∀ n ∈ c.allNodes, (c.node n).isInput = false → (c.node n).cube ≠ ""

instance (c : Circuit) : Decidable (Filled c) :=
  inferInstanceAs (Decidable (∀ n ∈ c.allNodes, (c.node n).isInput = false → (c.node n).cube ≠ ""))

/-- The covers fit the buffer of `Circuit2Abc`. -/
def Short (c : Circuit) : Prop := ∀ n ∈ c.allNodes, (c.node n).cube.utf8ByteSize < 99999

instance (c : Circuit) : Decidable (Short c) :=
  inferInstanceAs (Decidable (∀ n ∈ c.allNodes, (c.node n).cube.utf8ByteSize < 99999))

/-! ## The assertion -/

/-- A cover has a line unless it is empty. -/
theorem newline_mem_iff {cube : String} (h : IsCover cube) : '\n' ∈ cube.toList ↔ cube ≠ "" := by
  obtain ⟨lines, -, he⟩ := h
  constructor
  · intro hm heq
    rw [heq] at hm
    cases hm
  · intro hne
    cases lines with
    | nil => exact absurd (String.toList_inj.1 (by rw [he]; rfl)) hne
    | cons line lines =>
      rw [he, List.flatMap_cons]
      simp

theorem writeCube_ne {onset : List (OrdMap NodeId Bool)} (h : onset ≠ []) : writeCube onset ≠ "" := by
  intro he
  have hl : (writeCube onset).toList = [] := by rw [he]; rfl
  rw [writeCube, writeCube_fold, String.toList_empty, List.nil_append] at hl
  obtain ⟨m, ms, rfl⟩ := List.exists_cons_of_ne_nil h
  simp at hl

/-- `Circuit2Abc` makes a network of a circuit whose covers are filled and short. -/
theorem circuit2Abc_isSome {c : Circuit} {exIn exOut : List NodeId} (hp : Ports c)
    (hex : ∀ n ∈ exIn, n ∈ c.allNodes)
    (hc : ∀ n ∈ c.allNodes, (c.node n).isInput = false → n ∉ exIn → IsCover (c.node n).cube ∧
      (c.node n).cube ≠ "" ∧ (c.node n).cube.utf8ByteSize < 99999) :
    (circuit2Abc c exIn exOut).isSome = true := by
  rw [circuit2Abc_eq hp hex, if_pos]
  · rfl
  · intro n hn hi
    obtain ⟨h1, h2, h3⟩ := hc n hn hi.1 hi.2
    exact ⟨(newline_mem_iff h1).2 h2, h3⟩

/-! ## The covers stay filled -/

section
variable {c c' : Circuit} (h : Filled c)
include h

theorem Filled.sameNet (hs : SameNet c c') : Filled c' := by
  intro n hn hi
  rw [hs.allNodes] at hn
  rw [hs.node n] at hi ⊢
  exact h n hn hi

theorem Filled.reject {t : NodeId} (hr : Rejected c c' t) : Filled c' := by
  intro n hn hi
  rw [hr.allNodes] at hn
  rw [hr.isInput] at hi
  rw [hr.cube]
  exact h n hn hi

/-- A merge writes a cover with a line. -/
theorem Filled.commit {c3 : Circuit} {sol : List ClusterId} {onset : List (OrdMap NodeId Bool)}
    {seed : ClusterId} {t : NodeId} {l : List NodeId} (hne : onset ≠ [])
    (h3 : Prepared c c3 sol onset seed t) (hc : Cleaned c c3 t (newInputs onset) l c') :
    Filled c' := by
  intro n hn hi
  have hn3 : n ∈ c3.allNodes := hc.stripped.sub.mem hn
  rw [hc.stripped.isInput] at hi
  rw [hc.stripped.node n]
  show (c3.node n).cube ≠ ""
  rw [h3.cube]
  split
  · exact writeCube_ne hne
  · rw [h3.rewired.allNodes] at hn3
    rw [h3.rewired.isInput] at hi
    exact h n hn3 hi

theorem Filled.perm {ns : List NodeId} (hp : ns.Perm c.allNodes) :
    Filled { c with allNodes := ns } := fun n hn hi => h n (hp.mem_iff.1 hn) hi

end

/-- An iteration of `SelectMerge`. -/
theorem Filled.selectIter {p c c' : Circuit} (hf : Filled c) (h : Sound p c) {env : Env} {fuel : Nat}
    {lmt : Int} {seed : ClusterId} {it : Option ClusterId} (ha : Answers env p c seed)
    (hs : Spared env fuel p lmt c seed)
    (he : NodeMerge.selectIter (mergeSelection env fuel p) p lmt c seed = some (c', it)) :
    Filled c' := by
  obtain rfl | ⟨t, hrej⟩ | ⟨sol, onset, t, c3, hne, -, h3, h5, -⟩ := h.selectIter_steps ha hs he
  · exact hf
  · exact hf.reject hrej
  · exact hf.commit hne h3 h5

/-! ## The networks at a seed -/

/-- What `SelectMerge(lmt)` meets at a seed: the solvers answer exactly unless the timer strikes; if a
merge is accepted, the caches are exact and the timer spares what it rests on; and ABC's commands
keep the network with the target freed. -/
structure Serves (w : Surroundings) (opt : Netlist → Netlist) (p : Circuit) (lmt : Int) (c : Circuit)
    (seed : ClusterId) : Prop where
  exact : (w.env lmt seed).Exact
  spared : Spared (w.env lmt seed) w.fuel p lmt c seed
  short : Short c
  networks : ∀ t cl ci c1 ntk, Offer p c c1 seed t cl ci → circuit2Abc c1 [t] ci = some ntk →
    Reexpresses ntk (opt ntk)

/-- The circuit that was read, with what `Circuit2Abc` and ABC need of it. -/
structure Source (opt : Netlist → Netlist) (p : Circuit) : Prop where
  writable : Writable p
  filled : Filled p
  short : Short p
  network : ∀ ntk, circuit2Abc p [] [] = some ntk → Reexpresses ntk (opt ntk)

section
variable {opt : Netlist → Netlist} {p : Circuit} (hs : Source opt p)
include hs

theorem Source.ports : Ports p :=
  ⟨hs.writable.inputs, fun n hn => (hs.writable.outputs n).1 hn,
    fun _ ha _ hb => hs.writable.nameOf_inj ha hb⟩

/-- The network of the specification. -/
theorem Source.made : (circuit2Abc p [] []).isSome = true :=
  circuit2Abc_isSome hs.ports (by simp) fun n hn hi _ =>
    ⟨hs.writable.cube n hn, hs.filled n hn hi, hs.short n hn⟩

theorem Source.delivers : Delivers (throughAbc opt p [] []) p [] [] := by
  obtain ⟨ntk, hntk⟩ := Option.isSome_iff_exists.1 hs.made
  rw [throughAbc, hntk]
  exact circuit2Abc_delivers hs.ports hs.writable.closed (by simp) (by simp) hntk (hs.network ntk hntk)

variable {c c1 : Circuit} {seed : ClusterId} {t : NodeId} {cl : List ClusterId} {ci : List NodeId}
  (h : Sound p c) (hf : Filled c) (hshort : Short c) (ho : Offer p c c1 seed t cl ci)
include h hf hshort ho

omit hs in
/-- The network of the implementation with the target freed. -/
theorem Sound.made : (circuit2Abc c1 [t] ci).isSome = true := by
  have hset := ho.targetSet h.wf
  refine circuit2Abc_isSome (ho.ports h.wf h.paired.ports) (fun n hn => ?_) fun n hn hi hnt => ?_
  · rw [List.mem_singleton.1 hn, hset.allNodes]
    exact (ho.node h.wf).1
  · rw [hset.allNodes] at hn
    rw [hset.isInput] at hi
    have hne : n ≠ t := by simpa using hnt
    rw [hset.cube hne]
    exact ⟨h.keeps.cube n (h.keeps.sub n hn), hf n hn hi, hshort n hn⟩

theorem Source.translates (hex : c.Exact) (hopt : ∀ ntk, circuit2Abc c1 [t] ci = some ntk →
    Reexpresses ntk (opt ntk)) : Translates (throughAbc opt) p c1 t ci where
  impl := by
    have hset := ho.targetSet h.wf
    obtain ⟨ntk, hntk⟩ := Option.isSome_iff_exists.1 (h.made hf hshort ho)
    rw [throughAbc, hntk]
    refine circuit2Abc_delivers (ho.ports h.wf h.paired.ports) (ho.closed h.wf) (fun n hn => ?_)
      (fun n hn hout => ?_) hntk (hopt ntk hntk)
    · rw [hset.allNodes]
      rcases List.mem_append.1 hn with hn | hn
      · rw [List.mem_singleton.1 hn]
        exact (ho.node h.wf).1
      · exact (ho.inputs h.wf hex hn).1
    · rw [hset.isOutput, h.keeps.isOutput] at hout
      rw [hset.pos, h.keeps.pos]
      exact (hs.writable.outputs n).2 ⟨h.keeps.sub n (ho.inputs h.wf hex hn).1, hout⟩
  spec := hs.delivers

end

/-! ## The run -/

section
variable {w : Surroundings} {opt : Netlist → Netlist} {p : Circuit}
  (habc : ∀ lmt seed, (w.env lmt seed).abc = throughAbc opt) (hs : Source opt p)
include habc hs

/-- What a seed meets is what `main_sound` asks for. -/
theorem Serves.sure {lmt : Int} {c : Circuit} {seed : ClusterId} (h : Sound p c) (hf : Filled c)
    (hw : Serves w opt p lmt c seed) : Sure w p lmt c seed := by
  refine ⟨⟨hw.exact, fun hex t cl ci c1 ho => ?_⟩, hw.spared⟩
  rw [habc]
  exact hs.translates h hf hw.short ho hex fun ntk => hw.networks t cl ci c1 ntk ho

/-- The heads of a pass `SelectMerge`. -/
theorem Serves.selectHead {lmt : Int} {c c' : Circuit} {it : Option ClusterId} (h : Sound p c)
    (hf : Filled c) (hw : ∀ c1 seed, SelectHead (selector w p lmt) p lmt c c1 (some seed) →
      Serves w opt p lmt c1 seed)
    (hh : SelectHead (selector w p lmt) p lmt c c' it) : Sound p c' ∧ Filled c' := by
  induction hh with
  | begin => exact ⟨h, hf⟩
  | next hh he ih =>
    obtain ⟨h1, hf1⟩ := ih
    obtain ⟨ha, hsp⟩ := (hw _ _ hh).sure habc hs h1 hf1
    exact ⟨h1.selectIter ha hsp he, hf1.selectIter h1 ha hsp he⟩

end

section
variable {w : Surroundings} {opt : Netlist → Netlist} {text : String} {l : Lexer} (hv : w.Valid)
  (hl : lex text = some l) (ht : Tidy l.circuit)
  (habc : ∀ lmt seed, (w.env lmt seed).abc = throughAbc opt) (hs : Source opt l.circuit)
include hv hl ht hs

/-- The circuit that the passes start from. -/
theorem Source.prepare {c : Circuit} (h : NodeMerge.prepare w l.circuit = some c) :
    Sound l.circuit c ∧ Filled c := by
  refine ⟨(Sound.prepare hv hl ht h).1, ?_⟩
  obtain ⟨order, -, h2⟩ := Option.bind_eq_some_iff.1 h
  cases h2
  have hperm := (hv.sort order l.circuit.allNodes).perm
  exact ((hs.filled.perm hperm).sameNet (initCluster_sameNet fun _ _ _ _ he => hv.new he) :)

include habc

/-- **Every seed of the run** has a circuit with filled covers. -/
theorem atSeed_filled
    (hw : ∀ lmt c seed, AtSeed w l.circuit lmt c seed → Serves w opt l.circuit lmt c seed) {lmt : Int}
    {c : Circuit} {seed : ClusterId} (hat : AtSeed w l.circuit lmt c seed) :
    Sound l.circuit c ∧ Filled c := by
  cases hat with
  | first h0 hh =>
    obtain ⟨h, hf⟩ := hs.prepare hv hl ht h0
    exact Serves.selectHead habc hs h hf (fun c1 seed hh => hw 1 c1 seed (.first h0 hh)) hh
  | second h0 h1 h2 hh =>
    obtain ⟨h, hf⟩ := hs.prepare hv hl ht h0
    obtain ⟨s1, f1⟩ := Serves.selectHead habc hs h hf
      (fun c1 seed hh => hw 1 c1 seed (.first h0 hh)) (selectMergeF_head .begin h1)
    obtain ⟨hsame, hpart⟩ := faninMergeF_same s1.wf.part h2
    exact Serves.selectHead habc hs (s1.sameNet hsame hpart) (f1.sameNet hsame)
      (fun c1 seed hh => hw 2 c1 seed (.second h0 h1 h2 hh)) hh

/-- **The program with its own networks**: the assertion of `Circuit2Abc` holds for every network of
the run, and if `main` returns, the files that it writes are read back as circuits that implement
the one that was read. -/
theorem main_networks
    (hw : ∀ lmt c seed, AtSeed w l.circuit lmt c seed → Serves w opt l.circuit lmt c seed) :
    (∀ lmt c seed t cl ci c1, AtSeed w l.circuit lmt c seed → Offer l.circuit c c1 seed t cl ci →
      (circuit2Abc c1 [t] ci).isSome = true ∧ (circuit2Abc l.circuit [] []).isSome = true) ∧
    ∀ out, main w text = some out → ∀ file ∈ [out.test, out.outputM, out.output],
      ∃ l', lex file = some l' ∧ Implements l'.circuit l.circuit := by
  constructor
  · intro lmt c seed t cl ci c1 hat ho
    obtain ⟨h, hf⟩ := atSeed_filled hv hl ht habc hs hw hat
    exact ⟨h.made hf (hw lmt c seed hat).short ho, hs.made⟩
  · intro out hout
    simp only [main, hl, Option.bind_eq_bind, Option.bind_some, Option.bind_eq_some_iff,
      Option.some.injEq] at hout
    obtain ⟨c, h1, c', h2, cnt, -, rfl⟩ := hout
    obtain ⟨hsound, hac⟩ := Sound.prepare hv hl ht h1
    refine (hsound.passes h1 (fun lmt c seed hat => ?_) h2).files hl ht hac
    obtain ⟨h, hf⟩ := atSeed_filled hv hl ht habc hs hw hat
    exact (hw lmt c seed hat).sure habc hs h hf

end

/-! ## A run whose networks are checked -/

/-- The caches are exact, the covers fit, and the network is one of two-input nodes. -/
def seedServes (p c : Circuit) (seed : ClusterId) : Bool :=
  decide (c.Exact ∧ Short c) && match (c.cluster seed).nodesC with
  | [t] => (initCand p c seed).all fun r => (setTargets [t] c).all fun c1 =>
    (circuit2Abc c1 [t] r.2).all fun ntk => decide ntk.Simple
  | _ => true

/-- Both passes `SelectMerge` check their seeds. -/
def seedsServe (w : Surroundings) (p : Circuit) : Bool :=
  (prepare w p).any fun c₀ =>
    checkSeeds (selector w p 1) p 1 (seedServes p) c₀.allClusters.length c₀ c₀.allClusters.head? &&
      (selectMerge (selector w p 1) p 1 c₀).any fun c1 => (faninMerge c1).any fun c2 =>
        checkSeeds (selector w p 2) p 2 (seedServes p) c2.allClusters.length c2 c2.allClusters.head?

theorem AtSeed.serves {w : Surroundings} {p : Circuit} (h : seedsServe w p = true) {lmt : Int}
    {c : Circuit} {seed : ClusterId} (hat : AtSeed w p lmt c seed) : seedServes p c seed = true := by
  obtain ⟨c₀, h0, h⟩ := (Option.any_eq_true _ _).1 h
  obtain ⟨h1, h⟩ := Bool.and_eq_true _ _ ▸ h
  obtain ⟨c1, e1, h⟩ := (Option.any_eq_true _ _).1 h
  obtain ⟨c2, e2, h2⟩ := (Option.any_eq_true _ _).1 h
  cases hat with
  | first e0 hh =>
    cases h0.symm.trans e0
    exact hh.check h1
  | second e0 e3 e4 hh =>
    cases h0.symm.trans e0
    cases e1.symm.trans e3
    cases e2.symm.trans e4
    exact hh.check h2

/-- ABC that leaves the networks as they are. -/
def plainNetworks : Surroundings :=
  { plainSurroundings with env := fun _ _ => { plainEnv with abc := throughAbc id } }

theorem plainNetworks_serves {p c : Circuit} {lmt : Int} {seed : ClusterId}
    (h : seedServes p c seed = true) : Serves plainNetworks id p lmt c seed := by
  rw [seedServes, Bool.and_eq_true, decide_eq_true_eq] at h
  obtain ⟨⟨hex, hshort⟩, h⟩ := h
  refine ⟨⟨plainEnv_exact.1, plainEnv_exact.2, plainEnv_exact.3⟩, fun t cl ci c1 sel _ _ _ => ⟨hex, ?_⟩,
    hshort, fun t cl ci c1 ntk ho hntk => Reexpresses.refl ?_⟩
  · have hq : (plainNetworks.env lmt seed).Quiet := fun _ => ⟨rfl, rfl⟩
    exact hq.trusted
  · rw [ho.nodes] at h
    simp only [ho.cands, ho.target, hntk, Option.all_some] at h
    exact of_decide_eq_true h

/-- `s` becomes a buffer of `p`. -/
theorem main_networks_buffers : (main plainNetworks buffersText).isSome = true ∧
    ∃ l, lex buffersText = some l ∧
    (∀ lmt c seed t cl ci c1, AtSeed plainNetworks l.circuit lmt c seed →
      Offer l.circuit c c1 seed t cl ci →
      (circuit2Abc c1 [t] ci).isSome = true ∧ (circuit2Abc l.circuit [] []).isSome = true) ∧
    ∀ out, main plainNetworks buffersText = some out → ∀ file ∈ [out.test, out.outputM, out.output],
      ∃ l', lex file = some l' ∧ Implements l'.circuit l.circuit := by
  have hlex : ((lex buffersText).any fun l => decide (Tidy l.circuit ∧ Filled l.circuit ∧
      Short l.circuit ∧ ((circuit2Abc l.circuit [] []).all fun ntk => decide ntk.Simple) = true ∧
      seedsServe plainNetworks l.circuit = true)) = true := by
    decide +kernel
  obtain ⟨l, hl, h⟩ := (Option.any_eq_true _ _).1 hlex
  obtain ⟨h1, h2, h3, h4, h5⟩ := of_decide_eq_true h
  have hs : Source id l.circuit := ⟨Tidy.writable hl h1, h2, h3, fun ntk hntk => by
    rw [hntk, Option.all_some] at h4
    exact Reexpresses.refl (of_decide_eq_true h4)⟩
  have hv : plainNetworks.Valid := ⟨plainSurroundings_valid.sort, plainSurroundings_valid.new,
    plainSurroundings_valid.bucket⟩
  exact ⟨by decide +kernel, l, hl, main_networks hv hl h1 (fun _ _ => rfl) hs fun lmt c seed hat =>
    plainNetworks_serves (hat.serves h5)⟩

end Msyn.NodeMerge
