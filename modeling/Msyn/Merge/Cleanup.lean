import Msyn.Lib.Loop
import Msyn.Merge.NodeMerge

/-!
# The clean-up after a merge

When the fanins of `t` are replaced by the nodes `S`, the loop over its old fanins removes the
logic that nothing uses any more. `Lost c t S l` describes, on the circuit before the replacement,
what the loop has removed after the entries `l` (`removeUnused_spec`). `Remove` is called on an
entry that is already gone exactly if an earlier part of the loop removed it, so the loop is
defined exactly on `CleanupSafe` entries (`removeUnused_undefined`).
-/

namespace Msyn.NodeMerge

open Nodecircuit Circuit Relation

/-- Removed when the entries `l` are processed: neither an input nor an output, not used by the new
cover, every fanout but `t` removed, and an entry or an input of a removed node. -/
inductive Lost (c : Circuit) (t : NodeId) (S : List NodeId) (l : List NodeId) : NodeId → Prop
  | root {n : NodeId} : n ∈ l → c.Internal n → n ∉ S →
      (∀ m ∈ (c.node n).outputs, m ≠ t → Lost c t S l m) → Lost c t S l n
  | fanin {n m : NodeId} : Lost c t S l m → n ∈ (c.node m).inputs → c.Internal n → n ∉ S →
      (∀ m ∈ (c.node n).outputs, m ≠ t → Lost c t S l m) → Lost c t S l n

/-- No entry is removed by the entries before it. -/
def CleanupSafe (c : Circuit) (t : NodeId) (S l : List NodeId) : Prop :=
  ∀ a x b, l = a ++ x :: b → ¬Lost c t S a x

/-- `c₀` is `c` with the fanins of `t` replaced by `S`. -/
structure Rewired (c c₀ : Circuit) (t : NodeId) (S : List NodeId) : Prop where
  allNodes : c₀.allNodes = c.allNodes
  isInput : ∀ n, (c₀.node n).isInput = (c.node n).isInput
  isOutput : ∀ n, (c₀.node n).isOutput = (c.node n).isOutput
  inputs : ∀ n, n ≠ t → (c₀.node n).inputs = (c.node n).inputs
  inputsSelf : (c₀.node t).inputs = S
  outputs : ∀ n ∈ c.allNodes, ∀ m, m ∈ (c₀.node n).outputs ↔
    m ≠ t ∧ m ∈ (c.node n).outputs ∨ m = t ∧ n ∈ S
  count : ∀ n ∈ c.allNodes, ∀ m, m ≠ t →
    (c₀.node n).outputs.count m = (c.node n).outputs.count m
  away : ∀ n, n ∉ c.allNodes → (c.node n).outputs = [] → (c₀.node n).outputs = []
  mirror : c₀.Mirror

namespace Lost

variable {c : Circuit} {t : NodeId} {S l : List NodeId} {n : NodeId}

theorem internal (h : Lost c t S l n) : c.Internal n := by
  cases h <;> assumption

theorem not_mem_keys (h : Lost c t S l n) : n ∉ S := by
  cases h <;> assumption

theorem outputs (h : Lost c t S l n) : ∀ m ∈ (c.node n).outputs, m ≠ t → Lost c t S l m := by
  cases h <;> assumption

theorem mono {l' : List NodeId} (hl : ∀ n ∈ l, n ∈ l') (h : Lost c t S l n) : Lost c t S l' n := by
  induction h with
  | root hn hi hS _ ih => exact .root (hl _ hn) hi hS ih
  | fanin _ hin hi hS _ ihm ih => exact .fanin ihm hin hi hS ih

theorem mem (hm : c.Mirror) (hl : ∀ n ∈ l, n ∈ c.allNodes) (h : Lost c t S l n) :
    n ∈ c.allNodes := by
  induction h with
  | root hn => exact hl _ hn
  | fanin _ hin _ _ _ ihm => exact hm.closed _ ihm _ hin

/-- What is lost lies in the fanin cone of the seed. -/
theorem cone (hm : c.Mirror) (ht : t ∈ c.allNodes) (hl : ∀ n ∈ l, n ∈ (c.node t).inputs)
    (h : Lost c t S l n) : n ∈ c.allNodes ∧ TransGen c.Fanin n t := by
  induction h with
  | root hn => exact ⟨hm.closed t ht _ (hl _ hn), .single ⟨ht, hl _ hn⟩⟩
  | fanin _ hin _ _ _ ihm =>
    exact ⟨hm.closed _ ihm.1 _ hin, .head ⟨ihm.1, hin⟩ ihm.2⟩

/-- The seed is never lost. -/
theorem ne_target (hac : c.IsAcyclic) (hm : c.Mirror) (ht : t ∈ c.allNodes)
    (hl : ∀ n ∈ l, n ∈ (c.node t).inputs) : ¬Lost c t S l t := fun h => hac t (h.cone hm ht hl).2

end Lost

theorem not_lost_nil {c : Circuit} {t : NodeId} {S : List NodeId} {n : NodeId} :
    ¬Lost c t S [] n := by
  intro h
  induction h with
  | root hn => cases hn
  | fanin _ _ _ _ _ ih => exact ih

section
variable {c c₀ : Circuit} {t : NodeId} {S : List NodeId}

/-- Nothing lost: the node is lost again only through its own entry. -/
theorem deadSet (hr : Rewired c c₀ t S) {l : List NodeId} (ht : ¬Lost c t S l t)
    (hm : c.Mirror) : DeadSet c₀ (Lost c t S l) where
  internal n h := by
    have := h.internal
    exact ⟨(hr.isInput n).trans this.1, (hr.isOutput n).trans this.2⟩
  closed n hn hi hne hall := by
    rw [hr.allNodes] at hn
    have hi' : c.Internal n := ⟨(hr.isInput n).symm.trans hi.1, (hr.isOutput n).symm.trans hi.2⟩
    have hS : n ∉ S := fun hS => ht (hall t ((hr.outputs n hn t).2 (.inr ⟨rfl, hS⟩)))
    have hout : ∀ m ∈ (c.node n).outputs, m ≠ t → Lost c t S l m := fun m hmem hmt =>
      hall m ((hr.outputs n hn m).2 (.inl ⟨hmt, hmem⟩))
    obtain ⟨m, hmem⟩ := List.exists_mem_of_ne_nil _ hne
    rcases (hr.outputs n hn m).1 hmem with ⟨hmt, hmem'⟩ | ⟨rfl, hS'⟩
    · exact .fanin (hall m hmem) (hm.fanin hn hmem').2 hi' hS hout
    · exact absurd hS' hS

theorem Stripped.mono_dead {D D' : NodeId → Prop} {c' : Circuit} {P : NodeId → NodeId → Nat}
    (h : Stripped c₀ D c' P) (hD : ∀ n, D n → D' n) : Stripped c₀ D' c' P :=
  { h with dead := fun n hn hn' => ⟨hD n (h.dead n hn hn').1, (h.dead n hn hn').2⟩ }

/-- A node of `c'` all of whose fanouts in `c₀` are gone has no fanouts. -/
theorem outputs_nil_of_gone {D : NodeId → Prop} {c' : Circuit}
    (h : Stripped c₀ D c' fun _ _ => 0) (hm : c₀.Mirror) {n : NodeId} (hn : n ∈ c'.allNodes)
    (hall : ∀ m ∈ (c₀.node n).outputs, m ∉ c'.allNodes) : (c'.node n).outputs = [] := by
  rw [List.eq_nil_iff_forall_not_mem]
  intro m hmem
  have h1 := h.count n hn m
  have hpos := List.count_pos_iff.2 hmem
  by_cases hmc : m ∈ c'.allNodes
  · rw [if_pos hmc, h.inputs] at h1
    have h2 : n ∈ (c₀.node m).inputs := List.count_pos_iff.1 (by omega)
    exact hall m ((hm.mem_iff (h.sub.mem hn) (h.sub.mem hmc)).1 h2) hmc
  · rw [if_neg hmc] at h1
    omega

/-- In a clean circuit whose entries without fanouts are gone, everything lost is gone. -/
theorem Lost.gone (hr : Rewired c c₀ t S) (hm : c.Mirror) {l : List NodeId}
    (hl : ∀ n ∈ l, n ∈ c.allNodes) (ht : ¬Lost c t S l t) {D : NodeId → Prop} {c' : Circuit}
    (h : Stripped c₀ D c' fun _ _ => 0) (hcl : Clean c₀ c')
    (hroot : ∀ n ∈ l, c₀.Internal n → (c₀.node n).outputs = [] → n ∉ c'.allNodes)
    {n : NodeId} (hn : Lost c t S l n) : n ∉ c'.allNodes := by
  have hint : ∀ {n}, c.Internal n → c₀.Internal n := fun {n} hi =>
    ⟨(hr.isInput n).trans hi.1, (hr.isOutput n).trans hi.2⟩
  -- a fanout in `c₀` of a node outside `S` is a fanout in `c` other than `t`
  have hout : ∀ {n}, n ∈ c'.allNodes → n ∉ S →
      (∀ m ∈ (c.node n).outputs, m ≠ t → m ∉ c'.allNodes) → (c'.node n).outputs = [] := by
    intro n hn hS hall
    refine outputs_nil_of_gone h hr.mirror hn fun m hmem => ?_
    have hnc : n ∈ c.allNodes := hr.allNodes ▸ h.sub.mem hn
    rcases (hr.outputs n hnc m).1 hmem with ⟨hmt, hmem⟩ | ⟨-, hS'⟩
    · exact hall m hmem hmt
    · exact absurd hS' hS
  induction hn with
  | root hn hi hS _ ih =>
    intro hn'
    exact hroot _ hn (hint hi) (hcl _ hn' (hint hi) (hout hn' hS ih)) hn'
  | @fanin n m hmL hin hi hS _ _ ih =>
    intro hn'
    have hnil := hcl _ hn' (hint hi) (hout hn' hS ih)
    have hnc : n ∈ c.allNodes := hr.allNodes ▸ h.sub.mem hn'
    have hmt : m ≠ t := fun he => ht (he ▸ hmL)
    have hmem := (hr.outputs n hnc m).2 (.inl ⟨hmt, (hm.mem_iff hnc (hmL.mem hm hl)).1 hin⟩)
    rw [hnil] at hmem
    cases hmem

/-! ## The loop -/

/-- `c'` is `c₀` without the nodes that are lost when the entries `l` are processed. -/
structure Cleaned (c c₀ : Circuit) (t : NodeId) (S l : List NodeId) (c' : Circuit) : Prop where
  stripped : Stripped c₀ (Lost c t S l) c' fun _ _ => 0
  clean : Clean c₀ c'
  gone : ∀ n ∈ c₀.allNodes, n ∉ c'.allNodes ↔ Lost c t S l n

theorem removeUnused_append (a : List NodeId) (x : NodeId) :
    removeUnused (a ++ [x]) c₀ = removeUnused a c₀ >>= removeUnused [x] := by
  rw [removeUnused, List.foldlM_append]
  rfl

theorem removeUnused_singleton {c' : Circuit} (x : NodeId) : removeUnused [x] c' =
    if (c'.node x).outputs = [] ∧ (c'.node x).isInput = false ∧ (c'.node x).isOutput = false then
      c'.remove x
    else some c' := by
  simp [removeUnused]

variable (hr : Rewired c c₀ t S) (hm : c.Mirror) (htc : t ∈ c.allNodes)
include hr hm htc

/-- One entry that is still in the circuit. -/
theorem removeUnused_entry {a : List NodeId} {x : NodeId} {c' : Circuit}
    (hl : ∀ n ∈ a ++ [x], n ∈ (c.node t).inputs) (ht : ¬Lost c t S (a ++ [x]) t)
    (h : Cleaned c c₀ t S a c') (hx : ¬Lost c t S a x) :
    ∃ c'', removeUnused [x] c' = some c'' ∧ Cleaned c c₀ t S (a ++ [x]) c'' := by
  have hsub : ∀ n ∈ a, n ∈ a ++ [x] := fun n hn => List.mem_append_left _ hn
  have hall : ∀ n ∈ a ++ [x], n ∈ c.allNodes := fun n hn => hm.closed t htc n (hl n hn)
  have hx₀ : x ∈ c₀.allNodes := by rw [hr.allNodes]; exact hall x (by simp)
  have hxc : x ∈ c'.allNodes := by
    by_contra hxc
    exact hx ((h.gone x hx₀).1 hxc)
  have hst := Stripped.mono_dead h.stripped fun n hn => Lost.mono hsub hn
  -- it is enough that the entries without fanouts are gone
  have key : ∀ c'', Stripped c₀ (Lost c t S (a ++ [x])) c'' (fun _ _ => 0) → Clean c₀ c'' →
      c''.allNodes.Sublist c'.allNodes →
      (c₀.Internal x → (c₀.node x).outputs = [] → x ∉ c''.allNodes) →
      Cleaned c c₀ t S (a ++ [x]) c'' := by
    intro c'' h1 h2 h3 h4
    refine ⟨h1, h2, fun n hn => ⟨fun hn' => (h1.dead n hn hn').1, ?_⟩⟩
    refine fun hL => hL.gone hr hm hall ht h1 h2 fun m hmem hi ho => ?_
    rcases List.mem_append.1 hmem with hma | hmx
    · have hmc : m ∈ c.allNodes := hall m hmem
      have hi' : c.Internal m := ⟨(hr.isInput m).symm.trans hi.1, (hr.isOutput m).symm.trans hi.2⟩
      have hLm : Lost c t S a m := by
        refine .root hma hi' (fun hS => ?_) fun b hb hbt => ?_
        · have := (hr.outputs m hmc t).2 (.inr ⟨rfl, hS⟩)
          rw [ho] at this; cases this
        · have := (hr.outputs m hmc b).2 (.inl ⟨hbt, hb⟩)
          rw [ho] at this; cases this
      exact fun hc => (h.gone m (hr.allNodes ▸ hmc)).2 hLm (h3.mem hc)
    · rw [List.mem_singleton] at hmx
      exact hmx ▸ h4 (hmx ▸ hi) (hmx ▸ ho)
  rw [removeUnused_singleton]
  by_cases hc : (c'.node x).outputs = [] ∧ (c'.node x).isInput = false ∧
      (c'.node x).isOutput = false
  · rw [if_pos hc]
    obtain ⟨ho, hi⟩ := hc
    rw [h.stripped.isInput, h.stripped.isOutput] at hi
    have hLx : Lost c t S (a ++ [x]) x := by
      have hxcc := hall x (by simp)
      have hgone : ∀ m ∈ (c₀.node x).outputs, m ∉ c'.allNodes := by
        intro m hmem hmc
        have h1 := h.stripped.count x hxc m
        rw [ho, List.count_nil, if_pos hmc, h.stripped.inputs,
          hr.mirror.count x hx₀ m (h.stripped.sub.mem hmc)] at h1
        exact List.count_eq_zero.1 h1.symm hmem
      refine .root (by simp) ⟨(hr.isInput x).symm.trans hi.1, (hr.isOutput x).symm.trans hi.2⟩
        (fun hS => ?_) fun m hmem hmt => ?_
      · refine ht (Lost.mono hsub ((h.gone t (hr.allNodes ▸ htc)).1 (hgone t ?_)))
        exact (hr.outputs x hxcc t).2 (.inr ⟨rfl, hS⟩)
      · have hmem₀ := (hr.outputs x hxcc m).2 (.inl ⟨hmt, hmem⟩)
        have hmc := hr.mirror.outs x hx₀ m hmem₀
        exact Lost.mono hsub ((h.gone m hmc).1 (hgone m hmem₀))
    obtain ⟨c'', h1, h2⟩ := removeF_spec (deadSet hr ht hm) hr.mirror hst hxc ho hLx
      (fun b hb hib hob => .inl (h.clean b hb hib hob)) le_rfl
    exact ⟨c'', h1, key c'' h2.stripped h2.clean h2.sub fun _ _ => h2.gone⟩
  · rw [if_neg hc]
    refine ⟨c', rfl, key c' hst h.clean (List.Sublist.refl _) fun hi ho => ?_⟩
    refine absurd ⟨?_, ?_, ?_⟩ hc
    · rw [List.eq_nil_iff_forall_not_mem]
      intro m hmem
      have h1 := h.stripped.count x hxc m
      have hpos := List.count_pos_iff.2 hmem
      by_cases hmc : m ∈ c'.allNodes
      · rw [if_pos hmc, h.stripped.inputs, hr.mirror.count x hx₀ m (h.stripped.sub.mem hmc), ho,
          List.count_nil] at h1
        omega
      · rw [if_neg hmc] at h1
        omega
    · rw [h.stripped.isInput]; exact hi.1
    · rw [h.stripped.isOutput]; exact hi.2

/-- **The clean-up removes exactly what is lost.** -/
theorem removeUnused_spec (hp : c₀.Part) {l : List NodeId} (hl : ∀ n ∈ l, n ∈ (c.node t).inputs)
    (ht : ¬Lost c t S l t) (hsafe : CleanupSafe c t S l) :
    ∃ c', removeUnused l c₀ = some c' ∧ Cleaned c c₀ t S l c' := by
  induction l using List.reverseRecOn with
  | nil =>
    exact ⟨c₀, rfl, .start hr.mirror hp, fun a _ _ h => h,
      fun n hn => ⟨fun h => absurd hn h, fun hL => absurd hL not_lost_nil⟩⟩
  | append_singleton a x ih =>
    obtain ⟨c', h1, h2⟩ := ih (fun n hn => hl n (List.mem_append_left _ hn))
      (fun h => ht (h.mono fun _ => List.mem_append_left _))
      fun a' y b he => hsafe a' y (b ++ [x]) (by rw [he]; simp)
    obtain ⟨c'', h3, h4⟩ := removeUnused_entry hr hm htc hl ht h2 (hsafe a x [] rfl)
    exact ⟨c'', by rw [removeUnused_append, h1]; exact h3, h4⟩

/-- **An entry that is already gone** makes the clean-up undefined. -/
theorem removeUnused_undefined (hp : c₀.Part) {l : List NodeId}
    (hl : ∀ n ∈ l, n ∈ (c.node t).inputs) (ht : ¬Lost c t S l t)
    (hsafe : ¬CleanupSafe c t S l) :
    removeUnused l c₀ = none := by
  induction l using List.reverseRecOn with
  | nil =>
    refine absurd (fun a x b he => ?_) hsafe
    simp at he
  | append_singleton a x ih =>
    rw [removeUnused_append]
    by_cases ha : CleanupSafe c t S a
    · have hx : Lost c t S a x := by
        by_contra hx
        refine hsafe fun a' y b he => ?_
        rcases List.eq_nil_or_concat b with rfl | ⟨b', z, rfl⟩
        · obtain ⟨rfl, he'⟩ := List.append_inj' he rfl
          rw [List.cons.injEq] at he'
          exact he'.1 ▸ hx
        · have he' : a ++ [x] = (a' ++ y :: b') ++ [z] := by simpa using he
          exact ha a' y b' (List.append_inj' he' rfl).1
      obtain ⟨c', h1, h2⟩ := removeUnused_spec hr hm htc hp
        (fun n hn => hl n (List.mem_append_left _ hn))
        (fun h => ht (h.mono fun _ => List.mem_append_left _)) ha
      have hx₀ : x ∈ c₀.allNodes := by
        rw [hr.allNodes]; exact hm.closed t htc x (hl x (by simp))
      have hxc := (h2.gone x hx₀).2 hx
      have hi := hx.internal
      have hcond : (c'.node x).outputs = [] ∧ (c'.node x).isInput = false ∧
          (c'.node x).isOutput = false := by
        rw [h2.stripped.isInput, hr.isInput, h2.stripped.isOutput, hr.isOutput]
        exact ⟨(h2.stripped.dead x hx₀ hxc).2, hi⟩
      rw [h1]
      show removeUnused [x] c' = none
      rw [removeUnused_singleton, if_pos hcond, remove_gone hxc]
    · rw [ih (fun n hn => hl n (List.mem_append_left _ hn))
        (fun h => ht (h.mono fun _ => List.mem_append_left _)) ha]
      rfl

end

/-! ## Any clean-up -/

/-- `c'` is `c` without some nodes and the clusters that they leave empty. -/
structure Trimmed (c c' : Circuit) : Prop where
  node : ∀ i, c'.node i = { c.node i with outputs := (c'.node i).outputs }
  caches : ∀ k, (c'.cluster k).inputNodes = (c.cluster k).inputNodes
  sub : c'.allNodes.Sublist c.allNodes
  subClusters : c'.allClusters.Sublist c.allClusters
  mirror : c'.Mirror
  part : c'.Part

namespace Trimmed

variable {c c' c'' : Circuit}

theorem refl (hm : c.Mirror) (hp : c.Part) : Trimmed c c :=
  ⟨fun _ => rfl, fun _ => rfl, .refl _, .refl _, hm, hp⟩

theorem trans (h : Trimmed c c') (h' : Trimmed c' c'') : Trimmed c c'' :=
  ⟨fun i => by rw [h'.node i, h.node i], fun k => (h'.caches k).trans (h.caches k),
    h'.sub.trans h.sub, h'.subClusters.trans h.subClusters, h'.mirror, h'.part⟩

theorem of_stripped {D : NodeId → Prop} (h : Stripped c D c' fun _ _ => 0) : Trimmed c c' :=
  ⟨h.node, fun k => (h.clusters k).1, h.sub, h.subClusters, h.mirror, h.part⟩

variable (h : Trimmed c c')
include h

theorem inputs (i : NodeId) : (c'.node i).inputs = (c.node i).inputs := by rw [h.node i]
theorem isInput (i : NodeId) : (c'.node i).isInput = (c.node i).isInput := by rw [h.node i]
theorem myCluster (i : NodeId) : (c'.node i).myCluster = (c.node i).myCluster := by rw [h.node i]

/-- The members that a cluster keeps. -/
theorem mem_nodesC (hp : c.Part) {k : ClusterId} (hk : k ∈ c'.allClusters) {n : NodeId} :
    n ∈ (c'.cluster k).nodesC ↔ n ∈ (c.cluster k).nodesC ∧ n ∈ c'.allNodes := by
  rw [h.part.mem_iff hk, hp.mem_iff (h.subClusters.mem hk), h.isInput, h.myCluster]
  exact ⟨fun h1 => ⟨⟨h.sub.mem h1.1, h1.2⟩, h1.1⟩, fun h1 => ⟨h1.2, h1.1.2⟩⟩

end Trimmed

/-- `Remove` of an internal node that nothing uses, whatever cycles the circuit has. -/
theorem remove_trimmed {c : Circuit} {n : NodeId} (hm : c.Mirror) (hp : c.Part)
    (hn : n ∈ c.allNodes) (ho : (c.node n).outputs = []) (hi : c.Internal n) :
    ∃ c', c.remove n = some c' ∧ Trimmed c c' := by
  have hD : DeadSet c c.Internal := ⟨fun _ => id, fun _ _ hi _ _ => hi⟩
  obtain ⟨c', h1, h2⟩ := removeF_spec hD hm (.start hm hp) hn ho hi
    (fun a _ _ ha => .inl ha) (Nat.le_refl _)
  exact ⟨c', h1, .of_stripped h2.stripped⟩

/-- **A clean-up that is defined** takes nodes away and nothing else. -/
theorem removeUnused_trimmed {c c' : Circuit} {l : List NodeId} (hm : c.Mirror) (hp : c.Part)
    (h : removeUnused l c = some c') : Trimmed c c' := by
  refine foldlM_inv (P := Trimmed c) (fun c1 c2 nd _ h1 h2 => ?_) (.refl hm hp) h
  split at h2
  · rename_i hnd
    by_cases hmem : nd ∈ c1.allNodes
    · obtain ⟨c3, h3, h4⟩ := remove_trimmed h1.mirror h1.part hmem hnd.1 hnd.2
      rw [h3] at h2
      cases h2
      exact h1.trans h4
    · rw [remove_gone hmem] at h2
      cases h2
  · cases h2
    exact h1

end Msyn.NodeMerge
