import Msyn.Circuit.Numbered

/-!
# SetTargets and then Restore

`SetTargets` on a list of nodes takes their fanin edges out and saves inputs and cube in the nodes
(`setTargets_spec`); `Restore` gives each of them back what it saved (`restoreTargets_spec`). Both
make their edits one node at a time, in the fanout lists of nodes that may be in the list
themselves. Together they leave every list of inputs as it was and every fanout list up to its order
(`setTargets_restore`).
-/

namespace Msyn.Nodecircuit.Circuit

/-- What `SetTargets` on the nodes `ts` does. -/
structure TargetsSet (c c' : Circuit) (ts : List NodeId) : Prop where
  kept : ∀ i, i ∉ ts → c'.node i = { c.node i with outputs := (c'.node i).outputs }
  target : ∀ t ∈ ts, c'.node t = { c.node t with
    inputs := [], inputsPre := (c.node t).inputs, cube := "", cubePre := (c.node t).cube,
    outputs := (c'.node t).outputs }
  outputs : ∀ i b, (c'.node i).outputs.count b =
    (c.node i).outputs.count b - if b ∈ ts then (c.node b).inputs.count i else 0
  rest : c' = { c with node := c'.node, targets := c.targets ++ ts }

theorem setTargets_spec : ∀ {ts : List NodeId} {c : Circuit}, c.Mirror → ts.Nodup →
    (∀ t ∈ ts, t ∈ c.allNodes ∧ (c.node t).isInput = false) →
    ∃ c', setTargets ts c = some c' ∧ TargetsSet c c' ts
  | [], c, _, _, _ => ⟨c, rfl, fun _ _ => rfl, by simp, by simp, by simp⟩
  | t :: ts, c, hm, hnd, hts => by
    obtain ⟨hnot, hnd⟩ := List.nodup_cons.1 hnd
    obtain ⟨ht, hi⟩ := hts t (by simp)
    obtain ⟨c1, h1, hs1⟩ := setTarget_spec hm ht
    obtain ⟨c2, h2, hs2⟩ := @setTargets_spec ts c1 (hs1.mirror hm ht) hnd fun u hu => by
      rw [hs1.allNodes, hs1.isInput]
      exact hts u (by simp [hu])
    refine ⟨c2, by simp [setTargets, hi, h1, h2], fun i hi => ?_, fun u hu => ?_, fun i b => ?_, ?_⟩
    · rw [List.mem_cons, not_or] at hi
      rw [hs2.kept i hi.2, hs1.node i hi.1]
    · rcases List.mem_cons.1 hu with rfl | hu
      · -- the later targets leave the first one as it is
        rw [hs2.kept u hnot, hs1.target]
      · have hne : u ≠ t := fun he => hnot (he ▸ hu)
        rw [hs2.target u hu, hs1.node u hne]
    · rw [hs2.outputs, (hs1.outputs i).2 b]
      by_cases hb : b = t
      · subst hb
        simp [hnot]
      · simp [hb, hs1.inputs hb]
    · rw [hs2.rest, hs1.rest, List.append_assoc]
      rfl

/-- What the loop of `Restore` over the nodes `ts` does. -/
structure TargetsRestored (c c' : Circuit) (ts : List NodeId) : Prop where
  kept : ∀ i, i ∉ ts → c'.node i = { c.node i with outputs := (c'.node i).outputs }
  target : ∀ t ∈ ts, c'.node t = { c.node t with
    inputs := (c.node t).inputsPre, inputsPre := [], cube := (c.node t).cubePre, cubePre := "",
    outputs := (c'.node t).outputs }
  outputs : ∀ i b, (c'.node i).outputs.count b =
    (c.node i).outputs.count b + if b ∈ ts then (c.node b).inputsPre.count i else 0
  rest : c' = { c with node := c'.node }

theorem restoreTargets_spec : ∀ {ts : List NodeId} {c : Circuit}, ts.Nodup →
    (∀ t ∈ ts, (c.node t).inputs = []) →
    ∃ c', ts.foldlM restoreTarget c = some c' ∧ TargetsRestored c c' ts
  | [], c, _, _ => ⟨c, rfl, fun _ _ => rfl, by simp, by simp, rfl⟩
  | t :: ts, c, hnd, hts => by
    obtain ⟨hnot, hnd⟩ := List.nodup_cons.1 hnd
    obtain ⟨c1, h1, hs1⟩ := restoreTarget_spec (hts t (by simp))
    have hne : ∀ u ∈ ts, u ≠ t := fun u hu he => hnot (he ▸ hu)
    obtain ⟨c2, h2, hs2⟩ := @restoreTargets_spec ts c1 hnd fun u hu => by
      rw [hs1.inputs (hne u hu)]
      exact hts u (by simp [hu])
    refine ⟨c2, by simp [h1, h2], fun i hi => ?_, fun u hu => ?_, fun i b => ?_, ?_⟩
    · rw [List.mem_cons, not_or] at hi
      rw [hs2.kept i hi.2, hs1.node i hi.1]
    · rcases List.mem_cons.1 hu with rfl | hu
      · rw [hs2.kept u hnot, hs1.target]
      · rw [hs2.target u hu, hs1.node u (hne u hu)]
    · rw [hs2.outputs, hs1.outputs, List.count_append, List.count_replicate]
      by_cases hb : b = t
      · subst hb
        simp [hnot]
      · rw [hs1.node b hb]
        simp [hb, Ne.symm hb]
    · rw [hs2.rest, hs1.rest]

/-- What `SetTargets` and `Restore` of the nodes `ts` leave behind. -/
structure RolledBack (c c' : Circuit) (ts : List NodeId) : Prop where
  node : ∀ i, c'.node i = { c.node i with
    outputs := (c'.node i).outputs
    inputsPre := if i ∈ ts then [] else (c.node i).inputsPre
    cubePre := if i ∈ ts then "" else (c.node i).cubePre }
  outputs : ∀ i, (c'.node i).outputs.Perm (c.node i).outputs
  rest : c' = { c with node := c'.node, targets := [] }

/-- **A rollback** leaves no trace but the empty save fields. -/
theorem rollback_spec {c : Circuit} {ts : List NodeId} (hm : c.Mirror) (hnd : ts.Nodup)
    (hts : ∀ t ∈ ts, t ∈ c.allNodes ∧ (c.node t).isInput = false) :
    ∃ c', (setTargets ts c >>= restore ts) = some c' ∧ RolledBack c c' ts := by
  obtain ⟨c1, h1, hs1⟩ := setTargets_spec hm hnd hts
  have hin : ∀ t ∈ ts, (c1.node t).inputs = [] := fun t ht => by rw [hs1.target t ht]
  obtain ⟨c2, h2, hs2⟩ := restoreTargets_spec hnd hin
  refine ⟨{ c2 with targets := [] }, by simp [h1, restore, h2], fun i => ?_, fun i => ?_, ?_⟩
  · by_cases hi : i ∈ ts
    · rw [if_pos hi, if_pos hi, hs2.target i hi, hs1.target i hi]
    · rw [if_neg hi, if_neg hi, hs2.kept i hi, hs1.kept i hi]
  · -- every occurrence that was erased is pushed again
    refine List.perm_iff_count.2 fun b => ?_
    show (c2.node i).outputs.count b = _
    rw [hs2.outputs, hs1.outputs]
    split
    · rename_i hb
      have hpre : (c1.node b).inputsPre = (c.node b).inputs := by rw [hs1.target b hb]
      have hle := hm.count_le (hts b hb).1 i
      rw [hpre]
      omega
    · rfl
  · rw [hs2.rest, hs1.rest]

/-- **A rejected seed leaves no trace**: no target is left, and only the order of the fanout lists
and the saved inputs and cubes of the seed's nodes change. -/
theorem setTargets_restore {c : Circuit} (hm : c.Mirror) (htargets : c.targets = [])
    {ts : List NodeId} (hnd : ts.Nodup)
    (hts : ∀ t ∈ ts, t ∈ c.allNodes ∧ (c.node t).isInput = false) :
    ∃ c1 c2, setTargets ts c = some c1 ∧ restore ts c1 = some c2 ∧
      c2 = { c with node := c2.node } ∧ ∀ i, (c2.node i).outputs.Perm (c.node i).outputs ∧
        c2.node i = { c.node i with
          outputs := (c2.node i).outputs
          inputsPre := if i ∈ ts then [] else (c.node i).inputsPre
          cubePre := if i ∈ ts then "" else (c.node i).cubePre } := by
  obtain ⟨c2, h, hr⟩ := rollback_spec hm hnd hts
  obtain ⟨c1, h1, h2⟩ := Option.bind_eq_some_iff.1 h
  refine ⟨c1, c2, h1, h2, ?_, fun i => ⟨hr.outputs i, hr.node i⟩⟩
  have hrest := hr.rest
  rwa [← htargets] at hrest

/-- `t` reads `p` twice, and `u` reads `t`, `p` and `t` again. -/
def repeated : List Node := [
  { name := "p", isInput := true, outputs := [1, 2, 1] },
  { name := "t", cube := "11 1\n", inputs := [0, 0], outputs := [2, 2] },
  { name := "u", cube := "111 1\n", inputs := [1, 0, 1], isOutput := true }]

theorem setTargets_restore_repeated : ∃ c1 c2, setTargets [1, 2] (ofNodes repeated) = some c1 ∧
    restore [1, 2] c1 = some c2 ∧ c2 = { ofNodes repeated with node := c2.node } := by
  have hord : Ordered repeated := by decide
  have hnd : [1, 2].Nodup := by decide
  obtain ⟨c1, c2, h1, h2, h3, -⟩ := setTargets_restore hord.mirror rfl hnd (by decide)
  exact ⟨c1, c2, h1, h2, h3⟩

end Msyn.Nodecircuit.Circuit
