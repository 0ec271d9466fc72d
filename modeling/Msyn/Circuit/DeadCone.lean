import Msyn.Circuit.Numbered
import Msyn.Circuit.Remove
import Msyn.Lib.Loop

/-!
# What Remove deletes

One call of `Remove` deletes the least set of nodes that holds its argument and, with all fanouts of
an internal node that feeds the set, the node (`remove_deadCone`). Both inclusions come from
`removeF_spec`: nothing outside of a dead set goes, and no internal node is left that lost its last
fanout.
-/

namespace Msyn.Nodecircuit.Circuit

/-- The set holds `n`, and every internal input of one of its nodes of which it holds all fanouts. -/
structure DeadClosed (c : Circuit) (n : NodeId) (S : Set NodeId) : Prop where
  start : n ∈ S
  closed : ∀ i, c.Internal i → (∃ m ∈ S, i ∈ (c.node m).inputs) →
    (∀ m ∈ (c.node i).outputs, m ∈ S) → i ∈ S

/-- More fuel does not change a result. -/
theorem removeF_mono {fuel fuel' : Nat} {c c' : Circuit} {n : NodeId}
    (h : removeF fuel c n = some c') (hle : fuel ≤ fuel') : removeF fuel' c n = some c' := by
  induction fuel generalizing c c' n fuel' with
  | zero => cases h
  | succ fuel ih =>
    obtain ⟨m, rfl⟩ : ∃ m, fuel' = m + 1 := ⟨fuel' - 1, by omega⟩
    rw [removeF] at h ⊢
    split at h
    · rename_i ho
      rw [if_pos ho]
      obtain ⟨c1, h1, h⟩ := Option.bind_eq_some_iff.1 h
      obtain ⟨c2, h2, h⟩ := Option.bind_eq_some_iff.1 h
      refine Option.bind_eq_some_iff.2 ⟨c1, h1, Option.bind_eq_some_iff.2 ⟨c2, h2, ?_⟩⟩
      refine foldlM_mono (fun c i c' hi => ?_) h
      obtain ⟨c3, h3, hi⟩ := Option.bind_eq_some_iff.1 hi
      refine Option.bind_eq_some_iff.2 ⟨c3, h3, ?_⟩
      split at hi
      · rename_i hif
        rw [if_pos hif]
        exact ih hi (by omega)
      · rename_i hif
        rw [if_neg hif]
        exact hi
    · cases h

section
variable {c : Circuit} {n : NodeId} (hm : c.Mirror) (hp : c.Part) (hn : n ∈ c.allNodes)
  (ho : (c.node n).outputs = []) (hint : c.Internal n)
include hm hp hn ho hint

/-- A call of `Remove` ends and deletes nodes of a closed set. -/
theorem remove_ends {S : Set NodeId} (hS : DeadClosed c n S) : ∃ c',
    (∀ fuel ≥ c.allNodes.length, removeF fuel c n = some c') ∧
      Deleted c (fun m => m ∈ S ∧ c.Internal m) (fun _ _ => 0) c c' n := by
  have hD : DeadSet c fun m => m ∈ S ∧ c.Internal m := by
    refine ⟨fun m hmem => hmem.2, fun i hi hii hne hall => ⟨?_, hii⟩⟩
    obtain ⟨m, hmo⟩ := List.exists_mem_of_ne_nil _ hne
    exact hS.closed i hii ⟨m, (hall m hmo).1, (hm.fanin hi hmo).2⟩ fun m hmo => (hall m hmo).1
  obtain ⟨c', h1, h2⟩ := removeF_spec hD hm (.start hm hp) hn ho ⟨hS.start, hint⟩
    (fun a _ _ ha => .inl ha) le_rfl
  exact ⟨c', fun fuel hle => removeF_mono h1 hle, h2⟩

variable {c' : Circuit} (h : c.remove n = some c')
include h

theorem remove_deleted {S : Set NodeId} (hS : DeadClosed c n S) :
    Deleted c (fun m => m ∈ S ∧ c.Internal m) (fun _ _ => 0) c c' n := by
  obtain ⟨c1, h1, hdel⟩ := remove_ends hm hp hn ho hint hS
  have he := h1 _ le_rfl
  rw [← remove, h, Option.some.injEq] at he
  rwa [he]

/-- **The dead cone** is what a call of `Remove` takes out of `all_nodes`. -/
theorem remove_isLeast :
    IsLeast {S | DeadClosed c n S} {m | m ∈ c.allNodes ∧ m ∉ c'.allNodes} := by
  have hdel := remove_deleted hm hp hn ho hint h (S := Set.univ) ⟨trivial, fun _ _ _ _ => trivial⟩
  refine ⟨⟨⟨hn, hdel.gone⟩, fun i hi hfan hall => ?_⟩, fun S hS m hmem =>
    ((remove_deleted hm hp hn ho hint h hS).stripped.dead m hmem.1 hmem.2).1.1⟩
  obtain ⟨m, hmem, him⟩ := hfan
  refine ⟨hm.closed m hmem.1 i him, fun hi' => ?_⟩
  -- it would be left without fanouts, but it had one
  have hnil : (c'.node i).outputs = [] := by
    refine List.eq_nil_iff_forall_not_mem.2 fun b hb => ?_
    have hcount := hdel.stripped.count i hi' b
    rw [← List.count_pos_iff, hcount] at hb
    split at hb
    · rename_i hbc
      rw [hdel.stripped.inputs, List.count_pos_iff] at hb
      exact (hall b (hm.fanout ⟨hdel.stripped.sub.mem hbc, hb⟩).2).2 hbc
    · omega
  have hmo := (hm.fanout ⟨hmem.1, him⟩).2
  rw [hdel.clean i hi' hi hnil] at hmo
  cases hmo

omit h

/-- **`Remove` deletes exactly the dead cone**, and what is left is as it was. -/
theorem remove_deadCone (hac : c.IsAcyclic) : ∃ c', c.remove n = some c' ∧
    (∀ fuel ≥ c.allNodes.length, removeF fuel c n = some c') ∧
    IsLeast {S | DeadClosed c n S} {m | m ∈ c.allNodes ∧ m ∉ c'.allNodes} ∧
    c'.allNodes.Sublist c.allNodes ∧ c'.allNodes.Nodup ∧
    (∀ m ∈ c'.allNodes, (c'.node m).inputs = (c.node m).inputs ∧
      (c'.node m).cube = (c.node m).cube ∧
      ∀ x v v', c.Valuation [] x v → c'.Valuation [] x v' → v' m = v m) ∧
    c'.Mirror ∧ c'.Part := by
  obtain ⟨c', h1, hdel⟩ := remove_ends hm hp hn ho hint (S := Set.univ)
    ⟨trivial, fun _ _ _ _ => trivial⟩
  have h : c.remove n = some c' := h1 _ le_rfl
  have hs := hdel.stripped
  have hmir : c'.Mirror := hs.mirror
  refine ⟨c', h, h1, remove_isLeast hm hp hn ho hint h, hs.sub, hs.nodup, fun m hmem =>
    ⟨hs.inputs m, by rw [hs.node m], fun x v v' hv hv' => ?_⟩, hmir, hs.part⟩
  -- the values are those of a valuation of what is left
  have hac' : c'.IsAcyclic := hac.mono fun a b hab => ⟨hs.sub.mem hab.1, hs.inputs b ▸ hab.2⟩
  have hv1 : c'.Valuation [] x v := by
    intro k hk _
    rw [hv k (hs.sub.mem hk) List.not_mem_nil, eval, eval, hs.node k]
  exact hv'.unique hac' hmir.closed hv1 (by simp) m hmem

end

/-- `b` reads `a` twice and has no fanout; `q` is a primary output. -/
def dangling : List Node := [
  { name := "p", isInput := true, outputs := [1, 2, 3] },
  { name := "a", cube := "1 1\n", inputs := [0], outputs := [2, 2] },
  { name := "b", cube := "111 1\n", inputs := [1, 0, 1] },
  { name := "q", cube := "1 1\n", inputs := [0], isOutput := true }]

theorem remove_deadCone_dangling : ∃ c', ((ofNodes dangling).initCluster id).remove 2 = some c' ∧
    c'.Mirror ∧ c'.Part := by
  have hord : Ordered dangling := by decide
  have hnet : SameNet (ofNodes dangling) ((ofNodes dangling).initCluster id) := Ordered.clustered
  obtain ⟨c', h, -, -, -, -, -, hm, hp⟩ := remove_deadCone (n := 2) (hnet.mirror hord.mirror)
    (initCluster_part (fun _ _ _ _ => id) hord.mirror.nodup rfl) (by decide) (by decide) (by decide)
    (hnet.isAcyclic hord.acyclic)
  exact ⟨c', h, hm, hp⟩

end Msyn.Nodecircuit.Circuit
