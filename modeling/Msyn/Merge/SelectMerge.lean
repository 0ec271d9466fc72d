import Msyn.Merge.Equivalence

/-!
# SelectMerge ends

Clusters only leave `all_clusters` (`Shrinks`), and a committed merge returns the iterator after its
seed (`mergeSeed_iterator`). So every iteration of `SelectMerge` moves on, whatever is selected, and
the pass returns unless an iteration is undefined (`selectMerge_returns`).
-/

namespace Msyn.NodeMerge

open Nodecircuit Circuit MergeSelection

/-! ## Clusters only leave -/

/-- The circuit keeps its name, and clusters may leave it. -/
structure Shrinks (c c' : Circuit) : Prop where
  name : c'.name = c.name
  allClusters : c'.allClusters.Sublist c.allClusters

namespace Shrinks

theorem refl (c : Circuit) : Shrinks c c := ⟨rfl, .refl _⟩

theorem trans {c c' c'' : Circuit} (h : Shrinks c c') (h' : Shrinks c' c'') : Shrinks c c'' :=
  ⟨h'.name.trans h.name, h'.allClusters.trans h.allClusters⟩

/-- A loop of steps that do. -/
theorem foldlM {ι : Type} {f : Circuit → ι → Option Circuit}
    (hf : ∀ c i c', f c i = some c' → Shrinks c c') {l : List ι} {c c' : Circuit}
    (h : l.foldlM f c = some c') : Shrinks c c' :=
  foldlM_inv (P := Shrinks c) (fun d d' i _ hd hs => hd.trans (hf d i d' hs)) (.refl c) h

end Shrinks

theorem eraseOutput_shrinks {c c' : Circuit} {i n : NodeId} (h : c.eraseOutput i n = some c') :
    Shrinks c c' := by
  rw [eraseOutput] at h
  split at h
  · cases h
    exact ⟨rfl, .refl _⟩
  · cases h

theorem setTarget_shrinks {c c' : Circuit} {n : NodeId} (h : c.setTarget n = some c') :
    Shrinks c c' := by
  obtain ⟨c1, h1, h2⟩ := Option.bind_eq_some_iff.1 h
  cases h2
  have h3 := Shrinks.foldlM (fun _ _ _ => eraseOutput_shrinks) h1
  exact ⟨h3.name, h3.allClusters⟩

theorem setTargets_shrinks {c c' : Circuit} {t : NodeId} (h : setTargets [t] c = some c') :
    Shrinks c c' := by
  rw [setTargets] at h
  split at h
  · cases h
    exact .refl c
  · obtain ⟨d, hd, h1⟩ := Option.bind_eq_some_iff.1 h
    cases h1
    exact setTarget_shrinks hd

theorem restruct_shrinks {c c' : Circuit} {t : NodeId} {onset : List (OrdMap NodeId Bool)}
    (h : c.restruct t onset = some c') : Shrinks c c' := by
  unfold restruct at h
  split at h
  · cases onset with
    | nil => cases h
    | cons p rest =>
      have hloop : ∀ (l : List (NodeId × Bool)) (d : Circuit), Shrinks d (l.foldl (fun c pair =>
          (c.pushOutput pair.1 t).modNode t fun nd => { nd with inputs := nd.inputs ++ [pair.1] })
            d) := by
        intro l
        induction l with
        | nil => exact fun d => .refl d
        | cons q l ih =>
          intro d
          have h1 : Shrinks d ((d.pushOutput q.1 t).modNode t fun nd =>
            { nd with inputs := nd.inputs ++ [q.1] }) := ⟨rfl, .refl _⟩
          exact h1.trans (ih _)
      cases h
      have h1 := hloop p.entries { c with targets := c.targets.erase t }
      exact ⟨h1.name, h1.allClusters⟩
  · cases h

/-- `Merge` takes the second cluster out and returns the iterator after it. -/
theorem merge_iterator {c : Circuit} {k j : ClusterId} {r : Circuit × Option ClusterId}
    (h : c.merge k j = some r) : j ∈ c.allClusters ∧ r.2 = next j c.allClusters ∧
      r.1.name = c.name ∧ r.1.allClusters = c.allClusters.erase j := by
  have hcond : j ∈ c.allClusters ∧ k ≠ j := by
    by_contra hno
    rw [merge, if_neg hno] at h
    cases h
  obtain ⟨c', h1, h2⟩ := merge_spec hcond.1 hcond.2
  rw [h1] at h
  cases h
  refine ⟨hcond.1, rfl, ?_, h2.allClusters⟩
  rw [h2.rest]

theorem merge_shrinks {c : Circuit} {k j : ClusterId} {r : Circuit × Option ClusterId}
    (h : c.merge k j = some r) : Shrinks c r.1 := by
  obtain ⟨-, -, h1, h2⟩ := merge_iterator h
  refine ⟨h1, ?_⟩
  rw [h2]
  exact List.erase_sublist

theorem removeF_shrinks : ∀ {fuel : Nat} {c c' : Circuit} {n : NodeId}, removeF fuel c n = some c' →
    Shrinks c c'
  | 0, _, _, _, h => by cases h
  | fuel + 1, c, c', n, h => by
    rw [removeF] at h
    split at h
    · obtain ⟨c1, h1, h⟩ := Option.bind_eq_some_iff.1 h
      obtain ⟨c2, h2, h⟩ := Option.bind_eq_some_iff.1 h
      have e1 : Shrinks c c1 := by
        unfold dropFromCluster at h1
        dsimp only at h1
        split_ifs at h1 <;> cases h1
        · exact ⟨rfl, .refl _⟩
        · exact ⟨rfl, List.erase_sublist⟩
      have e2 : Shrinks c1 c2 := by
        rw [dropNode] at h2
        split at h2
        · cases h2
          exact ⟨rfl, .refl _⟩
        · cases h2
      refine e1.trans (e2.trans (Shrinks.foldlM (fun d i d' hs => ?_) h))
      obtain ⟨d1, h3, h4⟩ := Option.bind_eq_some_iff.1 hs
      have e3 := eraseOutput_shrinks h3
      split at h4
      · exact e3.trans (removeF_shrinks h4)
      · cases h4
        exact e3
    · cases h

theorem removeUnused_shrinks {l : List NodeId} {c c' : Circuit} (h : removeUnused l c = some c') :
    Shrinks c c' := by
  refine Shrinks.foldlM (fun d i d' hs => ?_) h
  split at hs
  · exact removeF_shrinks hs
  · cases hs
    exact .refl d

/-- **A committed merge** returns the iterator after its seed. -/
theorem mergeSeed_iterator {sol : List ClusterId} {onset : List (OrdMap NodeId Bool)}
    {seed : ClusterId} {t : NodeId} {c : Circuit} {r : Circuit × Option ClusterId}
    (h : mergeSeed sol onset seed t c = some r) : r.1.name = c.name ∧
      ∃ l : List ClusterId, l.Sublist c.allClusters ∧ seed ∈ l ∧ r.2 = next seed l ∧
        r.1.allClusters.Sublist (l.erase seed) := by
  obtain ⟨c1, h1, h⟩ := Option.bind_eq_some_iff.1 h
  obtain ⟨c2, h2, h⟩ := Option.bind_eq_some_iff.1 h
  obtain ⟨⟨c3, it⟩, h3, h⟩ := Option.bind_eq_some_iff.1 h
  obtain ⟨c4, h4, h⟩ := Option.bind_eq_some_iff.1 h
  cases h
  have e1 := setTargets_shrinks h1
  cases sol with
  | nil => cases h3
  | cons tar rest =>
    obtain ⟨c5, h5, h6⟩ := Option.bind_eq_some_iff.1 h3
    have e2 : Shrinks c2 c5 := Shrinks.foldlM (fun d k d' hs => by
      obtain ⟨q, hq, rfl⟩ := Option.map_eq_some_iff.1 hs
      exact merge_shrinks hq) h5
    have e3 : Shrinks c c5 := e1.trans ((restruct_shrinks h2).trans e2)
    have e4 := removeUnused_shrinks h4
    obtain ⟨h7, h8, h9, h10⟩ := merge_iterator h6
    exact ⟨e4.name.trans (h9.trans e3.name), c5.allClusters, e3.allClusters, h7, h8,
      h10 ▸ e4.allClusters⟩

theorem restoreTarget_shrinks {c c' : Circuit} {t : NodeId} (h : c.restoreTarget t = some c') :
    Shrinks c c' := by
  obtain ⟨c1, h1, h2⟩ := Option.bind_eq_some_iff.1 h
  cases h2
  have h3 := Shrinks.foldlM (fun _ _ _ => eraseOutput_shrinks) h1
  have hloop : ∀ (l : List NodeId) (d : Circuit),
      Shrinks d (l.foldl (fun c i => c.pushOutput i t) d) := by
    intro l
    induction l with
    | nil => exact fun d => .refl d
    | cons i l ih =>
      intro d
      have h1 : Shrinks d (d.pushOutput i t) := ⟨rfl, .refl _⟩
      exact h1.trans (ih _)
  refine h3.trans (Shrinks.trans ?_ (hloop _ _))
  exact ⟨rfl, .refl _⟩

theorem reject_shrinks {c c' : Circuit} {t : NodeId}
    (h : (setTargets [t] c >>= restore [t]) = some c') : Shrinks c c' := by
  obtain ⟨c1, h1, h2⟩ := Option.bind_eq_some_iff.1 h
  obtain ⟨c2, h3, h4⟩ := Option.bind_eq_some_iff.1 h2
  cases h4
  have h5 := Shrinks.foldlM (fun _ _ _ => restoreTarget_shrinks) h3
  exact (setTargets_shrinks h1).trans ⟨h5.name, h5.allClusters⟩

/-! ## The pass -/

/-- The heads of the loop of `SelectMerge`. -/
inductive SelectHead (select : ClusterId → Selector) (spec : Circuit) (lmt : Int) (c₀ : Circuit) :
    Circuit → Option ClusterId → Prop
  | begin : SelectHead select spec lmt c₀ c₀ c₀.allClusters.head?
  | next {c c' : Circuit} {seed : ClusterId} {it : Option ClusterId} :
      SelectHead select spec lmt c₀ c (some seed) →
      selectIter (select seed) spec lmt c seed = some (c', it) → SelectHead select spec lmt c₀ c' it

theorem selectMergeF_eq {select : ClusterId → Selector} {spec : Circuit} {lmt : Int} :
    ∀ (fuel : Nat) (c : Circuit) (it it' : Option ClusterId),
      selectMergeF select spec lmt fuel c it =
        (sweep (fun r seed => selectIter (select seed) spec lmt r.1 seed) (fun r _ => r.2) fuel
          (c, it') it).map Prod.fst
  | fuel, c, none, _ => by cases fuel <;> rfl
  | 0, _, some _, _ => rfl
  | fuel + 1, c, some seed, _ => by
    rw [selectMergeF, sweep]
    cases selectIter (select seed) spec lmt c seed with
    | none => rfl
    | some r => exact selectMergeF_eq fuel r.1 r.2 r.2

/-- **An iteration moves on**, and clusters only leave. -/
theorem selectIter_moves {select : Selector} {spec c c' : Circuit} {lmt : Int} {seed : ClusterId}
    {it : Option ClusterId} (hnd : c.allClusters.Nodup)
    (h : selectIter select spec lmt c seed = some (c', it)) :
    seed ∈ c.allClusters ∧ Shrinks c c' ∧
      remaining it c'.allClusters < remaining (some seed) c.allClusters := by
  obtain ⟨hseed, ⟨rfl, rfl⟩ | ⟨t, cl, ci, c1, sel, -, -, -, -, -, h⟩⟩ := selectIter_cases h
  · exact ⟨hseed, .refl _, remaining_next hnd (.refl _) hseed⟩
  refine ⟨hseed, ?_⟩
  rcases h with ⟨-, onset, -, hmerge⟩ | ⟨-, hrej, rfl⟩
  · obtain ⟨h1, l, h2, h3, rfl, h4⟩ := mergeSeed_iterator hmerge
    have h5 : c'.allClusters.Sublist l := h4.trans List.erase_sublist
    refine ⟨⟨h1, h5.trans h2⟩, Nat.lt_of_le_of_lt ?_ (remaining_next hnd h2 h3)⟩
    exact remaining_sublist (h2.nodup hnd) h5 _
  · have h1 := reject_shrinks hrej
    refine ⟨h1, ?_⟩
    by_cases hs : seed ∈ c'.allClusters
    · exact remaining_next hnd h1.allClusters hs
    · -- the seed itself has left, so that the iterator is at the end
      have hend : next seed c'.allClusters = none := by
        generalize c'.allClusters = l at hs
        induction l with
        | nil => rfl
        | cons j l ih =>
          rw [List.mem_cons, not_or] at hs
          rw [next, if_neg (Ne.symm hs.1)]
          exact ih hs.2
      rw [hend]
      exact remaining_pos hseed

section
variable {select : ClusterId → Selector} {spec c : Circuit} {lmt : Int} (hnd : c.allClusters.Nodup)
include hnd

theorem SelectHead.shrinks {c' : Circuit} {it : Option ClusterId}
    (h : SelectHead select spec lmt c c' it) : Shrinks c c' := by
  induction h with
  | begin => exact .refl c
  | next _ hi ih => exact ih.trans (selectIter_moves (ih.allClusters.nodup hnd) hi).2.1

/-- **`SelectMerge` ends**, whatever is selected: unless an iteration is undefined it returns. -/
theorem selectMerge_returns :
    (∃ c', selectMerge select spec lmt c = some c' ∧ SelectHead select spec lmt c c' none) ∨
      ∃ c' seed, SelectHead select spec lmt c c' (some seed) ∧
        selectIter (select seed) spec lmt c' seed = none := by
  -- the state of the sweep is the circuit and the iterator that `Merge` returned
  have hmoves : ∀ (r : Circuit × Option ClusterId) seed r',
      SelectHead select spec lmt c r.1 (some seed) →
      selectIter (select seed) spec lmt r.1 seed = some r' →
      SelectHead select spec lmt c r'.1 r'.2 ∧
        remaining r'.2 r'.1.allClusters < remaining (some seed) r.1.allClusters :=
    fun r seed r' h hi => ⟨h.next hi,
      (selectIter_moves ((h.shrinks hnd).allClusters.nodup hnd) hi).2.2⟩
  rcases sweep_ends (fun (r : Circuit × Option ClusterId) seed =>
      selectIter (select seed) spec lmt r.1 seed) (fun r _ => r.2)
      (I := fun r it => SelectHead select spec lmt c r.1 it)
      (fun r it => remaining it r.1.allClusters)
      (fun r seed r' h hi => Nat.zero_lt_of_lt (hmoves r seed r' h hi).2) hmoves
      (s := (c, none)) .begin (remaining_le _ _) with ⟨r, h1, h2⟩ | ⟨r, seed, h1, h2⟩
  · refine .inl ⟨r.1, ?_, h2⟩
    rw [selectMerge, selectMergeF_eq _ _ _ none, h1]
    rfl
  · exact .inr ⟨r.1, seed, h1, h2⟩

end

/-- `s` takes in `u`, and nothing is undefined. -/
theorem selectMerge_returns_twoBuffers :
    (∃ c', selectMerge (fun _ => mergeSelection plainEnv 60 (ofNodes twoBuffers)) (ofNodes twoBuffers) 1
        (twoBuffersCircuit [3, 1, 2]) = some c' ∧
      SelectHead (fun _ => mergeSelection plainEnv 60 (ofNodes twoBuffers)) (ofNodes twoBuffers) 1
        (twoBuffersCircuit [3, 1, 2]) c' none) ∨
    ∃ c' seed, SelectHead (fun _ => mergeSelection plainEnv 60 (ofNodes twoBuffers))
        (ofNodes twoBuffers) 1 (twoBuffersCircuit [3, 1, 2]) c' (some seed) ∧
      selectIter (mergeSelection plainEnv 60 (ofNodes twoBuffers)) (ofNodes twoBuffers) 1 c' seed =
        none :=
  selectMerge_returns (by decide)

/-- What the pass returns is a head of its loop. -/
theorem selectMergeF_head {select : ClusterId → Selector} {spec c₀ : Circuit} {lmt : Int} :
    ∀ {fuel : Nat} {c c' : Circuit} {it : Option ClusterId}, SelectHead select spec lmt c₀ c it →
      selectMergeF select spec lmt fuel c it = some c' → SelectHead select spec lmt c₀ c' none
  | fuel, c, c', none, h, he => by
    cases fuel <;> cases he <;> exact h
  | 0, _, _, some _, _, he => by cases he
  | fuel + 1, c, c', some seed, h, he => by
    obtain ⟨r, h1, h2⟩ := Option.bind_eq_some_iff.1 he
    exact selectMergeF_head (h.next h1) h2

/-- The pass runs to its end, and the check holds at every seed that it comes to. -/
def checkSeeds (select : ClusterId → Selector) (spec : Circuit) (lmt : Int)
    (check : Circuit → ClusterId → Bool) : Nat → Circuit → Option ClusterId → Bool
  | _, _, none => true
  | 0, _, some _ => false
  | fuel + 1, c, some seed => check c seed &&
    (selectIter (select seed) spec lmt c seed).any fun r =>
      checkSeeds select spec lmt check fuel r.1 r.2

/-- The heads of a run that was checked. -/
theorem SelectHead.checked {select : ClusterId → Selector} {spec c₀ : Circuit} {lmt : Int}
    {check : Circuit → ClusterId → Bool} {fuel : Nat}
    (hc : checkSeeds select spec lmt check fuel c₀ c₀.allClusters.head? = true) {c : Circuit}
    {it : Option ClusterId} (h : SelectHead select spec lmt c₀ c it) :
    ∃ fuel, checkSeeds select spec lmt check fuel c it = true := by
  induction h with
  | begin => exact ⟨fuel, hc⟩
  | @next c c' seed it _ hi ih =>
    obtain ⟨fuel, hf⟩ := ih
    cases fuel with
    | zero => cases hf
    | succ fuel =>
      rw [checkSeeds, hi, Bool.and_eq_true] at hf
      exact ⟨fuel, hf.2⟩

theorem SelectHead.check {select : ClusterId → Selector} {spec c₀ : Circuit} {lmt : Int}
    {check : Circuit → ClusterId → Bool} {fuel : Nat}
    (hc : checkSeeds select spec lmt check fuel c₀ c₀.allClusters.head? = true) {c : Circuit}
    {seed : ClusterId} (h : SelectHead select spec lmt c₀ c (some seed)) : check c seed = true := by
  obtain ⟨fuel, hf⟩ := h.checked hc
  cases fuel with
  | zero => cases hf
  | succ fuel =>
    rw [checkSeeds, Bool.and_eq_true] at hf
    exact hf.1

end Msyn.NodeMerge
