import Msyn.Circuit.Numbered
import Msyn.Lib.LexOrder
import Msyn.Patch.PatchData

/-!
# The patch of a group of targets

A group has an on-set for each target and each vector of values of the targets. Its blocks are the
on-sets, a signal for each vector, which is true if the on-sets of all targets under the vector are,
and the covers of the targets. The names of the on-sets are sorted, and the signal of a vector takes
one name from each run of `2 ^ n`. So the targets take the values of the first vector whose on-sets
are all true (`groupNet_selects`).
-/

namespace Msyn.PatchData

open Nodecircuit Circuit MergeSelection LexOrder

/-! ## A full group -/

section
variable (ns : List String) (cases : Nat → Nat → List Pattern)

/-- The vector `b` as values of the targets. -/
def constraintsOf (b : Nat) : OrdMap String Bool :=
  OrdMap.tabulate ns fun s => digit ns.length b (ns.idxOf s)

/-- The on-set of target `t` under the vector `b`. -/
def dataOf (t b : Nat) : TargetData where
  name := ns.getD t ""
  inxcases := cases t b
  constraints := constraintsOf ns b

/-- All on-sets of a group. -/
def fullGroup : List TargetData :=
  (List.range ns.length).flatMap fun t => (List.range (2 ^ ns.length)).map (dataOf ns cases t)

/-- The constraints in a name. -/
def vectorText (b : Nat) : String :=
  String.join ((constraintsOf ns b).entries.map fun constraint =>
    constraint.1 ++ "=" ++ if constraint.2 then "1" else "0")

/-- The keys of the names. -/
def targetKeys : List String := ns.map (· ++ "_")

/-- The on-sets of all targets under the vector are true. -/
def Selected (c : Circuit) (val : String → Bool) (b : Nat) : Prop :=
  ∀ t < ns.length, ∃ inxcase ∈ cases t b, ∀ sig ∈ (dataOf ns cases t b).signals,
    inxcase.at sig = val (c.node sig).name

end

section
variable {ns : List String} (hs : ns.Pairwise (· < ·))
include hs

omit hs in
/-- Vectors are ordered by their first different digit. -/
theorem exists_first_digit {n b b' : Nat} (hb' : b' < 2 ^ n) (hlt : b < b') :
    ∃ j < n, (∀ i < j, digit n b i = digit n b' i) ∧ digit n b j = false ∧ digit n b' j = true := by
  classical
  have hne : ∃ j, j < n ∧ digit n b j ≠ digit n b' j := by
    by_contra hall
    push Not at hall
    exact hlt.ne (digit_ext (hlt.trans hb') hb' hall)
  obtain ⟨hj, hd⟩ := Nat.find_spec hne
  have hbefore : ∀ i < Nat.find hne, digit n b i = digit n b' i := by
    intro i hi
    by_contra hdi
    exact Nat.find_min hne hi ⟨by omega, hdi⟩
  refine ⟨_, hj, hbefore, ?_⟩
  -- otherwise the first one would be the larger
  by_contra hno
  have hd' : digit n b (Nat.find hne) = true ∧ digit n b' (Nat.find hne) = false := by
    revert hno hd
    cases digit n b (Nat.find hne) <;> cases digit n b' (Nat.find hne) <;> simp
  apply hlt.not_gt
  apply Nat.lt_of_testBit _ hd'.2 hd'.1
  intro k hk
  by_cases hkn : k < n
  · have := hbefore (n - 1 - k) (by omega)
    have hsub : n - 1 - (n - 1 - k) = k := by omega
    rw [digit, digit, hsub] at this
    exact this.symm
  · have hle : 2 ^ n ≤ 2 ^ k := Nat.pow_le_pow_right (by decide) (by omega)
    rw [Nat.testBit_lt_two_pow (by omega), Nat.testBit_lt_two_pow (by omega)]

theorem toList_vectorText (b : Nat) : (vectorText ns b).toList =
    (List.range ns.length).flatMap fun j =>
      (ns.getD j "").toList ++ ['=', bit (digit ns.length b j)] := by
  have hrange : ns = (List.range ns.length).map fun j => ns.getD j "" := by
    apply List.ext_getElem (by simp)
    intro j h1 h2
    simp [List.getElem?_eq_getElem h1]
  have hentries : (constraintsOf ns b).entries =
      (List.range ns.length).map fun j => (ns.getD j "", digit ns.length b j) := by
    rw [constraintsOf, OrdMap.entries_tabulate hs]
    apply List.ext_getElem (by simp)
    intro j h1 h2
    rw [List.getElem_map, List.getElem_map, List.getElem_range]
    have hj : j < ns.length := by simpa using h1
    rw [List.Nodup.idxOf_getElem (hs.imp ne_of_lt)]
    simp [List.getElem?_eq_getElem hj]
  have heq : "=".toList = ['='] := by decide
  rw [vectorText, hentries, String.toList_join, List.map_map, List.flatMap_map]
  refine List.flatMap_congr fun j _ => ?_
  cases hd : digit ns.length b j <;> simp [Function.comp, hd, heq, bit]

theorem vectorText_lt {b b' : Nat} (hb' : b' < 2 ^ ns.length) (hlt : b < b') :
    vectorText ns b < vectorText ns b' := by
  obtain ⟨j, hj, hsame, h0, h1⟩ := exists_first_digit hb' hlt
  have hsplit : List.range ns.length =
      List.range j ++ j :: (List.range (ns.length - j - 1)).map (j + 1 + ·) := by
    have hlen : ns.length = j + (1 + (ns.length - j - 1)) := by omega
    conv_lhs => rw [hlen, List.range_add, List.range_add]
    simp [Nat.add_assoc]
  rw [String.lt_iff_toList_lt, toList_vectorText hs, toList_vectorText hs, hsplit]
  simp only [List.flatMap_append, List.flatMap_cons, h0, h1]
  rw [List.flatMap_congr fun i hi => by rw [hsame i (List.mem_range.1 hi)]]
  apply List.append_left_lt
  rw [List.append_assoc, List.append_assoc]
  apply List.append_left_lt
  apply List.cons_lt_cons_iff.2
  refine .inr ⟨rfl, List.cons_lt_cons_iff.2 (.inl ?_)⟩
  decide

end

/-! ## The blocks -/

/-- The names of the on-sets in their order. -/
def sortedNames (ns : List String) : List String :=
  (targetKeys ns).mergeSort.flatMap fun k =>
    ((List.range (2 ^ ns.length)).map (vectorText ns)).map (k ++ ·)

section
variable {ns : List String} {cases : Nat → Nat → List Pattern} {group : List TargetData}
  (hg : group.Perm (fullGroup ns cases))
include hg

theorem length_group : group.length = ns.length * 2 ^ ns.length := by
  rw [hg.length_eq, fullGroup, List.length_flatMap]
  simp

theorem mem_group {d : TargetData} :
    d ∈ group ↔ ∃ t < ns.length, ∃ b < 2 ^ ns.length, dataOf ns cases t b = d := by
  rw [hg.mem_iff, fullGroup, List.mem_flatMap]
  simp

theorem constrained_names : (group.map fun d => d.constrained.name).Perm
    ((targetKeys ns).flatMap fun k =>
      ((List.range (2 ^ ns.length)).map (vectorText ns)).map (k ++ ·)) := by
  have hkeys : targetKeys ns = (List.range ns.length).map fun t => ns.getD t "" ++ "_" := by
    apply List.ext_getElem (by simp [targetKeys])
    intro t h1 h2
    have ht : t < ns.length := by simpa using h2
    simp [targetKeys, List.getElem?_eq_getElem ht]
  have hfull : (fullGroup ns cases).map (fun d => d.constrained.name) =
      (targetKeys ns).flatMap fun k =>
        ((List.range (2 ^ ns.length)).map (vectorText ns)).map (k ++ ·) := by
    rw [hkeys, List.flatMap_map, fullGroup, List.map_flatMap]
    refine List.flatMap_congr fun t _ => ?_
    rw [List.map_map, List.map_map]
    refine List.map_congr_left fun b _ => ?_
    show ns.getD t "" ++ ("_" ++ vectorText ns b) = ns.getD t "" ++ "_" ++ vectorText ns b
    rw [String.append_assoc]
  exact hfull ▸ hg.map _

variable (hs : ns.Pairwise (· < ·))
include hs

theorem outputNames_group : outputNames (group.map TargetData.name) = ns := by
  apply List.Pairwise.eq_of_mem_iff (OrdSet.sorted _) hs
  intro s
  show s ∈ OrdSet.ofList _ ↔ _
  rw [OrdSet.mem_ofList, List.mem_map]
  constructor
  · intro hmem
    obtain ⟨d, hd, rfl⟩ := hmem
    obtain ⟨t, ht, b, -, rfl⟩ := (mem_group hg).1 hd
    show ns.getD t "" ∈ ns
    rw [List.getD_eq_getElem _ _ ht]
    exact List.getElem_mem ht
  · intro hmem
    obtain ⟨t, ht, rfl⟩ := List.getElem_of_mem hmem
    refine ⟨dataOf ns cases t 0, (mem_group hg).2 ⟨t, ht, 0, Nat.two_pow_pos _, rfl⟩, ?_⟩
    exact List.getD_eq_getElem _ _ ht

variable (hp : PrefixFree (targetKeys ns))
include hp

theorem sorted_intermediate :
    (group.map fun d => d.constrained.name).mergeSort = sortedNames ns := by
  apply mergeSort_flatMap hp _ _ (constrained_names hg)
  · refine List.Nodup.map (fun a b hab => ?_) (hs.imp ne_of_lt)
    exact String.append_left_inj _ |>.1 hab
  · refine List.pairwise_map.2 (List.pairwise_lt_range.imp_of_mem fun {b b'} _ hb' hlt => ?_)
    exact vectorText_lt hs (List.mem_range.1 hb') hlt

/-- The blocks of a full group. -/
theorem groupNet_full (c : Circuit) (hne : ns ≠ []) : groupNet c group =
    some ((List.range (2 ^ ns.length)).map (cNode (ns.headD "") ns.length (sortedNames ns)) ++
      targetNodes (group.map TargetData.name) ++
      group.map fun d => d.constrained.getNodeString c) := by
  have hlen := length_group hg
  have hpos : 0 < ns.length := List.length_pos_iff.2 hne
  have hnames := outputNames_group hg hs
  have hhead : ns.head? = some (ns.headD "") := by
    cases ns with
    | nil => exact absurd rfl hne
    | cons s ns => rfl
  have htake : group.take (ns.length * 2 ^ ns.length) = group := List.take_of_length_le hlen.le
  have hdrop : group.drop (ns.length * 2 ^ ns.length) = [] := List.drop_eq_nil_of_le hlen.le
  have hsort := sorted_intermediate hg hs hp
  unfold groupNet
  split
  · -- a group of one target is not full
    rename_i d
    have h2 : 2 ≤ 2 ^ ns.length := Nat.le_self_pow hpos.ne' 2
    have hmul : 1 * 2 ≤ ns.length * 2 ^ ns.length := Nat.mul_le_mul hpos h2
    rw [List.length_singleton] at hlen
    omega
  · simp only [hnames, hhead, htake, hdrop, if_neg (Nat.not_lt.2 hlen.ge), List.append_nil,
      List.map_map]
    exact congrArg some (by rw [← hsort]; rfl)

end

/-- The signal of a vector takes its name from the run of each target. -/
theorem cNode_value (ns : List String) (id : String) {b : Nat} (hb : b < 2 ^ ns.length)
    (val : String → Bool) : (cNode id ns.length (sortedNames ns) b).value val = true ↔
      ∀ s ∈ ns, val (s ++ "_" ++ vectorText ns b) = true := by
  have hlen : (targetKeys ns).mergeSort.length = ns.length := by simp [targetKeys]
  let literals : List (String × Char) := (targetKeys ns).mergeSort.flatMap fun k =>
    (List.range (2 ^ ns.length)).map fun co => (k ++ vectorText ns co, if co = b then '1' else '-')
  have hinputs : sortedNames ns = literals.map Prod.fst := by
    rw [sortedNames, List.map_flatMap]
    refine List.flatMap_congr fun k _ => ?_
    rw [List.map_map, List.map_map]
    rfl
  have hcube : ((List.range ns.length).flatMap fun _ => (List.range (2 ^ ns.length)).map fun co =>
      if co = b then '1' else '-') = literals.map Prod.snd := by
    rw [List.map_flatMap, ← hlen]
    have hconst : ∀ {α : Type} (l : List α) (s : List Char),
        ((List.range l.length).flatMap fun _ => s) = l.flatMap fun _ => s := by
      intro α l s
      rw [List.flatMap_def, List.flatMap_def, List.map_const', List.map_const', List.length_range]
    rw [hconst]
    refine List.flatMap_congr fun k _ => ?_
    rw [List.map_map, hlen]
    rfl
  have hend : " 1\n".toList = [' ', '1', '\n'] := by decide
  have hnl : '\n' ∉ literals.map Prod.snd ++ [' ', '1'] := by
    intro hmem
    rcases List.mem_append.1 hmem with hmem | hmem
    · obtain ⟨e, he, hch⟩ := List.mem_map.1 hmem
      obtain ⟨k, -, hk⟩ := List.mem_flatMap.1 he
      obtain ⟨co, -, rfl⟩ := List.mem_map.1 hk
      revert hch
      by_cases hco : co = b <;> simp [hco]
    · exact absurd hmem (by decide)
  have hlines : coverLines [] (cNode id ns.length (sortedNames ns) b).cubes.toList =
      [literals.map Prod.snd ++ [' ', '1']] := by
    rw [cNode, String.toList_append, String.toList_ofList, hcube, hend]
    have hline : ∀ s ∈ [literals.map Prod.snd ++ [' ', '1']], '\n' ∉ s := by simpa using hnl
    have hflat := coverLines_flatMap hline
    simpa using hflat
  rw [Names.value, evalCube, hlines]
  have hvals : (cNode id ns.length (sortedNames ns) b).inputs.map val =
      literals.map fun e => val e.1 := by
    show (sortedNames ns).map val = _
    rw [hinputs, List.map_map]
    rfl
  have hline : evalLines [literals.map Prod.snd ++ [' ', '1']] (literals.map fun e => val e.1) =
      matchLine (literals.map Prod.snd ++ [' ', '1']) (literals.map fun e => val e.1) := by
    simp [evalLines, isComplement]
  rw [hvals, hline, matchLine_literals]
  constructor
  · intro hall s hs
    have hkey : s ++ "_" ∈ (targetKeys ns).mergeSort :=
      (List.mergeSort_perm _ _).symm.subset (List.mem_map_of_mem hs)
    exact (hall (s ++ "_" ++ vectorText ns b, '1') (List.mem_flatMap.2
      ⟨_, hkey, List.mem_map.2 ⟨b, List.mem_range.2 hb, by rw [if_pos rfl]⟩⟩)).2 rfl
  · intro hall e he
    obtain ⟨k, hk, he⟩ := List.mem_flatMap.1 he
    obtain ⟨co, -, rfl⟩ := List.mem_map.1 he
    obtain ⟨s, hs, rfl⟩ := List.mem_map.1 ((List.mergeSort_perm _ _).subset hk)
    by_cases hco : co = b
    · subst hco
      exact ⟨fun h => absurd h (by simp), fun _ => hall s hs⟩
    · exact ⟨fun h => absurd h (by simp [hco]), fun h => absurd h (by simp [hco])⟩

/-! ## The targets -/

/-- `b` is the first vector under which the on-sets of all targets are true. -/
structure FirstSelected (ns : List String) (cases : Nat → Nat → List Pattern) (c : Circuit)
    (val : String → Bool) (b : Nat) : Prop where
  lt : b < 2 ^ ns.length
  selected : Selected ns cases c val b
  first : ∀ b' < 2 ^ ns.length, Selected ns cases c val b' → b' = b ∨ Before ns.length b b'

section
variable {ns : List String} {cases : Nat → Nat → List Pattern} {group : List TargetData}
  {c : Circuit} {net : List Names} {val : String → Bool}
  (hs : ns.Pairwise (· < ·)) (hp : PrefixFree (targetKeys ns)) (hne : ns ≠ [])
  (hg : group.Perm (fullGroup ns cases)) (hnet : groupNet c group = some net)
  (hval : ∀ b ∈ net, val b.output = b.value val)
include hs hp hne hg hnet hval

/-- The signal of an on-set is true exactly under its patterns. -/
theorem onset_value {t b : Nat} (ht : t < ns.length) (hb : b < 2 ^ ns.length) :
    val (ns[t] ++ "_" ++ vectorText ns b) = true ↔
      ∃ inxcase ∈ cases t b, ∀ sig ∈ (dataOf ns cases t b).signals,
        inxcase.at sig = val (c.node sig).name := by
  have hmem : (dataOf ns cases t b).constrained.getNodeString c ∈ net := by
    rw [groupNet_full hg hs hp c hne] at hnet
    cases hnet
    apply List.mem_append_right
    exact List.mem_map_of_mem ((mem_group hg).2 ⟨t, ht, b, hb, rfl⟩)
  have hname : ((dataOf ns cases t b).constrained.getNodeString c).output =
      ns[t] ++ "_" ++ vectorText ns b := by
    show ns.getD t "" ++ ("_" ++ vectorText ns b) = _
    rw [List.getD_eq_getElem _ _ ht, String.append_assoc]
  rw [← hname, hval _ hmem, getNodeString_value]
  rfl

/-- The signal of a vector is true exactly if the vector is selected. -/
theorem cName_selected {b : Nat} (hb : b < 2 ^ ns.length) :
    val (cName (ns.headD "") ns.length b) = true ↔ Selected ns cases c val b := by
  have hmem : cNode (ns.headD "") ns.length (sortedNames ns) b ∈ net := by
    rw [groupNet_full hg hs hp c hne] at hnet
    cases hnet
    apply List.mem_append_left
    apply List.mem_append_left
    exact List.mem_map_of_mem (List.mem_range.2 hb)
  have hout : (cNode (ns.headD "") ns.length (sortedNames ns) b).output =
      cName (ns.headD "") ns.length b := rfl
  rw [← hout, hval _ hmem, cNode_value ns _ hb, List.forall_mem_iff_forall_getElem]
  refine forall_congr' fun t => forall_congr' fun ht => ?_
  exact onset_value hs hp hne hg hnet hval ht hb

/-- The value of a target is that of its cover. -/
theorem target_value {t : Nat} (ht : t < ns.length) :
    val ns[t] = evalCube (targetCover (ns.headD "") ns.length t).2
      ((targetCover (ns.headD "") ns.length t).1.keys.map val) := by
  have hnames := outputNames_group hg hs
  have hlt : t < (targetNodes (group.map TargetData.name)).length := by
    simpa [targetNodes, hnames] using ht
  obtain ⟨name, hname, hblock⟩ := targetNodes_getElem (List.getElem?_eq_getElem hlt)
  rw [hnames] at hname hblock
  have hmem : (targetNodes (group.map TargetData.name))[t] ∈ net := by
    rw [groupNet_full hg hs hp c hne] at hnet
    cases hnet
    apply List.mem_append_left
    exact List.mem_append_right _ (List.getElem_mem hlt)
  have hv := hval _ hmem
  rw [hblock] at hv
  have heq : name = ns[t] := Option.some.inj (hname.symm.trans (List.getElem?_eq_getElem ht))
  rw [← heq]
  exact hv

end

/-- **The blocks of a group.** Let the group have one on-set for each of its targets and vectors of
their values, in any order. Under every valuation of the blocks the targets take the values of
the first vector under which the on-sets of all targets are true, and 0 if there is no such vector
other than 0. -/
theorem groupNet_selects (ns : List String) (cases : Nat → Nat → List Pattern)
    (group : List TargetData) (c : Circuit) (hs : ns.Pairwise (· < ·))
    (hp : PrefixFree (targetKeys ns)) (hne : ns ≠ []) (hg : group.Perm (fullGroup ns cases)) :
    ∃ net, groupNet c group = some net ∧
      ∀ val : String → Bool, (∀ b ∈ net, val b.output = b.value val) →
        (∀ b, FirstSelected ns cases c val b →
          ∀ (t : Nat) (ht : t < ns.length), val ns[t] = digit ns.length b t) ∧
        ((∀ b < 2 ^ ns.length, b ≠ 0 → ¬Selected ns cases c val b) → ∀ s ∈ ns, val s = false) := by
  refine ⟨_, groupNet_full hg hs hp c hne, fun val hval => ⟨?_, ?_⟩⟩
  · intro b hb t ht
    have hnet := groupNet_full hg hs hp c hne
    have hfirst : IsFirst (ns.headD "") ns.length val b := by
      refine ⟨hb.lt, (cName_selected hs hp hne hg hnet hval hb.lt).2 hb.selected, ?_⟩
      intro b' hb' h'
      exact hb.first b' hb' ((cName_selected hs hp hne hg hnet hval hb').1 h')
    rw [target_value hs hp hne hg hnet hval ht, cover_first hfirst ht]
  · intro hnone s hmem
    have hnet := groupNet_full hg hs hp c hne
    obtain ⟨t, ht, rfl⟩ := List.getElem_of_mem hmem
    rw [target_value hs hp hne hg hnet hval ht]
    apply cover_none ht
    intro b hb h0
    rw [Bool.eq_false_iff, Ne, cName_selected hs hp hne hg hnet hval hb]
    exact hnone b hb h0

/-- Two targets of which exactly one is 1. -/
def twoCases (_ b : Nat) : List Pattern :=
  if b = 1 then [OrdMap.tabulate [0] fun _ => true]
  else if b = 2 then [OrdMap.tabulate [0] fun _ => false] else []

theorem twoCases_selected (val : String → Bool) (b : Nat) :
    Selected ["t_0", "t_1"] twoCases (ofNodes [{ name := "a", isInput := true }]) val b ↔
      b = 1 ∧ val "a" = true ∨ b = 2 ∧ val "a" = false := by
  have hone : ∀ v : Bool, (∀ t < 2, twoCases t b = [OrdMap.tabulate [0] fun _ => v]) →
      (Selected ["t_0", "t_1"] twoCases (ofNodes [{ name := "a", isInput := true }]) val b ↔
        val "a" = v) := by
    intro v hcases
    have hkeys : (OrdMap.tabulate [0] fun _ : NodeId => v).keys = [0] := by cases v <;> decide
    have hat : Pattern.at (OrdMap.tabulate [0] fun _ => v) 0 = v := by cases v <;> decide
    have hsignals : ∀ t < 2, (dataOf ["t_0", "t_1"] twoCases t b).signals = [0] := by
      intro t ht
      rw [TargetData.signals, dataOf, hcases t ht]
      exact hkeys
    constructor
    · intro hsel
      obtain ⟨inxcase, hmem, heq⟩ := hsel 0 (by decide)
      rw [hcases 0 (by decide)] at hmem
      rw [hsignals 0 (by decide), List.mem_singleton.1 hmem] at heq
      exact (hat.symm.trans (heq 0 List.mem_cons_self)).symm
    · intro ha t ht
      refine ⟨_, by rw [hcases t ht]; exact List.mem_cons_self, fun sig hsig => ?_⟩
      rw [hsignals t ht, List.mem_singleton] at hsig
      rw [hsig, hat]
      exact ha.symm
  by_cases h1 : b = 1
  · rw [hone true fun t _ => by rw [twoCases, if_pos h1]]
    simp [h1]
  · by_cases h2 : b = 2
    · rw [hone false fun t _ => by rw [twoCases, if_neg h1, if_pos h2]]
      simp [h2]
    · have hnone : ¬Selected ["t_0", "t_1"] twoCases
          (ofNodes [{ name := "a", isInput := true }]) val b := by
        intro hsel
        obtain ⟨inxcase, hmem, -⟩ := hsel 0 (by decide)
        rw [twoCases, if_neg h1, if_neg h2] at hmem
        cases hmem
      simp [hnone, h1, h2]

theorem groupNet_selects_two : ∃ net,
    groupNet (ofNodes [{ name := "a", isInput := true }]) (fullGroup ["t_0", "t_1"] twoCases) =
      some net ∧
    ∀ val : String → Bool, (∀ b ∈ net, val b.output = b.value val) →
      (val "t_0" = !val "a") ∧ val "t_1" = val "a" := by
  obtain ⟨net, hnet, hsel⟩ := groupNet_selects ["t_0", "t_1"] twoCases _
    (ofNodes [{ name := "a", isInput := true }]) (by decide) (by decide) (by decide) (.refl _)
  refine ⟨net, hnet, fun val hval => ?_⟩
  obtain ⟨hfirst, -⟩ := hsel val hval
  cases ha : val "a" with
  | false =>
    have := hfirst 2 ⟨by decide, (twoCases_selected val 2).2 (.inr ⟨rfl, ha⟩), fun b' _ hb' => by
      simp [twoCases_selected, ha] at hb'
      exact .inl hb'⟩
    exact ⟨this 0 (by decide), this 1 (by decide)⟩
  | true =>
    have := hfirst 1 ⟨by decide, (twoCases_selected val 1).2 (.inl ⟨rfl, ha⟩), fun b' _ hb' => by
      simp [twoCases_selected, ha] at hb'
      exact .inl hb'⟩
    exact ⟨this 0 (by decide), this 1 (by decide)⟩

end Msyn.PatchData
