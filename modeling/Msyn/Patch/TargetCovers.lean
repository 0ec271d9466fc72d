import Mathlib.Data.String.Basic
import Msyn.Circuit.Semantics
import Msyn.Lib.Loop

/-!
# The covers of several targets

For a group of `n` targets `Patch_data` has a signal for each vector of values of the targets, with
the vector in its name, and gives each target a cover over all of them. The cubes are written while
one map from names to literals is changed: a cube selects a vector with a 1 for the target and
excludes the vectors before it that have a 0 there. The number of vectors is `(int) pow(2, n)` in the
code, which is `2 ^ n` for fewer than 31 targets.

* `targetCover_inv`: the cubes of a target and the map they are written from.
* `cover_value`: a cover is true exactly at the valuations where one of its cubes is.
* `targets_consistent`: all targets take their values from the first vector whose signal is true,
  in the order of fewer and fewer ones and of increasing values.
-/

namespace Msyn.PatchData

open Nodecircuit

/-! ## The names -/

/-- The loop over `c_i_tmp`, which puts the lowest digits at the end, with the number of ones. -/
def digits : Nat → Nat → List Char → Nat → List Char × Nat
  | 0, _, s, ones => (s, ones)
  | t + 1, tmp, s, ones =>
    if tmp % 2 = 0 then digits t (tmp / 2) ('0' :: s) ones
    else digits t (tmp / 2) ('1' :: s) (ones + 1)

def cName (id : String) (n c : Nat) : String := String.ofList ('c' :: (digits n c ['_'] 0).1) ++ id

def numOfOnes (n c : Nat) : Nat := (digits n c ['_'] 0).2

/-- `c_names_group`: the names for each number of ones. `2 ^ n` has to fit an `int`. -/
def cNamesGroup (id : String) (n : Nat) : List (List String) :=
  (List.range (2 ^ n)).foldl (fun groups c => groups.modify (numOfOnes n c) (· ++ [cName id n c]))
    (List.replicate (n + 1) [])

/-! ## The covers -/

/-- The literals in the order of the names. -/
def cubeText (inxcase : OrdMap String Char) : String :=
  String.ofList (inxcase.entries.map Prod.snd ++ [' ', '1', '\n'])

/-- One name in the loops of target `t`. -/
def coverStep (t : Nat) (s : OrdMap String Char × String) (c_name : String) :
    OrdMap String Char × String :=
  if c_name.toList[t + 1]? = some '1' then
    let inxcase := s.1.set c_name '1'
    (inxcase.set c_name '-', s.2 ++ cubeText inxcase)
  else (s.1.set c_name '0', s.2)

/-- The loops of target `t`: the map at the end and the cubes. -/
def targetCover (id : String) (n t : Nat) : OrdMap String Char × String :=
  let groups := cNamesGroup id n
  let inxcase := (List.range n).foldl (fun m k => (groups.getD k []).foldl (·.set · '-') m) ∅
  (List.range n).foldl (fun s k => (groups.getD (n - k) []).foldl (coverStep t) s) (inxcase, "")

/-- A `.names` block. -/
structure Names where
  inputs : List String
  output : String
  cubes : String

def Names.text (b : Names) : String :=
  ".names" ++ String.join (b.inputs.map (" " ++ ·)) ++ " " ++ b.output ++ "\n" ++ b.cubes

/-- The names of the targets, sorted and each once. -/
def outputNames (group : List String) : List String := (OrdSet.ofList group).elems

/-- The blocks of the targets of a group. -/
def targetNodes (group : List String) : List Names :=
  let names := outputNames group
  names.zipIdx.map fun e =>
    let cover := targetCover (names.headD "") names.length e.2
    { inputs := cover.1.keys, output := e.1, cubes := cover.2 }

/-- The value of a block, where `val` gives the signals their values. -/
def Names.value (b : Names) (val : String → Bool) : Bool := evalCube b.cubes (b.inputs.map val)

example : (targetNodes ["t_1", "t_0"]).map Names.text =
    [".names c00_t_0 c01_t_0 c10_t_0 c11_t_0 t_0\n---1 1\n-01- 1\n",
      ".names c00_t_0 c01_t_0 c10_t_0 c11_t_0 t_1\n---1 1\n-1-- 1\n"] := by decide

/-! ## Digits -/

/-- The value of target `t` of `n` in the vector `c`: the first target has the highest digit. -/
def digit (n c t : Nat) : Bool := c.testBit (n - 1 - t)

theorem digits_fst (n c : Nat) (s : List Char) (ones : Nat) :
    (digits n c s ones).1 = (List.range n).map (fun t => bit (digit n c t)) ++ s := by
  induction n generalizing c s ones with
  | zero => rfl
  | succ n ih =>
    have hlow : digit (n + 1) c n = decide (c % 2 = 1) := by
      have h0 : n + 1 - 1 - n = 0 := by omega
      rw [digit, h0, Nat.testBit_zero]
    have hhigh : ∀ t ∈ List.range n, bit (digit (n + 1) c t) = bit (digit n (c / 2) t) := by
      intro t ht
      have hlt := List.mem_range.1 ht
      have hs : n + 1 - 1 - t = (n - 1 - t) + 1 := by omega
      rw [digit, digit, hs, Nat.testBit_succ]
    rw [List.range_succ, List.map_append, List.map_congr_left hhigh]
    unfold digits
    split
    · rename_i h
      rw [ih, List.map_singleton, hlow, decide_eq_false (by omega), List.append_assoc]
      rfl
    · rename_i h
      rw [ih, List.map_singleton, hlow, decide_eq_true (by omega), List.append_assoc]
      rfl

theorem digits_snd (n c : Nat) (s : List Char) (ones : Nat) :
    (digits n c s ones).2 = ones + (List.range n).countP c.testBit := by
  induction n generalizing c s ones with
  | zero => rfl
  | succ n ih =>
    have hcount : (List.range (n + 1)).countP c.testBit =
        (if c % 2 = 1 then 1 else 0) + (List.range n).countP (c / 2).testBit := by
      rw [List.range_succ_eq_map, List.countP_cons, List.countP_map, Nat.testBit_zero, Nat.add_comm]
      congr 1
      · simp
      · exact List.countP_congr fun i _ => by rw [Function.comp, Nat.testBit_succ]
    rw [hcount]
    unfold digits
    split
    · rename_i h
      have h1 : ¬c % 2 = 1 := by omega
      rw [ih, if_neg h1, Nat.zero_add]
    · rename_i h
      have h1 : c % 2 = 1 := by omega
      rw [ih, if_pos h1, Nat.add_assoc]

theorem numOfOnes_eq (n c : Nat) : numOfOnes n c = (List.range n).countP c.testBit := by
  rw [numOfOnes, digits_snd, Nat.zero_add]

theorem numOfOnes_le (n c : Nat) : numOfOnes n c ≤ n := by
  rw [numOfOnes_eq]
  exact List.countP_le_length.trans_eq List.length_range

section
variable {id : String} {n : Nat}

theorem toList_cName (c : Nat) : (cName id n c).toList =
    'c' :: ((List.range n).map (fun t => bit (digit n c t)) ++ '_' :: id.toList) := by
  rw [cName, String.toList_append, String.toList_ofList, digits_fst, List.cons_append,
    List.append_assoc]
  rfl

/-- The digit that a cover reads in a name. -/
theorem cName_digit (id : String) {c t : Nat} (ht : t < n) :
    (cName id n c).toList[t + 1]? = some '1' ↔ digit n c t = true := by
  rw [toList_cName, List.getElem?_cons_succ, List.getElem?_append_left (by simpa using ht),
    List.getElem?_map, List.getElem?_range ht, Option.map_some]
  cases digit n c t <;> simp [bit]

theorem digit_ext {c c' : Nat} (hc : c < 2 ^ n) (hc' : c' < 2 ^ n)
    (h : ∀ t < n, digit n c t = digit n c' t) : c = c' := by
  refine Nat.eq_of_testBit_eq fun j => ?_
  by_cases hj : j < n
  · have := h (n - 1 - j) (by omega)
    have hs : n - 1 - (n - 1 - j) = j := by omega
    rwa [digit, digit, hs] at this
  · have hle : 2 ^ n ≤ 2 ^ j := Nat.pow_le_pow_right (by omega) (by omega)
    rw [Nat.testBit_lt_two_pow (by omega), Nat.testBit_lt_two_pow (by omega)]

/-- Different vectors have different names. -/
theorem cName_inj {c c' : Nat} (hc : c < 2 ^ n) (hc' : c' < 2 ^ n)
    (h : cName id n c = cName id n c') : c = c' := by
  refine digit_ext hc hc' fun t ht => ?_
  rw [Bool.eq_iff_iff, ← cName_digit id ht, ← cName_digit id ht, h]

/-- Only the vector of all ones has as many ones as digits. -/
theorem numOfOnes_lt {c : Nat} (hc : c < 2 ^ n) (h : c ≠ 2 ^ n - 1) : numOfOnes n c < n := by
  refine lt_of_le_of_ne (numOfOnes_le n c) fun he => h ?_
  rw [numOfOnes_eq] at he
  have hall := List.countP_eq_length.1 (he.trans List.length_range.symm)
  refine Nat.eq_of_testBit_eq fun j => ?_
  rw [Nat.testBit_two_pow_sub_one]
  by_cases hj : j < n
  · rw [hall j (List.mem_range.2 hj), decide_eq_true hj]
  · have hle : 2 ^ n ≤ 2 ^ j := Nat.pow_le_pow_right (by omega) (by omega)
    rw [Nat.testBit_lt_two_pow (by omega), decide_eq_false hj]

/-! ## The order -/

/-- The vectors with `k` ones. -/
def withOnes (n k : Nat) : List Nat := (List.range (2 ^ n)).filter (numOfOnes n · = k)

theorem cNamesGroup_getD {k : Nat} (hk : k ≤ n) :
    (cNamesGroup id n).getD k [] = (withOnes n k).map (cName id n) := by
  have key : ∀ (l : List Nat) (g : List (List String)), k < g.length →
      (l.foldl (fun groups c => groups.modify (numOfOnes n c) (· ++ [cName id n c])) g).getD k [] =
        g.getD k [] ++ (l.filter (numOfOnes n · = k)).map (cName id n) := by
    intro l
    induction l with
    | nil => exact fun g _ => (List.append_nil _).symm
    | cons c l ih =>
      intro g hg
      rw [List.foldl_cons, ih _ (by rwa [List.length_modify]), List.filter_cons]
      have hget : (g.modify (numOfOnes n c) (· ++ [cName id n c])).getD k [] =
          g.getD k [] ++ if numOfOnes n c = k then [cName id n c] else [] := by
        simp only [List.getD_eq_getElem?_getD, List.getElem?_modify, List.getElem?_eq_getElem hg]
        split <;> simp
      rw [hget, List.append_assoc]
      congr 1
      by_cases hc : numOfOnes n c = k <;> simp [hc]
  rw [cNamesGroup, key _ _ (by simp; omega), withOnes]
  rw [List.getD_eq_getElem?_getD, List.getElem?_replicate, if_pos (by omega), Option.getD_some,
    List.nil_append]

/-- The vectors other than 0 in the order in which the covers take them. -/
def order (n : Nat) : List Nat := (List.range n).flatMap fun k => withOnes n (n - k)

/-- `b` comes before `c`. -/
def Before (n b c : Nat) : Prop :=
  numOfOnes n c < numOfOnes n b ∨ (numOfOnes n b = numOfOnes n c ∧ b < c)

theorem mem_withOnes {k c : Nat} : c ∈ withOnes n k ↔ c < 2 ^ n ∧ numOfOnes n c = k := by
  simp [withOnes]

theorem mem_order {c : Nat} : c ∈ order n ↔ c < 2 ^ n ∧ numOfOnes n c ≠ 0 := by
  have hle := numOfOnes_le n c
  simp only [order, List.mem_flatMap, List.mem_range, mem_withOnes]
  constructor
  · rintro ⟨k, hk, hc, he⟩
    exact ⟨hc, by omega⟩
  · rintro ⟨hc, h0⟩
    exact ⟨n - numOfOnes n c, by omega, hc, by omega⟩

theorem order_pairwise : (order n).Pairwise (Before n) := by
  refine List.pairwise_flatMap.2 ⟨fun k _ => ?_, ?_⟩
  · refine (List.pairwise_lt_range.filter _).imp_of_mem fun {a b} ha hb hab => .inr ⟨?_, hab⟩
    rw [(mem_withOnes.1 ha).2, (mem_withOnes.1 hb).2]
  · refine (List.pairwise_lt_range (n := n)).imp_of_mem fun {k l} hk hl hkl a ha b hb => .inl ?_
    rw [(mem_withOnes.1 ha).2, (mem_withOnes.1 hb).2]
    have := List.mem_range.1 hl
    omega

theorem Before.asymm {b c : Nat} (h : Before n b c) : ¬Before n c b := by
  unfold Before at *
  omega

instance (b c : Nat) : Decidable (Before n b c) := inferInstanceAs (Decidable (_ ∨ _))

/-- At each point of the order exactly the vectors before it are done. -/
theorem mem_done {done rest : List Nat} {c : Nat} (h : order n = done ++ c :: rest) (b : Nat) :
    b ∈ done ↔ b < 2 ^ n ∧ Before n b c := by
  have hp := order_pairwise (n := n)
  rw [h] at hp
  obtain ⟨-, h2, h3⟩ := List.pairwise_append.1 hp
  have hc : c < 2 ^ n ∧ numOfOnes n c ≠ 0 := mem_order.1 (by rw [h]; simp)
  constructor
  · intro hb
    exact ⟨(mem_order.1 (by rw [h]; simp [hb])).1, h3 b hb c (by simp)⟩
  · rintro ⟨hb, hbc⟩
    have hmem : b ∈ order n := mem_order.2 ⟨hb, by unfold Before at hbc; omega⟩
    rw [h, List.mem_append, List.mem_cons] at hmem
    rcases hmem with hmem | rfl | hmem
    · exact hmem
    · exact absurd hbc hbc.asymm
    · exact absurd hbc ((List.pairwise_cons.1 h2).1 b hmem).asymm

theorem numOfOnes_allOnes : numOfOnes n (2 ^ n - 1) = n := by
  rw [numOfOnes_eq]
  refine (List.countP_eq_length.2 fun j hj => ?_).trans List.length_range
  rw [Nat.testBit_two_pow_sub_one, decide_eq_true (List.mem_range.1 hj)]

/-- The vector of all ones comes first. -/
theorem allOnes_before {c : Nat} (hc : c < 2 ^ n) (h : c ≠ 2 ^ n - 1) :
    Before n (2 ^ n - 1) c :=
  .inl (numOfOnes_allOnes.symm ▸ numOfOnes_lt hc h)

/-! ## The cubes -/

/-- The literal of the vector `b` in the cube of `c`. -/
def literal (n t c b : Nat) : Char :=
  if b = c then '1' else if Before n b c ∧ digit n b t = false then '0' else '-'

/-- The keys are the names of all vectors. -/
def AllNames (id : String) (n : Nat) (m : OrdMap String Char) : Prop :=
  ∀ k, k ∈ m.keys ↔ ∃ b < 2 ^ n, k = cName id n b

/-- The map from which the cube of `c` is written. -/
structure IsCube (id : String) (n t c : Nat) (m : OrdMap String Char) : Prop where
  names : AllNames id n m
  find : ∀ b < 2 ^ n, m.find (cName id n b) = some (literal n t c b)

/-- After the vectors `done`. -/
structure CoverInv (id : String) (n t : Nat) (done : List Nat) (s : OrdMap String Char × String) :
    Prop where
  keys : ∀ k, k ∈ s.1.keys ↔ ∃ b < 2 ^ n, k = cName id n b ∧ (b ∈ done ∨ b ≠ 2 ^ n - 1)
  find : ∀ b < 2 ^ n, ∀ x, s.1.find (cName id n b) = some x →
    x = if b ∈ done ∧ digit n b t = false then '0' else '-'
  cubes : ∃ maps, s.2.toList = (maps.map fun m => (cubeText m).toList).flatten ∧
    List.Forall₂ (IsCube id n t) (done.filter (digit n · t)) maps

section
variable {t c : Nat} {done rest : List Nat} {s : OrdMap String Char × String}
  (h : CoverInv id n t done s) (ho : order n = done ++ c :: rest)
include h ho

/-- With the name of the step the map has all names: the vector of all ones is the first to come. -/
theorem CoverInv.keys_next (k : String) :
    k = cName id n c ∨ k ∈ s.1.keys ↔ ∃ b < 2 ^ n, k = cName id n b := by
  have hc : c < 2 ^ n := (mem_order.1 (show c ∈ order n by rw [ho]; simp)).1
  rw [h.keys]
  constructor
  · rintro (rfl | ⟨b, hb, hk, -⟩)
    · exact ⟨c, hc, rfl⟩
    · exact ⟨b, hb, hk⟩
  · rintro ⟨b, hb, rfl⟩
    by_cases hbc : b = c
    · exact .inl (hbc ▸ rfl)
    · refine .inr ⟨b, hb, rfl, ?_⟩
      by_cases hb1 : b = 2 ^ n - 1
      · exact .inl ((mem_done ho b).2
          ⟨hb, hb1 ▸ allOnes_before hc fun he => hbc (hb1.trans he.symm)⟩)
      · exact .inr hb1

theorem CoverInv.keys_step (k : String) : k = cName id n c ∨ k ∈ s.1.keys ↔
    ∃ b < 2 ^ n, k = cName id n b ∧ (b ∈ done ++ [c] ∨ b ≠ 2 ^ n - 1) := by
  have hc : c < 2 ^ n := (mem_order.1 (show c ∈ order n by rw [ho]; simp)).1
  rw [h.keys_next ho]
  refine exists_congr fun b => and_congr_right fun hb => (and_iff_left ?_).symm
  by_cases hb1 : b = 2 ^ n - 1
  · refine .inl ?_
    rw [List.mem_append, List.mem_singleton]
    by_cases hbc : b = c
    · exact .inr hbc
    · exact .inl ((mem_done ho b).2
        ⟨hb, hb1 ▸ allOnes_before hc fun he => hbc (hb1.trans he.symm)⟩)
  · exact .inr hb1

/-- The literals after a step that writes one for `c`. -/
theorem CoverInv.find_step {b : Nat} (hb : b < 2 ^ n) {x y : Char}
    (hy : y = if digit n c t = false then '0' else '-')
    (hx : (if cName id n b = cName id n c then some y else s.1.find (cName id n b)) = some x) :
    x = if b ∈ done ++ [c] ∧ digit n b t = false then '0' else '-' := by
  have hc : c < 2 ^ n := (mem_order.1 (show c ∈ order n by rw [ho]; simp)).1
  by_cases hbc : b = c
  · rw [if_pos (by rw [hbc])] at hx
    cases hx
    rw [hy, hbc]
    exact if_congr (by simp) rfl rfl
  · have hmem : b ∈ done ++ [c] ↔ b ∈ done := by simp [hbc]
    rw [if_neg fun he => hbc (cName_inj hb hc he)] at hx
    rw [h.find b hb x hx]
    exact if_congr (and_congr_left fun _ => hmem.symm) rfl rfl

/-- The cube that is written for `c`. -/
theorem CoverInv.isCube : IsCube id n t c (s.1.set (cName id n c) '1') := by
  have hc : c < 2 ^ n := (mem_order.1 (show c ∈ order n by rw [ho]; simp)).1
  refine ⟨fun k => by rw [OrdMap.mem_keys_set, h.keys_next ho], fun b hb => ?_⟩
  rw [OrdMap.find_set, literal]
  by_cases hbc : b = c
  · rw [if_pos (by rw [hbc]), if_pos hbc]
  · have hname : cName id n b ≠ cName id n c := fun he => hbc (cName_inj hb hc he)
    have hkey := ((h.keys_next ho _).2 ⟨b, hb, rfl⟩).resolve_left hname
    obtain ⟨x, hx⟩ := Option.isSome_iff_exists.1 (OrdMap.find_isSome.2 hkey)
    rw [if_neg hname, if_neg hbc, hx, h.find b hb x hx]
    refine congrArg some (if_congr ?_ rfl rfl)
    rw [mem_done ho b]
    exact and_congr_left fun _ => and_iff_right hb

theorem CoverInv.step (ht : t < n) :
    CoverInv id n t (done ++ [c]) (coverStep t s (cName id n c)) := by
  obtain ⟨maps, hm1, hm2⟩ := h.cubes
  unfold coverStep
  rw [if_congr (cName_digit _ ht) rfl rfl]
  split
  · rename_i hdig
    refine ⟨fun k => ?_, fun b hb x hx => ?_, maps ++ [s.1.set (cName id n c) '1'], ?_, ?_⟩
    · simp only [OrdMap.mem_keys_set]
      rw [← or_assoc, or_self]
      exact h.keys_step ho k
    · simp only [OrdMap.find_set] at hx
      refine h.find_step ho hb (y := '-') (by rw [hdig]; rfl) (Eq.trans ?_ hx)
      split <;> rfl
    · rw [String.toList_append, hm1, List.map_append, List.flatten_append]
      simp
    · rw [List.filter_append, List.filter_cons_of_pos (by simpa using hdig)]
      exact List.rel_append hm2 (.cons (h.isCube ho) .nil)
  · rename_i hdig
    have hdig : digit n c t = false := by simpa using hdig
    refine ⟨fun k => ?_, fun b hb x hx => ?_, maps, hm1, ?_⟩
    · rw [OrdMap.mem_keys_set]
      exact h.keys_step ho k
    · rw [OrdMap.find_set] at hx
      exact h.find_step ho hb (by rw [hdig]; rfl) hx
    · rw [List.filter_append, List.filter_cons_of_neg (by simp [hdig]), List.filter_nil,
        List.append_nil]
      exact hm2

end

/-- The map before the cubes. -/
theorem start_inv (t : Nat) : CoverInv id n t []
    ((List.range n).foldl (fun m k => ((cNamesGroup id n).getD k []).foldl (·.set · '-') m) ∅,
      "") := by
  have hinit : (List.range n).foldl
      (fun m k => ((cNamesGroup id n).getD k []).foldl (·.set · '-') m) (∅ : OrdMap String Char) =
        OrdMap.tabulate (((List.range n).flatMap (withOnes n)).map (cName id n)) fun _ => '-' := by
    rw [OrdMap.tabulate, List.map_flatMap, List.foldl_flatMap]
    refine List.foldl_ext _ _ _ fun m k hk => ?_
    rw [cNamesGroup_getD (List.mem_range.1 hk).le]
  have hmem : ∀ k, k ∈ ((List.range n).flatMap (withOnes n)).map (cName id n) ↔
      ∃ b < 2 ^ n, k = cName id n b ∧ b ≠ 2 ^ n - 1 := by
    intro k
    simp only [List.mem_map, List.mem_flatMap, List.mem_range, mem_withOnes]
    constructor
    · rintro ⟨b, ⟨j, hj, hb, rfl⟩, rfl⟩
      refine ⟨b, hb, rfl, ?_⟩
      rintro rfl
      rw [numOfOnes_allOnes] at hj
      exact absurd hj (Nat.lt_irrefl n)
    · rintro ⟨b, hb, rfl, hne⟩
      exact ⟨b, ⟨_, numOfOnes_lt hb hne, hb, rfl⟩, rfl⟩
  rw [hinit]
  refine ⟨fun k => ?_, fun b hb x hx => ?_, [], rfl, .nil⟩
  · rw [← OrdMap.find_isSome, OrdMap.find_tabulate]
    simp only [List.not_mem_nil, false_or]
    rw [← hmem k]
    split
    · rename_i hk
      exact ⟨fun _ => hk, fun _ => rfl⟩
    · rename_i hk
      exact ⟨fun h => (by cases h), fun h => absurd h hk⟩
  · rw [OrdMap.find_tabulate] at hx
    split at hx
    · cases hx
      simp
    · cases hx

/-- **The loops of a target.** -/
theorem targetCover_inv (id : String) {t : Nat} (ht : t < n) :
    CoverInv id n t (order n) (targetCover id n t) := by
  have hfold : targetCover id n t = ((order n).map (cName id n)).foldl (coverStep t)
      ((List.range n).foldl (fun m k => ((cNamesGroup id n).getD k []).foldl (·.set · '-') m) ∅,
        "") := by
    rw [targetCover, order, List.map_flatMap, List.foldl_flatMap]
    refine List.foldl_ext _ _ _ fun s k hk => ?_
    rw [cNamesGroup_getD (Nat.sub_le n k)]
  rw [hfold, List.foldl_map]
  exact foldl_prefix (CoverInv id n t) (fun done c rest s ho h => h.step ho ht) (start_inv t)

/-! ## The values of the targets -/

theorem matchLine_literals (l : List (String × Char)) (s : List Char) (val : String → Bool) :
    matchLine (l.map Prod.snd ++ s) (l.map fun e => val e.1) = true ↔
      ∀ e ∈ l, (e.2 = '0' → val e.1 = false) ∧ (e.2 = '1' → val e.1 = true) := by
  induction l with
  | nil => simp [matchLine]
  | cons e l ih =>
    have hcons : matchLine ((e :: l).map Prod.snd ++ s) ((e :: l).map fun e => val e.1) =
        ((if e.2 = '0' then !val e.1 else if e.2 = '1' then val e.1 else true) &&
          matchLine (l.map Prod.snd ++ s) (l.map fun e => val e.1)) := rfl
    rw [hcons, Bool.and_eq_true, ih, List.forall_mem_cons]
    refine and_congr_left fun _ => ?_
    by_cases h0 : e.2 = '0'
    · simp [h0]
    · by_cases h1 : e.2 = '1' <;> simp [h0, h1]

/-- The cube of `c` takes the valuations with `c` and none of the excluded vectors. -/
theorem IsCube.matchLine_iff {t c : Nat} {m : OrdMap String Char} (h : IsCube id n t c m)
    (hc : c < 2 ^ n) (s : List Char) (val : String → Bool) :
    matchLine (m.entries.map Prod.snd ++ s) (m.keys.map val) = true ↔
      val (cName id n c) = true ∧
        ∀ b < 2 ^ n, Before n b c → digit n b t = false → val (cName id n b) = false := by
  have hkeys : m.keys.map val = m.entries.map fun e => val e.1 := List.map_map
  rw [hkeys, matchLine_literals]
  constructor
  · intro hm
    have hlit : ∀ b < 2 ^ n, (cName id n b, literal n t c b) ∈ m.entries := fun b hb =>
      OrdMap.mem_entries.2 (h.find b hb)
    refine ⟨(hm _ (hlit c hc)).2 (if_pos rfl), fun b hb hbc hdig => (hm _ (hlit b hb)).1 ?_⟩
    have hne : b ≠ c := by
      rintro rfl
      exact hbc.asymm hbc
    show literal n t c b = '0'
    rw [literal, if_neg hne, if_pos ⟨hbc, hdig⟩]
  · intro hval e he
    obtain ⟨b, hb, hk⟩ := (h.names e.1).1 (List.mem_map_of_mem he)
    have hfind : m.find e.1 = some e.2 := OrdMap.mem_entries.1 he
    rw [hk, h.find b hb] at hfind
    rw [hk, ← Option.some.inj hfind, literal]
    by_cases hbc : b = c
    · rw [if_pos hbc, hbc]
      exact ⟨fun h => absurd h (by decide), fun _ => hval.1⟩
    · rw [if_neg hbc]
      split
      · rename_i hx
        exact ⟨fun _ => hval.2 b hb hx.1 hx.2, fun h => absurd h (by decide)⟩
      · exact ⟨fun h => absurd h (by decide), fun h => absurd h (by decide)⟩

/-- The cubes of a target: a line for each vector that has a 1 for it. -/
theorem targetCover_cubes (id : String) {t : Nat} (ht : t < n) : ∃ maps : List (OrdMap String Char),
    (targetCover id n t).2 = String.join (maps.map cubeText) ∧
      List.Forall₂ (IsCube id n t) ((order n).filter (digit n · t)) maps := by
  obtain ⟨maps, hcubes, hmaps⟩ := (targetCover_inv id ht).cubes
  refine ⟨maps, String.toList_injective ?_, hmaps⟩
  rw [hcubes, String.toList_join, List.flatMap_map]
  rfl

theorem allNames_targetCover {t : Nat} (ht : t < n) : AllNames id n (targetCover id n t).1 := by
  intro k
  rw [(targetCover_inv id ht).keys]
  refine exists_congr fun b => and_congr_right fun hb => and_iff_left ?_
  by_cases hb1 : b = 2 ^ n - 1
  · exact .inl (mem_order.2 ⟨hb, by rw [hb1, numOfOnes_allOnes]; omega⟩)
  · exact .inr hb1

/-- The names of a cube are those of the block. -/
theorem IsCube.keys_eq {t c : Nat} {m : OrdMap String Char} (h : IsCube id n t c m) (ht : t < n) :
    m.keys = (targetCover id n t).1.keys :=
  OrdMap.keys_ext fun k => (h.names k).trans (allNames_targetCover ht k).symm

theorem exists_of_mem {R : Nat → OrdMap String Char → Prop} {l : List Nat}
    {maps : List (OrdMap String Char)} (h : List.Forall₂ R l maps) :
    (∀ m ∈ maps, ∃ c ∈ l, R c m) ∧ ∀ c ∈ l, ∃ m ∈ maps, R c m := by
  induction h with
  | nil => exact ⟨by simp, by simp⟩
  | cons hcm _ ih =>
    refine ⟨List.forall_mem_cons.2 ⟨⟨_, List.mem_cons_self, hcm⟩, fun m hm => ?_⟩,
      List.forall_mem_cons.2 ⟨⟨_, List.mem_cons_self, hcm⟩, fun c hc => ?_⟩⟩
    · obtain ⟨c, hc, hcm⟩ := ih.1 m hm
      exact ⟨c, List.mem_cons_of_mem _ hc, hcm⟩
    · obtain ⟨m, hm, hcm⟩ := ih.2 c hc
      exact ⟨m, List.mem_cons_of_mem _ hm, hcm⟩

theorem literal_ne_newline (t c b : Nat) : literal n t c b ≠ '\n' := by
  unfold literal
  split
  · decide
  · split <;> decide

/-- **A cover** is true exactly at the valuations where one of its cubes is. -/
theorem cover_value {t : Nat} (ht : t < n) (val : String → Bool) :
    evalCube (targetCover id n t).2 ((targetCover id n t).1.keys.map val) = true ↔
      ∃ c ∈ order n, digit n c t = true ∧ val (cName id n c) = true ∧
        ∀ b < 2 ^ n, Before n b c → digit n b t = false → val (cName id n b) = false := by
  obtain ⟨maps, hcubes, hmaps⟩ := (targetCover_inv id ht).cubes
  obtain ⟨hfrom, hto⟩ := exists_of_mem hmaps
  have hchars : ∀ m ∈ maps, '\n' ∉ m.entries.map Prod.snd ++ [' ', '1'] := by
    intro m hm hx
    obtain ⟨c, -, hc⟩ := hfrom m hm
    rcases List.mem_append.1 hx with hx | hx
    · obtain ⟨e, he, hnl⟩ := List.mem_map.1 hx
      obtain ⟨b, hb, hk⟩ := (hc.names e.1).1 (List.mem_map_of_mem he)
      have hfind : m.find e.1 = some e.2 := OrdMap.mem_entries.1 he
      rw [hk, hc.find b hb] at hfind
      exact literal_ne_newline t c b ((Option.some.inj hfind).trans hnl)
    · exact absurd hx (by decide)
  have hlines : coverLines [] (targetCover id n t).2.toList =
      maps.map fun m => m.entries.map Prod.snd ++ [' ', '1'] := by
    rw [hcubes, ← coverLines_flatMap (List.forall_mem_map.2 hchars), List.flatMap_map, List.flatMap_def]
    simp [cubeText]
  have hphase : isComplement (maps.map fun m => m.entries.map Prod.snd ++ [' ', '1']) = false := by
    cases maps <;> simp [isComplement]
  rw [evalCube, hlines, evalLines, hphase, Bool.xor_false, List.any_map, List.any_eq_true]
  constructor
  · rintro ⟨m, hm, hmatch⟩
    obtain ⟨c, hc, hcube⟩ := hfrom m hm
    obtain ⟨hmem, hdig⟩ := List.mem_filter.1 hc
    rw [Function.comp, ← hcube.keys_eq ht, hcube.matchLine_iff (mem_order.1 hmem).1] at hmatch
    exact ⟨c, hmem, hdig, hmatch⟩
  · rintro ⟨c, hmem, hdig, hval⟩
    obtain ⟨m, hm, hcube⟩ := hto c (List.mem_filter.2 ⟨hmem, hdig⟩)
    refine ⟨m, hm, ?_⟩
    rw [Function.comp, ← hcube.keys_eq ht]
    exact (hcube.matchLine_iff (mem_order.1 hmem).1 _ val).2 hval

/-- `b` is the first vector whose signal is true. -/
structure IsFirst (id : String) (n : Nat) (val : String → Bool) (b : Nat) : Prop where
  lt : b < 2 ^ n
  holds : val (cName id n b) = true
  first : ∀ c < 2 ^ n, val (cName id n c) = true → c = b ∨ Before n b c

/-- If a signal is true, there is a first one. -/
theorem exists_first {val : String → Bool} {c : Nat} (hc : c < 2 ^ n)
    (h : val (cName id n c) = true) : ∃ b, IsFirst id n val b := by
  have hwf : WellFounded fun b c : Nat =>
      Prod.Lex (· < ·) (· < ·) (n - numOfOnes n b, b) (n - numOfOnes n c, c) :=
    InvImage.wf _ (WellFounded.prod_lex Nat.lt_wfRel.wf Nat.lt_wfRel.wf)
  obtain ⟨b, ⟨hb, hval⟩, hmin⟩ :=
    hwf.has_min (fun c => c < 2 ^ n ∧ val (cName id n c) = true) ⟨c, hc, h⟩
  refine ⟨b, hb, hval, fun c hc h => ?_⟩
  have hnot := hmin c ⟨hc, h⟩
  rw [Prod.lex_def] at hnot
  have hb' := numOfOnes_le n b
  have hc' := numOfOnes_le n c
  unfold Before
  simp only at hnot
  omega

theorem exists_digit {c t : Nat} (ht : t < n) (h : digit n c t = true) : numOfOnes n c ≠ 0 := by
  rw [numOfOnes_eq]
  exact (List.countP_pos_iff.2 ⟨n - 1 - t, List.mem_range.2 (by omega), h⟩).ne'

/-- The first vector gives the target its value. -/
theorem cover_first {val : String → Bool} {b t : Nat} (h : IsFirst id n val b) (ht : t < n) :
    evalCube (targetCover id n t).2 ((targetCover id n t).1.keys.map val) = digit n b t := by
  rw [Bool.eq_iff_iff, cover_value ht]
  constructor
  · rintro ⟨c, hc, hdig, hval, hex⟩
    rcases h.first c (mem_order.1 hc).1 hval with rfl | hbc
    · exact hdig
    · by_contra hb
      have := hex b h.lt hbc (by simpa using hb)
      rw [h.holds] at this
      cases this
  · intro hdig
    refine ⟨b, mem_order.2 ⟨h.lt, exists_digit ht hdig⟩, hdig, h.holds, fun c hc hcb _ => ?_⟩
    by_contra hval
    rcases h.first c hc (by simpa using hval) with rfl | hbc
    · exact hcb.asymm hcb
    · exact hcb.asymm hbc

/-- Without a true signal of a vector other than 0 the targets are 0. -/
theorem cover_none {val : String → Bool} {t : Nat} (ht : t < n)
    (h : ∀ c < 2 ^ n, c ≠ 0 → val (cName id n c) = false) :
    evalCube (targetCover id n t).2 ((targetCover id n t).1.keys.map val) = false := by
  rw [Bool.eq_false_iff, Ne, cover_value ht]
  rintro ⟨c, hc, hdig, hval, -⟩
  have h0 : c ≠ 0 := by
    rintro rfl
    simp [digit] at hdig
  rw [h c (mem_order.1 hc).1 h0] at hval
  cases hval

end

/-- The names in a block of a target: each vector once, in the order of the names. -/
theorem keys_targetCover (id : String) {n t : Nat} (ht : t < n) :
    (targetCover id n t).1.keys.Perm ((List.range (2 ^ n)).map (cName id n)) := by
  have hnodup : ((List.range (2 ^ n)).map (cName id n)).Nodup :=
    List.nodup_range.map_on fun b hb c hc he =>
      cName_inj (List.mem_range.1 hb) (List.mem_range.1 hc) he
  rw [List.perm_ext_iff_of_nodup (OrdMap.keys_nodup _) hnodup]
  intro k
  rw [allNames_targetCover ht k, List.mem_map]
  exact exists_congr fun b => and_congr List.mem_range.symm eq_comm

theorem targetNodes_getElem {group : List String} {t : Nat} {b : Names}
    (h : (targetNodes group)[t]? = some b) :
    ∃ name, (outputNames group)[t]? = some name ∧
      b = { inputs := (targetCover ((outputNames group).headD "") (outputNames group).length
              t).1.keys, output := name,
            cubes := (targetCover ((outputNames group).headD "") (outputNames group).length
              t).2 } := by
  obtain ⟨e, he, rfl⟩ := Option.map_eq_some_iff.1 ((List.getElem?_map ..).symm.trans h)
  obtain ⟨name, hname, rfl⟩ := Option.map_eq_some_iff.1 ((List.getElem?_zipIdx ..).symm.trans he)
  rw [Nat.zero_add] at *
  exact ⟨name, hname, rfl⟩

/-- **The targets of a group are consistent**: they take the values of the first vector whose signal
is true, or 0 when only the signal of the vector 0 may be. A line of a cover has a literal for
each of the `2 ^ n` names of its block, in their order. -/
theorem targets_consistent (group : List String) (t : Nat) (b : Names)
    (hb : (targetNodes group)[t]? = some b) :
    let n := (outputNames group).length
    let id := (outputNames group).headD ""
    (outputNames group)[t]? = some b.output ∧
    (∀ (val : String → Bool) (v : Nat), IsFirst id n val v → b.value val = digit n v t) ∧
    (∀ val : String → Bool, (∀ v < 2 ^ n, v ≠ 0 → val (cName id n v) = false) →
      b.value val = false) ∧
    b.inputs.Perm ((List.range (2 ^ n)).map (cName id n)) ∧
    ∃ maps : List (OrdMap String Char), b.cubes = String.join (maps.map cubeText) ∧
      List.Forall₂ (fun v m => m.keys = b.inputs ∧ m.entries.length = 2 ^ n ∧
          ∀ c < 2 ^ n, m.find (cName id n c) = some (literal n t v c))
        ((order n).filter (digit n · t)) maps := by
  intro n id
  obtain ⟨name, hname, rfl⟩ := targetNodes_getElem hb
  have ht : t < n := (List.getElem?_eq_some_iff.1 hname).1
  have hperm := keys_targetCover id ht
  obtain ⟨maps, hcubes, hmaps⟩ := targetCover_cubes id ht
  refine ⟨hname, fun val v hv => cover_first hv ht, fun val hval => cover_none ht hval, hperm,
    maps, hcubes, hmaps.imp fun v m hm => ⟨hm.keys_eq ht, ?_, hm.find⟩⟩
  have hlen := congrArg List.length (hm.keys_eq ht)
  rw [OrdMap.keys, List.length_map] at hlen
  rw [hlen, hperm.length_eq, List.length_map, List.length_range]

theorem targets_consistent_two : ∃ b, (targetNodes ["t_1", "t_0"])[1]? = some b ∧
    b.output = "t_1" ∧ b.value (fun s => s == "c01_t_0" || s == "c10_t_0") = true := by
  have hb := List.getElem?_eq_getElem (l := targetNodes ["t_1", "t_0"]) (i := 1) (by decide)
  obtain ⟨hout, hval, -⟩ := targets_consistent ["t_1", "t_0"] 1 _ hb
  have hfirst : IsFirst "t_0" 2 (fun s => s == "c01_t_0" || s == "c10_t_0") 1 :=
    ⟨by decide, by decide, by decide⟩
  exact ⟨_, hb, (Option.some.inj hout).symm, hval _ 1 hfirst⟩

end Msyn.PatchData
