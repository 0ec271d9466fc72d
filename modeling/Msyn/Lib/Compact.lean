import Mathlib.Tactic.Common

/-!
# Compaction of an array in place

The two-pointer idiom that takes the entries marked dead out of an array: `scanWhile` finds the
first dead entry and the first live one behind it, with no test of the length, and `compact` copies
every live entry that follows down to `cur`. `closeGaps` is the whole of it.

* `compact_spec`: from `cur ≤ move`, what is kept is the prefix and the live rest, in order.
* `closeGaps_eq_some`: the scans stay in the array exactly if a live entry follows the first dead
  one, and then the live entries are left.
-/

namespace Msyn

variable {α : Type*} (p dead : α → Bool)

/-- `while (p(xs[i])) i++;` on the entries from index `i` on; `none` where it leaves the array. -/
def scanWhile : List α → Nat → Option Nat
  | [], _ => none
  | a :: l, i => if p a then scanWhile l (i + 1) else some i

/-- `rounds` rounds of the loop that copies the live entries from `move` on to `cur`. -/
def compact : Nat → List α → Nat → Nat → Option (List α × Nat)
  | 0, xs, cur, _ => some (xs, cur)
  | rounds + 1, xs, cur, move =>
    match xs[move]? with
    | none => none
    | some a =>
      if dead a then compact rounds xs cur (move + 1)
      else if cur < xs.length then compact rounds (xs.set cur a) (cur + 1) (move + 1)
      else none

/-- The dead entries of `xs` leave; `n` is the bound of the copying loop. -/
def closeGaps (n : Nat) (xs : List α) : Option (List α) :=
  (scanWhile (fun a => !dead a) xs 0).bind fun cur =>
  (scanWhile dead (xs.drop (cur + 1)) (cur + 1)).bind fun move =>
  (compact dead (n - move) xs cur move).map fun (xs, cur) => xs.take cur

variable {p dead}

theorem scanWhile_append {l : List α} {a : α} {l' : List α} (hl : ∀ b ∈ l, p b = true)
    (ha : p a = false) (i : Nat) : scanWhile p (l ++ a :: l') i = some (i + l.length) := by
  induction l generalizing i with
  | nil => simp [scanWhile, ha]
  | cons b l ih =>
    rw [List.cons_append, scanWhile, if_pos (hl b (by simp)), ih fun c hc => hl c (by simp [hc]),
      List.length_cons]
    congr 1
    omega

theorem scanWhile_all {l : List α} (hl : ∀ b ∈ l, p b = true) (i : Nat) :
    scanWhile p l i = none := by
  induction l generalizing i with
  | nil => rfl
  | cons b l ih =>
    rw [scanWhile, if_pos (hl b (by simp)), ih fun c hc => hl c (by simp [hc])]

variable (dead) in
/-- **The copying loop** keeps the prefix and the live entries from `move` on. -/
theorem compact_spec : ∀ (rounds : Nat) (xs : List α) (cur move : Nat), cur ≤ move →
    rounds + move = xs.length → ∃ ys k, compact dead rounds xs cur move = some (ys, k) ∧
      ys.take k = xs.take cur ++ (xs.drop move).filter fun a => !dead a
  | 0, xs, cur, move, _, hn => by
    refine ⟨xs, cur, rfl, ?_⟩
    rw [List.drop_eq_nil_of_le (by omega)]
    simp
  | rounds + 1, xs, cur, move, hle, hn => by
    have hmove : move < xs.length := by omega
    rw [List.drop_eq_getElem_cons hmove]
    simp only [compact, List.getElem?_eq_getElem hmove]
    by_cases hd : dead xs[move] = true
    · obtain ⟨ys, k, he, ht⟩ := compact_spec rounds xs cur (move + 1) (by omega) (by omega)
      refine ⟨ys, k, by rw [if_pos hd]; exact he, ?_⟩
      rw [ht, List.filter_cons_of_neg (by simp [hd])]
    · -- the write at `cur` is behind `move`, so the entries still to come are as they were
      obtain ⟨ys, k, he, ht⟩ := compact_spec rounds (xs.set cur xs[move]) (cur + 1)
        (move + 1) (by omega) (by rw [List.length_set]; omega)
      refine ⟨ys, k, by rw [if_neg hd, if_pos (by omega)]; exact he, ?_⟩
      have hcur : cur < (xs.set cur xs[move]).length := by rw [List.length_set]; omega
      rw [ht, List.filter_cons_of_pos (by simp [hd]), List.drop_set_of_lt (by omega),
        List.take_succ_eq_append_getElem hcur, List.take_set_of_le (Nat.le_refl cur),
        List.getElem_set_self, List.append_assoc]
      rfl

/-- The first entry with `p`. -/
theorem exists_first {l : List α} (h : ∃ a ∈ l, p a = true) :
    ∃ pre a post, l = pre ++ a :: post ∧ (∀ b ∈ pre, p b = false) ∧ p a = true := by
  obtain ⟨a, ha⟩ := Option.isSome_iff_exists.1 (List.find?_isSome.2 h)
  obtain ⟨hp, pre, post, hl, hpre⟩ := List.find?_eq_some_iff_append.1 ha
  exact ⟨pre, a, post, hl, fun b hb => by simpa using hpre b hb, hp⟩

/-- **Compaction.** `d` is the first dead entry: the scans stay in the array exactly if a live
entry follows it, and then the live entries remain, in order. -/
theorem closeGaps_eq {pre : List α} {d : α} {post : List α} (hpre : ∀ a ∈ pre, dead a = false)
    (hd : dead d = true) :
    closeGaps dead (pre ++ d :: post).length (pre ++ d :: post) =
      if ∀ a ∈ post, dead a = true then none
      else some ((pre ++ d :: post).filter fun a => !dead a) := by
  have hcur : scanWhile (fun a => !dead a) (pre ++ d :: post) 0 = some pre.length := by
    rw [scanWhile_append (fun b hb => by simp [hpre b hb]) (by simp [hd]), Nat.zero_add]
  have hdrop : (pre ++ d :: post).drop (pre.length + 1) = post := by
    rw [List.drop_append]
    simp
  simp only [closeGaps, hcur, Option.bind_some, hdrop]
  split_ifs with hall
  · rw [scanWhile_all hall]
    rfl
  · obtain ⟨gap, a, rest, rfl, hgap, ha⟩ : ∃ gap a rest, post = gap ++ a :: rest ∧
        (∀ b ∈ gap, dead b = true) ∧ dead a = false := by
      obtain ⟨gap, a, rest, hp, hgap, ha⟩ := exists_first (p := fun a => !dead a) (l := post)
        (by simpa using hall)
      exact ⟨gap, a, rest, hp, fun b hb => by simpa using hgap b hb, by simpa using ha⟩
    rw [scanWhile_append hgap ha, Option.bind_some]
    obtain ⟨ys, k, he, ht⟩ := compact_spec dead
      ((pre ++ d :: (gap ++ a :: rest)).length - (pre.length + 1 + gap.length))
      (pre ++ d :: (gap ++ a :: rest)) pre.length (pre.length + 1 + gap.length) (by omega)
      (by simp; omega)
    have hmove : (pre ++ d :: (gap ++ a :: rest)).drop (pre.length + 1 + gap.length) =
        a :: rest := by
      rw [← List.drop_drop, hdrop, List.drop_left]
    have hgap' : gap.filter (fun b => !dead b) = [] :=
      List.filter_eq_nil_iff.2 fun b hb => by simp [hgap b hb]
    have hpre' : pre.filter (fun b => !dead b) = pre :=
      List.filter_eq_self.2 fun b hb => by simp [hpre b hb]
    rw [he, Option.map_some, ht, hmove, List.take_left]
    simp [hgap', hpre', hd]

theorem closeGaps_eq_some {xs ys : List α} (h : ∃ a ∈ xs, dead a = true) :
    closeGaps dead xs.length xs = some ys ↔ ys = xs.filter (fun a => !dead a) ∧
      ∀ pre d post, xs = pre ++ d :: post → (∀ a ∈ pre, dead a = false) → dead d = true →
        ∃ a ∈ post, dead a = false := by
  have hiff : ∀ pre d post, xs = pre ++ d :: post → (∀ a ∈ pre, dead a = false) → dead d = true →
      (closeGaps dead xs.length xs = some ys ↔
        ys = xs.filter (fun a => !dead a) ∧ ∃ a ∈ post, dead a = false) := by
    rintro pre d post rfl hpre hd
    rw [closeGaps_eq hpre hd]
    split_ifs with hall
    · refine ⟨nofun, fun ⟨_, a, ha, hl⟩ => ?_⟩
      rw [hall a ha] at hl
      cases hl
    · rw [Option.some.injEq, eq_comm, and_iff_left]
      simpa using hall
  constructor
  · intro hs
    obtain ⟨pre, d, post, hx, hpre, hd⟩ := exists_first h
    exact ⟨((hiff pre d post hx hpre hd).1 hs).1,
      fun pre d post hx hpre hd => ((hiff pre d post hx hpre hd).1 hs).2⟩
  · intro ⟨hys, hlive⟩
    obtain ⟨pre, d, post, hx, hpre, hd⟩ := exists_first h
    exact (hiff pre d post hx hpre hd).2 ⟨hys, hlive pre d post hx hpre hd⟩

end Msyn
