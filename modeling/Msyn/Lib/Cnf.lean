import Mathlib.Data.List.Basic
import Mathlib.Tactic.Common

/-!
# Clauses, models and exact solvers

A literal is a variable with a sign, a clause is a list of literals, a model is a valuation of the
variables. `Exact solve` says that a solver answers each query truthfully: a model it returns
satisfies the query, and it returns none only if no model does. `dpll` is such a solver
(`dpll_exact`), so the assumption can be met.
-/

namespace Msyn.Cnf

abbrev Lit := Nat × Bool
abbrev Clause := List Lit
abbrev Model := Nat → Bool

/-- `m` satisfies every clause of `cs`. -/
def Sat (m : Model) (cs : List Clause) : Prop := ∀ c ∈ cs, ∃ l ∈ c, m l.1 = l.2

instance (m : Model) (cs : List Clause) : Decidable (Sat m cs) :=
  inferInstanceAs (Decidable (∀ c ∈ cs, ∃ l ∈ c, m l.1 = l.2))

/-- `m` makes every literal of `ls` true. -/
def Holds (m : Model) (ls : List Lit) : Prop := ∀ l ∈ ls, m l.1 = l.2

instance (m : Model) (ls : List Lit) : Decidable (Holds m ls) :=
  inferInstanceAs (Decidable (∀ l ∈ ls, m l.1 = l.2))

@[simp] theorem sat_nil (m : Model) : Sat m [] := by simp [Sat]

@[simp] theorem sat_cons {m : Model} {c : Clause} {cs : List Clause} :
    Sat m (c :: cs) ↔ (∃ l ∈ c, m l.1 = l.2) ∧ Sat m cs := by simp [Sat]

@[simp] theorem sat_append {m : Model} {cs ds : List Clause} :
    Sat m (cs ++ ds) ↔ Sat m cs ∧ Sat m ds := by simp [Sat, or_imp, forall_and]

@[simp] theorem holds_nil (m : Model) : Holds m [] := by simp [Holds]

@[simp] theorem holds_cons {m : Model} {l : Lit} {ls : List Lit} :
    Holds m (l :: ls) ↔ m l.1 = l.2 ∧ Holds m ls := by simp [Holds]

@[simp] theorem holds_append {m : Model} {ls ks : List Lit} :
    Holds m (ls ++ ks) ↔ Holds m ls ∧ Holds m ks := by simp [Holds, or_imp, forall_and]

theorem sat_units {m : Model} {ls : List Lit} : Sat m (ls.map fun l => [l]) ↔ Holds m ls := by
  induction ls with
  | nil => simp
  | cons l ls ih => rw [List.map_cons, sat_cons, ih, holds_cons]; simp

/-! ## Variables -/

/-- Every variable of the clauses is below `n`. -/
def Below (n : Nat) (cs : List Clause) : Prop := ∀ c ∈ cs, ∀ l ∈ c, l.1 < n

theorem Below.mono {n k : Nat} {cs : List Clause} (h : Below n cs) (hnk : n ≤ k) : Below k cs :=
  fun c hc l hl => Nat.lt_of_lt_of_le (h c hc l hl) hnk

theorem below_append {n : Nat} {cs ds : List Clause} :
    Below n (cs ++ ds) ↔ Below n cs ∧ Below n ds := by
  simp only [Below, List.mem_append, or_imp, forall_and]

/-- A model is read on the variables of the clauses only. -/
theorem sat_congr {n : Nat} {cs : List Clause} (hb : Below n cs) {m m' : Model}
    (h : ∀ v < n, m v = m' v) : Sat m cs ↔ Sat m' cs := by
  have key : ∀ {m m' : Model}, (∀ v < n, m v = m' v) → Sat m cs → Sat m' cs := by
    intro m m' h hs c hc
    obtain ⟨l, hl, hm⟩ := hs c hc
    exact ⟨l, hl, by rw [← h l.1 (hb c hc l hl)]; exact hm⟩
  exact ⟨key h, key fun v hv => (h v hv).symm⟩

/-! ## Solvers -/

/-- A query: clauses with assumed literals. `some m` is *sat* with the model `m`, `none` is
*unsat*. -/
abbrev Solve := List Clause → List Lit → Option Model

/-- The solver answers the query truthfully. -/
def Truthful (cs : List Clause) (as : List Lit) : Option Model → Prop
  | some m => Sat m cs ∧ Holds m as
  | none => ¬∃ m, Sat m cs ∧ Holds m as

/-- The solver answers every query truthfully. -/
def Exact (solve : Solve) : Prop := ∀ cs as, Truthful cs as (solve cs as)

/-- The clauses after `l` is decided. -/
def assign (l : Lit) (cs : List Clause) : List Clause :=
  (cs.filter (l ∉ ·)).map (·.filter (· ≠ (l.1, !l.2)))

/-- The shortest of `c` and the clauses `cs`. -/
def shortest (c : Clause) : List Clause → Clause
  | [] => c
  | d :: cs => if d.length < c.length then shortest d cs else shortest c cs

/-- Decide a literal of the shortest clause, then its negation. -/
def dpll : Nat → List Clause → Option Model
  | 0, _ => none
  | _, [] => some fun _ => false
  | fuel + 1, c :: cs =>
    match shortest c cs with
    | [] => none
    | l :: _ =>
      match dpll fuel (assign l (c :: cs)) with
      | some m => some fun v => if v = l.1 then l.2 else m v
      | none =>
        match dpll fuel (assign (l.1, !l.2) (c :: cs)) with
        | some m => some fun v => if v = l.1 then !l.2 else m v
        | none => none

/-- The number of literals. -/
def litCount (cs : List Clause) : Nat := cs.flatten.length

def dpllSolve : Solve := fun cs as =>
  dpll (litCount (cs ++ as.map fun l => [l]) + 1) (cs ++ as.map fun l => [l])

theorem shortest_mem (c : Clause) (cs : List Clause) : shortest c cs ∈ c :: cs := by
  induction cs generalizing c with
  | nil => simp [shortest]
  | cons d cs ih =>
    simp only [shortest]
    split
    · have := ih d; simp only [List.mem_cons] at this ⊢; tauto
    · have := ih c; simp only [List.mem_cons] at this ⊢; tauto

theorem sat_of_assign {m : Model} {l : Lit} {cs : List Clause} (h : Sat m (assign l cs)) :
    Sat (fun v => if v = l.1 then l.2 else m v) cs := by
  intro c hc
  by_cases hl : l ∈ c
  · exact ⟨l, hl, if_pos rfl⟩
  · have hd : c.filter (· ≠ (l.1, !l.2)) ∈ assign l cs := by
      refine List.mem_map.2 ⟨c, List.mem_filter.2 ⟨hc, by simpa using hl⟩, rfl⟩
    obtain ⟨k, hk, hm⟩ := h _ hd
    obtain ⟨hkc, hne⟩ := List.mem_filter.1 hk
    refine ⟨k, hkc, ?_⟩
    have hv : k.1 ≠ l.1 := by
      intro he
      obtain ⟨a, b⟩ := k
      obtain ⟨a', b'⟩ := l
      simp only at he
      subst he
      cases b <;> cases b' <;> simp_all
    simpa [hv] using hm

theorem Sat.assign {m : Model} {l : Lit} {cs : List Clause} (h : Sat m cs) (hl : m l.1 = l.2) :
    Sat m (assign l cs) := by
  intro d hd
  obtain ⟨c, hc, rfl⟩ := List.mem_map.1 hd
  obtain ⟨hc, -⟩ := List.mem_filter.1 hc
  obtain ⟨k, hk, hm⟩ := h c hc
  refine ⟨k, List.mem_filter.2 ⟨hk, ?_⟩, hm⟩
  simp only [ne_eq, decide_not, Bool.not_eq_eq_eq_not, Bool.not_true, decide_eq_false_iff_not]
  rintro rfl
  have hb : l.2 = !l.2 := hl.symm.trans hm
  revert hb
  cases l.2 <;> decide

theorem litCount_cons (c : Clause) (cs : List Clause) :
    litCount (c :: cs) = c.length + litCount cs := by simp [litCount]

theorem litCount_assign_le (l : Lit) (cs : List Clause) : litCount (assign l cs) ≤ litCount cs := by
  induction cs with
  | nil => simp [assign, litCount]
  | cons c cs ih =>
    have hc := List.length_filter_le (· ≠ (l.1, !l.2)) c
    by_cases hl : l ∈ c
    · have : assign l (c :: cs) = assign l cs := by simp [assign, hl]
      rw [this, litCount_cons]
      omega
    · have : assign l (c :: cs) = c.filter (· ≠ (l.1, !l.2)) :: assign l cs := by
        simp [assign, hl]
      rw [this, litCount_cons, litCount_cons]
      omega

/-- Deciding a literal whose variable occurs removes an occurrence. -/
theorem litCount_assign_lt {l : Lit} {cs : List Clause} {c : Clause} (hc : c ∈ cs)
    (hl : l ∈ c ∨ (l.1, !l.2) ∈ c) : litCount (assign l cs) < litCount cs := by
  induction cs with
  | nil => simp at hc
  | cons d cs ih =>
    have hd := List.length_filter_le (· ≠ (l.1, !l.2)) d
    by_cases hld : l ∈ d
    · have h1 : assign l (d :: cs) = assign l cs := by simp [assign, hld]
      rw [h1, litCount_cons]
      have h2 := litCount_assign_le l cs
      have h3 := List.length_pos_of_mem hld
      omega
    · have h1 : assign l (d :: cs) = d.filter (· ≠ (l.1, !l.2)) :: assign l cs := by
        simp [assign, hld]
      rw [h1, litCount_cons, litCount_cons]
      rcases List.mem_cons.1 hc with rfl | hc
      · have h2 := litCount_assign_le l cs
        have hneg := hl.resolve_left hld
        have h3 : (c.filter (· ≠ (l.1, !l.2))).length < c.length := by
          refine List.length_filter_lt_length_iff_exists.2 ⟨_, hneg, by simp⟩
        omega
      · have := ih hc
        omega

theorem dpll_sound : ∀ {fuel : Nat} {cs : List Clause} {m : Model}, dpll fuel cs = some m → Sat m cs
  | 0, _, _, h => by simp [dpll] at h
  | _ + 1, [], _, _ => sat_nil _
  | fuel + 1, c :: cs, m, h => by
    simp only [dpll] at h
    split at h
    · cases h
    · split at h
      · rename_i hm
        cases h
        exact sat_of_assign (dpll_sound hm)
      · split at h
        · rename_i hm
          cases h
          exact sat_of_assign (l := (_, _)) (dpll_sound hm)
        · cases h

theorem dpll_complete : ∀ {fuel : Nat} {cs : List Clause}, litCount cs < fuel →
    dpll fuel cs = none → ¬∃ m, Sat m cs
  | 0, _, hf, _ => by omega
  | fuel + 1, [], _, h => by simp [dpll] at h
  | fuel + 1, c :: cs, hf, h => by
    rintro ⟨m, hm⟩
    have hmem := shortest_mem c cs
    simp only [dpll] at h
    split at h
    · rename_i he
      rw [he] at hmem
      obtain ⟨l, hl, -⟩ := hm _ hmem
      cases hl
    · rename_i l t he
      rw [he] at hmem
      split at h
      · cases h
      · rename_i h1
        split at h
        · cases h
        · rename_i h2
          -- the model makes one of the two decisions, and that branch has fewer literals
          by_cases hl : m l.1 = l.2
          · have hlt := litCount_assign_lt (l := l) hmem (.inl (by simp))
            exact dpll_complete (by omega) h1 ⟨m, hm.assign hl⟩
          · have hl' : m l.1 = !l.2 := by cases hb : l.2 <;> simp_all
            have hlt := litCount_assign_lt (l := (l.1, !l.2)) hmem (.inr (by simp))
            exact dpll_complete (by omega) h2 ⟨m, hm.assign (l := (l.1, !l.2)) hl'⟩

/-- **There is an exact solver.** -/
theorem dpll_exact : Exact dpllSolve := by
  intro cs as
  unfold Truthful
  split
  · rename_i m hm
    have := dpll_sound hm
    rwa [sat_append, sat_units] at this
  · rename_i hm
    have := dpll_complete (Nat.lt_succ_self _) hm
    simpa only [sat_append, sat_units] using this

end Msyn.Cnf
