import Mathlib.Data.List.Nodup
import Mathlib.Data.List.Perm.Subperm
import Msyn.Lib.Cnf
import Msyn.Lib.Loop

/-!
# Enumerating the patterns of the models

A loop asks a solver for a model, records the pattern of the model and blocks it, until the query is
unsatisfiable. With exact solvers and finitely many patterns it ends with the patterns of all models
of the query, each once (`enum_total`).
-/

namespace Msyn.AllSat

open Cnf

/-- The solver, the patterns found so far and the number of calls. -/
structure State (σ α : Type*) where
  solver : σ
  found : List α
  calls : Nat

section
variable {σ α : Type*} (solve : Nat → Solve) (clauses : σ → List Clause) (assump : List Lit)
  (pat : Model → α) (block : σ → Model → σ)

/-- One round of the loop. -/
def step (st : State σ α) : State σ α ⊕ State σ α :=
  match solve st.calls (clauses st.solver) assump with
  | none => .inr { st with calls := st.calls + 1 }
  | some m => .inl
      { solver := block st.solver m
        found := st.found ++ [pat m]
        calls := st.calls + 1 }

/-- The loop with a bound on the number of rounds. -/
def enum (fuel : Nat) (s : σ) (calls : Nat) : Option (State σ α) :=
  loop (step solve clauses assump pat block) fuel { solver := s, found := [], calls }

/-- The pattern of a model of the query. -/
def Occurs (cs : List Clause) (p : α) : Prop := ∃ m, Sat m cs ∧ Holds m assump ∧ pat m = p

/-- A block excludes the models with the pattern, among those that meet the assumptions. -/
def Excludes : Prop :=
  ∀ s m0 m, Holds m assump → (Sat m (clauses (block s m0)) ↔ Sat m (clauses s) ∧ pat m ≠ pat m0)

/-- The invariant at the head of the loop. -/
structure Inv (s : σ) (st : State σ α) : Prop where
  nodup : st.found.Nodup
  occurs : ∀ p ∈ st.found, Occurs assump pat (clauses s) p
  sat : ∀ m, Holds m assump →
    (Sat m (clauses st.solver) ↔ Sat m (clauses s) ∧ pat m ∉ st.found)

end

section
variable {σ α : Type*} {solve : Nat → Solve} {clauses : σ → List Clause} {assump : List Lit}
  {pat : Model → α} {block : σ → Model → σ}

theorem enum_mono {fuel fuel' : Nat} {s : σ} {calls : Nat} {st : State σ α}
    (h : enum solve clauses assump pat block fuel s calls = some st) (hle : fuel ≤ fuel') :
    enum solve clauses assump pat block fuel' s calls = some st := loop_mono h hle

theorem Inv.start (s : σ) (calls : Nat) :
    Inv clauses assump pat s { solver := s, found := [], calls } where
  nodup := .nil
  occurs _ hp := absurd hp List.not_mem_nil
  sat _ _ := (and_iff_left List.not_mem_nil).symm

section
variable (hblock : Excludes clauses assump pat block)
include hblock

/-- The pattern of a new model is new. -/
theorem Inv.record {s : σ} {st : State σ α} (h : Inv clauses assump pat s st) {m : Model}
    (hsat : Sat m (clauses st.solver)) (has : Holds m assump) (calls : Nat) :
    Inv clauses assump pat s
      { solver := block st.solver m, found := st.found ++ [pat m], calls } := by
  obtain ⟨hs, hnew⟩ := (h.sat m has).1 hsat
  refine ⟨List.nodup_append.2 ⟨h.nodup, List.nodup_singleton _, fun a ha b hb => ?_⟩,
    fun p hp => ?_, fun m' has' => ?_⟩
  · rw [List.mem_singleton.1 hb]
    rintro rfl
    exact hnew ha
  · rcases List.mem_append.1 hp with hp | hp
    · exact h.occurs p hp
    · exact ⟨m, hs, has, (List.mem_singleton.1 hp).symm⟩
  · rw [hblock _ _ _ has', h.sat m' has', List.mem_append, List.mem_singleton, not_or, and_assoc]

/-- **The enumeration ends with the patterns of all models.** `I` is what every round keeps. -/
theorem enum_total (hex : ∀ i, Exact (solve i)) {l : List α} (hl : ∀ m, pat m ∈ l)
    {I : σ → List α → Prop} (hI : ∀ s ps m, I s ps → I (block s m) (ps ++ [pat m])) {s : σ}
    (hs : I s []) (calls : Nat) :
    ∃ fuel st, enum solve clauses assump pat block fuel s calls = some st ∧ I st.solver st.found ∧
      st.found.Nodup ∧ ∀ p, p ∈ st.found ↔ Occurs assump pat (clauses s) p := by
  have hstay : ∀ st st', Inv clauses assump pat s st ∧ I st.solver st.found →
      step solve clauses assump pat block st = .inl st' →
      (Inv clauses assump pat s st' ∧ I st'.solver st'.found) ∧
        l.length - st'.found.length < l.length - st.found.length := by
    intro st st' hi hst
    have hans := hex st.calls (clauses st.solver) assump
    unfold step at hst
    split at hst
    · cases hst
    · rename_i m hm
      rw [hm] at hans
      have hi' := hi.1.record hblock hans.1 hans.2 (st.calls + 1)
      have hle : (st.found ++ [pat m]).length ≤ l.length := by
        refine (hi'.nodup.subperm fun p hp => ?_).length_le
        obtain ⟨m', -, -, rfl⟩ := hi'.occurs p hp
        exact hl m'
      cases hst
      refine ⟨⟨hi', hI _ _ _ hi.2⟩, ?_⟩
      simp only [List.length_append, List.length_singleton] at hle ⊢
      omega
  have hleave : ∀ st st', Inv clauses assump pat s st ∧ I st.solver st.found →
      step solve clauses assump pat block st = .inr st' → I st'.solver st'.found ∧
        st'.found.Nodup ∧ ∀ p, p ∈ st'.found ↔ Occurs assump pat (clauses s) p := by
    intro st st' hi hst
    have hans := hex st.calls (clauses st.solver) assump
    unfold step at hst
    split at hst
    · rename_i hm
      rw [hm] at hans
      cases hst
      refine ⟨hi.2, hi.1.nodup, fun p => ⟨hi.1.occurs p, ?_⟩⟩
      rintro ⟨m, h1, h2, rfl⟩
      by_contra hnot
      exact hans ⟨m, (hi.1.sat m h2).2 ⟨h1, hnot⟩, h2⟩
    · cases hst
  obtain ⟨st, h1, h2⟩ := loop_total _ hstay hleave ⟨Inv.start s calls, hs⟩ (Nat.lt_succ_self _)
  exact ⟨_, st, h1, h2⟩

end

end

end Msyn.AllSat
