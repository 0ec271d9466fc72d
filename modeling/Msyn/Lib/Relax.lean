import Mathlib.Algebra.Order.BigOperators.Group.List
import Mathlib.Algebra.Order.Ring.Nat
import Mathlib.Data.List.Lattice
import Mathlib.Order.Bounds.Defs
import Msyn.Lib.Dag
import Msyn.Lib.Loop

/-!
# Longest paths by relaxation

An edge `(a, b)` asks for an order of `a` above that of `b`. `sweep` goes over a list of edges and
raises the order of `a` to one more than that of `b` where it is not above; sweeps are repeated until
one of them raises nothing. Whatever the order of the edges:

* from 0, every order is the length of a chain of edges (`Valid`), and the orders that a loop ends
  with are the lengths of the longest chains (`levels_greatest`);
* the loop ends exactly on acyclic edges (`levels_ends_iff`).
-/

namespace Msyn.Relax

variable {α : Type*}

/-- There is a chain of `k` edges that starts at `a`. -/
inductive Chain (r : α → α → Prop) : α → Nat → Prop
  | nil (a : α) : Chain r a 0
  | cons {a b : α} {k : Nat} : r a b → Chain r b k → Chain r a (k + 1)

/-- The edges as a relation. -/
def Edge (edges : List (α × α)) (a b : α) : Prop := (a, b) ∈ edges

/-- Every order is the length of a chain. -/
def Valid (edges : List (α × α)) (order : α → Nat) : Prop :=
  ∀ a, Chain (Edge edges) a (order a)

variable {edges : List (α × α)}

theorem Chain.lt {r : α → α → Prop} {rank : α → Nat} (h : ∀ a b, r a b → rank a < rank b) {M : Nat}
    (hM : ∀ a b, r a b → rank b ≤ M) {a : α} {k : Nat} (hc : Chain r a k) (hk : 0 < k) :
    k + rank a ≤ M := by
  induction hc with
  | nil => omega
  | @cons a b k hab _ ih =>
    have hlt := h a b hab
    have hle := hM a b hab
    rcases Nat.eq_zero_or_pos k with rfl | hpos
    · omega
    · have := ih hpos
      omega

/-- The chains of acyclic edges are bounded. -/
theorem exists_bound (hac : Acyclic (Edge edges)) :
    ∃ M, ∀ a k, Chain (Edge edges) a k → k ≤ M := by
  obtain ⟨rank, hrank⟩ := hac.exists_rank (l := edges.map Prod.fst) fun a b hab =>
    List.mem_map.2 ⟨(a, b), hab, rfl⟩
  refine ⟨(edges.map fun e => rank e.2).sum, fun a k hc => ?_⟩
  have hM : ∀ a b, Edge edges a b → rank b ≤ (edges.map fun e => rank e.2).sum := fun a b hab =>
    List.single_le_sum (fun _ _ => Nat.zero_le _) _ (List.mem_map.2 ⟨(a, b), hab, rfl⟩)
  rcases Nat.eq_zero_or_pos k with rfl | hpos
  · exact Nat.zero_le _
  · have := hc.lt hrank hM hpos
    omega

theorem valid_zero : Valid edges fun _ => 0 := fun a => .nil a

/-! ## One sweep -/

variable [DecidableEq α]

/-- One edge; the flag says whether something was raised. -/
def relax (t : (α → Nat) × Bool) (e : α × α) : (α → Nat) × Bool :=
  if t.1 e.1 ≤ t.1 e.2 then (Function.update t.1 e.1 (t.1 e.2 + 1), true) else t

def sweep (edges : List (α × α)) (order : α → Nat) : (α → Nat) × Bool :=
  edges.foldl relax (order, false)

def levelStep (edges : List (α × α)) (order : α → Nat) : (α → Nat) ⊕ (α → Nat) :=
  let t := sweep edges order
  if t.2 then .inl t.1 else .inr t.1

/-- What an edge does. -/
theorem relax_spec (t : (α → Nat) × Bool) (e : α × α) :
    (t.1 e.2 < t.1 e.1 ∧ relax t e = t) ∨
      (relax t e).2 = true ∧ t.1 e.1 < (relax t e).1 e.1 ∧ (∀ a, t.1 a ≤ (relax t e).1 a) ∧
        (relax t e).1 = Function.update t.1 e.1 (t.1 e.2 + 1) := by
  unfold relax
  split
  · rename_i hle
    refine .inr ⟨rfl, ?_, fun a => ?_, rfl⟩ <;> dsimp only
    · rw [Function.update_self]
      omega
    · by_cases ha : a = e.1
      · rw [ha, Function.update_self]
        omega
      · rw [Function.update_of_ne ha]
  · rename_i hlt
    exact .inl ⟨Nat.lt_of_not_le hlt, rfl⟩

theorem relax_valid {t : (α → Nat) × Bool} {e : α × α} (he : e ∈ edges) (h : Valid edges t.1) :
    Valid edges (relax t e).1 := by
  rcases relax_spec t e with ⟨-, hr⟩ | ⟨-, -, -, hr⟩
  · rw [hr]
    exact h
  · intro a
    rw [hr]
    by_cases ha : a = e.1
    · rw [ha, Function.update_self]
      exact .cons he (h e.2)
    · rw [Function.update_of_ne ha]
      exact h a

/-- What a pass over some of the edges does: orders only grow; if nothing was raised, every edge
holds and nothing changed; otherwise the order of a first end grew. -/
structure Swept (edges : List (α × α)) (l : List (α × α)) (t t' : (α → Nat) × Bool) : Prop where
  valid : Valid edges t'.1
  mono : ∀ a, t.1 a ≤ t'.1 a
  still : t'.2 = false → t' = t ∧ ∀ e ∈ l, t.1 e.2 < t.1 e.1
  grew : t'.2 = true → t.2 = true ∨ ∃ e ∈ l, t.1 e.1 < t'.1 e.1

theorem foldl_swept {l : List (α × α)} (hl : ∀ e ∈ l, e ∈ edges) {t : (α → Nat) × Bool}
    (h : Valid edges t.1) : Swept edges l t (l.foldl relax t) := by
  induction l generalizing t with
  | nil => exact ⟨h, fun _ => le_rfl, fun _ => ⟨rfl, by simp⟩, .inl⟩
  | cons e l ih =>
    have hs := ih (fun e' he' => hl e' (by simp [he'])) (relax_valid (hl e (by simp)) h)
    rw [List.foldl_cons]
    rcases relax_spec t e with ⟨hlt, hr⟩ | ⟨hflag, hlt, hmono, -⟩
    · rw [hr] at hs ⊢
      refine ⟨hs.valid, hs.mono, fun hf => ⟨(hs.still hf).1, ?_⟩, fun hf => (hs.grew hf).imp_right ?_⟩
      · exact List.forall_mem_cons.2 ⟨hlt, (hs.still hf).2⟩
      · exact fun ⟨e', he', h'⟩ => ⟨e', by simp [he'], h'⟩
    · refine ⟨hs.valid, fun a => (hmono a).trans (hs.mono a), fun hf => ?_, fun _ =>
        .inr ⟨e, by simp, hlt.trans_le (hs.mono e.1)⟩⟩
      rw [(hs.still hf).1, hflag] at hf
      cases hf

theorem sweep_swept {order : α → Nat} (h : Valid edges order) :
    Swept edges edges (order, false) (sweep edges order) :=
  foldl_swept (fun _ he => he) h

/-! ## The loop -/

theorem levelStep_stay {order order' : α → Nat} (hv : Valid edges order)
    (h : levelStep edges order = .inl order') : Valid edges order' ∧ (∀ a, order a ≤ order' a) ∧
      ∃ e ∈ edges, order e.1 < order' e.1 := by
  have hs := sweep_swept hv
  unfold levelStep at h
  dsimp only at h
  split at h
  · rename_i hf
    cases h
    exact ⟨hs.valid, hs.mono, (hs.grew hf).resolve_left fun h => by cases h⟩
  · cases h

theorem levelStep_leave {order order' : α → Nat} (hv : Valid edges order)
    (h : levelStep edges order = .inr order') :
    Valid edges order' ∧ ∀ e ∈ edges, order' e.2 < order' e.1 := by
  have hs := sweep_swept hv
  unfold levelStep at h
  dsimp only at h
  split at h
  · cases h
  · rename_i hf
    cases h
    obtain ⟨he, hedges⟩ := hs.still (by simpa using hf)
    rw [he]
    exact ⟨hv, hedges⟩

theorem levels_post {fuel : Nat} {order : α → Nat}
    (h : loop (levelStep edges) fuel (fun _ => 0) = some order) :
    Valid edges order ∧ ∀ e ∈ edges, order e.2 < order e.1 :=
  loop_post (I := Valid edges) (P := fun order => Valid edges order ∧
    ∀ e ∈ edges, order e.2 < order e.1) (fun _ _ hv hs => (levelStep_stay hv hs).1)
    (fun _ _ hv hs => levelStep_leave hv hs) valid_zero h

/-- **The orders** are the lengths of the longest chains. -/
theorem levels_greatest {fuel : Nat} {order : α → Nat}
    (h : loop (levelStep edges) fuel (fun _ => 0) = some order) (a : α) :
    IsGreatest {k | Chain (Edge edges) a k} (order a) := by
  obtain ⟨hv, hedges⟩ := levels_post h
  refine ⟨hv a, fun k hc => ?_⟩
  induction hc with
  | nil => exact Nat.zero_le _
  | @cons a b k hab _ ih => exact Nat.succ_le_of_lt (ih.trans_lt (hedges (a, b) hab))

/-- **The loop ends** exactly on acyclic edges. -/
theorem levels_ends_iff : (∃ fuel order, loop (levelStep edges) fuel (fun _ => 0) = some order) ↔
    Acyclic (Edge edges) := by
  constructor
  · rintro ⟨fuel, order, h⟩ a ha
    obtain ⟨-, hedges⟩ := levels_post h
    have key : ∀ b, Relation.TransGen (Edge edges) a b → order b < order a := by
      intro b hb
      induction hb with
      | single hab => exact hedges _ hab
      | tail _ hbc ih => exact (hedges _ hbc).trans ih
    exact Nat.lt_irrefl _ (key a ha)
  · intro hac
    obtain ⟨M, hM⟩ := exists_bound hac
    -- the orders of the first ends grow, and are bounded
    have hend : ∃ order, loop (levelStep edges) ((edges.map fun _ => M - 0).sum + 1) (fun _ => 0) =
        some order ∧ True := by
      refine loop_total (I := Valid edges) (fun order => (edges.map fun e => M - order e.1).sum)
        (fun order order' hv hs => ?_) (fun _ _ _ _ => trivial) valid_zero (Nat.lt_succ_self _)
      obtain ⟨hv', hmono, e, he, hlt⟩ := levelStep_stay hv hs
      refine ⟨hv', List.sum_lt_sum _ _ (fun e _ => Nat.sub_le_sub_left (hmono e.1) M) ⟨e, he, ?_⟩⟩
      have := hM e.1 _ (hv' e.1)
      omega
    obtain ⟨order, h, -⟩ := hend
    exact ⟨_, order, h⟩

end Msyn.Relax
