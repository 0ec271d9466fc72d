import Mathlib.Algebra.BigOperators.Ring.Finset
import Mathlib.Algebra.Order.BigOperators.Group.Finset
import Mathlib.Data.Fintype.BigOperators
import Mathlib.Logic.Relation
import Mathlib.Tactic.Common
import Mathlib.Tactic.Linarith
import Mathlib.Tactic.Ring

/-!
# Flows and cuts

Networks with integral capacities, where several arcs may join two vertices, and the vertices need
not be finitely many.

* `value_le_cutCap`: no flow is greater than a cut.
* `sink_not_reachable`: a maximum flow has no augmenting path, by `augment` along a path without a
  repeated vertex.
* `value_eq_cutCap_iff`: a flow is as great as a cut if and only if no residual arc leaves it.
-/

namespace Msyn

/-- Arcs with tail, head and capacity. -/
structure Network (V A : Type*) where
  tail : A → V
  head : A → V
  cap : A → ℤ

namespace Network

section
variable {V A : Type*} [DecidableEq V] [Fintype A] (N : Network V A)

/-- What flows into the vertex, less what flows out of it. -/
def excess (f : A → ℤ) (v : V) : ℤ :=
  ∑ a, f a * ((if N.head a = v then 1 else 0) - if N.tail a = v then 1 else 0)

/-- A flow from `s` to `t`. -/
structure IsFlow (s t : V) (f : A → ℤ) : Prop where
  nonneg : ∀ a, 0 ≤ f a
  le_cap : ∀ a, f a ≤ N.cap a
  conserve : ∀ v, v ≠ s → v ≠ t → N.excess f v = 0

/-- What leaves the source `s`. -/
def value (s : V) (f : A → ℤ) : ℤ := -N.excess f s

/-- No flow is greater. -/
structure IsMaxFlow (s t : V) (f : A → ℤ) : Prop where
  isFlow : N.IsFlow s t f
  le : ∀ g, N.IsFlow s t g → N.value s g ≤ N.value s f

/-- An arc that could take more flow, or the reverse of one that has some. -/
def Residual (f : A → ℤ) (u v : V) : Prop :=
  ∃ a, N.tail a = u ∧ N.head a = v ∧ f a < N.cap a ∨ N.tail a = v ∧ N.head a = u ∧ 0 < f a

open Classical in
/-- The capacity of the arcs that leave `S`. -/
noncomputable def cutCap (S : V → Prop) : ℤ :=
  ∑ a, if S (N.tail a) ∧ ¬S (N.head a) then N.cap a else 0

/-! ## Cuts -/

open Classical in
/-- The net flow out of `S`. -/
noncomputable def leaving (S : V → Prop) (f : A → ℤ) : ℤ :=
  ∑ a, f a * ((if S (N.tail a) then 1 else 0) - if S (N.head a) then 1 else 0)

variable {N} {s t : V} {f : A → ℤ} {S : V → Prop}

theorem sum_excess (f : A → ℤ) (W : Finset V) : ∑ v ∈ W, N.excess f v =
    ∑ a, f a * ((if N.head a ∈ W then 1 else 0) - if N.tail a ∈ W then 1 else 0) := by
  unfold excess
  rw [Finset.sum_comm]
  refine Finset.sum_congr rfl fun a _ => ?_
  rw [← Finset.mul_sum, Finset.sum_sub_distrib, Finset.sum_ite_eq, Finset.sum_ite_eq]

/-- What leaves a set with the source and without the sink is the value. -/
theorem IsFlow.value_eq (h : N.IsFlow s t f) (hs : S s) (ht : ¬S t) :
    N.value s f = N.leaving S f := by
  classical
  let W : Finset V :=
    (insert s (Finset.univ.image N.head ∪ Finset.univ.image N.tail)).filter S
  have hhead : ∀ a, N.head a ∈ W ↔ S (N.head a) := fun a => by simp [W]
  have htail : ∀ a, N.tail a ∈ W ↔ S (N.tail a) := fun a => by simp [W]
  have hsW : s ∈ W := by simp [W, hs]
  have hsum : ∑ v ∈ W, N.excess f v = N.excess f s := by
    refine Finset.sum_eq_single_of_mem s hsW fun v hv hne => h.conserve v hne ?_
    rintro rfl
    exact ht (Finset.mem_filter.1 hv).2
  rw [sum_excess] at hsum
  rw [value, ← hsum, leaving, ← Finset.sum_neg_distrib]
  refine Finset.sum_congr rfl fun a _ => ?_
  rw [if_congr (hhead a) rfl rfl, if_congr (htail a) rfl rfl]
  ring

open Classical in
/-- One arc leaves no more than it could. -/
theorem IsFlow.term_le (h : N.IsFlow s t f) (S : V → Prop) (a : A) :
    f a * ((if S (N.tail a) then 1 else 0) - if S (N.head a) then 1 else 0) ≤
      if S (N.tail a) ∧ ¬S (N.head a) then N.cap a else 0 := by
  have h1 := h.nonneg a
  have h2 := h.le_cap a
  by_cases ht : S (N.tail a) <;> by_cases hh : S (N.head a) <;> simp [ht, hh] <;> omega

/-- **Weak duality.** -/
theorem IsFlow.value_le_cutCap (h : N.IsFlow s t f) (hs : S s) (ht : ¬S t) :
    N.value s f ≤ N.cutCap S := by
  rw [h.value_eq hs ht]
  exact Finset.sum_le_sum fun a _ => h.term_le S a

/-- **A flow is as great as a cut** if and only if no residual arc leaves it. -/
theorem IsFlow.value_eq_cutCap_iff (h : N.IsFlow s t f) (hs : S s) (ht : ¬S t) :
    N.value s f = N.cutCap S ↔ ∀ u v, S u → N.Residual f u v → S v := by
  classical
  rw [h.value_eq hs ht, leaving, cutCap,
    Finset.sum_eq_sum_iff_of_le fun a _ => h.term_le S a]
  constructor
  · rintro heq u v hu ⟨a, ⟨rfl, rfl, hlt⟩ | ⟨rfl, rfl, hpos⟩⟩
    · by_contra hv
      have := heq a (Finset.mem_univ a)
      simp only [hu, hv, if_true, if_false, not_false_eq_true, and_self, sub_zero, mul_one] at this
      omega
    · by_contra hv
      have := heq a (Finset.mem_univ a)
      simp only [hu, hv, if_true, if_false, false_and, zero_sub, mul_neg, mul_one] at this
      omega
  · intro hclosed a _
    have h1 := h.nonneg a
    have h2 := h.le_cap a
    by_cases htl : S (N.tail a) <;> by_cases hh : S (N.head a)
    · simp [htl, hh]
    · have hfull : ¬f a < N.cap a := fun hlt => hh (hclosed _ _ htl ⟨a, .inl ⟨rfl, rfl, hlt⟩⟩)
      simp only [htl, hh, if_true, if_false, not_false_eq_true, and_self, sub_zero, mul_one]
      omega
    · have hzero : ¬0 < f a := fun hpos => htl (hclosed _ _ hh ⟨a, .inr ⟨rfl, rfl, hpos⟩⟩)
      simp only [htl, hh, if_true, if_false, false_and, zero_sub, mul_neg, mul_one]
      omega
    · simp [htl, hh]

/-- So a flow that is as great as a cut is a maximum flow. -/
theorem IsFlow.isMaxFlow (h : N.IsFlow s t f) (hs : S s) (ht : ¬S t)
    (heq : N.value s f = N.cutCap S) : N.IsMaxFlow s t f := by
  refine ⟨h, fun g hg => ?_⟩
  rw [heq]
  exact hg.value_le_cutCap hs ht

/-! ## Augmenting paths -/

/-- A path without a repeated vertex. -/
theorem exists_nodup_chain {α : Type*} {r : α → α → Prop} {a b : α}
    (h : Relation.ReflTransGen r a b) :
    ∃ l : List α, (a :: l).Nodup ∧ (a :: l).IsChain r ∧
      (a :: l).getLast (List.cons_ne_nil a l) = b := by
  classical
  induction h using Relation.ReflTransGen.head_induction_on with
  | refl => exact ⟨[], List.nodup_singleton _, List.isChain_singleton _, rfl⟩
  | @head a c hac _ ih =>
    obtain ⟨l, hnd, hch, hlast⟩ := ih
    by_cases ha : a ∈ c :: l
    · -- the path comes back to `a`
      obtain ⟨p, q, hpq⟩ := List.append_of_mem ha
      have hsuf : a :: q <:+ c :: l := ⟨p, hpq.symm⟩
      refine ⟨q, hnd.sublist hsuf.sublist, hch.suffix hsuf, ?_⟩
      exact (hsuf.getLast (List.cons_ne_nil a q)).trans hlast
    · refine ⟨c :: l, List.nodup_cons.2 ⟨ha, hnd⟩, List.isChain_cons_cons.2 ⟨hac, hch⟩, ?_⟩
      rw [List.getLast_cons (List.cons_ne_nil c l), hlast]

theorem excess_update [DecidableEq A] (f : A → ℤ) (a : A) (x : ℤ) (v : V) :
    N.excess (Function.update f a x) v = N.excess f v +
      (x - f a) * ((if N.head a = v then 1 else 0) - if N.tail a = v then 1 else 0) := by
  unfold excess
  rw [← sub_eq_iff_eq_add', ← Finset.sum_sub_distrib, Finset.sum_eq_single a]
  · rw [Function.update_self]
    ring
  · intro b _ hb
    rw [Function.update_of_ne hb, sub_self]
  · exact fun h => absurd (Finset.mem_univ a) h

/-- One unit more along a path of residual arcs. -/
theorem augment (hf : ∀ a, 0 ≤ f a ∧ f a ≤ N.cap a) (l : List V) (u : V) (hnd : (u :: l).Nodup)
    (hch : (u :: l).IsChain (N.Residual f)) :
    ∃ g : A → ℤ, (∀ a, 0 ≤ g a ∧ g a ≤ N.cap a) ∧
      (∀ a, N.tail a ∉ u :: l ∨ N.head a ∉ u :: l → g a = f a) ∧
      ∀ v, N.excess g v = N.excess f v +
        ((if (u :: l).getLast (List.cons_ne_nil u l) = v then 1 else 0) -
          if u = v then 1 else 0) := by
  classical
  induction l generalizing u with
  | nil => exact ⟨f, hf, fun _ _ => rfl, fun v => by
      rw [List.getLast_singleton, sub_self, add_zero]⟩
  | cons w l ih =>
    obtain ⟨hu, hnd'⟩ := List.nodup_cons.1 hnd
    obtain ⟨⟨a, ha⟩, hch'⟩ := List.isChain_cons_cons.1 hch
    obtain ⟨g, h1, h2, h3⟩ := ih w hnd' hch'
    have hother : ∀ b, N.tail b ∉ u :: w :: l ∨ N.head b ∉ u :: w :: l → g b = f b := fun b hb =>
      h2 b (hb.imp (fun h hm => h (List.mem_cons_of_mem u hm))
        fun h hm => h (List.mem_cons_of_mem u hm))
    rcases ha with ⟨rfl, rfl, hlt⟩ | ⟨rfl, rfl, hpos⟩
    · have hga : g a = f a := h2 a (.inl hu)
      refine ⟨Function.update g a (g a + 1), fun b => ?_, fun b hb => ?_, fun v => ?_⟩
      · by_cases hba : b = a
        · have := hf a
          rw [hba, Function.update_self, hga]
          omega
        · rw [Function.update_of_ne hba]
          exact h1 b
      · have hba : b ≠ a := by
          rintro rfl
          simp at hb
        rw [Function.update_of_ne hba]
        exact hother b hb
      · rw [excess_update, h3, List.getLast_cons (List.cons_ne_nil _ l)]
        ring
    · have hga : g a = f a := h2 a (.inr hu)
      refine ⟨Function.update g a (g a - 1), fun b => ?_, fun b hb => ?_, fun v => ?_⟩
      · by_cases hba : b = a
        · have := hf a
          rw [hba, Function.update_self, hga]
          omega
        · rw [Function.update_of_ne hba]
          exact h1 b
      · have hba : b ≠ a := by
          rintro rfl
          simp at hb
        rw [Function.update_of_ne hba]
        exact hother b hb
      · rw [excess_update, h3, List.getLast_cons (List.cons_ne_nil _ l)]
        ring

/-- **A maximum flow has no augmenting path.** -/
theorem IsMaxFlow.sink_not_reachable (h : N.IsMaxFlow s t f) (hst : s ≠ t) :
    ¬Relation.ReflTransGen (N.Residual f) s t := by
  intro hr
  obtain ⟨l, hnd, hch, hlast⟩ := exists_nodup_chain hr
  obtain ⟨g, h1, -, h3⟩ := augment (fun a => ⟨h.isFlow.nonneg a, h.isFlow.le_cap a⟩) l s hnd hch
  rw [hlast] at h3
  have hg : N.IsFlow s t g := by
    refine ⟨fun a => (h1 a).1, fun a => (h1 a).2, fun v hvs hvt => ?_⟩
    rw [h3, h.isFlow.conserve v hvs hvt, if_neg (Ne.symm hvt), if_neg (Ne.symm hvs)]
    rfl
  have hle := h.le g hg
  rw [value, value, h3, if_neg (Ne.symm hst), if_pos rfl] at hle
  omega

/-- **The value of a maximum flow** is the capacity of the cut around what is residually reachable
from the source, and every other cut of this capacity is around it. -/
theorem IsMaxFlow.value_eq (h : N.IsMaxFlow s t f) (hst : s ≠ t) :
    N.value s f = N.cutCap (Relation.ReflTransGen (N.Residual f) s) :=
  (h.isFlow.value_eq_cutCap_iff .refl (h.sink_not_reachable hst)).2 fun _ _ hu huv => hu.tail huv

theorem IsFlow.reachable_of_tight (h : N.IsFlow s t f) (hs : S s) (ht : ¬S t)
    (heq : N.value s f = N.cutCap S) {v : V} (hr : Relation.ReflTransGen (N.Residual f) s v) :
    S v := by
  have hclosed := (h.value_eq_cutCap_iff hs ht).1 heq
  induction hr with
  | refl => exact hs
  | tail _ huv ih => exact hclosed _ _ ih huv

end

end Network

end Msyn
