import Mathlib.Algebra.BigOperators.Group.Finset.Basic
import Mathlib.Algebra.Order.Group.Int
import Mathlib.Tactic.Common

/-!
# Cuts of the nodes of a directed graph

The nodes have weights, and every path from an entry to an exit is to contain a node of the cut. Of
the cuts that are least among those of the paths of positive weight, the *nearest* one lies closest
to the entries: what it lets be reached, every other one does, too. Its nodes are the *stops*
(`Nearest.mem_iff_stop`), so that it cuts the paths with other nodes if and only if each of them has
a stop (`Nearest.separates_iff`).
-/

namespace Msyn.NodeCut

section
variable {α : Type*} (edge : α → α → Prop) (entry exit : α → Prop)

/-- A path from an entry to an exit. -/
structure IsPath (p : List α) : Prop where
  chain : p.IsChain edge
  first : ∃ a ∈ p.head?, entry a
  last : ∃ t ∈ p.getLast?, exit t

/-- Every path has a node in `Q`. -/
def Separates (Q : α → Prop) : Prop := ∀ p, IsPath edge entry exit p → ∃ n ∈ p, Q n

/-- What a path of nodes in `P` leads to from an entry. -/
inductive Reached (P : α → Prop) : α → Prop
  | start {a : α} : entry a → P a → Reached P a
  | step {a b : α} : Reached P a → edge a b → P b → Reached P b

variable (U : α → Prop) (w : α → ℤ)

/-- Every path of positive weights has a node in `Y`. -/
def CutsPositive (Y : Finset α) : Prop := Separates edge entry exit fun a => w a ≤ 0 ∨ a ∈ Y

/-- No nodes from `U` that cut the paths of positive weights weigh less. -/
structure Least (Y : Finset α) : Prop where
  sub : ∀ a ∈ Y, U a
  cuts : CutsPositive edge entry exit w Y
  le : ∀ Z : Finset α, (∀ a ∈ Z, U a) → CutsPositive edge entry exit w Z →
    ∑ a ∈ Y, w a ≤ ∑ a ∈ Z, w a

/-- Reached along positive weights outside of `Y`. -/
def Open (Y : Finset α) : α → Prop := Reached edge entry fun a => 0 < w a ∧ a ∉ Y

/-- A node of positive weight at the border of what no least cut keeps from being reached. -/
def Stop (n : α) : Prop :=
  0 < w n ∧ (∃ Y, Least edge entry exit U w Y ∧ ¬Open edge entry w Y n) ∧
    (entry n ∨ ∃ x, edge x n ∧ ∀ Y, Least edge entry exit U w Y → Open edge entry w Y x)

end

section
variable {α : Type*} {edge : α → α → Prop} {entry exit : α → Prop} {P Q : α → Prop}

theorem Reached.prop {a : α} (h : Reached edge entry P a) : P a := by
  cases h with
  | start _ h => exact h
  | step _ _ h => exact h

theorem Reached.mono (hPQ : ∀ a, P a → Q a) {a : α} (h : Reached edge entry P a) :
    Reached edge entry Q a := by
  induction h with
  | start he hp => exact .start he (hPQ _ hp)
  | step _ hab hp ih => exact ih.step hab (hPQ _ hp)

/-! ## Paths -/

theorem Reached.exists_chain {t : α} (h : Reached edge entry P t) :
    ∃ p : List α, p.IsChain edge ∧ (∃ a ∈ p.head?, entry a) ∧ t ∈ p.getLast? ∧ ∀ n ∈ p, P n := by
  induction h with
  | @start a he hp =>
    exact ⟨[a], List.isChain_singleton a, ⟨a, rfl, he⟩, rfl,
      fun n hn => List.mem_singleton.1 hn ▸ hp⟩
  | @step a b _ hab hp ih =>
    obtain ⟨p, hchain, ⟨c, hc, hentry⟩, hlast, hall⟩ := ih
    refine ⟨p ++ [b], ?_, ⟨c, ?_, hentry⟩, ?_, fun n hn => ?_⟩
    · refine hchain.append (List.isChain_singleton b) fun x hx y hy => ?_
      cases Option.mem_unique hx hlast
      cases hy
      exact hab
    · exact List.head?_append_of_ne_nil p (by rintro rfl; cases hc) ▸ hc
    · simp
    · rcases List.mem_append.1 hn with hn | hn
      · exact hall n hn
      · exact List.mem_singleton.1 hn ▸ hp

theorem Reached.of_chain (p : List α) {a t : α} (ha : Reached edge entry P a)
    (hchain : (a :: p).IsChain edge) (hall : ∀ n ∈ p, P n) (ht : t ∈ (a :: p).getLast?) :
    Reached edge entry P t := by
  induction p generalizing a with
  | nil =>
    cases ht
    exact ha
  | cons b p ih =>
    obtain ⟨hab, hchain⟩ := List.isChain_cons_cons.1 hchain
    rw [List.getLast?_cons_cons] at ht
    exact ih (ha.step hab (hall b (by simp))) hchain (fun n hn => hall n (by simp [hn])) ht

/-- A path misses `Q` if and only if its exit is reached outside of `Q`. -/
theorem separates_iff : Separates edge entry exit Q ↔
    ∀ t, exit t → ¬Reached edge entry (fun a => ¬Q a) t := by
  constructor
  · intro h t ht hr
    obtain ⟨p, hchain, hfirst, hlast, hall⟩ := hr.exists_chain
    obtain ⟨n, hn, hq⟩ := h p ⟨hchain, hfirst, t, hlast, ht⟩
    exact hall n hn hq
  · intro h p hp
    by_contra hno
    simp only [not_exists, not_and] at hno
    obtain ⟨a, ha, hentry⟩ := hp.first
    obtain ⟨t, ht, hexit⟩ := hp.last
    cases p with
    | nil => cases ha
    | cons b p =>
      cases ha
      apply h t hexit
      exact (Reached.start hentry (hno _ (by simp))).of_chain p hp.chain
        (fun n hn => hno n (by simp [hn])) ht

/-- The part of a path after its last entry. -/
theorem Reached.inside {R : α → Prop} (hR : ∀ x n, R n → ¬entry n → edge x n → R x) {t : α}
    (h : Reached edge entry P t) (ht : R t) : Reached edge entry (fun a => P a ∧ R a) t := by
  induction h with
  | start he hp => exact .start he ⟨hp, ht⟩
  | @step a b _ hab hp ih =>
    by_cases hb : entry b
    · exact .start hb ⟨hp, ht⟩
    · exact (ih (hR a b ht hb hab)).step hab ⟨hp, ht⟩

/-! ## The nearest cut -/

variable {U : α → Prop} {w : α → ℤ} {O Y : Finset α}

theorem cutsPositive_iff : CutsPositive edge entry exit w Y ↔
    ∀ t, exit t → ¬Open edge entry w Y t := by
  have hiff : (fun a => ¬(w a ≤ 0 ∨ a ∈ Y)) = fun a => 0 < w a ∧ a ∉ Y := by
    funext a
    rw [not_or, not_le]
  rw [CutsPositive, separates_iff, hiff]
  rfl

/-- A cut of all paths cuts those of positive weights. -/
theorem Separates.cutsPositive (h : Separates edge entry exit (· ∈ Y)) :
    CutsPositive edge entry exit w Y := by
  intro p hp
  obtain ⟨n, hn, hY⟩ := h p hp
  exact ⟨n, hn, .inr hY⟩

/-- The least cut that lets no more be reached than any other one does. -/
structure Nearest (edge : α → α → Prop) (entry exit U : α → Prop) (w : α → ℤ) (R : α → Prop)
    (O : Finset α) : Prop where
  least : Least edge entry exit U w O
  pos : ∀ a ∈ O, 0 < w a
  inside : ∀ a ∈ O, R a
  near : ∀ Y, Least edge entry exit U w Y → ∀ a, R a → Open edge entry w O a → Open edge entry w Y a

theorem Open.erase [DecidableEq α] {n t : α} (h : Open edge entry w (O.erase n) t) :
    Open edge entry w O t ∨ entry n ∨ ∃ x, edge x n ∧ Open edge entry w O x := by
  have hmem : ∀ {a : α}, a ∉ O.erase n → a ≠ n → a ∉ O := fun ha hne ho =>
    ha (Finset.mem_erase.2 ⟨hne, ho⟩)
  induction h with
  | @start a he hp =>
    by_cases han : a = n
    · exact .inr (.inl (han ▸ he))
    · exact .inl (.start he ⟨hp.1, hmem hp.2 han⟩)
  | @step a b _ hab hp ih =>
    rcases ih with ha | ih
    · by_cases hbn : b = n
      · exact .inr (.inr ⟨a, hbn ▸ hab, ha⟩)
      · exact .inl (ha.step hab ⟨hp.1, hmem hp.2 hbn⟩)
    · exact .inr ih

section
variable {R : α → Prop} (h : Nearest edge entry exit U w R O)
  (hR : ∀ x n, R n → ¬entry n → edge x n → R x)
include h hR

/-- **The nodes of the nearest cut** are the stops. -/
theorem Nearest.mem_iff_stop {n : α} (hn : R n) : n ∈ O ↔ Stop edge entry exit U w n := by
  classical
  constructor
  · intro hO
    refine ⟨h.pos n hO, ⟨O, h.least, fun hr => hr.prop.2 hO⟩, ?_⟩
    -- without `n` it would be lighter, so that something leads to `n`
    have hnot : ¬CutsPositive edge entry exit w (O.erase n) := by
      intro hcut
      have hle := h.least.le _ (fun a ha => h.least.sub a (Finset.mem_of_mem_erase ha)) hcut
      have hsum := Finset.add_sum_erase O w hO
      have hpos := h.pos n hO
      omega
    rw [cutsPositive_iff] at hnot
    push Not at hnot
    obtain ⟨t, ht, hopen⟩ := hnot
    rcases hopen.erase with hopen | he | ⟨x, hxn, hx⟩
    · exact absurd hopen (cutsPositive_iff.1 h.least.cuts t ht)
    · exact .inl he
    · by_cases he : entry n
      · exact .inl he
      · exact .inr ⟨x, hxn, fun Y hY => h.near Y hY x (hR x n hn he hxn) hx⟩
  · intro hs
    obtain ⟨hpos, ⟨Y, hY, hnot⟩, hfrom⟩ := hs
    by_contra hO
    apply hnot
    apply h.near Y hY n hn
    rcases hfrom with he | ⟨x, hxn, hx⟩
    · exact .start he ⟨hpos, hO⟩
    · exact (hx O h.least).step hxn ⟨hpos, hO⟩

/-- **The nearest cut separates** if and only if every path has a stop. -/
theorem Nearest.separates_iff (hexit : ∀ t, exit t → R t) :
    Separates edge entry exit (· ∈ O) ↔ Separates edge entry exit (Stop edge entry exit U w) := by
  rw [NodeCut.separates_iff, NodeCut.separates_iff]
  refine forall₂_congr fun t ht => not_congr ⟨fun hr => ?_, fun hr => ?_⟩
  · apply (hr.inside hR (hexit t ht)).mono
    exact fun a ha hs => ha.1 ((h.mem_iff_stop hR ha.2).2 hs)
  · apply (hr.inside hR (hexit t ht)).mono
    exact fun a ha hO => ha.1 ((h.mem_iff_stop hR ha.2).1 hO)

end

end

end Msyn.NodeCut
