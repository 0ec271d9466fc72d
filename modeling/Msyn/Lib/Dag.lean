import Mathlib.Data.Finset.Card
import Mathlib.Logic.Relation
import Mathlib.Order.WellFounded
import Mathlib.Tactic.Common

/-!
# Finite acyclic relations

A relation all of whose edges start in a finite list and that has no cycle has a rank
(`Acyclic.exists_rank`), so it is well founded. Replacing the edges into one vertex `t` keeps it
acyclic if no new edge starts at a vertex reachable from `t` (`Acyclic.rewire`); so does making one
vertex of a set that no path leaves and returns to (`Acyclic.contract`).
-/

namespace Msyn

open Relation

variable {α : Type*}

/-- No vertex reaches itself by one edge or more. -/
def Acyclic (r : α → α → Prop) : Prop := ∀ a, ¬TransGen r a a

namespace Acyclic

variable {r r' : α → α → Prop}

theorem mono (h : Acyclic r) (hle : ∀ a b, r' a b → r a b) : Acyclic r' :=
  fun a ha => h a (TransGen.mono hle a a ha)

/-- A graph with a map into an acyclic one. -/
theorem comap {β : Type*} {s : β → β → Prop} (h : Acyclic r) (f : β → α)
    (hf : ∀ a b, s a b → r (f a) (f b)) : Acyclic s :=
  fun a ha => h (f a) (TransGen.lift f hf a a ha)

theorem exists_rank {l : List α} (h : Acyclic r) (hl : ∀ a b, r a b → a ∈ l) :
    ∃ rank : α → Nat, ∀ a b, r a b → rank a < rank b := by
  classical
  refine ⟨fun b => (l.toFinset.filter fun a => TransGen r a b).card, fun a b hab => ?_⟩
  refine Finset.card_lt_card ⟨fun z hz => ?_, fun hsub => ?_⟩
  · rw [Finset.mem_filter] at hz ⊢
    exact ⟨hz.1, hz.2.tail hab⟩
  · have ha : a ∈ l.toFinset.filter fun z => TransGen r z b :=
      Finset.mem_filter.2 ⟨List.mem_toFinset.2 (hl a b hab), .single hab⟩
    exact h a (Finset.mem_filter.1 (hsub ha)).2

theorem wellFounded {l : List α} (h : Acyclic r) (hl : ∀ a b, r a b → a ∈ l) : WellFounded r := by
  obtain ⟨rank, hrank⟩ := h.exists_rank hl
  exact Subrelation.wf (fun {a b} hab => hrank a b hab) (measure rank).wf

theorem of_rank (rank : α → Nat) (h : ∀ a b, r a b → rank a < rank b) : Acyclic r := by
  have key : ∀ a b, TransGen r a b → rank a < rank b := by
    intro a b hab
    induction hab with
    | single hab => exact h _ _ hab
    | tail _ hbc ih => exact ih.trans (h _ _ hbc)
  exact fun a ha => (key a a ha).false

/-- **Rewiring the edges into `t`.** -/
theorem rewire {t : α} (h : Acyclic r) (hr : ∀ a b, r' a b → b ≠ t → r a b)
    (ht : ∀ a, r' a t → ¬ReflTransGen r t a) : Acyclic r' := by
  -- what `t` reaches by new edges it reached before, without coming back to itself
  have hfrom : ∀ b, ReflTransGen r' t b → ReflTransGen r t b := by
    intro b hb
    induction hb with
    | refl => exact .refl
    | @tail b c _ hbc ih =>
      by_cases hc : c = t
      · subst hc; exact .refl
      · exact ih.tail (hr _ _ hbc hc)
  have hcut : ∀ a b, TransGen r' a b →
      TransGen r a b ∨ ∃ p, ReflTransGen r' a p ∧ r' p t ∧ ReflTransGen r' t b := by
    intro a b hab
    induction hab with
    | @single b hab =>
      by_cases hb : b = t
      · subst hb; exact .inr ⟨a, .refl, hab, .refl⟩
      · exact .inl (.single (hr _ _ hab hb))
    | @tail b c hab hbc ih =>
      by_cases hc : c = t
      · subst hc; exact .inr ⟨b, hab.to_reflTransGen, hbc, .refl⟩
      · rcases ih with h1 | ⟨p, h1, h2, h3⟩
        · exact .inl (h1.tail (hr _ _ hbc hc))
        · exact .inr ⟨p, h1, h2, h3.tail hbc⟩
  intro a ha
  rcases hcut a a ha with h1 | ⟨p, h1, h2, h3⟩
  · exact h a h1
  · exact ht p h2 (hfrom p (h3.trans h1))

end Acyclic

/-! ## Contraction -/

/-- No path leaves `S` and returns to it. -/
def Convex (r : α → α → Prop) (S : α → Prop) : Prop :=
  ∀ x y z, S x → ¬S y → S z → TransGen r x y → ¬TransGen r y z

/-- A set none of whose elements reaches another one. -/
theorem Acyclic.convex {r : α → α → Prop} (h : Acyclic r) {S : α → Prop}
    (hS : ∀ x y, S x → S y → x ≠ y → ¬TransGen r x y) : Convex r S := by
  intro x y z hx _ hz hxy hyz
  by_cases hxz : x = z
  · exact h x (hxz ▸ hxy.trans hyz)
  · exact hS x z hx hz hxz (hxy.trans hyz)

/-- **Contraction.** `f` maps a convex set to the vertex `u` and is injective elsewhere. -/
theorem Acyclic.contract {β : Type*} {r : α → α → Prop} {r' : β → β → Prop} {f : α → β} {u : β}
    (h : Acyclic r) (hinj : ∀ x y, f x = f y → f x ≠ u → x = y)
    (hconv : Convex r fun x => f x = u)
    (hr : ∀ a b, r' a b → a ≠ b ∧ ∃ x y, f x = a ∧ f y = b ∧ r x y) : Acyclic r' := by
  -- from `u` a path of `r'` follows one of `r` that never returns
  have hfrom : ∀ b, TransGen r' u b → b ≠ u ∧ ∃ x y, f x = u ∧ f y = b ∧ TransGen r x y := by
    intro b hb
    induction hb with
    | single hub =>
      obtain ⟨hne, x, y, hx, hy, hxy⟩ := hr _ _ hub
      exact ⟨hne.symm, x, y, hx, hy, .single hxy⟩
    | tail _ hbc ih =>
      obtain ⟨hbu, x, y, hx, rfl, hxy⟩ := ih
      obtain ⟨-, y', z, hy', rfl, hyz⟩ := hr _ _ hbc
      obtain rfl := hinj y' y hy' (hy' ▸ hbu)
      exact ⟨fun hz => hconv x y' z hx hbu hz hxy (.single hyz), x, z, hx, rfl, hxy.tail hyz⟩
  -- a path that avoids `u` is one of `r`
  have hlift : ∀ a b, TransGen r' a b → (TransGen r' a u ∧ ReflTransGen r' u b) ∨
      (b ≠ u ∧ ∃ x y, f x = a ∧ f y = b ∧ TransGen r x y) := by
    intro a b hab
    induction hab with
    | @single b hab =>
      by_cases hb : b = u
      · exact .inl ⟨.single (hb ▸ hab), hb ▸ .refl⟩
      · obtain ⟨-, x, y, hx, hy, hxy⟩ := hr _ _ hab
        exact .inr ⟨hb, x, y, hx, hy, .single hxy⟩
    | @tail b c hab hbc ih =>
      by_cases hc : c = u
      · exact .inl ⟨(hc ▸ hab.tail hbc : TransGen r' a u), hc ▸ .refl⟩
      · rcases ih with ⟨h1, h2⟩ | ⟨hbu, x, y, hx, rfl, hxy⟩
        · exact .inl ⟨h1, h2.tail hbc⟩
        · obtain ⟨-, y', z, hy', rfl, hyz⟩ := hr _ _ hbc
          obtain rfl := hinj y' y hy' (hy' ▸ hbu)
          exact .inr ⟨hc, x, z, hx, rfl, hxy.tail hyz⟩
  intro a ha
  rcases hlift a a ha with ⟨h1, h2⟩ | ⟨hau, x, y, rfl, hy, hxy⟩
  · exact (hfrom u (TransGen.trans_right h2 h1)).1 rfl
  · obtain rfl := hinj y x hy (hy ▸ hau)
    exact h y hxy

end Msyn
