import Mathlib.Data.Set.Basic
import Mathlib.Tactic.Common

/-!
# Replacing a node by a function of other signals

`ok x b` says that a system meets its specification at the input `x` if one of its nodes has the
value `b`. The node must be `b` at `x` if no other value is `ok` (`Must`). An on-set over the
patterns of the signals `sig` can take its place if it contains those that must be 1 and none that
must be 0 (`OnSet.sound`).
-/

namespace Msyn.Resub

variable {X P : Type*} (ok : X → Bool → Prop) (sig : X → P)

/-- The node must be `b` at `x`. -/
def Must (b : Bool) (x : X) : Prop := ok x b ∧ ¬ok x (!b)

/-- An on-set: the patterns that must be 1, and none that must be 0. -/
structure OnSet (S : Set P) : Prop where
  covers : ∀ x, Must ok true x → sig x ∈ S
  avoids : ∀ x, Must ok false x → sig x ∉ S

variable {ok sig}

/-- **The replaced node is right everywhere** if some value was. -/
theorem OnSet.sound {S : Set P} (h : OnSet ok sig S) (hcur : ∀ x, ∃ b, ok x b) {x : X} {b : Bool}
    (hb : b = true ↔ sig x ∈ S) : ok x b := by
  by_contra hno
  obtain ⟨b', hb'⟩ := hcur x
  have hne : b' = !b := by
    by_contra hne
    have : b' = b := by revert hne; cases b <;> cases b' <;> simp
    exact hno (this ▸ hb')
  subst hne
  cases b with
  | false => exact absurd (hb.2 (h.covers x ⟨hb', hno⟩)) (by simp)
  | true => exact h.avoids x ⟨hb', hno⟩ (hb.1 rfl)

end Msyn.Resub
