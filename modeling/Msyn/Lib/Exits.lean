import Mathlib.Tactic.Common

/-!
# Computations with early exits

`Ends X Q x`: a computation that can jump out of its middle either returns a value in `Q` or leaves
with an exit in `X`. Pieces are put together with `Ends.bind`, and `Ends.foldlM` carries an
invariant through a loop.
-/

namespace Msyn

universe u

variable {ε : Type*} {α β : Type u}

def Ends (X : ε → Prop) (Q : α → Prop) : Except ε α → Prop
  | .ok a => Q a
  | .error e => X e

namespace Ends

variable {X : ε → Prop} {Q : α → Prop} {R : β → Prop}

theorem bind {x : Except ε α} {f : α → Except ε β} (h : Ends X Q x)
    (hf : ∀ a, Q a → Ends X R (f a)) : Ends X R (x >>= f) := by
  cases x with
  | ok a => exact hf a h
  | error e => exact h

theorem mono {X' : ε → Prop} {Q' : α → Prop} {x : Except ε α} (h : Ends X Q x)
    (hX : ∀ e, X e → X' e) (hQ : ∀ a, Q a → Q' a) : Ends X' Q' x := by
  cases x with
  | ok a => exact hQ a h
  | error e => exact hX e h

theorem and {X' : ε → Prop} {Q' : α → Prop} {x : Except ε α} (h : Ends X Q x) (h' : Ends X' Q' x) :
    Ends (fun e => X e ∧ X' e) (fun a => Q a ∧ Q' a) x := by
  cases x <;> exact ⟨h, h'⟩

theorem map {γ : Type*} {Q' : γ → Prop} (f : α → γ) {x : Except ε α} (h : Ends X Q x)
    (hQ : ∀ a, Q a → Q' (f a)) : Ends X Q' (x.map f) := by
  cases x with
  | ok a => exact hQ a h
  | error e => exact h

theorem mapError {ε' : Type*} {X : ε' → Prop} (f : ε → ε') {x : Except ε α}
    (h : Ends (fun e => X (f e)) Q x) : Ends X Q (x.mapError f) := by
  cases x <;> exact h

/-- An invariant that may depend on how much of the list is done. -/
theorem foldlM {l : List α} {f : β → α → Except ε β} (I : List α → β → Prop)
    (hf : ∀ done a b, done ++ [a] <+: l → I done b → Ends X (I (done ++ [a])) (f b a)) {b : β}
    (hb : I [] b) : Ends X (I l) (l.foldlM f b) := by
  have key : ∀ (rest done : List α) (b : β), done ++ rest = l → I done b →
      Ends X (I l) (rest.foldlM f b) := by
    intro rest
    induction rest with
    | nil =>
      intro done b hl hb
      rw [List.append_nil] at hl
      rw [List.foldlM_nil, ← hl]
      exact hb
    | cons a rest ih =>
      intro done b hl hb
      have hl' : done ++ [a] ++ rest = l := by rw [List.append_assoc]; exact hl
      rw [List.foldlM_cons]
      exact Ends.bind (hf done a b ⟨rest, hl'⟩ hb) fun b' hb' => ih (done ++ [a]) b' hl' hb'
  exact key l [] b rfl hb

end Ends

end Msyn
