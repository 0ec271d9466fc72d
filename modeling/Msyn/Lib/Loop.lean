import Mathlib.Order.WellFounded
import Mathlib.Tactic.Common

/-!
# Loops that may not terminate

`loop step fuel s` runs `step` from `s` until it leaves the loop (`.inr`), at most `fuel` times;
`none` means that the fuel ran out. A `while` loop of a program is one `step` function; that it
terminates is `∃ fuel, (loop step fuel s).isSome`.

* `loop_post`: an invariant kept by every step that stays, and a postcondition that every step
  that leaves establishes, give the postcondition of the result.
* `loop_total`: the same with a measure that every step that stays decreases: the loop ends, with
  its postcondition. `loop_wf` has a well-founded relation instead.
* `AtHead`: the states at the head of the loop.

`foldl_prefix`: an invariant of a loop over a list, which may depend on how much of it is done.
`foldlM_inv`, `foldlM_mono`, `allM_eq_some`, `findSomeM?_eq_some`: loops over a list that may fail.
-/

namespace Msyn

section
variable {σ ρ : Type*} (step : σ → σ ⊕ ρ)

/-- Run `step` until it leaves the loop, at most `fuel` times. -/
def loop : Nat → σ → Option ρ
  | 0, _ => none
  | fuel + 1, s =>
    match step s with
    | .inl s' => loop fuel s'
    | .inr r => some r

@[simp] theorem loop_zero (s : σ) : loop step 0 s = none := rfl

theorem loop_stay {s s' : σ} (h : step s = .inl s') (fuel : Nat) :
    loop step (fuel + 1) s = loop step fuel s' := by
  simp [loop, h]

theorem loop_leave {s : σ} {r : ρ} (h : step s = .inr r) (fuel : Nat) :
    loop step (fuel + 1) s = some r := by
  simp [loop, h]

end

/-- An invariant of a fold that may depend on how much of the list is done. -/
theorem foldl_prefix {α σ : Type*} {f : σ → α → σ} {l : List α} (I : List α → σ → Prop)
    (hf : ∀ done a rest s, l = done ++ a :: rest → I done s → I (done ++ [a]) (f s a)) {s : σ}
    (hs : I [] s) : I l (l.foldl f s) := by
  have key : ∀ (rest done : List α) (s : σ), l = done ++ rest → I done s →
      I l (rest.foldl f s) := by
    intro rest
    induction rest with
    | nil =>
      intro done s hl h
      rw [hl, List.append_nil]
      exact h
    | cons a rest ih =>
      intro done s hl h
      exact ih (done ++ [a]) (f s a) (by rw [hl, List.append_assoc]; rfl) (hf done a rest s hl h)
  exact key l [] s rfl hs

/-- An invariant of a fold that may fail. -/
theorem foldlM_inv {α σ : Type*} {f : σ → α → Option σ} {P : σ → Prop} {l : List α}
    (hf : ∀ s s', ∀ a ∈ l, P s → f s a = some s' → P s') {s s' : σ} (hs : P s)
    (h : l.foldlM f s = some s') : P s' := by
  induction l generalizing s with
  | nil => rw [List.foldlM_nil] at h; cases h; exact hs
  | cons a l ih =>
    rw [List.foldlM_cons] at h
    cases ha : f s a with
    | none => rw [ha] at h; cases h
    | some s1 =>
      rw [ha] at h
      exact ih (fun s s' b hb => hf s s' b (by simp [hb])) (hf s s1 a (by simp) hs ha) h

/-- A body that has more results has them in the fold, too. -/
theorem foldlM_mono {α σ : Type*} {f g : σ → α → Option σ}
    (hfg : ∀ s a s', f s a = some s' → g s a = some s') {l : List α} {s s' : σ}
    (h : l.foldlM f s = some s') : l.foldlM g s = some s' := by
  induction l generalizing s with
  | nil => exact h
  | cons a l ih =>
    rw [List.foldlM_cons] at h ⊢
    obtain ⟨s1, h1, h2⟩ := Option.bind_eq_some_iff.1 h
    rw [hfg s a s1 h1]
    exact ih h2

/-- A loop whose tests all have an outcome. -/
theorem allM_eq_some {α : Type*} {f : α → Option Bool} {g : α → Bool} {l : List α}
    (hfg : ∀ a ∈ l, f a = some (g a)) : l.allM f = some (l.all g) := by
  induction l with
  | nil => rfl
  | cons a l ih =>
    rw [List.allM_cons, hfg a (by simp), ih fun b hb => hfg b (by simp [hb]), List.all_cons]
    cases g a <;> rfl

/-- The same for a loop that ends at the first result. -/
theorem findSomeM?_eq_some {α β : Type*} {f : α → Option (Option β)} {g : α → Option β}
    {l : List α} (hfg : ∀ a ∈ l, f a = some (g a)) : l.findSomeM? f = some (l.findSome? g) := by
  induction l with
  | nil => rfl
  | cons a l ih =>
    rw [List.findSomeM?_cons, hfg a (by simp), List.findSome?_cons]
    cases g a with
    | none => exact ih fun b hb => hfg b (by simp [hb])
    | some b => rfl

variable {σ ρ : Type*} {step : σ → σ ⊕ ρ}

/-- More fuel does not change a result. -/
theorem loop_mono {fuel fuel' : Nat} {s : σ} {r : ρ} (h : loop step fuel s = some r)
    (hle : fuel ≤ fuel') : loop step fuel' s = some r := by
  induction fuel generalizing s fuel' with
  | zero => cases h
  | succ fuel ih =>
    obtain ⟨n, rfl⟩ : ∃ n, fuel' = n + 1 := ⟨fuel' - 1, by omega⟩
    cases hs : step s with
    | inl s' =>
      rw [loop_stay step hs] at h ⊢
      exact ih h (by omega)
    | inr r' =>
      rw [loop_leave step hs] at h ⊢
      exact h

/-- A loop has at most one result. -/
theorem loop_unique {n m : Nat} {s : σ} {r r' : ρ} (h : loop step n s = some r)
    (h' : loop step m s = some r') : r = r' := by
  have h1 := loop_mono h (Nat.le_max_left n m)
  rw [loop_mono h' (Nat.le_max_right n m)] at h1
  exact (Option.some.inj h1).symm

theorem loop_post {I : σ → Prop} {P : ρ → Prop}
    (hstay : ∀ s s', I s → step s = .inl s' → I s')
    (hleave : ∀ s r, I s → step s = .inr r → P r) :
    ∀ {fuel : Nat} {s : σ} {r : ρ}, I s → loop step fuel s = some r → P r
  | 0, _, _, _, h => by cases h
  | fuel + 1, s, r, hi, h => by
    cases hs : step s with
    | inl s' =>
      rw [loop_stay step hs] at h
      exact loop_post hstay hleave (hstay s s' hi hs) h
    | inr r' =>
      rw [loop_leave step hs, Option.some.injEq] at h
      exact h ▸ hleave s r' hi hs

/-- **Total correctness of a loop**: the measure `μ` bounds the number of steps left. -/
theorem loop_total {I : σ → Prop} {P : ρ → Prop} (μ : σ → Nat)
    (hstay : ∀ s s', I s → step s = .inl s' → I s' ∧ μ s' < μ s)
    (hleave : ∀ s r, I s → step s = .inr r → P r) {s : σ} (hi : I s) {fuel : Nat}
    (hf : μ s < fuel) : ∃ r, loop step fuel s = some r ∧ P r := by
  induction fuel generalizing s with
  | zero => omega
  | succ fuel ih =>
    cases hs : step s with
    | inl s' =>
      obtain ⟨hi', hlt⟩ := hstay s s' hi hs
      rw [loop_stay step hs]
      exact ih hi' (by omega)
    | inr r => exact ⟨r, loop_leave step hs fuel, hleave s r hi hs⟩

/-- A loop that always stays does not end. -/
theorem loop_stuck {I : σ → Prop} (hstay : ∀ s, I s → ∃ s', step s = .inl s' ∧ I s') {s : σ}
    (hi : I s) (fuel : Nat) : loop step fuel s = none := by
  induction fuel generalizing s with
  | zero => rfl
  | succ fuel ih =>
    obtain ⟨s', hs, hi'⟩ := hstay s hi
    rw [loop_stay step hs]
    exact ih hi'

/-- Loops that take the same steps have the same results. -/
theorem loop_congr {ρ' : Type*} {step' : σ → σ ⊕ ρ'} (f : ρ → ρ') {I : σ → Prop}
    (hstay : ∀ s s', I s → step s = .inl s' → I s')
    (heq : ∀ s, I s → step' s = (step s).map id f) {s : σ} (hi : I s) (fuel : Nat) :
    loop step' fuel s = (loop step fuel s).map f := by
  induction fuel generalizing s with
  | zero => rfl
  | succ fuel ih =>
    have h := heq s hi
    cases hs : step s with
    | inl s' =>
      rw [hs] at h
      rw [loop_stay step hs, loop_stay step' h]
      exact ih (hstay s s' hi hs)
    | inr r =>
      rw [hs] at h
      rw [loop_leave step hs, loop_leave step' h]
      rfl

/-- Enough fuel for each entry of a list is enough fuel for all of them. -/
theorem exists_fuel {α : Type*} {P : Nat → α → Prop}
    (hmono : ∀ a {n m : Nat}, n ≤ m → P n a → P m a) {l : List α} (h : ∀ a ∈ l, ∃ n, P n a) :
    ∃ n, ∀ a ∈ l, P n a := by
  induction l with
  | nil => exact ⟨0, fun a ha => absurd ha List.not_mem_nil⟩
  | cons a l ih =>
    obtain ⟨n, hn⟩ := h a (by simp)
    obtain ⟨m, hm⟩ := ih fun b hb => h b (by simp [hb])
    refine ⟨max n m, fun b hb => ?_⟩
    rcases List.mem_cons.1 hb with rfl | hb
    · exact hmono b (Nat.le_max_left n m) hn
    · exact hmono b (Nat.le_max_right n m) (hm b hb)

/-- A fold that may fail does not, if each step has a result that keeps the invariant. -/
theorem foldlM_total {α σ : Type*} {f : σ → α → Option σ} {P : σ → Prop} {l : List α}
    (hf : ∀ s, ∀ a ∈ l, P s → ∃ s', f s a = some s' ∧ P s') {s : σ} (hs : P s) :
    ∃ s', l.foldlM f s = some s' ∧ P s' := by
  induction l generalizing s with
  | nil => exact ⟨s, rfl, hs⟩
  | cons a l ih =>
    obtain ⟨s1, h1, hp⟩ := hf s a (by simp) hs
    obtain ⟨s', h', hp'⟩ := ih (fun s b hb => hf s b (by simp [hb])) hp
    exact ⟨s', by rw [List.foldlM_cons, h1]; exact h', hp'⟩

/-- Total correctness, where every step that stays descends in a well-founded relation. -/
theorem loop_wf {I : σ → Prop} {P : ρ → Prop} {lt : σ → σ → Prop} (hwf : WellFounded lt)
    (hstay : ∀ s s', I s → step s = .inl s' → I s' ∧ lt s' s)
    (hleave : ∀ s r, I s → step s = .inr r → P r) {s : σ} (hi : I s) :
    ∃ fuel r, loop step fuel s = some r ∧ P r := by
  induction s using hwf.induction with
  | _ s ih =>
    cases hs : step s with
    | inl s' =>
      obtain ⟨hi', hlt⟩ := hstay s s' hi hs
      obtain ⟨fuel, r, hr, hp⟩ := ih s' hlt hi'
      exact ⟨fuel + 1, r, (loop_stay step hs fuel).trans hr, hp⟩
    | inr r => exact ⟨1, r, loop_leave step hs 0, hleave s r hi hs⟩

/-- The states at the head of a loop. -/
inductive AtHead (step : σ → σ ⊕ ρ) (s : σ) : σ → Prop
  | start : AtHead step s s
  | next {t t' : σ} : AtHead step s t → step t = .inl t' → AtHead step s t'

theorem AtHead.inv {I : σ → Prop} (hstay : ∀ s s', I s → step s = .inl s' → I s') {s t : σ}
    (hi : I s) (h : AtHead step s t) : I t := by
  induction h with
  | start => exact hi
  | next _ hs ih => exact hstay _ _ ih hs

end Msyn
