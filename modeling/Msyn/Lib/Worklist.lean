import Mathlib.Algebra.Order.BigOperators.Group.List
import Mathlib.Data.List.Induction
import Mathlib.Logic.Relation
import Mathlib.Tactic.Common
import Mathlib.Tactic.Linarith
import Msyn.Lib.Loop

/-!
# Worklist traversals

`drain` is the loop of a depth-first traversal with an explicit stack: pop a vertex, record it,
push those of its successors that are not recorded yet. Some vertices are *leaves*: they have no
successors, and the record a later push is checked against leaves them out, so that they may be
pushed and popped any number of times.

`drain_spec`: with enough fuel the stack is emptied, and the record is the fold of `visit` over a
list of vertices that are exactly those reachable from the initial stack. The bound on the fuel
(`fuelFor`) is quadratic in the number of edges: a vertex that is popped again pushes only leaves,
because everything else it leads to stood above it on the stack (`Above`). That the loop itself ends
is `drain_ends`.
-/

namespace Msyn.Worklist

section
variable {α σ : Type*} (seen : σ → α → Bool) (visit : α → σ → σ) (succ : α → List α)

/-- Pop, record, push the successors that are not recorded. The top of the stack is the head. -/
def drain : Nat → List α → σ → σ
  | 0, _, s => s
  | _, [], s => s
  | fuel + 1, x :: stack, s =>
    drain fuel (((succ x).filter fun y => !seen (visit x s) y).reverse ++ stack) (visit x s)

/-- One pop, as the step of a loop that ends with an empty stack. -/
def drainStep : List α × σ → (List α × σ) ⊕ σ
  | ([], s) => .inr s
  | (x :: stack, s) =>
    .inl (((succ x).filter fun y => !seen (visit x s) y).reverse ++ stack, visit x s)

/-- Enough fuel for a traversal of the vertices `U` from one of them. -/
def fuelFor (U : List α) : Nat :=
  (1 + (U.map fun x => (succ x).length).sum) * (2 + (U.map fun x => (succ x).length).sum)

end

/-- What a traversal records: non-leaf vertices once visited; leaves have no successors. -/
structure Spec {α σ : Type*} (seen : σ → α → Bool) (visit : α → σ → σ) (succ : α → List α)
    (leaf : α → Prop) : Prop where
  visit : ∀ x s y, seen (visit x s) y = true ↔ seen s y = true ∨ y = x ∧ ¬leaf x
  leaf : ∀ x, leaf x → succ x = []

/-- `y` is reachable from `x` along successors. -/
def Reach {α : Type*} (succ : α → List α) : α → α → Prop :=
  Relation.ReflTransGen fun x y => y ∈ succ x

section
variable {α σ : Type*} {seen : σ → α → Bool} {visit : α → σ → σ} {succ : α → List α}
  {leaf : α → Prop}

/-- A recorded vertex still on the stack: everything it leads to is recorded, a leaf, or above. -/
def Above (seen : σ → α → Bool) (succ : α → List α) (leaf : α → Prop) (stack : List α) (s : σ) :
    Prop :=
  ∀ a x b, stack = a ++ x :: b → seen s x = true →
    ∀ y ∈ succ x, seen s y = true ∨ leaf y ∨ y ∈ a

theorem above_pop (hS : Spec seen visit succ leaf) {x : α} {stack : List α} {s : σ}
    (h : Above seen succ leaf (x :: stack) s) :
    Above seen succ leaf (((succ x).filter fun y => !seen (visit x s) y).reverse ++ stack)
      (visit x s) := by
  intro a z b he hz y hy
  -- `z` lies among the pushed vertices, which are not recorded, or deeper
  rcases List.append_eq_append_iff.1 he with ⟨c, rfl, hc⟩ | ⟨c, hc, hzb⟩
  · by_cases hzs : seen s z = true
    · rcases h (x :: c) z b (by rw [hc]; rfl) hzs y hy with h1 | h1 | h1
      · exact .inl ((hS.visit x s y).2 (.inl h1))
      · exact .inr (.inl h1)
      · rcases List.mem_cons.1 h1 with rfl | h1
        · by_cases hl : leaf y
          · exact .inr (.inl hl)
          · exact .inl ((hS.visit y s y).2 (.inr ⟨rfl, hl⟩))
        · exact .inr (.inr (List.mem_append_right _ h1))
    · obtain ⟨rfl, -⟩ := ((hS.visit x s z).1 hz).resolve_left hzs
      by_cases hys : seen (visit z s) y = true
      · exact .inl hys
      · refine .inr (.inr (List.mem_append_left _ ?_))
        simp [hy, hys]
  · cases c with
    | nil =>
      simp only [List.append_nil, List.nil_append] at hc hzb
      subst hc
      by_cases hzs : seen s z = true
      · rcases h [x] z b (by rw [← hzb]; rfl) hzs y hy with h1 | h1 | h1
        · exact .inl ((hS.visit x s y).2 (.inl h1))
        · exact .inr (.inl h1)
        · rw [List.mem_singleton] at h1
          subst h1
          by_cases hl : leaf y
          · exact .inr (.inl hl)
          · exact .inl ((hS.visit y s y).2 (.inr ⟨rfl, hl⟩))
      · obtain ⟨rfl, -⟩ := ((hS.visit x s z).1 hz).resolve_left hzs
        by_cases hys : seen (visit z s) y = true
        · exact .inl hys
        · refine .inr (.inr ?_)
          simp [hy, hys]
    | cons z' c =>
      simp only [List.cons_append, List.cons.injEq] at hzb
      obtain ⟨rfl, rfl⟩ := hzb
      have : z ∈ ((succ x).filter fun y => !seen (visit x s) y).reverse := by rw [hc]; simp
      simp only [List.mem_reverse, List.mem_filter, Bool.not_eq_true'] at this
      rw [this.2] at hz
      cases hz

/-- The price of popping `x` again: itself and its leaves. -/
noncomputable def again (succ : α → List α) (leaf : α → Prop) (x : α) : Nat := by
  classical exact 1 + ((succ x).filter fun y => decide (leaf y)).length

/-- The price of popping `x` first: every successor is pushed. -/
noncomputable def first (succ : α → List α) (leaf : α → Prop) (x : α) : Nat :=
  ((succ x).map (again succ leaf)).sum

open Classical in
/-- The number of pops left is at most the price of the stack and of the vertices not recorded. -/
noncomputable def price (seen : σ → α → Bool) (succ : α → List α) (leaf : α → Prop) (U : List α)
    (stack : List α) (s : σ) : Nat :=
  (stack.map (again succ leaf)).sum + ((U.filter fun x => !seen s x).map (first succ leaf)).sum

theorem again_leaf (hS : Spec seen visit succ leaf) {x : α} (h : leaf x) :
    again succ leaf x = 1 := by
  simp [again, hS.leaf x h]

theorem again_le (x : α) : again succ leaf x ≤ 1 + (succ x).length := by
  unfold again
  exact Nat.add_le_add_left (List.length_filter_le _ _) 1

theorem sum_filter_le_of_imp (f : α → Nat) (p q : α → Bool) (h : ∀ x, p x = true → q x = true) :
    ∀ U : List α, ((U.filter p).map f).sum ≤ ((U.filter q).map f).sum
  | [] => by simp
  | x :: U => by
    have ih := sum_filter_le_of_imp f p q h U
    by_cases hp : p x = true
    · simp [hp, h x hp, ih]
    · by_cases hq : q x = true
      · simp [hp, hq]; omega
      · simp [hp, hq, ih]

theorem sum_filter_add_le (f : α → Nat) (p q : α → Bool) (h : ∀ x, p x = true → q x = true)
    {x : α} (hq : q x = true) (hp : p x = false) : ∀ {U : List α}, x ∈ U →
    ((U.filter p).map f).sum + f x ≤ ((U.filter q).map f).sum
  | [], hx => by simp at hx
  | y :: U, hx => by
    have hle := sum_filter_le_of_imp f p q h U
    rcases List.mem_cons.1 hx with rfl | hx
    · simp [hp, hq]; omega
    · have ih := sum_filter_add_le f p q h hq hp hx
      by_cases hpy : p y = true
      · simp [hpy, h y hpy]; omega
      · by_cases hqy : q y = true
        · simp [hpy, hqy]; omega
        · simp [hpy, hqy, ih]

theorem sum_map_filter_le (f : α → Nat) (p : α → Bool) (l : List α) :
    ((l.filter p).map f).sum ≤ (l.map f).sum := by
  have := sum_filter_le_of_imp f p (fun _ => true) (fun _ _ => rfl) l
  simpa using this

theorem sum_map_reverse (f : α → Nat) (l : List α) : (l.reverse.map f).sum = (l.map f).sum := by
  rw [List.map_reverse, List.sum_reverse]

/-- Every pop lowers the price. -/
theorem price_pop (hS : Spec seen visit succ leaf) {U : List α} {x : α} {stack : List α} {s : σ}
    (hx : x ∈ U) (h : Above seen succ leaf (x :: stack) s) :
    price seen succ leaf U (((succ x).filter fun y => !seen (visit x s) y).reverse ++ stack)
      (visit x s) < price seen succ leaf U (x :: stack) s := by
  have hmono : ∀ y, (!seen (visit x s) y) = true → (!seen s y) = true := by
    intro y hy
    simp only [Bool.not_eq_true'] at hy ⊢
    by_contra hc
    rw [(hS.visit x s y).2 (.inl (by simpa using hc))] at hy
    cases hy
  have hU := sum_filter_le_of_imp (first succ leaf) _ _ hmono U
  have hpush := sum_map_filter_le (again succ leaf) (fun y => !seen (visit x s) y) (succ x)
  have hpos : 1 ≤ again succ leaf x := by simp [again]
  simp only [price, List.map_append, List.sum_append, sum_map_reverse, List.map_cons, List.sum_cons]
  by_cases hl : leaf x
  · rw [hS.leaf x hl]
    simp only [List.filter_nil, List.map_nil, List.sum_nil]
    omega
  · by_cases hs : seen s x = true
    · -- popped again: only leaves are pushed
      have hleaf : ∀ y ∈ (succ x).filter (fun y => !seen (visit x s) y), leaf y := by
        intro y hy
        obtain ⟨hy, hns⟩ := List.mem_filter.1 hy
        rcases h [] x stack rfl hs y hy with h1 | h1 | h1
        · rw [(hS.visit x s y).2 (.inl h1)] at hns; cases hns
        · exact h1
        · simp at h1
      have hsum : (((succ x).filter fun y => !seen (visit x s) y).map (again succ leaf)).sum ≤
          again succ leaf x - 1 := by
        have h1 : ((succ x).filter fun y => !seen (visit x s) y).map (again succ leaf) =
            ((succ x).filter fun y => !seen (visit x s) y).map fun _ => 1 :=
          List.map_congr_left fun y hy => again_leaf hS (hleaf y hy)
        rw [h1, List.map_const', List.sum_replicate, nsmul_eq_mul, mul_one, Nat.cast_id]
        unfold again
        rw [Nat.add_sub_cancel_left, ← List.countP_eq_length_filter, ← List.countP_eq_length_filter]
        refine List.countP_mono_left fun y hy hns => ?_
        simpa using hleaf y (List.mem_filter.2 ⟨hy, hns⟩)
      omega
    · have hseen : (!seen (visit x s) x) = false := by
        simpa using (hS.visit x s x).2 (.inr ⟨rfl, hl⟩)
      have := sum_filter_add_le (first succ leaf) _ _ hmono (x := x) (by simpa using hs) hseen hx
      have hf : first succ leaf x = ((succ x).map (again succ leaf)).sum := rfl
      omega

/-- The fuel bound covers the price of a start. -/
theorem price_le_fuelFor {U : List α} {x : α} {s : σ} (hx : x ∈ U)
    (hU : ∀ x ∈ U, ∀ y ∈ succ x, y ∈ U) :
    price seen succ leaf U [x] s < fuelFor succ U := by
  set D := (U.map fun x => (succ x).length).sum with hD
  have hlen : ∀ y ∈ U, (succ y).length ≤ D := fun y hy =>
    List.single_le_sum (fun _ _ => Nat.zero_le _) _ (List.mem_map_of_mem hy)
  have hag : ∀ y ∈ U, again succ leaf y ≤ 1 + D := fun y hy =>
    (again_le y).trans (Nat.add_le_add_left (hlen y hy) 1)
  have hfirst : ∀ y ∈ U, first succ leaf y ≤ (succ y).length * (1 + D) := fun y hy => by
    unfold first
    refine (List.sum_le_card_nsmul _ (1 + D) fun n hn => ?_).trans (by simp)
    obtain ⟨z, hz, rfl⟩ := List.mem_map.1 hn
    exact hag z (hU y hy z hz)
  have hsum : (U.map (first succ leaf)).sum ≤ D * (1 + D) := by
    have : ∀ V : List α, (∀ y ∈ V, first succ leaf y ≤ (succ y).length * (1 + D)) →
        (V.map (first succ leaf)).sum ≤ (V.map fun x => (succ x).length).sum * (1 + D) := by
      intro V
      induction V with
      | nil => simp
      | cons y V ih =>
        intro hV
        have h1 := hV y (by simp)
        have h2 := ih fun z hz => hV z (by simp [hz])
        simp only [List.map_cons, List.sum_cons, Nat.add_mul]
        omega
    exact this U hfirst
  have h1 := sum_map_filter_le (first succ leaf) (fun y => !seen s y) U
  have h2 := hag x hx
  unfold price fuelFor
  rw [← hD]
  simp only [List.map_cons, List.map_nil, List.sum_cons, List.sum_nil]
  nlinarith

theorem drain_of_loop {fuel : Nat} {stack : List α} {s r : σ}
    (h : loop (drainStep seen visit succ) fuel (stack, s) = some r) :
    drain seen visit succ fuel stack s = r := by
  induction fuel generalizing stack s with
  | zero => cases h
  | succ fuel ih =>
    cases stack with
    | nil => exact Option.some.inj h
    | cons x stack => exact ih h

/-- **A traversal ends**: with enough fuel its stack is emptied. -/
theorem drain_ends (hS : Spec seen visit succ leaf) {U : List α}
    (hU : ∀ x ∈ U, ∀ y ∈ succ x, y ∈ U) {x : α} (hx : x ∈ U) {s0 : σ}
    (h0 : ∀ y, seen s0 y = false) {fuel : Nat} (hf : fuelFor succ U ≤ fuel) :
    loop (drainStep seen visit succ) fuel ([x], s0) =
      some (drain seen visit succ (fuelFor succ U) [x] s0) := by
  have hab : Above seen succ leaf [x] s0 := by
    intro a z b _ hz
    rw [h0] at hz
    cases hz
  have hend : ∃ r, loop (drainStep seen visit succ) (fuelFor succ U) ([x], s0) = some r ∧ True := by
    refine loop_total (I := fun t => (∀ y ∈ t.1, y ∈ U) ∧ Above seen succ leaf t.1 t.2)
      (fun t => price seen succ leaf U t.1 t.2) (fun t t' hi hs => ?_) (fun _ _ _ _ => trivial)
      ⟨by simpa using hx, hab⟩ (price_le_fuelFor hx hU)
    obtain ⟨stack, s⟩ := t
    obtain ⟨hmem, hab⟩ := hi
    cases stack with
    | nil => cases hs
    | cons y stack =>
      cases hs
      refine ⟨⟨fun z hz => ?_, above_pop hS hab⟩, price_pop hS (hmem y (by simp)) hab⟩
      rcases List.mem_append.1 hz with hz | hz
      · exact hU y (hmem y (by simp)) z (List.mem_filter.1 (List.mem_reverse.1 hz)).1
      · exact hmem z (by simp [hz])
  obtain ⟨r, hr, -⟩ := hend
  rw [drain_of_loop hr]
  exact loop_mono hr hf

/-- A recorded vertex was visited. -/
theorem seen_foldl (hS : Spec seen visit succ leaf) {s0 : σ} (h0 : ∀ x, seen s0 x = false)
    {l : List α} {y : α} (h : seen (l.foldl (fun s x => visit x s) s0) y = true) : y ∈ l := by
  induction l using List.reverseRecOn with
  | nil => rw [List.foldl_nil, h0] at h; cases h
  | append_singleton l z ih =>
    rw [List.foldl_append] at h
    rcases (hS.visit z _ y).1 h with h1 | ⟨rfl, -⟩
    · exact List.mem_append_left _ (ih h1)
    · simp

/-- The general form of `drain_spec`, for a traversal that has recorded the vertices `l`. -/
theorem drain_run (hS : Spec seen visit succ leaf) {U : List α}
    (hU : ∀ x ∈ U, ∀ y ∈ succ x, y ∈ U) {s0 : σ} :
    ∀ {fuel : Nat} {stack l : List α}, (∀ x ∈ stack, x ∈ U) →
      Above seen succ leaf stack (l.foldl (fun s x => visit x s) s0) →
      price seen succ leaf U stack (l.foldl (fun s x => visit x s) s0) < fuel →
      (∀ x, seen s0 x = false) →
      (∀ x ∈ l, ∀ y ∈ succ x, y ∈ l ∨ y ∈ stack) →
      ∃ l' : List α, drain seen visit succ fuel stack (l.foldl (fun s x => visit x s) s0) =
          l'.foldl (fun s x => visit x s) s0 ∧
        (∀ x, x ∈ l ∨ x ∈ stack → x ∈ l') ∧ (∀ x ∈ l', ∀ y ∈ succ x, y ∈ l') ∧
        ∀ x ∈ l', x ∈ l ∨ ∃ y ∈ stack, Reach succ y x
  | 0, _, _, _, _, hp, _, _ => by omega
  | fuel + 1, [], l, _, _, _, _, hcl =>
    ⟨l, rfl, fun x hx => by simpa using hx, fun x hx y hy => by simpa using hcl x hx y hy,
      fun x hx => .inl hx⟩
  | fuel + 1, x :: stack, l, hst, hab, hp, h0, hcl => by
    set s := l.foldl (fun s x => visit x s) s0 with hs
    set push := ((succ x).filter fun y => !seen (visit x s) y).reverse with hpush
    have hl' : (l ++ [x]).foldl (fun s x => visit x s) s0 = visit x s := by
      rw [List.foldl_append]; rfl
    have hstack : ∀ y ∈ push ++ stack, y ∈ U := by
      intro y hy
      rcases List.mem_append.1 hy with hy | hy
      · have : y ∈ succ x := (List.mem_filter.1 (List.mem_reverse.1 hy)).1
        exact hU x (hst x (by simp)) y this
      · exact hst y (by simp [hy])
    have hclosed : ∀ z ∈ l ++ [x], ∀ y ∈ succ z, y ∈ l ++ [x] ∨ y ∈ push ++ stack := by
      intro z hz y hy
      rcases List.mem_append.1 hz with hz | hz
      · rcases hcl z hz y hy with h1 | h1
        · exact .inl (List.mem_append_left _ h1)
        · rcases List.mem_cons.1 h1 with rfl | h1
          · simp
          · exact .inr (List.mem_append_right _ h1)
      · rw [List.mem_singleton] at hz
        subst hz
        by_cases hys : seen (visit z s) y = true
        · exact .inl (seen_foldl hS h0 (by rw [hl']; exact hys))
        · exact .inr (List.mem_append_left _ (by simp [hpush, hy, hys]))
    have hprice : price seen succ leaf U (push ++ stack) (visit x s) <
        price seen succ leaf U (x :: stack) s := price_pop hS (hst x (by simp)) hab
    have hab' : Above seen succ leaf (push ++ stack)
        ((l ++ [x]).foldl (fun s x => visit x s) s0) := by
      rw [hl']
      exact above_pop hS hab
    have hp' : price seen succ leaf U (push ++ stack)
        ((l ++ [x]).foldl (fun s x => visit x s) s0) < fuel := by
      rw [hl']
      omega
    obtain ⟨l', he, hsub, hcl', hr⟩ := drain_run hS hU hstack hab' hp' h0 hclosed
    rw [hl'] at he
    refine ⟨l', he, fun y hy => hsub y ?_, hcl', fun y hy => ?_⟩
    · simp only [List.mem_cons, List.mem_append] at hy ⊢; tauto
    · rcases hr y hy with h1 | ⟨z, hz, hzy⟩
      · rcases List.mem_append.1 h1 with h1 | h1
        · exact .inl h1
        · rw [List.mem_singleton] at h1
          exact .inr ⟨x, by simp, h1 ▸ .refl⟩
      · rcases List.mem_append.1 hz with hz | hz
        · have : z ∈ succ x := by
            simp only [hpush, List.mem_reverse, List.mem_filter] at hz; exact hz.1
          exact .inr ⟨x, by simp, .head this hzy⟩
        · exact .inr ⟨z, by simp [hz], hzy⟩

/-- **A traversal records exactly the reachable vertices.** -/
theorem drain_spec (hS : Spec seen visit succ leaf) {U : List α}
    (hU : ∀ x ∈ U, ∀ y ∈ succ x, y ∈ U) {x : α} (hx : x ∈ U) {s0 : σ}
    (h0 : ∀ y, seen s0 y = false) :
    ∃ l : List α,
      drain seen visit succ (fuelFor succ U) [x] s0 = l.foldl (fun s x => visit x s) s0 ∧
      ∀ y, y ∈ l ↔ Reach succ x y := by
  have hab : Above seen succ leaf [x] s0 := by
    intro a z b _ hz
    rw [h0] at hz; cases hz
  obtain ⟨l, he, hsub, hcl, hr⟩ := drain_run hS hU (l := []) (by simpa using hx) hab
    (price_le_fuelFor hx hU) h0 (by simp)
  refine ⟨l, he, fun y => ⟨fun hy => ?_, fun hy => ?_⟩⟩
  · simpa using hr y hy
  · induction hy with
    | refl => exact hsub x (by simp)
    | tail _ hyz ih => exact hcl _ ih _ hyz

/-! ## Traversals that start with a record -/

theorem fuelFor_mono {succ succ' : α → List α} (h : ∀ x, (succ' x).length ≤ (succ x).length)
    (U : List α) : fuelFor succ' U ≤ fuelFor succ U := by
  have hsum : (U.map fun x => (succ' x).length).sum ≤ (U.map fun x => (succ x).length).sum :=
    List.sum_le_sum fun x _ => h x
  exact Nat.mul_le_mul (by omega) (by omega)

open Classical in
/-- The traversal with the record `s0` at its start is the one from an empty record along the edges
to vertices that `s0` leaves out. -/
theorem drain_eq_foldl (hS : Spec seen visit succ leaf) (s0 : σ) (fuel : Nat) (stack l : List α) :
    drain seen visit succ fuel stack (l.foldl (fun s x => visit x s) s0) =
      (drain (fun (l : List α) y => decide (y ∈ l ∧ ¬leaf y)) (fun x l => l ++ [x])
        (fun x => (succ x).filter fun y => !seen s0 y) fuel stack l).foldl
        (fun s x => visit x s) s0 := by
  have hseen : ∀ (l : List α) (y : α),
      seen (l.foldl (fun s x => visit x s) s0) y = (seen s0 y || decide (y ∈ l ∧ ¬leaf y)) := by
    intro l y
    induction l using List.reverseRecOn with
    | nil => simp
    | append_singleton l z ih =>
      rw [List.foldl_append, Bool.eq_iff_iff, List.foldl_cons, List.foldl_nil, hS.visit, ih]
      simp only [Bool.or_eq_true, decide_eq_true_eq, List.mem_append, List.mem_singleton]
      by_cases hyz : y = z
      · subst hyz
        tauto
      · tauto
  induction fuel generalizing stack l with
  | zero => rfl
  | succ fuel ih =>
    cases stack with
    | nil => rfl
    | cons x stack =>
      have hvisit : visit x (l.foldl (fun s x => visit x s) s0) =
          (l ++ [x]).foldl (fun s x => visit x s) s0 := by
        rw [List.foldl_append]
        rfl
      have hpush :
          ((succ x).filter fun y => !seen (visit x (l.foldl (fun s x => visit x s) s0)) y) =
          ((succ x).filter fun y => !seen s0 y).filter
            fun y => !decide (y ∈ l ++ [x] ∧ ¬leaf y) := by
        rw [hvisit, List.filter_filter]
        refine List.filter_congr fun y _ => ?_
        rw [hseen, Bool.not_or, Bool.and_comm]
      unfold drain
      rw [hpush, hvisit]
      exact ih _ _

/-- **A traversal that starts with a record** adds the vertices that are reachable along edges to
vertices outside of it. -/
theorem drain_spec_from (hS : Spec seen visit succ leaf) (s0 : σ) {U : List α}
    (hU : ∀ x ∈ U, ∀ y ∈ succ x, y ∈ U) {x : α} (hx : x ∈ U) :
    ∃ l : List α,
      drain seen visit succ (fuelFor succ U) [x] s0 = l.foldl (fun s x => visit x s) s0 ∧
      ∀ y, y ∈ l ↔ Reach (fun x => (succ x).filter fun y => !seen s0 y) x y := by
  classical
  set succ' := fun x => (succ x).filter fun y => !seen s0 y with hsucc
  have hS' : Spec (fun (l : List α) y => decide (y ∈ l ∧ ¬leaf y)) (fun x l => l ++ [x]) succ'
      leaf := by
    refine ⟨fun x s y => ?_, fun x hx => ?_⟩
    · by_cases hyx : y = x
      · subst hyx
        simp
      · simp [hyx]
    · rw [hsucc]
      simp only [hS.leaf x hx, List.filter_nil]
  have hU' : ∀ x ∈ U, ∀ y ∈ succ' x, y ∈ U := fun x hx y hy => hU x hx y (List.mem_filter.1 hy).1
  have hempty : ∀ y, decide (y ∈ ([] : List α) ∧ ¬leaf y) = false := fun _ => by simp
  have hfuel : fuelFor succ' U ≤ fuelFor succ U :=
    fuelFor_mono (fun _ => List.length_filter_le _ _) U
  obtain ⟨l, hl, hmem⟩ := drain_spec hS' hU' hx hempty
  have hend := drain_of_loop (drain_ends hS' hU' hx hempty hfuel)
  refine ⟨l, (drain_eq_foldl hS s0 _ _ []).trans ?_, hmem⟩
  rw [hend, hl, List.foldl_append_eq_append, List.nil_append, ← List.flatMap_def,
    List.flatMap_singleton']

end

end Msyn.Worklist
