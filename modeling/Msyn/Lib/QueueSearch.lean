import Mathlib.Data.List.Nodup
import Mathlib.Data.List.Perm.Subperm
import Mathlib.Logic.Relation
import Mathlib.Tactic.Common
import Msyn.Lib.Loop

/-!
# Breadth-first search

A search with a queue whose vertices are marked when they enter it. Every vertex that is reachable
from the start leaves the queue once (`search_spec`).
-/

namespace Msyn.QueueSearch

section
variable {V β : Type*} [DecidableEq V] (next : V → List V) (emit : V → List β)

/-- The vertices that are not marked are marked and enter the queue. -/
def push (s : List V × List V) (l : List V) : List V × List V :=
  l.foldl (fun s w => if w ∈ s.1 then s else (s.1 ++ [w], s.2 ++ [w])) s

/-- One round: the marked vertices, the queue, and what was put out. -/
def searchStep : List V × List V × List β → (List V × List V × List β) ⊕ List β
  | (_, [], out) => .inr out
  | (visited, v :: queue, out) =>
    let s := push (visited, queue) (next v)
    .inl (s.1, s.2, out ++ emit v)

variable {next emit}

theorem push_spec (l : List V) {done queue : List V} (h : (done ++ queue).Nodup) :
    ∃ queue', push (done ++ queue, queue) l = (done ++ queue', queue') ∧
      (done ++ queue').Nodup ∧ ∀ w, w ∈ done ++ queue' ↔ w ∈ done ++ queue ∨ w ∈ l := by
  induction l generalizing queue with
  | nil => exact ⟨queue, rfl, h, by simp⟩
  | cons w l ih =>
    by_cases hw : w ∈ done ++ queue
    · obtain ⟨queue', h1, h2, h3⟩ := ih h
      refine ⟨queue', ?_, h2, fun x => ?_⟩
      · rw [push, List.foldl_cons, if_pos hw]
        exact h1
      · rw [h3, List.mem_cons]
        refine ⟨Or.imp_right .inr, fun hx => ?_⟩
        rcases hx with hx | rfl | hx
        · exact .inl hx
        · exact .inl hw
        · exact .inr hx
    · have hnd : (done ++ (queue ++ [w])).Nodup := by
        rw [← List.append_assoc]
        exact h.append (List.nodup_singleton w) (List.disjoint_singleton.2 hw)
      obtain ⟨queue', h1, h2, h3⟩ := ih hnd
      refine ⟨queue', ?_, h2, fun x => ?_⟩
      · rw [push, List.foldl_cons, if_neg hw, List.append_assoc]
        exact h1
      · rw [h3, List.mem_cons]
        simp only [List.mem_append, List.mem_singleton]
        tauto

/-- The vertices `done` have left the queue. -/
structure Inv (next : V → List V) (emit : V → List β) (U start done : List V)
    (s : List V × List V × List β) : Prop where
  visited : s.1 = done ++ s.2.1
  out : s.2.2 = done.flatMap emit
  nodup : s.1.Nodup
  sub : ∀ v ∈ s.1, v ∈ U
  marked : ∀ v ∈ start, v ∈ s.1
  sound : ∀ v ∈ s.1, ∃ a ∈ start, Relation.ReflTransGen (fun u w => w ∈ next u) a v
  closed : ∀ v ∈ done, ∀ w ∈ next v, w ∈ s.1

theorem Inv.step {U start done : List V} (hU : ∀ v ∈ U, ∀ w ∈ next v, w ∈ U)
    {s s' : List V × List V × List β} (h : Inv next emit U start done s)
    (he : searchStep next emit s = .inl s') :
    ∃ v, s.2.1.head? = some v ∧ Inv next emit U start (done ++ [v]) s' := by
  obtain ⟨visited, queue, out⟩ := s
  cases queue with
  | nil => cases he
  | cons v queue =>
    cases he
    have hvis : visited = (done ++ [v]) ++ queue := by
      rw [List.append_assoc]
      exact h.visited
    have hv : v ∈ visited := by simp [hvis]
    have hnd : ((done ++ [v]) ++ queue).Nodup := hvis ▸ h.nodup
    obtain ⟨queue', h1, h2, h3⟩ := push_spec (next v) hnd
    rw [← hvis] at h1 h3
    refine ⟨v, rfl, ?_⟩
    rw [h1]
    refine ⟨rfl, ?_, h2, fun w hw => ?_, fun w hw => ?_, fun w hw => ?_, fun u hu w hw => ?_⟩
    · rw [List.flatMap_append, List.flatMap_singleton]
      exact congrArg (· ++ emit v) h.out
    · rcases (h3 w).1 hw with hw | hw
      · exact h.sub w hw
      · exact hU v (h.sub v hv) w hw
    · exact (h3 w).2 (.inl (h.marked w hw))
    · rcases (h3 w).1 hw with hw | hw
      · exact h.sound w hw
      · obtain ⟨a, ha, hr⟩ := h.sound v hv
        exact ⟨a, ha, hr.tail hw⟩
    · rcases List.mem_append.1 hu with hu | hu
      · exact (h3 w).2 (.inl (h.closed u hu w hw))
      · exact (h3 w).2 (.inr (List.mem_singleton.1 hu ▸ hw))

omit [DecidableEq V] in
/-- Each round takes a vertex out of the queue for good. -/
theorem Inv.measure {U start done : List V} {s s' : List V × List V × List β} {v : V}
    (h : Inv next emit U start done s) (h' : Inv next emit U start (done ++ [v]) s')
    (hv : s.2.1.head? = some v) :
    U.length + s'.2.1.length - s'.1.length < U.length + s.2.1.length - s.1.length := by
  have hlen := (List.subperm_of_subset h'.nodup h'.sub).length_le
  have h1 := congrArg List.length h.visited
  have h2 := congrArg List.length h'.visited
  have h3 : s.2.1.length ≠ 0 := by
    intro h0
    rw [List.eq_nil_of_length_eq_zero h0] at hv
    cases hv
  simp only [List.length_append, List.length_singleton] at h1 h2
  omega

/-- **The search** puts out what belongs to the vertices that are reachable, each once. -/
theorem search_spec {U start : List V} (hU : ∀ v ∈ U, ∀ w ∈ next v, w ∈ U)
    (hstart : ∀ v ∈ start, v ∈ U) (hnd : start.Nodup) {fuel : Nat} (hf : U.length < fuel) :
    ∃ order : List V, loop (searchStep next emit) fuel (start, start, []) =
        some (order.flatMap emit) ∧ order.Nodup ∧
      ∀ v, v ∈ order ↔ ∃ a ∈ start, Relation.ReflTransGen (fun u w => w ∈ next u) a v := by
  let I : List V × List V × List β → Prop := fun s => ∃ done, Inv next emit U start done s
  let P : List β → Prop := fun r => ∃ order : List V, r = order.flatMap emit ∧ order.Nodup ∧
    ∀ v, v ∈ order ↔ ∃ a ∈ start, Relation.ReflTransGen (fun u w => w ∈ next u) a v
  have hstay : ∀ s s', I s → searchStep next emit s = .inl s' →
      I s' ∧ U.length + s'.2.1.length - s'.1.length < U.length + s.2.1.length - s.1.length := by
    intro s s' hi he
    obtain ⟨done, h⟩ := hi
    obtain ⟨v, hv, h'⟩ := h.step hU he
    exact ⟨⟨_, h'⟩, h.measure h' hv⟩
  have hleave : ∀ s r, I s → searchStep next emit s = .inr r → P r := by
    intro s r hi he
    obtain ⟨done, h⟩ := hi
    obtain ⟨visited, queue, out⟩ := s
    cases queue with
    | cons => cases he
    | nil =>
      cases he
      have hvis : visited = done := h.visited.trans (List.append_nil done)
      subst hvis
      refine ⟨visited, h.out, h.nodup, fun v => ⟨h.sound v, fun hr => ?_⟩⟩
      obtain ⟨a, ha, hr⟩ := hr
      induction hr with
      | refl => exact h.marked a ha
      | tail _ huw ih => exact h.closed _ ih _ huw
  have hi : I (start, start, []) :=
    ⟨[], rfl, rfl, hnd, hstart, fun _ => id, fun v hv => ⟨v, hv, .refl⟩,
      fun v hv => absurd hv List.not_mem_nil⟩
  obtain ⟨r, hr, order, rfl, h1, h2⟩ := loop_total _ hstay hleave hi (by simpa using hf)
  exact ⟨order, hr, h1, h2⟩

end

end Msyn.QueueSearch
