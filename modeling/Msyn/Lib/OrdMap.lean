import Mathlib.Data.List.Sort
import Mathlib.Data.Finset.Sort
import Mathlib.Tactic.Common

/-!
# Ordered sets and maps

`OrdSet α` and `OrdMap κ ν` are `std::set` and `std::map`: strictly sorted lists, so that a walk
over one visits the keys in increasing order and two maps with the same lookups are equal
(`OrdMap.ext_find`). The sortedness is a field, so every value is a set or a map.
-/

namespace Msyn

/-! ## Sets -/

structure OrdSet (α : Type*) [LinearOrder α] where
  elems : List α
  sorted : elems.Pairwise (· < ·)
deriving DecidableEq

namespace OrdSet

variable {α : Type*} [LinearOrder α]

instance : Membership α (OrdSet α) := ⟨fun s a => a ∈ s.elems⟩

theorem mem_def {s : OrdSet α} {a : α} : a ∈ s ↔ a ∈ s.elems := Iff.rfl

instance (a : α) (s : OrdSet α) : Decidable (a ∈ s) := inferInstanceAs (Decidable (a ∈ s.elems))

/-- The empty set. -/
def empty : OrdSet α := ⟨[], .nil⟩

instance : EmptyCollection (OrdSet α) := ⟨empty⟩

@[simp] theorem elems_empty : (∅ : OrdSet α).elems = [] := rfl

@[simp] theorem not_mem_empty (a : α) : a ∉ (∅ : OrdSet α) := List.not_mem_nil

/-- Insertion into a strictly sorted list. -/
def insertList (a : α) : List α → List α
  | [] => [a]
  | b :: l => if a < b then a :: b :: l else if a = b then b :: l else b :: insertList a l

theorem mem_insertList {a b : α} {l : List α} : b ∈ insertList a l ↔ b = a ∨ b ∈ l := by
  induction l with
  | nil => simp [insertList]
  | cons c l ih =>
    simp only [insertList]
    split_ifs with h1 h2
    · simp
    · subst h2; simp
    · simp only [List.mem_cons, ih]; tauto

theorem sorted_insertList {a : α} {l : List α} (h : l.Pairwise (· < ·)) :
    (insertList a l).Pairwise (· < ·) := by
  induction l with
  | nil => simp [insertList]
  | cons c l ih =>
    obtain ⟨hc, hl⟩ := List.pairwise_cons.1 h
    simp only [insertList]
    split_ifs with h1 h2
    · exact List.pairwise_cons.2 ⟨fun b hb => by
        rcases List.mem_cons.1 hb with rfl | hb
        · exact h1
        · exact h1.trans (hc b hb), h⟩
    · exact h
    · refine List.pairwise_cons.2 ⟨fun b hb => ?_, ih hl⟩
      rcases mem_insertList.1 hb with rfl | hb
      · exact lt_of_le_of_ne (not_lt.1 h1) (Ne.symm h2)
      · exact hc b hb

def insert (s : OrdSet α) (a : α) : OrdSet α := ⟨insertList a s.elems, sorted_insertList s.sorted⟩

/-- `s.insert(l.begin(), l.end())`. -/
def insertAll (s : OrdSet α) (l : List α) : OrdSet α := l.foldl insert s

def erase (s : OrdSet α) (a : α) : OrdSet α := ⟨s.elems.erase a, s.sorted.erase a⟩

def ofList (l : List α) : OrdSet α := (∅ : OrdSet α).insertAll l

def size (s : OrdSet α) : Nat := s.elems.length

theorem nodup (s : OrdSet α) : s.elems.Nodup := s.sorted.imp ne_of_lt

@[simp] theorem mem_insert {s : OrdSet α} {a b : α} : b ∈ s.insert a ↔ b = a ∨ b ∈ s :=
  mem_insertList

@[simp] theorem mem_insertAll {s : OrdSet α} {l : List α} {b : α} :
    b ∈ s.insertAll l ↔ b ∈ s ∨ b ∈ l := by
  unfold insertAll
  induction l generalizing s with
  | nil => simp
  | cons a l ih => simp only [List.foldl_cons, ih, mem_insert, List.mem_cons]; tauto

@[simp] theorem mem_erase {s : OrdSet α} {a b : α} : b ∈ s.erase a ↔ b ≠ a ∧ b ∈ s :=
  s.nodup.mem_erase_iff

@[simp] theorem mem_ofList {l : List α} {b : α} : b ∈ ofList l ↔ b ∈ l := by
  simp [ofList]

/-- A subset is no larger. -/
theorem size_le_of_subset {s t : OrdSet α} (h : ∀ a ∈ s, a ∈ t) : s.size ≤ t.size :=
  (s.nodup.subperm h).length_le

theorem size_insert {s : OrdSet α} {a : α} (h : a ∉ s) : (s.insert a).size = s.size + 1 :=
  ((List.perm_ext_iff_of_nodup (s.insert a).nodup (List.nodup_cons.2 ⟨h, s.nodup⟩)).2 fun b => by
    rw [List.mem_cons]
    exact mem_insertList).length_eq

/-- A set of entries of a list has as many elements as the list has entries in it. -/
theorem size_eq_filter {s : OrdSet α} {l : List α} (hl : l.Nodup) (h : ∀ a ∈ s, a ∈ l) :
    s.size = (l.filter (· ∈ s)).length :=
  ((List.perm_ext_iff_of_nodup s.nodup (hl.filter _)).2 fun b => by
    rw [List.mem_filter, decide_eq_true_eq]
    exact ⟨fun hb => ⟨h b hb, hb⟩, fun hb => hb.2⟩).length_eq

end OrdSet

/-! ## Maps -/

structure OrdMap (κ ν : Type*) [LinearOrder κ] where
  entries : List (κ × ν)
  sorted : (entries.map Prod.fst).Pairwise (· < ·)
deriving DecidableEq

namespace OrdMap

variable {κ ν : Type*} [LinearOrder κ]

/-- The empty map. -/
def empty : OrdMap κ ν := ⟨[], .nil⟩

instance : EmptyCollection (OrdMap κ ν) := ⟨empty⟩

@[simp] theorem entries_empty : (∅ : OrdMap κ ν).entries = [] := rfl

/-- `m[k] = v` on a strictly sorted list of entries. -/
def setList (k : κ) (v : ν) : List (κ × ν) → List (κ × ν)
  | [] => [(k, v)]
  | e :: l =>
    if k < e.1 then (k, v) :: e :: l else if k = e.1 then (k, v) :: l else e :: setList k v l

theorem mem_keys_setList {k k' : κ} {v : ν} {l : List (κ × ν)} :
    k' ∈ (setList k v l).map Prod.fst ↔ k' = k ∨ k' ∈ l.map Prod.fst := by
  induction l with
  | nil => simp [setList]
  | cons e l ih =>
    simp only [setList]
    split_ifs with h1 h2
    · simp
    · simp only [List.map_cons, List.mem_cons, h2, or_self_left]
    · simp only [List.map_cons, List.mem_cons, ih]; tauto

theorem sorted_setList {k : κ} {v : ν} {l : List (κ × ν)}
    (h : (l.map Prod.fst).Pairwise (· < ·)) : ((setList k v l).map Prod.fst).Pairwise (· < ·) := by
  induction l with
  | nil => simp [setList]
  | cons e l ih =>
    obtain ⟨he, hl⟩ := List.pairwise_cons.1 h
    simp only [setList]
    split_ifs with h1 h2
    · exact List.pairwise_cons.2 ⟨fun b hb => by
        rcases List.mem_cons.1 hb with rfl | hb
        · exact h1
        · exact h1.trans (he b hb), h⟩
    · rw [List.map_cons, h2]; exact h
    · refine List.pairwise_cons.2 ⟨fun b hb => ?_, ih hl⟩
      rcases mem_keys_setList.1 hb with rfl | hb
      · exact lt_of_le_of_ne (not_lt.1 h1) (Ne.symm h2)
      · exact he b hb

/-- `m[k] = v`. -/
def set (m : OrdMap κ ν) (k : κ) (v : ν) : OrdMap κ ν := ⟨setList k v m.entries, sorted_setList m.sorted⟩

def find (m : OrdMap κ ν) (k : κ) : Option ν := m.entries.lookup k

def keys (m : OrdMap κ ν) : List κ := m.entries.map Prod.fst

/-- The map of a function on a list of keys: `for (k : l) m[k] = f(k)`. -/
def tabulate (l : List κ) (f : κ → ν) : OrdMap κ ν := l.foldl (fun m k => m.set k (f k)) ∅

theorem keys_nodup (m : OrdMap κ ν) : m.keys.Nodup := m.sorted.imp ne_of_lt

@[simp] theorem mem_keys_set {m : OrdMap κ ν} {k k' : κ} {v : ν} :
    k' ∈ (m.set k v).keys ↔ k' = k ∨ k' ∈ m.keys := mem_keys_setList

theorem lookup_cons (e : κ × ν) (l : List (κ × ν)) (k : κ) :
    (e :: l).lookup k = if k = e.1 then some e.2 else l.lookup k := by
  by_cases hk : k = e.1
  · rw [if_pos hk, hk]
    exact List.lookup_cons_self
  · rw [if_neg hk]
    exact (List.lookup_cons).trans (by rw [beq_false_of_ne hk])

theorem lookup_setList {k k' : κ} {v : ν} {l : List (κ × ν)} :
    (setList k v l).lookup k' = if k' = k then some v else l.lookup k' := by
  induction l with
  | nil => simp only [setList, lookup_cons, List.lookup_nil]
  | cons e l ih =>
    simp only [setList]
    split
    · rw [lookup_cons]
    · split
      · rename_i h2
        rw [lookup_cons, lookup_cons, ← h2]
        split <;> rfl
      · rename_i h2
        rw [lookup_cons, lookup_cons, ih]
        by_cases hk : k' = k
        · rw [if_pos hk, if_neg (hk ▸ h2), if_pos hk]
        · rw [if_neg hk, if_neg hk]

@[simp] theorem find_set {m : OrdMap κ ν} {k k' : κ} {v : ν} :
    (m.set k v).find k' = if k' = k then some v else m.find k' := lookup_setList

@[simp] theorem find_empty (k : κ) : (∅ : OrdMap κ ν).find k = none := rfl

theorem lookup_isSome {l : List (κ × ν)} {k : κ} : (l.lookup k).isSome ↔ k ∈ l.map Prod.fst := by
  induction l with
  | nil => simp
  | cons e l ih =>
    rw [lookup_cons]
    by_cases hk : k = e.1
    · simp [hk]
    · rw [if_neg hk, ih, List.map_cons, List.mem_cons]
      simp [hk]

theorem find_isSome {m : OrdMap κ ν} {k : κ} : (m.find k).isSome ↔ k ∈ m.keys := lookup_isSome

theorem mem_lookup_of_nodup {l : List (κ × ν)} (h : (l.map Prod.fst).Nodup) {k : κ} {v : ν} :
    (k, v) ∈ l ↔ l.lookup k = some v := by
  induction l with
  | nil => simp
  | cons e l ih =>
    obtain ⟨he, hl⟩ := List.nodup_cons.1 h
    obtain ⟨e1, e2⟩ := e
    rw [lookup_cons, List.mem_cons, ih hl]
    by_cases hk : k = e1
    · subst hk
      have hne : l.lookup k ≠ some v := fun hm =>
        he (lookup_isSome.1 (by rw [hm]; rfl))
      simp [hne, eq_comm]
    · simp [hk]

theorem mem_entries {m : OrdMap κ ν} {k : κ} {v : ν} : (k, v) ∈ m.entries ↔ m.find k = some v :=
  mem_lookup_of_nodup m.keys_nodup

/-- **Maps with the same lookups are equal.** -/
theorem ext_find {m m' : OrdMap κ ν} (h : ∀ k, m.find k = m'.find k) : m = m' := by
  have hmem : ∀ e, e ∈ m.entries ↔ e ∈ m'.entries := fun e => by
    rw [mem_entries (k := e.1) (v := e.2), mem_entries (k := e.1) (v := e.2), h]
  have hp : m.entries.Perm m'.entries :=
    (List.perm_ext_iff_of_nodup (.of_map _ m.keys_nodup) (.of_map _ m'.keys_nodup)).2 hmem
  have hlt : ∀ m : OrdMap κ ν, m.entries.Pairwise fun a b => a.1 < b.1 := fun m =>
    List.pairwise_map.1 m.sorted
  have := hp.eq_of_pairwise (fun a b _ _ h1 h2 => absurd h2 (lt_asymm h1)) (hlt m) (hlt m')
  cases m; cases m'; simp_all

/-- The keys are determined by what they are. -/
theorem keys_ext {ν' : Type*} {m : OrdMap κ ν} {m' : OrdMap κ ν'}
    (h : ∀ k, k ∈ m.keys ↔ k ∈ m'.keys) : m.keys = m'.keys := by
  have hp : m.keys.Perm m'.keys := (List.perm_ext_iff_of_nodup m.keys_nodup m'.keys_nodup).2 h
  exact hp.eq_of_pairwise (fun a b _ _ h1 h2 => absurd h2 (lt_asymm h1)) m.sorted m'.sorted

@[simp] theorem find_tabulate {l : List κ} {f : κ → ν} {k : κ} :
    (tabulate l f).find k = if k ∈ l then some (f k) else none := by
  have key : ∀ (l : List κ) (m : OrdMap κ ν), (l.foldl (fun m k => m.set k (f k)) m).find k =
      if k ∈ l then some (f k) else m.find k := by
    intro l
    induction l with
    | nil => simp
    | cons a l ih =>
      intro m
      rw [List.foldl_cons, ih, find_set]
      by_cases hk : k ∈ l
      · simp [hk]
      · by_cases ha : k = a
        · simp [ha]
        · simp [hk, ha]
  simpa [tabulate] using key l ∅

/-- Tabulated maps are equal exactly if the functions agree on the keys. -/
theorem tabulate_inj {l : List κ} {f g : κ → ν} :
    tabulate l f = tabulate l g ↔ ∀ k ∈ l, f k = g k := by
  constructor
  · intro h k hk
    have := congrArg (·.find k) h
    simpa [hk] using this
  · intro h
    refine ext_find fun k => ?_
    rw [find_tabulate, find_tabulate]
    split_ifs with hk
    · rw [h k hk]
    · rfl

/-- The entries of a map tabulated over sorted keys. -/
theorem entries_tabulate {l : List κ} (hl : l.Pairwise (· < ·)) (f : κ → ν) :
    (tabulate l f).entries = l.map fun k => (k, f k) := by
  have hkeys : (l.map fun k => (k, f k)).map Prod.fst = l := by
    rw [List.map_map]
    exact List.map_id l
  have he : tabulate l f = ⟨l.map fun k => (k, f k), by rw [hkeys]; exact hl⟩ := by
    refine ext_find fun k => ?_
    rw [find_tabulate]
    split_ifs with hk
    · exact (mem_entries.1 (List.mem_map_of_mem (f := fun k => (k, f k)) hk)).symm
    · refine (Option.not_isSome_iff_eq_none.1 fun hs => hk ?_).symm
      rwa [find_isSome, keys, hkeys] at hs
  rw [he]

end OrdMap

end Msyn
