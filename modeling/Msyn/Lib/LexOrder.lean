import Mathlib.Data.List.Sort
import Mathlib.Data.String.Basic

/-!
# Sorting texts by their keys

Texts that begin with keys of which none is a prefix of another are ordered as their keys are
(`append_lt_append`). So sorting all texts that consist of a key and a rest puts, for each key in
their order, the sorted rests behind it (`mergeSort_flatMap`).
-/

namespace Msyn.LexOrder

theorem append_lt_append {α : Type*} [LinearOrder α] {a b : List α} (h : a < b) (hp : ¬a <+: b)
    (x y : List α) : a ++ x < b ++ y := by
  induction a generalizing b with
  | nil => exact absurd List.nil_prefix hp
  | cons c a ih =>
    cases b with
    | nil => cases h
    | cons d b =>
      rw [List.cons_append, List.cons_append, List.cons_lt_cons_iff]
      rcases List.cons_lt_cons_iff.1 h with hcd | ⟨rfl, hab⟩
      · exact .inl hcd
      · exact .inr ⟨rfl, ih hab fun hpre => hp ((List.prefix_cons_inj c).2 hpre)⟩

/-- A list in increasing order is what sorting its members gives. -/
theorem mergeSort_eq {l l' : List String} (hp : l.Perm l') (hs : l'.Pairwise (· < ·)) :
    l.mergeSort = l' :=
  ((List.mergeSort_perm l _).trans hp).eq_of_pairwise' (r := (· ≤ ·))
    (List.pairwise_mergeSort' (· ≤ ·) l) (hs.imp le_of_lt)

/-- No key is a prefix of another. -/
def PrefixFree (keys : List String) : Prop :=
  ∀ k ∈ keys, ∀ k' ∈ keys, k ≠ k' → ¬k.toList <+: k'.toList

instance (keys : List String) : Decidable (PrefixFree keys) :=
  inferInstanceAs (Decidable (∀ k ∈ keys, ∀ k' ∈ keys, k ≠ k' → ¬k.toList <+: k'.toList))

section
variable {keys rests : List String} (hp : PrefixFree keys)
include hp

theorem pairwise_flatMap (hk : keys.Pairwise (· < ·)) (hr : rests.Pairwise (· < ·)) :
    (keys.flatMap fun k => rests.map (k ++ ·)).Pairwise (· < ·) := by
  refine List.pairwise_flatMap.2 ⟨fun k _ => ?_, ?_⟩
  · refine List.pairwise_map.2 (hr.imp fun {a b} hab => ?_)
    rw [String.lt_iff_toList_lt, String.toList_append, String.toList_append]
    exact List.append_left_lt (String.lt_iff_toList_lt.1 hab)
  · refine hk.imp_of_mem fun {k k'} hk hk' hlt x hx y hy => ?_
    obtain ⟨a, -, rfl⟩ := List.mem_map.1 hx
    obtain ⟨b, -, rfl⟩ := List.mem_map.1 hy
    rw [String.lt_iff_toList_lt, String.toList_append, String.toList_append]
    exact append_lt_append (String.lt_iff_toList_lt.1 hlt) (hp k hk k' hk' hlt.ne) _ _

/-- **Sorting keys with rests** sorts the keys. -/
theorem mergeSort_flatMap (hnd : keys.Nodup) (hr : rests.Pairwise (· < ·)) {l : List String}
    (hl : l.Perm (keys.flatMap fun k => rests.map (k ++ ·))) :
    l.mergeSort = keys.mergeSort.flatMap fun k => rests.map (k ++ ·) := by
  have hperm : keys.mergeSort.Perm keys := List.mergeSort_perm _ _
  apply mergeSort_eq (hl.trans (hperm.symm.flatMap_right _))
  apply pairwise_flatMap _ _ hr
  · intro k hk k' hk'
    exact hp k (hperm.subset hk) k' (hperm.subset hk')
  · have hsorted : keys.mergeSort.Pairwise (· ≤ ·) := by
      exact List.pairwise_mergeSort' (· ≤ ·) keys
    exact (hsorted.and (hperm.nodup_iff.2 hnd)).imp fun {a b} hab => lt_of_le_of_ne hab.1 hab.2

end

end Msyn.LexOrder
