import Mathlib.Algebra.BigOperators.Group.Finset.Basic
import Mathlib.Algebra.Order.BigOperators.Group.Finset
import Mathlib.Tactic

/-!
# Sums over the values of an ordered map

An absent key counts as zero. A sum is compared with another through the values at the keys, so
that a change at one key changes the sum by what it changed there.
-/

namespace FerroDb.Library

open Std Finset Prod

variable {α β : Type} {cmp : α → α → Ordering} [TransCmp cmp] [LawfulEqCmp cmp]

/-- The number that stands for the value at a key. -/
def measureAt (f : β → ℤ) (t : TreeMap α β cmp) (k : α) : ℤ := t[k]?.elim 0 f

def total (f : β → ℤ) (t : TreeMap α β cmp) : ℤ := (t.toList.map fun e => f e.2).sum

variable {f : β → ℤ} {t t' : TreeMap α β cmp} {k : α}

lemma total_eq_sum [DecidableEq α] {s : Finset α} (hs : ∀ k, t[k]? ≠ none → k ∈ s) :
    total f t = ∑ k ∈ s, measureAt f t k := by
  have hnodup : (t.toList.map fst).Nodup := by
    refine List.pairwise_map.mpr (t.distinct_keys_toList.imp fun {a b} h heq => ?_)
    rw [heq] at h
    exact h ReflCmp.compare_self
  have hkeys : (t.toList.map fst).toFinset ⊆ s := by
    intro k hk
    obtain ⟨e, he, rfl⟩ := List.mem_map.mp (List.mem_toFinset.mp hk)
    have hget : t[e.1]? = some e.2 := TreeMap.mem_toList_iff_getElem?_eq_some.mp he
    exact hs e.1 (by simp [hget])
  have hzero : ∀ k ∈ s, k ∉ (t.toList.map fst).toFinset → measureAt f t k = 0 := by
    intro k _ hk
    cases hget : t[k]? with
    | none => simp [measureAt, hget]
    | some v =>
      have hmem : (k, v) ∈ t.toList := TreeMap.mem_toList_iff_getElem?_eq_some.mpr hget
      exact absurd (List.mem_toFinset.mpr (List.mem_map.mpr ⟨_, hmem, rfl⟩)) hk
  rw [← sum_subset hkeys hzero, List.sum_toFinset _ hnodup, List.map_map]
  refine congrArg List.sum (List.map_congr_left fun e he => ?_)
  have hget : t[e.1]? = some e.2 := TreeMap.mem_toList_iff_getElem?_eq_some.mp he
  simp [measureAt, hget]

/-- A finite set with all keys of two maps and one key more. -/
lemma exists_keys [DecidableEq α] (t t' : TreeMap α β cmp) (k : α) :
    ∃ s : Finset α, k ∈ s ∧ (∀ k, t[k]? ≠ none → k ∈ s) ∧ ∀ k, t'[k]? ≠ none → k ∈ s := by
  have hmem (t : TreeMap α β cmp) (k : α) (h : t[k]? ≠ none) :
      k ∈ (t.toList.map fst).toFinset := by
    obtain ⟨v, hv⟩ := Option.ne_none_iff_exists'.mp h
    exact List.mem_toFinset.mpr
      (List.mem_map.mpr ⟨(k, v), TreeMap.mem_toList_iff_getElem?_eq_some.mpr hv, rfl⟩)
  refine ⟨insert k ((t.toList.map fst).toFinset ∪ (t'.toList.map fst).toFinset),
    mem_insert_self _ _, fun k' h => ?_, fun k' h => ?_⟩
  · exact mem_insert_of_mem (mem_union_left _ (hmem t k' h))
  · exact mem_insert_of_mem (mem_union_right _ (hmem t' k' h))

/-- Maps that agree but at one key differ by what they hold there. -/
lemma total_of_agree [DecidableEq α] (h : ∀ k', k' ≠ k → t'[k']? = t[k']?) :
    total f t' = total f t - measureAt f t k + measureAt f t' k := by
  obtain ⟨s, hk, hs, hs'⟩ := exists_keys t t' k
  have hrest : ∑ x ∈ s.erase k, measureAt f t' x = ∑ x ∈ s.erase k, measureAt f t x :=
    sum_congr rfl fun x hx => by rw [measureAt, measureAt, h x (ne_of_mem_erase hx)]
  rw [total_eq_sum hs, total_eq_sum hs', ← add_sum_erase s _ hk,
    ← add_sum_erase s (measureAt f t) hk, hrest]
  ring

lemma total_mono [DecidableEq α] {g : β → ℤ} [Inhabited α]
    (h : ∀ k, measureAt f t k ≤ measureAt g t' k) : total f t ≤ total g t' := by
  obtain ⟨s, -, hs, hs'⟩ := exists_keys t t' default
  rw [total_eq_sum hs, total_eq_sum hs']
  exact sum_le_sum fun k _ => h k

lemma measureAt_le_total [DecidableEq α] (h : ∀ k, 0 ≤ measureAt f t k) (k : α) :
    measureAt f t k ≤ total f t := by
  obtain ⟨s, hk, hs, -⟩ := exists_keys t t k
  rw [total_eq_sum hs]
  exact single_le_sum (fun k _ => h k) hk

omit [TransCmp cmp] [LawfulEqCmp cmp] in
@[simp] lemma total_empty : total f (∅ : TreeMap α β cmp) = 0 := rfl

end FerroDb.Library
