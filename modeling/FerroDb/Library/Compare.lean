import Mathlib.Algebra.Order.Group.Defs
import Mathlib.Order.Compare
import Mathlib.Tactic

/-!
# Comparisons

How an `Ordering` computed in steps is the comparison of two elements of a linear order.
-/

namespace FerroDb.Library

variable {α β : Type*} [LinearOrder α] [LinearOrder β]

/-- Comparing leading parts first, and rests where they agree. -/
lemma then_eq_compare {a b : α} {o : Ordering} {s t : β} (hlt : a < b → s < t)
    (hgt : b < a → t < s) (heq : a = b → o = compare s t) : (compare a b).then o = compare s t := by
  rcases lt_trichotomy a b with h | h | h
  · rw [compare_lt_iff_lt.mpr h, compare_lt_iff_lt.mpr (hlt h), Ordering.lt_then]
  · rw [compare_eq_iff_eq.mpr h, Ordering.eq_then, heq h]
  · rw [compare_gt_iff_gt.mpr h, compare_gt_iff_gt.mpr (hgt h), Ordering.gt_then]

lemma compare_strictMono {f : α → β} (hf : StrictMono f) (x y : α) :
    compare (f x) (f y) = compare x y := by
  rcases lt_trichotomy x y with h | h | h
  · rw [compare_lt_iff_lt.mpr h, compare_lt_iff_lt.mpr (hf h)]
  · rw [h, compare_eq_iff_eq.mpr rfl, compare_eq_iff_eq.mpr rfl]
  · rw [compare_gt_iff_gt.mpr h, compare_gt_iff_gt.mpr (hf h)]

lemma compare_swap (x y : α) : (compare x y).swap = compare y x := by
  rcases lt_trichotomy x y with h | h | h
  · rw [compare_lt_iff_lt.mpr h, compare_gt_iff_gt.mpr h, Ordering.swap_lt]
  · rw [h, compare_eq_iff_eq.mpr rfl, Ordering.swap_eq]
  · rw [compare_gt_iff_gt.mpr h, compare_lt_iff_lt.mpr h, Ordering.swap_gt]

lemma compare_neg [AddCommGroup α] [IsOrderedAddMonoid α] (x y : α) :
    compare (-x) (-y) = (compare x y).swap := by
  rw [compare_swap]
  rcases lt_trichotomy x y with h | h | h
  · rw [compare_gt_iff_gt.mpr (neg_lt_neg h), compare_gt_iff_gt.mpr h]
  · rw [h, compare_eq_iff_eq.mpr rfl, compare_eq_iff_eq.mpr rfl]
  · rw [compare_lt_iff_lt.mpr (neg_lt_neg h), compare_lt_iff_lt.mpr h]

/-- Keeping the first of two elements only where it stands before the other is associative, if
neither standing before nor not standing before is lost on the way. -/
lemma pick_assoc {γ : Type*} {r : γ → γ → Prop} [DecidableRel r] {a b c : γ}
    (htrans : r a b → r b c → r a c) (hneg : ¬ r a b → ¬ r b c → ¬ r a c) :
    (if r (if r a b then a else b) c then (if r a b then a else b) else c) =
      if r a (if r b c then b else c) then a else if r b c then b else c := by
  by_cases hab : r a b <;> by_cases hbc : r b c
  · simp [hab, hbc, htrans hab hbc]
  · simp [hab, hbc]
  · simp [hab, hbc]
  · simp [hab, hbc, hneg hab hbc]

end FerroDb.Library
