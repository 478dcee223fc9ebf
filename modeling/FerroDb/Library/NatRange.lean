import Mathlib

/-!
# Half-open intervals of numbers

Intervals that share no number stay so when they shrink, and a list of such intervals can be
trimmed, cut and added to above.
-/

namespace FerroDb.Library

/-- The numbers from `lo` on and below `hi`. -/
@[ext] structure NatRange where
  lo : ℕ
  hi : ℕ
deriving DecidableEq

namespace NatRange

/-- No number is in both intervals. -/
def Apart (a b : NatRange) : Prop := min a.hi b.hi ≤ max a.lo b.lo

variable {a b a' : NatRange} {is : List NatRange}

lemma apart_iff_disjoint : a.Apart b ↔ Disjoint (Set.Ico a.lo a.hi) (Set.Ico b.lo b.hi) :=
  Set.Ico_disjoint_Ico.symm

lemma Apart.symm (h : a.Apart b) : b.Apart a := by
  unfold Apart at *
  omega

lemma Apart.mono (h : a.Apart b) (hlo : a.lo ≤ a'.lo) (hhi : a'.hi ≤ a.hi) : a'.Apart b := by
  unfold Apart at *
  omega

lemma Apart.mono_right (h : b.Apart a) (hlo : a.lo ≤ a'.lo) (hhi : a'.hi ≤ a.hi) : b.Apart a' :=
  (h.symm.mono hlo hhi).symm

lemma apart_of_le (h : a.hi ≤ b.lo) : a.Apart b := by
  unfold Apart
  omega

/-- Intervals in ascending order, of which no two share a number. -/
lemma pairwise_insertionSort (h : is.Pairwise Apart) :
    (is.insertionSort (·.lo ≤ ·.lo)).Pairwise Apart :=
  ((List.perm_insertionSort _ is).pairwise_iff fun {_ _} => Apart.symm).mpr h

lemma pairwise_concat (h : is.Pairwise Apart) (hi : ∀ b ∈ is, b.Apart a) :
    (is ++ [a]).Pairwise Apart :=
  List.pairwise_append.mpr ⟨h, List.pairwise_singleton _ _, fun b hb c hc => by
    rw [List.mem_singleton.mp hc]
    exact hi b hb⟩

end NatRange

end FerroDb.Library
