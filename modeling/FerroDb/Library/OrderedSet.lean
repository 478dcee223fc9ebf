import Mathlib.Data.List.Sort
import Mathlib.Tactic

/-!
# Ordered sets and their lists

A list that ascends strictly in some number of its elements is determined by what is in it. So the
list of an ordered set of numbers is.
-/

namespace FerroDb.Library

open Std.TreeSet
open Std (LawfulEqCmp LawfulEqOrd TransOrd TreeMap TreeSet)

variable {α γ : Type} {f : α → ℕ} {l m : List α}

lemma nodup_of_sortedBy (h : l.Pairwise (f · < f ·)) : l.Nodup :=
  h.imp fun hlt heq => by simp [heq] at hlt

lemma eq_of_sortedBy (hl : l.Pairwise (f · < f ·)) (hm : m.Pairwise (f · < f ·))
    (h : ∀ a, a ∈ l ↔ a ∈ m) : l = m := by
  refine List.Perm.eq_of_pairwise (fun a b _ _ hab hba => ?_) hl hm
    ((List.perm_ext_iff_of_nodup (nodup_of_sortedBy hl) (nodup_of_sortedBy hm)).mpr h)
  exact absurd hba (lt_asymm hab)

/-- Sorting puts elements of different numbers in strict order. -/
lemma sortedBy_insertionSort (h : l.Pairwise (f · ≠ f ·)) :
    (l.insertionSort (f · ≤ f ·)).Pairwise (f · < f ·) := by
  have hle := List.pairwise_insertionSort (fun a b : α => f a ≤ f b) l
  have hne : (l.insertionSort (f · ≤ f ·)).Pairwise (f · ≠ f ·) :=
    ((List.perm_insertionSort _ l).pairwise_iff fun {_ _} => Ne.symm).mpr h
  exact hle.imp₂ (fun _ _ hab hne => lt_of_le_of_ne hab hne) hne

lemma insertionSort_of_sortedBy (h : l.Pairwise (f · < f ·)) : l.insertionSort (f · ≤ f ·) = l :=
  (h.imp le_of_lt).insertionSort_eq

/-! ## Trees of elements -/

section

variable {β : Type} [Ord β] [TransOrd β] [LawfulEqOrd β] {s : TreeSet β} {a k : β}

lemma mem_insert_iff : a ∈ s.insert k ↔ a = k ∨ a ∈ s := by
  rw [mem_insert, LawfulEqCmp.compare_eq_iff_eq, eq_comm]

lemma mem_erase_iff : a ∈ s.erase k ↔ a ∈ s ∧ a ≠ k := by
  rw [mem_erase, ne_eq, LawfulEqCmp.compare_eq_iff_eq, and_comm, ne_comm]

lemma getElem?_insert_if [DecidableEq β] {m : TreeMap β γ} {v : γ} :
    (m.insert k v)[a]? = if a = k then some v else m[a]? := by
  rw [TreeMap.getElem?_insert]
  by_cases h : a = k
  · rw [if_pos h, if_pos (LawfulEqCmp.compare_eq_iff_eq.mpr h.symm)]
  · rw [if_neg h, if_neg fun hc => h (LawfulEqCmp.compare_eq_iff_eq.mp hc).symm]

lemma getElem?_erase_if [DecidableEq β] {m : TreeMap β γ} :
    (m.erase k)[a]? = if a = k then none else m[a]? := by
  rw [TreeMap.getElem?_erase]
  by_cases h : a = k
  · rw [if_pos h, if_pos (LawfulEqCmp.compare_eq_iff_eq.mpr h.symm)]
  · rw [if_neg h, if_neg fun hc => h (LawfulEqCmp.compare_eq_iff_eq.mp hc).symm]

lemma mem_foldl_insert (l : List β) :
    ∀ s : TreeSet β, a ∈ l.foldl TreeSet.insert s ↔ a ∈ l ∨ a ∈ s := by
  induction l with
  | nil => simp
  | cons x l ih =>
    intro s
    rw [List.foldl_cons, ih, mem_insert_iff, List.mem_cons]
    tauto

lemma mem_foldl_erase {keep : β → Prop} [DecidablePred keep] (l : List β) :
    ∀ s : TreeSet β, a ∈ l.foldl (fun s a => if keep a then s else s.erase a) s ↔
      a ∈ s ∧ (a ∈ l → keep a) := by
  induction l with
  | nil => simp
  | cons x l ih =>
    intro s
    rw [List.foldl_cons, ih, List.mem_cons]
    by_cases hx : keep x
    · rw [if_pos hx]
      refine and_congr_right fun _ => ⟨fun h hal => ?_, fun h hal => h (.inr hal)⟩
      rcases hal with rfl | hal
      · exact hx
      · exact h hal
    · rw [if_neg hx, mem_erase_iff]
      constructor
      · rintro ⟨⟨hs, hne⟩, hl⟩
        exact ⟨hs, fun hal => hal.elim (fun heq => absurd heq hne) hl⟩
      · rintro ⟨hs, hl⟩
        refine ⟨⟨hs, ?_⟩, fun hal => hl (.inr hal)⟩
        rintro rfl
        exact hx (hl (.inl rfl))

end

lemma toList_sorted (s : TreeSet ℕ) : s.toList.Pairwise (· < ·) :=
  (ordered_toList (t := s)).imp fun h => Nat.compare_eq_lt.mp h

lemma toList_eq_of_mem {s : TreeSet ℕ} {l : List ℕ} (hl : l.Pairwise (· < ·))
    (h : ∀ a, a ∈ s ↔ a ∈ l) : s.toList = l :=
  eq_of_sortedBy (f := id) (toList_sorted s) hl fun a => mem_toList.trans (h a)

end FerroDb.Library
