import Mathlib.Data.Finset.Card
import Mathlib.Data.List.Sort
import Mathlib.Tactic

/-!
# Majorities of a finite set

A majority of `voters` is a set of voters more than half their number. Any two of
them share a member, which is the one fact about quorums that agreement rests on.
-/

namespace FerroDb.Library

open Finset List

variable {N : Type*} {voters P Q : Finset N}

/-- `Q` is a strict majority of `voters`. -/
def IsMajority (voters Q : Finset N) : Prop :=
  Q ⊆ voters ∧ voters.card < 2 * Q.card

/-- Two majorities of one set of voters have a voter in common. -/
lemma IsMajority.exists_mem_inter [DecidableEq N]
    (hP : IsMajority voters P) (hQ : IsMajority voters Q) : ∃ v, v ∈ P ∧ v ∈ Q := by
  have hlt : voters.card < P.card + Q.card := by
    have := hP.2
    have := hQ.2
    omega
  obtain ⟨v, hv⟩ := inter_nonempty_of_card_lt_card_add_card hP.1 hQ.1 hlt
  exact ⟨v, mem_inter.mp hv⟩

/-- So have majorities of two sets that differ in one voter. -/
lemma IsMajority.exists_mem_inter_of_erase [DecidableEq N] {V W : Finset N} {n : N}
    (hP : IsMajority V P) (hQ : IsMajority W Q) (h : V.erase n = W.erase n) :
    ∃ v, v ∈ P ∧ v ∈ Q := by
  rcases eq_or_ne V W with rfl | hne
  · exact hP.exists_mem_inter hQ
  · have hone : n ∈ V ∨ n ∈ W := by
      by_contra hn
      rw [not_or] at hn
      exact hne (by rw [← erase_eq_of_notMem hn.1, h, erase_eq_of_notMem hn.2])
    have hcard : (insert n (V.erase n)).card < P.card + Q.card := by
      have hV := card_le_card (V.erase_subset n)
      have hW := card_le_card (W.erase_subset n)
      have hPV := hP.2
      have hQW := hQ.2
      rw [card_insert_of_notMem (V.notMem_erase n)]
      rw [← h] at hW
      rcases hone with hn | hn
      · rw [← card_erase_add_one hn] at hPV
        omega
      · rw [← card_erase_add_one hn, ← h] at hQW
        omega
    obtain ⟨v, hv⟩ := inter_nonempty_of_card_lt_card_add_card
      (hP.1.trans (insert_erase_subset n V))
      (hQ.1.trans (h ▸ insert_erase_subset n W)) hcard
    exact ⟨v, mem_inter.mp hv⟩

/-- A count of at least `card / 2 + 1` voters is a majority. -/
lemma isMajority_of_half_lt (hsub : Q ⊆ voters)
    (hcard : voters.card / 2 + 1 ≤ Q.card) : IsMajority voters Q :=
  ⟨hsub, by omega⟩

/-- At least `k` members of a list reach the `k`-th largest of their values. -/
lemma le_card_of_insertionSort [DecidableEq N] {l : List N} (hl : l.Nodup) (f : N → ℕ)
    {k q : ℕ} (h : ((l.map f).insertionSort (· ≥ ·))[k]? = some q) :
    k + 1 ≤ (l.toFinset.filter fun n => q ≤ f n).card := by
  set m := (l.map f).insertionSort (· ≥ ·) with hm
  have hsorted : m.Pairwise (· ≥ ·) := pairwise_insertionSort _ _
  obtain ⟨hk, hq⟩ := List.getElem?_eq_some_iff.mp h
  have hfirst : ∀ a ∈ m.take (k + 1), q ≤ a := by
    intro a ha
    obtain ⟨j, hj, rfl⟩ := getElem_of_mem ha
    rw [length_take] at hj
    rw [getElem_take, ← hq]
    rcases Nat.lt_or_ge j k with hlt | hge
    · exact pairwise_iff_getElem.mp hsorted j k (by omega) hk hlt
    · have : j = k := by omega
      subst this
      exact le_rfl
  calc k + 1 = (m.take (k + 1)).countP (q ≤ ·) := by
        rw [countP_eq_length.mpr (by simpa using hfirst), length_take]
        omega
    _ ≤ m.countP (q ≤ ·) := (take_sublist _ _).countP_le
    _ = (l.map f).countP (q ≤ ·) := (perm_insertionSort _ _).countP_eq _
    _ = (l.toFinset.filter fun n => q ≤ f n).card := by
        rw [countP_map, countP_eq_length_filter,
          ← toFinset_card_of_nodup (hl.filter _)]
        simp

end FerroDb.Library
