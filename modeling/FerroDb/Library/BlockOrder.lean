import Mathlib.Data.List.Lex
import Mathlib.Tactic

/-!
# The order of lists that start with blocks of one length

Lists in lexicographic order that start with blocks of the same length compare by the blocks
first. A bare block is below every list that starts with it.
-/

namespace FerroDb.Library

variable {α : Type} [LinearOrder α] {a b xs ys : List α}

lemma append_lt_append_iff (h : a.length = b.length) :
    a ++ xs < b ++ ys ↔ a < b ∨ a = b ∧ xs < ys := by
  induction a generalizing b with
  | nil =>
    obtain rfl := List.length_eq_zero_iff.mp h.symm
    simp
  | cons x a ih =>
    obtain ⟨y, b, rfl⟩ := List.exists_of_length_succ b h.symm
    have hrest := ih (Nat.succ.inj h)
    simp only [List.cons_append, List.cons_lt_cons_iff, List.cons.injEq]
    tauto

lemma append_lt_block_iff (h : a.length = b.length) : a ++ xs < b ↔ a < b := by
  have hlt : a ++ xs < b ++ [] ↔ a < b ∨ a = b ∧ xs < [] := append_lt_append_iff h
  simpa using hlt

lemma cons_lt_singleton_iff {x y : α} : x :: xs < [y] ↔ x < y := by
  rw [List.cons_lt_cons_iff]
  simp

end FerroDb.Library
