import Mathlib.Data.Finset.Card
import Mathlib.Logic.Relation
import Mathlib.Tactic

/-!
# Searching with a stack

A search keeps what it has seen and a stack of what it has still to look behind. With enough turns
it sees exactly what can be reached from where it began, on a cyclic graph too.

## Main definitions

* `push s d`: what is met for the first time is noted and goes on the stack.
* `search next fuel s`: what has been seen when the stack is empty, after at most `fuel` turns.
-/

namespace FerroDb.Library

open List Relation

variable {α : Type} [DecidableEq α]

/-- The state is what has been seen, and the stack, its top first. -/
def push (s : List α × List α) (d : α) : List α × List α :=
  if d ∈ s.1 then s else (s.1 ++ [d], d :: s.2)

def search (next : α → List α) : ℕ → List α × List α → List α
  | 0, (seen, _) | _ + 1, (seen, []) => seen
  | fuel + 1, (seen, cur :: stack) => search next fuel ((next cur).foldl push (seen, stack))

variable {next : α → List α} {fuel : ℕ} {xs all : List α} {s : List α × List α} {v : α}

@[grind =] lemma mem_foldl_push_seen : v ∈ (xs.foldl push s).1 ↔ v ∈ s.1 ∨ v ∈ xs := by
  induction xs generalizing s with
  | nil => simp
  | cons x xs ih => grind [push]

@[grind =] lemma mem_foldl_push_stack :
    v ∈ (xs.foldl push s).2 ↔ v ∈ s.2 ∨ v ∈ xs ∧ v ∉ s.1 := by
  induction xs generalizing s with
  | nil => simp
  | cons x xs ih => grind [push]

/-- A turn for each on the stack, and for each that may still get there. -/
def turns (all : List α) (s : List α × List α) : ℕ :=
  (all.toFinset.filter (· ∉ s.1)).card + s.2.length

lemma turns_foldl_push (hxs : xs ⊆ all) : turns all (xs.foldl push s) ≤ turns all s := by
  induction xs generalizing s with
  | nil => exact le_rfl
  | cons x xs ih =>
    obtain ⟨hx, hxs⟩ := cons_subset.mp hxs
    refine (ih hxs).trans ?_
    by_cases hseen : x ∈ s.1
    · simp [push, hseen]
    · have hlt : (all.toFinset.filter (· ∉ s.1 ++ [x])).card <
          (all.toFinset.filter (· ∉ s.1)).card := by
        apply Finset.card_lt_card
        refine (Finset.ssubset_iff_of_subset ?_).mpr ⟨x, ?_, ?_⟩ <;> grind [mem_toFinset]
      simp only [push, hseen, turns, if_false, length_cons]
      omega

omit [DecidableEq α] in
/-- What is closed holds all that can be reached from it. -/
lemma mem_iff_reached {seen : List α} (hclosed : ∀ u ∈ seen, next u ⊆ seen) :
    v ∈ seen ↔ ∃ u ∈ seen, ReflTransGen (fun a b => b ∈ next a) u v := by
  refine ⟨fun hv => ⟨v, hv, .refl⟩, ?_⟩
  rintro ⟨u, hu, hpath⟩
  induction hpath with
  | refl => exact hu
  | tail _ hstep ih => exact hclosed _ ih hstep

/-- Enough turns see what can be reached from what was seen. -/
lemma mem_search (hall : ∀ u, next u ⊆ all) (hstack : s.2 ⊆ s.1)
    (hclosed : ∀ u ∈ s.1, u ∉ s.2 → next u ⊆ s.1) (hfuel : turns all s ≤ fuel) :
    v ∈ search next fuel s ↔ ∃ u ∈ s.1, ReflTransGen (fun a b => b ∈ next a) u v := by
  fun_induction search next fuel s with
  | case1 seen stack =>
    obtain rfl : stack = [] := length_eq_zero_iff.mp (by grind [turns])
    exact mem_iff_reached fun u hu => hclosed u hu not_mem_nil
  | case2 fuel seen => exact mem_iff_reached fun u hu => hclosed u hu not_mem_nil
  | case3 fuel seen cur stack ih =>
    have hturns := turns_foldl_push (s := (seen, stack)) (hall cur)
    rw [ih (by grind) (by grind) (by grind [turns])]
    constructor
    · rintro ⟨u, hu, hpath⟩
      rcases mem_foldl_push_seen.mp hu with hu | hu
      · exact ⟨u, hu, hpath⟩
      · exact ⟨cur, hstack mem_cons_self, .head hu hpath⟩
    · rintro ⟨u, hu, hpath⟩
      exact ⟨u, mem_foldl_push_seen.mpr (.inl hu), hpath⟩

end FerroDb.Library
