import Mathlib.Data.List.Basic
import Mathlib.Logic.Relation
import Mathlib.Tactic

/-!
# Marking what lies above

Every element has at most one above it. A walk marks what lies above an element and stops at what
is marked already, so it ends on a cycle too; walks from several elements together mark what can
be reached from one of them.

## Main definitions

* `markAbove next fuel up marked`: one walk, of no more than `fuel` steps.
* `markAll next fuel seeds marked`: the seeds are marked, each with a walk above it.
-/

namespace FerroDb.Library

open List Option

variable {α : Type} [DecidableEq α]

/-- Marks `up` and what lies above it, to the first that is marked; `none` if that takes more
than `fuel` steps. -/
def markAbove (next : α → Option α) : ℕ → Option α → List α → Option (List α)
  | _, none, marked => some marked
  | 0, some _, _ => none
  | fuel + 1, some x, marked =>
    if x ∈ marked then some marked else markAbove next fuel (next x) (x :: marked)

/-- Marks the seeds in turn, each with what lies above it. -/
def markAll (next : α → Option α) (fuel : ℕ) : List α → List α → Option (List α)
  | [], marked => some marked
  | s :: seeds, marked =>
    match markAbove next fuel (next s) (marked.insert s) with
    | some marked => markAll next fuel seeds marked
    | none => none

/-- What lies above a marked element is marked, unless the walk is about to mark it. -/
def ClosedUpTo (next : α → Option α) (up : Option α) (marked : List α) : Prop :=
  ∀ x ∈ marked, ∀ y, next x = some y → y ∈ marked ∨ up = some y

/-- `y` can be reached from `x`. -/
def Above (next : α → Option α) : α → α → Prop := Relation.ReflTransGen fun x y => next x = some y

variable {next : α → Option α} {fuel : ℕ} {up : Option α} {marked result seeds : List α} {s x : α}
  {all : List α} {fuel' : ℕ}

/-- A walk marks more, keeps to what lies above, and leaves nothing open. -/
structure Walked (next : α → Option α) (up : Option α) (marked result : List α) : Prop where
  mono : ∀ x ∈ marked, x ∈ result
  above : ∀ x ∈ result, x ∈ marked ∨ ∃ u, up = some u ∧ Above next u x
  closed : ClosedUpTo next none result

lemma walked_markAbove (h : markAbove next fuel up marked = some result)
    (hclosed : ClosedUpTo next up marked) : Walked next up marked result := by
  fun_induction markAbove next fuel up marked with
  | case1 fuel marked =>
    obtain rfl := some.inj h
    exact ⟨fun _ hx => hx, fun _ hx => .inl hx, hclosed⟩
  | case2 marked x => simp at h
  | case3 fuel x marked hx =>
    obtain rfl := some.inj h
    refine ⟨fun _ hx => hx, fun _ hx => .inl hx, fun y hy z hz => .inl ?_⟩
    rcases hclosed y hy z hz with hmem | heq
    · exact hmem
    · obtain rfl := some.inj heq
      exact hx
  | case4 fuel x marked hx ih =>
    have hstep : ClosedUpTo next (next x) (x :: marked) := by
      intro y hy z hz
      rcases mem_cons.mp hy with rfl | hy
      · exact .inr hz
      · rcases hclosed y hy z hz with hmem | heq
        · exact .inl (.tail _ hmem)
        · obtain rfl := some.inj heq
          exact .inl mem_cons_self
    have hrest := ih h hstep
    refine ⟨fun y hy => hrest.mono y (.tail _ hy), fun y hy => ?_, hrest.closed⟩
    rcases hrest.above y hy with hy | ⟨u, hu, huy⟩
    · rcases mem_cons.mp hy with rfl | hy
      · exact .inr ⟨y, rfl, .refl⟩
      · exact .inl hy
    · exact .inr ⟨x, rfl, .head hu huy⟩

/-- Walks from all seeds mark more, keep to what lies above a seed, and leave nothing open. -/
lemma markAll_spec (h : markAll next fuel seeds marked = some result)
    (hclosed : ClosedUpTo next none marked) : (∀ x, x ∈ marked ∨ x ∈ seeds → x ∈ result) ∧
      (∀ x ∈ result, x ∈ marked ∨ ∃ s ∈ seeds, Above next s x) ∧
      ClosedUpTo next none result := by
  induction seeds generalizing marked with
  | nil =>
    obtain rfl := some.inj h
    exact ⟨by simp, fun x hx => .inl hx, hclosed⟩
  | cons s seeds ih =>
    rw [markAll] at h
    cases hwalk : markAbove next fuel (next s) (marked.insert s) with
    | none => simp [hwalk] at h
    | some marked' =>
      simp only [hwalk] at h
      have hstart : ClosedUpTo next (next s) (marked.insert s) := by
        intro x hx y hy
        rcases mem_insert_iff.mp hx with rfl | hx
        · exact .inr hy
        · rcases hclosed x hx y hy with hmem | hnone
          · exact .inl (mem_insert_of_mem hmem)
          · simp at hnone
      have hone := walked_markAbove hwalk hstart
      obtain ⟨hmono, habove, hrest⟩ := ih h hone.closed
      refine ⟨fun x hx => hmono x ?_, fun x hx => ?_, hrest⟩
      · rcases hx with hx | hx
        · exact .inl (hone.mono x (mem_insert_of_mem hx))
        · rcases mem_cons.mp hx with rfl | hx
          · exact .inl (hone.mono x mem_insert_self)
          · exact .inr hx
      · rcases habove x hx with hx | ⟨s', hs', hx⟩
        · rcases hone.above x hx with hx | ⟨u, hu, hx⟩
          · rcases mem_insert_iff.mp hx with rfl | hx
            · exact .inr ⟨x, mem_cons_self, .refl⟩
            · exact .inl hx
          · exact .inr ⟨s, mem_cons_self, .head hu hx⟩
        · exact .inr ⟨s', mem_cons_of_mem _ hs', hx⟩

/-- What is marked in the end is what can be reached from a seed. -/
lemma mem_markAll (h : markAll next fuel seeds [] = some result) :
    x ∈ result ↔ ∃ s ∈ seeds, Above next s x := by
  obtain ⟨hmono, habove, hclosed⟩ := markAll_spec h (by simp [ClosedUpTo])
  refine ⟨fun hx => by simpa using habove x hx, ?_⟩
  rintro ⟨s, hs, hx⟩
  induction hx with
  | refl => exact hmono s (.inr hs)
  | tail _ hstep ih => simpa using hclosed _ ih _ hstep

/-! ## Walks end -/

/-- Each step of a walk marks one more of finitely many elements. -/
lemma markAbove_ends (hnext : ∀ x y, next x = some y → y ∈ all)
    (hup : ∀ x, up = some x → x ∈ all) (hfuel : (all.filter (· ∉ marked)).length ≤ fuel) :
    ∃ result, markAbove next (fuel + 1) up marked = some result := by
  induction fuel generalizing up marked with
  | zero =>
    cases up with
    | none => exact ⟨marked, rfl⟩
    | some x =>
      have hx : x ∈ marked := by
        have hnil := length_eq_zero_iff.mp (Nat.le_zero.mp hfuel)
        simpa using filter_eq_nil_iff.mp hnil x (hup x rfl)
      exact ⟨marked, by simp [markAbove, hx]⟩
  | succ fuel ih =>
    cases up with
    | none => exact ⟨marked, rfl⟩
    | some x =>
      by_cases hx : x ∈ marked
      · exact ⟨marked, by simp [markAbove, hx]⟩
      · have hless : (all.filter (· ∉ x :: marked)).length < (all.filter (· ∉ marked)).length := by
          have hsub : all.filter (· ∉ x :: marked) = (all.filter (· ∉ marked)).filter (· ≠ x) := by
            simp
          rw [hsub]
          refine length_filter_lt_length_iff_exists.mpr ⟨x, ?_, by simp⟩
          simp [hup x rfl, hx]
        obtain ⟨result, hresult⟩ : ∃ result, markAbove next (fuel + 1) (next x) (x :: marked) =
            some result := ih (hnext x) (by omega)
        exact ⟨result, by rw [markAbove, if_neg hx, hresult]⟩

lemma markAbove_ends_all (hnext : ∀ x y, next x = some y → y ∈ all)
    (hup : ∀ x, up = some x → x ∈ all) (hfuel : all.length < fuel) :
    ∃ result, markAbove next fuel up marked = some result := by
  obtain ⟨fuel, rfl⟩ : ∃ n, fuel = n + 1 := ⟨fuel - 1, by omega⟩
  exact markAbove_ends hnext hup ((length_filter_le _ _).trans (by omega))

lemma markAll_ends (hnext : ∀ x y, next x = some y → y ∈ all)
    (hfuel : all.length < fuel) : ∃ result, markAll next fuel seeds marked = some result := by
  induction seeds generalizing marked with
  | nil => exact ⟨marked, rfl⟩
  | cons s seeds ih =>
    obtain ⟨marked', hwalk⟩ : ∃ marked', markAbove next fuel (next s) (marked.insert s) =
        some marked' := markAbove_ends_all hnext (hnext s) hfuel
    obtain ⟨result, hresult⟩ : ∃ result, markAll next fuel seeds marked' = some result := ih
    exact ⟨result, by rw [markAll, hwalk]; exact hresult⟩

lemma markAbove_mono (h : markAbove next fuel up marked = some result)
    (hle : fuel ≤ fuel') : markAbove next fuel' up marked = some result := by
  induction fuel generalizing fuel' up marked with
  | zero =>
    cases up with
    | none => simpa [markAbove] using h
    | some x => simp [markAbove] at h
  | succ fuel ih =>
    obtain ⟨fuel', rfl⟩ : ∃ n, fuel' = n + 1 := ⟨fuel' - 1, by omega⟩
    cases up with
    | none => simpa [markAbove] using h
    | some x =>
      rw [markAbove] at h ⊢
      split_ifs at h ⊢
      · exact h
      · exact ih h (by omega)

lemma markAll_mono (h : markAll next fuel seeds marked = some result)
    (hle : fuel ≤ fuel') : markAll next fuel' seeds marked = some result := by
  induction seeds generalizing marked with
  | nil => exact h
  | cons s seeds ih =>
    rw [markAll] at h ⊢
    cases hwalk : markAbove next fuel (next s) (marked.insert s) with
    | none => simp [hwalk] at h
    | some marked' =>
      rw [markAbove_mono hwalk hle]
      simp only [hwalk] at h
      exact ih h

end FerroDb.Library
