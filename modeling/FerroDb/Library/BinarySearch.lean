import Mathlib.Data.List.Sort
import Mathlib.Tactic

/-!
# Binary search

The search of a slice by key, as Rust's standard library does it: each round keeps the upper half
of what is left unless its first element is beyond the target. In a list of ascending keys it finds
the element of a key if there is one, and the place for it if not.
-/

namespace FerroDb.Library.BinarySearch

open List

variable {α κ : Type} [LinearOrder κ]

/-- Where the last element that is not beyond the target stands, among `size` elements. -/
def narrow (key : α → κ) (xs : List α) (target : κ) (base size : ℕ) : ℕ :=
  if 1 < size then
    let half := size / 2
    let mid := base + half
    let base := if (xs[mid]?).any fun x => target < key x then base else mid
    narrow key xs target base (size - half)
  else base
termination_by size

/-- The place of the target, or the place where it would stand. -/
def search (key : α → κ) (xs : List α) (target : κ) : Except ℕ ℕ :=
  let base := narrow key xs target 0 xs.length
  match xs[base]? with
  | none => .error 0
  | some x =>
    if key x = target then .ok base else .error (if key x < target then base + 1 else base)

variable {key : α → κ} {xs : List α}

section

variable (hs : xs.Pairwise fun a b => key a < key b)
include hs

lemma key_le_of_le {i j : ℕ} (hij : i ≤ j) {a b : α}
    (ha : xs[i]? = some a) (hb : xs[j]? = some b) : key a ≤ key b := by
  obtain ⟨hi, rfl⟩ := List.getElem?_eq_some_iff.mp ha
  obtain ⟨hj, rfl⟩ := List.getElem?_eq_some_iff.mp hb
  rcases hij.eq_or_lt with rfl | hlt
  · exact le_rfl
  · exact (pairwise_iff_getElem.mp hs i j hi hj hlt).le

lemma narrow_spec (target : κ) {base size : ℕ} (hsize : 0 < size) (hfit : base + size ≤ xs.length)
    (hlo : base = 0 ∨ ∀ x, xs[base]? = some x → key x ≤ target)
    (hhi : ∀ x, xs[base + size]? = some x → target < key x) :
    let place := narrow key xs target base size
    place < xs.length ∧ (place = 0 ∨ ∀ x, xs[place]? = some x → key x ≤ target) ∧
      ∀ x, xs[place + 1]? = some x → target < key x := by
  fun_induction narrow key xs target base size with
  | case1 base size h half mid base' ih =>
    apply ih
    · omega
    · simp only [base']
      split_ifs <;> omega
    · simp only [base']
      split_ifs with hbeyond
      · exact hlo
      · refine .inr fun x hx => ?_
        rw [hx] at hbeyond
        simpa using hbeyond
    · simp only [base']
      split_ifs with hbeyond
      · obtain ⟨m, hm, hlt⟩ := (Option.any_eq_true _ _).mp hbeyond
        intro x hx
        exact (of_decide_eq_true hlt).trans_le (key_le_of_le hs (by omega) hm hx)
      · rwa [show mid + (size - half) = base + size by omega]
  | case2 base size h =>
    have : size = 1 := by omega
    exact ⟨by omega, hlo, this ▸ hhi⟩

/-- What a search of ascending keys finds: an element of the key between smaller and larger ones,
or only smaller and larger ones. -/
lemma search_spec (target : κ) :
    ∃ before after, (∀ x ∈ before, key x < target) ∧ (∀ x ∈ after, target < key x) ∧
      ((∃ x, key x = target ∧ xs = before ++ x :: after ∧
          search key xs target = .ok before.length) ∨
        xs = before ++ after ∧ search key xs target = .error before.length) := by
  rcases xs.eq_nil_or_concat with rfl | ⟨_, _, hne⟩
  · exact ⟨[], [], by simp, by simp, .inr ⟨rfl, by simp [search]⟩⟩
  have hlen : 0 < xs.length := by simp [hne]
  obtain ⟨hplace, hlo, hhi⟩ := narrow_spec hs target hlen (zero_add _).le (.inl rfl) (by simp)
  set place := narrow key xs target 0 xs.length with hdef
  obtain ⟨x, hx⟩ : ∃ x, xs[place]? = some x := ⟨_, getElem?_eq_getElem hplace⟩
  have hsplit : xs = xs.take place ++ x :: xs.drop (place + 1) := by
    obtain ⟨h, rfl⟩ := List.getElem?_eq_some_iff.mp hx
    rw [← drop_eq_getElem_cons h, take_append_drop]
  have hafter : ∀ y ∈ xs.drop (place + 1), target < key y := by
    intro y hy
    obtain ⟨j, hj⟩ := mem_iff_getElem?.mp hy
    rw [getElem?_drop] at hj
    obtain ⟨z, hz⟩ : ∃ z, xs[place + 1]? = some z := by
      obtain ⟨h, -⟩ := List.getElem?_eq_some_iff.mp hj
      exact ⟨_, getElem?_eq_getElem (by omega)⟩
    exact (hhi z hz).trans_le (key_le_of_le hs (by omega) hz hj)
  have hbefore : ∀ y ∈ xs.take place, key y < key x := by
    rw [hsplit] at hs
    exact fun y hy => (pairwise_append.mp hs).2.2 y hy x mem_cons_self
  have hsearch : search key xs target = if key x = target then .ok place
      else .error (if key x < target then place + 1 else place) := by
    simp [search, ← hdef, hx]
  have hlength : (xs.take place).length = place := by simp [hplace.le]
  rcases lt_trichotomy (key x) target with hlt | heq | hgt
  · refine ⟨xs.take place ++ [x], xs.drop (place + 1), fun y hy => ?_, hafter, .inr ⟨?_, ?_⟩⟩
    · rcases mem_append.mp hy with hy | hy
      · exact (hbefore y hy).trans hlt
      · exact mem_singleton.mp hy ▸ hlt
    · simpa using hsplit
    · rw [hsearch, if_neg hlt.ne, if_pos hlt, length_append, hlength]
      rfl
  · refine ⟨xs.take place, xs.drop (place + 1), heq ▸ hbefore, hafter, .inl ⟨x, heq, hsplit, ?_⟩⟩
    rw [hsearch, if_pos heq, hlength]
  · -- Only the first element can be beyond the target.
    have hzero : place = 0 := hlo.resolve_right fun h => absurd (h x hx) (not_le.mpr hgt)
    refine ⟨[], xs, by simp, fun y hy => ?_, .inr ⟨rfl, ?_⟩⟩
    · rw [hsplit, hzero] at hy
      rcases mem_cons.mp hy with rfl | hy
      · exact hgt
      · exact hafter y (hzero ▸ hy)
    · rw [hsearch, if_neg hgt.ne', if_neg hgt.not_gt, hzero]
      rfl

/-- Halving finds what going through the list finds. -/
lemma search_eq_find? (target : κ) : (match search key xs target with
      | .ok i => xs[i]?
      | .error _ => none) = xs.find? fun x => key x = target := by
  obtain ⟨before, after, hlt, hgt, ⟨x, hx, rfl, hsearch⟩ | ⟨rfl, hsearch⟩⟩ := search_spec hs target
  · have hnone : before.find? (fun x => key x = target) = none := by
      simpa using fun x hx => (hlt x hx).ne
    simp [hsearch, hnone, hx]
  · have hnone : (before ++ after).find? (fun x => key x = target) = none := by
      rw [find?_eq_none]
      intro x hx
      rcases mem_append.mp hx with hx | hx
      · simpa using (hlt x hx).ne
      · simpa using (hgt x hx).ne'
    simp [hsearch, hnone]

end

lemma insertIdx_length (before after : List α) (x : α) :
    (before ++ after).insertIdx before.length x = before ++ x :: after := by
  induction before with
  | nil => rfl
  | cons y before ih => exact congrArg (y :: ·) ih

end FerroDb.Library.BinarySearch
