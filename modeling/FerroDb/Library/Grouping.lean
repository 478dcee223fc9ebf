import Mathlib.Data.List.Dedup
import Mathlib.Data.List.Sort
import Mathlib.Tactic

/-!
# Grouping

Items collected under keys, each group in the order its items came, and keys in the order of a
set: duplicates once, ascending.
-/

namespace FerroDb.Library

open List

variable {κ β : Type*} [DecidableEq κ] {b : β} {p : κ × List β} {ks : List κ}

/-- Groups of items by key, in no particular order of the keys. -/
abbrev Groups (κ β : Type*) := List (κ × List β)

namespace Groups

variable {k : κ} {g : Groups κ β}

def push (k : κ) (b : β) : Groups κ β → Groups κ β
  | [] => [(k, [b])]
  | (l, bs) :: g => if l = k then (l, bs ++ [b]) :: g else (l, bs) :: push k b g

def get (g : Groups κ β) (k : κ) : List β := ((g.find? (·.1 = k)).map (·.2)).getD []

def keys (g : Groups κ β) : List κ := g.map (·.1)

def mapValues (f : List β → List β) (g : Groups κ β) : Groups κ β :=
  g.map fun p => (p.1, f p.2)

@[simp] lemma get_nil (k : κ) : get ([] : Groups κ β) k = [] := rfl

lemma get_cons (p : κ × List β) (g : Groups κ β) (k : κ) :
    get (p :: g) k = if p.1 = k then p.2 else g.get k := by
  by_cases h : p.1 = k <;> simp [get, h]

lemma get_push (k l : κ) (b : β) (g : Groups κ β) :
    (g.push k b).get l = if k = l then g.get l ++ [b] else g.get l := by
  induction g with
  | nil => simp [push, get_cons]
  | cons p g ih =>
    obtain ⟨m, bs⟩ := p
    rw [push]
    by_cases hm : m = k
    · subst hm
      rw [if_pos rfl, get_cons, get_cons]
      by_cases hml : m = l <;> simp [hml]
    · rw [if_neg hm, get_cons, get_cons, ih]
      by_cases hml : m = l
      · subst hml
        simp [Ne.symm hm]
      · simp [hml]

lemma get_mapValues {f : List β → List β} (hf : f [] = []) (g : Groups κ β) (k : κ) :
    (g.mapValues f).get k = f (g.get k) := by
  induction g with
  | nil => simp [mapValues, hf]
  | cons p g ih =>
    have hcons : mapValues f (p :: g) = (p.1, f p.2) :: mapValues f g := rfl
    rw [hcons, get_cons, get_cons, ih]
    split_ifs <;> rfl

lemma keys_push (k : κ) (b : β) (g : Groups κ β) (l : κ) :
    l ∈ (g.push k b).keys ↔ l = k ∨ l ∈ g.keys := by
  induction g with
  | nil => simp [push, keys]
  | cons p g ih =>
    rw [push]
    split_ifs with hm
    · subst hm
      simp [keys]
    · simp only [keys, map_cons, mem_cons] at ih ⊢
      tauto

omit [DecidableEq κ] in
@[simp] lemma keys_mapValues (f : List β → List β) (g : Groups κ β) :
    (g.mapValues f).keys = g.keys := by
  simp [mapValues, keys]

variable {α : Type*} {key : α → Option κ}

/-- The items that have a key, grouped. -/
def collect (key : α → Option κ) (g : Groups κ α) (xs : List α) : Groups κ α :=
  xs.foldl (fun g x => match key x with
    | some k => g.push k x
    | none => g) g

lemma collect_cons (g : Groups κ α) (x : α) (xs : List α) :
    collect key g (x :: xs) = collect key (match key x with
      | some k => g.push k x
      | none => g) xs := rfl

lemma get_collect (g : Groups κ α) (xs : List α) (k : κ) :
    (collect key g xs).get k = g.get k ++ xs.filter fun x => key x = some k := by
  induction xs generalizing g with
  | nil => simp [collect]
  | cons x xs ih =>
    rw [collect_cons, ih]
    cases hx : key x with
    | none => simp [hx]
    | some l =>
      by_cases hl : l = k
      · subst hl
        simp [hx, get_push]
      · simp [hx, get_push, hl]

lemma mem_keys_collect (g : Groups κ α) (xs : List α) (k : κ) :
    k ∈ (collect key g xs).keys ↔ k ∈ g.keys ∨ ∃ x ∈ xs, key x = some k := by
  induction xs generalizing g with
  | nil => simp [collect]
  | cons x xs ih =>
    rw [collect_cons, ih]
    cases hx : key x with
    | none => simp [hx]
    | some l =>
      simp only [keys_push, mem_cons, exists_eq_or_imp, hx, Option.some.injEq]
      constructor
      · rintro ((rfl | h) | h)
        · exact Or.inr (Or.inl rfl)
        · exact Or.inl h
        · exact Or.inr (Or.inr h)
      · rintro (h | rfl | h)
        · exact Or.inl (Or.inr h)
        · exact Or.inl (Or.inl rfl)
        · exact Or.inr h

end Groups

/-! ## Sorting a group -/

section Last

variable {r : β → β → Prop} [DecidableRel r] {l : List β} {x z : β}

lemma orderedInsert_concat (h : r x z) :
    (l ++ [z]).orderedInsert r x = l.orderedInsert r x ++ [z] := by
  induction l with
  | nil => simp [h]
  | cons y l ih =>
    simp only [cons_append, orderedInsert]
    split_ifs
    · rfl
    · rw [ih, cons_append]

/-- An item that comes last and that no other follows in the order stays last. -/
lemma getLast?_insertionSort (hz : l.getLast? = some z) (h : ∀ x ∈ l, r x z) :
    (l.insertionSort r).getLast? = some z := by
  obtain ⟨l, rfl⟩ := getLast?_eq_some_iff.mp hz
  have hsort : (l ++ [z]).insertionSort r = l.insertionSort r ++ [z] := by
    clear hz
    induction l with
    | nil => rfl
    | cons x l ih =>
      rw [cons_append, insertionSort_cons, ih fun y hy => h y (mem_cons_of_mem x hy),
        orderedInsert_concat (h x mem_cons_self), insertionSort_cons]
  rw [hsort, getLast?_concat]

end Last

/-! ## Sets of keys -/

section Sorted

variable (r : κ → κ → Prop) [DecidableRel r]

/-- The keys once each, ascending. -/
def sortedKeys (ks : List κ) : List κ := ks.dedup.insertionSort r

@[simp] lemma mem_sortedKeys {k : κ} : k ∈ sortedKeys r ks ↔ k ∈ ks := by
  simp [sortedKeys]

lemma nodup_sortedKeys (ks : List κ) : (sortedKeys r ks).Nodup :=
  (perm_insertionSort r _).nodup_iff.mpr ks.nodup_dedup

end Sorted

end FerroDb.Library
