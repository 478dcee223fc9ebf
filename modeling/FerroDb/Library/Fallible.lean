import Mathlib.Data.List.Forall2

/-!
# Computations that may fail

How a computation in `Except` that succeeded got there: one rule per way of combining
computations, to be peeled off with `obtain`.
-/

namespace FerroDb.Library

open List

universe u v

variable {ε : Type u} {α β : Type v} {f : α → Except ε β} {xs : List α} {x : Except ε α} {b b' : β}
  {ys : List β}

lemma bind_ok : x >>= f = .ok b ↔ ∃ a, x = .ok a ∧ f a = .ok b := by
  cases x <;> simp [bind, Except.bind]

@[simp] lemma ok_bind (a : α) (f : α → Except ε β) : (Except.ok a >>= f) = f a := rfl

@[simp] lemma ok_map (a : α) (f : α → β) : (f <$> Except.ok a : Except ε β) = .ok (f a) := rfl

lemma map_ok {f : α → β} : x.map f = .ok b ↔ ∃ a, x = .ok a ∧ f a = b := by
  cases x <;> simp [Except.map]

lemma forM_ok {f : α → Except ε PUnit} : xs.forM f = .ok ⟨⟩ ↔ ∀ x ∈ xs, f x = .ok ⟨⟩ := by
  induction xs with
  | nil => simp [pure, Except.pure]
  | cons x xs ih =>
    have hcons : (x :: xs).forM f = f x >>= fun _ => xs.forM f := rfl
    rw [hcons, bind_ok, forall_mem_cons, ← ih]
    constructor
    · rintro ⟨⟨⟩, hx, hxs⟩
      exact ⟨hx, hxs⟩
    · rintro ⟨hx, hxs⟩
      exact ⟨⟨⟩, hx, hxs⟩

/-- What every step of a fold keeps, the fold keeps. -/
lemma foldlM_ok {f : β → α → Except ε β} {P : β → Prop}
    (hstep : ∀ b x b', x ∈ xs → P b → f b x = .ok b' → P b') (hb : P b)
    (h : xs.foldlM f b = .ok b') : P b' := by
  induction xs generalizing b with
  | nil =>
    obtain rfl : b = b' := by simpa [pure, Except.pure] using h
    exact hb
  | cons x xs ih =>
    rw [foldlM_cons, bind_ok] at h
    obtain ⟨c, hc, h⟩ := h
    exact ih (fun b y b' hy => hstep b y b' (.tail _ hy))
      (hstep b x c mem_cons_self hb hc) h

/-- Two folds of which the second can follow the first. -/
lemma foldlM_ok_of_imp {f g : β → α → Except ε β}
    (hstep : ∀ b x b', x ∈ xs → f b x = .ok b' → g b x = .ok b')
    (h : xs.foldlM f b = .ok b') : xs.foldlM g b = .ok b' := by
  induction xs generalizing b with
  | nil => exact h
  | cons x xs ih =>
    rw [foldlM_cons, bind_ok] at h ⊢
    obtain ⟨c, hc, h⟩ := h
    exact ⟨c, hstep b x c mem_cons_self hc,
      ih (fun b y b' hy => hstep b y b' (.tail _ hy)) h⟩

lemma mapM_eq_map {g : α → β} (h : ∀ x ∈ xs, f x = .ok (g x)) : xs.mapM f = .ok (xs.map g) := by
  induction xs with
  | nil => rfl
  | cons x xs ih =>
    rw [mapM_cons, h x mem_cons_self, ih fun y hy => h y (.tail _ hy)]
    rfl

end FerroDb.Library
