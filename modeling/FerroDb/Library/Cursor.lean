import FerroDb.Library.Fallible

/-!
# Reading from a position

Computations that read a list from a position on and may fail. `Reads p xs v` says that `p` reads
exactly the items `xs` as the value `v`, wherever they stand; such facts compose along `bind`.
-/

namespace FerroDb.Library

open List

/-- Reads the list at a position, and moves on. -/
abbrev Cursor (β ε : Type) := ReaderT (List β) (StateT ℕ (Except ε))

namespace Cursor

variable {β ε α γ : Type}

/-- The next `n` items. -/
def take (tooShort : ℕ → ε) (n : ℕ) : Cursor β ε (List β) := fun items pos =>
  if pos + n ≤ items.length then .ok ((items.drop pos).take n, pos + n)
  else .error (tooShort pos)

def position : Cursor β ε ℕ := fun _ pos => .ok (pos, pos)

/-- The computation so many times. -/
def many (p : Cursor β ε α) : ℕ → Cursor β ε (List α)
  | 0 => pure []
  | n + 1 => do return (← p) :: (← many p n)

/-- Run at position `i` of `items`, the computation yields `v` and stops at `j`. -/
def Runs (p : Cursor β ε α) (items : List β) (i : ℕ) (v : α) (j : ℕ) : Prop :=
  p items i = .ok (v, j)

def Reads (p : Cursor β ε α) (xs : List β) (v : α) : Prop :=
  ∀ before after, Runs p (before ++ xs ++ after) before.length v (before ++ xs).length

/-- Run at position `i` of `items`, the computation yields something and stops at `j`. -/
def Stops (p : Cursor β ε α) (items : List β) (i j : ℕ) : Prop := ∃ v, Runs p items i v j

variable {p : Cursor β ε α} {f : α → Cursor β ε γ} {items xs ys : List β} {v : α} {w : γ}
  {i j k n : ℕ}

lemma Runs.bind (hp : Runs p items i v j) (hf : Runs (f v) items j w k) :
    Runs (p >>= f) items i w k := by
  change (p items i >>= fun out => f out.1 items out.2) = _
  rw [hp]
  exact hf

lemma runs_bind :
    Runs (p >>= f) items i w k ↔ ∃ v j, Runs p items i v j ∧ Runs (f v) items j w k := by
  constructor
  · intro h
    obtain ⟨⟨v, j⟩, hp, hf⟩ := (bind_ok (x := p items i)).mp h
    exact ⟨v, j, hp, hf⟩
  · rintro ⟨v, j, hp, hf⟩
    exact hp.bind hf

lemma stops_bind :
    Stops (p >>= f) items i k ↔ ∃ v j, Runs p items i v j ∧ Stops (f v) items j k := by
  simp only [Stops, runs_bind]
  constructor
  · rintro ⟨w, v, j, hp, hf⟩
    exact ⟨v, j, hp, w, hf⟩
  · rintro ⟨v, j, hp, w, hf⟩
    exact ⟨w, v, j, hp, hf⟩

/-- Where the rest stops does not depend on the value. -/
lemma stops_bind_const {E : ℕ → Prop} (hf : ∀ v j, Stops (f v) items j k ↔ E j) :
    Stops (p >>= f) items i k ↔ ∃ j, Stops p items i j ∧ E j := by
  simp only [stops_bind, hf]
  constructor
  · rintro ⟨v, j, hp, hE⟩
    exact ⟨j, ⟨v, hp⟩, hE⟩
  · rintro ⟨j, ⟨v, hp⟩, hE⟩
    exact ⟨v, j, hp, hE⟩

lemma runs_pure : Runs (pure v : Cursor β ε α) items i v i := rfl

lemma stops_pure : Stops (pure v : Cursor β ε α) items i j ↔ j = i := by
  constructor
  · rintro ⟨w, h⟩
    cases h
    rfl
  · rintro rfl
    exact ⟨v, runs_pure⟩

lemma runs_position : Runs (position : Cursor β ε ℕ) items i i i := rfl

lemma stops_bind_pure {g : α → γ} :
    Stops (p >>= fun a => pure (g a)) items i j ↔ Stops p items i j := by
  rw [stops_bind_const (E := (j = ·)) fun _ _ => stops_pure]
  simp

/-- Past items of a fixed width whose value does not matter for where the rest stops. -/
lemma stops_skip {width : ℕ} {E : Prop}
    (hp : ∀ {i j}, Stops p items i j ↔ j = i + width ∧ j ≤ items.length)
    (hf : ∀ v, Stops (f v) items (i + width) k ↔ E) :
    Stops (p >>= f) items i k ↔ i + width ≤ items.length ∧ E := by
  rw [stops_bind]
  constructor
  · rintro ⟨v, _, hv, h⟩
    obtain ⟨rfl, hle⟩ := hp.mp ⟨v, hv⟩
    exact ⟨hle, (hf v).mp h⟩
  · rintro ⟨hle, h⟩
    obtain ⟨v, hv⟩ := hp.mpr ⟨rfl, hle⟩
    exact ⟨v, _, hv, (hf v).mpr h⟩

lemma reads_pure : Reads (pure v : Cursor β ε α) [] v := fun before after => by
  simpa using runs_pure

lemma Reads.bind (hp : Reads p xs v) (hf : Reads (f v) ys w) : Reads (p >>= f) (xs ++ ys) w := by
  intro before after
  have h₁ := hp before (ys ++ after)
  have h₂ := hf (before ++ xs) after
  simp only [append_assoc] at h₁ h₂ ⊢
  exact h₁.bind h₂

lemma Reads.bind_pure {g : α → γ} (hp : Reads p xs v) :
    Reads (p >>= fun a => pure (g a)) xs (g v) := by
  simpa using hp.bind (f := fun a => pure (g a)) (reads_pure (v := g v))

lemma reads_take {n : ℕ} (tooShort : ℕ → ε) (h : xs.length = n) :
    Reads (take tooShort n) xs xs := by
  intro before after
  have hle : before.length + n ≤ (before ++ xs ++ after).length := by
    simp only [length_append]
    omega
  have hdrop : ((before ++ xs ++ after).drop before.length).take n = xs := by
    rw [append_assoc, drop_left, ← h, take_left]
  rw [Runs, take, if_pos hle, hdrop, length_append, h]

lemma reads_many {δ : Type} {enc : δ → List β} (val : δ → α) {ds : List δ}
    (h : ∀ d ∈ ds, Reads p (enc d) (val d)) :
    Reads (many p ds.length) (ds.flatMap enc) (ds.map val) := by
  induction ds with
  | nil => exact reads_pure
  | cons d ds ih =>
    rw [forall_mem_cons] at h
    exact h.1.bind (ih h.2).bind_pure

lemma of_many {P : α → Prop} {vs : List α} (hp : ∀ {i v j}, Runs p items i v j → P v)
    (h : Runs (many p n) items i vs j) : vs.length = n ∧ ∀ v ∈ vs, P v := by
  induction n generalizing i vs with
  | zero =>
    cases h
    simp
  | succ n ih =>
    obtain ⟨v, _, hv, h⟩ := runs_bind.mp h
    obtain ⟨ws, _, hws, h⟩ := runs_bind.mp h
    cases h
    obtain ⟨hlen, hall⟩ := ih hws
    exact ⟨by rw [length_cons, hlen], forall_mem_cons.mpr ⟨hp hv, hall⟩⟩

lemma length_of_many {vs : List α} (h : Runs (many p n) items i vs j) : vs.length = n :=
  (of_many (P := fun _ => True) (fun _ => trivial) h).1

/-- Items of one width each. -/
lemma stops_many {width : ℕ} (hp : ∀ {i j}, Stops p items i j ↔ j = i + width ∧ j ≤ items.length)
    (hi : i ≤ items.length) :
    Stops (many p n) items i j ↔ j = i + width * n ∧ j ≤ items.length := by
  induction n generalizing i with
  | zero =>
    rw [many, stops_pure]
    omega
  | succ n ih =>
    rw [many, stops_bind_const fun _ _ => stops_bind_pure]
    constructor
    · rintro ⟨k, hk, hj⟩
      obtain ⟨rfl, hle⟩ := hp.mp hk
      obtain ⟨rfl, hj⟩ := (ih hle).mp hj
      exact ⟨by rw [Nat.mul_succ]; omega, hj⟩
    · rintro ⟨rfl, hj⟩
      have hsum : i + width * (n + 1) = i + width + width * n := by rw [Nat.mul_succ]; omega
      have hle : i + width ≤ items.length := by omega
      exact ⟨i + width, hp.mpr ⟨rfl, hle⟩, (ih hle).mpr ⟨hsum, hj⟩⟩

end Cursor

end FerroDb.Library
