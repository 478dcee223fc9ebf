import Mathlib.Tactic

/-!
# Weakest preconditions of computations with state that may fail

`wp m Q E s`: run from the state `s`, the computation `m` either succeeds with a result and in a
state that satisfy `Q`, or fails in a state that satisfies `E`. What was done before a failure
stays done.
-/

namespace FerroDb.Library

variable {ε σ α β : Type}

def wp (m : ExceptT ε (StateM σ) α) (Q : α → σ → Prop) (E : σ → Prop) (s : σ) : Prop :=
  match (m.run s : Except ε α × σ) with
  | (.ok a, s') => Q a s'
  | (.error _, s') => E s'

variable {m : ExceptT ε (StateM σ) α} {Q Q' : α → σ → Prop} {E : σ → Prop} {s s' : σ} {a : α}
  {f : α → ExceptT ε (StateM σ) β}

@[simp] lemma wp_pure : wp (pure a : ExceptT ε (StateM σ) α) Q E s ↔ Q a s := Iff.rfl

@[simp] lemma wp_throw {e : ε} : wp (throw e : ExceptT ε (StateM σ) α) Q E s ↔ E s := Iff.rfl

@[simp] lemma wp_get {Q : σ → σ → Prop} :
    wp (get : ExceptT ε (StateM σ) σ) Q E s ↔ Q s s := Iff.rfl

@[simp] lemma wp_set {Q : PUnit → σ → Prop} :
    wp (set s' : ExceptT ε (StateM σ) PUnit) Q E s ↔ Q ⟨⟩ s' := Iff.rfl

@[simp] lemma wp_modify {f : σ → σ} {Q : PUnit → σ → Prop} :
    wp (modify f : ExceptT ε (StateM σ) PUnit) Q E s ↔ Q ⟨⟩ (f s) := Iff.rfl

lemma run_bind (f : α → ExceptT ε (StateM σ) β) : ((m >>= f).run s : Except ε β × σ) =
      match (m.run s : Except ε α × σ) with
      | (.ok a, s') => (f a).run s'
      | (.error e, s') => (.error e, s') := by
  change (fun p : Except ε α × σ => (ExceptT.bindCont f p.1 : StateM σ (Except ε β)) p.2)
    (m.run s) = _
  rcases (m.run s : Except ε α × σ) with ⟨_ | _, _⟩ <;> rfl

@[simp] lemma wp_bind {Q : β → σ → Prop} :
    wp (m >>= f) Q E s ↔ wp m (fun a s' => wp (f a) Q E s') E s := by
  rw [wp, run_bind, wp]
  rcases (m.run s : Except ε α × σ) with ⟨_ | _, _⟩ <;> rfl

lemma wp.mono (h : wp m Q E s) (hQ : ∀ a s', Q a s' → Q' a s') : wp m Q' E s := by
  revert h
  rw [wp, wp]
  rcases (m.run s : Except ε α × σ) with ⟨_ | a, s'⟩
  · exact id
  · exact hQ a s'

lemma wp.bind {P : β → σ → Prop} (h : wp m Q E s)
    (hf : ∀ a s', Q a s' → wp (f a) P E s') : wp (m >>= f) P E s :=
  wp_bind.mpr (h.mono hf)

lemma wp.mono_error {E' : σ → Prop} (h : wp m Q E s) (hE : ∀ s', E s' → E' s') : wp m Q E' s := by
  revert h
  rw [wp, wp]
  rcases (m.run s : Except ε α × σ) with ⟨_ | a, s'⟩
  · exact hE s'
  · exact id

@[simp] lemma wp_liftExcept {x : Except ε α} : wp (liftM x : ExceptT ε (StateM σ) α) Q E s ↔
      match x with
      | .ok a => Q a s
      | .error _ => E s := by
  cases x <;> rfl

lemma wp_ok (hrun : (m.run s : Except ε α × σ) = (.ok a, s')) (h : wp m Q E s) : Q a s' := by
  rwa [wp, hrun] at h

/-- What holds of the state however the computation ends. -/
lemma wp_state {P : σ → Prop} (h : wp m (fun _ s' => P s') P s) :
    P (m.run s : Except ε α × σ).2 := by
  revert h
  rw [wp]
  rcases (m.run s : Except ε α × σ) with ⟨_ | _, _⟩ <;> exact id

end FerroDb.Library
