import Mathlib.Data.List.Basic
import Mathlib.Tactic

/-!
# Logs of termed entries

A log is a list of entries, each carrying the term of the leader that wrote it; the
entry at position `r` (counted from one) is the last of `l.take r`. The one relation
everything else is built on is `Rooted L l`: each prefix of `l` is a prefix of the log
`L t` of the leader whose term `t` its last entry carries. Two rooted logs that hold
the same term at the same position therefore agree on everything below it.

## Main definitions

* `termAt`, `lastTerm` — the term at a position, and at the end.
* `Covers` — the order in which an election compares two logs.
* `Rooted` — every prefix was written by the leader of its last term.
-/

namespace FerroDb.Library

open List

variable {E : Type*} (tm : E → ℕ)
variable {l l' : List E} {L : ℕ → List E}

/-- The term at position `r`, counted from one; zero where there is no entry. -/
def termAt (l : List E) : ℕ → ℕ
  | 0 => 0
  | r + 1 => (l[r]?).elim 0 tm

/-- The term of the last entry, zero for an empty log. -/
def lastTerm (l : List E) : ℕ := termAt tm l l.length

/-- `a` is at least as complete as `b`: the pair of last term and length, term first. -/
def Covers (a b : List E) : Prop :=
  lastTerm tm b < lastTerm tm a ∨ lastTerm tm b = lastTerm tm a ∧ b.length ≤ a.length

/-- Every non-empty prefix of `l` is a prefix of the log of the leader of its last term. -/
def Rooted (L : ℕ → List E) (l : List E) : Prop :=
  ∀ p e, p ++ [e] <+: l → p ++ [e] <+: L (tm e)

/-- Terms do not decrease along the log. -/
def TermSorted (l : List E) : Prop := l.Pairwise fun a b => tm a ≤ tm b

variable {tm} {r : ℕ} {e : E}

@[simp] lemma termAt_zero (l : List E) : termAt tm l 0 = 0 := rfl

@[simp] lemma lastTerm_nil : lastTerm tm ([] : List E) = 0 := rfl

lemma termAt_succ_eq (h : r < l.length) : termAt tm l (r + 1) = tm l[r] := by
  simp [termAt, h]

lemma termAt_cons_succ (e : E) (l : List E) (h : 0 < r) :
    termAt tm (e :: l) (r + 1) = termAt tm l r := by
  obtain ⟨k, rfl⟩ : ∃ k, r = k + 1 := ⟨r - 1, by omega⟩
  simp [termAt]

/-- A position inside the log is the end of a prefix, whose last entry has its term. -/
lemma exists_take_eq_append (tm : E → ℕ) (h0 : 0 < r) (hr : r ≤ l.length) :
    ∃ p e, l.take r = p ++ [e] ∧ termAt tm l r = tm e := by
  obtain ⟨k, rfl⟩ : ∃ k, r = k + 1 := ⟨r - 1, by omega⟩
  have hk : k < l.length := by omega
  exact ⟨l.take k, l[k], by rw [take_succ_eq_append_getElem hk], termAt_succ_eq hk⟩

lemma termAt_take {n : ℕ} (h : r ≤ n) : termAt tm (l.take n) r = termAt tm l r := by
  cases r with
  | zero => rfl
  | succ r =>
    simp only [termAt]
    rw [getElem?_take_of_lt (by omega)]

lemma termAt_of_isPrefix (h : l <+: l') (hr : r ≤ l.length) : termAt tm l' r = termAt tm l r := by
  obtain ⟨s, rfl⟩ := h
  cases r with
  | zero => rfl
  | succ r =>
    simp only [termAt]
    rw [getElem?_append_left (by omega)]

lemma lastTerm_append_singleton (l : List E) (e : E) : lastTerm tm (l ++ [e]) = tm e := by
  simp [lastTerm, termAt]

lemma Covers.refl (l : List E) : Covers tm l l := Or.inr ⟨rfl, le_refl _⟩

/-! ## Rooted logs -/

lemma Rooted.nil (L : ℕ → List E) : Rooted tm L [] := by
  intro p e h
  simp at h

lemma Rooted.of_isPrefix (h : Rooted tm L l) (hp : l' <+: l) : Rooted tm L l' :=
  fun p e hpe => h p e (hpe.trans hp)

/-- Leaders only ever append, so what was rooted stays rooted. -/
lemma Rooted.mono {L' : ℕ → List E} (h : Rooted tm L l)
    (hL : ∀ t, L t <+: L' t) : Rooted tm L' l :=
  fun p e hpe => (h p e hpe).trans (hL _)

lemma Rooted.append_singleton (h : Rooted tm L l)
    (he : l ++ [e] <+: L (tm e)) : Rooted tm L (l ++ [e]) := by
  intro p f hpf
  rcases prefix_concat_iff.mp hpf with heq | hlt
  · obtain ⟨rfl, hfe⟩ := append_inj' heq rfl
    obtain rfl : f = e := by simpa using hfe
    exact he
  · exact h p f hlt

/-- A non-empty rooted log is a prefix of its last leader's log. -/
lemma Rooted.prefix_lastTerm (h : Rooted tm L l) (hl : l ≠ []) : l <+: L (lastTerm tm l) := by
  obtain ⟨p, e, rfl⟩ : ∃ p e, l = p ++ [e] :=
    ⟨l.dropLast, l.getLast hl, (dropLast_append_getLast hl).symm⟩
  rw [lastTerm_append_singleton]
  exact h p e (prefix_refl _)

/-- The prefix of a rooted log through position `r` belongs to the leader of the term at `r`. -/
lemma Rooted.take_isPrefix (h : Rooted tm L l)
    (h0 : 0 < r) (hr : r ≤ l.length) : l.take r <+: L (termAt tm l r) := by
  obtain ⟨p, e, hpe, ht⟩ := exists_take_eq_append tm h0 hr
  rw [hpe, ht]
  exact h p e (hpe ▸ take_prefix r l)

/-- **Log matching.** The same term at the same position means the same log up to there. -/
lemma Rooted.take_eq_take (hl : Rooted tm L l)
    (hl' : Rooted tm L l') (hr : r ≤ l.length) (hr' : r ≤ l'.length)
    (ht : termAt tm l r = termAt tm l' r) : l.take r = l'.take r := by
  rcases Nat.eq_zero_or_pos r with rfl | h0
  · simp
  have h1 := hl.take_isPrefix h0 hr
  have h2 := hl'.take_isPrefix h0 hr'
  rw [ht] at h1
  refine (prefix_of_prefix_length_le h1 h2 (by simp [hr, hr'])).eq_of_length ?_
  simp [hr, hr']

/-! ## Terms along a log -/

lemma TermSorted.of_isPrefix (h : TermSorted tm l) (hp : l' <+: l) : TermSorted tm l' :=
  List.Pairwise.sublist hp.sublist h

lemma TermSorted.append_singleton (h : TermSorted tm l)
    (he : ∀ a ∈ l, tm a ≤ tm e) : TermSorted tm (l ++ [e]) := by
  refine pairwise_append.mpr ⟨h, pairwise_singleton _ _, ?_⟩
  intro a ha b hb
  obtain rfl : b = e := by simpa using hb
  exact he a ha

/-- In a sorted log no entry has a later term than the last one. -/
lemma TermSorted.le_lastTerm (h : TermSorted tm l) (he : e ∈ l) : tm e ≤ lastTerm tm l := by
  obtain ⟨p, f, rfl⟩ : ∃ p f, l = p ++ [f] :=
    ⟨l.dropLast, l.getLast (ne_nil_of_mem he),
      (dropLast_append_getLast (ne_nil_of_mem he)).symm⟩
  rw [lastTerm_append_singleton]
  rcases mem_append.mp he with hp | hf
  · exact (pairwise_append.mp h).2.2 e hp f (by simp)
  · obtain rfl : e = f := by simpa using hf
    exact le_refl _

lemma exists_mem_of_lastTerm_pos (h : 0 < lastTerm tm l) : ∃ e ∈ l, tm e = lastTerm tm l := by
  rcases eq_nil_or_concat l with rfl | ⟨p, f, rfl⟩
  · simp at h
  · refine ⟨f, by simp, ?_⟩
    rw [concat_eq_append, lastTerm_append_singleton]

end FerroDb.Library
