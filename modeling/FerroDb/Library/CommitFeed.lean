import Mathlib.Data.List.Sort
import Mathlib.Tactic

/-!
# Releasing a log in the order of its commits

A log interleaves the entries of several transactions. Reading it, one keeps for every transaction
what it has pending and releases that where the transaction commits. A reader that starts somewhere
inside the log sees of some transactions only the rest. This module says when it may still go on
from there: `Resumable` links what was delivered, the position the reader goes back to and the last
commit it delivered, and every further range read keeps the link.

## Main definitions

* `Entry`, `Item` — what stands in the log, and where.
* `stagedAfter`, `released` — what is pending after a part of the log, and what it releases.
* `Resumable` — reading on from here loses nothing and repeats nothing.

## Main results

* `Resumable.advance` — reading a range and moving the position on.
* `Resumable.isPrefix` — what was delivered is the beginning of what the log releases.
-/

namespace FerroDb.Library.CommitFeed

open List Function Function

/-- One entry: a change of what a transaction has pending, the end of a transaction, or events that
belong to no transaction. -/
inductive Entry (τ V E : Type) where
  | own (t : τ) (change : V → V)
  | commit (t : τ) (release : V → List E)
  | abort (t : τ)
  | solo (events : List E)

structure Item (τ V E : Type) where
  pos : ℕ
  entry : Entry τ V E

variable {τ V E : Type} [DecidableEq τ] {v₀ : V} {s s' : τ → V} {t : τ} {e e' : ℕ} {x : Item τ V E}
  {xs ys : List (Item τ V E)} {y : ℕ × E}

namespace Item

variable (v₀) in
/-- What is pending after the entry; `v₀` is nothing. -/
def staged (x : Item τ V E) (s : τ → V) : τ → V :=
  match x.entry with
  | .own t change => update s t (change (s t))
  | .commit t _ | .abort t => update s t v₀
  | .solo _ => s

/-- What the entry releases, with the position it does so at. -/
def released (x : Item τ V E) (s : τ → V) : List (ℕ × E) :=
  match x.entry with
  | .commit t release => (release (s t)).map (x.pos, ·)
  | .solo events => events.map (x.pos, ·)
  | _ => []

omit [DecidableEq τ] in
lemma fst_of_mem_released (h : y ∈ x.released s) : y.1 = x.pos := by
  unfold released at h
  split at h <;> simp only [mem_map, not_mem_nil] at h
  all_goals
    obtain ⟨_, _, rfl⟩ := h
    rfl

end Item

variable (v₀) in
def stagedAfter (s : τ → V) (xs : List (Item τ V E)) : τ → V :=
  xs.foldl (fun s x => x.staged v₀ s) s

variable (v₀) in
def released (s : τ → V) : List (Item τ V E) → List (ℕ × E)
  | [] => []
  | x :: xs => x.released s ++ released (x.staged v₀ s) xs

@[simp] lemma stagedAfter_nil : stagedAfter v₀ s ([] : List (Item τ V E)) = s := rfl

@[simp] lemma stagedAfter_cons :
    stagedAfter v₀ s (x :: xs) = stagedAfter v₀ (x.staged v₀ s) xs := rfl

lemma stagedAfter_append :
    stagedAfter v₀ s (xs ++ ys) = stagedAfter v₀ (stagedAfter v₀ s xs) ys :=
  foldl_append

lemma released_append :
    released v₀ s (xs ++ ys) = released v₀ s xs ++ released v₀ (stagedAfter v₀ s xs) ys := by
  induction xs generalizing s with
  | nil => rfl
  | cons x xs ih => simp [released, ih]

lemma exists_of_mem_released (h : y ∈ released v₀ s xs) : ∃ x ∈ xs, x.pos = y.1 := by
  induction xs generalizing s with
  | nil => cases h
  | cons x xs ih =>
    rcases mem_append.mp h with h | h
    · exact ⟨x, mem_cons_self, (Item.fst_of_mem_released h).symm⟩
    · obtain ⟨z, hz, hpos⟩ := ih h
      exact ⟨z, mem_cons_of_mem _ hz, hpos⟩

/-- Entries stand in the log one after another. -/
abbrev Ascending (xs : List (Item τ V E)) : Prop := xs.Pairwise (·.pos < ·.pos)

lemma released_sorted (h : Ascending xs) : (released v₀ s xs).Pairwise (·.1 ≤ ·.1) := by
  induction xs generalizing s with
  | nil => exact .nil
  | cons x xs ih =>
    obtain ⟨hx, hxs⟩ := pairwise_cons.mp h
    refine pairwise_append.mpr ⟨?_, ih hxs, ?_⟩
    · exact pairwise_of_forall_mem_list fun a ha b hb => by
        rw [Item.fst_of_mem_released ha, Item.fst_of_mem_released hb]
    · intro a ha b hb
      obtain ⟨z, hz, hpos⟩ := exists_of_mem_released hb
      rw [Item.fst_of_mem_released ha, ← hpos]
      exact (hx z hz).le

/-- What comes later does not show in what was released up to `e`. -/
lemma filter_released_append
    (h : ∀ y ∈ released v₀ (stagedAfter v₀ s xs) ys, e < y.1) :
    (released v₀ s (xs ++ ys)).filter (·.1 ≤ e) = (released v₀ s xs).filter (·.1 ≤ e) := by
  have hnone : (released v₀ (stagedAfter v₀ s xs) ys).filter (·.1 ≤ e) = [] :=
    filter_eq_nil_iff.mpr fun y hy => by simpa using h y hy
  rw [released_append, filter_append, hnone, append_nil]

/-! ## Transactions that are done with -/

/-- The transaction ends in this part of the log, by an abort or by a commit no later than `e`. -/
def Ended (e : ℕ) (t : τ) : List (Item τ V E) → Prop
  | [] => False
  | x :: xs =>
    match x.entry with
    | .commit t' _ => if t' = t then x.pos ≤ e else Ended e t xs
    | .abort t' => if t' = t then True else Ended e t xs
    | _ => Ended e t xs

lemma Ended.append (h : Ended e t xs) : Ended e t (xs ++ ys) := by
  induction xs with
  | nil => cases h
  | cons x xs ih =>
    rw [cons_append, Ended]
    rw [Ended] at h
    all_goals grind

lemma Ended.mono (h : Ended e t xs) (he : e ≤ e') : Ended e' t xs := by
  induction xs with
  | nil => cases h
  | cons x xs ih =>
    rw [Ended] at h ⊢
    all_goals grind

/-! ## Reading from the middle -/

/-- Two readers have the same pending for every transaction that has yet to be delivered. -/
def Alike (e : ℕ) (s s' : τ → V) (xs : List (Item τ V E)) : Prop :=
  ∀ t, s t = s' t ∨ Ended e t xs

lemma Alike.staged (h : Alike e s s' (x :: xs)) :
    Alike e (x.staged v₀ s) (x.staged v₀ s') xs := by
  intro t
  have ht := h t
  rw [Ended] at ht
  cases hx : x.entry <;> simp only [hx, Item.staged] at ht ⊢
  all_goals grind

lemma Alike.stagedAfter (h : Alike e s s' (xs ++ ys)) :
    Alike e (stagedAfter v₀ s xs) (stagedAfter v₀ s' xs) ys := by
  induction xs generalizing s s' with
  | nil => exact h
  | cons x xs ih => exact ih h.staged

lemma Alike.itemReleased (h : Alike e s s' (x :: xs)) :
    (x.released s).filter (e < ·.1) = (x.released s').filter (e < ·.1) := by
  cases hx : x.entry with
  | own | abort | solo => simp [Item.released, hx]
  | commit t release =>
    rcases h t with ht | ht
    · simp [Item.released, hx, ht]
    · rw [Ended, hx] at ht
      have hpos : x.pos ≤ e := by simpa using ht
      simp [Item.released, hx, filter_map, comp_def, hpos.not_gt]

/-- They deliver the same of what comes after `e`. -/
lemma Alike.released (h : Alike e s s' (xs ++ ys)) :
    (released v₀ s xs).filter (e < ·.1) = (released v₀ s' xs).filter (e < ·.1) := by
  induction xs generalizing s s' with
  | nil => rfl
  | cons x xs ih =>
    rw [released, released, filter_append, filter_append,
      h.itemReleased, ih h.staged]

/-! ## Pending work and its place -/

/-- What is pending begins at a position, which later changes keep, and is not released empty. -/
def Item.Lawful (v₀ : V) (pend : V → Option ℕ) (x : Item τ V E) : Prop :=
  match x.entry with
  | .own _ change =>
    (∀ v p, pend v = some p → pend (change v) = some p) ∧
      (change v₀ = v₀ ∨ pend (change v₀) = some x.pos)
  | .commit _ release => ∀ v p, pend v = some p → release v ≠ []
  | _ => True

variable {pend : V → Option ℕ}

/-- Pending work began at one of the entries read, unless there was some before. -/
lemma pend_stagedAfter (hx : ∀ x ∈ xs, x.Lawful v₀ pend) (ht : s t = v₀)
    (hne : stagedAfter v₀ s xs t ≠ v₀) : ∃ x ∈ xs, pend (stagedAfter v₀ s xs t) = some x.pos := by
  induction xs using reverseRecOn with
  | nil => exact absurd ht hne
  | append_singleton xs x ih =>
    have ih := ih (fun y hy => hx y (mem_append_left _ hy))
    have hlaw := hx x (by simp)
    rw [stagedAfter_append, stagedAfter_cons, stagedAfter_nil] at hne ⊢
    set v := stagedAfter v₀ s xs
    have hold : v t ≠ v₀ → ∃ y ∈ xs ++ [x], pend (v t) = some y.pos := fun h => by
      obtain ⟨y, hy, hp⟩ := ih h
      exact ⟨y, mem_append_left _ hy, hp⟩
    unfold Item.staged at hne ⊢
    unfold Item.Lawful at hlaw
    cases hentry : x.entry with
    | own t' change =>
      simp only [hentry] at hne hlaw ⊢
      by_cases htt : t = t'
      · subst htt
        rw [update_self] at hne ⊢
        by_cases hv : v t = v₀
        · rw [hv] at hne ⊢
          exact ⟨x, by simp, hlaw.2.resolve_left hne⟩
        · obtain ⟨y, hy, hp⟩ := hold hv
          exact ⟨y, hy, hlaw.1 _ _ hp⟩
      · rw [update_of_ne htt] at hne ⊢
        exact hold hne
    | commit t' | abort t' =>
      simp only [hentry] at hne ⊢
      by_cases htt : t = t'
      · subst htt
        exact absurd (update_self ..) hne
      · rw [update_of_ne htt] at hne ⊢
        exact hold hne
    | solo events =>
      simp only [hentry] at hne ⊢
      exact hold hne

/-- Pending work is released, dropped, or still there with its place. -/
lemma ended_or_pend {p : ℕ} (hx : ∀ x ∈ xs, x.Lawful v₀ pend) (ht : pend (s t) = some p)
    (he : ∀ y ∈ released v₀ s xs, y.1 ≤ e) :
    Ended e t xs ∨ pend (stagedAfter v₀ s xs t) = some p := by
  induction xs generalizing s with
  | nil => exact .inr ht
  | cons x xs ih =>
    have hlaw := hx x mem_cons_self
    have ih := fun h => ih (s := x.staged v₀ s) (fun y hy => hx y (.tail _ hy)) h
      (fun y hy => he y (mem_append_right _ hy))
    unfold Item.Lawful at hlaw
    rw [Ended]
    cases hentry : x.entry with
    | own t' change =>
      simp only [hentry] at hlaw ⊢
      refine ih ?_
      by_cases htt : t = t'
      · subst htt
        simpa [Item.staged, hentry] using hlaw.1 _ _ ht
      · simpa [Item.staged, hentry, htt] using ht
    | commit t' release =>
      simp only [hentry] at hlaw ⊢
      by_cases htt : t' = t
      · subst htt
        obtain ⟨y, ys, hrel⟩ := exists_cons_of_ne_nil (hlaw _ _ ht)
        have hmem : (x.pos, y) ∈ x.released s := by simp [Item.released, hentry, hrel]
        exact .inl (by simpa using he _ (mem_append_left _ hmem))
      · rw [if_neg htt]
        exact ih (by simpa [Item.staged, hentry, Ne.symm htt] using ht)
    | abort t' =>
      dsimp only
      by_cases htt : t' = t
      · exact .inl (by simp [htt])
      · rw [if_neg htt]
        exact ih (by simpa [Item.staged, hentry, Ne.symm htt] using ht)
    | solo events => exact ih (by simpa [Item.staged, hentry] using ht)

/-! ## Other events -/

section

variable {E' : Type} {g : E → E'}

def Entry.map (g : E → E') : Entry τ V E → Entry τ V E'
  | .own t change => .own t change
  | .commit t release => .commit t fun v => (release v).map g
  | .abort t => .abort t
  | .solo events => .solo (events.map g)

def Item.map (g : E → E') (x : Item τ V E) : Item τ V E' := ⟨x.pos, x.entry.map g⟩

lemma Item.staged_map : (x.map g).staged v₀ s = x.staged v₀ s := by
  unfold Item.staged Item.map
  cases x.entry <;> rfl

omit [DecidableEq τ] in
lemma Item.released_map : (x.map g).released s = (x.released s).map (Prod.map id g) := by
  unfold Item.released Item.map
  cases x.entry <;> simp [Entry.map]

lemma stagedAfter_map : stagedAfter v₀ s (xs.map (Item.map g)) = stagedAfter v₀ s xs := by
  induction xs generalizing s with
  | nil => rfl
  | cons x xs ih => rw [map_cons, stagedAfter_cons, stagedAfter_cons, Item.staged_map, ih]

lemma released_map :
    released v₀ s (xs.map (Item.map g)) = (released v₀ s xs).map (Prod.map id g) := by
  induction xs generalizing s with
  | nil => rfl
  | cons x xs ih =>
    rw [map_cons, released, released, map_append, Item.released_map, Item.staged_map, ih]

omit [DecidableEq τ] in
lemma Item.Lawful.map (h : x.Lawful v₀ pend) : (x.map g).Lawful v₀ pend := by
  unfold Item.Lawful at h
  unfold Item.Lawful Item.map
  cases hx : x.entry with
  | own t change => simpa [hx, Entry.map] using h
  | commit t release =>
    simp only [hx] at h
    intro v p hp
    simpa using h v p hp
  | abort | solo => trivial

end

/-! ## Resuming -/

/-- Everything up to `e` of what the log `xs ++ ys` releases was delivered, and a reader who starts
at `ys` with nothing pending will deliver what is left. -/
structure Resumable (v₀ : V) (xs ys : List (Item τ V E)) (e : ℕ) (out : List (ℕ × E)) : Prop where
  out_eq : out = (released v₀ (fun _ => v₀) (xs ++ ys)).filter (·.1 ≤ e)
  before : ∀ y ∈ released v₀ (fun _ => v₀) xs, y.1 ≤ e
  ended : ∀ t, stagedAfter v₀ (fun _ => v₀) xs t ≠ v₀ → Ended e t ys

variable {out : List (ℕ × E)}

lemma resumable_nil : Resumable v₀ ([] : List (Item τ V E)) [] 0 [] where
  out_eq := rfl
  before := by simp [released]
  ended := by simp

namespace Resumable

lemma alike (h : Resumable v₀ xs ys e out) :
    Alike e (fun _ => v₀) (stagedAfter v₀ (fun _ => v₀) xs) ys := by
  intro t
  by_cases ht : stagedAfter v₀ (fun _ => v₀) xs t = v₀
  · exact .inl ht.symm
  · exact .inr (h.ended t ht)

/-- The log grows at its end. -/
lemma grow {zs : List (Item τ V E)} (h : Resumable v₀ xs ys e out) (hz : ∀ z ∈ zs, e < z.pos) :
    Resumable v₀ xs (ys ++ zs) e out where
  out_eq := by
    rw [← append_assoc, filter_released_append, h.out_eq]
    intro y hy
    obtain ⟨z, hmem, hpos⟩ := exists_of_mem_released hy
    exact hpos ▸ hz z hmem
  before := h.before
  ended t ht := (h.ended t ht).append

/-- What was delivered is the beginning of what the log releases. -/
lemma isPrefix (h : Resumable v₀ xs ys e out) (hasc : Ascending (xs ++ ys)) :
    out <+: released v₀ (fun _ => v₀) (xs ++ ys) := by
  have hsort : (released v₀ (fun _ => v₀) (xs ++ ys)).Pairwise (·.1 ≤ ·.1) := released_sorted hasc
  rw [h.out_eq]
  generalize released v₀ (fun _ => v₀) (xs ++ ys) = l at hsort
  induction l with
  | nil => exact prefix_rfl
  | cons y l ih =>
    obtain ⟨hy, hl⟩ := pairwise_cons.mp hsort
    by_cases hle : y.1 ≤ e
    · rw [filter_cons_of_pos (by simpa using hle)]
      exact (prefix_cons_inj y).mpr (ih hl)
    · have hnil : (y :: l).filter (·.1 ≤ e) = [] := by
        refine filter_eq_nil_iff.mpr fun z hz => ?_
        rcases mem_cons.mp hz with rfl | hz
        · simpa using hle
        · have := hy z hz
          simp only [decide_eq_true_eq]
          omega
      rw [hnil]
      exact nil_prefix

end Resumable

/-- In a sorted list, what is up to `e` and what is up to a later `e'`. -/
lemma filter_le_append_filter_lt {l : List (ℕ × E)} (hsort : l.Pairwise (·.1 ≤ ·.1))
    (h : ∀ y ∈ l, y.1 ≤ e') : l.filter (·.1 ≤ e) ++ l.filter (e < ·.1) = l.filter (·.1 ≤ e') := by
  have hall : l.filter (·.1 ≤ e') = l := filter_eq_self.mpr fun y hy => by simpa using h y hy
  rw [hall]
  clear hall h
  induction l with
  | nil => rfl
  | cons y l ih =>
    obtain ⟨hy, hl⟩ := pairwise_cons.mp hsort
    by_cases hle : y.1 ≤ e
    · simp [hle, ih hl]
    · have hlt : ∀ z ∈ y :: l, e < z.1 := fun z hz => by
        rcases mem_cons.mp hz with rfl | hz
        · omega
        · have := hy z hz
          omega
      rw [filter_eq_nil_iff.mpr fun z hz => by simpa using hlt z hz,
        filter_eq_self.mpr fun z hz => by simpa using hlt z hz, nil_append]

namespace Resumable

variable {read rest zs : List (Item τ V E)} {e' c : ℕ}

/-- What was delivered: nothing new, or everything up to the last of the range. -/
lemma delivered (h : Resumable v₀ xs (ys ++ zs) e out) (hasc : Ascending (xs ++ (ys ++ zs)))
    (hle : e ≤ e') (hbound : ∀ y ∈ released v₀ (stagedAfter v₀ (fun _ => v₀) xs) ys, y.1 ≤ e')
    (hlast : e' = e ∨
      ∃ y ∈ released v₀ (stagedAfter v₀ (fun _ => v₀) xs) ys, e < y.1 ∧ y.1 = e') :
    out ++ (released v₀ (stagedAfter v₀ (fun _ => v₀) xs) ys).filter (e < ·.1) =
      (released v₀ (fun _ => v₀) (xs ++ (ys ++ zs))).filter (·.1 ≤ e') := by
  rw [h.out_eq]
  rcases hlast with rfl | ⟨y, hy, hlt, hye⟩
  · have hnil : (released v₀ (stagedAfter v₀ (fun _ => v₀) xs) ys).filter (e' < ·.1) = [] :=
      filter_eq_nil_iff.mpr fun y hy => by simpa using hbound y hy
    rw [hnil, append_nil]
  · obtain ⟨x, hx, hpos⟩ := exists_of_mem_released hy
    rw [← append_assoc] at hasc
    obtain ⟨hasc, -, hzs⟩ := pairwise_append.mp hasc
    -- What follows the range is released after everything in it.
    have htail : ∀ z ∈ released v₀ (stagedAfter v₀ (fun _ => v₀) (xs ++ ys)) zs, e' < z.1 := by
      intro z hz
      obtain ⟨w, hw, hwpos⟩ := exists_of_mem_released hz
      rw [← hye, ← hpos, ← hwpos]
      exact hzs x (mem_append_right _ hx) w hw
    have hall : ∀ z ∈ released v₀ (fun _ => v₀) (xs ++ ys), z.1 ≤ e' := by
      intro z hz
      rw [released_append] at hz
      rcases mem_append.mp hz with hz | hz
      · exact (h.before z hz).trans hle
      · exact hbound z hz
    have hnone : (released v₀ (fun _ => v₀) xs).filter (e < ·.1) = [] :=
      filter_eq_nil_iff.mpr fun z hz => by simpa using h.before z hz
    rw [← append_assoc, filter_released_append htail,
      filter_released_append fun z hz => hle.trans_lt (htail z hz),
      ← filter_le_append_filter_lt (e := e) (released_sorted hasc) hall]
    congr 1
    rw [released_append, filter_append, hnone, nil_append]

/-- Reading the range `read ++ rest` with nothing pending delivers what comes after `e`. The
position may then move on past `read`, if nothing that is still pending began there. -/
lemma advance (h : Resumable v₀ xs (read ++ rest ++ zs) e out)
    (hasc : Ascending (xs ++ (read ++ rest ++ zs))) (hlaw : ∀ x ∈ read ++ rest, x.Lawful v₀ pend)
    (hle : e ≤ e')
    (hnew : ∀ y ∈ (released v₀ (fun _ => v₀) (read ++ rest)).filter (e < ·.1), y.1 ≤ e')
    (hlast : e' = e ∨
      ∃ y ∈ (released v₀ (fun _ => v₀) (read ++ rest)).filter (e < ·.1), y.1 = e')
    (hread : ∀ x ∈ read, x.pos < c)
    (hpend : ∀ t p, pend (stagedAfter v₀ (fun _ => v₀) (read ++ rest) t) = some p → c ≤ p) :
    Resumable v₀ (xs ++ read) (rest ++ zs) e'
      (out ++ (released v₀ (fun _ => v₀) (read ++ rest)).filter (e < ·.1)) := by
  have hsame : (released v₀ (fun _ => v₀) (read ++ rest)).filter (e < ·.1) =
      (released v₀ (stagedAfter v₀ (fun _ => v₀) xs) (read ++ rest)).filter (e < ·.1) :=
    h.alike.released
  have hbound : ∀ y ∈ released v₀ (stagedAfter v₀ (fun _ => v₀) xs) (read ++ rest),
      y.1 ≤ e' := by
    intro y hy
    by_cases hye : y.1 ≤ e
    · omega
    · exact hnew y (by rw [hsame]; simpa using ⟨hy, by omega⟩)
  refine ⟨?_, ?_, ?_⟩
  · rw [hsame, h.delivered hasc hle hbound, append_assoc, append_assoc]
    rcases hlast with hlast | ⟨y, hy, hye⟩
    · exact .inl hlast
    · rw [hsame] at hy
      obtain ⟨hy, hlt⟩ := mem_filter.mp hy
      exact .inr ⟨y, hy, by simpa using hlt, hye⟩
  · intro y hy
    rw [released_append] at hy
    rcases mem_append.mp hy with hy | hy
    · exact (h.before y hy).trans hle
    · refine hbound y ?_
      rw [released_append]
      exact mem_append_left _ hy
  · -- A transaction with something pending at the new position ends in what is left.
    intro t ht
    have hread' : Alike e (stagedAfter v₀ (fun _ => v₀) read)
        (stagedAfter v₀ (stagedAfter v₀ (fun _ => v₀) xs) read) (rest ++ zs) := by
      have := h.alike
      rw [append_assoc] at this
      exact this.stagedAfter
    rw [stagedAfter_append] at ht
    rcases hread' t with heq | hend
    · rw [← heq] at ht
      obtain ⟨x, hx, hp⟩ := pend_stagedAfter
        (fun x hx => hlaw x (mem_append_left _ hx)) rfl ht
      have hrest : ∀ y ∈ released v₀ (stagedAfter v₀ (fun _ => v₀) read) rest, y.1 ≤ e' := by
        intro y hy
        by_cases hye : y.1 ≤ e
        · omega
        · refine hnew y (mem_filter.mpr ⟨?_, by simpa using hye⟩)
          rw [released_append]
          exact mem_append_right _ hy
      rcases ended_or_pend (fun x hx => hlaw x (mem_append_right _ hx)) hp hrest with hend | hp
      · exact hend.append
      · rw [← stagedAfter_append] at hp
        have h₁ := hpend t _ hp
        have h₂ := hread x hx
        omega
    · exact hend.mono hle

end Resumable

end FerroDb.Library.CommitFeed
