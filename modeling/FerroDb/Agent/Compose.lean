import FerroDb.Agent.Op
import FerroDb.Library.Fallible
import FerroDb.Sql.ValueOrder
import Mathlib.Data.List.SplitBy

/-!
# Composing a cell's effects

`compose_ops` folds the effects on a cell into one. It combines increments, maxima, minima, and
increments after an assignment; at any other pair its last arm keeps the later effect alone. What
it returns therefore stands for the last run of effects that combine, and what came before is
lost. Increments are added up before they are applied, which floats round in another order.

## Main definitions

* `runs` — the effects cut where two of them do not combine.
* `settle` — what a run makes of a value, its increments added up first.
-/

namespace FerroDb.Agent

open Library (bind_ok map_ok ok_bind)
open Except (ok)
open Sql List OpKind

/-- The effects applied one after another. -/
def replay (base : Value) (ops : List OpKind) : Except FerroError Value :=
  ops.foldlM (fun v op => applyOp (some v) op) base

/-- Applying the composed effect gives the value that replaying gave. -/
def ComposesTo (base : Value) (ops : List OpKind) (w : Value) : Prop :=
  ∃ k w', composeOps ops = .ok k ∧ applyOp (some base) k = .ok w' ∧ w'.eqv w = true

/-- An effect that is made one with the effect before it. -/
def joins : OpKind → OpKind → Bool
  | .add _, .add _ | .assign _, .add _ | .max _, .max _ | .min _, .min _ => true
  | _, _ => false

/-- The effects cut wherever one is not made one with the effect before it: an assignment with the
increments after it, or increments, maxima or minima alone. -/
def runs (ops : List OpKind) : List (List OpKind) := ops.splitBy joins

/-- The increments of a run added up. -/
def addUp (d : Delta) : List OpKind → Except FerroError Delta
  | .add e :: ops => do addUp (← d.compose e) ops
  | _ => .ok d

/-- The increments of a run can be added up. -/
def AddsUp (run : List OpKind) : Prop :=
  ∀ d ops, run = .add d :: ops → ∃ total, addUp d ops = .ok total

/-- What a run makes of a value. A run of increments is added up first. -/
def settle (base : Value) : List OpKind → Except FerroError Value
  | .add d :: ops => do (← addUp d ops).apply base
  | run => replay base run

/-- A run leaves a base at a value. -/
def Leaves (base : Value) (run : List OpKind) (w : Value) : Prop :=
  ∃ v, settle base run = .ok v ∧ v.eqv w = true

/-! ## What the arithmetic asks -/

def IsFloat : Value → Prop
  | .float _ => True
  | _ => False

namespace OpKind

def InRange : OpKind → Prop
  | .assign v | .max v | .min v => v.InRange
  | _ => True

instance : DecidablePred OpKind.InRange
  | .assign v | .max v | .min v => inferInstanceAs (Decidable v.InRange)
  | .rowCreate _ | .rowDelete | .add _ | .setInsert .. | .setRemove .. =>
    inferInstanceAs (Decidable True)

end OpKind

variable {base start x x' w : Value} {acc op prev acc' : OpKind} {ops run : List OpKind}
  {a b : Value} {i s : ℤ}

lemma apply_int_ok (h : applyOp (some x) (.add (.int i)) = .ok x')
    (hx : ¬ IsFloat x) : ∃ b, x = .integer b ∧ x' = .integer (b + i) ∧ x'.InRange := by
  cases x with
  | integer b =>
    simp only [applyOp, Delta.apply] at h
    split at h
    · cases h
    · next sum hsum =>
      obtain rfl : sum = b + i := by
        simp only [checkedI64] at hsum
        split_ifs at hsum
        exact (Option.some.inj hsum).symm
      split_ifs at h with h32
      cases h
      exact ⟨b, rfl, rfl, h32⟩
  | float f => exact absurd trivial hx
  | _ => cases h

lemma ite_inRange {c : Prop} [Decidable c] (ha : a.InRange) (hb : b.InRange) :
    (if c then a else b).InRange := by
  split_ifs
  · exact ha
  · exact hb

lemma applyOp_inRange (hx : x.InRange) (hop : op.InRange)
    (h : applyOp (some x) op = .ok x') : x'.InRange := by
  cases op with
  | assign v => cases h; exact hop
  | add d =>
    cases d with
    | int i =>
      by_cases hf : IsFloat x
      · cases x <;> first | exact hf.elim | (cases h; trivial)
      · obtain ⟨-, -, -, hw⟩ := apply_int_ok h hf
        exact hw
    | float f => cases x <;> cases h <;> trivial
  | max v => cases h; exact ite_inRange hx hop
  | min v => cases h; exact ite_inRange hx hop
  | _ => cases h

lemma replay_cons (h : replay x (op :: ops) = .ok w) :
    ∃ x', applyOp (some x) op = .ok x' ∧ replay x' ops = .ok w := by
  simp only [replay] at h
  exact bind_ok.mp h

lemma replay_append {ops' : List OpKind} (h : replay x (ops ++ ops') = .ok w) :
    ∃ x', replay x ops = .ok x' ∧ replay x' ops' = .ok w := by
  simp only [replay, foldlM_append] at h
  exact bind_ok.mp h

lemma replay_inRange (hx : x.InRange) (hops : ∀ op ∈ ops, op.InRange)
    (h : replay x ops = .ok w) : w.InRange := by
  induction ops generalizing x with
  | nil =>
    cases h
    exact hx
  | cons op ops ih =>
    obtain ⟨x', hx', hrest⟩ := replay_cons h
    have hop := hops op mem_cons_self
    exact ih (applyOp_inRange hx hop hx') (fun o ho => hops o (.tail _ ho)) hrest

/-! ## One run -/

/-- The effect takes the value at the start of what it stands for to the present one. -/
def Follows (start : Value) (acc : OpKind) (x : Value) : Prop :=
  match acc with
  | .assign v => x = v
  | .max v => v.InRange ∧ x.key = max start.key v.key
  | .min v => v.InRange ∧ x.key = min start.key v.key
  | _ => False

lemma key_max (ha : a.InRange) (hb : b.InRange) :
    (if a.cmp b = .gt then a else b).key = max a.key b.key := by
  split_ifs with h
  · exact (max_eq_left ((Value.cmp_eq_gt ha hb).mp h).le).symm
  · exact (max_eq_right (not_lt.mp fun hlt => h ((Value.cmp_eq_gt ha hb).mpr hlt))).symm

lemma key_min (ha : a.InRange) (hb : b.InRange) :
    (if a.cmp b = .lt then a else b).key = min a.key b.key := by
  split_ifs with h
  · exact (min_eq_left ((Value.cmp_eq_lt ha hb).mp h).le).symm
  · exact (min_eq_right (not_lt.mp fun hlt => h ((Value.cmp_eq_lt ha hb).mpr hlt))).symm

/-- An effect that is no increment stands for itself. -/
lemma follows_first (hx : x.InRange) (hop : op.InRange) (hadd : ∀ d, op ≠ .add d)
    (h : applyOp (some x) op = .ok x') : Follows x op x' := by
  cases op with
  | assign v =>
    cases h
    rfl
  | add d => exact absurd rfl (hadd d)
  | max v =>
    cases h
    exact ⟨hop, key_max hx hop⟩
  | min v =>
    cases h
    exact ⟨hop, key_min hx hop⟩
  | _ => cases h

lemma Follows.applyOp (hs : start.InRange) (hx : x.InRange) (h : Follows start acc x) :
    ∃ v, applyOp (some start) acc = .ok v ∧ v.InRange ∧ v.key = x.key := by
  cases acc with
  | assign v =>
    obtain rfl : x = v := h
    exact ⟨x, rfl, hx, rfl⟩
  | max v => exact ⟨_, rfl, ite_inRange hs h.1, by rw [key_max hs h.1, h.2]⟩
  | min v => exact ⟨_, rfl, ite_inRange hs h.1, by rw [key_min hs h.1, h.2]⟩
  | _ => exact h.elim

/-- One more effect of the run. -/
lemma Follows.step (hx : x.InRange) (hop : op.InRange) (hj : joins acc op = true)
    (hf : Follows start acc x) (h : Agent.applyOp (some x) op = .ok x') :
    ∃ acc', composeStep acc op = .ok acc' ∧ Follows start acc' x' := by
  cases acc <;> cases op <;> try cases hj
  case assign.add v d =>
    obtain rfl : x = v := hf
    have hd : d.apply x = .ok x' := h
    exact ⟨.assign x', by simp [composeStep, hd, Except.map], rfl⟩
  case add.add => exact hf.elim
  case max.max a v =>
    cases h
    refine ⟨_, rfl, ite_inRange hop hf.1, ?_⟩
    rw [key_max hx hop, key_max hop hf.1, hf.2, max_assoc, max_comm a.key]
  case min.min a v =>
    cases h
    refine ⟨_, rfl, ite_inRange hop hf.1, ?_⟩
    rw [key_min hx hop, key_min hop hf.1, hf.2, min_assoc, min_comm a.key]

/-- The accumulated effect joins what the last effect of its run joins. -/
lemma joins_composeStep (hj : joins acc op = true) (h : composeStep acc op = .ok acc') :
    joins acc' = joins op := by
  funext o
  cases acc <;> cases op <;> cases hj
  case add.add =>
    obtain ⟨d, -, rfl⟩ := map_ok.mp h
    cases o <;> rfl
  case assign.add =>
    obtain ⟨d, -, rfl⟩ := map_ok.mp h
    cases o <;> rfl
  all_goals
    cases h
    cases o <;> rfl

/-- An effect of another run replaces what was accumulated. -/
lemma composeStep_drops (hj : joins acc op = false) : composeStep acc op = .ok op := by
  cases acc <;> cases op <;> first | rfl | cases hj

section Run

variable (hchain : IsChain (fun a b => joins a b) (prev :: ops)) (hprev : joins acc = joins prev)
include hchain hprev

/-- The effect a run comes to joins what its last effect joins. -/
lemma joins_foldlM (h : ops.foldlM composeStep acc = .ok acc') :
    joins acc' = joins ((prev :: ops).getLast (cons_ne_nil _ _)) := by
  induction ops generalizing acc prev with
  | nil =>
    cases h
    exact hprev
  | cons op ops ih =>
    obtain ⟨hj, hchain⟩ := isChain_cons_cons.mp hchain
    obtain ⟨acc₁, hstep, h⟩ := bind_ok.mp h
    rw [getLast_cons_cons]
    exact ih hchain (joins_composeStep (by rw [hprev]; exact hj) hstep) h

/-- A run of other effects than increments never fails to compose, and stands for itself. -/
lemma Follows.foldlM (hx : x.InRange) (hops : ∀ op ∈ ops, op.InRange) (hf : Follows start acc x)
    (h : replay x ops = .ok w) :
    ∃ acc', ops.foldlM composeStep acc = .ok acc' ∧ Follows start acc' w := by
  induction ops generalizing acc prev x with
  | nil =>
    cases h
    exact ⟨acc, rfl, hf⟩
  | cons op ops ih =>
    obtain ⟨hj, hchain⟩ := isChain_cons_cons.mp hchain
    obtain ⟨x', hx', hrest⟩ := replay_cons h
    have hj' : joins acc op = true := by rw [hprev]; exact hj
    have hop := hops op mem_cons_self
    obtain ⟨acc₁, hstep, hf₁⟩ := hf.step hx hop hj' hx'
    obtain ⟨acc', hfold, hf'⟩ := ih hchain (joins_composeStep hj' hstep)
      (applyOp_inRange hx hop hx') (fun o ho => hops o (.tail _ ho)) hf₁ hrest
    exact ⟨acc', by rw [foldlM_cons, hstep]; exact hfold, hf'⟩

end Run

/-- A run of increments comes to their sum. -/
lemma composeOps_adds {d e : Delta} (hchain : IsChain (fun a b => joins a b) (.add e :: ops)) :
    ops.foldlM composeStep (.add d) = (addUp d ops).map .add := by
  induction ops generalizing d e with
  | nil => rfl
  | cons op ops ih =>
    obtain ⟨hj, hchain⟩ := isChain_cons_cons.mp hchain
    cases op with
    | add f =>
      rw [foldlM_cons, addUp, composeStep]
      cases d.compose f with
      | error e => rfl
      | ok d' => exact ih hchain
    | _ => cases hj

/-- A run of maxima or minima can be replayed on any value. -/
lemma replay_bounds (hprev : (∃ v, prev = .max v) ∨ ∃ v, prev = .min v)
    (hchain : IsChain (fun a b => joins a b) (prev :: ops)) (x : Value) :
    ∃ w, replay x ops = .ok w := by
  induction ops generalizing prev x with
  | nil => exact ⟨x, rfl⟩
  | cons op ops ih =>
    obtain ⟨hj, hrest⟩ := isChain_cons_cons.mp hchain
    obtain ⟨v, rfl⟩ | ⟨v, rfl⟩ := hprev
    · cases op <;> cases hj
      exact ih (.inl ⟨_, rfl⟩) hrest _
    · cases op <;> cases hj
      exact ih (.inr ⟨_, rfl⟩) hrest _

/-- What a run composes to, on a base that need not be the value it was replayed on. -/
lemma composeOps_run (hne : run ≠ []) (hchain : IsChain (fun a b => joins a b) run)
    (hbase : base.InRange) (hops : ∀ op ∈ run, op.InRange) (h : replay x run = .ok w) :
    ((∃ k, composeOps run = .ok k) ↔ AddsUp run) ∧
      ∀ k, composeOps run = .ok k → ∀ w : Value, w.InRange →
        ((∃ v, applyOp (some base) k = .ok v ∧ v.eqv w = true) ↔ Leaves base run w) := by
  obtain ⟨op, ops, rfl⟩ := exists_cons_of_ne_nil hne
  by_cases hadd : ∃ d, op = .add d
  · obtain ⟨d, rfl⟩ := hadd
    have hcomp : composeOps (.add d :: ops) = (addUp d ops).map .add := composeOps_adds hchain
    rw [hcomp]
    refine ⟨⟨?_, fun hsum => ?_⟩, fun k hk w _ => ?_⟩
    · rintro ⟨k, hk⟩ _ _ ⟨⟩
      obtain ⟨total, htotal, -⟩ := map_ok.mp hk
      exact ⟨total, htotal⟩
    · obtain ⟨total, htotal⟩ := hsum d ops rfl
      exact ⟨.add total, by rw [htotal]; rfl⟩
    · obtain ⟨total, htotal, rfl⟩ := map_ok.mp hk
      have hsettle : settle base (.add d :: ops) = total.apply base := by simp [settle, htotal]
      rw [Leaves, hsettle]
      rfl
  · push Not at hadd
    have hsettle : settle base (op :: ops) = replay base (op :: ops) := by
      cases op <;> first | exact absurd rfl (hadd _) | rfl
    -- an assignment makes nothing of the value before it, and bounds apply to any value
    obtain ⟨y, hy⟩ : ∃ y, replay base (op :: ops) = .ok y := by
      obtain ⟨x', hx', hrest⟩ := replay_cons h
      cases op with
      | assign v => exact ⟨w, h⟩
      | max v => exact replay_bounds (.inl ⟨v, rfl⟩) hchain _
      | min v => exact replay_bounds (.inr ⟨v, rfl⟩) hchain _
      | add d => exact absurd rfl (hadd d)
      | _ => cases hx'
    obtain ⟨x', hx', hrest⟩ := replay_cons hy
    have hop := hops op mem_cons_self
    obtain ⟨acc, hfold, hf⟩ := (follows_first hbase hop hadd hx').foldlM hchain rfl
      (applyOp_inRange hbase hop hx') (fun o ho => hops o (.tail _ ho)) hrest
    have hfold : composeOps (op :: ops) = .ok acc := hfold
    obtain ⟨v, hv, hvr, hkey⟩ := hf.applyOp hbase (replay_inRange hbase hops hy)
    refine ⟨iff_of_true ⟨acc, hfold⟩ fun d ops' hcons => ?_, fun k hk w hw => ?_⟩
    · exact absurd (cons.inj hcons).1 (hadd d)
    · obtain rfl : acc = k := ok.inj (hfold.symm.trans hk)
      have heqv : v.eqv w = true ↔ y.eqv w = true := by
        rw [Value.eqv_iff hvr hw, Value.eqv_iff (replay_inRange hbase hops hy) hw, hkey]
      simp [Leaves, hsettle, hy, hv, heqv]

/-! ## All runs -/

/-- Where a run ends, what it came to is dropped. -/
lemma composeOps_append (hne : run ≠ []) (hchain : IsChain (fun a b => joins a b) run)
    (hcut : joins (run.getLast hne) op = false) :
    composeOps (run ++ op :: ops) = composeOps run >>= fun _ => composeOps (op :: ops) := by
  obtain ⟨first, rest, rfl⟩ := exists_cons_of_ne_nil hne
  simp only [composeOps, cons_append, foldlM_append]
  cases h : rest.foldlM composeStep first with
  | error e => rfl
  | ok acc =>
    have hacc : joins acc op = false := by rw [joins_foldlM hchain rfl h, hcut]
    rw [ok_bind, ok_bind, foldlM_cons, composeStep_drops hacc, ok_bind]

/-- Composing goes through every run and returns what the last one comes to. -/
lemma composeOps_flatten {rs : List (List OpKind)} (hne : ∀ r ∈ rs, r ≠ [])
    (hchain : ∀ r ∈ rs, IsChain (fun a b => joins a b) r)
    (hcut : rs.IsChain fun a b => ∃ ha hb, joins (a.getLast ha) (b.head hb) = false)
    (k : OpKind) : composeOps rs.flatten = .ok k ↔ (∀ r ∈ rs, ∃ k, composeOps r = .ok k) ∧
      ∃ run, rs.getLast? = some run ∧ composeOps run = .ok k := by
  induction rs with
  | nil => simp [composeOps]
  | cons r rs ih =>
    cases rs with
    | nil => simpa using fun h => ⟨k, h⟩
    | cons r' rs =>
      obtain ⟨⟨hr, hr', hjoin⟩, hcut⟩ := isChain_cons_cons.mp hcut
      have ih := ih (fun r hr => hne r (.tail _ hr)) (fun r hr => hchain r (.tail _ hr)) hcut
      obtain ⟨op, ops, rfl⟩ := exists_cons_of_ne_nil hr'
      have happend : composeOps (r ++ op :: (ops ++ rs.flatten)) =
          composeOps r >>= fun _ => composeOps (op :: (ops ++ rs.flatten)) :=
        composeOps_append hr (hchain r mem_cons_self) hjoin
      rw [flatten_cons, flatten_cons, cons_append, head_cons] at *
      rw [happend, bind_ok, getLast?_cons_cons, forall_mem_cons, and_assoc, ← ih]
      simp

section Runs

variable (hbase : base.InRange) (hops : ∀ op ∈ ops, op.InRange) (hreplay : replay base ops = .ok w)
include hreplay

/-- Every run of a list that can be replayed is itself replayed on some value. -/
lemma replay_of_mem_runs (hr : run ∈ runs ops) : ∃ x y, replay x run = .ok y := by
  obtain ⟨before, after, hsplit⟩ := append_of_mem hr
  have hflat : ops = before.flatten ++ (run ++ after.flatten) := by
    rw [← flatten_splitBy joins ops, ← runs, hsplit, flatten_append, flatten_cons]
  rw [hflat] at hreplay
  obtain ⟨x, -, h⟩ := replay_append hreplay
  obtain ⟨y, h, -⟩ := replay_append h
  exact ⟨x, y, h⟩

include hbase hops

lemma composeOps_of_mem_runs (hr : run ∈ runs ops) :
    ((∃ k, composeOps run = .ok k) ↔ AddsUp run) ∧ ∀ k, composeOps run = .ok k →
      ((∃ v, applyOp (some base) k = .ok v ∧ v.eqv w = true) ↔ Leaves base run w) := by
  obtain ⟨x, y, h⟩ := replay_of_mem_runs hreplay hr
  have hrun : ∀ op ∈ run, op.InRange := by
    intro op hop
    apply hops
    rw [← flatten_splitBy joins ops]
    exact mem_flatten_of_mem hr hop
  obtain ⟨hadds, hleaves⟩ := composeOps_run (ne_nil_of_mem_splitBy hr)
    (isChain_of_mem_splitBy hr) hbase hrun h
  exact ⟨hadds, fun k hk => hleaves k hk w (replay_inRange hbase hops hreplay)⟩

end Runs

end FerroDb.Agent
