import FerroDb.Agent.Compose

/-!
# Folding one side of a cell

`fold_side` reduces what one branch did to a cell to one net effect, after `tel/engine.rs`. Where
two kinds of effect do not combine, the accumulated one is resolved against the base and an
assignment takes its place, so that nothing is lost. Only increments ahead of everything else are
added up before the base is known; on floats that rounds in another order.
-/

namespace FerroDb.Tel

open Agent (Op OpKind Delta Dot addUp applyOp applyOp_inRange joins replay replay_append
  replay_cons settle)
open Library (bind_ok foldlM_ok map_ok pick_assoc)
open Sql Except List

structure StampedOp where
  op : Op
  branch : BranchId
  txn : ℕ
  seq : ℕ
deriving DecidableEq

/-- The order of writes: by transaction, then by the position in the branch. -/
def StampedOp.stamp (s : StampedOp) : ℕ × ℕ := (s.txn, s.seq)

/-- What one side did to a set. -/
structure SetChange where
  inserts : List (Value × Dot)
  removes : List (Value × List Dot)
deriving DecidableEq

def SetChange.empty : SetChange := ⟨[], []⟩

/-- The net effect of one side on a cell. -/
inductive SideEffect where
  | assign (v : Value)
  | add (d : Delta)
  | max (v : Value)
  | min (v : Value)
  | set (c : SetChange)
deriving DecidableEq

namespace SideEffect

def kindName : SideEffect → String
  | assign _ => "Assign"
  | add _ => "Add"
  | max _ => "Max"
  | min _ => "Min"
  | set _ => "Set"

def resolve (base : Option Value) : SideEffect → Except FerroError Value
  | assign v => .ok v
  | add d =>
    match base with
    | none => .error (.merge "cannot resolve an Add without the LCA value")
    | some b => d.apply b
  | max v =>
    match base with
    | some b => .ok (if b.cmp v = .gt then b else v)
    | none => .ok v
  | min v =>
    match base with
    | some b => .ok (if b.cmp v = .lt then b else v)
    | none => .ok v
  | set _ => .error (.merge "set-valued columns have no scalar resolution")

end SideEffect

/-- One more effect on top of the accumulated one. -/
def foldStep (base : Option Value) :
    Option SideEffect → OpKind → Except FerroError SideEffect
  | _, .assign v => .ok (.assign v)
  | none, .add d => .ok (.add d)
  | some (.add d₀), .add d => (d₀.compose d).map .add
  | some (.assign v), .add d => (d.apply v).map .assign
  | some (.set _), .add _ =>
    .error (.merge "cannot apply a numeric delta to a set-valued column")
  | some acc, .add d => do .assign <$> d.apply (← acc.resolve base)
  | none, .max v => .ok (.max v)
  | none, .min v => .ok (.min v)
  | some (.max a), .max v => .ok (.max (if a.cmp v = .gt then a else v))
  | some (.min a), .min v => .ok (.min (if a.cmp v = .lt then a else v))
  | some (.assign a), .max v => .ok (.assign (if a.cmp v = .gt then a else v))
  | some (.assign a), .min v => .ok (.assign (if a.cmp v = .lt then a else v))
  | some acc, .max v => do
    let r ← acc.resolve base
    return .assign (if r.cmp v = .gt then r else v)
  | some acc, .min v => do
    let r ← acc.resolve base
    return .assign (if r.cmp v = .lt then r else v)
  | none, .setInsert elem dot => .ok (.set ⟨[(elem, dot)], []⟩)
  | none, .setRemove elem dots => .ok (.set ⟨[], [(elem, dots)]⟩)
  | some (.set c), .setInsert elem dot =>
    .ok (.set { c with inserts := c.inserts ++ [(elem, dot)] })
  | some (.set c), .setRemove elem dots =>
    .ok (.set { c with removes := c.removes ++ [(elem, dots)] })
  | some acc, .setInsert elem dot =>
    .error (.merge ("cannot fold " ++ (OpKind.setInsert elem dot).name ++ " after " ++
      acc.kindName ++ " on the same cell: a column is set-valued or it is not, and mixing the " ++
      "two is a capture bug"))
  | some acc, .setRemove elem dots =>
    .error (.merge ("cannot fold " ++ (OpKind.setRemove elem dots).name ++ " after " ++
      acc.kindName ++ " on the same cell: a column is set-valued or it is not, and mixing the " ++
      "two is a capture bug"))
  | _, .rowCreate image =>
    .error (.merge ((OpKind.rowCreate image).name ++
      " carried a column reference; whole-row ops must have col = None"))
  | _, .rowDelete =>
    .error (.merge (OpKind.rowDelete.name ++
      " carried a column reference; whole-row ops must have col = None"))

def foldKinds (base : Option Value) (kinds : List OpKind) :
    Except FerroError (Option SideEffect) :=
  kinds.foldlM (fun acc k => some <$> foldStep base acc k) none

def foldSide (ops : List StampedOp) (base : Option Value) :
    Except FerroError (Option SideEffect) :=
  foldKinds base (ops.map (·.op.kind))

/-- What the cell becomes by one side: a side that did nothing leaves the base. -/
def resolved (b : Value) : Option SideEffect → Except FerroError Value
  | none => .ok b
  | some e => e.resolve (some b)

/-! ## Faithfulness -/

def isAdd : OpKind → Bool
  | .add _ => true
  | _ => false

def isSetKind : OpKind → Bool
  | .setInsert .. | .setRemove .. => true
  | _ => false

/-- The increments ahead of every other effect come to the same added up first as one by one. -/
def LeadingExact (b : Value) (kinds : List OpKind) : Prop :=
  settle b (kinds.takeWhile isAdd) = replay b (kinds.takeWhile isAdd)

variable {a b c : Value}

lemma pick_cmp_assoc {o : Ordering} (ho : o ≠ .eq) (ha : a.InRange) (hb : b.InRange)
    (hc : c.InRange) :
    (if (if a.cmp b = o then a else b).cmp c = o then (if a.cmp b = o then a else b) else c) =
      if a.cmp (if b.cmp c = o then b else c) = o then a else if b.cmp c = o then b else c := by
  apply pick_assoc (r := fun x y : Value => x.cmp y = o)
  all_goals
    rw [Value.cmp_eq ha hb, Value.cmp_eq hb hc, Value.cmp_eq ha hc]
    cases o <;> grind [compare_lt_iff_lt, compare_gt_iff_gt]

section Faithful

variable {b x x' w : Value} {e : SideEffect} {k : OpKind} {kinds : List OpKind}

/-- The values an effect carries are in range. -/
def SideEffect.InRange : SideEffect → Prop
  | .assign v | .max v | .min v => v.InRange
  | _ => True

lemma foldStep_first (h : applyOp (some b) k = .ok x) :
    ∃ e, foldStep (some b) none k = .ok e ∧ e.resolve (some b) = .ok x ∧
      (k.InRange → e.InRange) ∧ ∀ d, e = .add d ↔ k = .add d := by
  cases k with
  | assign v => exact ⟨_, rfl, h, id, by simp⟩
  | add d => exact ⟨_, rfl, h, fun _ => trivial, by simp⟩
  | max v => exact ⟨_, rfl, h, id, by simp⟩
  | min v => exact ⟨_, rfl, h, id, by simp⟩
  | _ => cases h

/-- The effect as it is written to a cell. -/
def SideEffect.toKind : SideEffect → Option OpKind
  | .assign v => some (.assign v)
  | .add d => some (.add d)
  | .max v => some (.max v)
  | .min v => some (.min v)
  | .set _ => none

lemma resolve_eq (h : e.resolve (some b) = .ok x) :
    ∃ k, e.toKind = some k ∧ applyOp (some b) k = .ok x ∧ (e.InRange → k.InRange) := by
  cases e with
  | assign v => exact ⟨_, rfl, h, id⟩
  | add d => exact ⟨_, rfl, h, id⟩
  | max v => exact ⟨_, rfl, h, id⟩
  | min v => exact ⟨_, rfl, h, id⟩
  | set c => cases h

lemma resolve_inRange (hb : b.InRange) (he : e.InRange) (h : e.resolve (some b) = .ok x) :
    x.InRange := by
  obtain ⟨k, -, hk, hr⟩ := resolve_eq h
  exact applyOp_inRange hb (hr he) hk

/-- One step: what the accumulated effect resolves to follows the cell. -/
lemma foldStep_next (hb : b.InRange) (he : e.InRange) (hk : k.InRange)
    (hadds : ∀ d₀ d, e = .add d₀ → k ≠ .add d)
    (hres : e.resolve (some b) = .ok x) (h : applyOp (some x) k = .ok x') :
    ∃ e', foldStep (some b) (some e) k = .ok e' ∧ e'.resolve (some b) = .ok x' ∧ e'.InRange ∧
      ∀ d, e' ≠ .add d := by
  have hx : x.InRange := resolve_inRange hb he hres
  have hx' : x'.InRange := applyOp_inRange hx hk h
  cases k with
  | assign v => exact ⟨.assign v, rfl, h, hk, by simp⟩
  | add d =>
    have hd : d.apply x = .ok x' := h
    cases e with
    | assign v =>
      obtain rfl : v = x := ok.inj hres
      exact ⟨.assign x', by simp [foldStep, hd, Except.map], rfl, hx', by simp⟩
    | add d₀ => exact absurd rfl (hadds d₀ d rfl)
    | max v => exact ⟨.assign x', by simp [foldStep, hres, hd], rfl, hx', by simp⟩
    | min v => exact ⟨.assign x', by simp [foldStep, hres, hd], rfl, hx', by simp⟩
    | set c => cases hres
  | max v =>
    obtain rfl := ok.inj h
    cases e with
    | assign a =>
      obtain rfl : a = x := ok.inj hres
      exact ⟨_, rfl, rfl, hx', by simp⟩
    | max a =>
      obtain rfl := ok.inj hres
      exact ⟨_, rfl, congrArg ok (pick_cmp_assoc (by decide) hb he hk).symm,
        Agent.ite_inRange he hk, by simp⟩
    | add d => exact ⟨.assign _, by simp [foldStep, hres], rfl, hx', by simp⟩
    | min a => exact ⟨.assign _, by simp [foldStep, hres], rfl, hx', by simp⟩
    | set c => cases hres
  | min v =>
    obtain rfl := ok.inj h
    cases e with
    | assign a =>
      obtain rfl : a = x := ok.inj hres
      exact ⟨_, rfl, rfl, hx', by simp⟩
    | min a =>
      obtain rfl := ok.inj hres
      exact ⟨_, rfl, congrArg ok (pick_cmp_assoc (by decide) hb he hk).symm,
        Agent.ite_inRange he hk, by simp⟩
    | add d => exact ⟨.assign _, by simp [foldStep, hres], rfl, hx', by simp⟩
    | max a => exact ⟨.assign _, by simp [foldStep, hres], rfl, hx', by simp⟩
    | set c => cases hres
  | _ => cases h

/-- The fold from an accumulated effect, which no increment follows if it is one. -/
lemma foldKinds_next (hb : b.InRange) (he : e.InRange) (hk : ∀ k ∈ kinds, k.InRange)
    (hadds : ∀ d₀ d, e = .add d₀ → kinds.head? ≠ some (.add d))
    (hres : e.resolve (some b) = .ok x) (h : replay x kinds = .ok w) :
    ∃ e', kinds.foldlM (fun acc k => some <$> foldStep (some b) acc k) (some e) = .ok (some e') ∧
      e'.resolve (some b) = .ok w := by
  induction kinds generalizing e x with
  | nil => exact ⟨e, rfl, hres.trans h⟩
  | cons k kinds ih =>
    obtain ⟨x', hx', hrest⟩ := replay_cons h
    obtain ⟨e', hfold, hres', he', hadd'⟩ := foldStep_next hb he (hk k mem_cons_self)
      (fun d₀ d h₀ hd => hadds d₀ d h₀ (congrArg some hd)) hres hx'
    obtain ⟨e'', hfold', hres''⟩ := ih he' (fun k' hk' => hk k' (.tail _ hk'))
      (fun d₀ _ h₀ => absurd h₀ (hadd' d₀)) hres' hrest
    exact ⟨e'', by rw [foldlM_cons, hfold]; exact hfold', hres''⟩

/-- Increments are added up, whatever the base. -/
lemma foldlM_adds {base : Option Value} {d : Delta} (h : ∀ k ∈ kinds, isAdd k = true) :
    kinds.foldlM (fun acc k => some <$> foldStep base acc k) (some (.add d)) =
      (addUp d kinds).map fun total => some (.add total) := by
  induction kinds generalizing d with
  | nil => rfl
  | cons k kinds ih =>
    have hk := h k mem_cons_self
    cases k with
    | add d' =>
      rw [foldlM_cons, addUp, foldStep]
      cases d.compose d' with
      | error e => rfl
      | ok d'' => exact ih fun k' hk' => h k' (.tail _ hk')
    | _ => cases hk

/-- The net effect of one side, resolved against the base, is what its effects do one after
another. -/
lemma foldKinds_faithful (hb : b.InRange) (hk : ∀ k ∈ kinds, k.InRange)
    (hlead : LeadingExact b kinds) (h : replay b kinds = .ok w) :
    ∃ e, foldKinds (some b) kinds = .ok e ∧ resolved b e = .ok w := by
  have hsplit : kinds.takeWhile isAdd ++ kinds.dropWhile isAdd = kinds :=
    takeWhile_append_dropWhile
  have hhead : ∀ d, (kinds.dropWhile isAdd).head? ≠ some (.add d) := by
    intro d hd
    have := head?_dropWhile_not isAdd kinds
    rw [hd] at this
    cases this
  have hadds : ∀ k ∈ kinds.takeWhile isAdd, isAdd k = true := fun k => mem_takeWhile_imp
  unfold LeadingExact at hlead
  rw [← hsplit] at h hk ⊢
  generalize kinds.takeWhile isAdd = leads at *
  generalize kinds.dropWhile isAdd = rest at *
  obtain ⟨x, hx, hrest⟩ := replay_append h
  have hkrest : ∀ k ∈ rest, k.InRange := fun k hk' => hk k (mem_append_right _ hk')
  rw [foldKinds, foldlM_append]
  obtain _ | ⟨k, leads⟩ := leads
  · -- nothing is added up ahead of the rest
    obtain rfl : b = x := ok.inj hx
    obtain _ | ⟨k, rest⟩ := rest
    · exact ⟨none, rfl, hrest⟩
    · obtain ⟨y, hy, hrest⟩ := replay_cons hrest
      obtain ⟨e, hfold, hres, he, hadd⟩ := foldStep_first hy
      obtain ⟨e', hfold', hres'⟩ := foldKinds_next hb (he (hkrest k mem_cons_self))
        (fun k' hk' => hkrest k' (.tail _ hk'))
        (fun d₀ _ h₀ => absurd (congrArg some ((hadd d₀).mp h₀)) (hhead d₀)) hres hrest
      refine ⟨some e', ?_, hres'⟩
      rw [foldlM_nil, pure_bind, foldlM_cons, hfold]
      exact hfold'
  · have hadd := hadds k mem_cons_self
    cases k with
    | add d =>
      rw [hx, settle] at hlead
      obtain ⟨total, htotal, hres⟩ := bind_ok.mp hlead
      obtain ⟨e', hfold', hres'⟩ := foldKinds_next (e := .add total) hb trivial hkrest
        (fun _ d' _ => hhead d') hres hrest
      refine ⟨some e', ?_, hres'⟩
      have hlead : foldStep (some b) none (.add d) = .ok (.add d) := rfl
      rw [foldlM_cons, hlead, Library.ok_map, Library.ok_bind,
        foldlM_adds fun k' hk' => hadds k' (.tail _ hk'), htotal]
      exact hfold'
    | _ => cases hadd

end Faithful

/-! ## Folds that do not ask for the base -/

section Runs

variable {base base' : Option Value} {e e' : SideEffect} {k k₀ : OpKind} {kinds : List OpKind}

/-- An effect that is made one with the accumulated one needs no base, and what comes of it is
made one with the same effects as the last. -/
lemma foldStep_joins (base base' : Option Value) (he : e.toKind = some k₀)
    (hk : joins k₀ k = true) : foldStep base (some e) k = foldStep base' (some e) k ∧
      ∀ e', foldStep base (some e) k = .ok e' →
        ∃ k', e'.toKind = some k' ∧ ∀ x, joins k' x = joins k x := by
  cases e <;> cases he <;> cases k <;> cases hk
  case assign.refl.add v d =>
    refine ⟨rfl, fun e' h => ?_⟩
    obtain ⟨v', -, rfl⟩ := map_ok.mp h
    exact ⟨_, rfl, fun x => by cases x <;> rfl⟩
  case add.refl.add d d' =>
    refine ⟨rfl, fun e' h => ?_⟩
    obtain ⟨d'', -, rfl⟩ := map_ok.mp h
    exact ⟨_, rfl, fun x => by cases x <;> rfl⟩
  all_goals
    refine ⟨rfl, fun e' h => ?_⟩
    cases h
    exact ⟨_, rfl, fun x => by cases x <;> rfl⟩

/-- Any other effect makes an assignment of the two. -/
lemma foldStep_cuts (he : e.toKind = some k₀) (hk : joins k₀ k = false)
    (h : foldStep base (some e) k = .ok e') : ∃ a, e' = .assign a := by
  cases e <;> cases he <;> cases k <;> cases hk <;>
    first
    | exact ⟨_, (ok.inj h).symm⟩
    | cases h
    | exact (bind_ok.mp h).elim fun _ h => ⟨_, (ok.inj h.2).symm⟩
    | exact (bind_ok.mp h).elim fun _ h => (map_ok.mp h.2).elim fun _ h => ⟨_, h.2.symm⟩

/-- An assignment is never taken back into a relative effect. -/
lemma foldlM_assign {a : Value}
    (h : kinds.foldlM (fun acc k => some <$> foldStep base acc k) (some (.assign a))
      = .ok (some e)) : ∃ a', e = .assign a' := by
  refine (foldlM_ok (P := fun acc : Option SideEffect => ∃ a', acc = some (.assign a')) ?_
    ⟨a, rfl⟩ h).imp fun a' ha' => Option.some.inj ha'
  rintro _ k acc' - ⟨a₀, rfl⟩ hstep
  obtain ⟨e', he', rfl⟩ := map_ok.mp hstep
  cases k with
  | add d =>
    obtain ⟨v, -, rfl⟩ := map_ok.mp he'
    exact ⟨v, rfl⟩
  | assign v => cases he'; exact ⟨_, rfl⟩
  | max v => cases he'; exact ⟨_, rfl⟩
  | min v => cases he'; exact ⟨_, rfl⟩
  | _ => cases he'

/-- The effects make one run. -/
def OneRun (kinds : List OpKind) : Prop := kinds.IsChain fun a b => joins a b = true

lemma OneRun.head (h : OneRun (k₀ :: kinds)) (hk : ∀ x, joins k x = joins k₀ x) :
    OneRun (k :: kinds) := by
  cases kinds with
  | nil => exact .singleton k
  | cons x kinds =>
    obtain ⟨hx, hrest⟩ := isChain_cons_cons.mp h
    exact isChain_cons_cons.mpr ⟨(hk x).trans hx, hrest⟩

lemma OneRun.foldlM_eq (h : OneRun (k₀ :: kinds)) (he : e.toKind = some k₀) :
    kinds.foldlM (fun acc k => some <$> foldStep base acc k) (some e) =
      kinds.foldlM (fun acc k => some <$> foldStep base' acc k) (some e) := by
  induction kinds generalizing e k₀ with
  | nil => rfl
  | cons k kinds ih =>
    obtain ⟨hk, hrest⟩ := isChain_cons_cons.mp h
    obtain ⟨hsame, hnext⟩ := foldStep_joins base base' he hk
    rw [foldlM_cons, foldlM_cons, ← hsame]
    cases hstep : foldStep base (some e) k with
    | error err => rfl
    | ok e' =>
      obtain ⟨k', hk', hjoins⟩ := hnext e' hstep
      exact ih (OneRun.head hrest hjoins) hk'

/-- A fold over one run does not ask for the base. -/
lemma OneRun.foldKinds_eq (h : OneRun kinds) : foldKinds base kinds = foldKinds base' kinds := by
  cases kinds with
  | nil => rfl
  | cons k kinds =>
    have hsame : foldStep base none k = foldStep base' none k := by cases k <;> rfl
    rw [foldKinds, foldKinds, foldlM_cons, foldlM_cons, ← hsame]
    cases k with
    | assign v => exact h.foldlM_eq rfl
    | add d => exact h.foldlM_eq rfl
    | max v => exact h.foldlM_eq rfl
    | min v => exact h.foldlM_eq rfl
    | setInsert elem dot =>
      cases kinds with
      | nil => rfl
      | cons k kinds => cases (isChain_cons_cons.mp h).1
    | setRemove elem dots =>
      cases kinds with
      | nil => rfl
      | cons k kinds => cases (isChain_cons_cons.mp h).1
    | _ => rfl

lemma foldlM_of_not_oneRun (he : e.toKind = some k₀) (hcut : ¬OneRun (k₀ :: kinds))
    (h : kinds.foldlM (fun acc k => some <$> foldStep base acc k) (some e) = .ok (some e')) :
    ∃ a, e' = .assign a := by
  induction kinds generalizing e k₀ with
  | nil => exact absurd (.singleton k₀) hcut
  | cons k kinds ih =>
    rw [foldlM_cons] at h
    obtain ⟨_, hsome, hrest⟩ := bind_ok.mp h
    obtain ⟨e₁, hstep, rfl⟩ := map_ok.mp hsome
    cases hk : joins k₀ k with
    | true =>
      obtain ⟨k', hk', hjoins⟩ := (foldStep_joins base base he hk).2 e₁ hstep
      refine ih hk' (fun hrun => hcut (isChain_cons_cons.mpr ⟨hk, ?_⟩)) hrest
      exact OneRun.head hrun fun x => (hjoins x).symm
    | false =>
      obtain ⟨a, rfl⟩ := foldStep_cuts he hk hstep
      exact foldlM_assign hrest

/-- A fold over more than one run ends in an assignment. -/
lemma foldKinds_of_not_oneRun (hset : ∀ k ∈ kinds, isSetKind k = false) (hcut : ¬OneRun kinds)
    (h : foldKinds base kinds = .ok (some e)) : ∃ a, e = .assign a := by
  cases kinds with
  | nil => exact absurd .nil hcut
  | cons k kinds =>
    rw [foldKinds, foldlM_cons] at h
    obtain ⟨_, hsome, hrest⟩ := bind_ok.mp h
    obtain ⟨e₁, hstep, rfl⟩ := map_ok.mp hsome
    have hk := hset k mem_cons_self
    cases k with
    | setInsert elem dot => cases hk
    | setRemove elem dots => cases hk
    | _ => cases hstep <;> exact foldlM_of_not_oneRun rfl hcut hrest

end Runs

end FerroDb.Tel
