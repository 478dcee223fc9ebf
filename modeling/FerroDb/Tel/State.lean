import FerroDb.Agent.Guard
import FerroDb.Library.Fallible

/-!
# The state guards are checked against

`ComposedState` overlays a snapshot with the cells written, the rows created and the rows deleted
during a merge, after `tel/engine.rs`. Beside it stands the plain table on which the same effects
are executed: deleting a row takes its cells away, and creating it again brings its image and
nothing else. The two read alike exactly as long as no row is created over cells that were
written before, and no cell is written that is not there.
-/

namespace FerroDb.Tel

open Agent Function Function Except
open Library (bind_ok map_ok)
open Sql

structure CellKey where
  tbl : TableId
  row : RowId
  col : ColId
deriving DecidableEq

def CellKey.rowKey (k : CellKey) : RowKey := ⟨k.tbl, k.row⟩

/-- A snapshot under the effects of a merge. -/
structure ComposedState where
  base : GuardContext
  cells : CellKey → Option Value
  created : RowKey → Option Row
  deleted : RowKey → Bool

namespace ComposedState

def new (base : GuardContext) : ComposedState :=
  ⟨base, fun _ => none, fun _ => none, fun _ => false⟩

def setCell (s : ComposedState) (tbl : TableId) (row : RowId) (col : ColId) (v : Value) :
    ComposedState :=
  { s with cells := update s.cells ⟨tbl, row, col⟩ (some v) }

def createRow (s : ComposedState) (tbl : TableId) (row : RowId) (image : Row) : ComposedState :=
  { s with
    deleted := update s.deleted ⟨tbl, row⟩ false
    created := update s.created ⟨tbl, row⟩ (some image) }

def deleteRow (s : ComposedState) (tbl : TableId) (row : RowId) : ComposedState :=
  { s with deleted := update s.deleted ⟨tbl, row⟩ true }

def column (s : ComposedState) : GuardContext := fun tbl row col =>
  if s.deleted ⟨tbl, row⟩ then
    .error (.merge ("cell " ++ showTable tbl ++ "." ++ showCol col ++ "[" ++ showRow row ++
      "] was deleted by this merge"))
  else
    match s.cells ⟨tbl, row, col⟩ with
    | some v => .ok v
    | none =>
      match s.created ⟨tbl, row⟩ with
      | some image =>
        match image[col]? with
        | some v => .ok v
        | none => .error (.cellAbsent ("column " ++ showCol col ++
            " outside the RowCreate image for " ++ showRow row))
      | none => s.base tbl row col

end ComposedState

/-- What an effect writes to a cell, given what the cell reads as. -/
def nextValue : OpKind → Option Value → Except FerroError (Option Value)
  | .assign v, _ => .ok (some v)
  | .add d, some c => (d.apply c).map some
  | .add _, none => .ok none
  | .max v, some c => .ok (some (if c.cmp v = .gt then c else v))
  | .max v, none => .ok (some v)
  | .min v, some c => .ok (some (if c.cmp v = .lt then c else v))
  | .min v, none => .ok (some v)
  | _, _ => .ok none

def applyCell (s : ComposedState) (tbl : TableId) (row : RowId) (col : ColId) (kind : OpKind) :
    Except FerroError ComposedState := do
  match ← nextValue kind (s.column tbl row col).toOption with
  | some v => return s.setCell tbl row col v
  | none => return s

def applyOp (s : ComposedState) (op : Op) : Except FerroError ComposedState :=
  match op.kind with
  | .rowCreate image => .ok (s.createRow op.tbl op.row image)
  | .rowDelete => .ok (s.deleteRow op.tbl op.row)
  | kind =>
    match op.col with
    | none => .ok s
    | some col => applyCell s op.tbl op.row col kind

def applyOps (s : ComposedState) (ops : List Op) : Except FerroError ComposedState :=
  ops.foldlM applyOp s

/-! ## The plain table -/

/-- The cells a table has. A row that is not there has none. -/
abbrev PlainTable := RowKey → ColId → Option Value

/-- The cells of a snapshot. -/
def cellsOf (base : GuardContext) : PlainTable := fun k c =>
  (base k.tbl k.row c).toOption

/-- An effect on a cell that is there. Sets are not kept in scalar cells. -/
def execCell : OpKind → Value → Except FerroError Value
  | .assign v, _ => .ok v
  | .add d, c => d.apply c
  | .max v, c => .ok (if c.cmp v = .gt then c else v)
  | .min v, c => .ok (if c.cmp v = .lt then c else v)
  | _, c => .ok c

namespace PlainTable

def setCell (t : PlainTable) (k : RowKey) (c : ColId) (v : Value) : PlainTable :=
  update t k (update (t k) c (some v))

/-- An effect on a cell. One that is not there is left so. -/
def execAt (t : PlainTable) (key : RowKey) (col : ColId) (kind : OpKind) :
    Except FerroError PlainTable :=
  match t key col with
  | none => .ok t
  | some v => (execCell kind v).map (t.setCell key col)

/-- A row is replaced by an image or by nothing. -/
def exec (t : PlainTable) (op : Op) : Except FerroError PlainTable :=
  match op.kind with
  | .rowCreate image => .ok (update t ⟨op.tbl, op.row⟩ fun c => image[c]?)
  | .rowDelete => .ok (update t ⟨op.tbl, op.row⟩ fun _ => none)
  | kind =>
    match op.col with
    | none => .ok t
    | some col => t.execAt ⟨op.tbl, op.row⟩ col kind

def execs (t : PlainTable) (ops : List Op) : Except FerroError PlainTable := ops.foldlM exec t

end PlainTable

/-- The overlay reads as the table: an error where there is no cell. -/
def Reads (s : ComposedState) (t : PlainTable) : Prop :=
  ∀ k c, (s.column k.tbl k.row c).toOption = t k c

/-- Both fail with the same error, or both get through and read alike. -/
def SameResult : Except FerroError ComposedState → Except FerroError PlainTable → Prop
  | .ok s, .ok t => Reads s t
  | .error e, .error e' => e = e'
  | _, _ => False

/-- A row is created only over cells that were written as its image has them, and a cell is
written only if it is there or its row was deleted. -/
def StepSound (s : ComposedState) (t : PlainTable) (op : Op) : Prop :=
  match op.kind with
  | .rowCreate image => ∀ c v, s.cells ⟨op.tbl, op.row, c⟩ = some v → image[c]? = some v
  | .assign _ | .max _ | .min _ => ∀ col, op.col = some col →
    s.deleted ⟨op.tbl, op.row⟩ = true ∨ (t ⟨op.tbl, op.row⟩ col).isSome
  | _ => True

def RunSound (s : ComposedState) (t : PlainTable) : List Op → Prop
  | [] => True
  | op :: ops => StepSound s t op ∧
    ∀ s' t', applyOp s op = .ok s' → t.exec op = .ok t' → RunSound s' t' ops

/-! ## Reading after a step -/

variable {s s' : ComposedState} {t t' : PlainTable} {col : ColId} {tbl : TableId} {row : RowId}
  {v : Value}

/-- What a cell reads as, without the error. -/
lemma toOption_column (s : ComposedState) (k : RowKey) (c : ColId) :
    (s.column k.tbl k.row c).toOption =
      if s.deleted k then none
      else (s.cells ⟨k.tbl, k.row, c⟩).or
        (match s.created k with
        | some image => image[c]?
        | none => (s.base k.tbl k.row c).toOption) := by
  unfold ComposedState.column
  split_ifs
  · rfl
  · cases hcell : s.cells ⟨k.tbl, k.row, c⟩ with
    | some v => rfl
    | none =>
      cases hcreated : s.created k with
      | none => simp
      | some image => cases himage : image[c]? <;> simp [himage, Except.toOption]

lemma reads_createRow (hr : Reads s t) (tbl : TableId) (row : RowId) (image : Row) :
    Reads (s.createRow tbl row image) (update t ⟨tbl, row⟩ fun c => image[c]?) ↔
      ∀ c v, s.cells ⟨tbl, row, c⟩ = some v → image[c]? = some v := by
  have hkey : ∀ c, ((s.createRow tbl row image).column tbl row c).toOption
      = (s.cells ⟨tbl, row, c⟩).or image[c]? := fun c => by
    have h := toOption_column (s.createRow tbl row image) ⟨tbl, row⟩ c
    simpa [ComposedState.createRow] using h
  constructor
  · intro h c v hv
    have hc := h ⟨tbl, row⟩ c
    rw [hkey, hv, update_self] at hc
    exact hc.symm
  · intro h k c
    by_cases hk : k = ⟨tbl, row⟩
    · subst hk
      rw [hkey, update_self]
      cases hv : s.cells ⟨tbl, row, c⟩ with
      | none => rfl
      | some v => exact (h c v hv).symm
    · rw [update_of_ne hk, ← hr k c, toOption_column, toOption_column]
      simp [ComposedState.createRow, update_of_ne hk]

lemma reads_deleteRow (hr : Reads s t) (tbl : TableId) (row : RowId) :
    Reads (s.deleteRow tbl row) (update t ⟨tbl, row⟩ fun _ => none) := by
  intro k c
  rw [toOption_column]
  by_cases hk : k = ⟨tbl, row⟩
  · subst hk
    simp [ComposedState.deleteRow]
  · rw [update_of_ne hk, ← hr k c, toOption_column]
    simp [ComposedState.deleteRow, update_of_ne hk]

lemma toOption_column_setCell (s : ComposedState) (tbl : TableId) (row : RowId) (col : ColId)
    (v : Value) (k : RowKey) (c : ColId) :
    ((s.setCell tbl row col v).column k.tbl k.row c).toOption =
      if k = ⟨tbl, row⟩ ∧ c = col then (if s.deleted k then none else some v)
      else (s.column k.tbl k.row c).toOption := by
  rw [toOption_column, toOption_column]
  by_cases h : k = ⟨tbl, row⟩ ∧ c = col
  · obtain ⟨rfl, rfl⟩ := h
    simp [ComposedState.setCell]
  · have hne : (⟨k.tbl, k.row, c⟩ : CellKey) ≠ ⟨tbl, row, col⟩ := by
      rintro heq
      obtain ⟨rfl, rfl, rfl⟩ := heq
      exact h ⟨rfl, rfl⟩
    rw [if_neg h]
    simp [ComposedState.setCell, update_of_ne hne]

lemma setCell_apply (t : PlainTable) (key k : RowKey) (col c : ColId) (v : Value) :
    t.setCell key col v k c = if k = key ∧ c = col then some v else t k c := by
  unfold PlainTable.setCell
  by_cases hk : k = key
  · subst hk
    by_cases hc : c = col
    · subst hc
      simp
    · simp [hc]
  · simp [hk]

/-- A cell that is there is written in both. -/
lemma reads_setCell (hr : Reads s t) {c : Value} (hc : t ⟨tbl, row⟩ col = some c) :
    Reads (s.setCell tbl row col v) (t.setCell ⟨tbl, row⟩ col v) := by
  have hdel : s.deleted ⟨tbl, row⟩ = false := by
    have h := hr ⟨tbl, row⟩ col
    rw [hc, toOption_column] at h
    by_contra hd
    simp [hd] at h
  intro k c'
  rw [toOption_column_setCell, setCell_apply]
  split_ifs with h hd
  · rw [h.1, hdel] at hd
    exact absurd hd (by simp)
  · rfl
  · exact hr k c'

/-- A cell that is not there is written in the overlay only, where a deleted row hides it. -/
lemma reads_setCell_absent (hr : Reads s t) (hc : t ⟨tbl, row⟩ col = none) :
    Reads (s.setCell tbl row col v) t ↔ s.deleted ⟨tbl, row⟩ = true := by
  constructor
  · intro h
    have hcell := h ⟨tbl, row⟩ col
    rw [toOption_column_setCell, hc] at hcell
    by_contra hd
    simp [hd] at hcell
  · intro hd k c
    rw [toOption_column_setCell]
    split_ifs with h hd'
    · rw [h.1, h.2, hc]
    · rw [h.1] at hd'
      exact absurd hd hd'
    · exact hr k c

/-! ## Steps and runs -/

lemma nextValue_some (kind : OpKind) (v : Value) :
    nextValue kind (some v) = (execCell kind v).map some ∨
      nextValue kind (some v) = .ok none ∧ execCell kind v = .ok v := by
  cases kind <;> first | exact Or.inl rfl | exact Or.inr ⟨rfl, rfl⟩

lemma setCell_self {key : RowKey} (h : t key col = some v) : t.setCell key col v = t := by
  funext k c
  rw [setCell_apply]
  split_ifs with hk
  · rw [hk.1, hk.2, h]
  · rfl

lemma cell_present (hr : Reads s t) (kind : OpKind) (hv : t ⟨tbl, row⟩ col = some v) :
    (∃ e, applyCell s tbl row col kind = .error e ∧ t.execAt ⟨tbl, row⟩ col kind = .error e) ∨
      ∃ s' t', applyCell s tbl row col kind = .ok s' ∧ t.execAt ⟨tbl, row⟩ col kind = .ok t' ∧
        Reads s' t' := by
  have hcur := (hr ⟨tbl, row⟩ col).trans hv
  simp only [applyCell, PlainTable.execAt, hcur, hv]
  rcases nextValue_some kind v with hnext | ⟨hnext, hexec⟩
  · rw [hnext]
    cases hexec : execCell kind v with
    | error e => exact Or.inl ⟨e, rfl, rfl⟩
    | ok w => exact Or.inr ⟨_, _, rfl, rfl, reads_setCell hr hv⟩
  · rw [hnext, hexec]
    exact Or.inr ⟨s, _, rfl, rfl, by rwa [setCell_self hv]⟩

/-- Whether the effect writes to a cell whatever it reads as. -/
def WritesBlind : OpKind → Prop
  | .assign _ | .max _ | .min _ => True
  | _ => False

lemma cell_absent (hr : Reads s t) (kind : OpKind) (hv : t ⟨tbl, row⟩ col = none) :
    ∃ s', applyCell s tbl row col kind = .ok s' ∧ t.execAt ⟨tbl, row⟩ col kind = .ok t ∧
      (Reads s' t ↔ (WritesBlind kind → s.deleted ⟨tbl, row⟩ = true)) := by
  have hcur := (hr ⟨tbl, row⟩ col).trans hv
  simp only [applyCell, PlainTable.execAt, hcur, hv]
  cases kind with
  | assign v => exact ⟨_, rfl, trivial, by simp [WritesBlind, reads_setCell_absent hr hv]⟩
  | max v => exact ⟨_, rfl, trivial, by simp [WritesBlind, reads_setCell_absent hr hv]⟩
  | min v => exact ⟨_, rfl, trivial, by simp [WritesBlind, reads_setCell_absent hr hv]⟩
  | _ => exact ⟨s, rfl, trivial, by simp [WritesBlind, hr]⟩

/-- An effect on a cell and not on the whole row. -/
def OnCell : OpKind → Prop
  | .rowCreate _ | .rowDelete => False
  | _ => True

section OnCell

variable {op : Op} (h : OnCell op.kind)
include h

lemma applyOp_of_onCell : applyOp s op = match op.col with
    | none => .ok s
    | some c => applyCell s op.tbl op.row c op.kind := by
  obtain ⟨tbl, row, col, kind, witness⟩ := op
  cases kind <;> first | exact h.elim | rfl

lemma exec_of_onCell : t.exec op = match op.col with
    | none => .ok t
    | some c => t.execAt ⟨op.tbl, op.row⟩ c op.kind := by
  obtain ⟨tbl, row, col, kind, witness⟩ := op
  cases kind <;> first | exact h.elim | rfl

lemma stepSound_of_onCell : StepSound s t op ↔ (WritesBlind op.kind → ∀ c, op.col = some c →
    s.deleted ⟨op.tbl, op.row⟩ = true ∨ (t ⟨op.tbl, op.row⟩ c).isSome) := by
  obtain ⟨tbl, row, col, kind, witness⟩ := op
  cases kind <;> first | exact h.elim | simp [StepSound, WritesBlind]

end OnCell

/-- One effect on both: the same failure, or two results that read alike exactly if the step is
sound. -/
lemma step_reads (hr : Reads s t) (op : Op) :
    (∃ e, applyOp s op = .error e ∧ t.exec op = .error e ∧ StepSound s t op) ∨
      ∃ s' t', applyOp s op = .ok s' ∧ t.exec op = .ok t' ∧
        (Reads s' t' ↔ StepSound s t op) := by
  by_cases hcell : OnCell op.kind
  · rw [applyOp_of_onCell hcell, exec_of_onCell hcell, stepSound_of_onCell hcell]
    cases hcol : op.col with
    | none => exact Or.inr ⟨s, t, rfl, rfl, by simp [hr]⟩
    | some c =>
      cases hv : t ⟨op.tbl, op.row⟩ c with
      | none =>
        obtain ⟨s', hs', ht', hiff⟩ := cell_absent hr op.kind hv
        exact Or.inr ⟨s', t, hs', ht', by simp [hiff, hv]⟩
      | some v =>
        rcases cell_present hr op.kind hv with ⟨e, hs', ht'⟩ | ⟨s', t', hs', ht', hr'⟩
        · exact Or.inl ⟨e, hs', ht', by simp [hv]⟩
        · exact Or.inr ⟨s', t', hs', ht', by simp [hr', hv]⟩
  · obtain ⟨tbl, row, col, kind, witness⟩ := op
    cases kind with
    | rowCreate image => exact Or.inr ⟨_, _, rfl, rfl, reads_createRow hr tbl row image⟩
    | rowDelete => exact Or.inr ⟨_, _, rfl, rfl, by simp [StepSound, reads_deleteRow hr]⟩
    | _ => exact absurd trivial hcell

lemma run_reads (hr : Reads s t) (ops : List Op) :
    (∀ pre, pre <+: ops → SameResult (applyOps s pre) (t.execs pre)) ↔ RunSound s t ops := by
  induction ops generalizing s t with
  | nil =>
    refine ⟨fun _ => trivial, fun _ pre hpre => ?_⟩
    obtain rfl := List.prefix_nil.mp hpre
    exact hr
  | cons op ops ih =>
    have hcons : ∀ pre, (op :: pre) <+: (op :: ops) ↔ pre <+: ops := by
      simp [List.cons_prefix_cons]
    rcases step_reads hr op with ⟨e, hs, ht, hsound⟩ | ⟨s', t', hs, ht, hiff⟩
    · have hfail : ∀ pre, SameResult (applyOps s (op :: pre)) (t.execs (op :: pre)) := by
        intro pre
        simp only [applyOps, PlainTable.execs, List.foldlM_cons, hs, ht]
        rfl
      refine ⟨fun _ => ⟨hsound, fun s' t' hs' _ => ?_⟩, fun _ pre hpre => ?_⟩
      · rw [hs] at hs'
        cases hs'
      · cases pre with
        | nil => exact hr
        | cons o pre =>
          obtain ⟨rfl, -⟩ := List.cons_prefix_cons.mp hpre
          exact hfail pre
    · have hgo : ∀ pre, SameResult (applyOps s (op :: pre)) (t.execs (op :: pre)) ↔
          SameResult (applyOps s' pre) (t'.execs pre) := by
        intro pre
        simp only [applyOps, PlainTable.execs, List.foldlM_cons, hs, ht]
        rfl
      constructor
      · intro h
        have hr' : Reads s' t' := (hgo []).mp (h [op] (by simp))
        refine ⟨hiff.mp hr', fun s'' t'' hs'' ht'' => ?_⟩
        obtain rfl := ok.inj (hs.symm.trans hs'')
        obtain rfl := ok.inj (ht.symm.trans ht'')
        exact (ih hr').mp fun pre hpre => (hgo pre).mp (h (op :: pre) ((hcons pre).mpr hpre))
      · rintro ⟨hsound, hrest⟩ pre hpre
        cases pre with
        | nil => exact hr
        | cons o pre =>
          obtain ⟨rfl, hpre'⟩ := List.cons_prefix_cons.mp hpre
          exact (hgo pre).mpr ((ih (hiff.mpr hsound)).mpr (hrest s' t' hs ht) pre hpre')

/-- After every effect of a run the overlay of a snapshot reads as the plain table does, errors
where there is no cell included, exactly if every step is sound. -/
theorem column_eq_plain_iff (base : GuardContext) (ops : List Op) :
    (∀ pre, pre <+: ops → SameResult (applyOps (.new base) pre) ((cellsOf base).execs pre)) ↔
      RunSound (.new base) (cellsOf base) ops :=
  run_reads (fun _ _ => rfl) ops

/-- A row written, deleted and created again reads as it was written before it was deleted. -/
theorem column_stale_after_recreate :
    let base : GuardContext := fun _ _ c => if c = 0 then .ok (.integer 1) else
      .error (.cellAbsent "")
    let ops := [Op.new 1 1 (some 0) (.assign (.integer 5)), .new 1 1 none .rowDelete,
      .new 1 1 none (.rowCreate [.integer 7])]
    ((applyOps (.new base) ops).map fun s => (s.column 1 1 0).toOption)
        = .ok (some (.integer 5)) ∧
      (((cellsOf base).execs ops).map fun t => t ⟨1, 1⟩ 0) = .ok (some (.integer 7)) := by
  decide

end FerroDb.Tel
