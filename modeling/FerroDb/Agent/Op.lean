import FerroDb.Sql.Value

/-!
# Effects

Typed effects and how they compose, after `tel/op.rs`, `tel/ids.rs` and the first part of
`agent_sql/merge_engine.rs`. An increment is kept apart from the assignment that would leave
the same value, because only the increment composes with another one.
-/

namespace FerroDb.Agent

open Library (Binary64)
open Sql

/-! ## Identifiers -/

abbrev TableId := ℕ
abbrev RowId := ℕ
abbrev ColId := ℕ

/-- The row id schema changes are filed under. -/
def RowId.schema : RowId := 2 ^ 64 - 1

def showTable (t : TableId) : String := s!"tbl{t}"
def showCol (c : ColId) : String := s!"col{c}"
def showRow (r : RowId) : String := if r = RowId.schema then "schema" else s!"row{r}"

/-- A row of a table, as the workspace keys it. -/
structure RowKey where
  tbl : TableId
  row : RowId
deriving DecidableEq

/-! ## Increments -/

inductive Delta where
  | int (i : ℤ)
  | float (f : Binary64)
deriving DecidableEq

namespace Delta

def compose : Delta → Delta → Except FerroError Delta
  | int a, int b =>
    match checkedI64 (a + b) with
    | some i => .ok (int i)
    | none => .error (.merge s!"integer delta overflow composing {a} and {b}")
  | float a, float b => .ok (float (a.add b))
  | int a, float b => .ok (float ((Binary64.ofInt a).add b))
  | float a, int b => .ok (float (a.add (Binary64.ofInt b)))

def apply (base : Value) : Delta → Except FerroError Value
  | int d =>
    match base with
    | .integer b =>
      match checkedI64 (b + d) with
      | none => .error (.merge s!"integer overflow applying delta {d} to {b}")
      | some sum =>
        if i32Min ≤ sum ∧ sum ≤ i32Max then .ok (.integer sum)
        else .error (.merge s!"delta {d} pushes {b} outside INTEGER range")
    | .float b => .ok (.float (b.add (Binary64.ofInt d)))
    | other => .error (.merge ("cannot apply a numeric delta to " ++ other.debug))
  | float d =>
    match base with
    | .integer b => .ok (.float ((Binary64.ofInt b).add d))
    | .float b => .ok (.float (b.add d))
    | other => .error (.merge ("cannot apply a numeric delta to " ++ other.debug))

end Delta

/-! ## Effects on a cell or a row -/

structure Dot where
  branch : BranchId
  seq : ℕ
deriving DecidableEq

inductive OpKind where
  | rowCreate (row : Row)
  | rowDelete
  | assign (v : Value)
  | add (d : Delta)
  | max (v : Value)
  | min (v : Value)
  | setInsert (elem : Value) (dot : Dot)
  | setRemove (elem : Value) (dots : List Dot)
deriving DecidableEq

namespace OpKind

def name : OpKind → String
  | rowCreate _ => "RowCreate"
  | rowDelete => "RowDelete"
  | assign _ => "Assign"
  | add _ => "Add"
  | max _ => "Max"
  | min _ => "Min"
  | setInsert .. => "SetInsert"
  | setRemove .. => "SetRemove"

end OpKind

structure Op where
  tbl : TableId
  row : RowId
  /-- Nothing for an effect on the whole row. -/
  col : Option ColId
  kind : OpKind
  /-- The value the effect was computed from. -/
  witness : Option Value
deriving DecidableEq

def Op.new (tbl : TableId) (row : RowId) (col : Option ColId) (kind : OpKind) : Op :=
  ⟨tbl, row, col, kind, none⟩

/-! ## Composition -/

/-- What two effects in a row amount to. -/
def composeStep : OpKind → OpKind → Except FerroError OpKind
  | .add a, .add b => (a.compose b).map .add
  | .max a, .max b => .ok (.max (if b.cmp a = .gt then b else a))
  | .min a, .min b => .ok (.min (if b.cmp a = .lt then b else a))
  | .assign v, .add d => (d.apply v).map .assign
  | _, k => .ok k

/-- A cell's effects in order, as one. -/
def composeOps : List OpKind → Except FerroError OpKind
  | [] => .error (.merge "composing an empty op list")
  | op :: ops => ops.foldlM composeStep op

def applyOp (base : Option Value) : OpKind → Except FerroError Value
  | .assign v => .ok v
  | .add d =>
    match base with
    | none => .error (.merge "Add against a missing cell")
    | some b => d.apply b
  | .max v =>
    match base with
    | some b => .ok (if b.cmp v = .gt then b else v)
    | none => .ok v
  | .min v =>
    match base with
    | some b => .ok (if b.cmp v = .lt then b else v)
    | none => .ok v
  | other => .error (.merge (other.name ++ " is a whole-row op and has no cell value"))

end FerroDb.Agent
