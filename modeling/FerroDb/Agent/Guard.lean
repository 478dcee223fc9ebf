import FerroDb.Agent.Op

/-!
# Guards

The predicate that let a write through, kept so that it can be asked again of another state,
after `tel/guard.rs`. A guard is about one row; what it reads of that row
is named by table, row and column.
-/

namespace FerroDb.Agent

open Library (Binary64)
open Sql

inductive CmpOp where
  | eq
  | ne
  | lt
  | le
  | gt
  | ge
deriving DecidableEq

def CmpOp.apply (op : CmpOp) (l r : Value) : Bool :=
  let o := l.cmp r
  match op with
  | .eq => o = .eq
  | .ne => o ≠ .eq
  | .lt => o = .lt
  | .le => o ≠ .gt
  | .gt => o = .gt
  | .ge => o ≠ .lt

inductive ArithOp where
  | add
  | sub
  | mul
  | div
deriving DecidableEq

inductive GuardExpr where
  | literal (v : Value)
  | col (tbl : TableId) (row : RowId) (col : ColId)
  | compare (left : GuardExpr) (op : CmpOp) (right : GuardExpr)
  | arith (left : GuardExpr) (op : ArithOp) (right : GuardExpr)
  | and (left right : GuardExpr)
  | or (left right : GuardExpr)
  | not (e : GuardExpr)
deriving DecidableEq

/-- What a guard is asked of: whatever answers for a cell. -/
abbrev GuardContext := TableId → RowId → ColId → Except FerroError Value

def truthy : Value → Option Bool
  | .boolean b => some b
  | _ => none

def asF64 : Value → Except FerroError Binary64
  | .integer i => .ok (.ofInt i)
  | .float f => .ok f
  | other => .error (.merge ("guard arithmetic on non-numeric value " ++ other.debug))

def guardIntArith (a b : ℤ) (op : ArithOp) : Except FerroError Value := do
  let out ← match op with
    | .add => pure (checkedI64 (a + b))
    | .sub => pure (checkedI64 (a - b))
    | .mul => pure (checkedI64 (a * b))
    | .div => if b = 0 then throw (.merge "guard divides by zero") else pure (checkedI64 (a.tdiv b))
  match out with
  | none => throw (.merge "guard arithmetic overflowed")
  | some i =>
    if i32Max < i ∨ i < i32Min then throw (.merge "guard arithmetic left INTEGER range")
    else return .integer i

def guardArith (l : Value) (op : ArithOp) (r : Value) : Except FerroError Value :=
  if l.isNull || r.isNull then .ok .null
  else
    match l, r with
    | .integer a, .integer b => guardIntArith a b op
    | _, _ => do
      let a ← asF64 l
      let b ← asF64 r
      match op with
      | .add => return .float (a.add b)
      | .sub => return .float (a.sub b)
      | .mul => return .float (a.mul b)
      | .div =>
        if b.isZero then throw (.merge "guard divides by zero") else return .float (a.div b)

namespace GuardExpr

/-- The first cell the guard reads. -/
def firstCell : GuardExpr → Option (TableId × RowId × ColId)
  | literal _ => none
  | col t r c => some (t, r, c)
  | compare l _ r | arith l _ r | and l r | or l r => l.firstCell.or r.firstCell
  | not e => e.firstCell

def evalIn (ctx : GuardContext) : GuardExpr → Except FerroError Value
  | literal v => .ok v
  | col t r c => ctx t r c
  | compare left op right => do
    let l ← left.evalIn ctx
    let r ← right.evalIn ctx
    if l.isNull || r.isNull then return .null else return .boolean (op.apply l r)
  | arith left op right => do
    let l ← left.evalIn ctx
    let r ← right.evalIn ctx
    guardArith l op r
  | and left right => do
    let l := truthy (← left.evalIn ctx)
    if l = some false then return .boolean false
    let r := truthy (← right.evalIn ctx)
    if r = some false then return .boolean false
    if l = none ∨ r = none then return .null else return .boolean true
  | or left right => do
    let l := truthy (← left.evalIn ctx)
    if l = some true then return .boolean true
    let r := truthy (← right.evalIn ctx)
    if r = some true then return .boolean true
    if l = none ∨ r = none then return .null else return .boolean false
  | not e => do
    match truthy (← e.evalIn ctx) with
    | some b => return .boolean !b
    | none => return .null

end GuardExpr

structure Guard where
  expr : GuardExpr
  /-- The clause as it was written. -/
  sourceText : String
deriving DecidableEq

/-- Whether the guard still holds. An error means that it could not be asked. -/
def Guard.checkIn (g : Guard) (ctx : GuardContext) : Except FerroError Bool :=
  (g.expr.evalIn ctx).map fun v => v.eqv (.boolean true)

end FerroDb.Agent
