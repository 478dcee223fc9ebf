import FerroDb.Agent.Resolve
import FerroDb.Branch.Record
import FerroDb.Library.Grouping
import FerroDb.Tel.Fold
import FerroDb.Tel.State

/-!
# The three-way merge

`ThreeWayMerger::merge`, after `tel/engine.rs`: frames are taken once per transaction, their
effects are indexed by row and by cell, rows are composed before cells, guards are asked again of
the running state and escrow bounds of the merged one.

A `HashMap` is walked in an order of its own. Where the source depends on it, the order is an
argument.
-/

namespace FerroDb.Tel

open Agent (TableId RowId ColId RowKey Op OpKind Delta Dot Guard GuardExpr GuardContext CmpOp
  ConflictKind ConflictReport DiscardedWrite MergeOutcome MergePolicy PolicyTable showTable showCol
  showRow)
open Branch (branchName)
open Library (Groups sortedKeys Binary64)
open Sql

/-! ## Frames -/

structure EscrowClaim where
  tbl : TableId
  row : RowId
  col : ColId
  amount : Delta
  floor : Option Value
  ceiling : Option Value
deriving DecidableEq

/-- One transaction of a branch. -/
structure TxnFrame where
  txnId : ℕ
  branch : BranchId
  seq : ℕ
  schemaVer : ℕ
  ops : List Op
  guards : List Guard
  claims : List EscrowClaim
deriving DecidableEq

inductive Side where
  | ours
  | theirs
deriving DecidableEq

def Side.other : Side → Side
  | ours => theirs
  | theirs => ours

/-- The debug name of a side. -/
def Side.debug : Side → String
  | ours => "Ours"
  | theirs => "Theirs"

/-- Pairs in the order of tuples. -/
def pairLe (a b : ℕ × ℕ) : Prop := a.1 < b.1 ∨ a.1 = b.1 ∧ a.2 ≤ b.2

instance : DecidableRel pairLe := fun _ _ => inferInstanceAs (Decidable (_ ∨ _))

/-- The order in which the frames of a branch are replayed. -/
def replayLe (f g : TxnFrame) : Prop := pairLe (f.seq, f.txnId) (g.seq, g.txnId)

instance : DecidableRel replayLe := fun _ _ => inferInstanceAs (Decidable (pairLe _ _))

structure Deduped where
  kept : List ℕ
  dropped : List ℕ
deriving DecidableEq

/-- A frame whose transaction was seen before is dropped whole. -/
def dedupStep (side : Side) (acc : List (TxnFrame × Side) × Deduped) (f : TxnFrame) :
    List (TxnFrame × Side) × Deduped :=
  if f.txnId ∈ acc.2.kept then
    (acc.1, { acc.2 with dropped := acc.2.dropped ++ [f.txnId] })
  else
    (acc.1 ++ [(f, side)], { acc.2 with kept := acc.2.kept ++ [f.txnId] })

def dedupByTxn (ours theirs : List TxnFrame) : List (TxnFrame × Side) × Deduped :=
  let first := (ours.insertionSort replayLe).foldl (dedupStep .ours) ([], ⟨[], []⟩)
  (theirs.insertionSort replayLe).foldl (dedupStep .theirs) first

/-! ## Effects by row and cell -/

def StampedOp.cellKey? (s : StampedOp) : Option CellKey :=
  s.op.col.map fun col => ⟨s.op.tbl, s.op.row, col⟩

def StampedOp.rowKey? (s : StampedOp) : Option RowKey :=
  match s.op.col with
  | some _ => none
  | none => some ⟨s.op.tbl, s.op.row⟩

structure SideIndex where
  cells : Groups CellKey StampedOp
  rows : Groups RowKey StampedOp
deriving DecidableEq

/-- The order in which a `HashMap` of cells is walked. -/
structure HashOrder where
  walk : Groups CellKey StampedOp → Groups CellKey StampedOp
  perm : ∀ g, (walk g).Perm g

/-- Writes in the order of their stamps. -/
def stampLe (s t : StampedOp) : Prop := pairLe s.stamp t.stamp

instance : DecidableRel stampLe := fun _ _ => inferInstanceAs (Decidable (pairLe _ _))

namespace SideIndex

/-- Every effect pushed under its cell or its row, and each group sorted by stamp. -/
def ofOps (ops : List StampedOp) : SideIndex where
  cells := (Groups.collect StampedOp.cellKey? [] ops).mapValues (List.insertionSort stampLe)
  rows := (Groups.collect StampedOp.rowKey? [] ops).mapValues (List.insertionSort stampLe)

def touchesRow (ix : SideIndex) (key : RowKey) : Bool :=
  ix.rows.keys.contains key || ix.cells.keys.any fun k => k.rowKey = key

/-- The last of the largest. -/
def maxByStamp (ops : List StampedOp) : Option StampedOp :=
  ops.foldl (fun best s => match best with
    | none => some s
    | some b => if stampLe b s then some s else some b) none

def lastOpOn (order : HashOrder) (ix : SideIndex) (key : RowKey) : Option StampedOp :=
  maxByStamp (ix.rows.get key ++
    ((order.walk ix.cells).filter fun p => p.1.rowKey = key).flatMap (·.2))

end SideIndex

/-! ## What a merge comes to -/

structure Composition where
  composed : List Op
  conflicts : List ConflictReport
  discarded : List DiscardedWrite
  cells : List (CellKey × Value)
  created : List (RowKey × Row)
  deleted : List RowKey
  /-- Rows whose cells are not composed any more. -/
  poisoned : List RowKey
deriving DecidableEq

namespace Composition

def empty : Composition := ⟨[], [], [], [], [], [], []⟩

def append (a b : Composition) : Composition where
  composed := a.composed ++ b.composed
  conflicts := a.conflicts ++ b.conflicts
  discarded := a.discarded ++ b.discarded
  cells := a.cells ++ b.cells
  created := a.created ++ b.created
  deleted := a.deleted ++ b.deleted
  poisoned := a.poisoned ++ b.poisoned

def join (parts : List Composition) : Composition := parts.foldl append empty

end Composition

/-! ### Rows -/

def rowConflict (kind : ConflictKind) (key : RowKey) (ours theirs : Option Op) (detail : String) :
    ConflictReport :=
  { kind := kind, tbl := key.tbl, row := key.row, col := none, violatedGuard := none, ours := ours,
    theirs := theirs, detail := detail }

def isDelete : Option StampedOp → Bool
  | some s => s.op.kind = .rowDelete
  | none => false

def createOf : Option StampedOp → Option (StampedOp × Row)
  | some s =>
    match s.op.kind with
    | .rowCreate image => some (s, image)
    | _ => none
  | none => none

def dotDebug (d : Dot) : String :=
  s!"Dot \x7b branch: BranchId \x7b id: {d.branch.id}, generation: {d.branch.generation} \x7d, " ++
    s!"seq: {d.seq} \x7d"

/-- The `Debug` of an effect, floats by their bits. -/
def opDebug : OpKind → String
  | .rowCreate image => "RowCreate([" ++ ", ".intercalate (image.map Value.debug) ++ "])"
  | .rowDelete => "RowDelete"
  | .assign v => "Assign(" ++ v.debug ++ ")"
  | .add (.int i) => s!"Add(Int({i}))"
  | .add (.float f) => s!"Add(Float(bits {f.bits}))"
  | .max v => "Max(" ++ v.debug ++ ")"
  | .min v => "Min(" ++ v.debug ++ ")"
  | .setInsert e d => "SetInsert \x7b elem: " ++ e.debug ++ ", dot: " ++ dotDebug d ++ " \x7d"
  | .setRemove e ds => "SetRemove \x7b elem: " ++ e.debug ++ ", dots: [" ++
      ", ".intercalate (ds.map dotDebug) ++ "] \x7d"

/-- A row that one side deleted and the other side still writes to. -/
def deleteClash (key : RowKey) (deleter : StampedOp) (ours theirs : Option Op) : Composition :=
  { Composition.empty with
    conflicts := [rowConflict .deleteVsWrite key ours theirs
      ("branch " ++ branchName deleter.branch ++ " deleted " ++ showRow key.row ++
        " while the other side wrote to it")]
    poisoned := [key] }

def rowCreated (key : RowKey) (s : StampedOp) (image : Row) : Composition :=
  { Composition.empty with created := [(key, image)], composed := [s.op] }

def rowDeleted (key : RowKey) (s : StampedOp) : Composition :=
  { Composition.empty with deleted := [key], composed := [s.op], poisoned := [key] }

/-- The rows the sides create, where neither deletes. -/
def composeCreates (key : RowKey) (o t : Option StampedOp) : Except FerroError Composition :=
  match createOf o, createOf t with
  | some (so, a), some (st, b) =>
    if Row.eqv a b then .ok (rowCreated key so a)
    else .ok { Composition.empty with
      conflicts := [rowConflict .contradictoryAssign key (some so.op) (some st.op)
        ("both branches created " ++ showRow key.row ++ " with different initial images")]
      poisoned := [key] }
  | some (so, a), none => .ok (rowCreated key so a)
  | none, some (st, b) => .ok (rowCreated key st b)
  | none, none =>
    match o.or t with
    | some s => .error (.merge ("op " ++ opDebug s.op.kind ++ " on " ++ showTable key.tbl ++ "[" ++
        showRow key.row ++ "] carries no column but is not RowCreate/RowDelete, so it cannot be " ++
        "composed at either the row or the cell level"))
    | none => .ok .empty

def composeRow (oursOrder theirsOrder : HashOrder) (ours theirs : SideIndex) (key : RowKey) :
    Except FerroError Composition :=
  let o := (ours.rows.get key).getLast?
  let t := (theirs.rows.get key).getLast?
  match isDelete o, isDelete t with
  | true, false =>
    match o with
    | some d =>
      if theirs.touchesRow key then
        .ok (deleteClash key d (some d.op) ((theirs.lastOpOn theirsOrder key).map (·.op)))
      else .ok (rowDeleted key d)
    | none => .ok .empty
  | false, true =>
    match t with
    | some d =>
      if ours.touchesRow key then
        .ok (deleteClash key d ((ours.lastOpOn oursOrder key).map (·.op)) (some d.op))
      else .ok (rowDeleted key d)
    | none => .ok .empty
  | true, true =>
    match o with
    | some d => .ok (rowDeleted key d)
    | none => .ok .empty
  | false, false => composeCreates key o t

/-! ### Cells -/

variable (key : CellKey)

/-- The single effect that expresses a net one. Sets have none. -/
def canonicalOp (e : SideEffect) : Option Op :=
  e.toKind.map fun kind => Op.new key.tbl key.row (some key.col) kind

def setRemoves (c : SetChange) : List Op :=
  c.removes.map fun r => Op.new key.tbl key.row (some key.col) (.setRemove r.1 r.2)

/-- The inserts that are neither removed nor repeated, with the dots seen. -/
def setInserts (key : CellKey) (removed : List Dot) :
    List Dot → List (Value × Dot) → List Op
  | _, [] => []
  | seen, (elem, dot) :: rest =>
    if dot ∈ removed then setInserts key removed seen rest
    else if dot ∈ seen then setInserts key removed seen rest
    else Op.new key.tbl key.row (some key.col) (.setInsert elem dot) ::
      setInserts key removed (dot :: seen) rest

def composeSets (a b : SetChange) : List Op :=
  let removed := (a.removes ++ b.removes).flatMap (·.2)
  setRemoves key a ++ setRemoves key b ++ setInserts key removed [] (a.inserts ++ b.inserts)

def emitSingle (e : SideEffect) (base : Option Value) :
    Except FerroError Composition :=
  match e with
  | .set c => .ok { Composition.empty with composed := composeSets key c .empty }
  | other => do
    let v ← other.resolve base
    return { Composition.empty with
      composed := (canonicalOp key other).toList
      cells := [(key, v)] }

def deltaBetween : Value → Value → Except FerroError Delta
  | .integer a, .integer b => .ok (.int (b - a))
  | .integer a, .float b => .ok (.float (b.sub (Binary64.ofInt a)))
  | .float a, .integer b => .ok (.float ((Binary64.ofInt b).sub a))
  | .float a, .float b => .ok (.float (b.sub a))
  | a, b => .error (.merge ("ADDITIVE policy on non-numeric values " ++ a.debug ++ " and " ++
      b.debug))

/-- The place of a cell, as error texts name it. -/
def showCell : String :=
  showTable key.tbl ++ "." ++ showCol key.col ++ "[" ++ showRow key.row ++ "]"

/-- A cell set to a value by one effect. -/
def cellSet (v : Value) (kind : OpKind) : Composition :=
  { Composition.empty with
    cells := [(key, v)]
    composed := [Op.new key.tbl key.row (some key.col) kind] }

/-- The stamp of the last write of a side. -/
def lastStamp (ops : List StampedOp) : ℕ × ℕ := (ops.getLast?.map StampedOp.stamp).getD (0, 0)

def composeLww (a b : SideEffect) (o t : List StampedOp) (base : Option Value) :
    Except FerroError Composition := do
  let oursWins := ¬ pairLe (lastStamp o) (lastStamp t)
  let winner := if oursWins then a else b
  let loser := if oursWins then b else a
  let v ← winner.resolve base
  let discarded := match (if oursWins then t else o).getLast? with
    | some lost => [⟨lost.branch, (canonicalOp key loser).getD lost.op, .lww,
        "LWW on " ++ showCell key ++ " kept the write from the " ++
          (if oursWins then Side.ours else Side.theirs).debug ++ " side"⟩]
    | none => []
  return { Composition.empty with
    cells := [(key, v)]
    composed := (canonicalOp key winner).toList
    discarded := discarded }

def composeMultiValue (a b : SideEffect) (o t : List StampedOp)
    (base : Option Value) : Except FerroError Composition := do
  let later := if ¬ pairLe (lastStamp o) (lastStamp t) then a else b
  let v ← later.resolve base
  return { Composition.empty with
    composed := (canonicalOp key a).toList ++ (canonicalOp key b).toList
    cells := [(key, v)] }

/-- Both sides' moves from the base, added up. -/
def composeAdditive (a b : SideEffect) (base : Option Value) :
    Except FerroError Composition :=
  match base with
  | none => .error (.merge ("ADDITIVE merge of " ++ showCell key ++ " needs the LCA value"))
  | some b₀ => do
    let v₁ ← a.resolve base
    let v₂ ← b.resolve base
    let d₁ ← deltaBetween b₀ v₁
    let d₂ ← deltaBetween b₀ v₂
    let total ← d₁.compose d₂
    let v ← total.apply b₀
    return cellSet key v (.add total)

def composeReject (a b : SideEffect) (o t : List StampedOp) : Composition :=
  { Composition.empty with
    conflicts := [
      { kind := .contradictoryAssign, tbl := key.tbl, row := key.row, col := some key.col,
        violatedGuard := none, ours := o.getLast?.map (·.op), theirs := t.getLast?.map (·.op),
        detail := "concurrent " ++ a.kindName ++ " and " ++ b.kindName ++ " on " ++
          showCell key ++ " under policy " ++ MergePolicy.reject.display }] }

def composeByPolicy (a b : SideEffect) (o t : List StampedOp)
    (base : Option Value) : MergePolicy → Except FerroError Composition
  | .reject => .ok (composeReject key a b o t)
  | .additive => composeAdditive key a b base
  | .lww => composeLww key a b o t base
  | .multiValue => composeMultiValue key a b o t base

def composeTwo (a b : SideEffect) (o t : List StampedOp) (base : Option Value)
    (policy : MergePolicy) : Except FerroError Composition :=
  match a, b with
  | .add d₁, .add d₂ => do
    let total ← d₁.compose d₂
    match base with
    | none => .error (.merge ("cannot compose two Adds on " ++ showCell key ++
        " without the LCA value"))
    | some b₀ => return cellSet key (← total.apply b₀) (.add total)
  | .max v₁, .max v₂ => do
    let v := if v₁.cmp v₂ = .gt then v₁ else v₂
    return cellSet key (← (SideEffect.max v).resolve base) (.max v)
  | .min v₁, .min v₂ => do
    let v := if v₁.cmp v₂ = .lt then v₁ else v₂
    return cellSet key (← (SideEffect.min v).resolve base) (.min v)
  | .set c₁, .set c₂ => .ok { Composition.empty with composed := composeSets key c₁ c₂ }
  | .assign v₁, .assign v₂ =>
    if v₁.eqv v₂ then .ok (cellSet key v₁ (.assign v₁))
    else composeByPolicy key a b o t base policy
  | _, _ => composeByPolicy key a b o t base policy

def composeCell (o t : List StampedOp) (policy : PolicyTable)
    (base : Option Value) : Except FerroError Composition := do
  match ← foldSide o base, ← foldSide t base with
  | none, none => return .empty
  | some e, none => emitSingle key e base
  | none, some e => emitSingle key e base
  | some a, some b => composeTwo key a b o t base (policy key.tbl key.col)

/-- The value at the fork. A row that the merge creates stands in with its image. -/
def baseValue (base : GuardContext) (fresh : List (RowKey × Row)) (key : CellKey) :
    Except FerroError (Option Value) :=
  match base key.tbl key.row key.col with
  | .ok v => .ok (some v)
  | .error (.cellAbsent _) =>
    .ok ((fresh.find? (·.1 = key.rowKey)).bind fun p => p.2[key.col]?)
  | .error e => .error e

def rowLe (a b : RowKey) : Prop := pairLe (a.tbl, a.row) (b.tbl, b.row)

instance : DecidableRel rowLe := fun _ _ => inferInstanceAs (Decidable (pairLe _ _))

def cellLe (a b : CellKey) : Prop :=
  a.tbl < b.tbl ∨ a.tbl = b.tbl ∧ pairLe (a.row, a.col) (b.row, b.col)

instance : DecidableRel cellLe := fun _ _ => inferInstanceAs (Decidable (_ ∨ _))

def composeAt (ours theirs : SideIndex) (policy : PolicyTable) (base : GuardContext)
    (fresh : List (RowKey × Row)) (key : CellKey) : Except FerroError Composition := do
  composeCell key (ours.cells.get key) (theirs.cells.get key) policy (← baseValue base fresh key)

def compose (oursOrder theirsOrder : HashOrder) (ours theirs : SideIndex) (policy : PolicyTable)
    (base : GuardContext) : Except FerroError Composition := do
  let rowKeys := sortedKeys rowLe (ours.rows.keys ++ theirs.rows.keys)
  let rows ← rowKeys.mapM (composeRow oursOrder theirsOrder ours theirs)
  let out := Composition.join rows
  let cellKeys := sortedKeys cellLe (ours.cells.keys ++ theirs.cells.keys)
  let live := cellKeys.filter fun k => k.rowKey ∉ out.poisoned
  let cells ← live.mapM (composeAt ours theirs policy base out.created)
  return out.append (Composition.join cells)

/-! ## Guards and claims -/

/-- Where a report about a guard is filed: under the first cell it reads, or else under the first
effect of its frame. -/
def guardAnchor (g : Guard) (f : TxnFrame) : TableId × RowId × Option ColId :=
  match g.expr.firstCell with
  | some (t, r, c) => (t, r, some c)
  | none =>
    match f.ops.head? with
    | some o => (o.tbl, o.row, o.col)
    | none => (0, 0, none)

def guardReport (kind : ConflictKind) (g : Guard) (f : TxnFrame) (detail : String) :
    ConflictReport :=
  let anchor := guardAnchor g f
  { kind := kind, tbl := anchor.1, row := anchor.2.1, col := anchor.2.2, violatedGuard := some g,
    ours := none, theirs := none, detail := detail }

def checkGuard (state : ComposedState) (f : TxnFrame) (g : Guard) : Option ConflictReport :=
  match g.checkIn state.column with
  | .ok true => none
  | .ok false => some (guardReport .guardFailed g f (s!"guard from txn{f.txnId} on branch " ++
      branchName f.branch ++ " no longer holds against the merged state"))
  | .error e => some (guardReport .guardUnevaluable g f
      (s!"guard from txn{f.txnId} could not be evaluated: " ++ e.display))

/-- The guards of a frame are asked before its effects are applied. -/
def runFrame (acc : ComposedState × List ConflictReport) (f : TxnFrame) :
    Except FerroError (ComposedState × List ConflictReport) := do
  let state ← applyOps acc.1 f.ops
  return (state, acc.2 ++ f.guards.filterMap (checkGuard acc.1 f))

def CmpOp.display : CmpOp → String
  | .eq => "="
  | .ne => "<>"
  | .lt => "<"
  | .le => "<="
  | .gt => ">"
  | .ge => ">="

/-- A bound of a claim that the merged value breaks. -/
def boundReport (c : EscrowClaim) (current : Value) (bound : Option Value) (op : CmpOp)
    (label : String) : Option ConflictReport :=
  match bound with
  | none => none
  | some b =>
    if op.apply current b then none
    else
      some { kind := .guardFailed, tbl := c.tbl, row := c.row, col := some c.col
             violatedGuard := some ⟨.compare (.col c.tbl c.row c.col) op (.literal b),
               showCell ⟨c.tbl, c.row, c.col⟩ ++ " " ++ CmpOp.display op ++ " " ++ b.debug⟩
             ours := none, theirs := none
             detail := "escrow " ++ label ++ " violated by the merged state (value is " ++
               current.debug ++ ")" }

def checkClaim (state : ComposedState) (c : EscrowClaim) : Option ConflictReport :=
  match state.column c.tbl c.row c.col with
  | .error e => some
      { kind := .guardUnevaluable, tbl := c.tbl, row := c.row, col := some c.col
        violatedGuard := none, ours := none, theirs := none
        detail := "escrow claim could not be checked: " ++ e.display }
  | .ok current =>
    (boundReport c current c.floor .ge "floor").or (boundReport c current c.ceiling .le "ceiling")

/-! ## The merge -/

def stampedOps (f : TxnFrame) : List StampedOp :=
  f.ops.map fun op => ⟨op, f.branch, f.txnId, f.seq⟩

def sideOps (frames : List (TxnFrame × Side)) (side : Side) : List StampedOp :=
  (frames.filter (·.2 = side)).flatMap fun p => stampedOps p.1

/-- The first frame written against another schema version than the first one. -/
def schemaMismatch (frames : List TxnFrame) : Option ConflictReport :=
  match frames with
  | [] => none
  | first :: rest =>
    (rest.find? (·.schemaVer ≠ first.schemaVer)).map fun f =>
      { kind := .schemaMismatch, tbl := (f.ops.head?.map (·.tbl)).getD 0
        row := (f.ops.head?.map (·.row)).getD 0, col := none, violatedGuard := none, ours := none
        theirs := none
        detail := s!"txn{f.txnId} was written against schema version {f.schemaVer} but " ++
          s!"txn{first.txnId} against {first.schemaVer}" }

/-- The merged image over the snapshot. -/
def mergedState (base : GuardContext) (comp : Composition) : ComposedState :=
  let cells := comp.cells.foldl (fun s p => s.setCell p.1.tbl p.1.row p.1.col p.2) (.new base)
  let created := comp.created.foldl (fun s p => s.createRow p.1.tbl p.1.row p.2) cells
  comp.deleted.foldl (fun s k => s.deleteRow k.tbl k.row) created

/-- What a merge found: the composition and every conflict. -/
structure Merged where
  comp : Composition
  conflicts : List ConflictReport
deriving DecidableEq

section Merge

variable (oursOrder theirsOrder : HashOrder) (policy : PolicyTable) (base : GuardContext)

/-- The passes over frames of one schema version. -/
def mergeFrames (frames : List (TxnFrame × Side)) : Except FerroError Merged := do
  let comp ← compose oursOrder theirsOrder (.ofOps (sideOps frames .ours))
    (.ofOps (sideOps frames .theirs)) policy base
  let running ← frames.foldlM (fun acc p => runFrame acc p.1) (.new base, [])
  let state := mergedState base comp
  let claims := frames.flatMap fun p => p.1.claims.filterMap (checkClaim state)
  return ⟨comp, comp.conflicts ++ running.2 ++ claims⟩

def outcome (frames : List (TxnFrame × Side)) (m : Merged) : MergeOutcome :=
  if m.conflicts ≠ [] then .conflict m.conflicts
  else if m.comp.discarded ≠ [] then .resolvedWithLoss m.comp.composed m.comp.discarded
  else if sideOps frames .ours = [] ∨ sideOps frames .theirs = [] then .clean
  else .commuting m.comp.composed

def merge (ours theirs : List TxnFrame) : Except FerroError MergeOutcome :=
  let frames := (dedupByTxn ours theirs).1
  match schemaMismatch (frames.map (·.1)) with
  | some report => .ok (.conflict [report])
  | none => (mergeFrames oursOrder theirsOrder policy base frames).map (outcome frames)

end Merge

end FerroDb.Tel
