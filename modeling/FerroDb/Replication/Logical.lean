import FerroDb.Sql.Value
import FerroDb.Storage.Tuple
import FerroDb.Wal.Frames

/-!
# Decoding the log into row changes

The decoder of `replication/logical.rs`. It walks a range of the log once, keeps for every
transaction the changes it has made so far, and releases them where the transaction commits. Rows
are read under the schema that was in force where they stand: the mapping the decoder was built
with, changed by the schema records before the row.

How a row is stored is left open: `deserialize` is what `Tuple::deserialize` answers for a schema
and the bytes, and an error of the form `panic` stands for the process stopping there. The decoder
reads one log, so the path that tells logs apart is not kept.

## Main definitions

* `Mapping`, `ShapeAt` — which table a directory root belongs to, and how a schema record changes it.
* `Walk.step` — one record.
* `LogicalDecoder.decode` — a range of the log.
-/

namespace FerroDb.Replication

open Sql Storage Wal Function Std

/-! ## Events -/

inductive SchemaChange where
  | createTable
  | dropTable
  | addColumn (column : String)
  | renameColumn (source target : String)
  | retypeColumn (column source target : String)
deriving DecidableEq

structure ColumnSpec where
  name : String
  sqlType : String
  nullable : Bool
deriving DecidableEq

inductive ChangeOp where
  | schema (change : SchemaChange) (columns : List ColumnSpec)
  | insert (new : Row)
  | update (old new : Row)
  | delete (old : Row)
deriving DecidableEq

def ChangeOp.isWrite : ChangeOp → Bool
  | schema .. => false
  | _ => true

structure ChangeEvent where
  txnId : ℕ
  lsn : ℕ
  commitLsn : ℕ
  commitEndLsn : ℕ
  table : String
  columns : List String
  op : ChangeOp
  writer : Option RunEntity
deriving DecidableEq

/-- A change whose transaction has not ended. -/
structure Change where
  lsn : ℕ
  table : String
  columns : List String
  op : ChangeOp
deriving DecidableEq

structure Decoded where
  events : List ChangeEvent
  unresolved : TreeMap ℕ ℕ
  undecodable : TreeMap ℕ ℕ
  schemaChanges : List (ℕ × String × SchemaChange)
  internal : ℕ
  aborted : TreeSet ℕ
  opened : List ℕ
  runs : TreeMap ℕ RunEntity
  unattributedCommits : TreeSet ℕ
  unattributedEvents : ℕ
  openFrom : Option ℕ

def Decoded.empty : Decoded := ⟨[], ∅, ∅, [], 0, ∅, [], ∅, ∅, 0, none⟩

/-! ## Tables by their directory -/

structure TableShape where
  name : String
  schema : Schema
deriving DecidableEq

def TableShape.columns (t : TableShape) : List String := t.schema.columns.map Column.name

structure Mapping where
  tables : ℕ → Option TableShape
  timeTravel : ℕ → Bool

/-- A shape that a schema record put into force. -/
structure ShapeAt where
  lsn : ℕ
  dirRoot : ℕ
  entry : Option TableShape
  timeTravelRoot : Option ℕ
deriving DecidableEq

def Mapping.applyShape (m : Mapping) (s : ShapeAt) : Mapping where
  tables := update m.tables s.dirRoot s.entry
  timeTravel := match s.timeTravelRoot with
    | some root => update m.timeTravel root true
    | none => m.timeTravel

def debugNames (columns : List Column) : String :=
  "[" ++ ", ".intercalate (columns.map fun c => "\"" ++ c.name ++ "\"") ++ "]"

def noSuchColumn (subject table : String) (columns : List Column) : FerroError :=
  .wal ("ddl record alters column '" ++ subject ++ "' of '" ++ table ++
    "' but the shape it carries has no such column: " ++ debugNames columns)

def shapeOfDdl (lsn : ℕ) (op : DdlOp) (table : String) (dirRoot timeTravelRoot : ℕ)
    (columns : List Column) : Except FerroError ShapeAt :=
  let adopted : ShapeAt := ⟨lsn, dirRoot, some ⟨table, ⟨columns⟩⟩, some timeTravelRoot⟩
  match op with
  | .createTable => .ok adopted
  | .dropTable => .ok ⟨lsn, dirRoot, none, none⟩
  | .alterColumn alt =>
    if columns.any (·.name = alt.column) then .ok adopted
    else .error (noSuchColumn alt.column table columns)

def didNotAdvance (lsn : ℕ) : FerroError :=
  .wal s!"log walk did not advance at lsn {lsn}; refusing to loop forever"

def scanRecord (lsn : ℕ) (r : LogRecord) (shapes : List ShapeAt) :
    Except FerroError (List ShapeAt) :=
  match r.kind with
  | .ddl op table dirRoot timeTravelRoot columns => do
    return shapes ++ [← shapeOfDdl lsn op table dirRoot timeTravelRoot columns]
  | _ => .ok shapes

/-- The schema records of a range. -/
def scanDdl (wal : WalManager) (fromLsn toLsn : ℕ) : Except FerroError (List ShapeAt) :=
  wal.forRecords didNotAdvance toLsn (fun lsn _ r => scanRecord lsn r) (toLsn - fromLsn) fromLsn []

/-! ## What the decoder has learned -/

def ShapeAt.sameAs (p s : ShapeAt) : Bool :=
  p.entry = s.entry && p.timeTravelRoot = s.timeTravelRoot

/-- Drops a shape that repeats the one before it for the same directory. -/
def collapseFrom (newest : ℕ → Option ShapeAt) : List ShapeAt → List ShapeAt
  | [] => []
  | s :: shapes =>
    if (newest s.dirRoot).any (·.sameAs s) then collapseFrom newest shapes
    else s :: collapseFrom (update newest s.dirRoot (some s)) shapes

def collapseRepeats (shapes : List ShapeAt) : List ShapeAt := collapseFrom (fun _ => none) shapes

/-- The shape in the place of the one that came from the same record. -/
def replaceShape (shape : ShapeAt) : List ShapeAt → List ShapeAt
  | [] => [shape]
  | s :: shapes =>
    if s.lsn = shape.lsn ∧ s.dirRoot = shape.dirRoot then shape :: shapes
    else s :: replaceShape shape shapes

def mergeShapes (shapes incoming : List ShapeAt) : List ShapeAt :=
  if incoming.isEmpty then shapes
  else
    let merged := incoming.foldl (fun shapes shape => replaceShape shape shapes) shapes
    collapseRepeats (merged.insertionSort fun a b => a.lsn ≤ b.lsn)

/-- Drops what was superseded before the log's base. -/
def forgetTruncated (history : List ShapeAt) (baseLsn : ℕ) : List ShapeAt :=
  history.filter fun s =>
    !(decide (s.lsn < baseLsn) && history.any fun later =>
      later.dirRoot = s.dirRoot && decide (s.lsn < later.lsn) && decide (later.lsn ≤ baseLsn))

structure Learned where
  shapes : List ShapeAt
  coveredThrough : ℕ

structure LogicalDecoder where
  mapping : Mapping
  history : Learned

/-- A decoder as it is built. -/
def LogicalDecoder.new (mapping : Mapping) : LogicalDecoder := ⟨mapping, [], 0⟩

/-- Reads the schema records up to `fromLsn` that no walk has passed yet. -/
def Learned.catchUp (h : Learned) (wal : WalManager) (fromLsn : ℕ) :
    Except FerroError Unit × Learned :=
  let shapes := forgetTruncated h.shapes wal.baseLsn
  let covered := max h.coveredThrough wal.baseLsn
  if covered < fromLsn then
    match scanDdl wal covered fromLsn with
    | .error e => (.error e, ⟨shapes, covered⟩)
    | .ok found => (.ok (), ⟨mergeShapes shapes found, fromLsn⟩)
  else (.ok (), ⟨shapes, covered⟩)

/-- The mapping in force at `fromLsn`. -/
def Learned.seed (h : Learned) (mapping : Mapping) (fromLsn : ℕ) : Mapping :=
  (h.shapes.filter (·.lsn < fromLsn)).foldl Mapping.applyShape mapping

/-! ## One record -/

section

variable (deserialize : Schema → List UInt8 → Except FerroError Row)

/-- A row version that is no longer the current one. -/
def isDead (bytes : List UInt8) : Bool :=
  match versionHeader bytes with
  | .ok h => h.endTs ≠ 0
  | .error _ => false

inductive RowResult where
  | row (table : String) (columns : List String) (values : Row)
  | unknownTable
  | undecodable

def Mapping.rowIn (m : Mapping) (dirRoot : ℕ) (bytes : List UInt8) : Except FerroError RowResult :=
  match m.tables dirRoot with
  | none => .ok .unknownTable
  | some shape =>
    match deserialize shape.schema bytes with
    | .ok values => .ok (.row shape.name shape.columns values)
    | .error (.panic msg) => .error (.panic msg)
    | .error _ => .ok .undecodable

/-- A record of the heap that keeps old versions. -/
def Mapping.internalRoot (m : Mapping) : RecKind → Bool
  | .heapInsert dirRoot .. | .heapDelete dirRoot .. | .heapUpdate dirRoot .. =>
    m.timeTravel dirRoot && (m.tables dirRoot).isNone
  | _ => false

/-- Whether two rows have the same key. -/
def sameKey (old new : Row) : Bool :=
  match old.head?, new.head? with
  | some a, some b => a.eqv b
  | none, none => true
  | _, _ => false

/-- An insert right behind the delete of the same key is the second half of a row that moved. -/
def pairInsert (relocationHalf : Option ℕ) (dirRoot lsn : ℕ) (table : String)
    (columns : List String) (new : Row) (changes : List Change) : List Change :=
  if relocationHalf = some dirRoot then
    match changes.getLast? with
    | some ⟨moved, t, cols, .delete old⟩ =>
      if sameKey old new then changes.dropLast ++ [⟨moved, t, cols, .update old new⟩]
      else changes ++ [⟨lsn, table, columns, .insert new⟩]
    | _ => changes ++ [⟨lsn, table, columns, .insert new⟩]
  else changes ++ [⟨lsn, table, columns, .insert new⟩]

/-- An update in place, by what it does to the current version. -/
def updateOp (oldDead newDead : Bool) (old new : Row) : ChangeOp :=
  if newDead then .delete old else if oldDead then .insert new else .update old new

structure Walk where
  mapping : Mapping
  learned : List ShapeAt
  staged : TreeMap ℕ (List Change)
  runs : TreeMap ℕ RunEntity
  bound : TreeMap ℕ RunEntity
  relocating : TreeMap ℕ ℕ
  out : Decoded

namespace Walk

def start (mapping : Mapping) : Walk := ⟨mapping, [], ∅, ∅, ∅, ∅, .empty⟩

def bump (counts : TreeMap ℕ ℕ) (root : ℕ) : TreeMap ℕ ℕ :=
  counts.insert root (counts.getD root 0 + 1)

variable (w : Walk)

def countUnresolved (root : ℕ) : Walk :=
  { w with out := { w.out with unresolved := bump w.out.unresolved root } }

def countUndecodable (root : ℕ) : Walk :=
  { w with out := { w.out with undecodable := bump w.out.undecodable root } }

def countInternal : Walk :=
  { w with out := { w.out with internal := w.out.internal + 1 } }

def changesOf (txn : ℕ) : List Change := w.staged.getD txn []

def setChanges (txn : ℕ) (changes : List Change) : Walk :=
  { w with staged := w.staged.insert txn changes }

def heapInsert (relocationHalf : Option ℕ) (lsn txn dirRoot : ℕ) (tuple : List UInt8) :
    Except FerroError Walk := do
  match ← w.mapping.rowIn deserialize dirRoot tuple with
  | .row table columns new =>
    return w.setChanges txn
      (pairInsert relocationHalf dirRoot lsn table columns new (w.changesOf txn))
  | .unknownTable => return w.countUnresolved dirRoot
  | .undecodable => return w.countUndecodable dirRoot

def heapDelete (lsn txn dirRoot : ℕ) (old : List UInt8) : Except FerroError Walk := do
  if isDead old then return w.countInternal
  match ← w.mapping.rowIn deserialize dirRoot old with
  | .row table columns decoded =>
    let w := w.setChanges txn (w.changesOf txn ++ [⟨lsn, table, columns, .delete decoded⟩])
    return { w with relocating := w.relocating.insert txn dirRoot }
  | .unknownTable => return w.countUnresolved dirRoot
  | .undecodable => return w.countUndecodable dirRoot

def heapUpdate (lsn txn dirRoot : ℕ) (old new : List UInt8) :
    Except FerroError Walk := do
  match ← w.mapping.rowIn deserialize dirRoot old, ← w.mapping.rowIn deserialize dirRoot new with
  | .row table columns oldRow, .row _ _ newRow =>
    return w.setChanges txn (w.changesOf txn ++
      [⟨lsn, table, columns, updateOp (isDead old) (isDead new) oldRow newRow⟩])
  | .unknownTable, _ | _, .unknownTable => return w.countUnresolved dirRoot
  | _, _ => return w.countUndecodable dirRoot

/-- The event of a change that is committed. -/
def eventOf (txn commitLsn commitEndLsn : ℕ) (writer : Option RunEntity) (c : Change) :
    ChangeEvent :=
  ⟨txn, c.lsn, commitLsn, commitEndLsn, c.table, c.columns, c.op, writer⟩

def commit (lsn next txn : ℕ) : Walk :=
  let writer := w.bound[txn]?
  let w := { w with bound := w.bound.erase txn }
  match w.staged[txn]? with
  | none => w
  | some changes =>
    let out := if writer.isNone && !changes.isEmpty then
        { w.out with
          unattributedCommits := w.out.unattributedCommits.insert txn
          unattributedEvents := w.out.unattributedEvents + changes.length }
      else w.out
    { w with
      staged := w.staged.erase txn
      out := { out with events := out.events ++ changes.map (eventOf txn lsn next writer) } }

def twoActors (key : ℕ) (known run : RunEntity) : FerroError :=
  .wal (s!"the log declares provenance slot {key} twice with different " ++
    "actors: " ++ known.describe ++ " and " ++ run.describe ++
    ". Refusing to guess which wrote what.")

/-- The first declaration of a slot stands. Transaction 0 declares a run and binds it to nothing. -/
def bindRun (txn : ℕ) (run shared : RunEntity) : Walk :=
  { w with
    runs := w.runs.insertIfNew run.provId run
    bound := if txn ≠ 0 then w.bound.insert txn shared else w.bound
    out := { w.out with runs := w.out.runs.insertIfNew run.provId run } }

def runIdentity (txn : ℕ) (run : RunEntity) : Except FerroError Walk :=
  match w.runs[run.provId]? with
  | some known =>
    if known.sameActor run then .ok (w.bindRun txn run known)
    else .error (twoActors run.provId known run)
  | none => .ok (w.bindRun txn run run)

def abort (txn : ℕ) : Walk :=
  { w with
    staged := w.staged.erase txn
    bound := w.bound.erase txn
    out := { w.out with aborted := w.out.aborted.insert txn } }

end Walk

def columnSpec (c : Column) : ColumnSpec := ⟨c.name, c.dataType.display, c.nullable⟩

/-- The change an alteration announces; `newType` is what the column is now. -/
def alterationChange (newType : DataType) : ColumnAlteration → SchemaChange
  | .add column => .addColumn column
  | .rename source target => .renameColumn source target
  | .retype column source => .retypeColumn column source.display newType.display

def schemaChangeOf (op : DdlOp) (table : String) (columns : List Column) :
    Except FerroError SchemaChange :=
  match op with
  | .createTable => .ok .createTable
  | .dropTable => .ok .dropTable
  | .alterColumn alt =>
    match columns.find? (·.name = alt.column) with
    | some c => .ok (alterationChange c.dataType alt)
    | none => .error (noSuchColumn alt.column table columns)

def schemaEvent (txn lsn next : ℕ) (table : String) (columns : List Column)
    (change : SchemaChange) : ChangeEvent :=
  ⟨txn, lsn, lsn, next, table, columns.map Column.name, .schema change (columns.map columnSpec),
    none⟩

/-- The mapping with the table as the record describes it, or without it. -/
def Mapping.adopt (m : Mapping) (op : DdlOp) (table : String) (dirRoot timeTravelRoot : ℕ)
    (columns : List Column) : Mapping :=
  match op with
  | .dropTable => { m with tables := update m.tables dirRoot none }
  | _ =>
    { tables := update m.tables dirRoot (some ⟨table, ⟨columns⟩⟩)
      timeTravel := update m.timeTravel timeTravelRoot true }

namespace Walk

def ddl (w : Walk) (lsn next txn : ℕ) (op : DdlOp) (table : String) (dirRoot timeTravelRoot : ℕ)
    (columns : List Column) : Except FerroError Walk := do
  let change ← schemaChangeOf op table columns
  let mapping := w.mapping.adopt op table dirRoot timeTravelRoot columns
  let shape : ShapeAt :=
    ⟨lsn, dirRoot, mapping.tables dirRoot, if op = .dropTable then none else some timeTravelRoot⟩
  return { w with
    mapping
    learned := w.learned ++ [shape]
    out := { w.out with
      schemaChanges := w.out.schemaChanges ++ [(lsn, table, change)]
      events := w.out.events ++ [schemaEvent txn lsn next table columns change] } }

/-- What the walk does with a record that stands at `lsn` and ends at `next`. -/
def step (w : Walk) (lsn next : ℕ) (r : LogRecord) : Except FerroError Walk :=
  if w.mapping.internalRoot r.kind then .ok w.countInternal
  else
    let txn := r.txnId
    let relocationHalf := w.relocating[txn]?
    let w := { w with relocating := w.relocating.erase txn }
    match r.kind with
    | .heapInsert dirRoot _ _ tuple => w.heapInsert deserialize relocationHalf lsn txn dirRoot tuple
    | .heapDelete dirRoot _ _ old => w.heapDelete deserialize lsn txn dirRoot old
    | .heapUpdate dirRoot _ _ old new => w.heapUpdate deserialize lsn txn dirRoot old new
    | .commit => .ok (w.commit lsn next txn)
    | .runIdentity run => w.runIdentity txn run
    | .abort => .ok (w.abort txn)
    | .ddl op table dirRoot timeTravelRoot columns =>
      w.ddl lsn next txn op table dirRoot timeTravelRoot columns
    | .begin | .txnEnd | .checkpoint | .clr .. => .ok w

/-- The records of a range; one that starts before `toLsn` is read whole. -/
def through (wal : WalManager) (fromLsn toLsn : ℕ) (w : Walk) : Except FerroError Walk :=
  wal.forRecords didNotAdvance toLsn (fun lsn next r w => w.step deserialize lsn next r)
    (toLsn - fromLsn) fromLsn w

/-- What is still pending when the range ends. -/
def finish (w : Walk) : Decoded :=
  { w.out with
    opened := w.staged.keys
    openFrom := (w.staged.toList.flatMap (·.2.map Change.lsn)).min? }

end Walk

/-- Decodes the range, and learns from it. -/
def LogicalDecoder.decode (d : LogicalDecoder) (wal : WalManager) (fromLsn toLsn : ℕ) :
    Except FerroError Decoded × LogicalDecoder :=
  match d.history.catchUp wal fromLsn with
  | (.error e, history) => (.error e, { d with history })
  | (.ok (), history) =>
    match Walk.through deserialize wal fromLsn toLsn
        (Walk.start (history.seed d.mapping fromLsn)) with
    | .error e => (.error e, { d with history })
    | .ok w =>
      let shapes := mergeShapes history.shapes w.learned
      (.ok w.finish, { d with history := ⟨shapes, max history.coveredThrough toLsn⟩ })

end

end FerroDb.Replication
