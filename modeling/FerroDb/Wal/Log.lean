import FerroDb.Catalog
import Mathlib.Tactic

/-!
# The write-ahead log

The records of `wal/log.rs` and the log they are appended to. A record's LSN is the position of
its frame, so LSNs grow by the length of what is written. The log's file holds the records below
`flushedLsn`; the rest is in memory.

Frames are not kept as bytes: the check sum of a frame is taken to tell a whole record from a torn
one, and from bytes that are not the start of a record.
-/

namespace FerroDb.Wal

/-! ## Schema changes and runs -/

inductive ColumnAlteration where
  | add (column : String)
  | rename (source target : String)
  | retype (column : String) (source : DataType)
deriving DecidableEq

/-- The column as it is called after the alteration. -/
def ColumnAlteration.column : ColumnAlteration → String
  | add column => column
  | rename _ target => target
  | retype column _ => column

inductive DdlOp where
  | createTable
  | dropTable
  | alterColumn (alt : ColumnAlteration)
deriving DecidableEq

/-- The actor behind a set of writes. -/
structure RunEntity where
  provId : ℕ
  agentId : String
  runId : String
  model : String
  modelVersion : String
  promptHash : List UInt8
  startedAt : ℕ
  parentBranch : BranchId
deriving DecidableEq

namespace RunEntity

def describe (r : RunEntity) : String :=
  s!"agent={r.agentId} run={r.runId} model={r.model}/{r.modelVersion} " ++
    s!"branch=b{r.parentBranch.id}@g{r.parentBranch.generation}"

/-- When a session of the run began is no part of who the actor is. -/
def sameActor (r other : RunEntity) : Bool :=
  r.agentId = other.agentId && r.runId = other.runId && r.model = other.model &&
    r.modelVersion = other.modelVersion && r.promptHash = other.promptHash &&
    r.parentBranch = other.parentBranch

end RunEntity

/-! ## Records -/

inductive RecKind where
  | begin
  | commit
  | abort
  | txnEnd
  | heapInsert (dirRoot pageId slot : ℕ) (tuple : List UInt8)
  | heapDelete (dirRoot pageId slot : ℕ) (old : List UInt8)
  | heapUpdate (dirRoot pageId slot : ℕ) (old new : List UInt8)
  | clr (undoneLsn undoNext : ℕ) (redo : RecKind)
  | checkpoint
  | ddl (op : DdlOp) (table : String) (dirRoot timeTravelRoot : ℕ) (columns : List Column)
  | runIdentity (run : RunEntity)
deriving DecidableEq

/-- A string behind a length of two bytes. -/
def strLen (s : String) : ℕ := 2 + s.utf8ByteSize

def dataTypeLen : DataType → ℕ
  | .varchar _ => 3
  | _ => 1

def ColumnAlteration.encodedLen : ColumnAlteration → ℕ
  | add column => 1 + strLen column
  | rename source target => 1 + strLen source + strLen target
  | retype column source => 1 + strLen column + dataTypeLen source

def DdlOp.encodedLen : DdlOp → ℕ
  | createTable | dropTable => 1
  | alterColumn alt => 1 + alt.encodedLen

def columnLen (c : Column) : ℕ := strLen c.name + dataTypeLen c.dataType + 1

def RunEntity.encodedLen (r : RunEntity) : ℕ :=
  4 + strLen r.agentId + strLen r.runId + strLen r.model + strLen r.modelVersion + 32 + 8 + 8 + 4

/-- How many bytes `RecKind::serialize` writes. -/
def RecKind.encodedLen : RecKind → ℕ
  | begin | commit | abort | txnEnd | checkpoint => 1
  | heapInsert _ _ _ tuple => 1 + 4 + 4 + 2 + 4 + tuple.length
  | heapDelete _ _ _ old => 1 + 4 + 4 + 2 + 4 + old.length
  | heapUpdate _ _ _ old new => 1 + 4 + 4 + 2 + 4 + old.length + 4 + new.length
  | clr _ _ redo => 1 + 8 + 8 + redo.encodedLen
  | ddl op table _ _ columns =>
    1 + op.encodedLen + 4 + 4 + strLen table + 2 + (columns.map columnLen).sum
  | runIdentity run => 1 + run.encodedLen

structure LogRecord where
  lsn : ℕ
  prevLsn : ℕ
  txnId : ℕ
  kind : RecKind
deriving DecidableEq

/-- The length word, the three numbers every record starts with, the kind and the check sum. -/
def LogRecord.frameLen (r : LogRecord) : ℕ := 4 + (8 + 8 + 8 + r.kind.encodedLen) + 4

def initialLsn : ℕ := 1

structure WalManager where
  records : List LogRecord
  nextLsn : ℕ
  flushedLsn : ℕ

namespace WalManager

def new : WalManager := ⟨[], initialLsn, initialLsn⟩

/-- Where the log begins. It is never cut while someone reads it. -/
def baseLsn (_ : WalManager) : ℕ := initialLsn

/-- The LSN of the new record, and the log with it. -/
def append (w : WalManager) (txnId prevLsn : ℕ) (kind : RecKind) : ℕ × WalManager :=
  let r : LogRecord := ⟨w.nextLsn, prevLsn, txnId, kind⟩
  (w.nextLsn, { w with records := w.records ++ [r], nextLsn := w.nextLsn + r.frameLen })

def readRecord (w : WalManager) (lsn : ℕ) : Except FerroError LogRecord :=
  match w.records.find? (·.lsn = lsn) with
  | some r => .ok r
  | none => .error (.wal "lsn past end of buffer")

def flush (w : WalManager) : WalManager := { w with flushedLsn := max w.flushedLsn w.nextLsn }

def flushUpTo (w : WalManager) (lsn : ℕ) : WalManager := if lsn < w.flushedLsn then w else w.flush

end WalManager

end FerroDb.Wal
