import FerroDb.Cluster.Digest

/-!
# Wire lengths

An `Append` carries as many entries as fit one frame, and a proposal that no frame could carry
is refused. Both are decided by running the encoder of `consensus/transport.rs`, so it is
modelled here: every function appends to the buffer it is given, or refuses.
-/

namespace FerroDb.Cluster.Wire

abbrev Buf := List UInt8

def maxFrameBytes : ℕ := 8 * 1024 * 1024
def macLen : ℕ := 32
def maxConfigNodes : ℕ := 1024

def tooBig (n : ℕ) : FerroError :=
  .wal (s!"a consensus message encodes to {n} bytes, over the {maxFrameBytes}-byte frame limit; " ++
    "it was refused rather than framed, because a length that does not fit the frame header " ++
    "is a frame the peer misparses. Send fewer entries.")

variable (b : Buf)

/-- Room for `adding` more bytes, checked before they are written. -/
def room (adding : ℕ) : Except FerroError Unit :=
  if maxFrameBytes < satAdd64 b.length adding then .error (tooBig (satAdd64 b.length adding))
  else .ok ()

def putU32 (v : ℕ) : Buf := b ++ beBytes 4 v
def putU64 (b : Buf) (v : ℕ) : Buf := b ++ beBytes 8 v
def putBool (b : Buf) (v : Bool) : Buf := b ++ [if v then 1 else 0]

def putBytes (v : List UInt8) : Except FerroError Buf := do
  room b (4 + v.length)
  return putU32 b v.length ++ v

/-! ## The DDL record inside a catalog command -/

def u16Max : ℕ := 2 ^ 16 - 1

def writeStr (s : String) (what : String) : Except FerroError Buf :=
  let len := (strBytes s).length
  if u16Max < len then .error (.unrepresentable what len u16Max)
  else .ok (b ++ beBytes 2 len ++ strBytes s)

def writeDataType : DataType → Buf
  | .integer => b ++ [0]
  | .float => b ++ [1]
  | .boolean => b ++ [2]
  | .varchar n => b ++ [3] ++ beBytes 2 n
  | .bigInt => b ++ [4]
  | .decimal => b ++ [5]
  | .timestamp => b ++ [6]

def writeDdlOp : DdlOp → Except FerroError Buf
  | .createTable => .ok (b ++ [0])
  | .dropTable => .ok (b ++ [1])
  | .alterColumn (.add column) => writeStr (b ++ [2, 0]) column "an added column's name"
  | .alterColumn (.rename old new) => do
    let b ← writeStr (b ++ [2, 1]) old "a renamed column's old name"
    writeStr b new "a renamed column's new name"
  | .alterColumn (.retype column old) => do
    let b ← writeStr (b ++ [2, 2]) column "a retyped column's name"
    return writeDataType b old

def writeColumn (col : String × DataType × Bool) : Except FerroError Buf := do
  let b ← writeStr b col.1 "a column name"
  return writeDataType b col.2.1 ++ [if col.2.2 then 1 else 0]

/-- `RecKind::Ddl` with both roots zero, as a catalog command carries it. -/
def ddlRecord (op : DdlOp) (table : String) (columns : List (String × DataType × Bool)) :
    Except FerroError Buf := do
  let b ← writeDdlOp [9] op
  let b ← writeStr (putU32 (putU32 b 0) 0) table "a table name"
  if u16Max < columns.length then
    throw (.unrepresentable "a DDL record's column count" columns.length u16Max)
  columns.foldlM writeColumn (b ++ beBytes 2 columns.length)

/-! ## Commands and entries -/

def encodeBranchOp : BranchOp → Buf
  | .fork child parent forkEpoch leaseMillis =>
    putU64 (putU64 (putU64 (putU64 (b ++ [0]) child) parent) forkEpoch) leaseMillis
  | .merge branch baseRound => putU64 (putU64 (b ++ [1]) branch) baseRound
  | .abandon branch => putU64 (b ++ [2]) branch
  | .reap branch generation => putU32 (putU64 (b ++ [3]) branch) generation

def encodeNodes (nodes : List NodeId) : Except FerroError Buf := do
  if maxConfigNodes < nodes.length then
    throw (.wal (s!"a configuration holds {nodes.length} nodes, over the {maxConfigNodes} the " ++
      "wire format allows; a peer would refuse this frame, so it is refused here where the " ++
      "cause is visible"))
  room b (4 + nodes.length * 4)
  return nodes.foldl putU32 (putU32 b nodes.length)

def encodeConfig (c : Config) : Except FerroError Buf := do
  let b ← encodeNodes (putU64 (putU64 b c.version) c.term) c.members
  encodeNodes b c.learners

def encodeCommand : Command → Except FerroError Buf
  | .walBatch startLsn bytes => putBytes (putU64 (b ++ [0]) startLsn) bytes
  | .catalog op table columns => do
    let rec_ ← ddlRecord op table columns
    putBytes (b ++ [1]) rec_
  | .branch op => .ok (encodeBranchOp (b ++ [2]) op)
  | .arenaGrant node firstPage pageCount =>
    .ok (putU32 (putU32 (putU32 (b ++ [3]) node) firstPage) pageCount)
  | .txnIdRange node lo hi => .ok (putU64 (putU64 (putU32 (b ++ [4]) node) lo) hi)
  | .leaseTick unixMillis => .ok (putU64 (b ++ [5]) unixMillis)
  | .checkpoint => .ok (b ++ [6])
  | .membership config => encodeConfig (b ++ [7]) config
  | .noOp => .ok (b ++ [8])

def encodeEntry (e : Entry) : Except FerroError Buf := do
  room b 17
  encodeCommand (putU64 (putU64 b e.term) e.round) e.command

/-- The length of an entry on the wire; an entry that cannot be written has the largest. -/
def entryWireLen (e : Entry) : ℕ :=
  match encodeEntry [] e with
  | .ok b => b.length
  | .error _ => u64Max

/-- An `Append` of no entries: two ids, the term, the kind, three rounds and a count. -/
def emptyAppendBytes : ℕ := 4 + 4 + 8 + 1 + 8 + 8 + 8 + 4

/-- What is left of a frame for entries once the envelope and a signature are paid for. -/
def appendEntriesBudget : ℕ := maxFrameBytes - (emptyAppendBytes + macLen)

def admitEntry (e : Entry) : Except FerroError Unit := do
  let b ← encodeEntry [] e
  if appendEntriesBudget < b.length then
    throw (.wal (s!"an entry of {b.length} bytes on the wire cannot fit one Append frame, which " ++
      s!"carries at most {appendEntriesBudget} bytes of entries once its envelope and a " ++
      "signature are paid for. Refused at proposal, before it reached the log: a round no frame " ++
      "can carry is a round no follower can ever receive, and it would block every round after it"))

end FerroDb.Cluster.Wire
