import FerroDb.Cluster.Node
import FerroDb.Library.CrashFile

/-!
# The round log on disk

`consensus/log.rs` keeps the log in two files, of which the one with the greater generation is
live. A file is a header and then frames, and both carry a CRC. Appends go behind the last frame
and wait for a sync. Discarding a prefix copies the survivors into the other file, syncs them, and
only then writes that file's header; raising the format version does the same with all frames.

A method returns the new handle and the storage operations it issues, in order, so that a crash
can come between any two of them. Commands are kept as the bytes they are encoded to. Failing
storage operations, and the poisoning they cause, are left out.
-/

namespace FerroDb.Cluster

open Library (File FileOp)
open PayloadHeader (slice u32At u64At)

/-! ## Records and their checks -/

def crc32Table (i : UInt32) : UInt32 :=
  (fun crc : UInt32 => if crc &&& 1 = 1 then (crc >>> 1) ^^^ 0xEDB88320 else crc >>> 1)^[8] i

def crc32 (data : List UInt8) : UInt32 :=
  let step (crc : UInt32) (byte : UInt8) : UInt32 :=
    (crc >>> 8) ^^^ crc32Table ((crc ^^^ byte.toUInt32) &&& 0xFF)
  data.foldl step 0xFFFFFFFF ^^^ 0xFFFFFFFF

namespace FileLog

def magic : ℕ := 0xF3EEDB03
def version2 : ℕ := 2
def legacyVersion : ℕ := 1
def legacyReadBound : ℕ := 8384576
def headerSize : ℕ := 36
def minFrame : ℕ := 4 + 8 + 8 + 1 + 4
def maxEntryBytes : ℕ := 8 * 1024 * 1024
def maxFrame : ℕ := 8388672
def copyBatch : ℕ := 1 <<< 20

/-- A length of zero: a scan that comes here stops. -/
def terminator : List UInt8 := [0, 0, 0, 0]

structure Header where
  version : ℕ
  generation : ℕ
  snapshotRound : Round
  snapshotTerm : Term
deriving DecidableEq

namespace Header

def body (h : Header) : List UInt8 :=
  beBytes 4 magic ++ beBytes 4 h.version ++ beBytes 8 h.generation ++ beBytes 8 h.snapshotRound ++
    beBytes 8 h.snapshotTerm

def encode (h : Header) : List UInt8 := h.body ++ beBytes 4 (crc32 h.body).toNat

/-- The bytes are a header of some format version. -/
def Checked (bytes : List UInt8) : Prop :=
  (crc32 (bytes.take 32)).toNat = u32At bytes 32 ∧ u32At bytes 0 = magic

instance (bytes : List UInt8) : Decidable (Checked bytes) := instDecidableAnd

def decode (bytes : List UInt8) : Except LogError (Option Header) := do
  if ¬ Checked bytes then return none
  let version := u32At bytes 4
  if version ≠ version2 ∧ version ≠ legacyVersion then
    throw (.corrupt (s!"a round log written at format version {version}; this build reads " ++
      s!"versions {legacyVersion} and {version2}"))
  return some ⟨version, u64At bytes 8, u64At bytes 16, u64At bytes 24⟩

end Header

/-- An entry with its command encoded. -/
structure RawEntry where
  term : Term
  round : Round
  payload : List UInt8
deriving DecidableEq

namespace RawEntry

def total (e : RawEntry) : ℕ := 4 + 8 + 8 + e.payload.length + 4

def body (e : RawEntry) : List UInt8 :=
  beBytes 4 e.total ++ beBytes 8 e.term ++ beBytes 8 e.round ++ e.payload

def frame (e : RawEntry) : List UInt8 := e.body ++ beBytes 4 (crc32 e.body).toNat

/-- What the types of the source say of an entry: an encoded command has its tag, and terms and
rounds are 64-bit numbers. -/
def Typed (e : RawEntry) : Prop := e.payload ≠ [] ∧ e.term < 2 ^ 64 ∧ e.round < 2 ^ 64

end RawEntry

def encodeFrame (e : RawEntry) : Except LogError (List UInt8) :=
  if maxEntryBytes < e.total then .error (.tooLarge e.total maxEntryBytes) else .ok e.frame

def decodeFrame (frame : List UInt8) (round : Round) (term : Term) : Except LogError RawEntry := do
  if frame.length < minFrame then
    throw (.corrupt s!"a frame of {frame.length} bytes is too short")
  let total := u32At frame 0
  if total ≠ frame.length then
    throw (.corrupt s!"a frame claims {total} bytes but {frame.length} were read")
  if (crc32 (frame.take (total - 4))).toNat ≠ ofBeBytes (frame.drop (total - 4)) then
    throw (.corrupt s!"the frame at round {round} fails its crc32")
  let gotTerm := u64At frame 4
  let gotRound := u64At frame 12
  if gotRound ≠ round ∨ gotTerm ≠ term then
    throw (.corrupt (s!"the index says round {round} term {term} lives here, but the frame says " ++
      s!"round {gotRound} term {gotTerm}"))
  return ⟨term, round, slice frame 20 (total - 4)⟩

/-! ## Scanning a file -/

structure Frame where
  offset : ℕ
  len : ℕ
  term : Term
deriving DecidableEq

/-- The frame at `offset`, if its length and its CRC are right. -/
def frameAt (c : List UInt8) (offset : ℕ) : Option (List UInt8) :=
  if c.length < offset + 4 then none
  else
    let total := u32At c offset
    if total < minFrame ∨ maxFrame < total ∨ c.length < offset + total then none
    else
      let frame := slice c offset (offset + total)
      if (crc32 (frame.take (total - 4))).toNat = ofBeBytes (frame.drop (total - 4)) then some frame
      else none

/-- The frames from `offset` on and where the scan stopped. Every frame takes up bytes, so the
length of the file is fuel enough. -/
def scanLoop (c : List UInt8) : ℕ → ℕ → Round → Term → List Frame × ℕ
  | 0, offset, _, _ => ([], offset)
  | fuel + 1, offset, expectedRound, prevTerm =>
    match frameAt c offset with
    | none => ([], offset)
    | some frame =>
      let term := u64At frame 4
      if u64At frame 12 ≠ expectedRound ∨ term < prevTerm then ([], offset)
      else
        let rest := scanLoop c fuel (offset + frame.length) (expectedRound + 1) term
        (⟨offset, frame.length, term⟩ :: rest.1, rest.2)

def scanFrames (c : List UInt8) (snapshotRound : Round) (snapshotTerm : Term) : List Frame × ℕ :=
  scanLoop c c.length headerSize (snapshotRound + 1) snapshotTerm

end FileLog

/-! ## Storage -/

/-- One operation on one of the two files. -/
inductive StoreOp where
  | issue (file : Bool) (op : FileOp)
  | sync (file : Bool)

/-- The two files, `false` for the first and `true` for the second. -/
abbrev Disk := Bool → File

namespace Disk

def perform (d : Disk) : StoreOp → Disk
  | .issue file op => Function.update d file ((d file).issue op)
  | .sync file => Function.update d file (d file).sync

def performAll (d : Disk) (ops : List StoreOp) : Disk := ops.foldl perform d

def stored (c : Bool → List UInt8) : Disk := fun file => .stored (c file)

end Disk

/-! ## The handle -/

structure FileLog where
  live : Bool
  generation : ℕ
  version : ℕ
  snapshotRound : Round
  snapshotTerm : Term
  index : List FileLog.Frame
  endOffset : ℕ
  durableRound : Round
deriving DecidableEq

namespace FileLog

variable (d : Disk) (l : FileLog)

def firstRound : Round := l.snapshotRound + 1

def lastRound : Round := l.snapshotRound + l.index.length

def lastTerm : Term := l.index.getLast?.elim l.snapshotTerm Frame.term

def header : Header := ⟨l.version, l.generation, l.snapshotRound, l.snapshotTerm⟩

def readHeader (c : List UInt8) : Except LogError (Option Header) :=
  if headerSize ≤ c.length then Header.decode (c.take headerSize) else .ok none

/-- The handle on the live file, cut off where the scan stopped. -/
def openLive (live : Bool) (h : Header) (c : List UInt8) : FileLog × List StoreOp :=
  let scan := scanFrames c h.snapshotRound h.snapshotTerm
  (⟨live, h.generation, h.version, h.snapshotRound, h.snapshotTerm, scan.1, scan.2,
      h.snapshotRound + scan.1.length⟩,
    if scan.2 < c.length then [.issue live (.setLen scan.2), .sync live] else [])

def withStorage (c : Bool → List UInt8) : Except LogError (FileLog × List StoreOp) := do
  let a ← readHeader (c false)
  let b ← readHeader (c true)
  match a, b with
  | none, none =>
    if headerSize < (c false).length ∨ headerSize < (c true).length then
      throw (.corrupt ("neither round log file carries a readable header, but they hold " ++
        s!"{(c false).length} and {(c true).length} bytes, which is room for entries; " ++
        "refusing to reinitialize over them"))
    let h : Header := ⟨legacyVersion, 1, 0, 0⟩
    let (l, ops) := openLive false h (c false)
    return (l, [.issue false (.write 0 h.encode), .sync false] ++ ops)
  | some x, none => return openLive false x (c false)
  | none, some y => return openLive true y (c true)
  | some x, some y =>
    if x.generation = y.generation then
      throw (.corrupt (s!"both round log files claim generation {x.generation}; one was copied " ++
        "over the other and there is no way to tell which holds the cluster's log"))
    if y.generation < x.generation then return openLive false x (c false)
    else return openLive true y (c true)

def checkReadable (round : Round) : Except LogError Unit :=
  if round = 0 then .error (.notFound 0 l.firstRound l.lastRound)
  else if round ≤ l.snapshotRound then .error (.compacted round l.snapshotRound)
  else .ok ()

def frameOf (round : Round) : Except LogError Frame := do
  l.checkReadable round
  match l.index[round - l.firstRound]? with
  | some f => return f
  | none => throw (.notFound round l.firstRound l.lastRound)

def readFrame (f : Frame) : List UInt8 := slice (d l.live).content f.offset (f.offset + f.len)

def entry (round : Round) : Except LogError RawEntry := do
  let f ← l.frameOf round
  decodeFrame (l.readFrame d f) round f.term

/-- Everything the log reads back. -/
def entries : List RawEntry :=
  (List.range l.index.length).filterMap fun n => (l.entry d (l.firstRound + n)).toOption

/-- The survivors, copied behind each other from `pos` on and written whenever a batch is full:
the writes, the new index, and where the frames end. -/
def copySurvivors : List Frame → ℕ → List UInt8 → List FileOp × List Frame × ℕ
  | [], pos, batch =>
    let batch := batch ++ terminator
    ([.write (pos + 4 - batch.length) batch], [], pos)
  | f :: fs, pos, batch =>
    let raw := l.readFrame d f
    let batch := batch ++ raw
    let next := pos + raw.length
    let (writes, moved, last) :=
      if copyBatch ≤ batch.length then
        let (writes, moved, last) := copySurvivors fs next []
        (.write (next - batch.length) batch :: writes, moved, last)
      else copySurvivors fs next batch
    (writes, ⟨pos, f.len, f.term⟩ :: moved, last)

/-- The survivors move to the spare file, which becomes the live one. -/
def switch (survivors : List Frame) (through : Round) (term : Term) (version : ℕ) :
    FileLog × List StoreOp :=
  let spare := !l.live
  let (writes, moved, last) := copySurvivors d l survivors headerSize []
  let h : Header := ⟨version, l.generation + 1, through, term⟩
  (⟨spare, h.generation, version, through, term, moved, last, through + moved.length⟩,
    (.issue spare (.setLen 0) :: writes.map (.issue spare)) ++
      [.sync spare, .issue spare (.write 0 h.encode), .sync spare,
        .issue l.live (.setLen 0), .sync l.live])

def raiseVersion : FileLog × List StoreOp :=
  l.switch d l.index l.snapshotRound l.snapshotTerm version2

/-- The frames of a batch that continues the log. -/
def encodeBatch : Round → Term → List RawEntry → Except LogError (List (List UInt8))
  | _, _, [] => .ok []
  | expect, prevTerm, e :: es => do
    if e.round ≠ expect then throw (.nonContiguous expect e.round)
    if e.term < prevTerm then throw (.termWentBackwards prevTerm e.term)
    let frame ← encodeFrame e
    let frames ← encodeBatch (expect + 1) e.term es
    return frame :: frames

/-- Where the entries of a batch come to lie. -/
def place : ℕ → List RawEntry → List Frame
  | _, [] => []
  | pos, e :: es => ⟨pos, e.frame.length, e.term⟩ :: place (pos + e.frame.length) es

def append (es : List RawEntry) : Except LogError (FileLog × List StoreOp) := do
  if es = [] then return (l, [])
  let frames ← encodeBatch (l.lastRound + 1) l.lastTerm es
  let (l, ops) :=
    if l.version = legacyVersion ∧ frames.any (legacyReadBound < ·.length) then l.raiseVersion d
    else (l, [])
  return ({ l with
      index := l.index ++ place l.endOffset es
      endOffset := l.endOffset + frames.flatten.length },
    ops ++ [.issue l.live (.write l.endOffset (frames.flatten ++ terminator))])

def sync : FileLog × List StoreOp := ({ l with durableRound := l.lastRound }, [.sync l.live])

def truncateFrom (start : Round) : Except LogError (FileLog × List StoreOp) := do
  l.checkReadable start
  match l.index[start - l.firstRound]? with
  | none =>
    if start = l.lastRound + 1 then return (l, [])
    else throw (.notFound start l.firstRound l.lastRound)
  | some f =>
    return ({ l with
        index := l.index.take (start - l.firstRound)
        endOffset := f.offset
        durableRound := min l.durableRound (start - 1) },
      [.issue l.live (.setLen f.offset), .sync l.live])

def discardPrefix (through : Round) (term : Term) : Except LogError (FileLog × List StoreOp) := do
  if through < l.snapshotRound then return (l, [])
  if through = l.snapshotRound then
    if term ≠ l.snapshotTerm then throw (.termMismatch through l.snapshotTerm term)
    return (l, [])
  if through ≤ l.lastRound then
    let held ← l.frameOf through
    if held.term ≠ term then throw (.termMismatch through held.term term)
  let survivors :=
    if through < l.lastRound then l.index.drop (through + 1 - l.firstRound) else []
  return l.switch d survivors through term l.version

inductive Op where
  | append (es : List RawEntry)
  | sync
  | truncateFrom (start : Round)
  | discardPrefix (through : Round) (term : Term)
  | raiseVersion

namespace Op

def appends : Op → List RawEntry
  | append es => es
  | _ => []

/-- Whether the operation leaves a round in the log. -/
def keeps : Op → Round → Bool
  | truncateFrom start, round => round < start
  | discardPrefix through _, round => through < round
  | _, _ => true

/-- The arguments are of the types the source gives them. -/
def Typed : Op → Prop
  | append es => ∀ e ∈ es, e.Typed
  | discardPrefix through term => through < 2 ^ 64 ∧ term < 2 ^ 64
  | _ => True

end Op

def run : Op → Except LogError (FileLog × List StoreOp)
  | .append es => l.append d es
  | .sync => .ok l.sync
  | .truncateFrom start => l.truncateFrom start
  | .discardPrefix through term => l.discardPrefix d through term
  | .raiseVersion => .ok (l.raiseVersion d)

end FileLog

end FerroDb.Cluster
