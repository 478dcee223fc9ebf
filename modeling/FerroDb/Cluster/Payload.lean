import FerroDb.Cluster.Digest

/-!
# Snapshot payloads

A payload is a fixed header, which carries its own digest, and a body the header digests. A
receiver sizes a transfer by the header, so decoding refuses everything that does not add up
before anything is stored for it.
-/

namespace FerroDb.Cluster

variable {a b data : List UInt8} {lo hi v : ℕ}

inductive SnapshotError where
  | refused (msg : String)
deriving DecidableEq

def SnapshotError.intoFerro : SnapshotError → FerroError
  | .refused s => .internal s!"snapshot refused: {s}"

def pageSize : ℕ := 4096

structure PayloadHeader where
  baseDigest : UInt64
  lastRound : Round
  lastTerm : Term
  rootPageId : ℕ
  catalogPageId : ℕ
  startLsn : ℕ
  endLsn : ℕ
  pageCount : ℕ
  arenaLen : ℕ
  branchesLen : ℕ
  imageLen : ℕ
  walLen : ℕ
  bodyDigest : UInt64
deriving DecidableEq

namespace PayloadHeader

def bytes : ℕ := 8 + 4 + 8 + 8 + 8 + 4 + 4 + 8 + 8 + 4 + 4 + 4 + 8 + 4 + 8 + 8

def magic : List UInt8 := [0x46, 0x44, 0x42, 0x53, 0x4e, 0x41, 0x50, 0x01]

def formatVersion : ℕ := 1

/-- Thirty-two times the largest log entry. -/
def maxSidecarBytes : ℕ := 32 * (8 * 1024 * 1024)

def digest (bytes : List UInt8) : UInt64 := fnv64Update fnvOffset bytes

def encode (h : PayloadHeader) : List UInt8 :=
  let b := magic ++ beBytes 4 formatVersion ++ beBytes 8 h.baseDigest.toNat ++
    beBytes 8 h.lastRound ++ beBytes 8 h.lastTerm ++ beBytes 4 h.rootPageId ++
    beBytes 4 h.catalogPageId ++ beBytes 8 h.startLsn ++ beBytes 8 h.endLsn ++
    beBytes 4 h.pageCount ++ beBytes 4 h.arenaLen ++ beBytes 4 h.branchesLen ++
    beBytes 8 h.imageLen ++ beBytes 4 h.walLen ++ beBytes 8 h.bodyDigest.toNat
  b ++ beBytes 8 (digest b).toNat

def totalBytes (h : PayloadHeader) : ℕ :=
  bytes + h.arenaLen + h.branchesLen + h.walLen + h.imageLen

/-- One section that is read into memory whole. -/
def checkSidecar (what : String) (len : ℕ) : Except SnapshotError Unit :=
  if maxSidecarBytes < len then
    .error (.refused (s!"the snapshot header claims {len} bytes for {what}, above the " ++
      s!"{maxSidecarBytes}-byte ceiling. These three sections are the only ones read into " ++
      "memory whole, so they are the only place a peer could choose this process's footprint. " ++
      "Refused before anything was allocated for it."))
  else .ok ()

def checkInternallyConsistent (h : PayloadHeader) : Except SnapshotError Unit := do
  let pageBytes := h.pageCount * pageSize
  if h.imageLen ≠ pageBytes then
    throw (.refused (s!"the snapshot header says {h.pageCount} pages but {h.imageLen} image " ++
      s!"bytes, and {h.pageCount} pages is {pageBytes} bytes. `backup::restore` refuses exactly " ++
      "this mismatch at restore time; refusing it here means nothing is spooled for it first."))
  if h.lastRound = 0 then
    throw (.refused ("the snapshot header names round 0, which is 'before the log begins' and " ++
      "not a round"))
  checkSidecar "the arena image" h.arenaLen
  checkSidecar "the branch catalog image" h.branchesLen
  checkSidecar "the redo window" h.walLen
  if h.pageCount = 0 then
    throw (.refused ("the snapshot header claims 0 pages. A zero-page image is not a backup of " ++
      "an empty database, it is a backup that collected nothing, and installing it would " ++
      "replace a follower's state with nothing while reporting success."))

/-- The bytes from `lo` up to `hi`. -/
def slice (data : List UInt8) (lo hi : ℕ) : List UInt8 := (data.drop lo).take (hi - lo)

def u64At (data : List UInt8) (lo : ℕ) : ℕ := ofBeBytes (slice data lo (lo + 8))
def u32At (data : List UInt8) (lo : ℕ) : ℕ := ofBeBytes (slice data lo (lo + 4))

lemma slice_append (ha : a.length = lo) : slice (a ++ b) lo hi = b.take (hi - lo) := by
  rw [slice, ← ha, List.drop_left]

lemma u64At_append (ha : a.length = lo) (hv : v < 2 ^ 64) :
    u64At (a ++ (beBytes 8 v ++ b)) lo = v := by
  rw [u64At, slice_append ha, Nat.add_sub_cancel_left, List.take_left' (length_beBytes 8 v),
    ofBeBytes_beBytes (by simpa using hv)]

lemma u32At_append (ha : a.length = lo) (hv : v < 2 ^ 32) :
    u32At (a ++ (beBytes 4 v ++ b)) lo = v := by
  rw [u32At, slice_append ha, Nat.add_sub_cancel_left, List.take_left' (length_beBytes 4 v),
    ofBeBytes_beBytes (by simpa using hv)]

def decode (data : List UInt8) : Except SnapshotError PayloadHeader := do
  if data.length < bytes then
    throw (.refused (s!"a snapshot payload begins with a {bytes}-byte header and only " ++
      s!"{data.length} bytes were offered"))
  if slice data 0 8 ≠ magic then
    throw (.refused ("these bytes do not begin with the snapshot magic, so they are not a " ++
      "ferrodb snapshot payload. Refusing rather than guessing at the layout."))
  let version := u32At data 8
  if version ≠ formatVersion then
    throw (.refused (s!"snapshot payload format version {version}, and this build reads " ++
      s!"{formatVersion}. Refusing rather than reading a later layout as this one — the fields " ++
      "would parse and mean something else."))
  let claimed := UInt64.ofNat (u64At data 92)
  let actual := digest (data.take 92)
  if claimed ≠ actual then
    throw (.refused ("the snapshot payload header does not match its own digest " ++
      s!"({showDigest claimed} claimed, {showDigest actual} computed): the first {bytes} bytes " ++
      "are damaged, and every length this transfer would be sized by is inside them"))
  let h : PayloadHeader :=
    { baseDigest := UInt64.ofNat (u64At data 12)
      lastRound := u64At data 20
      lastTerm := u64At data 28
      rootPageId := u32At data 36
      catalogPageId := u32At data 40
      startLsn := u64At data 44
      endLsn := u64At data 52
      pageCount := u32At data 60
      arenaLen := u32At data 64
      branchesLen := u32At data 68
      imageLen := u64At data 72
      walLen := u32At data 80
      bodyDigest := UInt64.ofNat (u64At data 84) }
  h.checkInternallyConsistent
  return h

lemma length_of_decode {h : PayloadHeader} (hd : decode data = .ok h) : bytes ≤ data.length := by
  by_contra hlt
  simp [decode, Nat.lt_of_not_le hlt, bind, Except.bind] at hd

lemma slice_take {n : ℕ} (h : hi ≤ n) : slice (data.take n) lo hi = slice data lo hi := by
  rw [slice, slice, List.drop_take, List.take_take, min_eq_left (by lia)]

/-- Only the header's own bytes are read. -/
lemma decode_take (h : bytes ≤ data.length) : decode (data.take bytes) = decode data := by
  have hlen : (data.take bytes).length = bytes := by rw [List.length_take, min_eq_left h]
  have hlong : ¬ data.length < bytes := Nat.not_lt.mpr h
  have hhead : (data.take bytes).take 92 = data.take 92 := by rw [List.take_take]; rfl
  have h64 : ∀ lo, lo + 8 ≤ bytes → u64At (data.take bytes) lo = u64At data lo :=
    fun lo hlo => congrArg ofBeBytes (slice_take hlo)
  have h32 : ∀ lo, lo + 4 ≤ bytes → u32At (data.take bytes) lo = u32At data lo :=
    fun lo hlo => congrArg ofBeBytes (slice_take hlo)
  have hmagic : slice (data.take bytes) 0 8 = slice data 0 8 := slice_take (by decide)
  unfold decode
  rw [hlen, hhead, hmagic, if_neg (lt_irrefl _), if_neg hlong, h32 8 (by decide),
    h64 92 (by decide), h64 12 (by decide), h64 20 (by decide), h64 28 (by decide),
    h32 36 (by decide), h32 40 (by decide), h64 44 (by decide), h64 52 (by decide),
    h32 60 (by decide), h32 64 (by decide), h32 68 (by decide), h64 72 (by decide),
    h32 80 (by decide), h64 84 (by decide)]

end PayloadHeader

/-- The largest payload the format can describe. -/
def maxSnapshotBytes : ℕ := PayloadHeader.bytes + u32Max + u32Max + u32Max * pageSize

def SnapshotMeta.validate (m : SnapshotMeta) : Except SnapshotError Unit := do
  if m.lastRound = 0 then
    throw (.refused ("a snapshot at round 0 covers nothing: round 0 is 'before the log begins', " ++
      "not a round, so there is no state to be the state of"))
  if m.config.isEmpty then
    throw (.refused (s!"the snapshot at round {m.lastRound} carries an empty voter set. A " ++
      "receiver that installed it would hold the database and no idea what a majority is, so it " ++
      "could neither vote nor count one — and nothing later in the protocol can detect a node " ++
      "counting against the wrong number."))
  if m.totalBytes < PayloadHeader.bytes then
    throw (.refused (s!"the snapshot at round {m.lastRound} claims {m.totalBytes} bytes, which " ++
      s!"is smaller than the {PayloadHeader.bytes}-byte header every payload begins with, so it " ++
      "cannot be one"))
  if maxSnapshotBytes < m.totalBytes then
    throw (.refused (s!"the snapshot at round {m.lastRound} claims {m.totalBytes} bytes, above " ++
      s!"the {maxSnapshotBytes}-byte ceiling this build's own format can describe (`page_count` " ++
      "and both section lengths are u32). Refused before anything was written or allocated for it."))

/-- What a capture is taken at. -/
structure SnapshotPoint where
  lastRound : Round
  lastTerm : Term
  config : Config
  baseDigest : UInt64

/-- A captured image, ready to be sent. -/
structure Snapshot where
  info : SnapshotMeta
  header : PayloadHeader
  bytes : List UInt8
deriving DecidableEq

def snapshotChunkBytes : ℕ := 1 <<< 20

/-- The chunk that starts at `offset`, and whether it is the last one. -/
def Snapshot.chunk (s : Snapshot) (offset : ℕ) : List UInt8 × Bool :=
  let start := min offset s.bytes.length
  let stop := min (start + snapshotChunkBytes) s.bytes.length
  (PayloadHeader.slice s.bytes start stop, stop = s.bytes.length)

def fitsU32 (len : ℕ) (what : String) : Except SnapshotError ℕ :=
  if PayloadHeader.maxSidecarBytes < len then
    .error (.refused (s!"{what} is {len} bytes, above the {PayloadHeader.maxSidecarBytes}-byte " ++
      "ceiling a receiver will read into memory. Refused where the error still has somewhere to " ++
      "go, rather than at the far end of a transfer that has already cost both nodes."))
  else if u32Max < len then
    .error (.refused (s!"{what} is {len} bytes, which the format's u32 length field cannot " ++
      "express. Refused rather than truncated: a wrapped length writes a payload that is " ++
      "correctly digested and permanently undecodable."))
  else .ok len

/-- What a base backup says about the image it took. -/
structure BackupLabel where
  startLsn : ℕ
  endLsn : ℕ
  pageCount : ℕ

def Snapshot.build (point : SnapshotPoint) (rootPageId catalogPageId : ℕ) (label : BackupLabel)
    (arena branches redo image : List UInt8) : Except SnapshotError Snapshot := do
  let arenaLen ← fitsU32 arena.length "the arena image"
  let branchesLen ← fitsU32 branches.length "the branch catalog image"
  let walLen ← fitsU32 redo.length "the redo window"
  let body := arena ++ branches ++ redo ++ image
  let header : PayloadHeader :=
    { baseDigest := point.baseDigest
      lastRound := point.lastRound
      lastTerm := point.lastTerm
      rootPageId := rootPageId
      catalogPageId := catalogPageId
      startLsn := label.startLsn
      endLsn := label.endLsn
      pageCount := label.pageCount
      arenaLen := arenaLen
      branchesLen := branchesLen
      imageLen := image.length
      walLen := walLen
      bodyDigest := PayloadHeader.digest body }
  header.checkInternallyConsistent
  let bytes := header.encode ++ body
  let info : SnapshotMeta :=
    { lastRound := point.lastRound
      lastTerm := point.lastTerm
      config := point.config
      totalBytes := bytes.length }
  info.validate
  return ⟨info, header, bytes⟩

/-- A built snapshot describes the point it was captured at. -/
lemma Snapshot.build_info {point : SnapshotPoint} {root cat : ℕ} {label : BackupLabel}
    {arena branches redo image : List UInt8} {s : Snapshot}
    (h : Snapshot.build point root cat label arena branches redo image = .ok s) :
    s.info.lastRound = point.lastRound ∧ s.info.lastTerm = point.lastTerm ∧
      s.info.config = point.config := by
  simp only [Snapshot.build, bind, Except.bind] at h
  split at h <;> try contradiction
  split at h <;> try contradiction
  split at h <;> try contradiction
  split at h <;> try contradiction
  split at h <;> try contradiction
  cases h
  exact ⟨rfl, rfl, rfl⟩

/-- How far a transfer to a peer has got. -/
structure SendCursor where
  snapshot : Snapshot
  acked : ℕ
deriving DecidableEq

/-- How far an incoming transfer has got. -/
structure RecvCursor where
  info : SnapshotMeta
  header : PayloadHeader
  received : ℕ
  bodyDigest : UInt64
  complete : Bool
deriving DecidableEq

inductive CompletionFault where
  | length
  | digest

/-- Whether a finished transfer is the payload it claimed to be. -/
def completionVerdict (received total : ℕ) (bodyDigest claimed : UInt64) :
    Except CompletionFault Unit :=
  if received ≠ total then .error .length
  else if bodyDigest ≠ claimed then .error .digest
  else .ok ()

end FerroDb.Cluster
