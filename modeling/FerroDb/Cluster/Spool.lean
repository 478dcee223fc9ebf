import FerroDb.Cluster.Counters
import FerroDb.Cluster.Idle
import FerroDb.Library.Fallible

/-!
# The spool

Between the state machine, which folds the chunks it takes into a digest, and the storage engine,
which installs a file, stands the driver: it writes arriving chunks to a spool file and hands the
file over once the state machine calls the transfer whole. The driver decides by the cursor alone
whether a chunk belongs in the file. A first chunk that the state machine never took, but that is
as long as what it has taken so far, passes for one it took: `staleChunk` is a run in which the
engine is given a mixture of two captures. In every other run what is installed is what was
digested.
-/

namespace FerroDb.Cluster

open List Option PayloadHeader

variable {m : Message} {info : SnapshotMeta} {cur : RecvCursor} {data : List UInt8} {offset : ℕ}
  {ev : Event} {complete : Bool} {done : Bool} {header : PayloadHeader} {file : List UInt8}

/-- `pwrite` at an offset, with what was not there before as zeros, and `set_len` to its end. -/
def writeAt (file : List UInt8) (offset : ℕ) (data : List UInt8) : List UInt8 :=
  (file ++ replicate (offset - file.length) 0).take offset ++ data

/-! ## The storage engine -/

/-- What the engine reads from a spool file and puts in place. -/
structure Installed where
  info : SnapshotMeta
  /-- The header's bytes, as they stand in the file. -/
  head : List UInt8
  header : PayloadHeader
  arena : List UInt8
  branches : List UInt8
  redo : List UInt8
  image : List UInt8
deriving DecidableEq

def Installed.bytes (x : Installed) : List UInt8 :=
  x.head ++ (x.arena ++ (x.branches ++ (x.redo ++ x.image)))

/-- `read_exact`: the next `len` bytes, and what follows them. -/
def readSection (what : String) (len : ℕ) (file : List UInt8) :
    Except FerroError (List UInt8 × List UInt8) :=
  if file.length < len then .error (.io s!"{what}: failed to fill whole buffer")
  else .ok (file.take len, file.drop len)

def readHeader (file : List UInt8) : Except FerroError (PayloadHeader × List UInt8) :=
  if file.length < PayloadHeader.bytes then
    .error (SnapshotError.refused
      "the spooled snapshot is shorter than its own header: failed to fill whole buffer").intoFerro
  else
    match PayloadHeader.decode (file.take PayloadHeader.bytes) with
    | .error e => .error e.intoFerro
    | .ok h => .ok (h, file.drop PayloadHeader.bytes)

/-- Install a spool file. What it reads is not digested again. -/
def installFile (info : SnapshotMeta) (file : List UInt8) : Except FerroError Installed := do
  let (header, rest) ← readHeader file
  if header.lastRound ≠ info.lastRound then
    throw (.corruption (s!"the spooled snapshot is of round {header.lastRound} and the install " ++
      s!"was told round {info.lastRound}"))
  let (arena, rest) ← readSection s!"read a {header.arenaLen}-byte snapshot section"
    header.arenaLen rest
  let (branches, rest) ← readSection s!"read a {header.branchesLen}-byte snapshot section"
    header.branchesLen rest
  let (redo, rest) ← readSection s!"read a {header.walLen}-byte snapshot section"
    header.walLen rest
  let (image, _) ← readSection "read the snapshot page image" header.imageLen rest
  return ⟨info, file.take PayloadHeader.bytes, header, arena, branches, redo, image⟩

/-! ## The driver -/

/-- The part of a node that receives a transfer. -/
structure Receiver where
  sm : Consensus
  /-- The spool file, if there is one. -/
  file : Option (List UInt8)
  spooled : ℕ
  spooledHeader : Option PayloadHeader
  installedRound : Option Round
  /-- What the engine has installed, in order. -/
  installs : List Installed
  /-- The chunks the state machine has taken of the transfer under way. Nothing reads them. -/
  accepted : List (List UInt8)

namespace Receiver

/-- The offset and the bytes of a chunk, if the event brings one. -/
def snapshotChunkOf : Event → Option (ℕ × List UInt8)
  | .recv m =>
    match m.body with
    | .installSnapshot _ offset data _ => some (offset, data)
    | _ => none
  | _ => none

variable (d : Receiver)

/-- The state machine handles the event. It has taken the chunk if that moved its cursor; one at
the start of a payload begins the transfer anew. -/
def stepped (ev : Event) : Receiver :=
  let sm := (d.sm.step ev).1
  { d with
    sm := sm
    accepted :=
      match snapshotChunkOf ev with
      | some (offset, data) =>
        if sm.receiving = d.sm.receiving then d.accepted
        else if offset = 0 then [data]
        else d.accepted ++ [data]
      | none => d.accepted }

def spoolAcceptedChunk (offset : ℕ) (data : List UInt8) : Receiver :=
  match d.sm.receiving with
  | none => d
  | some cur =>
    if cur.received ≠ offset + data.length then d
    else if offset ≠ 0 ∧ ¬ (d.spooledHeader = some cur.header ∧ d.spooled = offset) then d
    else { d with
      file := some (writeAt (d.file.getD []) offset data)
      spooled := offset + data.length
      spooledHeader := some cur.header }

/-- The spool is removed once the state machine waits for no install any more. -/
def releaseInstalledSpool : Receiver :=
  if d.installedRound.isSome ∧ d.sm.pendingInstallRound = none then
    { d with file := none, spooled := 0, spooledHeader := none, installedRound := none }
  else d

/-- A transfer that arrived whole is installed, once. The engine may fail at it for a reason of
its own. -/
def installPendingSnapshot (fault : Option FerroError) : Except FerroError Receiver :=
  match d.sm.receiving with
  | none => .ok { d with installedRound := none }
  | some cur =>
    if cur.complete = false then .ok { d with installedRound := none }
    else if d.installedRound = some cur.info.lastRound then .ok d
    else
      let len := (d.file.getD []).length
      if d.spooled ≠ cur.info.totalBytes ∨ len ≠ cur.info.totalBytes then
        .error (.internal (s!"the state machine verified a {cur.info.totalBytes}-byte snapshot " ++
          s!"for round {cur.info.lastRound} and this node's spool holds {d.spooled} bytes " ++
          s!"({len} on disk). The two accounts of the transfer have drifted, and installing from " ++
          "a spool the state machine did not digest is how a payload passes its own checksum " ++
          "while being a mixture of two transfers."))
      else
        match fault, installFile cur.info (d.file.getD []) with
        | some e, _ => .error e
        | none, .error e => .error e
        | none, .ok x => .ok { d with
            installedRound := some cur.info.lastRound
            installs := d.installs ++ [x] }

/-- One turn of the driver's loop. After an error it goes on with the next event. -/
def handle (ev : Event) (fault : Option FerroError) : Receiver :=
  let d := d.stepped ev
  let d := (snapshotChunkOf ev).elim d fun c => d.spoolAcceptedChunk c.1 c.2
  let d := d.releaseInstalledSpool
  (d.installPendingSnapshot fault).toOption.getD d

end Receiver

/-! ## What a step does to the cursor -/

/-- The cursor a chunk is taken into: a new one for the start of a payload, or the one that has
got as far as the chunk's offset. -/
def Opens (before : Option RecvCursor) (info : SnapshotMeta) (offset : ℕ) (data : List UInt8)
    (cur : RecvCursor) : Prop :=
  (offset = 0 ∧ ∃ header, PayloadHeader.decode data = .ok header ∧
    header.lastRound = info.lastRound ∧ header.totalBytes = info.totalBytes ∧
    cur = ⟨info, header, 0, fnvOffset, false⟩) ∨
  (offset ≠ 0 ∧ before = some cur ∧ cur.info = info ∧ cur.received = offset ∧
    cur.complete = false)

/-- A cursor with one more chunk folded in, complete only if it is what its header claims. -/
def RecvCursor.folded (cur : RecvCursor) (data : List UInt8) (complete : Bool) : RecvCursor :=
  { cur with
    bodyDigest := fnv64Update cur.bodyDigest (data.drop (PayloadHeader.bytes - cur.received))
    received := cur.received + data.length
    complete := complete }

/-- The cursor moves only by a chunk being taken, or it is given up. -/
def Turns (before : Option RecvCursor) (ev : Event) (after : Option RecvCursor) : Prop :=
  after = before ∨ after = none ∨
  ∃ m info offset data done cur complete, ev = .recv m ∧
    m.body = .installSnapshot info offset data done ∧ Opens before info offset data cur ∧
    after = some (cur.folded data complete) ∧
    (complete = true → cur.received + data.length = info.totalBytes ∧
      (cur.folded data complete).bodyDigest = cur.header.bodyDigest)

namespace Consensus

variable (s : Consensus)

lemma receiving_onAppend (src : NodeId) (t : Term) (prev : Round) (prevTerm : Term)
    (es : List Entry) (cm : Round) :
    (s.onAppend src t prev prevTerm es cm).1.receiving = s.receiving ∨
      (s.onAppend src t prev prevTerm es cm).1.receiving = none := by
  have hgrow : ∀ (s : Consensus) fresh, Idle ((s.extendLog src fresh).andThen
      (learnFromAppend · es cm)) s.receiving := fun s fresh =>
    (s.idle_extendLog src fresh).andThen (idle_learnFromAppend · es cm)
  have haccept : ∀ s : Consensus, (s.acceptAppend src prev es cm).1.receiving = s.receiving ∨
      (s.acceptAppend src prev es cm).1.receiving = none := by
    intro s
    unfold acceptAppend
    dsimp only
    split
    · split
      · exact .inl rfl
      · exact (hgrow _ _).transfer
    · exact (hgrow _ _).transfer
  rw [← s.receiving_adoptLeader src t]
  unfold onAppend
  split
  · exact .inl (s.receiving_adoptLeader src t).symm
  · rw [Out.andThen_fst]
    unfold matchAppend
    split
    · exact .inl rfl
    · split
      · split
        · exact haccept _
        · exact .inl rfl
      · exact .inl rfl

/-- Where a chunk is not refused it is folded into the cursor it was meant for. -/
lemma turns_takeChunk {src : NodeId} (hm : m.body = .installSnapshot info offset data done)
    (hcur : (cur.complete = true ∨ offset ≠ cur.received) → s.receiving = some cur)
    (hopens : cur.complete = false → offset = cur.received →
      Opens s.receiving info offset data cur) :
    Turns s.receiving (.recv m) (s.takeChunk src info offset data done cur).1.receiving := by
  unfold takeChunk
  dsimp only
  split
  case isTrue hkept => exact .inl (hcur hkept).symm
  case isFalse htake =>
    push Not at htake
    have hopen := hopens (by simpa using htake.1) htake.2
    split
    · exact .inl rfl
    · split
      · split
        case h_1 hverdict =>
          refine .inr (.inr ⟨m, info, offset, data, done, cur, true, rfl, hm, hopen, rfl, ?_⟩)
          unfold completionVerdict at hverdict
          split_ifs at hverdict with hlen hdigest
          exact fun _ => ⟨not_not.mp hlen, not_not.mp hdigest⟩
        case h_2 =>
          refine .inr (.inr ⟨m, info, offset, data, done, cur, false, rfl, hm, hopen, ?_, nofun⟩)
          simp [RecvCursor.folded, htake.1]
        case h_3 => exact .inr (.inl rfl)
      · refine .inr (.inr ⟨m, info, offset, data, done, cur, false, rfl, hm, hopen, ?_, nofun⟩)
        simp [RecvCursor.folded, htake.1]

lemma turns_receiveChunk (src : NodeId) (hm : m.body = .installSnapshot info offset data done) :
    Turns s.receiving (.recv m) (s.receiveChunk src info offset data done).1.receiving := by
  unfold receiveChunk
  split
  case isTrue hzero =>
    split
    · exact .inl rfl
    case h_2 header hdecode =>
      split
      · exact .inl rfl
      case isFalse hmatch =>
        push Not at hmatch
        have hfresh : Turns s.receiving (.recv m) (s.takeChunk src info offset data done
            ⟨info, header, 0, fnvOffset, false⟩).1.receiving := by
          refine s.turns_takeChunk hm (fun h => ?_) fun _ _ => ?_
          · simp [hzero] at h
          · exact .inl ⟨hzero, header, hdecode, hmatch.1, hmatch.2.2, rfl⟩
        split
        · split
          · exact .inl rfl
          · exact hfresh
        · exact hfresh
  case isFalse hzero =>
    split
    case h_1 c hc =>
      split
      case isTrue hinfo =>
        refine s.turns_takeChunk hm (fun _ => hc) fun hdone hoff => ?_
        exact .inr ⟨hzero, hc, hinfo, hoff.symm, hdone⟩
      · exact .inl rfl
    · exact .inl rfl

lemma turns_onInstallSnapshot (src : NodeId) (t : Term)
    (hm : m.body = .installSnapshot info offset data done) :
    Turns s.receiving (.recv m) (s.onInstallSnapshot src t info offset data done).1.receiving := by
  unfold onInstallSnapshot
  split
  · exact .inl rfl
  · split
    · exact .inl rfl
    · rw [Out.andThen_fst]
      split
      · exact .inl (s.receiving_adoptLeader src t)
      · have h := (s.adoptLeader src t).1.turns_receiveChunk src hm
        rwa [receiving_adoptLeader] at h

lemma turns_route (m : Message) : Turns s.receiving (.recv m) (s.route m).1.receiving := by
  cases hm : m.body with
  | append prev prevTerm es cm =>
    rw [route, hm, ← s.receiving_ensureLog]
    exact (receiving_onAppend _ _ _ _ _ _ _).imp_right .inl
  | installSnapshot info offset data done =>
    rw [route, hm, ← s.receiving_ensureLog]
    exact s.ensureLog.turns_onInstallSnapshot m.src m.term hm
  | _ => exact (s.idle_route (by rw [hm]; rfl)).transfer.imp_right .inl

/-- What any event does to the cursor. -/
lemma turns_step (ev : Event) : Turns s.receiving ev (s.step ev).1.receiving := by
  cases ev with
  | tick => exact s.idle_onTick.transfer.imp_right .inl
  | persisted t r => exact (s.idle_onPersisted t r).transfer.imp_right .inl
  | propose c => exact (s.idle_onPropose c).transfer.imp_right .inl
  | recv m =>
    rw [step, onMessage]
    split
    · split <;> exact .inl rfl
    · split
      · exact turns_route (s.becomeFollower m.term none).1 m
      · exact s.turns_route m

end Consensus

/-! ## The file holds what was taken -/

/-- A cursor that stands for these bytes. -/
structure Tallies (taken : List UInt8) (cur : RecvCursor) : Prop where
  received : cur.received = taken.length
  long : PayloadHeader.bytes ≤ taken.length
  header : PayloadHeader.decode (taken.take PayloadHeader.bytes) = .ok cur.header
  lastRound : cur.header.lastRound = cur.info.lastRound
  total : cur.header.totalBytes = cur.info.totalBytes
  digest : cur.bodyDigest = PayloadHeader.digest (taken.drop PayloadHeader.bytes)
  whole : cur.complete = true →
    taken.length = cur.info.totalBytes ∧ cur.bodyDigest = cur.header.bodyDigest

/-- The first chunk of a transfer. -/
lemma Tallies.first (hdecode : PayloadHeader.decode data = .ok header)
    (hround : header.lastRound = info.lastRound) (htotal : header.totalBytes = info.totalBytes)
    (hwhole : complete = true → 0 + data.length = info.totalBytes ∧
      (RecvCursor.folded ⟨info, header, 0, fnvOffset, false⟩ data complete).bodyDigest =
        header.bodyDigest) :
    Tallies data (RecvCursor.folded ⟨info, header, 0, fnvOffset, false⟩ data complete) where
  received := Nat.zero_add _
  long := PayloadHeader.length_of_decode hdecode
  header := (PayloadHeader.decode_take (PayloadHeader.length_of_decode hdecode)).trans hdecode
  lastRound := hround
  total := htotal
  digest := rfl
  whole h := ⟨(Nat.zero_add _).symm.trans (hwhole h).1, (hwhole h).2⟩

/-- One more chunk of it. -/
lemma Tallies.next {taken : List UInt8} (h : Tallies taken cur)
    (hwhole : complete = true → cur.received + data.length = cur.info.totalBytes ∧
      (cur.folded data complete).bodyDigest = cur.header.bodyDigest) :
    Tallies (taken ++ data) (cur.folded data complete) where
  received := by simp [RecvCursor.folded, h.received]
  long := by
    have := h.long
    rw [length_append]
    lia
  header := by
    rw [take_append_of_le_length h.long]
    exact h.header
  lastRound := h.lastRound
  total := h.total
  digest := by
    have hfrom : PayloadHeader.bytes - cur.received = 0 := by
      have := h.long
      rw [h.received]
      lia
    rw [drop_append_of_le_length h.long, PayloadHeader.digest, fnv64Update, foldl_append,
      RecvCursor.folded, hfrom, h.digest]
    rfl
  whole hc := by
    obtain ⟨hlen, hdigest⟩ := hwhole hc
    exact ⟨by rw [length_append, ← h.received]; exact hlen, hdigest⟩

namespace Receiver

/-- What the state machine has taken of the transfer under way. -/
def taken (d : Receiver) : List UInt8 := d.accepted.flatten

/-- The pending transfer is in the engine already. -/
def InPlace (d : Receiver) (cur : RecvCursor) : Prop :=
  cur.complete = true ∧ d.installedRound = some cur.info.lastRound

/-- The spool file holds what was taken. -/
def InStep (d : Receiver) (cur : RecvCursor) : Prop :=
  d.file = some d.taken ∧ d.spooled = d.taken.length ∧ d.spooledHeader = some cur.header

/-- The spool file was removed under a transfer, which can then not be installed. -/
def Released (d : Receiver) : Prop := d.spooled = 0 ∧ d.spooledHeader = none

/-- The cursor stands for what was taken, and so does the spool file until it is installed. -/
def Sound (d : Receiver) : Prop :=
  ∀ cur, d.sm.receiving = some cur →
    Tallies d.taken cur ∧ (d.InPlace cur ∨ d.InStep cur ∨ d.Released)

/-- A first chunk that the state machine does not take, as long as what it has taken so far but
of other bytes, while the transfer is not in the engine yet. -/
def Clobbers (d : Receiver) (ev : Event) : Prop :=
  ∃ cur data, d.sm.receiving = some cur ∧ (d.sm.step ev).1.receiving = some cur ∧
    snapshotChunkOf ev = some (0, data) ∧ cur.received = data.length ∧ data ≠ d.taken ∧
    ¬ d.InPlace cur

variable {d : Receiver}

lemma writeAt_zero (file data : List UInt8) : writeAt file 0 data = data := by
  simp [writeAt]

lemma writeAt_length (file data : List UInt8) : writeAt file file.length data = file ++ data := by
  simp [writeAt]

/-- Soundness, read off the bytes taken. -/
lemma sound_of {bytes : List UInt8} (hcur : d.sm.receiving = some cur)
    (hbytes : d.taken = bytes) (htally : Tallies bytes cur)
    (hfile : (d.file = some bytes ∧ d.spooled = bytes.length ∧
      d.spooledHeader = some cur.header) ∨ d.Released) : d.Sound := by
  intro cur' hcur'
  obtain rfl := some.inj (hcur.symm.trans hcur')
  subst hbytes
  exact ⟨htally, .inr hfile⟩

/-- A chunk that the state machine left alone. -/
lemma Sound.spool_kept (h : d.Sound)
    (hchunk : snapshotChunkOf ev = some (offset, data)) (hgood : ¬ d.Clobbers ev)
    (hkept : (d.sm.step ev).1.receiving = d.sm.receiving) :
    ((d.stepped ev).spoolAcceptedChunk offset data).Sound := by
  have hsame : d.stepped ev = { d with sm := (d.sm.step ev).1 } := by
    simp [stepped, hchunk, hkept]
  have hsound : Sound { d with sm := (d.sm.step ev).1 } :=
    fun cur hcur => h cur (hkept ▸ hcur)
  rw [hsame]
  unfold spoolAcceptedChunk
  split
  · exact hsound
  case h_2 cur hcur =>
    split
    · exact hsound
    case isFalse hlen =>
      split
      · exact hsound
      case isFalse hplace =>
        intro cur' hcur'
        obtain rfl : cur = cur' := some.inj (hcur.symm.trans hcur')
        obtain ⟨htally, hfile⟩ := hsound cur hcur
        refine ⟨htally, or_iff_not_imp_left.mpr fun hin => .inl ?_⟩
        have hlen' : offset + data.length = d.taken.length :=
          (not_not.mp hlen).symm.trans htally.received
        by_cases hzero : offset = 0
        · -- The state machine did not take this first chunk, so it is the one it took before.
          subst hzero
          have hdata : data = d.taken := by
            by_contra hne
            exact hgood ⟨cur, data, hkept ▸ hcur, hcur, hchunk, by simpa using hlen, hne, hin⟩
          exact ⟨congrArg some ((writeAt_zero _ data).trans hdata), hlen', rfl⟩
        · -- What follows on a spool as long as the cursor is empty.
          have hmatch := not_not.mp fun hn => hplace ⟨hzero, hn⟩
          rcases hfile with hin' | hstep | hrel
          · exact absurd hin' hin
          · have hoff : offset = d.taken.length := hmatch.2.symm.trans hstep.2.1
            have hempty : data = [] := length_eq_zero_iff.mp (by lia)
            refine ⟨?_, hlen', rfl⟩
            subst hempty hoff
            rw [show d.file = some d.taken from hstep.1, getD_some, writeAt_length,
              append_nil]
            rfl
          · exact absurd (hrel.2.symm.trans hmatch.1) nofun

/-- A chunk that the state machine took. -/
lemma Sound.spool_took (h : d.Sound) (hchunk : snapshotChunkOf ev = some (offset, data))
    (hmoved : (d.sm.step ev).1.receiving ≠ d.sm.receiving)
    (hopens : Opens d.sm.receiving info offset data cur)
    (hafter : (d.sm.step ev).1.receiving = some (cur.folded data complete))
    (hwhole : complete = true → cur.received + data.length = info.totalBytes ∧
      (cur.folded data complete).bodyDigest = cur.header.bodyDigest) :
    ((d.stepped ev).spoolAcceptedChunk offset data).Sound := by
  have hsame : d.stepped ev = { d with
      sm := (d.sm.step ev).1
      accepted := if offset = 0 then [data] else d.accepted ++ [data] } := by
    simp [stepped, hchunk, hmoved]
  rw [hsame]
  unfold spoolAcceptedChunk
  rw [hafter]
  dsimp only
  rcases hopens with ⟨rfl, header, hdecode, hround, htotal, rfl⟩ | ⟨hzero, hcur, rfl, rfl, hopen⟩
  · -- The start of a payload replaces whatever the spool held.
    rw [if_neg (by simp [RecvCursor.folded]), if_neg (by simp)]
    refine sound_of hafter (by simp [taken]) (Tallies.first hdecode hround htotal hwhole)
      (.inl ⟨?_, Nat.zero_add _, rfl⟩)
    rw [writeAt_zero]
  · obtain ⟨htally, hfile⟩ := h cur hcur
    have htaken : (d.accepted ++ [data]).flatten = d.taken ++ data := by simp [taken]
    rw [if_neg (by simp [RecvCursor.folded])]
    simp only [if_neg hzero]
    rcases hfile with hin | hstep | hrel
    · exact absurd (hin.1.symm.trans hopen) nofun
    · -- The spool has got as far as the cursor, and goes on with it.
      rw [if_neg (not_and_not_right.mpr fun _ => ⟨hstep.2.2, hstep.2.1.trans htally.received.symm⟩)]
      refine sound_of hafter htaken (htally.next hwhole) (.inl ⟨?_, ?_, rfl⟩)
      · rw [show d.file = some d.taken from hstep.1, getD_some, htally.received,
          writeAt_length]
      · rw [length_append, ← htally.received]
    · -- The spool was removed, and stays so.
      rw [if_pos ⟨hzero, fun hn => by rw [hrel.2] at hn; exact nomatch hn.1⟩]
      exact sound_of hafter htaken (htally.next hwhole) (.inr hrel)

/-- The state machine steps, and the chunk of the event is spooled. -/
lemma Sound.spool (h : d.Sound) (hgood : ¬ d.Clobbers ev) :
    Sound ((snapshotChunkOf ev).elim (d.stepped ev) fun c =>
      (d.stepped ev).spoolAcceptedChunk c.1 c.2) := by
  by_cases hkept : (d.sm.step ev).1.receiving = d.sm.receiving
  · cases hchunk : snapshotChunkOf ev with
    | some c => exact h.spool_kept hchunk hgood hkept
    | none =>
      have hsame : d.stepped ev = { d with sm := (d.sm.step ev).1 } := by simp [stepped, hchunk]
      intro cur hcur
      rw [hsame] at hcur ⊢
      exact h cur (hkept ▸ hcur)
  · rcases d.sm.turns_step ev with hsame | hnone | htook
    · exact absurd hsame hkept
    · have hsm : ∀ offset data, ((d.stepped ev).spoolAcceptedChunk offset data).sm.receiving =
          none := by
        intro offset data
        have : (d.stepped ev).sm.receiving = none := hnone
        unfold spoolAcceptedChunk
        rw [this]
        exact this
      intro cur hcur
      cases hchunk : snapshotChunkOf ev with
      | some c =>
        rw [hchunk, elim_some, hsm] at hcur
        cases hcur
      | none =>
        rw [hchunk] at hcur
        exact nomatch hnone.symm.trans hcur
    · obtain ⟨m, info, offset, data, done, cur, complete, rfl, hm, hopens, hafter, hwhole⟩ := htook
      have hchunk : snapshotChunkOf (.recv m) = some (offset, data) := by
        simp [snapshotChunkOf, hm]
      rw [hchunk]
      exact h.spool_took hchunk hkept hopens hafter hwhole

lemma Sound.release (h : d.Sound) : d.releaseInstalledSpool.Sound := by
  unfold releaseInstalledSpool
  split
  · exact fun cur hcur => ⟨(h cur hcur).1, .inr (.inr ⟨rfl, rfl⟩)⟩
  · exact h

end Receiver

lemma readSection_ok {what : String} {len : ℕ}
    {r : List UInt8 × List UInt8} (h : readSection what len file = .ok r) :
    len ≤ file.length ∧ r = (file.take len, file.drop len) := by
  unfold readSection at h
  split at h
  · cases h
  · cases h
    exact ⟨by lia, rfl⟩

/-- An install of a file that is as long as its header says puts the whole file in place. -/
lemma installFile_bytes {x : Installed}
    (hdecode : PayloadHeader.decode (file.take PayloadHeader.bytes) = .ok header)
    (htotal : header.totalBytes = file.length) (h : installFile info file = .ok x) :
    x.bytes = file := by
  have hlong : PayloadHeader.bytes ≤ file.length := by
    rw [← htotal, totalBytes]
    lia
  unfold installFile at h
  rw [readHeader, if_neg (Nat.not_lt.mpr hlong), hdecode] at h
  obtain ⟨⟨header', rest⟩, hhead, h⟩ := Library.bind_ok.mp h
  cases hhead
  dsimp only at h
  split at h
  · obtain ⟨_, hthrow, -⟩ := Library.bind_ok.mp h
    cases hthrow
  obtain ⟨_, hr, h⟩ := Library.bind_ok.mp h
  obtain ⟨-, rfl⟩ := readSection_ok hr
  obtain ⟨_, hr, h⟩ := Library.bind_ok.mp h
  obtain ⟨-, rfl⟩ := readSection_ok hr
  obtain ⟨_, hr, h⟩ := Library.bind_ok.mp h
  obtain ⟨-, rfl⟩ := readSection_ok hr
  obtain ⟨_, hr, h⟩ := Library.bind_ok.mp h
  obtain ⟨-, rfl⟩ := readSection_ok hr
  cases h
  have hrest : ((((file.drop PayloadHeader.bytes).drop header.arenaLen).drop
      header.branchesLen).drop header.walLen).length ≤ header.imageLen := by
    simp only [length_drop, ← htotal, totalBytes]
    lia
  simp only [Installed.bytes]
  rw [take_of_length_le hrest, take_append_drop, take_append_drop,
    take_append_drop, take_append_drop]

namespace Receiver

variable {d : Receiver}

lemma sm_spoolAcceptedChunk (d : Receiver) (offset : ℕ) (data : List UInt8) :
    (d.spoolAcceptedChunk offset data).sm = d.sm ∧
      (d.spoolAcceptedChunk offset data).installs = d.installs := by
  unfold spoolAcceptedChunk
  split
  · exact ⟨rfl, rfl⟩
  · split_ifs <;> exact ⟨rfl, rfl⟩

/-- What the engine installed is what was taken, and what the digest was checked over. -/
def Exact (d : Receiver) (x : Installed) : Prop :=
  x.bytes = d.accepted.flatten ∧ ∃ cur, d.sm.receiving = some cur ∧ cur.complete = true ∧
    PayloadHeader.digest (x.bytes.drop PayloadHeader.bytes) = cur.header.bodyDigest

lemma Sound.install (h : d.Sound) {fault : Option FerroError} {d' : Receiver}
    (hd : d.installPendingSnapshot fault = .ok d') :
    d'.Sound ∧ (d'.installs = d.installs ∨ ∃ x, d'.installs = d.installs ++ [x] ∧ d'.Exact x) := by
  unfold installPendingSnapshot at hd
  split at hd
  case h_1 hnone =>
    cases hd
    exact ⟨fun cur hcur => absurd (hnone.symm.trans hcur) nofun, .inl rfl⟩
  case h_2 cur hcur =>
    obtain ⟨htally, hfile⟩ := h cur hcur
    split at hd
    case isTrue hopen =>
      cases hd
      rcases hfile with hin | hfile
      · exact absurd (hin.1.symm.trans hopen) nofun
      · exact ⟨sound_of hcur rfl htally hfile, .inl rfl⟩
    case isFalse hopen =>
      split at hd
      · cases hd
        exact ⟨h, .inl rfl⟩
      case isFalse hnot =>
        dsimp only at hd
        split at hd
        · cases hd
        case isFalse hlen =>
          push Not at hlen
          have hcomplete : cur.complete = true := by simpa using hopen
          -- Only a spool in step is as long as the whole payload.
          have hstep : d.InStep cur := by
            rcases hfile with hin | hstep | hrel
            · exact absurd hin.2 hnot
            · exact hstep
            · have hzero := hrel.1.symm.trans (hlen.1.trans htally.total.symm)
              simp only [totalBytes, PayloadHeader.bytes] at hzero
              lia
          split at hd
          · cases hd
          · cases hd
          case h_3 x hx =>
            cases hd
            rw [hstep.1] at hx
            have htotal := htally.total.trans (htally.whole hcomplete).1.symm
            have hbytes := installFile_bytes htally.header htotal hx
            refine ⟨fun cur' hcur' => ?_, .inr ⟨x, rfl, hbytes, cur, hcur, hcomplete, ?_⟩⟩
            · obtain rfl := some.inj (hcur.symm.trans hcur')
              exact ⟨htally, .inl ⟨hcomplete, rfl⟩⟩
            · rw [hbytes, ← htally.digest]
              exact (htally.whole hcomplete).2

/-- One turn of the loop: it keeps the file in step, and what it installs was taken. -/
lemma Sound.handle (h : d.Sound) (hgood : ¬ d.Clobbers ev) (fault : Option FerroError) :
    (d.handle ev fault).Sound ∧ ((d.handle ev fault).installs = d.installs ∨
      ∃ x, (d.handle ev fault).installs = d.installs ++ [x] ∧ (d.handle ev fault).Exact x) := by
  set e := ((snapshotChunkOf ev).elim (d.stepped ev) fun c =>
    (d.stepped ev).spoolAcceptedChunk c.1 c.2).releaseInstalledSpool with he
  have hsound : e.Sound := (h.spool hgood).release
  have hinstalls : e.installs = d.installs := by
    have hspool : ((snapshotChunkOf ev).elim (d.stepped ev) fun c =>
        (d.stepped ev).spoolAcceptedChunk c.1 c.2).installs = d.installs := by
      cases snapshotChunkOf ev with
      | none => rfl
      | some c => exact (sm_spoolAcceptedChunk _ _ _).2
    rw [he]
    unfold releaseInstalledSpool
    split <;> exact hspool
  have hhandle : d.handle ev fault = (e.installPendingSnapshot fault).toOption.getD e := rfl
  cases hp : e.installPendingSnapshot fault with
  | error why =>
    rw [hhandle, hp]
    exact ⟨hsound, .inl hinstalls⟩
  | ok d' =>
    rw [hhandle, hp, ← hinstalls]
    exact hsound.install hp

/-- One turn, with no first chunk passing for one it is not. -/
inductive Turn (d : Receiver) : Receiver → Prop
  | handle (ev : Event) (fault : Option FerroError) (hgood : ¬ d.Clobbers ev) :
    Turn d (d.handle ev fault)

abbrev Turned : Receiver → Receiver → Prop := Relation.ReflTransGen Turn

lemma Turned.sound {d₀ : Receiver} (h : Turned d₀ d) (h₀ : d₀.Sound) : d.Sound := by
  induction h with
  | refl => exact h₀
  | tail _ hturn ih =>
    cases hturn with
    | handle ev fault hgood => exact (ih.handle hgood fault).1

/-- Whatever arrives, and in whatever order, what is installed is the concatenation of the chunks
the state machine took and folded into the digest it checked. -/
theorem installs_what_was_taken {d₀ : Receiver} (h₀ : d₀.sm.receiving = none)
    (h : Turned d₀ d) {ev : Event} (hgood : ¬ d.Clobbers ev) {fault : Option FerroError}
    {x : Installed} (hx : (d.handle ev fault).installs = d.installs ++ [x]) :
    (d.handle ev fault).Exact x := by
  have hsound : d.Sound := h.sound fun cur hcur => absurd (h₀.symm.trans hcur) nofun
  rcases (hsound.handle hgood fault).2 with hsame | ⟨y, hy, hexact⟩
  · exact absurd (hsame.symm.trans hx) (by simp)
  · obtain rfl : x = y := by simpa using hx.symm.trans hy
    exact hexact

/-! ## Two captures of one round -/

open Consensus (twoVoters)

/-- A capture of round 3 whose one page is filled with one byte. -/
def capture (fill : UInt8) : List UInt8 :=
  (Snapshot.build ⟨3, 1, twoVoters, 0⟩ 0 0 ⟨0, 0, 1⟩ [] [] []
    (replicate pageSize fill)).toOption.elim [] Snapshot.bytes

/-- The part of a capture from `lo` to `hi`, as the leader of a term sends it to node 1. -/
def chunkOf (fill : UInt8) (term : Term) (lo hi : ℕ) : Event :=
  .recv ⟨2, 1, term, .installSnapshot ⟨3, 1, twoVoters, 4196⟩ lo
    (PayloadHeader.slice (capture fill) lo hi) (hi = 4196)⟩

def idle : Receiver := ⟨.new 1 twoVoters 7, none, 0, none, none, [], []⟩

def afterEvents (evs : List Event) : Receiver := evs.foldl (fun d ev => d.handle ev none) idle

lemma afterEvents_append (evs : List Event) (ev : Event) :
    afterEvents (evs ++ [ev]) = (afterEvents evs).handle ev none := by
  simp [afterEvents]

/-- A capture that arrives in two chunks is installed as it was taken. -/
theorem installs_what_was_taken_two_chunks :
    ∃ x, (afterEvents [chunkOf 7 2 0 2000, chunkOf 7 2 2000 4196]).installs = [x] ∧
      (afterEvents [chunkOf 7 2 0 2000, chunkOf 7 2 2000 4196]).Exact x := by
  have hlen : (afterEvents [chunkOf 7 2 0 2000, chunkOf 7 2 2000 4196]).installs.length = 1 := by
    decide +kernel
  have hfirst : (afterEvents [chunkOf 7 2 0 2000]).installs = [] := by decide +kernel
  have hmoves : ((afterEvents [chunkOf 7 2 0 2000]).sm.step (chunkOf 7 2 2000 4196)).1.receiving ≠
      (afterEvents [chunkOf 7 2 0 2000]).sm.receiving := by
    decide +kernel
  have hidle : idle.Turn (afterEvents [chunkOf 7 2 0 2000]) := by
    rw [← nil_append [chunkOf 7 2 0 2000], afterEvents_append]
    refine .handle _ none ?_
    rintro ⟨cur, -, hcur, -⟩
    cases hcur
  obtain ⟨x, hx⟩ := length_eq_one_iff.mp hlen
  have hlast := afterEvents_append [chunkOf 7 2 0 2000] (chunkOf 7 2 2000 4196)
  rw [singleton_append] at hlast
  refine ⟨x, hx, ?_⟩
  rw [hlast] at hx ⊢
  have hnone : idle.sm.receiving = none := rfl
  refine installs_what_was_taken hnone (.single hidle) ?_ ?_
  · rintro ⟨cur, -, hcur, hkept, -⟩
    exact hmoves (hkept.trans hcur.symm)
  · rw [hfirst]
    exact hx

/-- While a leader's capture arrives, the first chunk of a deposed leader's capture of the same
round comes late. -/
def staleChunk : Receiver :=
  afterEvents [chunkOf 7 2 0 2000, chunkOf 9 1 0 2000, chunkOf 7 2 2000 4196]

/-- The state machine refused the late chunk, and the engine was given it all the same: byte 1000
is the one capture's, byte 3000 the other's. -/
theorem staleChunk_mixture :
    staleChunk.accepted.flatten[1000]? = some 7 ∧ staleChunk.accepted.flatten[3000]? = some 7 ∧
      staleChunk.installs.map (fun x => (x.bytes[1000]?, x.bytes[3000]?)) =
        [(some 9, some 7)] := by
  decide +kernel

end Receiver

end FerroDb.Cluster
