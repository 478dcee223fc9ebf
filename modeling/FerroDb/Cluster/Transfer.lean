import FerroDb.Cluster.Replicate

/-!
# State transfer

Compaction, offering a snapshot, receiving one chunk by chunk, and installing it, from
`consensus/snapshot.rs`, with the configuration a snapshot brings along (`apply_config`,
`note_config_in_log`) and the report that makes an install take effect (`on_persisted`).
-/

namespace FerroDb.Cluster

namespace Consensus

/-! ## Configurations -/

variable (s : Consensus)

def applyConfig (cfg : Config) : Out :=
  let s := { s with cfg := cfg, behind := false }
  if s.role = .leader then
    let s := { s with
      progress := fun n =>
        if n ∈ s.peerIds then
          some ((s.progress n).getD { Progress.default with next := satAdd64 s.lastRound 1 })
        else none }
    if s.cfg.contains s.selfId then (s, []) else s.becomeFollower s.hard.term none
  else (s, [])

def showNodes (ns : List NodeId) : String := " ".intercalate (ns.map showNode)

def describe (c : Config) : String :=
  (s!"version {c.version} term {c.term}, voters [{showNodes c.members}], " ++
    s!"learners [{showNodes c.learners}]")

/-- Step down for good: this configuration cannot be counted against. -/
def latchDamaged (why : String) : Out × FerroError :=
  let o := s.becomeFollower s.hard.term none
  (({ o.1 with behind := true }, o.2), .corruption (s!"{why} This node has stepped down and " ++
    "will neither lead nor vote in an election until it installs a configuration that is not damaged."))

def noteConfigInLog (cfg : Config) : Out × Option FerroError :=
  if cfg.isEmpty then
    (s.latchDamaged ("a configuration with an empty voter set reached this node's log " ++
      s!"({describe cfg}). No majority exists in it, so no leader can ever be elected — " ++
      "including the one that would repair it. F5 refuses to create one, so this is damage " ++
      "rather than a decision.")).map id some
  else if cfg.at = s.cfg.at then
    if cfg ≠ s.cfg then
      (s.latchDamaged (s!"two different configurations claim one identity: {describe cfg} and " ++
        s!"the {describe s.cfg} already in force. Acknowledgements are matched on that pair, so " ++
        "a collision makes a majority of one set count as a majority of the other.")).map id some
    else (({ s with acked := Function.update s.acked s.selfId (some cfg.at) }, []), none)
  else
    let acked := fun n => if cfg.isKnown n then s.acked n else none
    (applyConfig { s with acked := Function.update acked s.selfId (some cfg.at) } cfg, none)

/-! ## Compaction and offers -/

def snapshotPoint : Option SnapshotPoint :=
  if s.applied = 0 then none
  else do
    let lastTerm ← s.termAt s.applied
    let baseDigest ← s.digestAt s.applied
    return ⟨s.applied, lastTerm, s.cfg, baseDigest⟩

def compact (through : Round) : Except SnapshotError Consensus :=
  if through ≤ s.snapshotRound then .ok s
  else if s.applied < through then
    .error (.refused (s!"cannot checkpoint through round {through}: this node has applied only " ++
      s!"through {s.applied}. A floor above what the storage engine holds is a claim about " ++
      "state that was never installed, and the rounds that would prove otherwise are what the " ++
      "checkpoint discards."))
  else if s.lastRound < through then
    .error (.refused (s!"cannot checkpoint through round {through}: this node's log ends at " ++
      s!"{s.lastRound}"))
  else
    match s.termAt through with
    | none => .error (.refused (s!"cannot checkpoint through round {through}: this node cannot " ++
        "answer for its term"))
    | some term =>
      let baseDigest := (s.digestAt through).getD 0
      .ok { s.modifyTail (·.compactTo through baseDigest) with
        snapshotRound := through, snapshotTerm := term }

def offerSnapshotTo (n : NodeId) (snap : Snapshot) :
    Except SnapshotError Consensus := do
  let m := snap.info
  if s.role ≠ .leader then
    throw (.refused (s!"node {showNode s.selfId} is {s.role.show} and only a leader may serve a " ++
      "snapshot"))
  if s.cfg.isKnown n = false then
    throw (.refused (s!"{showNode n} is in no configuration this node holds, so serving it " ++
      "state would be seeding a node the cluster has removed"))
  m.validate
  if s.applied < m.lastRound then
    throw (.refused (s!"the snapshot covers round {m.lastRound} but this leader has applied " ++
      s!"only through {s.applied}. The payload is an image of the storage engine, so it cannot " ++
      "describe a round the engine has not been given."))
  if m.lastRound < s.snapshotRound then
    throw (.refused (s!"the snapshot covers round {m.lastRound} but this leader's own log " ++
      s!"begins after {s.snapshotRound}, so after installing it the peer would need entries " ++
      "this leader no longer holds — a second transfer, immediately."))
  match s.termAt m.lastRound with
  | none => throw (.refused (s!"this leader cannot answer for round {m.lastRound}, so it cannot " ++
      "vouch for a snapshot of it"))
  | some t =>
    if t ≠ m.lastTerm then
      throw (.refused (s!"the snapshot says round {m.lastRound} is of term {m.lastTerm}, and " ++
        s!"this leader's log says term {t}. One of them is a snapshot of a different history, " ++
        "and `(round, term)` is the pair every later log-matching check is decided by."))
  let mine := (s.digestAt m.lastRound).getD 0
  if snap.header.baseDigest ≠ mine then
    throw (.refused (s!"the snapshot's base digest {showDigest snap.header.baseDigest} is not " ++
      s!"this leader's digest at round {m.lastRound} ({showDigest mine}). Installing it would " ++
      "anchor the receiver's digest chain somewhere this leader is not, and every " ++
      "acknowledgement above the floor would then report a divergence that is not there."))
  return s.setPeer n { s.peer n with needsSnapshot := true, sending := some ⟨snap, 0⟩ }

/-- An offer that is taken up is one this leader can vouch for, by term and by digest. -/
lemma offerSnapshotTo_ok {s s' : Consensus} {k : NodeId} {snap : Snapshot}
    (h : s.offerSnapshotTo k snap = .ok s') :
    s.termAt snap.info.lastRound = some snap.info.lastTerm ∧
      snap.header.baseDigest = (s.digestAt snap.info.lastRound).getD 0 ∧
      s' = s.setPeer k { s.peer k with needsSnapshot := true, sending := some ⟨snap, 0⟩ } := by
  simp only [offerSnapshotTo, bind, Except.bind, throw, throwThe, MonadExceptOf.throw] at h
  repeat' split at h
  all_goals cases h
  all_goals simp_all

/-! ## The sender's side -/

/-- The peer has this much of the transfer armed for it. -/
def onReceived (src : NodeId) (receivedThrough : ℕ) : Out :=
  match (s.peer src).sending with
  | none => (s, [])
  | some cur =>
    let total := cur.snapshot.info.totalBytes
    if total < receivedThrough then (s, [])
    else if receivedThrough = cur.acked then (s, [])
    else if receivedThrough = total then
      let s := s.setPeer src { s.peer src with
        sending := none, needsSnapshot := false, next := cur.snapshot.info.lastRound + 1 }
      s.sendAppendTo src
    else
      let s := s.setPeer src { s.peer src with
        sending := some { cur with acked := receivedThrough } }
      (s, s.sendSnapshotChunkTo src)

def onInstallSnapshotResp (src : NodeId) (receivedThrough : ℕ) : Out :=
  if s.role ≠ .leader ∨ src = s.selfId ∨ s.cfg.isKnown src = false then (s, [])
  else (s.setPeer src { s.peer src with silent := 0 }).onReceived src receivedThrough

/-! ## The receiver's side -/

def ackSnapshot (dst : NodeId) (n : ℕ) : Action :=
  s.sendTo dst (.installSnapshotResp n)

def refuseSnapshot (dst : NodeId) : Action :=
  s.ackSnapshot dst (s.receiving.elim 0 RecvCursor.received)

/-- One chunk for a transfer that stands at `cur`. -/
def takeChunk (src : NodeId) (info : SnapshotMeta) (offset : ℕ)
    (data : List UInt8) (done : Bool) (cur : RecvCursor) : Out :=
  if cur.complete ∨ offset ≠ cur.received then
    ({ s with receiving := some cur }, [s.ackSnapshot src cur.received])
  else if info.totalBytes < cur.received + data.length then (s, [s.refuseSnapshot src])
  else
    let bodyFrom := PayloadHeader.bytes - cur.received
    let cur := { cur with
      bodyDigest := fnv64Update cur.bodyDigest (data.drop bodyFrom)
      received := cur.received + data.length }
    if done then
      match completionVerdict cur.received info.totalBytes cur.bodyDigest cur.header.bodyDigest with
      | .ok _ => ({ s with receiving := some { cur with complete := true } },
          [s.ackSnapshot src cur.received])
      | .error .length => ({ s with receiving := some cur }, [s.ackSnapshot src cur.received])
      | .error .digest => ({ s with receiving := none }, [s.ackSnapshot src 0])
    else ({ s with receiving := some cur }, [s.ackSnapshot src cur.received])

/-- A chunk of a snapshot this node does not already cover. -/
def receiveChunk (src : NodeId) (info : SnapshotMeta) (offset : ℕ)
    (data : List UInt8) (done : Bool) : Out :=
  if offset = 0 then
    match PayloadHeader.decode data with
    | .error _ => (s, [s.refuseSnapshot src])
    | .ok header =>
      if header.lastRound ≠ info.lastRound ∨ header.lastTerm ≠ info.lastTerm ∨
          header.totalBytes ≠ info.totalBytes then
        (s, [s.refuseSnapshot src])
      else
        let fresh : RecvCursor := ⟨info, header, 0, fnvOffset, false⟩
        match s.receiving with
        | some c =>
          if c.header = header ∧ 0 < c.received then (s, [s.ackSnapshot src c.received])
          else s.takeChunk src info offset data done fresh
        | none => s.takeChunk src info offset data done fresh
  else
    match s.receiving with
    | some c =>
      if c.info = info then s.takeChunk src info offset data done c
      else (s, [s.ackSnapshot src 0])
    | none => (s, [s.ackSnapshot src 0])

section

variable (src : NodeId) {info : SnapshotMeta} (offset : ℕ) (data : List UInt8) (done : Bool)

/-- A chunk moves the transfer or leaves it, and is acknowledged. -/
lemma takeChunk_cases {cur : RecvCursor} (hcur : cur.info = info) :
    ∃ r n, s.takeChunk src info offset data done cur =
      ({ s with receiving := r }, [s.ackSnapshot src n]) ∧
        (r = s.receiving ∨ ∀ cur, r = some cur → cur.info = info) := by
  unfold takeChunk
  dsimp only
  split_ifs
  · exact ⟨_, _, rfl, .inr (by rintro _ ⟨⟩; exact hcur)⟩
  · exact ⟨s.receiving, _, rfl, .inl rfl⟩
  · split
    · exact ⟨_, _, rfl, .inr (by rintro _ ⟨⟩; exact hcur)⟩
    · exact ⟨_, _, rfl, .inr (by rintro _ ⟨⟩; exact hcur)⟩
    · exact ⟨_, _, rfl, .inr nofun⟩
  · exact ⟨_, _, rfl, .inr (by rintro _ ⟨⟩; exact hcur)⟩

lemma receiveChunk_cases : ∃ r n, s.receiveChunk src info offset data done =
      ({ s with receiving := r }, [s.ackSnapshot src n]) ∧
        (r = s.receiving ∨ ∀ cur, r = some cur → cur.info = info) := by
  unfold receiveChunk
  split
  · split
    · exact ⟨s.receiving, _, rfl, .inl rfl⟩
    · split
      · exact ⟨s.receiving, _, rfl, .inl rfl⟩
      · split
        · split
          · exact ⟨s.receiving, _, rfl, .inl rfl⟩
          · exact s.takeChunk_cases src _ _ _ rfl
        · exact s.takeChunk_cases src _ _ _ rfl
  · split
    · split
      · exact s.takeChunk_cases src _ _ _ ‹_›
      · exact ⟨s.receiving, _, rfl, .inl rfl⟩
    · exact ⟨s.receiving, _, rfl, .inl rfl⟩

end

def onInstallSnapshot (src : NodeId) (term : Term) (info : SnapshotMeta)
    (offset : ℕ) (data : List UInt8) (done : Bool) : Out :=
  match info.validate with
  | .error _ => (s, [s.refuseSnapshot src])
  | .ok _ =>
    if info.config.at = s.cfg.at ∧ info.config ≠ s.cfg then (s, [s.refuseSnapshot src])
    else
      (s.adoptLeader src term).andThen fun s =>
        if info.lastRound ≤ s.snapshotRound ∨ s.termAt info.lastRound = some info.lastTerm then
          (s, [s.ackSnapshot src info.totalBytes])
        else s.receiveChunk src info offset data done

/-- The round of a transfer that arrived whole and is not in force yet. -/
def pendingInstallRound : Option Round :=
  s.receiving.bind fun cur => if cur.complete then some cur.info.lastRound else none

def finishInstall : Out × Option FerroError :=
  match s.receiving with
  | none => ((s, []), none)
  | some cur =>
    if cur.complete = false then ((s, []), none)
    else
      match s.noteConfigInLog cur.info.config with
      | (o, some why) => (o, some why)
      | (o, none) =>
        (({ o.1 with
            snapshotRound := cur.info.lastRound
            snapshotTerm := cur.info.lastTerm
            lastRound := cur.info.lastRound
            lastTerm := cur.info.lastTerm
            ownLog := some (.rebased cur.info.lastRound cur.header.baseDigest)
            durable := cur.info.lastRound
            commit := max o.1.commit cur.info.lastRound
            applied := max o.1.applied cur.info.lastRound
            agreed := cur.info.lastRound
            receiving := none }, o.2), none)

/-- A report of durable rounds counts only if nothing was rewritten since it was asked for. -/
def notePersisted (term : Term) (round : Round) : Consensus :=
  if s.ownLog.elim 0 LogTail.rewrittenInTerm ≤ term then
    { s with durable := max s.durable (min round s.lastRound) }
  else s

@[simp] lemma notePersisted_hard (term : Term) (round : Round) :
    (s.notePersisted term round).hard = s.hard := by
  unfold notePersisted
  split <;> rfl

/-- More is durable: the leader counts itself, a follower tells its leader. -/
def announceDurable : Out :=
  if s.role = .leader then advanceCommit { s with agreed := s.durable }
  else
    match s.leader with
    | some l => (s, [s.acknowledgement l])
    | none => (s, [])

@[simp] lemma announceDurable_hard : s.announceDurable.1.hard = s.hard := by
  unfold announceDurable
  split
  · simp
  · split <;> rfl

def onPersisted (term : Term) (round : Round) : Out :=
  let s := s.ensureLog
  let (o, failed) :=
    if s.pendingInstallRound = some round then s.finishInstall else ((s, []), none)
  match failed with
  | some why => (o.1, o.2 ++ [.refuse why])
  | none =>
    o.andThen fun s => (s.notePersisted term round).announceDurable.andThen advanceApply

end Consensus

end FerroDb.Cluster
