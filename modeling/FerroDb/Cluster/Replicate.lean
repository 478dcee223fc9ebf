import FerroDb.Cluster.State

/-!
# Replication

The leader's side and the follower's side of `consensus/replicate.rs`: sending rounds, taking
them, acknowledging what is durable, and deciding what is committed.
-/

namespace FerroDb.Cluster

namespace Consensus

/-! ## Sending -/

variable (s : Consensus)

/-- The next chunk of the transfer armed for this peer, if one is. -/
def sendSnapshotChunkTo (n : NodeId) : List Action :=
  match (s.progress n).bind (·.sending) with
  | none => []
  | some cur =>
    let (data, done) := cur.snapshot.chunk cur.acked
    [s.sendTo n (.installSnapshot cur.snapshot.info cur.acked data done)]

/-- The peer's progress, with a first round to send it. -/
def startedPeer (n : NodeId) : Progress :=
  let p := s.peer n
  if p.next = 0 then { p with next := s.lastRound + 1 } else p

/-- The next chunk or the next rounds for a peer whose progress is `p`. -/
def sendNextTo (n : NodeId) (p : Progress) : Out :=
  if p.needsSnapshot then (s, s.sendSnapshotChunkTo n)
  else
    let prevRound := p.next - 1
    match s.termAt prevRound with
    | none => (s.setPeer n { p with needsSnapshot := true }, [])
    | some prevTerm =>
      (s, [s.sendTo n (.append prevRound prevTerm (s.entriesFrom p.next) s.commit)])

def sendAppendTo (n : NodeId) : Out :=
  if s.role ≠ .leader ∨ n = s.selfId ∨ s.cfg.isKnown n = false then (s, [])
  else
    let s := s.ensureLog
    (s.setPeer n (s.startedPeer n)).sendNextTo n (s.startedPeer n)

@[simp] lemma sendAppendTo_hard (n : NodeId) : (s.sendAppendTo n).1.hard = s.hard := by
  unfold sendAppendTo sendNextTo
  dsimp only
  split
  · rfl
  · split
    · simp
    · split <;> simp

/-- Send to each of these peers in turn. -/
def sendAppendsTo (s : Consensus) : List NodeId → Out
  | [] => (s, [])
  | n :: ns => (s.sendAppendTo n).andThen (sendAppendsTo · ns)

@[simp] lemma sendAppendsTo_hard (ns : List NodeId) : (s.sendAppendsTo ns).1.hard = s.hard := by
  induction ns generalizing s with
  | nil => rfl
  | cons n ns ih => simp [sendAppendsTo, ih]

def bcastAppend : Out :=
  if s.role ≠ .leader then (s, []) else s.sendAppendsTo s.peerIds

@[simp] lemma bcastAppend_hard : s.bcastAppend.1.hard = s.hard := by
  unfold bcastAppend
  split <;> simp

/-! ## Taking office -/

def initLeaderProgress : Consensus :=
  let s := s.ensureLog
  let next := s.lastRound + 1
  { s with
    progress := fun n =>
      if n ≠ s.selfId ∧ s.cfg.isKnown n then
        some { s.peer n with
          next := next, matched := 0, silent := 0, needsSnapshot := false, sending := none }
      else none
    agreed := s.durable
    receiving := none }

def onBecameLeader : Out :=
  (s.initLeaderProgress.appendOwnEntry .noOp).andThen fun s =>
    bcastAppend { s with
      progress := fun n => (s.progress n).map fun p => { p with next := s.lastRound + 1 } }

@[simp] lemma onBecameLeader_hard : s.onBecameLeader.1.hard = s.hard := by
  simp [onBecameLeader, initLeaderProgress]

/-! ## Commit -/

def advanceApply : Out :=
  let through := min s.commit s.durable
  if s.applied < through then ({ s with applied := through }, [.apply through]) else (s, [])

@[simp] lemma advanceApply_hard : s.advanceApply.1.hard = s.hard := by
  unfold advanceApply
  dsimp only
  split <;> rfl

/-- What one voter is counted as holding: this node what it knows durable, a peer what it
acknowledged, unless its log was seen to differ. -/
def heldBy (n : NodeId) : Round :=
  if n = s.selfId then s.durable
  else
    match s.progress n with
    | some p => if p.diverged.isNone then p.matched else 0
    | none => 0

/-- What a peer is counted as holding, by its progress. -/
lemma heldBy_peer {n : NodeId} (h : n ≠ s.selfId) :
    s.heldBy n = if (s.peer n).diverged.isNone then (s.peer n).matched else 0 := by
  rw [heldBy, if_neg h, peer]
  cases s.progress n <;> simp [Progress.default]

/-- The highest round a majority of voters hold. -/
def quorumMatched : Round :=
  ((s.cfg.members.map s.heldBy).insertionSort (· ≥ ·))[s.cfg.quorum - 1]?.getD 0

def commitAdvances : Bool :=
  s.role = .leader && s.commit < s.quorumMatched && s.termAt s.quorumMatched = some s.hard.term

def advanceCommit : Out :=
  if s.commitAdvances then
    (advanceApply { s with commit := s.quorumMatched }).andThen bcastAppend
  else (s, [])

@[simp] lemma advanceCommit_hard : s.advanceCommit.1.hard = s.hard := by
  unfold advanceCommit
  split <;> simp

/-! ## The follower's side -/

def refusal (dst : NodeId) (hint : Round) : Action :=
  s.sendTo dst (.appendResp false 0 hint 0)

def acknowledgement (dst : NodeId) : Action :=
  let matched := min s.durable s.agreed
  s.sendTo dst (.appendResp true matched 0 ((s.digestAt matched).getD 0))

variable (src : NodeId)

/-- Follow the sender of an `Append` or a snapshot. What was agreed with another leader, or in
another term, says nothing about this one. -/
def adoptLeader (term : Term) : Out :=
  let adopting := s.leader ≠ some src
  let o :=
    if s.role ≠ .follower ∨ adopting ∨ s.hard.term ≠ term then s.becomeFollower term (some src)
    else ({ s with sinceHeard := 0 }, [])
  if adopting then ({ o.1 with agreed := 0 }, o.2) else o

lemma adoptLeader_hard : (s.adoptLeader src s.hard.term).1.hard = s.hard := by
  unfold adoptLeader
  dsimp only
  split <;> split <;> simp

/-- How many of these entries are already held, and the first round that conflicts. -/
def heldPart (s : Consensus) : List Entry → ℕ × Option Round
  | [] => (0, none)
  | e :: es =>
    match s.termAt e.round with
    | some t => if t = e.term then ((s.heldPart es).1 + 1, (s.heldPart es).2) else (0, some e.round)
    | none => (0, none)

/-- Drop a conflicting suffix. -/
def truncateLog (r : Round) : Consensus :=
  let s := s.modifyTail fun t => { t.truncateFrom r with rewrittenInTerm := s.hard.term }
  { s with
    lastRound := r - 1
    lastTerm := (s.termAt (r - 1)).getD 0
    durable := min s.durable (r - 1) }

def observeConfigAt (a : CfgAt) : Consensus :=
  if s.cfg.at.lt a then { s with behind := true } else s

def observeQuorumWatermark (watermark : Round) : Consensus :=
  if s.unjoined ∧ watermark ≤ s.durable then { s with unjoined := false } else s

@[simp] lemma observeConfigAt_hard (a : CfgAt) : (s.observeConfigAt a).hard = s.hard := by
  unfold observeConfigAt
  split <;> rfl

@[simp] lemma observeQuorumWatermark_hard (w : Round) :
    (s.observeQuorumWatermark w).hard = s.hard := by
  unfold observeQuorumWatermark
  split <;> rfl

/-- The newest configuration among the entries. -/
def newestConfig (entries : List Entry) : Option CfgAt :=
  (entries.filterMap fun e =>
    match e.command with
    | .membership config => some config.at
    | _ => none).foldl (fun best a => some (best.elim a (·.max a))) none

/-- Learn the leader's commit, and what its entries say about the configuration. -/
def learnFromAppend (entries : List Entry) (leaderCommit : Round) : Out :=
  let s := { s with commit := max s.commit (min leaderCommit s.agreed) }
  let s := s.observeQuorumWatermark leaderCommit
  let s := (newestConfig entries).elim s s.observeConfigAt
  s.advanceApply

@[simp] lemma learnFromAppend_hard (es : List Entry) (r : Round) :
    (s.learnFromAppend es r).1.hard = s.hard := by
  rw [learnFromAppend]
  cases newestConfig es <;> simp

/-- The fresh entries go onto the log; with none there is only the acknowledgement. -/
def extendLog (fresh : List Entry) : Out :=
  match fresh.getLast? with
  | none => (s, [s.acknowledgement src])
  | some tail =>
    ({ s.modifyTail (fun t => fresh.foldl LogTail.push t) with
        lastRound := tail.round, lastTerm := tail.term }, [.persist fresh])

@[simp] lemma extendLog_hard (es : List Entry) : (s.extendLog src es).1.hard = s.hard := by
  unfold extendLog
  split <;> rfl

/-- An append whose previous round matches. -/
def acceptAppend (prevRound : Round) (entries : List Entry)
    (leaderCommit : Round) : Out :=
  let (held, conflict) := s.heldPart entries
  let established := prevRound + entries.length
  match conflict with
  | some r =>
    if r ≤ s.commit then (s, [s.refusal src (s.commit + 1)])
    else
      let t := s.truncateLog r
      Out.andThen ({ t with agreed := max (min t.agreed (r - 1)) established }, [.truncate r])
        fun s => (s.extendLog src (entries.drop held)).andThen (learnFromAppend · entries leaderCommit)
  | none =>
    (extendLog { s with agreed := max s.agreed established } src (entries.drop held)).andThen
      (learnFromAppend · entries leaderCommit)

@[simp] lemma acceptAppend_hard (prev : Round)
    (es : List Entry) (r : Round) : (s.acceptAppend src prev es r).1.hard = s.hard := by
  unfold acceptAppend
  dsimp only
  split
  · split
    · rfl
    · simp [truncateLog, modifyTail]
  · simp

/-- The batch is not what a leader of this term could have sent. -/
def malformed (term : Term) (prevRound : Round) (entries : List Entry) : Bool :=
  entries.zipIdx.any fun (e, k) => e.round ≠ prevRound + 1 + k || term < e.term

/-- A batch that is not malformed has the rounds that follow `prevRound`. -/
lemma rounds_of_not_malformed {t : Term} {prevRound : Round} {es : List Entry}
    (h : malformed t prevRound es = false) {k : ℕ} {e : Entry} (he : es[k]? = some e) :
    e.round = prevRound + 1 + k := by
  have hall := List.any_eq_false.mp h (e, k) (List.mem_zipIdx_iff_getElem?.mpr he)
  simp only [Bool.or_eq_true, decide_eq_true_eq, not_or, not_not] at hall
  exact hall.1

/-- An append of the leader this node follows. -/
def matchAppend (prevRound : Round) (prevTerm : Term)
    (entries : List Entry) (leaderCommit : Round) : Out :=
  if prevRound < s.snapshotRound then (s, [s.refusal src (s.snapshotRound + 1)])
  else
    match s.termAt prevRound with
    | some t =>
      if t = prevTerm then s.acceptAppend src prevRound entries leaderCommit
      else (s, [s.refusal src (s.firstRoundOfTermRun prevRound)])
    | none => (s, [s.refusal src (s.lastRound + 1)])

@[simp] lemma matchAppend_hard (prev : Round) (prevTerm : Term)
    (es : List Entry) (r : Round) : (s.matchAppend src prev prevTerm es r).1.hard = s.hard := by
  unfold matchAppend
  split
  · rfl
  · split
    · split <;> simp
    · rfl

def onAppend (term : Term) (prevRound : Round) (prevTerm : Term)
    (entries : List Entry) (leaderCommit : Round) : Out :=
  if malformed term prevRound entries then (s, [s.refusal src 0])
  else (s.adoptLeader src term).andThen (matchAppend · src prevRound prevTerm entries leaderCommit)

lemma onAppend_hard (prev : Round) (prevTerm : Term) (es : List Entry) (r : Round) :
    (s.onAppend src s.hard.term prev prevTerm es r).1.hard = s.hard := by
  unfold onAppend
  split
  · rfl
  · simp [adoptLeader_hard]

/-! ## The leader's side -/

def divergenceText (matched : Round) (digest mine : UInt64) : String :=
  (s!"peer {showNode src} DIVERGED at round {matched}: it reports log digest " ++
    s!"{showDigest digest} where this leader's own log through the same round digests " ++
    s!"{showDigest mine}. The two nodes are not the same database, so counting this peer toward " ++
    "a quorum would report a round as replicated onto bytes nobody can name. Not counted again; " ++
    s!"re-seed it from a snapshot taken at or after round {matched}.")

/-- Latch a peer whose log digests differently at the round it acknowledges. -/
def noteDivergence (matched : Round) (digest : UInt64) :
    Consensus :=
  match s.digestAt matched with
  | some mine =>
    if digest ≠ 0 ∧ mine ≠ digest ∧ (s.peer src).diverged = none then
      s.setPeer src { s.peer src with
        diverged := some (divergenceText src matched digest mine) }
    else s
  | none => s

@[simp] lemma noteDivergence_hard (r : Round) (d : UInt64) :
    (s.noteDivergence src r d).hard = s.hard := by
  unfold noteDivergence
  split
  · split <;> rfl
  · rfl

/-- The peer refused, and says from where it could go on. -/
def onRefused (hint : Round) : Out :=
  if hint = 0 then (s, [])
  else if max hint 1 = (s.peer src).next then (s, [])
  else (s.setPeer src { s.peer src with next := max hint 1 }).sendAppendTo src

/-- The peer holds this log through `matched`. -/
def onAcknowledged (matched : Round) : Out :=
  if s.lastRound < matched then (s, [])
  else
    let p := s.peer src
    let advanced := p.matched < matched
    let held := max p.matched matched
    let s := s.setPeer src { p with
      matched := held, next := max p.next (held + 1), needsSnapshot := false, sending := none }
    if s.commitAdvances then s.advanceCommit
    else if advanced ∧ held < s.lastRound then s.sendAppendTo src
    else (s, [])

def onAppendResp (success : Bool) (matched hint : Round)
    (digest : UInt64) : Out :=
  if s.role ≠ .leader ∨ src = s.selfId ∨ s.cfg.isKnown src = false then (s, [])
  else
    let s := s.setPeer src { s.peer src with silent := 0 }
    if success = false then s.onRefused src hint
    else (s.noteDivergence src matched digest).onAcknowledged src matched

@[simp] lemma onAppendResp_hard (success : Bool) (matched hint : Round) (digest : UInt64) :
    (s.onAppendResp src success matched hint digest).1.hard = s.hard := by
  unfold onAppendResp onRefused onAcknowledged
  dsimp only
  split_ifs <;> simp

def onPropose (c : Command) : Out :=
  if s.role ≠ .leader then (s, [.refuse (.notLeader (s.leader.map showNode))])
  else
    let s := s.ensureLog
    match Wire.admitEntry ⟨s.hard.term, s.lastRound + 1, c⟩ with
    | .error why => (s, [.refuse why])
    | .ok _ => (s.appendOwnEntry c).andThen bcastAppend

@[simp] lemma onPropose_hard (c : Command) : (s.onPropose c).1.hard = s.hard := by
  unfold onPropose
  split
  · rfl
  · dsimp only
    split <;> simp

end Consensus

end FerroDb.Cluster
