import FerroDb.Cluster.Transfer

/-!
# Elections, and one step of a node

Ticks, pre-votes, votes and taking office from `consensus/election.rs`, and the entry point
`Consensus::step` with the term rules every message goes through.
-/

namespace FerroDb.Cluster

namespace Consensus

/-! ## Campaigning -/

variable (s : Consensus)

def becomeLeader : Out :=
  let s := { s with
    role := .leader
    leader := some s.selfId
    campaign := none
    votes := ∅
    sinceQuorum := 0
    sinceHeartbeat := 0 }
  Out.andThen (s, [.roleChanged .leader s.hard.term (some s.selfId)]) onBecameLeader

@[simp] lemma becomeLeader_hard : s.becomeLeader.1.hard = s.hard := by
  simp [becomeLeader]

def becomeCandidate : Out :=
  let s := drawTimeout { s with
    hard := ⟨satAdd64 s.hard.term 1, some s.selfId⟩
    campaign := some s.cfg
    role := .candidate
    leader := none
    votes := {s.selfId}
    sinceHeard := 0 }
  Out.andThen
    (s, [.persistHardState s.hard.term (some s.selfId), .roleChanged .candidate s.hard.term none])
    fun s =>
      if s.campaignWon then s.becomeLeader
      else (s, s.campaignVoters.map fun n => s.sendTo n (.requestVote s.lastTerm s.lastRound))

def startPrecampaign : Out :=
  let s := drawTimeout { s with
    role := .preCandidate
    leader := none
    campaign := some s.cfg
    votes := {s.selfId}
    sinceHeard := 0 }
  Out.andThen (s, [.roleChanged .preCandidate s.hard.term none]) fun s =>
    if s.campaignWon then s.becomeCandidate
    else
      (s, s.campaignVoters.map fun n =>
        .send ⟨s.selfId, n, satAdd64 s.hard.term 1, .preVote s.lastTerm s.lastRound⟩)

/-- The state a node campaigns in. -/
def standing : Consensus :=
  { s with
    hard := ⟨satAdd64 s.hard.term 1, some s.selfId⟩
    campaign := some s.cfg
    role := .candidate
    leader := none
    votes := {s.selfId}
    sinceHeard := 0 }

/-- The state a node asks for pre-votes in. -/
def asking : Consensus :=
  { s with
    role := .preCandidate
    leader := none
    campaign := some s.cfg
    votes := {s.selfId}
    sinceHeard := 0 }

/-! ## Ticks -/

def voterTick : Out :=
  let s := { s with sinceHeard := satAdd32 s.sinceHeard 1 }
  if s.sinceHeard < s.electionTimeout then (s, [])
  else if s.mayCampaign then s.startPrecampaign
  else
    let o := if s.role ≠ .follower then s.becomeFollower s.hard.term none else (s, [])
    (drawTimeout { o.1 with sinceHeard := 0 }, o.2)

/-- How long ago a majority was last heard from. -/
def quorumSilence : ℕ :=
  let ages := s.cfg.members.map fun n =>
    if n = s.selfId then 0 else (s.progress n).elim u32Max Progress.silent
  (ages.insertionSort (· ≤ ·))[s.cfg.quorum - 1]?.getD u32Max

def leaderTick : Out :=
  if s.cfg.contains s.selfId = false then s.becomeFollower s.hard.term none
  else
    let s := { s with
      progress := fun n =>
        if n ∈ s.peerIds then
          (s.progress n).map fun (p : Progress) => { p with silent := satAdd32 p.silent 1 }
        else s.progress n }
    let s := { s with sinceQuorum := s.quorumSilence }
    if s.lease ≤ s.sinceQuorum then s.becomeFollower s.hard.term none
    else
      let s := { s with sinceHeartbeat := satAdd32 s.sinceHeartbeat 1 }
      if s.heartbeat ≤ s.sinceHeartbeat then bcastAppend { s with sinceHeartbeat := 0 }
      else (s, [])

def onTick : Out :=
  match s.role with
  | .leader => s.leaderTick
  | .follower | .preCandidate | .candidate => s.voterTick

/-! ## Votes -/

def onPreVote (src : NodeId) (askedTerm lastTerm : Term) (lastRound : Round) :
    Out :=
  let granted := s.hard.term < askedTerm && !s.leaderIsLive &&
    s.logIsAtLeastAsComplete lastTerm lastRound
  (s, [.send ⟨s.selfId, src, askedTerm, .preVoteResp granted⟩])

def onPreVoteResp (src : NodeId) (askedTerm : Term) (granted : Bool) : Out :=
  if s.role ≠ .preCandidate ∨ askedTerm ≠ satAdd64 s.hard.term 1 ∨
      s.campaignContains src = false ∨ granted = false then (s, [])
  else
    let s := { s with votes := insert src s.votes }
    if s.campaignWon then s.becomeCandidate else (s, [])

def onRequestVote (src : NodeId) (lastTerm : Term) (lastRound : Round) : Out :=
  let unpledged := s.hard.votedFor = none ∨ s.hard.votedFor = some src
  if unpledged ∧ s.leaderIsLive = false ∧ s.logIsAtLeastAsComplete lastTerm lastRound then
    let s := { s with hard := ⟨s.hard.term, some src⟩, sinceHeard := 0 }
    (s, [.persistHardState s.hard.term (some src), s.sendTo src (.requestVoteResp true)])
  else (s, [s.sendTo src (.requestVoteResp false)])

def onRequestVoteResp (src : NodeId) (term : Term) (granted : Bool) : Out :=
  if s.role ≠ .candidate ∨ term ≠ s.hard.term ∨ s.campaignContains src = false ∨
      granted = false then (s, [])
  else
    let s := { s with votes := insert src s.votes }
    if s.campaignWon then s.becomeLeader else (s, [])

@[simp] lemma onRequestVoteResp_hard (src : NodeId) (term : Term)
    (granted : Bool) : (s.onRequestVoteResp src term granted).1.hard = s.hard := by
  unfold onRequestVoteResp
  dsimp only
  split
  · rfl
  · split <;> simp

/-! ## Messages and events -/

/-- Hand a message of the current term to its handler. -/
def route (m : Message) : Out :=
  match m.body with
  | .preVote lastTerm lastRound => s.onPreVote m.src m.term lastTerm lastRound
  | .preVoteResp granted => s.onPreVoteResp m.src m.term granted
  | .requestVote lastTerm lastRound => s.onRequestVote m.src lastTerm lastRound
  | .requestVoteResp granted => s.onRequestVoteResp m.src m.term granted
  | .append prevRound prevTerm entries commit =>
    s.ensureLog.onAppend m.src m.term prevRound prevTerm entries commit
  | .appendResp success matched hint digest =>
    s.ensureLog.onAppendResp m.src success matched hint digest
  | .installSnapshot info offset data done =>
    s.ensureLog.onInstallSnapshot m.src m.term info offset data done
  | .installSnapshotResp receivedThrough =>
    s.ensureLog.onInstallSnapshotResp m.src receivedThrough

def onMessage (m : Message) : Out :=
  if m.term < s.hard.term then
    match m.body.staleRefusal with
    | some refusal => (s, [s.sendTo m.src refusal])
    | none => (s, [])
  else
    (if s.hard.term < m.term ∧ m.body.hypothetical = false then s.becomeFollower m.term none
      else (s, [])).andThen (route · m)

/-- The only way a node's state changes. -/
def step : Event → Out
  | .tick => s.onTick
  | .recv m => s.onMessage m
  | .persisted term round => s.onPersisted term round
  | .propose c => s.onPropose c

end Consensus

end FerroDb.Cluster
