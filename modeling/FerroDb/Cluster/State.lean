import FerroDb.Cluster.LogTail
import FerroDb.Cluster.Payload

/-!
# The state of one node

`Consensus` and the helpers every handler uses. A handler of the source takes `&mut self` and
pushes onto `out`; here it takes the state and returns the new state with the actions it pushed
(`Out`), and `andThen` runs one handler after another.

The source keeps this node's own log, how far it agrees with the leader, and an incoming
transfer in the self-keyed entry of `progress`. They are fields of their own here, and
`progress` is about peers only; nothing reads the other fields of the self-keyed entry.
-/

namespace FerroDb.Cluster

structure Progress where
  next : Round
  matched : Round
  silent : ℕ
  needsSnapshot : Bool
  /-- Why this peer is not counted any more, once its log was seen to differ. -/
  diverged : Option String
  sending : Option SendCursor
deriving DecidableEq

def Progress.default : Progress := ⟨0, 0, 0, false, none, none⟩

structure Consensus where
  selfId : NodeId
  role : Role
  hard : HardState
  leader : Option NodeId
  cfg : Config
  /-- The configuration the running campaign is counted against. -/
  campaign : Option Config
  acked : NodeId → Option CfgAt
  behind : Bool
  unjoined : Bool
  sinceHeard : ℕ
  sinceQuorum : ℕ
  electionTimeout : ℕ
  electionBase : ℕ
  lease : ℕ
  heartbeat : ℕ
  sinceHeartbeat : ℕ
  votes : Finset NodeId
  progress : NodeId → Option Progress
  ownLog : Option LogTail
  /-- How far this log is known to agree with the leader's. -/
  agreed : Round
  receiving : Option RecvCursor
  commit : Round
  applied : Round
  durable : Round
  lastTerm : Term
  lastRound : Round
  snapshotRound : Round
  snapshotTerm : Term
  rng : Rng

/-- A state and the actions that led to it. -/
abbrev Out := Consensus × List Action

/-- Run another handler on the state reached, after the actions so far. -/
def Out.andThen (o : Out) (f : Consensus → Out) : Out := ((f o.1).1, o.2 ++ (f o.1).2)

@[simp] lemma Out.andThen_fst (o : Out) (f : Consensus → Out) : (o.andThen f).1 = (f o.1).1 := rfl
@[simp] lemma Out.andThen_snd (o : Out) (f : Consensus → Out) :
    (o.andThen f).2 = o.2 ++ (f o.1).2 := rfl

namespace Consensus

def new (selfId : NodeId) (cfg : Config) (seed : UInt64) : Consensus :=
  let electionBase := 10
  { selfId := selfId
    role := .follower
    hard := .default
    leader := none
    cfg := cfg
    campaign := none
    acked := fun _ => none
    behind := false
    unjoined := false
    sinceHeard := 0
    sinceQuorum := 0
    electionTimeout := electionBase + (Rng.new seed).nextU32.1 % electionBase
    electionBase := electionBase
    lease := electionBase - 2
    heartbeat := 3
    sinceHeartbeat := 0
    votes := ∅
    progress := fun _ => none
    ownLog := none
    agreed := 0
    receiving := none
    commit := 0
    applied := 0
    durable := 0
    lastTerm := 0
    lastRound := 0
    snapshotRound := 0
    snapshotTerm := 0
    rng := (Rng.new seed).nextU32.2 }

variable (s : Consensus)

def mayCampaign : Bool := !s.behind && !s.unjoined && s.cfg.contains s.selfId

/-- A new election timeout: the base plus a random part below it. -/
def drawTimeout : Consensus :=
  let base := max s.electionBase 1
  { s with electionTimeout := base + s.rng.nextU32.1 % base, rng := s.rng.nextU32.2 }

/-- Everyone else in the configuration, voters first. -/
def peerIds : List NodeId := s.cfg.known.filter (· ≠ s.selfId)

def campaignVoters : List NodeId :=
  match s.campaign with
  | some c => c.members.filter (· ≠ s.selfId)
  | none => []

def leaderIsLive : Bool :=
  s.leader.isSome && decide (s.sinceHeard < s.electionTimeout)

/-- `(cand_term, cand_round) >= (last_term, last_round)`. -/
def logIsAtLeastAsComplete (candTerm : Term) (candRound : Round) : Bool :=
  s.lastTerm < candTerm || (s.lastTerm = candTerm && s.lastRound ≤ candRound)

/-- Whether a campaign is under way in which this many votes are a majority. -/
def campaignWon : Bool :=
  match s.campaign with
  | some c => c.hasQuorum s.votes.card
  | none => false

def campaignContains (n : NodeId) : Bool :=
  match s.campaign with
  | some c => c.contains n
  | none => false

def sendTo (dst : NodeId) (body : Body) : Action :=
  .send ⟨s.selfId, dst, s.hard.term, body⟩

def becomeFollower (term : Term) (leader : Option NodeId) : Out :=
  let changed := s.role ≠ .follower ∨ s.hard.term ≠ term ∨ s.leader ≠ leader
  let hard := if s.hard.term = term then s.hard else ⟨term, none⟩
  ({ s with
      hard := hard
      role := .follower
      leader := leader
      campaign := none
      votes := ∅
      sinceHeard := 0 },
    (if s.hard.term = term then [] else [.persistHardState term none]) ++
      (if changed then [.roleChanged .follower term leader] else []))

@[simp] lemma becomeFollower_hard (l : Option NodeId) :
    (s.becomeFollower s.hard.term l).1.hard = s.hard := by simp [becomeFollower]

/-! ## The log -/

def ensureLog : Consensus :=
  match s.ownLog with
  | none => { s with ownLog := some (.rebased s.snapshotRound 0) }
  | some _ => s

@[simp] lemma ensureLog_hard : s.ensureLog.hard = s.hard := by
  unfold ensureLog
  split <;> rfl

@[simp] lemma receiving_ensureLog : s.ensureLog.receiving = s.receiving := by
  unfold ensureLog
  split <;> rfl

def modifyTail (f : LogTail → LogTail) : Consensus :=
  { s with ownLog := some (f (s.ownLog.getD (.rebased s.snapshotRound 0))) }

/-- The retained entry of a round. -/
def entryAt (s : Consensus) (round : Round) : Option Entry := s.ownLog.bind (·.entryAt round)

def termAt (s : Consensus) (round : Round) : Option Term :=
  if round = s.snapshotRound then some s.snapshotTerm else s.ownLog.bind (·.termAt round)

def digestAt (s : Consensus) (round : Round) : Option UInt64 := s.ownLog.bind (·.digestAt round)

def maxEntriesPerAppend : ℕ := 64

def entriesFrom (round : Round) : List Entry :=
  match s.ownLog with
  | some t => t.sliceFrom round maxEntriesPerAppend Wire.appendEntriesBudget
  | none => []

/-- The loop of `first_round_of_term_run`: back while the round below has the same term. -/
def termRunLoop (s : Consensus) (t : Term) : ℕ → Round
  | 0 => 0
  | lo + 1 =>
    if s.snapshotRound + 1 < lo + 1 ∧ s.termAt lo = some t then termRunLoop s t lo else lo + 1

def firstRoundOfTermRun (round : Round) : Round :=
  match s.termAt round with
  | none => round
  | some t => s.termRunLoop t round

def appendOwnEntry (command : Command) : Out :=
  let s := s.ensureLog
  let e : Entry := ⟨s.hard.term, s.lastRound + 1, command⟩
  ({ s.modifyTail (·.push e) with lastRound := e.round, lastTerm := e.term }, [.persist [e]])

@[simp] lemma appendOwnEntry_hard (c : Command) :
    (s.appendOwnEntry c).1.hard = s.hard := s.ensureLog_hard

/-- Rebuild a fresh node from its disk. -/
def restore (hard : HardState) (snapshotRound : Round) (snapshotTerm : Term)
    (baseDigest : UInt64) (entries : List Entry) : Consensus :=
  let kept := entries.filter (snapshotRound < ·.round)
  let last := kept.getLast?.elim (snapshotTerm, snapshotRound) fun e => (e.term, e.round)
  { s with
    hard := hard
    snapshotRound := snapshotRound
    snapshotTerm := snapshotTerm
    lastTerm := last.1
    lastRound := last.2
    ownLog := some (kept.foldl LogTail.push (.rebased snapshotRound baseDigest))
    durable := last.2
    commit := snapshotRound
    applied := snapshotRound }

/-! ## Peers -/

def peer (n : NodeId) : Progress := (s.progress n).getD .default

def setPeer (n : NodeId) (p : Progress) : Consensus :=
  { s with progress := Function.update s.progress n (some p) }

@[simp] lemma setPeer_hard (n : NodeId) (p : Progress) : (s.setPeer n p).hard = s.hard := rfl

@[simp] lemma peer_setPeer_self (n : NodeId) (p : Progress) :
    (s.setPeer n p).peer n = p := by simp [peer, setPeer]

lemma peer_setPeer_ne {n m : NodeId} (p : Progress) (h : m ≠ n) :
    (s.setPeer n p).peer m = s.peer m := by simp [peer, setPeer, h]

end Consensus

end FerroDb.Cluster
