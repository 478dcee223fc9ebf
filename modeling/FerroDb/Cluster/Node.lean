import FerroDb.Cluster.Step

/-!
# The driver, its disk, and a cluster of nodes

`consensus/node.rs` performs the actions of a step one after another against the round log of
`consensus/log.rs` and the hard-state file. A crash may come between any two of them, or inside
an append before it is synced (`CrashPoint`); the node then starts again from what its disk
holds, where the log may have lost any part that was never synced (`RoundLog.Survives`).

Finished syncs wait in `pending` and are reported at any later time, in any order; the driver's
queue is one such order. An install reports itself before the node takes another event.
Messages that were sent stay in `net`, so that they can be delivered late, twice, out of order,
or never.
-/

namespace FerroDb.Cluster

/-! ## The round log -/

inductive LogError where
  | compacted (asked floor : Round)
  | notFound (asked first last : Round)
  | nonContiguous (expected got : Round)
  | termWentBackwards (last got : Term)
  | termMismatch (round : Round) (held claimed : Term)
  | tooLarge (bytes limit : ℕ)
  | corrupt (msg : String)
deriving DecidableEq

structure RoundLog where
  snapshotRound : Round
  snapshotTerm : Term
  entries : List Entry
  durableRound : Round
deriving DecidableEq

namespace RoundLog

def empty : RoundLog := ⟨0, 0, [], 0⟩

variable (l : RoundLog)

def firstRound : Round := l.snapshotRound + 1

def lastRound : Round := l.snapshotRound + l.entries.length

def lastTerm : Term := l.entries.getLast?.elim l.snapshotTerm Entry.term

def checkReadable (round : Round) : Except LogError Unit :=
  if round = 0 then .error (.notFound 0 l.firstRound l.lastRound)
  else if round ≤ l.snapshotRound then .error (.compacted round l.snapshotRound)
  else .ok ()

def entry (round : Round) : Except LogError Entry := do
  l.checkReadable round
  match l.entries[round - l.firstRound]? with
  | some e => return e
  | none => throw (.notFound round l.firstRound l.lastRound)

def termAt (round : Round) : Except LogError Term :=
  if round = 0 then .ok 0
  else if round = l.snapshotRound then .ok l.snapshotTerm
  else (l.entry round).map Entry.term

/-- The batch continues the log: no hole, and no term going backwards. -/
def checkBatch (expect : Round) (prevTerm : Term) : List Entry → Except LogError Unit
  | [] => .ok ()
  | e :: es =>
    if e.round ≠ expect then .error (.nonContiguous expect e.round)
    else if e.term < prevTerm then .error (.termWentBackwards prevTerm e.term)
    else checkBatch (expect + 1) e.term es

def append (es : List Entry) : Except LogError RoundLog := do
  checkBatch (l.lastRound + 1) l.lastTerm es
  return { l with entries := l.entries ++ es }

def sync : RoundLog := { l with durableRound := l.lastRound }

def truncateFrom (start : Round) : Except LogError RoundLog := do
  l.checkReadable start
  if l.lastRound < start then
    if start = l.lastRound + 1 then return l
    else throw (.notFound start l.firstRound l.lastRound)
  else
    return { l with
      entries := l.entries.take (start - l.firstRound)
      durableRound := min l.durableRound (start - 1) }

def discardPrefix (through : Round) (term : Term) : Except LogError RoundLog := do
  if through < l.snapshotRound then return l
  if through = l.snapshotRound then
    if term ≠ l.snapshotTerm then throw (.termMismatch through l.snapshotTerm term)
    return l
  if through ≤ l.lastRound then
    let held ← l.entry through
    if held.term ≠ term then throw (.termMismatch through held.term term)
  let survivors := l.entries.drop (through - l.snapshotRound)
  return ⟨through, term, survivors, through + survivors.length⟩

/-- What a crash may leave of a log: at least everything synced. -/
def Survives (l l' : RoundLog) : Prop :=
  ∃ k ≤ l.entries.length, l.durableRound ≤ l.snapshotRound + k ∧
    l' = ⟨l.snapshotRound, l.snapshotTerm, l.entries.take k, l.snapshotRound + k⟩

end RoundLog

/-! ## The driver -/

inductive NodeError where
  | log (e : LogError)
  | snapshot (e : SnapshotError)
  /-- The applied cursor was left behind a checkpoint or an install. -/
  | behindFloor (next floor : Round)

structure Node where
  sm : Consensus
  /-- The hard-state file. -/
  hard : HardState
  log : RoundLog
  /-- Handed to the transport since the last time the network was fed. -/
  outbox : List Message
  applied : Round
  /-- Every entry this node ever applied, with the term the node was in. -/
  appliedLog : List (Term × Entry)
  /-- Finished syncs, waiting to be reported. -/
  pending : List (Term × Round)
  /-- Every change of role this node ever reported. -/
  transitions : List (Role × Term × Option NodeId)
  groupCommit : Bool
  deferred : Option (Term × Round)

namespace Node

variable (n : Node)

def flushDeferred : Node :=
  match n.deferred with
  | none => n
  | some report =>
    { n with log := n.log.sync, pending := n.pending ++ [report], deferred := none }

/-- Actions that may run while a sync is deferred. -/
def passesDeferred : Action → Bool
  | .send _ | .persist _ | .apply _ => true
  | _ => false

/-- Apply the next `count` rounds from the log. -/
def applyLoop : ℕ → Node → Except NodeError Node
  | 0, n => .ok n
  | count + 1, n =>
    let next := n.applied + 1
    if next ≤ n.log.snapshotRound then .error (.behindFloor next n.log.snapshotRound)
    else
      match n.log.entry next with
      | .error e => .error (.log e)
      | .ok e =>
        applyLoop count { n with
          applied := next, appliedLog := n.appliedLog ++ [(n.sm.hard.term, e)] }

def persistEntries (entries : List Entry) : Except NodeError Node :=
  match entries.getLast? with
  | none => .ok n
  | some last =>
    match n.log.append entries with
    | .error e => .error (.log e)
    | .ok log =>
      if n.groupCommit then
        .ok { n with
          log := log
          deferred := some (n.deferred.elim n.sm.hard.term Prod.fst, last.round) }
      else
        .ok { n with
          log := log.sync, pending := n.pending ++ [(n.sm.hard.term, last.round)] }

def performNow : Action → Except NodeError Node
  | .send m => .ok { n with outbox := n.outbox ++ [m] }
  | .persistHardState term votedFor => .ok { n with hard := ⟨term, votedFor⟩ }
  | .persist entries => n.persistEntries entries
  | .truncate start =>
    match n.log.truncateFrom start with
    | .error e => .error (.log e)
    | .ok log => .ok { n with log := log }
  | .apply through => applyLoop (through - n.applied) n
  | .roleChanged role term leader =>
    .ok { n with transitions := n.transitions ++ [(role, term, leader)] }
  | .refuse _ => .ok n

def perform (a : Action) : Except NodeError Node :=
  (if passesDeferred a then n else n.flushDeferred).performNow a

def performAll (n : Node) : List Action → Except NodeError Node
  | [] => .ok n
  | a :: as => (n.perform a).bind (performAll · as)

/-- The node with the state machine already past the event, and nothing performed yet. -/
def stepped (ev : Event) : Node := { n with sm := (n.sm.step ev).1 }

def handle (ev : Event) : Except NodeError Node :=
  (n.stepped ev).performAll (n.sm.step ev).2

/-- The states a crash can find while these actions are performed: before each of them, and
with entries written that are not synced yet. -/
inductive CrashPoint : Node → List Action → Node → Prop
  | here {n as} : CrashPoint n as n
  | torn {n es as log} (h : n.log.append es = .ok log) :
      CrashPoint n (.persist es :: as) { n with log := log }
  | later {n n' a as n''} (h : n.perform a = .ok n') (hc : CrashPoint n' as n'') :
      CrashPoint n (a :: as) n''

/-- Start again from the disk. -/
def restart (cfg : Config) (seed digest : UInt64) (log : RoundLog) : Node :=
  { sm := (Consensus.new n.sm.selfId cfg seed).restore n.hard log.snapshotRound
      log.snapshotTerm digest log.entries
    hard := n.hard
    log := log
    outbox := n.outbox
    applied := log.snapshotRound
    appliedLog := n.appliedLog
    pending := []
    transitions := n.transitions
    groupCommit := false
    deferred := none }

/-- A node that has never run. -/
def fresh (cfg : Config) (i : NodeId) (seed : UInt64) : Node :=
  { sm := (Consensus.new i cfg seed).restore .default 0 0 0 []
    hard := .default
    log := .empty
    outbox := []
    applied := 0
    appliedLog := []
    pending := []
    transitions := []
    groupCommit := false
    deferred := none }

/-- Discard what lies `keep` rounds below the applied cursor. -/
def checkpoint (keep : ℕ) : Except NodeError Node :=
  let through := n.applied - keep
  if through ≤ n.log.snapshotRound ∨ through = 0 then .ok n
  else
    match n.log.termAt through with
    | .error e => .error (.log e)
    | .ok term =>
      match n.sm.compact through with
      | .error e => .error (.snapshot e)
      | .ok sm =>
        match n.log.discardPrefix through term with
        | .error e => .error (.log e)
        | .ok log => .ok { n with sm := sm, log := log }

/-- The log with every entry above the floor removed. -/
def emptiedLog : Except LogError RoundLog :=
  if n.log.entries.isEmpty then .ok n.log else n.log.truncateFrom n.log.firstRound

/-- Put a transfer that arrived whole in place of the log. -/
def installPending (cur : RecvCursor) : Except LogError Node := do
  let log ← n.emptiedLog
  let log ← log.discardPrefix cur.info.lastRound cur.info.lastTerm
  return { n with log := log, applied := max n.applied cur.info.lastRound }

end Node

/-! ## The cluster -/

structure World where
  node : NodeId → Node
  net : Set Message

namespace World

def init (cfg : Config) (seeds : NodeId → UInt64) : World where
  node := fun i => Node.fresh cfg i (seeds i)
  net := ∅

/-- Replace a node, and give its outbox to the network. -/
def set (w : World) (i : NodeId) (n : Node) : World where
  node := Function.update w.node i { n with outbox := [] }
  net := w.net ∪ { m | m ∈ n.outbox }

/-- The events a node can be given. -/
def Deliverable (w : World) (i : NodeId) : Event → Prop
  | .tick => True
  | .recv m => m ∈ w.net ∧ m.dst = i
  | .persisted term round => (term, round) ∈ (w.node i).pending
  | .propose _ => True

/-- One step of the cluster. Every node runs with configuration `cfg`; `snaps` says whether
leaders may offer snapshots. -/
inductive Step (cfg : Config) (snaps : Prop) : World → World → Prop
  | event {w i ev n} (hp : (w.node i).sm.pendingInstallRound = none) (hd : w.Deliverable i ev)
      (h : (w.node i).handle ev = .ok n) : Step cfg snaps w (w.set i n)
  | crash {w i ev n log seed digest} (hp : (w.node i).sm.pendingInstallRound = none)
      (hd : w.Deliverable i ev)
      (hc : Node.CrashPoint ((w.node i).stepped ev) ((w.node i).sm.step ev).2 n)
      (hs : n.log.Survives log) : Step cfg snaps w (w.set i (n.restart cfg seed digest log))
  | halt {w i log seed digest} (hs : (w.node i).log.Survives log) :
      Step cfg snaps w (w.set i ((w.node i).restart cfg seed digest log))
  | flush {w i} : Step cfg snaps w (w.set i (w.node i).flushDeferred)
  | setGroupCommit {w i on} :
      Step cfg snaps w (w.set i { w.node i with groupCommit := on })
  | checkpoint {w i keep n} (hp : (w.node i).sm.pendingInstallRound = none)
      (h : (w.node i).checkpoint keep = .ok n) :
      Step cfg snaps w (w.set i n)
  | offer {w i k point root cat label arena branches redo image snap sm} (htr : snaps)
      (hp : (w.node i).sm.snapshotPoint = some point)
      (hb : Snapshot.build point root cat label arena branches redo image = .ok snap)
      (h : (w.node i).sm.offerSnapshotTo k snap = .ok sm) :
      Step cfg snaps w (w.set i { w.node i with sm := sm })
  | install {w i cur n n'} (hr : (w.node i).sm.receiving = some cur) (hcomp : cur.complete)
      (hi : (w.node i).installPending cur = .ok n)
      (h : n.handle (.persisted n.sm.hard.term cur.info.lastRound) = .ok n') :
      Step cfg snaps w (w.set i n')
  | tornInstall {w i cur emptied log seed digest} (hr : (w.node i).sm.receiving = some cur)
      (hcomp : cur.complete) (he : (w.node i).emptiedLog = .ok emptied)
      (hs : emptied.Survives log) :
      Step cfg snaps w (w.set i ((w.node i).restart cfg seed digest log))
  | crashInstall {w i cur n n' log seed digest} (hr : (w.node i).sm.receiving = some cur)
      (hcomp : cur.complete) (hi : (w.node i).installPending cur = .ok n)
      (hc : Node.CrashPoint (n.stepped (.persisted n.sm.hard.term cur.info.lastRound))
        (n.sm.step (.persisted n.sm.hard.term cur.info.lastRound)).2 n')
      (hs : n'.log.Survives log) : Step cfg snaps w (w.set i (n'.restart cfg seed digest log))

/-- The states a cluster reaches from fresh disks while no term has run into `u64::MAX`. -/
inductive Reachable (cfg : Config) (snaps : Prop) : World → Prop
  | init (seeds : NodeId → UInt64) : Reachable cfg snaps (init cfg seeds)
  | step {w w'} (h : Reachable cfg snaps w) (hs : Step cfg snaps w w')
      (hb : ∀ i, (w'.node i).sm.hard.term < u64Max) : Reachable cfg snaps w'

lemma Reachable.term_lt {cfg : Config} {snaps : Prop} {w : World}
    (h : Reachable cfg snaps w) (i : NodeId) : (w.node i).sm.hard.term < u64Max := by
  cases h with
  | init seeds => exact (by decide : 0 < u64Max)
  | step _ _ hb => exact hb i

end World

end FerroDb.Cluster
