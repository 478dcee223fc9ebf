import FerroDb.Replication.Logical

/-!
# Streaming the change feed

`FeedStreamer::pump` and `Subscription::pump` of `replication/stream.rs`, and the runs of a
subscription beside a growing log. Every table is published, nothing was snapshotted before, and
the sink takes what it is given, so the sink is the list of the events it received.

The log is the one of a process that may stop: what was not flushed is then gone, and a new decoder
goes on from the cursor and the last commit that were saved. A reader that restarts alone does the
same over the log as it is.

## Main definitions

* `FeedStreamer.pump`, `Subscription.pump` — one batch.
* `Feed.step`, `Feed.run` — a subscription over a growing log.
-/

namespace FerroDb.Replication

open Sql Wal

structure Pumped where
  emitted : ℕ
  cursor : ℕ
  emittedThrough : ℕ
  frontier : ℕ
  withheld : ℕ
  unresolved : ℕ
  undecodable : ℕ
  unattributed : ℕ
deriving DecidableEq

structure FeedStreamer where
  decoder : LogicalDecoder
  maxBytes : ℕ

namespace FeedStreamer

def new (decoder : LogicalDecoder) : FeedStreamer := ⟨decoder, 2 ^ 20⟩

def withMaxBytes (s : FeedStreamer) (maxBytes : ℕ) : FeedStreamer :=
  { s with maxBytes := max maxBytes 1 }

def startCursor (wal : WalManager) : ℕ := wal.baseLsn

def truncatedAway (cursor base : ℕ) : FerroError :=
  .wal (s!"cursor {cursor} is below the log's base {base}: the records it points at have been " ++
    "truncated away, so resuming there would silently skip everything between. Take a " ++
    s!"new snapshot of the tables and restart the feed from {base}.")

variable (deserialize : Schema → List UInt8 → Except FerroError Row)

/-- The largest of the numbers, and `n` if there is none larger. -/
def maxFrom (n : ℕ) (ns : List ℕ) : ℕ := ns.foldl max n

/-- What was decoded, delivered: the cursor moves past the last commit read, but not past the first
change that is still open. -/
def deliver (cursor emittedThrough frontier : ℕ) (decoded : Decoded) : Pumped × List ChangeEvent :=
  let owned := decoded.events.filter (emittedThrough < ·.commitLsn)
  let emittedMax := maxFrom cursor (decoded.events.map ChangeEvent.commitEndLsn)
  let next := match decoded.openFrom with
    | some openFrom => min emittedMax openFrom
    | none => emittedMax
  let pumped : Pumped := {
    emitted := owned.length
    cursor := next
    emittedThrough := maxFrom emittedThrough (owned.map ChangeEvent.commitLsn)
    frontier
    withheld := decoded.opened.length
    unresolved := decoded.unresolved.values.sum
    undecodable := decoded.undecodable.values.sum
    unattributed := owned.countP fun e => e.op.isWrite && e.writer.isNone }
  (pumped, owned)

/-- One batch, with the events it writes. -/
def pump (s : FeedStreamer) (wal : WalManager) (cursor emittedThrough : ℕ) :
    Except FerroError (Pumped × List ChangeEvent) × FeedStreamer :=
  let frontier := wal.flushedLsn
  if cursor < wal.baseLsn then (.error (truncatedAway cursor wal.baseLsn), s)
  else if frontier ≤ cursor then
    (.ok (⟨0, cursor, emittedThrough, frontier, 0, 0, 0, 0⟩, []), s)
  else
    let toLsn := min frontier (cursor + s.maxBytes)
    match s.decoder.decode deserialize wal cursor toLsn with
    | (.error e, decoder) => (.error e, { s with decoder })
    | (.ok decoded, decoder) =>
      (.ok (deliver cursor emittedThrough frontier decoded), { s with decoder })

end FeedStreamer

structure Subscription where
  cursor : ℕ
  emittedThrough : ℕ
deriving DecidableEq

namespace Subscription

def new (cursor : ℕ) : Subscription := ⟨cursor, 0⟩

def fromStart (wal : WalManager) : Subscription := new (FeedStreamer.startCursor wal)

def resume (cursor emittedThrough : ℕ) : Subscription := ⟨cursor, emittedThrough⟩

variable (deserialize : Schema → List UInt8 → Except FerroError Row)

/-- The subscription after the batch, the streamer and what was written. A batch that fails leaves
the subscription where it was. -/
def pump (sub : Subscription) (streamer : FeedStreamer) (wal : WalManager) :
    Except FerroError (Subscription × List ChangeEvent) × FeedStreamer :=
  match streamer.pump deserialize wal sub.cursor sub.emittedThrough with
  | (.error e, streamer) => (.error e, streamer)
  | (.ok (pumped, events), streamer) =>
    (.ok (⟨pumped.cursor, pumped.emittedThrough⟩, events), streamer)

end Subscription

/-! ## A subscription beside the log -/

structure Feed where
  wal : WalManager
  streamer : FeedStreamer
  sub : Subscription
  sink : List ChangeEvent

/-- What happens: the log grows and is flushed, a batch is pumped, the reader restarts with a batch
size, or the whole process does and the log loses its unflushed end. -/
inductive Action where
  | append (txnId prevLsn : ℕ) (kind : RecKind)
  | flush
  | pump
  | restart (maxBytes : ℕ)
  | crash (maxBytes : ℕ)

/-- The log as a process finds it that starts anew. -/
def durable (wal : WalManager) : WalManager :=
  { wal with
    records := wal.records.filter (·.lsn < wal.flushedLsn)
    nextLsn := wal.flushedLsn }

namespace Feed

variable (deserialize : Schema → List UInt8 → Except FerroError Row) (mapping : Mapping)

/-- A streamer as it is built on every start. -/
def freshStreamer (maxBytes : ℕ) : FeedStreamer :=
  (FeedStreamer.new (.new mapping)).withMaxBytes maxBytes

def init (maxBytes : ℕ) : Feed :=
  ⟨.new, freshStreamer mapping maxBytes, .fromStart .new, []⟩

def reopen (f : Feed) (maxBytes : ℕ) : Feed :=
  { f with
    streamer := freshStreamer mapping maxBytes
    sub := .resume f.sub.cursor f.sub.emittedThrough }

def step (f : Feed) : Action → Feed
  | .append txnId prevLsn kind => { f with wal := (f.wal.append txnId prevLsn kind).2 }
  | .flush => { f with wal := f.wal.flush }
  | .pump =>
    match f.sub.pump deserialize f.streamer f.wal with
    | (.error _, streamer) => { f with streamer }
    | (.ok (sub, events), streamer) => { f with streamer, sub, sink := f.sink ++ events }
  | .restart maxBytes => f.reopen mapping maxBytes
  | .crash maxBytes => { f.reopen mapping maxBytes with wal := durable f.wal }

def run (maxBytes : ℕ) (actions : List Action) : Feed :=
  actions.foldl (step deserialize mapping) (init mapping maxBytes)

end Feed

end FerroDb.Replication
