import FerroDb.Catalog
import Mathlib.Data.Finset.Card
import Mathlib.Data.List.Sort
import Mathlib.Tactic

/-!
# The vocabulary of consensus

Terms, rounds, configurations, commands, messages, events and actions, as `consensus/mod.rs`
and `consensus/config.rs` declare them. Terms and rounds are natural numbers; the one place
the source saturates a term at `u64::MAX` keeps that bound explicitly.
-/

namespace FerroDb.Cluster

abbrev Term := ℕ
/-- A position in the replicated log, counted from one. Zero is before the log begins. -/
abbrev Round := ℕ
abbrev NodeId := ℕ

def u64Max : ℕ := 2 ^ 64 - 1
def u32Max : ℕ := 2 ^ 32 - 1

/-- `u64::saturating_add`. -/
def satAdd64 (a b : ℕ) : ℕ := min (a + b) u64Max
/-- `u32::saturating_add`. -/
def satAdd32 (a b : ℕ) : ℕ := min (a + b) u32Max

/-- The `Display` of a node id. -/
def showNode (n : NodeId) : String := s!"n{n}"

/-! ## Configurations -/

/-- A configuration version paired with the term that created it. -/
structure CfgAt where
  version : ℕ
  term : Term
deriving DecidableEq

/-- The derived order: version first, then term. -/
def CfgAt.lt (a b : CfgAt) : Prop := a.version < b.version ∨ a.version = b.version ∧ a.term < b.term

instance (a b : CfgAt) : Decidable (a.lt b) := by unfold CfgAt.lt; infer_instance

/-- The later of two, as `Iterator::max` keeps it. -/
def CfgAt.max (a b : CfgAt) : CfgAt := if b.lt a then a else b

/-- The voter set, strictly ascending as `Config::new` leaves it, and the learners. -/
structure Config where
  members : List NodeId
  learners : List NodeId
  version : ℕ
  term : Term
  ascending : members.Pairwise (· < ·)
deriving DecidableEq

namespace Config

variable (c : Config)

def contains (n : NodeId) : Bool := n ∈ c.members

def isKnown (n : NodeId) : Bool := n ∈ c.members || n ∈ c.learners

def isEmpty (c : Config) : Bool := c.members.isEmpty

def quorum : ℕ := c.members.length / 2 + 1

/-- Whether this many votes are a majority. Never of an empty configuration. -/
def hasQuorum (votes : ℕ) : Bool := !c.members.isEmpty && c.quorum ≤ votes

def «at» : CfgAt := ⟨c.version, c.term⟩

/-- Voters, then learners. -/
def known : List NodeId := c.members ++ c.learners

def voters : Finset NodeId := c.members.toFinset

lemma nodup : c.members.Nodup := c.ascending.imp Nat.ne_of_lt

lemma card_voters : c.voters.card = c.members.length :=
  List.toFinset_card_of_nodup c.nodup

@[simp] lemma mem_voters {c : Config} {n : NodeId} : n ∈ c.voters ↔ c.contains n = true := by
  simp [voters, contains]

/-- Voters 1 and 2. -/
def pair (version : ℕ) (term : Term) : Config := ⟨[1, 2], [], version, term, by decide⟩

end Config

/-! ## What a round carries -/

inductive ColumnAlteration where
  | add (column : String)
  | rename (old new : String)
  | retype (column : String) (old : DataType)
deriving DecidableEq

inductive DdlOp where
  | createTable
  | dropTable
  | alterColumn (alt : ColumnAlteration)
deriving DecidableEq

inductive BranchOp where
  | fork (child parent forkEpoch leaseMillis : ℕ)
  | merge (branch : ℕ) (baseRound : Round)
  | abandon (branch : ℕ)
  | reap (branch generation : ℕ)
deriving DecidableEq

inductive Command where
  | walBatch (startLsn : ℕ) (bytes : List UInt8)
  | catalog (op : DdlOp) (table : String) (columns : List (String × DataType × Bool))
  | branch (op : BranchOp)
  | arenaGrant (node : NodeId) (firstPage pageCount : ℕ)
  | txnIdRange (node : NodeId) (lo hi : ℕ)
  | leaseTick (unixMillis : ℕ)
  | checkpoint
  | membership (config : Config)
  | noOp
deriving DecidableEq

structure Entry where
  term : Term
  round : Round
  command : Command
deriving DecidableEq

inductive Role where
  | follower
  | preCandidate
  | candidate
  | leader
deriving DecidableEq

/-- The `Display` of a role. -/
def Role.show : Role → String
  | .follower => "follower"
  | .preCandidate => "pre-candidate"
  | .candidate => "candidate"
  | .leader => "leader"

/-- What a snapshot covers. -/
structure SnapshotMeta where
  lastRound : Round
  lastTerm : Term
  config : Config
  totalBytes : ℕ
deriving DecidableEq

/-! ## Messages, events, actions -/

inductive Body where
  | preVote (lastTerm : Term) (lastRound : Round)
  | preVoteResp (granted : Bool)
  | requestVote (lastTerm : Term) (lastRound : Round)
  | requestVoteResp (granted : Bool)
  | append (prevRound : Round) (prevTerm : Term) (entries : List Entry) (commit : Round)
  | appendResp (success : Bool) (matched hint : Round) (digest : UInt64)
  | installSnapshot (snap : SnapshotMeta) (offset : ℕ) (data : List UInt8) (done : Bool)
  | installSnapshotResp (receivedThrough : ℕ)
deriving DecidableEq

/-- `src` and `dst` are the source's `from` and `to`. -/
structure Message where
  src : NodeId
  dst : NodeId
  term : Term
  body : Body
deriving DecidableEq

inductive Event where
  | tick
  | recv (m : Message)
  | persisted (term : Term) (round : Round)
  | propose (c : Command)
deriving DecidableEq

inductive Action where
  | send (m : Message)
  | persist (entries : List Entry)
  | persistHardState (term : Term) (votedFor : Option NodeId)
  | apply (through : Round)
  | truncate (start : Round)
  | roleChanged (role : Role) (term : Term) (leader : Option NodeId)
  | refuse (why : FerroError)
deriving DecidableEq

/-- The part of a node's state that must be durable before anyone is told about it. -/
structure HardState where
  term : Term
  votedFor : Option NodeId
deriving DecidableEq

def HardState.default : HardState := ⟨0, none⟩

namespace Body

/-- Whether the sender waits for an answer. -/
def isRequest : Body → Bool
  | preVote .. | requestVote .. | append .. | installSnapshot .. => true
  | _ => false

/-- The answer a stale request gets; a response gets none. -/
def staleRefusal : Body → Option Body
  | preVote .. => some (preVoteResp false)
  | requestVote .. => some (requestVoteResp false)
  | append .. => some (appendResp false 0 0 0)
  | installSnapshot .. => some (installSnapshotResp 0)
  | _ => none

/-- Pre-vote messages name a term nobody has entered yet. -/
def hypothetical : Body → Bool
  | preVote .. | preVoteResp .. => true
  | _ => false

end Body

/-! ## Randomness -/

/-- The generator the election timeout is drawn from. -/
structure Rng where
  state : UInt64
deriving DecidableEq

namespace Rng

def new (seed : UInt64) : Rng := ⟨if seed = 0 then 0x9E3779B97F4A7C15 else seed⟩

def nextU64 (r : Rng) : UInt64 × Rng :=
  let x := r.state
  let x := x ^^^ (x >>> 12)
  let x := x ^^^ (x <<< 25)
  let x := x ^^^ (x >>> 27)
  (x * 0x2545F4914F6CDD1D, ⟨x⟩)

def nextU32 (r : Rng) : ℕ × Rng := ((r.nextU64.1 >>> 32).toNat, r.nextU64.2)

end Rng

end FerroDb.Cluster
