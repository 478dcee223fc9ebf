import FerroDb.Library.Quorum
import FerroDb.Library.TermLog

/-!
# A replicated log with durable state

The protocol a term-based replicated log follows, cut into steps that each change one
node and make at most one thing visible: a durable write, or a message. A node's term,
vote and log are durable; how much of the log is known to be on the disk is `synced`,
and a crash may keep any prefix of the log from there on. Everything else is volatile.

Messages are never removed from `net`, so loss, delay, duplication and reordering are
all the same thing: when, how often and whether a message is read. Some messages carry
a log that no real message carries; it is there for the proofs, as are the four fields
of a `Cluster` after `net`: who won each term, the log that leader wrote, the log it
was elected with, and every ballot cast.

`snaps` says whether a node may replace its log by a prefix a leader sent whole. A crash
in the middle of that may leave any prefix of the old log, so with snaps a crash may also
lose entries that were synced.
-/

namespace FerroDb.Library.Raft

open Function (update)

inductive Role where
  | follower
  | candidate
  | leader

structure Node (N E : Type*) where
  term : ℕ
  vote : Option N
  role : Role
  votes : Finset N
  log : List E
  synced : ℕ
  /-- The term in which the end of the log was last written, if it was. -/
  written : Option ℕ
  /-- Reports of completed syncs, each with the term it was asked for in and the length. -/
  reports : Set (ℕ × ℕ)
  /-- The last term in which entries were replaced. -/
  rewritten : ℕ
  /-- How much of the log the node knows to be durable. -/
  durable : ℕ
  /-- How much of the log is known to agree with the leader of this term. -/
  agreed : ℕ
  commit : ℕ
  /-- How much of the log is kept only as state. -/
  floor : ℕ
  matched : N → ℕ

inductive Msg (N E : Type*) where
  | requestVote (t : ℕ) (c : N) (log : List E)
  | grant (t : ℕ) (v c : N)
  | append (t prev prevTerm : ℕ) (es : List E) (commit : ℕ)
  | ack (t : ℕ) (v : N) (m : ℕ)
  | snapshot (t : ℕ) (log : List E)

/-- Voter `v` voted for `c` in term `t`, holding `log`. -/
structure Ballot (N E : Type*) where
  t : ℕ
  v : N
  c : N
  log : List E

structure Cluster (N E : Type*) where
  node : N → Node N E
  net : Set (Msg N E)
  leaderOf : ℕ → Option N
  leaderLog : ℕ → List E
  baseLog : ℕ → List E
  ballots : Set (Ballot N E)

variable {N E : Type*}

/-- A node that has just started on a durable term, vote and log. -/
def Node.start (term : ℕ) (vote : Option N) (log : List E) (floor : ℕ) : Node N E where
  term := term
  vote := vote
  role := .follower
  votes := ∅
  log := log
  synced := log.length
  written := none
  reports := ∅
  rewritten := 0
  durable := log.length
  agreed := 0
  commit := floor
  floor := floor
  matched := fun _ => 0

/-- Every node fresh, nothing sent. -/
def Cluster.init : Cluster N E where
  node := fun _ => Node.start 0 none [] 0
  net := ∅
  leaderOf := fun _ => none
  leaderLog := fun _ => []
  baseLog := fun _ => []
  ballots := ∅

namespace Cluster

/-- Replace one node. -/
@[simps -fullyApplied net leaderOf leaderLog baseLog ballots]
def put [DecidableEq N] (c : Cluster N E) (i : N) (n : Node N E) : Cluster N E :=
  { c with node := update c.node i n }

/-- Add a message to the network. -/
@[simps -fullyApplied]
def send (c : Cluster N E) (m : Msg N E) : Cluster N E :=
  { c with net := insert m c.net }

/-- Record a ballot. -/
@[simps -fullyApplied]
def cast (c : Cluster N E) (b : Ballot N E) : Cluster N E :=
  { c with ballots := insert b c.ballots }

/-- Record that `i` won term `t` holding `log`. -/
@[simps -fullyApplied]
def elect (c : Cluster N E) (t : ℕ) (i : N) (log : List E) : Cluster N E :=
  { c with
    leaderOf := update c.leaderOf t (some i)
    leaderLog := update c.leaderLog t log
    baseLog := update c.baseLog t log }

/-- Record the log the leader of term `t` now has. -/
@[simps -fullyApplied]
def publish (c : Cluster N E) (t : ℕ) (log : List E) : Cluster N E :=
  { c with leaderLog := update c.leaderLog t log }

section Put
variable [DecidableEq N] (c : Cluster N E) (i j : N) (n : Node N E)

@[simp] lemma put_node_self : (c.put i n).node i = n := by simp [put]
lemma put_node_ne (h : j ≠ i) : (c.put i n).node j = c.node j := by simp [put, h]

end Put

end Cluster

variable [DecidableEq N] (tm : E → ℕ)

/-- The log matches a batch up to its `k`-th entry: it reaches `prev`, has the batch's
previous term there, and holds entries of the same terms as the first `k` of the batch. -/
def Matches (log : List E) (prev prevTerm : ℕ) (es : List E) (k : ℕ) : Prop :=
  prev + k ≤ log.length ∧ k ≤ es.length ∧ termAt tm log prev = prevTerm ∧
    ∀ j, 0 < j → j ≤ k → termAt tm es j = termAt tm log (prev + j)

variable {tm} in
omit [DecidableEq N] in
/-- With the rest of the batch appended, the log matches all of it. -/
lemma Matches.append_drop {log : List E} {prev prevTerm : ℕ} {es : List E} {k : ℕ}
    (h : Matches tm log prev prevTerm es k) (hlog : log.length = prev + k) :
    Matches tm (log ++ es.drop k) prev prevTerm es es.length := by
  obtain ⟨hlen, hk, hprev, hsame⟩ := h
  refine ⟨by simp; omega, le_rfl, ?_, fun j h0 hj => ?_⟩
  · rw [termAt_of_isPrefix (List.prefix_append _ _) (by omega), hprev]
  · rcases Nat.lt_or_ge k j with hlt | hge
    · obtain ⟨m, rfl⟩ : ∃ m, j = m + 1 := ⟨j - 1, by omega⟩
      have hidx : (log ++ es.drop k)[prev + m]? = es[m]? := by
        rw [List.getElem?_append_right (by omega), List.getElem?_drop]
        congr 1
        omega
      simp [termAt, hidx]
    · rw [termAt_of_isPrefix (List.prefix_append _ _) (by omega), hsame j h0 hge]

/-- One step of node `i`. -/
inductive Step (voters : Finset N) (snaps : Prop) (i : N) :
    Cluster N E → Cluster N E → Prop
  | raiseTerm {c t} (ht : (c.node i).term < t) :
      Step voters snaps i c (c.put i { c.node i with
        term := t, vote := none, role := .follower, votes := ∅, agreed := 0 })
  | stepDown {c} :
      Step voters snaps i c (c.put i { c.node i with
        role := .follower, votes := ∅, agreed := 0 })
  | stand {c} (hv : i ∈ voters) :
      Step voters snaps i c ((c.put i { c.node i with
        term := (c.node i).term + 1, vote := some i, role := .candidate, votes := {i},
        agreed := 0 }).cast ⟨(c.node i).term + 1, i, i, (c.node i).log⟩)
  | solicit {c} (hr : (c.node i).role = .candidate) :
      Step voters snaps i c (c.send (.requestVote (c.node i).term i (c.node i).log))
  | castVote {c k l} (hm : .requestVote (c.node i).term k l ∈ c.net)
      (hv : (c.node i).vote = none ∨ (c.node i).vote = some k)
      (hl : Covers tm l (c.node i).log) :
      Step voters snaps i c ((c.put i { c.node i with vote := some k }).cast
        ⟨(c.node i).term, i, k, (c.node i).log⟩)
  | sendGrant {c k l} (hb : ⟨(c.node i).term, i, k, l⟩ ∈ c.ballots) :
      Step voters snaps i c (c.send (.grant (c.node i).term i k))
  | countVote {c v} (hr : (c.node i).role = .candidate) (hv : v ∈ voters)
      (hm : .grant (c.node i).term v i ∈ c.net) :
      Step voters snaps i c (c.put i { c.node i with
        votes := insert v (c.node i).votes })
  | lead {c} (hr : (c.node i).role = .candidate) (hq : IsMajority voters (c.node i).votes) :
      Step voters snaps i c ((c.put i { c.node i with
        role := .leader, votes := ∅, matched := fun _ => 0 }).elect
          (c.node i).term i (c.node i).log)
  | appendOwn {c e} (hr : (c.node i).role = .leader) (he : tm e = (c.node i).term) :
      Step voters snaps i c ((c.put i { c.node i with
        log := (c.node i).log ++ [e], written := some (c.node i).term }).publish
          (c.node i).term ((c.node i).log ++ [e]))
  | sendAppend {c prev len} (hr : (c.node i).role = .leader)
      (hp : prev ≤ (c.node i).log.length) :
      Step voters snaps i c (c.send (.append (c.node i).term prev
        (termAt tm (c.node i).log prev) (((c.node i).log.drop prev).take len)
        (c.node i).commit))
  | truncate {c prev prevTerm es cm k} (hr : (c.node i).role = .follower)
      (hm : .append (c.node i).term prev prevTerm es cm ∈ c.net)
      (hk : Matches tm (c.node i).log prev prevTerm es k)
      (hes : k < es.length) (hlog : prev + k < (c.node i).log.length)
      (hne : termAt tm es (k + 1) ≠ termAt tm (c.node i).log (prev + k + 1))
      (hc : (c.node i).commit < prev + k + 1) :
      Step voters snaps i c (c.put i { c.node i with
        log := (c.node i).log.take (prev + k)
        synced := min (c.node i).synced (prev + k)
        written := none
        rewritten := (c.node i).term
        durable := min (c.node i).durable (prev + k)
        agreed := min (c.node i).agreed (prev + k) })
  | extend {c prev prevTerm es cm k} (hr : (c.node i).role = .follower)
      (hm : .append (c.node i).term prev prevTerm es cm ∈ c.net)
      (hk : Matches tm (c.node i).log prev prevTerm es k)
      (hlog : (c.node i).log.length = prev + k) :
      Step voters snaps i c (c.put i { c.node i with
        log := (c.node i).log ++ es.drop k, written := some (c.node i).term })
  | agree {c prev prevTerm es cm} (hr : (c.node i).role = .follower)
      (hm : .append (c.node i).term prev prevTerm es cm ∈ c.net)
      (hk : Matches tm (c.node i).log prev prevTerm es es.length) :
      Step voters snaps i c (c.put i { c.node i with
        agreed := max (c.node i).agreed (prev + es.length) })
  | learnCommit {c prev prevTerm es cm} (hr : (c.node i).role = .follower)
      (hm : .append (c.node i).term prev prevTerm es cm ∈ c.net) :
      Step voters snaps i c (c.put i { c.node i with
        commit := max (c.node i).commit (min cm (c.node i).agreed) })
  | sendAck {c m} (hd : m ≤ (c.node i).durable)
      (ha : m ≤ (c.node i).agreed ∨ (c.node i).role = .leader) :
      Step voters snaps i c (c.send (.ack (c.node i).term i m))
  | recvAck {c v m} (hr : (c.node i).role = .leader)
      (hm : .ack (c.node i).term v m ∈ c.net) :
      Step voters snaps i c (c.put i { c.node i with
        matched := update (c.node i).matched v (max ((c.node i).matched v) m) })
  | forget {c v} :
      Step voters snaps i c (c.put i { c.node i with
        matched := update (c.node i).matched v 0 })
  | advance {c Q q} (hr : (c.node i).role = .leader) (hQ : IsMajority voters Q)
      (hq : ∀ v ∈ Q, q ≤ (c.node i).matched v) (h0 : (c.node i).commit < q)
      (ht : termAt tm (c.node i).log q = (c.node i).term) :
      Step voters snaps i c (c.put i { c.node i with commit := q })
  | sync {c t} (hw : (c.node i).written = some t) :
      Step voters snaps i c (c.put i { c.node i with
        synced := (c.node i).log.length
        reports := insert (t, (c.node i).log.length) (c.node i).reports })
  | report {c t r r'} (hm : (t, r') ∈ (c.node i).reports) (hr : r ≤ r')
      (ht : (c.node i).rewritten ≤ t) :
      Step voters snaps i c (c.put i { c.node i with
        durable := max (c.node i).durable (min r (c.node i).log.length) })
  | compact {c f} (hf : f ≤ (c.node i).commit)
      (hd : ¬ snaps → f ≤ (c.node i).durable) :
      Step voters snaps i c (c.put i { c.node i with floor := f })
  | crash {c k} (hs : ¬ snaps → (c.node i).synced ≤ k) (hk : k ≤ (c.node i).log.length) :
      Step voters snaps i c (c.put i
        (Node.start (c.node i).term (c.node i).vote ((c.node i).log.take k) (c.node i).floor))
  | sendSnapshot {c r} (hr : (c.node i).role = .leader) (hl : r ≤ (c.node i).log.length) :
      Step voters snaps i c (c.send
        (.snapshot (c.node i).term ((c.node i).log.take r)))
  | install {c t l n} (htr : snaps) (hm : .snapshot t l ∈ c.net)
      (hr : (c.node i).role ≠ .leader)
      (ht : t < (c.node i).term ∨ t = (c.node i).term ∧ (c.node i).role = .follower)
      (hterm : n.term = (c.node i).term) (hvote : n.vote = (c.node i).vote)
      (hrole : n.role = (c.node i).role) (hvotes : n.votes = (c.node i).votes)
      (hlog : n.log = l) :
      Step voters snaps i c (c.put i n)

variable {tm}

/-- A step of one node leaves every other node as it is. -/
lemma Step.node_ne {voters : Finset N} {snaps : Prop} {i j : N} {c c' : Cluster N E}
    (hs : Step tm voters snaps i c c') (hj : j ≠ i) : c'.node j = c.node j := by
  cases hs <;> simp [Cluster.put_node_ne _ _ _ _ hj]

variable (tm)

/-- Any node takes a step. -/
def Move (voters : Finset N) (snaps : Prop) (c c' : Cluster N E) : Prop :=
  ∃ i, Step tm voters snaps i c c'

/-- Any number of steps. -/
abbrev Moves (voters : Finset N) (snaps : Prop) : Cluster N E → Cluster N E → Prop :=
  Relation.ReflTransGen (Move tm voters snaps)

/-- The states a cluster that starts fresh can be in. -/
def Reachable (voters : Finset N) (snaps : Prop) (c : Cluster N E) : Prop :=
  Moves tm voters snaps Cluster.init c

end FerroDb.Library.Raft
