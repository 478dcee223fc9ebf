import FerroDb.Cluster.State
import FerroDb.Library.Fallible
import FerroDb.Library.Grouping
import FerroDb.Library.Quorum

/-!
# Membership changes

`consensus/membership.rs`, with the constructors of `consensus/config.rs`. A change moves one node
from one standing to the next, so the majorities before and after it meet. Who holds the
configuration in force is told by the order of the acknowledged pairs, which puts the version before
the term: what another term made of the same version is counted too.

A refusal is kept as what its text is made from.
-/

namespace FerroDb.Cluster

open Library List Except

inductive Standing where
  | absent
  | learner
  | voter
deriving DecidableEq

inductive Change where
  | addLearner (n : NodeId)
  | promote (n : NodeId)
  | demote (n : NodeId)
  | remove (n : NodeId)

inductive OwnTermCommitted where
  | yes
  | notYet
deriving DecidableEq

inductive Refusal where
  | notLeader
  | ownTerm (term : Term)
  | emptyVoters (cfg : Config)
  | version (proposed inForce : ℕ)
  | term (created leader : Term)
  | moves (moved : List (NodeId × Standing × Standing))
  | addsVoter (n : NodeId)
  | removesVoter (n : NodeId)
  | itself (verb : String) (n : NodeId)
  | notCaughtUp (n : NodeId) (matched : Option Round) (commit : Round)
  | noProvenance (cfg : Config)
  | notDurable (want : CfgAt) (holders voters needed : ℕ)
  | stands (change : Change) (standing : Standing)

/-- The configuration entries of one log, where versions only go up. -/
structure ConfigLog where
  entries : List CfgAt
  ascending : entries.Pairwise (·.version < ·.version)

namespace ConfigLog

variable (log : ConfigLog) (want a : CfgAt)

/-- The entry itself, or one appended after it. -/
def Reaches : Prop := a = want ∨ [want, a].Sublist log.entries

instance : Decidable (log.Reaches want a) := by unfold Reaches; infer_instance

variable {log want a}

lemma Reaches.not_lt (h : log.Reaches want a) : ¬a.lt want := by
  rcases h with rfl | h
  · simp [CfgAt.lt]
  · have hlt : want.version < a.version := by simpa using log.ascending.sublist h
    simp only [CfgAt.lt]
    lia

end ConfigLog

namespace Config

lemma pairwise_sortedKeys (ns : List NodeId) : (sortedKeys (· ≤ ·) ns).Pairwise (· < ·) :=
  ((List.pairwise_insertionSort (· ≤ ·) _).and (nodup_sortedKeys _ ns)).imp fun h =>
    h.1.lt_of_ne h.2

def new (members : List NodeId) (version : ℕ) (term : Term) : Config :=
  ⟨sortedKeys (· ≤ ·) members, [], version, term, pairwise_sortedKeys members⟩

/-- A node that votes is no learner. -/
def withLearners (c : Config) (learners : List NodeId) : Config :=
  { c with learners := (sortedKeys (· ≤ ·) learners).filter (· ∉ c.members) }

variable (c : Config) (n : NodeId)

def adding (term : Term) : Config :=
  (new (c.members ++ [n]) (c.version + 1) term).withLearners (c.learners.filter (· ≠ n))

def removing (term : Term) : Config :=
  (new (c.members.filter (· ≠ n)) (c.version + 1) term).withLearners (c.learners.filter (· ≠ n))

def addingLearner (term : Term) : Config :=
  (new c.members (c.version + 1) term).withLearners (c.learners ++ [n])

def demoting (term : Term) : Config :=
  (new (c.members.filter (· ≠ n)) (c.version + 1) term).withLearners (c.learners ++ [n])

def standing : Standing :=
  if c.contains n then .voter else if n ∈ c.learners then .learner else .absent

end Config

namespace Consensus

variable (s : Consensus) (log : ConfigLog)

def configHolders : ℕ := s.cfg.members.countP fun n => (s.acked n).any (¬·.lt s.cfg.at)

def configIsDurableOnAMajority : Bool :=
  (s.acked s.selfId).isSome && s.cfg.hasQuorum s.configHolders

/-- The node acknowledged the configuration in force or one appended after it. -/
def holds (n : NodeId) : Bool := (s.acked n).any (log.Reaches s.cfg.at ·)

/-- The node acknowledged an entry at or above the configuration in force that is neither that
entry nor one appended after it. -/
def strays (n : NodeId) : Bool :=
  (s.acked n).any fun a => ¬a.lt s.cfg.at ∧ ¬log.Reaches s.cfg.at a

/-- The configuration in force is called durable only if a majority of the voters hold it. -/
def DurableRight : Prop :=
  s.configIsDurableOnAMajority = true → ∃ Q, IsMajority s.cfg.voters Q ∧ ∀ n ∈ Q, s.holds log n

def standingsMoved (cfg : Config) : List (NodeId × Standing × Standing) :=
  (sortedKeys (· ≤ ·) (s.cfg.known ++ cfg.known)).filterMap fun n =>
    if s.cfg.standing n ≠ cfg.standing n then some (n, s.cfg.standing n, cfg.standing n) else none

def checkOwnTerm (ownTerm : OwnTermCommitted) : Except Refusal Unit :=
  if ownTerm = .yes then .ok () else .error (.ownTerm s.hard.term)

def checkNotSelf (n : NodeId) (verb : String) : Except Refusal Unit :=
  if n ≠ s.selfId then .ok () else .error (.itself verb n)

def checkCaughtUp (n : NodeId) : Except Refusal Unit :=
  let matched := (s.progress n).map (·.matched)
  if matched.any (s.commit ≤ ·) then .ok () else .error (.notCaughtUp n matched s.commit)

def checkShape (cfg : Config) : Except Refusal Unit :=
  if cfg.isEmpty then .error (.emptyVoters cfg)
  else if cfg.version ≠ s.cfg.version + 1 then .error (.version cfg.version s.cfg.version)
  else if cfg.term ≠ s.hard.term then .error (.term cfg.term s.hard.term)
  else
    match s.standingsMoved cfg with
    | [(n, .absent, .voter)] => .error (.addsVoter n)
    | [(n, .voter, .absent)] => .error (.removesVoter n)
    | [(n, .learner, .voter)] => do
      s.checkNotSelf n "promote"
      s.checkCaughtUp n
    | [(n, .voter, .learner)] => s.checkNotSelf n "demote"
    | [_] => .ok ()
    | moved => .error (.moves moved)

def checkPrecondition : Except Refusal Unit :=
  if s.role ≠ .leader then .error .notLeader
  else if (s.acked s.selfId).isNone then .error (.noProvenance s.cfg)
  else if s.cfg.hasQuorum s.configHolders then .ok ()
  else .error (.notDurable s.cfg.at s.configHolders s.cfg.members.length s.cfg.quorum)

def checkMembership (cfg : Config) (ownTerm : OwnTermCommitted) : Except Refusal Unit :=
  if s.role ≠ .leader then .error .notLeader
  else do
    s.checkOwnTerm ownTerm
    s.checkShape cfg
    s.checkPrecondition

def targetConfig (change : Change) : Except Refusal Config :=
  match change with
  | .addLearner n =>
    match s.cfg.standing n with
    | .absent => .ok (s.cfg.addingLearner n s.hard.term)
    | other => .error (.stands change other)
  | .promote n =>
    match s.cfg.standing n with
    | .learner => do
      s.checkNotSelf n "promote"
      s.checkCaughtUp n
      return s.cfg.adding n s.hard.term
    | other => .error (.stands change other)
  | .demote n =>
    match s.cfg.standing n with
    | .voter => do
      s.checkNotSelf n "demote"
      return s.cfg.demoting n s.hard.term
    | other => .error (.stands change other)
  | .remove n =>
    match s.cfg.standing n with
    | .learner => .ok (s.cfg.removing n s.hard.term)
    | other => .error (.stands change other)

/-! ## Majorities before and after -/

variable {s log} {cfg : Config} {ownTerm : OwnTermCommitted} {change : Change} {n : NodeId}

lemma mem_standingsMoved (h : s.cfg.standing n ≠ cfg.standing n) :
    (n, s.cfg.standing n, cfg.standing n) ∈ s.standingsMoved cfg := by
  refine mem_filterMap.mpr ⟨n, ?_, if_pos h⟩
  rw [mem_sortedKeys]
  by_contra hn
  simp only [Config.known, mem_append, not_or] at hn
  exact h (by simp [Config.standing, Config.contains, hn])

/-- The voters are the same but for one node. -/
lemma checkShape_ok (h : s.checkShape cfg = .ok ()) :
    cfg.isEmpty = false ∧ ∃ n, s.cfg.voters.erase n = cfg.voters.erase n := by
  unfold checkShape at h
  split_ifs at h with hempty
  refine ⟨by simpa using hempty, ?_⟩
  obtain ⟨⟨n, before, after⟩, hmoved⟩ : ∃ m, s.standingsMoved cfg = [m] := by
    generalize s.standingsMoved cfg = moved at h
    rcases moved with _ | ⟨m, _ | ⟨m', moved⟩⟩
    · cases h
    · exact ⟨m, rfl⟩
    · simp at h
  refine ⟨n, Finset.ext fun m => ?_⟩
  rw [Finset.mem_erase, Finset.mem_erase]
  refine and_congr_right fun hm => ?_
  have hsame : s.cfg.standing m = cfg.standing m := by
    by_contra hne
    have hmem := mem_standingsMoved hne
    rw [hmoved, mem_singleton] at hmem
    exact hm (congrArg Prod.fst hmem)
  have hvoter (c : Config) : m ∈ c.voters ↔ c.standing m = .voter := by
    rw [Config.standing]
    split_ifs <;> simp_all
  rw [hvoter, hvoter, hsame]

lemma checkMembership_ok (h : s.checkMembership cfg ownTerm = .ok ()) :
    s.checkShape cfg = .ok () := by
  unfold checkMembership at h
  split_ifs at h
  obtain ⟨-, -, h⟩ := bind_ok.mp h
  obtain ⟨⟨⟩, hshape, -⟩ := bind_ok.mp h
  exact hshape

lemma targetConfig_disjoint (h : s.targetConfig change = .ok cfg) (n : NodeId) :
    ¬(n ∈ cfg.members ∧ n ∈ cfg.learners) := by
  obtain ⟨c, ls, rfl⟩ : ∃ c ls, cfg = Config.withLearners c ls := by
    cases change <;> simp only [targetConfig] at h <;> split at h <;> try cases h
    · exact ⟨_, _, rfl⟩
    · obtain ⟨-, -, h⟩ := bind_ok.mp h
      obtain ⟨-, -, h⟩ := bind_ok.mp h
      exact ⟨_, _, (ok.inj h).symm⟩
    · obtain ⟨-, -, h⟩ := bind_ok.mp h
      exact ⟨_, _, (ok.inj h).symm⟩
    · exact ⟨_, _, rfl⟩
  simp +contextual [Config.withLearners]

lemma configHolders_eq (log : ConfigLog) :
    s.configHolders = s.cfg.members.countP (s.holds log) + s.cfg.members.countP (s.strays log) := by
  have hsplit (n : NodeId) : (s.acked n).any (¬·.lt s.cfg.at) = (s.holds log n || s.strays log n) ∧
      (s.holds log n && s.strays log n) = false := by
    unfold holds strays
    cases s.acked n with
    | none => simp
    | some a =>
      by_cases hr : log.Reaches s.cfg.at a
      · simp [hr.not_lt]
      · simp [hr]
  unfold configHolders
  generalize s.cfg.members = ns
  induction ns with
  | nil => rfl
  | cons n ns ih =>
    cases hh : s.holds log n <;> cases hs : s.strays log n <;> simp_all <;> omega

lemma exists_majority_iff : (∃ Q, IsMajority s.cfg.voters Q ∧ ∀ n ∈ Q, s.holds log n) ↔
    s.cfg.hasQuorum (s.cfg.members.countP (s.holds log)) = true := by
  have hcard : (s.cfg.voters.filter (s.holds log ·)).card =
      s.cfg.members.countP (s.holds log) := by
    rw [countP_eq_length_filter, Config.voters, ← toFinset_filter,
      toFinset_card_of_nodup (s.cfg.nodup.filter _)]
  rw [Config.hasQuorum, Config.quorum, ← hcard, ← Config.card_voters, Bool.and_eq_true,
    decide_eq_true_eq]
  constructor
  · rintro ⟨Q, hQ, hholds⟩
    have hle := Finset.card_le_card fun n hn => Finset.mem_filter.mpr ⟨hQ.1 hn, hholds n hn⟩
    have hlt := hQ.2
    have hpos := Finset.card_le_card hQ.1
    rw [Config.card_voters] at hlt hpos ⊢
    have hne : s.cfg.members ≠ [] := fun hm => by
      rw [hm, length_nil] at hlt hpos
      omega
    exact ⟨by simpa using hne, by omega⟩
  · rintro ⟨-, hle⟩
    exact ⟨_, isMajority_of_half_lt (Finset.filter_subset _ _) hle, fun n hn =>
      (Finset.mem_filter.mp hn).2⟩

/-- Where no voter strays, every voter that is counted holds the configuration. -/
lemma durableRight_of_none_strays (h : ∀ n ∈ s.cfg.members, s.strays log n = false) :
    s.DurableRight log := by
  intro hdurable
  have hnone : s.cfg.members.countP (s.strays log) = 0 := by
    rw [countP_eq_zero]
    intro n hn
    simp [h n hn]
  rw [exists_majority_iff]
  rw [configIsDurableOnAMajority, configHolders_eq log, hnone, Bool.and_eq_true] at hdurable
  exact hdurable.2

/-- The configuration in force with one voter. -/
def alone (s : Consensus) (n : NodeId) : Config :=
  ⟨[n], [], s.cfg.version, s.cfg.term, pairwise_singleton _ n⟩

/-- As the only voter, a node that strays makes up a majority. -/
lemma not_durableRight_of_strays (hself : (s.acked s.selfId).isSome) (h : s.strays log n = true) :
    ¬DurableRight { s with cfg := s.alone n } log := by
  intro hright
  obtain ⟨a, ha, hstray⟩ := (Option.any_eq_true _ _).mp h
  obtain ⟨hlt, hreaches⟩ : ¬a.lt s.cfg.at ∧ ¬log.Reaches s.cfg.at a := of_decide_eq_true hstray
  rw [Config.at] at hlt hreaches
  have hdurable : configIsDurableOnAMajority { s with cfg := s.alone n } = true := by
    simp [configIsDurableOnAMajority, configHolders, hself, ha, hlt, alone, Config.hasQuorum,
      Config.quorum, Config.at]
  have hmajority := exists_majority_iff.mp (hright hdurable)
  simp [holds, ha, hreaches, alone, Config.hasQuorum, Config.quorum, Config.at] at hmajority

/-- A change that is accepted keeps majorities meeting. The configuration in force is called durable
rightly if no voter strays, and whoever the voters are exactly if no node does. -/
theorem membership_keeps_majorities (s : Consensus) (log : ConfigLog) :
    (∀ change ownTerm cfg, s.targetConfig change = .ok cfg →
      s.checkMembership cfg ownTerm = .ok () →
        (∀ P Q, IsMajority s.cfg.voters P → IsMajority cfg.voters Q → ∃ v, v ∈ P ∧ v ∈ Q) ∧
          cfg.isEmpty = false ∧ ∀ n, ¬(n ∈ cfg.members ∧ n ∈ cfg.learners)) ∧
      ((∀ n ∈ s.cfg.members, s.strays log n = false) → s.DurableRight log) ∧
      ((∀ cfg : Config, cfg.at = s.cfg.at → DurableRight { s with cfg := cfg } log) ↔
        ((s.acked s.selfId).isSome → ∀ n, s.strays log n = false)) := by
  refine ⟨?_, durableRight_of_none_strays, ?_⟩
  · intro change ownTerm cfg htarget hcheck
    obtain ⟨hempty, n, hvoters⟩ := checkShape_ok (checkMembership_ok hcheck)
    exact ⟨fun P Q hP hQ => hP.exists_mem_inter_of_erase hQ hvoters, hempty,
      targetConfig_disjoint htarget⟩
  · constructor
    · intro hright hself n
      by_contra hstray
      exact not_durableRight_of_strays hself (by simpa using hstray) (hright _ rfl)
    · intro hnone cfg hat hdurable
      have hself : (s.acked s.selfId).isSome := by
        rw [configIsDurableOnAMajority, Bool.and_eq_true] at hdurable
        exact hdurable.1
      refine durableRight_of_none_strays (fun n _ => ?_) hdurable
      rw [strays, hat]
      exact hnone hself n

/-- The voters 1, 2 and 4 in the third configuration of term 2, of which node 2 acknowledged the
third of term 4. -/
def strayed : Consensus :=
  { new 1 ⟨[1, 2, 4], [], 3, 2, by decide⟩ 7 with
    acked := fun n => if n = 1 then some ⟨3, 2⟩ else if n = 2 then some ⟨3, 4⟩ else none }

theorem durable_by_a_stray : strayed.configIsDurableOnAMajority = true ∧ ∀ log : ConfigLog,
    ¬∃ Q, IsMajority strayed.cfg.voters Q ∧ ∀ n ∈ Q, strayed.holds log n := by
  refine ⟨by decide, fun log => ?_⟩
  have hother : ¬[⟨3, 2⟩, ⟨3, 4⟩].Sublist log.entries := fun h => by
    simpa using log.ascending.sublist h
  have hcount : strayed.cfg.members.countP (strayed.holds log) = 1 := by
    simp [strayed, holds, new, Config.at, hother, ConfigLog.Reaches]
  rw [exists_majority_iff, hcount]
  decide

end Consensus

end FerroDb.Cluster
