import FerroDb.Cluster.Counters

/-!
# Pre-votes do not disrupt

A pre-vote asks about a term that nobody has entered. Answering one changes nothing, and so does
an answer, unless it is the one that completes a majority. A node that hears of no later term and
never collects such a majority stays in its term however often its timer fires.
-/

namespace FerroDb.Cluster

open List

variable {s : Consensus} {m : Message}

namespace Consensus

/-! ## Handlers that leave the hard state alone -/

variable (s : Consensus)

@[simp] lemma receiveChunk_hard (src : NodeId) (info : SnapshotMeta) (offset : ℕ)
    (data : List UInt8) (done : Bool) :
    (s.receiveChunk src info offset data done).1.hard = s.hard := by
  obtain ⟨r, n, heq, -⟩ := s.receiveChunk_cases src offset data done
  rw [heq]

lemma onInstallSnapshot_hard (src : NodeId) (info : SnapshotMeta) (offset : ℕ)
    (data : List UInt8) (done : Bool) :
    (s.onInstallSnapshot src s.hard.term info offset data done).1.hard = s.hard := by
  unfold onInstallSnapshot
  split
  · rfl
  · split
    · rfl
    · rw [Out.andThen_fst]
      split
      · exact adoptLeader_hard s src
      · rw [receiveChunk_hard]
        exact adoptLeader_hard s src

@[simp] lemma onInstallSnapshotResp_hard (src : NodeId) (received : ℕ) :
    (s.onInstallSnapshotResp src received).1.hard = s.hard := by
  unfold onInstallSnapshotResp
  split
  · rfl
  · unfold onReceived
    split
    · simp
    · dsimp only
      split
      · simp
      · split
        · simp
        · split <;> simp

@[simp] lemma applyConfig_hard (cfg : Config) : (s.applyConfig cfg).1.hard = s.hard := by
  unfold applyConfig
  dsimp only
  split
  · split
    · rfl
    · exact becomeFollower_hard _ none
  · rfl

@[simp] lemma noteConfigInLog_hard (cfg : Config) :
    (s.noteConfigInLog cfg).1.1.hard = s.hard := by
  unfold noteConfigInLog
  split
  · exact becomeFollower_hard s none
  · split
    · split
      · exact becomeFollower_hard s none
      · rfl
    · exact applyConfig_hard _ cfg

@[simp] lemma finishInstall_hard : s.finishInstall.1.1.hard = s.hard := by
  unfold finishInstall
  split
  · rfl
  · next cur _ =>
    split
    · rfl
    · have hnote := noteConfigInLog_hard s cur.info.config
      split
      · next o why heq =>
        rw [heq] at hnote
        exact hnote
      · next o heq =>
        rw [heq] at hnote
        exact hnote

@[simp] lemma onPersisted_hard (term : Term) (round : Round) :
    (s.onPersisted term round).1.hard = s.hard := by
  have hinstall : (if s.ensureLog.pendingInstallRound = some round then s.ensureLog.finishInstall
      else ((s.ensureLog, []), none)).1.1.hard = s.hard := by
    split <;> simp
  unfold onPersisted
  dsimp only
  generalize (if s.ensureLog.pendingInstallRound = some round then s.ensureLog.finishInstall
    else ((s.ensureLog, []), none)) = p at hinstall
  obtain ⟨o, failed⟩ := p
  cases failed with
  | some why => exact hinstall
  | none => simpa using hinstall

/-! ## Collecting a majority -/

/-- A message of a later term, other than a pre-vote or the answer to one. -/
def higherTerm : Event → Bool
  | .recv m => !m.body.hypothetical && decide (s.hard.term < m.term)
  | _ => false

/-- With this event the node has a majority of pre-vote grants: its own, when it starts to ask and
needs no other, or one that answers what it has asked. -/
def collectsPreVotes : Event → Bool
  | .tick =>
    s.role ≠ .leader && s.electionTimeout ≤ satAdd32 s.sinceHeard 1 && s.mayCampaign &&
      s.cfg.hasQuorum 1
  | .recv m =>
    match m.body with
    | .preVoteResp granted =>
      granted && s.role = .preCandidate && m.term = satAdd64 s.hard.term 1 &&
        s.campaignContains m.src && campaignWon { s with votes := insert m.src s.votes }
    | _ => false
  | _ => false

variable {s}

lemma startPrecampaign_hard (h : s.cfg.hasQuorum 1 = false) :
    s.startPrecampaign.1.hard = s.hard := by
  unfold startPrecampaign
  rw [Out.andThen_fst]
  split
  · next hwon => simp [drawTimeout, campaignWon, h] at hwon
  · rfl

lemma onTick_hard (h : s.collectsPreVotes .tick = false) : s.onTick.1.hard = s.hard := by
  unfold onTick
  split
  · unfold leaderTick
    split
    · exact becomeFollower_hard s none
    · dsimp only
      split
      · exact becomeFollower_hard _ none
      · split
        · simp
        · rfl
  all_goals
    next hrole =>
    unfold voterTick
    dsimp only
    split
    · rfl
    · next htimeout =>
      split
      · next hmay =>
        refine startPrecampaign_hard ?_
        have hmay' : s.mayCampaign = true := hmay
        simpa [collectsPreVotes, hrole, not_lt.mp htimeout, hmay'] using h
      · split <;> simp [drawTimeout]

lemma onPreVoteResp_of_not {granted : Bool}
    (hbody : m.body = .preVoteResp granted) (h : s.collectsPreVotes (.recv m) = false) :
    (s.onPreVoteResp m.src m.term granted).1.hard = s.hard ∧
      (s.onPreVoteResp m.src m.term granted).2 = [] := by
  unfold onPreVoteResp
  split
  · exact ⟨rfl, rfl⟩
  · next hcounts =>
    dsimp only
    split
    · next hwon =>
      simp_all [collectsPreVotes]
    · exact ⟨rfl, rfl⟩

/-- A pre-vote or an answer to one leaves the hard state as it is and asks for none to be
persisted, unless the answer completes a majority. -/
lemma onMessage_hypothetical (hbody : m.body.hypothetical = true)
    (h : s.collectsPreVotes (.recv m) = false) :
    (s.onMessage m).1.hard = s.hard ∧ ∀ t v, .persistHardState t v ∉ (s.onMessage m).2 := by
  unfold onMessage
  split
  · split <;> simp [sendTo]
  · have hroute : (s.route m).1.hard = s.hard ∧ ∀ t v, .persistHardState t v ∉ (s.route m).2 := by
      cases hm : m.body with
      | preVote lastTerm lastRound => simp [route, hm, onPreVote]
      | preVoteResp granted =>
        obtain ⟨hhard, hout⟩ := onPreVoteResp_of_not hm h
        simp [route, hm, hhard, hout]
      | _ => simp [hm, Body.hypothetical] at hbody
    simpa [hbody] using hroute

/-- A message of the current term leaves its receiver in it. -/
lemma route_term (hterm : m.term = s.hard.term)
    (hbody : ¬ m.body.hypothetical = true) : (s.route m).1.hard.term = s.hard.term := by
  have hlog : m.term = s.ensureLog.hard.term := by rw [hterm, ensureLog_hard]
  unfold route
  split
  · next hm => simp [hm, Body.hypothetical] at hbody
  · next hm => simp [hm, Body.hypothetical] at hbody
  · unfold onRequestVote
    dsimp only
    split <;> rfl
  · rw [onRequestVoteResp_hard]
  · rw [hlog, onAppend_hard, ensureLog_hard]
  · rw [onAppendResp_hard, ensureLog_hard]
  · rw [hlog, onInstallSnapshot_hard, ensureLog_hard]
  · rw [onInstallSnapshotResp_hard, ensureLog_hard]

/-- No other event moves the term. -/
lemma step_term {e : Event} (hterm : s.higherTerm e = false)
    (hvotes : s.collectsPreVotes e = false) : (s.step e).1.hard.term = s.hard.term := by
  cases e with
  | tick => exact congrArg HardState.term (onTick_hard hvotes)
  | persisted term round => simp [step]
  | propose c => simp [step]
  | recv m =>
    rw [step]
    by_cases hbody : m.body.hypothetical = true
    · exact congrArg HardState.term (onMessage_hypothetical hbody hvotes).1
    · simp only [higherTerm, hbody, Bool.not_false, Bool.true_and, decide_eq_false_iff_not] at hterm
      unfold onMessage
      split
      · split <;> rfl
      · next hstale =>
        have heq : m.term = s.hard.term := le_antisymm (not_lt.mp hterm) (not_lt.mp hstale)
        have hnot : ¬ (s.hard.term < m.term ∧ m.body.hypothetical = false) := fun h => hterm h.1
        rw [if_neg hnot]
        exact route_term heq hbody

lemma after_concat (s : Consensus) (evs : List Event) (e : Event) :
    s.after (evs ++ [e]) = ((s.after evs).step e).1 := by
  simp [after]

/-- Handling a pre-vote never touches the hard state, handling an answer to one only when it
completes a majority; and a node that receives no message of a later term and never collects a
majority of pre-vote grants stays in its term, whatever else happens. -/
theorem pre_vote_does_not_disrupt :
    (∀ (s : Consensus) (m : Message), m.body.hypothetical = true →
      s.collectsPreVotes (.recv m) = false →
      (s.onMessage m).1.hard = s.hard ∧ ∀ t v, .persistHardState t v ∉ (s.onMessage m).2) ∧
    ∀ (s : Consensus) (evs : List Event),
      (∀ pre e, pre ++ [e] <+: evs →
        (s.after pre).higherTerm e = false ∧ (s.after pre).collectsPreVotes e = false) →
      (s.after evs).hard.term = s.hard.term := by
  refine ⟨fun s m => onMessage_hypothetical, fun s evs h => ?_⟩
  induction evs using reverseRecOn with
  | nil => rfl
  | append_singleton evs e ih =>
    obtain ⟨hterm, hvotes⟩ := h evs e prefix_rfl
    rw [after_concat, step_term hterm hvotes]
    exact ih fun pre e' hpre => h pre e' (hpre.trans (prefix_append evs [e]))

def threeVoters : Config := ⟨[1, 2, 3], [], 1, 1, by decide⟩

theorem pre_vote_does_not_disrupt_ticks :
    ((new 1 threeVoters 7).after (replicate 40 .tick)).hard.term = 0 := by
  refine pre_vote_does_not_disrupt.2 (new 1 threeVoters 7) _ fun pre e hpre => ?_
  obtain ⟨hlen, heq⟩ := prefix_replicate_iff.mp hpre
  obtain ⟨-, hpre, he⟩ := append_eq_replicate_iff.mp heq
  have hbound : pre.length < 40 := by simpa using hlen
  have hticks : ∀ n < 40, ((new 1 threeVoters 7).after (replicate n .tick)).collectsPreVotes
      .tick = false := by decide +kernel
  have he : e = .tick := by simpa using he
  rw [hpre, he]
  exact ⟨rfl, hticks _ hbound⟩

/-- A node of three that has timed out receives one grant, and with it enters the next term. -/
theorem pre_vote_grant_raises_term :
    let s := (new 1 threeVoters 7).after (replicate 40 .tick)
    let m : Message := ⟨2, 1, 1, .preVoteResp true⟩
    s.role = .preCandidate ∧ s.hard.term = 0 ∧ (s.onMessage m).1.hard = ⟨1, some 1⟩ ∧
      .persistHardState 1 (some 1) ∈ (s.onMessage m).2 := by
  decide +kernel

end Consensus

end FerroDb.Cluster
