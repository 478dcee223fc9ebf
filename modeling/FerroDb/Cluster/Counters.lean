import FerroDb.Cluster.Step

/-!
# The counters of one node

A node counts how far its log reaches, how much of it is durable, committed and applied, and
where its snapshot floor lies. Whatever messages arrive and in whatever order, the counters stay
in order and the commit, the applied round and the term never go back, as long as no snapshot
comes into force below the commit. Nothing in `finish_install` stops that one case, and
`installOvertaken` is a run that meets it.
-/

namespace FerroDb.Cluster

open List Option Consensus LogTail

variable {s' : Consensus} {t : Term} {r : Round} {es : List Entry} {p : Round} {s : Consensus}
  {m : Message} {e : Entry}

/-- What a node counts, and the tail of the log it counts over. -/
structure Counters where
  term : Term
  floor : Round
  last : Round
  commit : Round
  applied : Round
  durable : Round
  agreed : Round
  tail : LogTail

/-- The retained tail; a node that has not touched its log retains nothing. -/
def Consensus.tail (s : Consensus) : LogTail := s.ownLog.getD (.rebased s.snapshotRound 0)

def Consensus.counters (s : Consensus) : Counters :=
  ⟨s.hard.term, s.snapshotRound, s.lastRound, s.commit, s.applied, s.durable, s.agreed, s.tail⟩

/-- The counters are in order, and the retained rounds are those from the floor to the end. -/
structure Counters.InOrder (c : Counters) : Prop where
  floor_le : c.floor ≤ c.applied
  applied_le : c.applied ≤ c.commit
  commit_le : c.commit ≤ c.last
  durable_le : c.durable ≤ c.last
  retained : c.tail.entries.map Entry.round = range' (c.floor + 1) (c.last - c.floor)

/-- What keeps the counters in order. -/
structure Counters.Sound (c : Counters) : Prop extends c.InOrder where
  base : c.tail.base = c.floor
  agreed_le : c.agreed ≤ c.last
  term_le : c.term ≤ u64Max

/-- Nothing that must not go back has gone back. -/
structure Counters.Le (a b : Counters) : Prop where
  commit : a.commit ≤ b.commit
  applied : a.applied ≤ b.applied
  term : a.term ≤ b.term

namespace Counters.Le

lemma refl (a : Counters) : Le a a := ⟨le_rfl, le_rfl, le_rfl⟩

end Counters.Le

/-- The counters of `s` are sound and have gone on from `a`. -/
structure Grows (a : Counters) (s : Consensus) : Prop where
  sound : s.counters.Sound
  le : a.Le s.counters

namespace Counters.Sound

variable {s : Consensus}

lemma floor_le_last (h : s.counters.Sound) : s.snapshotRound ≤ s.lastRound :=
  h.floor_le.trans (h.applied_le.trans h.commit_le)

lemma length_tail (h : s.counters.Sound) :
    s.tail.entries.length = s.lastRound - s.snapshotRound := by
  have := congrArg length h.retained
  simpa [counters] using this

/-- A node without a log answers for its floor alone, as one with an empty log does. -/
lemma termAt_eq (s : Consensus) (r : Round) :
    s.termAt r = if r = s.snapshotRound then some s.snapshotTerm else s.tail.termAt r := by
  unfold Consensus.termAt Consensus.tail
  split
  · rfl
  · cases s.ownLog <;> simp [LogTail.termAt, LogTail.entryAt]

/-- A round whose term is known lies in the log. -/
lemma le_last_of_termAt (h : s.counters.Sound) (ht : s.termAt r = some t) : r ≤ s.lastRound := by
  have hfloor := h.floor_le_last
  rw [termAt_eq] at ht
  split at ht
  · lia
  · simp only [LogTail.termAt, map_eq_some_iff] at ht
    obtain ⟨e, he, -⟩ := ht
    simp only [LogTail.entryAt, show s.tail.base = s.snapshotRound from h.base] at he
    split at he
    · cases he
    · have := (List.getElem?_eq_some_iff.mp he).1
      rw [h.length_tail] at this
      lia

/-- A round above the floor whose term is not known lies beyond the log. -/
lemma last_lt_of_termAt (h : s.counters.Sound) (hr : s.snapshotRound < r)
    (ht : s.termAt r = none) : s.lastRound < r := by
  rw [termAt_eq, if_neg (by lia)] at ht
  simp only [LogTail.termAt, LogTail.entryAt, show s.tail.base = s.snapshotRound from h.base,
    if_neg (Nat.not_le.mpr hr), map_eq_none_iff, getElem?_eq_none_iff,
    h.length_tail] at ht
  lia

end Counters.Sound

/-! ## Handlers that leave the counters alone -/

namespace Consensus

variable (s : Consensus)

@[simp] lemma counters_ensureLog : s.ensureLog.counters = s.counters := by
  unfold ensureLog counters tail
  cases h : s.ownLog <;> simp [h]

@[simp] lemma counters_setPeer (n : NodeId) (p : Progress) :
    (s.setPeer n p).counters = s.counters := rfl

lemma counters_timeout (timeout : ℕ) (rng : Rng) :
    { s with electionTimeout := timeout, rng := rng }.counters = s.counters := rfl

@[simp] lemma counters_drawTimeout : s.drawTimeout.counters = s.counters := by
  exact s.counters_timeout _ _

@[simp] lemma counters_sendAppendTo (n : NodeId) :
    (s.sendAppendTo n).1.counters = s.counters := by
  unfold sendAppendTo sendNextTo
  dsimp only
  split
  · rfl
  · split
    · simp
    · split <;> simp

@[simp] lemma counters_sendAppendsTo (ns : List NodeId) :
    (s.sendAppendsTo ns).1.counters = s.counters := by
  induction ns generalizing s with
  | nil => rfl
  | cons n ns ih => simp [sendAppendsTo, ih]

@[simp] lemma counters_bcastAppend : s.bcastAppend.1.counters = s.counters := by
  unfold bcastAppend
  split <;> simp

variable (src : NodeId)

@[simp] lemma counters_noteDivergence (r : Round) (d : UInt64) :
    (s.noteDivergence src r d).counters = s.counters := by
  unfold noteDivergence
  split
  · split <;> simp
  · rfl

@[simp] lemma counters_onRefused (hint : Round) :
    (s.onRefused src hint).1.counters = s.counters := by
  unfold onRefused
  split_ifs <;> simp

@[simp] lemma counters_becomeFollower (t : Term) (l : Option NodeId) :
    (s.becomeFollower t l).1.counters = { s.counters with term := t } := by
  unfold becomeFollower counters
  dsimp only
  split
  · simp_all [tail]
  · rfl

@[simp] lemma counters_observeQuorumWatermark (w : Round) :
    (s.observeQuorumWatermark w).counters = s.counters := by
  unfold observeQuorumWatermark
  split <;> rfl

@[simp] lemma counters_observeConfigAt (a : CfgAt) :
    (s.observeConfigAt a).counters = s.counters := by
  unfold observeConfigAt
  split <;> rfl

@[simp] lemma counters_onReceived (n : ℕ) : (s.onReceived src n).1.counters = s.counters := by
  unfold onReceived
  dsimp only
  split
  · rfl
  · split_ifs <;> simp

@[simp] lemma counters_onInstallSnapshotResp (n : ℕ) :
    (s.onInstallSnapshotResp src n).1.counters = s.counters := by
  unfold onInstallSnapshotResp
  split <;> simp

@[simp] lemma counters_receiveChunk (info : SnapshotMeta) (offset : ℕ)
    (data : List UInt8) (done : Bool) :
    (s.receiveChunk src info offset data done).1.counters = s.counters := by
  obtain ⟨r, n, heq, -⟩ := s.receiveChunk_cases src offset data done
  rw [heq]
  rfl

@[simp] lemma counters_onPreVote (t lt : Term) (lr : Round) :
    (s.onPreVote src t lt lr).1.counters = s.counters := rfl

@[simp] lemma counters_onRequestVote (lt : Term) (lr : Round) :
    (s.onRequestVote src lt lr).1.counters = s.counters := by
  unfold onRequestVote
  dsimp only
  split <;> rfl

lemma counters_latchDamaged (why : String) :
    (s.latchDamaged why).1.1.counters = s.counters := s.counters_becomeFollower s.hard.term none

lemma counters_applyConfig (cfg : Config) : (s.applyConfig cfg).1.counters = s.counters := by
  unfold applyConfig
  dsimp only
  split_ifs
  · rfl
  · rw [counters_becomeFollower]
    rfl
  · rfl

@[simp] lemma counters_noteConfigInLog (cfg : Config) :
    (s.noteConfigInLog cfg).1.1.counters = s.counters := by
  unfold noteConfigInLog
  split_ifs
  · simp [counters_latchDamaged]
  · simp [counters_latchDamaged]
  · rfl
  · exact counters_applyConfig _ _

end Consensus

/-! ## Handlers that move a counter -/

namespace Grows

variable {a : Counters} {s : Consensus}

section

variable (h : Grows a s)
include h

/-- A handler that leaves the counters alone keeps them sound. -/
lemma same (heq : s'.counters = s.counters) : Grows a s' :=
  ⟨heq ▸ h.sound, heq ▸ h.le⟩

/-- The step of a term keeps the rest as it was. -/
lemma becomeFollower (l : Option NodeId) (ht : s.hard.term ≤ t)
    (hmax : t ≤ u64Max) : Grows a (s.becomeFollower t l).1 := by
  refine ⟨?_, ?_⟩
  · rw [counters_becomeFollower]
    exact { h.sound with term_le := hmax }
  · rw [counters_becomeFollower]
    exact { h.le with term := h.le.term.trans ht }

lemma stepDown (l : Option NodeId) : Grows a (s.becomeFollower s.hard.term l).1 :=
  h.same (s.counters_becomeFollower _ l)

lemma advanceApply : Grows a s.advanceApply.1 := by
  unfold Consensus.advanceApply
  dsimp only
  split
  case isTrue hlt =>
    have hfloor := h.sound.floor_le
    have happlied := h.le.applied
    exact ⟨{ h.sound with
        floor_le := hfloor.trans hlt.le
        applied_le := min_le_left s.commit s.durable },
      { h.le with applied := happlied.trans hlt.le }⟩
  case isFalse => exact h

/-- The commit moves up to a round of the log. -/
lemma withCommit (hlo : s.commit ≤ r) (hhi : r ≤ s.lastRound) : Grows a { s with commit := r } :=
  ⟨{ h.sound with applied_le := h.sound.applied_le.trans hlo, commit_le := hhi },
    { h.le with commit := h.le.commit.trans hlo }⟩

lemma withAgreed (hr : r ≤ s.lastRound) : Grows a { s with agreed := r } :=
  ⟨{ h.sound with agreed_le := hr }, { h.le with }⟩

lemma withDurable (hr : r ≤ s.lastRound) : Grows a { s with durable := r } :=
  ⟨{ h.sound with durable_le := hr }, { h.le with }⟩

/-- A leader commits only a round of its own term, so one it holds. -/
lemma advanceCommit : Grows a s.advanceCommit.1 := by
  unfold Consensus.advanceCommit
  split
  case isTrue hadv =>
    simp only [commitAdvances, Bool.and_eq_true, decide_eq_true_eq] at hadv
    obtain ⟨⟨-, hlt⟩, hterm⟩ := hadv
    have hcommit := h.withCommit hlt.le (h.sound.le_last_of_termAt hterm)
    exact hcommit.advanceApply.same (counters_bcastAppend _)
  case isFalse => exact h

omit h in
lemma last_of_contiguous
    (he : es.getLast? = some e) (hes : es.map Entry.round = range' (r + 1) es.length) :
    e.round = r + es.length := by
  have hne : 0 < es.length := length_pos_iff.mpr (by rintro rfl; simp at he)
  have hmap := congrArg getLast? hes
  rw [getLast?_map, he, getLast?_range', map_some] at hmap
  lia

lemma retained : s.tail.entries.map Entry.round =
    range' (s.snapshotRound + 1) (s.lastRound - s.snapshotRound) := h.sound.retained

/-- New rounds go on where the log ends. -/
lemma extend (he : es.getLast? = some e)
    (hes : es.map Entry.round = range' (s.lastRound + 1) es.length) (lt : Term) :
    Grows a { s.modifyTail (fun t => es.foldl LogTail.push t) with
      lastRound := e.round, lastTerm := lt } := by
  have hlast := last_of_contiguous he hes
  have hgrow : s.lastRound ≤ e.round := by lia
  have hfloor := h.sound.floor_le_last
  have hretained : (es.foldl LogTail.push s.tail).entries.map Entry.round =
      range' (s.snapshotRound + 1) (e.round - s.snapshotRound) := by
    have hold := h.retained
    rw [foldl_push_entries, map_append, hes,
      show e.round - s.snapshotRound = (s.lastRound - s.snapshotRound) + es.length by lia,
      ← range'_append_1]
    congr 2
    lia
  exact ⟨{ h.sound with
      commit_le := h.sound.commit_le.trans hgrow
      durable_le := h.sound.durable_le.trans hgrow
      agreed_le := h.sound.agreed_le.trans hgrow
      base := (foldl_push_base s.tail es).trans h.sound.base
      retained := hretained }, { h.le with }⟩

lemma appendOwnEntry (c : Command) : Grows a (s.appendOwnEntry c).1 := by
  have hs : Grows a s.ensureLog := h.same s.counters_ensureLog
  have hlast : [(⟨s.ensureLog.hard.term, s.ensureLog.lastRound + 1, c⟩ : Entry)].getLast? =
      some ⟨s.ensureLog.hard.term, s.ensureLog.lastRound + 1, c⟩ := rfl
  exact hs.extend hlast rfl _

lemma initLeaderProgress : Grows a s.initLeaderProgress := by
  have hs : Grows a s.ensureLog := h.same s.counters_ensureLog
  exact (hs.withAgreed hs.sound.durable_le).same rfl

lemma becomeLeader : Grows a s.becomeLeader.1 := by
  have hoffice : Grows a { s with
      role := .leader
      leader := some s.selfId
      campaign := none
      votes := ∅
      sinceQuorum := 0
      sinceHeartbeat := 0 } := h.same rfl
  exact (hoffice.initLeaderProgress.appendOwnEntry .noOp).same (counters_bcastAppend _)

lemma becomeCandidate : Grows a s.becomeCandidate.1 := by
  have hterm : s.hard.term ≤ satAdd64 s.hard.term 1 := by
    have := h.sound.term_le
    simp only [satAdd64, counters] at this ⊢
    lia
  have hcand : Grows a s.standing :=
    ⟨{ h.sound with term_le := min_le_right _ _ },
      { h.le with term := h.le.term.trans hterm }⟩
  unfold Consensus.becomeCandidate
  rw [Out.andThen_fst]
  split
  · exact (hcand.same (counters_drawTimeout _)).becomeLeader
  · exact hcand.same (counters_drawTimeout _)

lemma startPrecampaign : Grows a s.startPrecampaign.1 := by
  have hpre : Grows a s.asking := h.same rfl
  unfold Consensus.startPrecampaign
  rw [Out.andThen_fst]
  split
  · exact (hpre.same (counters_drawTimeout _)).becomeCandidate
  · exact hpre.same (counters_drawTimeout _)

lemma voterTick : Grows a s.voterTick.1 := by
  have hheard : Grows a { s with sinceHeard := satAdd32 s.sinceHeard 1 } := h.same rfl
  unfold Consensus.voterTick
  dsimp only
  split
  · exact hheard
  · split
    · exact hheard.startPrecampaign
    · split
      · exact ((hheard.stepDown none).same rfl).same (counters_drawTimeout _)
      · exact (h.same rfl).same (counters_drawTimeout _)

lemma leaderTick : Grows a s.leaderTick.1 := by
  unfold Consensus.leaderTick
  split
  · exact h.stepDown none
  · dsimp only
    split
    · exact h.same (counters_becomeFollower _ _ _)
    · split
      · exact Grows.same (h.same rfl) (counters_bcastAppend _)
      · exact h.same rfl

lemma onTick : Grows a s.onTick.1 := by
  unfold Consensus.onTick
  split
  · exact h.leaderTick
  all_goals exact h.voterTick

lemma onPropose (c : Command) : Grows a (s.onPropose c).1 := by
  have hs : Grows a s.ensureLog := h.same s.counters_ensureLog
  unfold Consensus.onPropose
  split
  · exact h
  · dsimp only
    split
    · exact hs
    · exact (hs.appendOwnEntry c).same (counters_bcastAppend _)

/-! ## Appends -/

variable (src : NodeId)

lemma adoptLeader : Grows a (s.adoptLeader src s.hard.term).1 := by
  have hfollow : Grows a (if s.role ≠ .follower ∨ s.leader ≠ some src ∨ s.hard.term ≠ s.hard.term
      then s.becomeFollower s.hard.term (some src) else ({ s with sinceHeard := 0 }, [])).1 := by
    split
    · exact h.stepDown _
    · exact h.same rfl
  unfold Consensus.adoptLeader
  dsimp only
  split
  · exact hfollow.withAgreed (Nat.zero_le _)
  · exact hfollow

omit h in
/-- How far a contiguous batch from `p` on is held, and where it conflicts. -/
lemma heldPart (h : s.counters.Sound)
    (hes : es.map Entry.round = range' (p + 1) es.length) (hfloor : s.snapshotRound ≤ p)
    (hp : p ≤ s.lastRound) : (s.heldPart es).1 ≤ es.length ∧ p + (s.heldPart es).1 ≤ s.lastRound ∧
    (∀ r, (s.heldPart es).2 = some r → r = p + (s.heldPart es).1 + 1 ∧ r ≤ s.lastRound) ∧
    ((s.heldPart es).2 = none →
      (s.heldPart es).1 = es.length ∨ s.lastRound = p + (s.heldPart es).1) := by
  induction es generalizing p with
  | nil => simpa [heldPart] using hp
  | cons e es ih =>
    rw [map_cons, length_cons, range'_succ, cons.injEq] at hes
    obtain ⟨he, hes⟩ := hes
    cases ht : s.termAt e.round with
    | none =>
      have hlast := h.last_lt_of_termAt (by lia) ht
      simp only [heldPart]
      lia
    | some t =>
      have hle := h.le_last_of_termAt ht
      by_cases hterm : t = e.term
      · obtain ⟨h₁, h₂, h₃, h₄⟩ := ih hes (by lia) (he ▸ hle)
        simp only [heldPart, ht, if_pos hterm, length_cons]
        refine ⟨by lia, by lia, fun r hr => ?_, fun hn => ?_⟩
        · have := h₃ r hr
          lia
        · lia
      · simp only [heldPart, ht, if_neg hterm, some.injEq]
        refine ⟨Nat.zero_le _, hp, ?_, nofun⟩
        rintro r rfl
        exact ⟨he, hle⟩

/-- A conflicting suffix above the commit is dropped. -/
lemma truncateLog (hcommit : s.commit < r) (hr : r ≤ s.lastRound) :
    Grows a { s.truncateLog r with agreed := min s.agreed (r - 1) } := by
  have hfloor : s.snapshotRound ≤ s.commit := h.sound.floor_le.trans h.sound.applied_le
  have hbase : s.tail.base = s.snapshotRound := h.sound.base
  have hretained : (s.tail.truncateFrom r).entries.map Entry.round =
      range' (s.snapshotRound + 1) (r - 1 - s.snapshotRound) := by
    rw [truncateFrom_entries _ (by lia), map_take, h.retained, take_range'_of_length_ge (by lia)]
    lia
  exact ⟨{ h.sound with
      commit_le := Nat.le_sub_one_of_lt hcommit
      durable_le := min_le_right _ _
      agreed_le := min_le_right _ _
      base := (truncateFrom_base s.tail r).trans hbase
      retained := hretained }, { h.le with }⟩

/-- The fresh part of a batch goes on where the log ends, and the agreement reaches its end. -/
lemma extendLog (fresh : List Entry)
    (hfresh : fresh.map Entry.round = range' (s.lastRound + 1) fresh.length)
    (hr : r ≤ s.lastRound + fresh.length) :
    Grows a (Consensus.extendLog { s with agreed := r } src fresh).1 := by
  unfold Consensus.extendLog
  split
  case h_1 hnone =>
    rw [getLast?_eq_none_iff] at hnone
    subst hnone
    exact h.withAgreed hr
  case h_2 e he =>
    have hext := h.extend he hfresh e.term
    have hlast := last_of_contiguous he hfresh
    exact (hext.withAgreed (r := r) (hlast ▸ hr)).same rfl

lemma learnFromAppend (es : List Entry) (leaderCommit : Round) :
    Grows a (s.learnFromAppend es leaderCommit).1 := by
  have hcommit : Grows a { s with commit := max s.commit (min leaderCommit s.agreed) } :=
    h.withCommit (le_max_left _ _)
      (max_le h.sound.commit_le ((min_le_right _ _).trans h.sound.agreed_le))
  have hwatermark := hcommit.same (counters_observeQuorumWatermark _ leaderCommit)
  unfold Consensus.learnFromAppend
  cases newestConfig es with
  | none => exact hwatermark.advanceApply
  | some at' => exact (hwatermark.same (counters_observeConfigAt _ at')).advanceApply

lemma acceptAppend
    (leaderCommit : Round) (hes : es.map Entry.round = range' (p + 1) es.length)
    (hfloor : s.snapshotRound ≤ p) (hp : p ≤ s.lastRound) :
    Grows a (s.acceptAppend src p es leaderCommit).1 := by
  obtain ⟨hlen, hheld, hconflict, hnone⟩ := heldPart h.sound hes hfloor hp
  have hdrop : (es.drop (s.heldPart es).1).map Entry.round =
      range' (p + 1 + (s.heldPart es).1) (es.length - (s.heldPart es).1) := by
    rw [map_drop, hes, drop_range', Nat.mul_one]
  have hdropLen : (es.drop (s.heldPart es).1).length = es.length - (s.heldPart es).1 :=
    length_drop
  unfold Consensus.acceptAppend
  dsimp only
  split
  case h_1 r hr =>
    obtain ⟨hr₁, hr₂⟩ := hconflict r hr
    split
    · exact h
    · have htrunc := h.truncateLog (r := r) (by lia) hr₂
      have hend : (s.truncateLog r).lastRound = p + (s.heldPart es).1 := by
        rw [show (s.truncateLog r).lastRound = r - 1 from rfl]
        lia
      have hext := htrunc.extendLog (r := max (min s.agreed (r - 1)) (p + es.length)) src
        (es.drop (s.heldPart es).1)
        (by rw [hdrop, hdropLen, hend, Nat.add_right_comm])
        (by rw [hend]; lia)
      exact (hext.same rfl).learnFromAppend es leaderCommit
  case h_2 hr =>
    have hagreed : s.agreed ≤ s.lastRound := h.sound.agreed_le
    have hext := h.extendLog (r := max s.agreed (p + es.length)) src
      (es.drop (s.heldPart es).1)
      (by
        rcases hnone hr with hall | hend
        · simp [hall]
        · rw [hdrop, hdropLen, hend, Nat.add_right_comm])
      (by
        rcases hnone hr with hall | hend
        · lia
        · lia)
    exact hext.learnFromAppend es leaderCommit

lemma matchAppend (prevTerm : Term) (leaderCommit : Round)
    (hes : es.map Entry.round = range' (p + 1) es.length) :
    Grows a (s.matchAppend src p prevTerm es leaderCommit).1 := by
  unfold Consensus.matchAppend
  split
  · exact h
  · split
    case h_1 t ht =>
      split
      · exact h.acceptAppend src leaderCommit hes (by lia) (h.sound.le_last_of_termAt ht)
      · exact h
    · exact h

omit h in
lemma map_round_of_not_malformed (h : malformed t p es = false) :
    es.map Entry.round = range' (p + 1) es.length := by
  refine ext_getElem (by simp) fun k hk _ => ?_
  rw [length_map] at hk
  simpa using rounds_of_not_malformed h (getElem?_eq_getElem hk)

lemma onAppend (p : Round) (prevTerm : Term) (es : List Entry) (leaderCommit : Round) :
    Grows a (s.onAppend src s.hard.term p prevTerm es leaderCommit).1 := by
  unfold Consensus.onAppend
  split
  · exact h
  · case isFalse hmal =>
    exact (h.adoptLeader src).matchAppend src prevTerm leaderCommit
      (map_round_of_not_malformed (by simpa using hmal))

lemma onAcknowledged (matched : Round) : Grows a (s.onAcknowledged src matched).1 := by
  unfold Consensus.onAcknowledged
  dsimp only
  split
  · exact h
  · split
    · exact (h.same (s.counters_setPeer _ _)).advanceCommit
    · split
      · exact h.same (by simp)
      · exact h.same (s.counters_setPeer _ _)

lemma onAppendResp (success : Bool) (matched hint : Round)
    (digest : UInt64) : Grows a (s.onAppendResp src success matched hint digest).1 := by
  unfold Consensus.onAppendResp
  split
  · exact h
  · split
    · exact h.same (by simp)
    · exact onAcknowledged (h.same (by simp)) src matched

/-! ## Transfers and reports -/

lemma onInstallSnapshot (info : SnapshotMeta) (offset : ℕ) (data : List UInt8) (done : Bool) :
    Grows a (s.onInstallSnapshot src s.hard.term info offset data done).1 := by
  unfold Consensus.onInstallSnapshot
  split
  · exact h
  · split
    · exact h
    · rw [Out.andThen_fst]
      split
      · exact h.adoptLeader src
      · exact (h.adoptLeader src).same (by simp)

lemma notePersisted (t : Term) (r : Round) : Grows a (s.notePersisted t r) := by
  unfold Consensus.notePersisted
  split
  · exact h.withDurable (max_le h.sound.durable_le (min_le_right _ _))
  · exact h

lemma announceDurable : Grows a s.announceDurable.1 := by
  unfold Consensus.announceDurable
  split
  · exact (h.withAgreed h.sound.durable_le).advanceCommit
  · split <;> exact h

end

end Grows

namespace Consensus

/-- The report that brings a whole snapshot into force, at a round the commit has passed. -/
def Overtaken (s : Consensus) : Event → Prop
  | .persisted _ round => ∃ cur, s.receiving = some cur ∧ cur.complete = true ∧
      cur.info.lastRound = round ∧ round < s.commit ∧ (s.noteConfigInLog cur.info.config).2 = none
  | _ => False

lemma noteConfigInLog_ensureLog (s : Consensus) (cfg : Config) :
    (s.ensureLog.noteConfigInLog cfg).2 = (s.noteConfigInLog cfg).2 := by
  unfold ensureLog
  split
  · unfold noteConfigInLog
    split_ifs <;> rfl
  · rfl

end Consensus

namespace Grows

variable {a : Counters} {s : Consensus}

section

variable (h : Grows a s)
include h

/-- A snapshot at or above the commit comes into force. -/
lemma finishInstall (hcommit : ∀ cur, s.receiving = some cur → cur.complete = true →
      (s.noteConfigInLog cur.info.config).2 = none → s.commit ≤ cur.info.lastRound) :
    Grows a s.finishInstall.1.1 := by
  unfold Consensus.finishInstall
  split
  · exact h
  case h_2 cur hcur =>
    split
    · exact h
    · case isFalse hdone =>
      have hcfg := h.same (s.counters_noteConfigInLog cur.info.config)
      split
      case h_1 o why heq =>
        rw [heq] at hcfg
        exact hcfg
      case h_2 o heq =>
        have hle := hcommit cur hcur (by simpa using hdone) (by rw [heq])
        have hc : o.1.commit = s.commit := by
          have := congrArg Counters.commit (s.counters_noteConfigInLog cur.info.config)
          rwa [heq] at this
        rw [heq] at hcfg
        refine ⟨{
          floor_le := le_max_right _ _
          applied_le := max_le_max hcfg.sound.applied_le le_rfl
          commit_le := max_le (hc ▸ hle) le_rfl
          durable_le := le_rfl
          retained := by simp [counters, Consensus.tail]
          base := rfl
          agreed_le := le_rfl
          term_le := hcfg.sound.term_le }, {
          commit := hcfg.le.commit.trans (le_max_left _ _)
          applied := hcfg.le.applied.trans (le_max_left _ _)
          term := hcfg.le.term }⟩

lemma onPersisted (hin : ¬ s.Overtaken (.persisted t r)) : Grows a (s.onPersisted t r).1 := by
  have hs : Grows a s.ensureLog := h.same s.counters_ensureLog
  have hcommit : s.ensureLog.commit = s.commit :=
    congrArg Counters.commit s.counters_ensureLog
  have hinstall : Grows a (if s.ensureLog.pendingInstallRound = some r
      then s.ensureLog.finishInstall else ((s.ensureLog, []), none)).1.1 := by
    split
    case isTrue hp =>
      refine hs.finishInstall fun cur hcur hdone hcfg => ?_
      simp only [pendingInstallRound, hcur, bind_some, hdone, if_true,
        some_inj] at hp
      rw [s.noteConfigInLog_ensureLog] at hcfg
      rw [s.receiving_ensureLog] at hcur
      by_contra hlt
      exact hin ⟨cur, hcur, hdone, hp, by lia, hcfg⟩
    case isFalse => exact hs
  generalize hp : (if s.ensureLog.pendingInstallRound = some r
    then s.ensureLog.finishInstall else ((s.ensureLog, []), none)) = p at hinstall
  obtain ⟨o, failed⟩ := p
  rw [Consensus.onPersisted, hp]
  cases failed with
  | some why => exact hinstall
  | none => exact ((hinstall.notePersisted t r).announceDurable).advanceApply

/-! ## A step -/

lemma onPreVoteResp (src : NodeId) (t : Term) (granted : Bool) :
    Grows a (s.onPreVoteResp src t granted).1 := by
  unfold Consensus.onPreVoteResp
  dsimp only
  split
  · exact h
  · split
    · exact becomeCandidate (h.same rfl)
    · exact h.same rfl

lemma onRequestVoteResp (src : NodeId) (t : Term) (granted : Bool) :
    Grows a (s.onRequestVoteResp src t granted).1 := by
  unfold Consensus.onRequestVoteResp
  dsimp only
  split
  · exact h
  · split
    · exact becomeLeader (h.same rfl)
    · exact h.same rfl

/-- A message of the current term, or a pre-vote of any. -/
lemma route
    (hm : m.body.hypothetical = false → m.term = s.hard.term) : Grows a (s.route m).1 := by
  have hs : Grows a s.ensureLog := h.same s.counters_ensureLog
  unfold Consensus.route
  split
  case h_1 => exact h.same (s.counters_onPreVote _ _ _ _)
  case h_2 => exact h.onPreVoteResp _ _ _
  case h_3 => exact h.same (s.counters_onRequestVote _ _ _)
  case h_4 => exact h.onRequestVoteResp _ _ _
  case h_5 hb =>
    rw [hm (by rw [hb]; rfl), ← s.ensureLog_hard]
    exact hs.onAppend _ _ _ _ _
  case h_6 => exact hs.onAppendResp _ _ _ _ _
  case h_7 hb =>
    rw [hm (by rw [hb]; rfl), ← s.ensureLog_hard]
    exact hs.onInstallSnapshot _ _ _ _ _
  case h_8 => exact hs.same (counters_onInstallSnapshotResp _ _ _)

lemma onMessage (hmax : m.term ≤ u64Max) : Grows a (s.onMessage m).1 := by
  unfold Consensus.onMessage
  split
  · split <;> exact h
  · split
    case isTrue hterm =>
      refine (h.becomeFollower none hterm.1.le hmax).route fun _ => ?_
      exact (congrArg Counters.term (s.counters_becomeFollower m.term none)).symm
    case isFalse hterm =>
      refine h.route fun hb => ?_
      lia

end

end Grows

namespace Consensus

/-- The rounds a message speaks of. -/
def roundsOf : Body → List Round
  | .preVote _ lastRound | .requestVote _ lastRound => [lastRound]
  | .append prevRound _ entries commit => prevRound :: commit :: entries.map Entry.round
  | .appendResp _ matched hint _ => [matched, hint]
  | .installSnapshot snap _ _ _ => [snap.lastRound]
  | .preVoteResp _ | .requestVoteResp _ | .installSnapshotResp _ => []

/-- The term of an event fits its field, and so does the round after any round that the event or
the node speaks of. -/
def InRange (s : Consensus) (ev : Event) : Prop :=
  s.lastRound < u64Max ∧
    match ev with
    | .recv m => m.term ≤ u64Max ∧ ∀ r ∈ roundsOf m.body, r < u64Max
    | .persisted t r => t ≤ u64Max ∧ r < u64Max
    | .tick | .propose _ => True

/-- What a node does: it handles an event, moves its floor up, or arms a transfer. No snapshot
comes into force below the commit. -/
inductive Move (s : Consensus) : Consensus → Prop
  | event (ev : Event) (hrange : s.InRange ev) (hin : ¬ s.Overtaken ev) : Move s (s.step ev).1
  | compact {s' : Consensus} (through : Round) (h : s.compact through = .ok s') : Move s s'
  | offer {s' : Consensus} (n : NodeId) (snap : Snapshot) (h : s.offerSnapshotTo n snap = .ok s') :
    Move s s'

end Consensus

namespace Grows

variable {a : Counters} {s : Consensus}

lemma step (h : Grows a s) {ev : Event} (hrange : s.InRange ev)
    (hin : ¬ s.Overtaken ev) : Grows a (s.step ev).1 := by
  cases ev with
  | tick => exact h.onTick
  | recv m => exact h.onMessage hrange.2.1
  | persisted t r => exact h.onPersisted hin
  | propose c => exact h.onPropose c

/-- The floor moves up to an applied round, and what is below it is dropped. -/
lemma compact (h : Grows a s) {through : Round}
    (hc : s.compact through = .ok s') : Grows a s' := by
  unfold Consensus.compact at hc
  split at hc
  · cases hc
    exact h
  split at hc
  · cases hc
  split at hc
  · cases hc
  split at hc
  · cases hc
  cases hc
  have hretained : (s.tail.entries.drop (through - s.tail.base)).map Entry.round =
      range' (through + 1) (s.lastRound - through) := by
    have hbase : s.tail.base = s.snapshotRound := h.sound.base
    rw [map_drop, h.retained, drop_range']
    congr 1 <;> lia
  have happlied : through ≤ s.applied := by lia
  exact ⟨{ h.sound with floor_le := happlied, base := rfl, retained := hretained },
    { h.le with }⟩

lemma offer (h : Grows a s) {n : NodeId} {snap : Snapshot}
    (hoff : s.offerSnapshotTo n snap = .ok s') : Grows a s' := by
  obtain ⟨-, -, rfl⟩ := offerSnapshotTo_ok hoff
  exact h.same (s.counters_setPeer _ _)

lemma move (h : Grows a s) (hm : s.Move s') : Grows a s' := by
  cases hm with
  | event ev hrange hin => exact h.step hrange hin
  | compact through hc => exact h.compact hc
  | offer n snap hoff => exact h.offer hoff

end Grows

namespace Consensus

/-- A node as it starts: new, or rebuilt from a disk whose entries follow on its floor. -/
inductive Started : Consensus → Prop
  | new (id : NodeId) (cfg : Config) (seed : UInt64) : Started (.new id cfg seed)
  | restored (id : NodeId) (cfg : Config) (seed : UInt64) (hard : HardState) (floor : Round)
    (floorTerm : Term) (digest : UInt64) (entries : List Entry) (hterm : hard.term ≤ u64Max)
    (hentries : (entries.filter (floor < ·.round)).map Entry.round =
      range' (floor + 1) (entries.filter (floor < ·.round)).length) :
    Started ((Consensus.new id cfg seed).restore hard floor floorTerm digest entries)

lemma Started.sound (h : Started s) : s.counters.Sound := by
  cases h with
  | new id cfg seed =>
    exact { floor_le := le_rfl, applied_le := le_rfl, commit_le := le_rfl, durable_le := le_rfl,
            retained := rfl, base := rfl, agreed_le := le_rfl, term_le := Nat.zero_le _ }
  | restored id cfg seed hard floor floorTerm digest entries hterm hentries =>
    set kept := entries.filter (floor < ·.round) with hkept
    have hlast : ((Consensus.new id cfg seed).restore hard floor floorTerm digest
        entries).lastRound = floor + kept.length := by
      simp only [restore]
      cases he : kept.getLast? with
      | none => simp [getLast?_eq_none_iff.mp he]
      | some e => simpa using Grows.last_of_contiguous he hentries
    have hfloor : floor ≤ floor + kept.length := Nat.le_add_right _ _
    exact {
      floor_le := le_rfl
      applied_le := le_rfl
      commit_le := hfloor.trans hlast.ge
      durable_le := le_rfl
      retained := by
        change (kept.foldl LogTail.push (.rebased floor digest)).entries.map Entry.round =
          range' (floor + 1) (_ - floor)
        rw [foldl_push_entries, rebased_entries, nil_append, hentries]
        congr 1
        exact (Nat.sub_eq_of_eq_add' hlast).symm
      base := foldl_push_base _ _
      agreed_le := Nat.zero_le _
      term_le := hterm }

/-- Any number of moves. -/
abbrev Run : Consensus → Consensus → Prop := Relation.ReflTransGen Move

lemma Run.grows (h : Run s s') (hs : s.counters.Sound) : Grows s.counters s' := by
  induction h with
  | refl => exact ⟨hs, .refl _⟩
  | tail _ hm ih => exact ih.move hm

/-- Two voters. -/
def twoVoters : Config := .pair 1 1

/-- From a start on, at any two moments of a run, the counters are in order, the retained rounds
are those from the floor to the end, and nothing has gone back from the one to the other. -/
theorem counters_in_order {s₀ s : Consensus} (h₀ : Started s₀) (h : Run s₀ s) (h' : Run s s') :
    s.counters.InOrder ∧ s'.counters.InOrder ∧ s.counters.Le s'.counters := by
  have hs := (h.grows h₀.sound).sound
  have hs' := h'.grows hs
  exact ⟨hs.toInOrder, hs'.sound.toInOrder, hs'.le⟩

/-- A new node takes a first round that its leader has committed. -/
theorem counters_in_order_append :
    let s := new 1 twoVoters 7
    let s' := (s.step (.recv ⟨2, 1, 1, .append 0 0 [⟨1, 1, .noOp⟩] 1⟩)).1
    s'.commit = 1 ∧ s.counters.InOrder ∧ s'.counters.InOrder ∧ s.counters.Le s'.counters :=
  ⟨by decide +kernel, counters_in_order (.new 1 twoVoters 7) .refl
    (.single (.event _ ⟨by decide, by decide, by decide⟩ id))⟩

/-! ## An install below the commit -/

section Past

variable (h : s.lastRound < s.commit)
include h

lemma commitPast_advanceApply : s.advanceApply.1.lastRound < s.advanceApply.1.commit := by
  unfold advanceApply
  dsimp only
  split <;> exact h

lemma commitPast_advanceCommit : s.advanceCommit.1.lastRound < s.advanceCommit.1.commit := by
  unfold advanceCommit
  split
  · next hadvances =>
    simp only [commitAdvances, Bool.and_eq_true, decide_eq_true_eq] at hadvances
    have hpast : s.lastRound < s.quorumMatched := h.trans hadvances.1.2
    have happly := commitPast_advanceApply (s := { s with commit := s.quorumMatched }) hpast
    have hcounters := counters_bcastAppend { s with commit := s.quorumMatched }.advanceApply.1
    rw [Out.andThen_fst]
    exact (congrArg Counters.last hcounters).trans_lt
      (happly.trans_eq (congrArg Counters.commit hcounters).symm)
  · exact h

lemma commitPast_announceDurable : s.announceDurable.1.lastRound < s.announceDurable.1.commit := by
  unfold announceDurable
  split
  · exact commitPast_advanceCommit h
  · split <;> exact h

end Past

lemma commitPast_finishInstall {cur : RecvCursor} (hcur : s.receiving = some cur)
    (hdone : cur.complete = true) (hcfg : (s.noteConfigInLog cur.info.config).2 = none)
    (hlt : cur.info.lastRound < s.commit) : s.finishInstall.2 = none ∧
      s.finishInstall.1.1.lastRound < s.finishInstall.1.1.commit := by
  have hcommit := congrArg Counters.commit (s.counters_noteConfigInLog cur.info.config)
  unfold finishInstall
  rw [hcur]
  dsimp only
  rw [if_neg (by simp [hdone])]
  split
  · next o why heq =>
    rw [heq] at hcfg
    cases hcfg
  · next o heq =>
    rw [heq] at hcommit
    have hcommit : o.1.commit = s.commit := hcommit
    exact ⟨rfl, lt_max_of_lt_left (hcommit ▸ hlt)⟩

/-- A report that is overtaken leaves the commit past the end of the log, whatever else it does. -/
theorem commitPast_of_overtaken {ev : Event} (h : s.Overtaken ev) :
    (s.step ev).1.lastRound < (s.step ev).1.commit := by
  cases ev with
  | persisted t r =>
    obtain ⟨cur, hcur, hdone, rfl, hlt, hcfg⟩ := h
    rw [← s.receiving_ensureLog] at hcur
    rw [← s.noteConfigInLog_ensureLog] at hcfg
    have hcommit : s.ensureLog.commit = s.commit := congrArg Counters.commit s.counters_ensureLog
    obtain ⟨hnone, hpast⟩ := commitPast_finishInstall hcur hdone hcfg (hcommit ▸ hlt)
    have hpending : s.ensureLog.pendingInstallRound = some cur.info.lastRound := by
      rw [pendingInstallRound, hcur, bind_some, if_pos hdone]
    generalize hp : s.ensureLog.finishInstall = p at hnone hpast
    obtain ⟨o, _⟩ := p
    obtain rfl := hnone
    have hstep : (s.step (.persisted t cur.info.lastRound)).1 =
        ((o.1.notePersisted t cur.info.lastRound).announceDurable.andThen advanceApply).1 := by
      rw [step, onPersisted, if_pos hpending, hp]
      rfl
    rw [hstep]
    refine commitPast_advanceApply (commitPast_announceDurable ?_)
    unfold notePersisted
    split <;> exact hpast
  | _ => exact h.elim

/-- The state a sequence of events leads to. -/
def after (s : Consensus) (evs : List Event) : Consensus := evs.foldl (fun s ev => (s.step ev).1) s

/-- A snapshot of round 3 arrives whole, the leader's log then commits through round 5, and only
then is the snapshot reported installed. -/
def installOvertaken : List Event :=
  let snap := Snapshot.build ⟨3, 1, twoVoters, 0⟩ 0 0 ⟨0, 0, 1⟩ [] [] [] (replicate pageSize 0)
  [.recv ⟨2, 1, 1, .installSnapshot ⟨3, 1, twoVoters, 4196⟩ 0
      (snap.toOption.elim [] Snapshot.bytes) true⟩,
    .recv ⟨2, 1, 1, .append 0 0 ((range' 1 5).map fun r => ⟨1, r, .noOp⟩) 5⟩,
    .persisted 1 3]

theorem installOvertaken_commit :
    (after (new 1 twoVoters 7) installOvertaken).lastRound = 3 ∧
      (after (new 1 twoVoters 7) installOvertaken).commit = 5 := by
  decide +kernel

end Consensus

end FerroDb.Cluster
