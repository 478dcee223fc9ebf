import FerroDb.Cluster.Perform

/-!
# The leader's side refines the protocol

Sending rounds and snapshots, counting acknowledgements, committing, appending: each handler
keeps a node related to its counterpart.
-/

namespace FerroDb.Cluster

open Library List Function Consensus Raft.Cluster Function Option Bool
open Raft (Step)

variable {cfg : Config} {snaps : Prop} {i : NodeId} {s s' : Consensus} {h : Node} {c : Abs}
  {n : AbsNode} {net : Set AbsMsg} {k : NodeId} {p : Progress} {src : NodeId} {matched : Round}
  {f : NodeId → Option Progress} {log es : List Entry} {rw' : Term} {e : Entry}

lemma Mem.leader (hm : Mem cfg snaps i s n net) (hl : s.role = .leader) :
    n.role = .leader := by
  rw [hm.role, hl]
  rfl

/-! ## Progress of peers -/

/-- A snapshot armed for a peer describes a prefix of the leader's log. -/
def Armed (cfg : Config) (snaps : Prop) (log : List Entry) (cur : SendCursor) : Prop :=
  snaps ∧ Describes cfg cur.snapshot.info (log.take cur.snapshot.info.lastRound)

/-- New progress, against what the peers are counted as holding. -/
lemma Mem.withProgress (hm : Mem cfg snaps i s n net) {g : NodeId → ℕ}
    (hheld : s.role = .leader → ∀ v, v ≠ i → g v = { s with progress := f }.heldBy v)
    (hsend : s.role = .leader → ∀ v cur, ({ s with progress := f }.peer v).sending = some cur →
      Armed cfg snaps n.log cur) :
    Mem cfg snaps i { s with progress := f } { n with matched := g } net :=
  { hm with
    log := { hm.log with }
    matched := hheld
    sending := hsend }

/-- New progress that counts every peer as before. -/
lemma Mem.sameProgress (hm : Mem cfg snaps i s n net)
    (hkeep : ∀ v, ({ s with progress := f }.peer v).matched = (s.peer v).matched ∧
      ({ s with progress := f }.peer v).diverged = (s.peer v).diverged)
    (hsend : s.role = .leader → ∀ v cur, ({ s with progress := f }.peer v).sending = some cur →
      Armed cfg snaps n.log cur) :
    Mem cfg snaps i { s with progress := f } n net := by
  refine hm.withProgress (g := n.matched) (fun hl v hv => ?_) hsend
  have hself : v ≠ s.selfId := hm.selfId ▸ hv
  rw [hm.matched hl v hv, s.heldBy_peer hself,
    heldBy_peer { s with progress := f } hself, (hkeep v).1, (hkeep v).2]

lemma Mem.setPeer (hm : Mem cfg snaps i s n net)
    (hmatched : p.matched = (s.peer k).matched) (hdiv : p.diverged = (s.peer k).diverged)
    (hsend : s.role = .leader → ∀ cur, p.sending = some cur → Armed cfg snaps n.log cur) :
    Mem cfg snaps i (s.setPeer k p) n net := by
  refine hm.sameProgress (fun v => ?_) fun hl v cur hcur => ?_
  · by_cases hv : v = k
    · subst hv
      exact ⟨by rw [← hmatched]; exact congrArg _ (s.peer_setPeer_self v p),
        by rw [← hdiv]; exact congrArg _ (s.peer_setPeer_self v p)⟩
    · have := s.peer_setPeer_ne p hv
      exact ⟨congrArg _ this, congrArg _ this⟩
  · by_cases hv : v = k
    · subst hv
      exact hsend hl cur (s.peer_setPeer_self v p ▸ hcur)
    · exact hm.sending hl v cur (s.peer_setPeer_ne p hv ▸ hcur)

section

variable (hr : Related cfg snaps i s h c)
include hr

lemma Related.setPeer
    (hmatched : p.matched = (s.peer k).matched) (hdiv : p.diverged = (s.peer k).diverged)
    (hsend : ∀ cur, p.sending = some cur → ∃ cur', (s.peer k).sending = some cur' ∧
      cur'.snapshot = cur.snapshot) : Related cfg snaps i (s.setPeer k p) h c := by
  refine hr.mem_only (hr.mem.setPeer hmatched hdiv fun hl cur hcur => ?_) rfl
  obtain ⟨cur', hcur', heq⟩ := hsend cur hcur
  rw [Armed, ← heq]
  exact hr.mem.sending hl k cur' hcur'

omit hr in
/-- A peer's count changes to what its new progress says. -/
lemma Mem.setHeld (hm : Mem cfg snaps i s n net) (hk : k ≠ i)
    {r : ℕ} (hr : s.role = .leader → r = if p.diverged.isNone then p.matched else 0)
    (hsend : ∀ cur, p.sending = some cur → (s.peer k).sending = some cur) :
    Mem cfg snaps i (s.setPeer k p)
      { n with matched := update n.matched k r } net := by
  refine hm.withProgress (fun hl v hv => ?_) fun hl v cur hcur => hm.sending hl v cur ?_
  · have hself : v ≠ s.selfId := hm.selfId ▸ hv
    have hheld := heldBy_peer (s.setPeer k p) hself
    refine Eq.trans ?_ hheld.symm
    by_cases hvk : v = k
    · subst hvk
      rw [update_self, hr hl, s.peer_setPeer_self]
    · rw [update_of_ne hvk, s.peer_setPeer_ne p hvk, hm.matched hl v hv,
        s.heldBy_peer hself]
  · by_cases hvk : v = k
    · subst hvk
      exact hsend cur (s.peer_setPeer_self v p ▸ hcur)
    · exact s.peer_setPeer_ne p hvk ▸ hcur

/-! ## Sending -/

omit hr in
/-- What `entries_from` reads is a piece of the whole log. -/
lemma LogRel.entriesFrom (hl : LogRel s log rw') (r : Round) :
    ∃ len, s.entriesFrom r = (log.drop (r - 1)).take len := by
  obtain ⟨t, ht, hb, he, -⟩ := hl.tail
  simp only [Consensus.entriesFrom, ht]
  rcases Nat.lt_or_ge t.base r with hlt | hge
  · obtain ⟨len, hlen⟩ := t.sliceFrom_eq_take maxEntriesPerAppend
      Wire.appendEntriesBudget hlt
    refine ⟨len, ?_⟩
    have hidx : s.snapshotRound + (r - s.snapshotRound - 1) = r - 1 := by lia
    rw [hlen, he, hb, drop_drop, hidx]
  · exact ⟨0, by simp [LogTail.sliceFrom, hge]⟩

lemma sim_sendSnapshotChunkTo (hl : s.role = .leader)
    (hk : k ≠ i) : Sim cfg snaps i h c (s, s.sendSnapshotChunkTo k) := by
  unfold sendSnapshotChunkTo
  cases hcur : (s.progress k).bind (·.sending) with
  | none => exact .done hr
  | some cur =>
    obtain ⟨p, hp, hsend⟩ := bind_eq_some_iff.mp hcur
    have hpeer : (s.peer k).sending = some cur := by simpa [peer, hp] using hsend
    obtain ⟨htr, hd⟩ := hr.mem.sending hl k cur hpeer
    have hlen : cur.snapshot.info.lastRound ≤ (c.node i).log.length := by
      have := hd.length
      rw [length_take] at this
      lia
    have hrole := hr.mem.leader hl
    refine Sim.send hr (.single (.sendSnapshot hrole hlen)) rfl ⟨?_, htr, _, ?_, hd⟩
    · exact hr.mem.selfId ▸ hk.symm
    · rw [← hr.mem.term]
      exact Set.mem_insert _ _

lemma sim_sendNextTo (hl : s.role = .leader) (hk : k ≠ i) (hp : s.peer k = p) :
    Sim cfg snaps i h c (s.sendNextTo k p) := by
  unfold sendNextTo
  split
  · exact sim_sendSnapshotChunkTo hr hl hk
  · dsimp only
    split
    · exact .done (hr.setPeer (by rw [hp]) (by rw [hp]) fun cur hcur =>
        ⟨cur, by rw [hp]; exact hcur, rfl⟩)
    · rename_i prevTerm ht
      have hfloor := hr.mem.log.floor_le_of_some ht
      obtain ⟨hlen, rfl⟩ := hr.mem.log.termAt_some ht hfloor
      obtain ⟨len, hes⟩ := hr.mem.log.entriesFrom p.next
      have hrole := hr.mem.leader hl
      have hs : Steps cfg snaps i c (c.send (.append _ _ _
          (((c.node i).log.drop (p.next - 1)).take len) _)) :=
        .single (.sendAppend hrole hlen)
      refine Sim.send hr hs rfl ⟨?_, ?_⟩
      · exact hr.mem.selfId ▸ hk.symm
      · rw [hes, ← hr.mem.commit, ← hr.mem.term]
        exact Set.mem_insert _ _

lemma sim_sendAppendTo (k : NodeId) : Sim cfg snaps i h c (s.sendAppendTo k) := by
  unfold sendAppendTo
  split
  · exact .done hr
  · rename_i hcond
    push Not at hcond
    obtain ⟨hl, hk, -⟩ := hcond
    have hk' : k ≠ i := hr.mem.selfId ▸ hk
    rw [hr.mem.log.ensureLog]
    have hkeep : (s.startedPeer k).matched = (s.peer k).matched ∧
        (s.startedPeer k).diverged = (s.peer k).diverged ∧
        (s.startedPeer k).sending = (s.peer k).sending := by
      unfold startedPeer
      dsimp only
      split <;> exact ⟨rfl, rfl, rfl⟩
    refine sim_sendNextTo (hr.setPeer hkeep.1 hkeep.2.1 fun cur hcur => ⟨cur, ?_, rfl⟩) hl hk'
      (peer_setPeer_self ..)
    rw [← hkeep.2.2, hcur]

lemma sim_sendAppendsTo (ks : List NodeId) : Sim cfg snaps i h c (s.sendAppendsTo ks) := by
  induction ks generalizing s h c with
  | nil => exact .done hr
  | cons k ks ih => exact (sim_sendAppendTo hr k).andThen fun _ _ _ _ hr' => ih hr'

lemma sim_bcastAppend : Sim cfg snaps i h c s.bcastAppend := by
  unfold bcastAppend
  split
  · exact .done hr
  · exact sim_sendAppendsTo hr _

/-! ## Appending -/

omit hr in
lemma LogRel.extend (hl : LogRel s log rw')
    (he : es.getLast? = some e) (hrounds : Rounds (log ++ es)) :
    LogRel { s.modifyTail (fun t => es.foldl LogTail.push t) with
      lastRound := e.round, lastTerm := e.term } (log ++ es) rw' := by
  obtain ⟨t, ht, hb, hent, hrw⟩ := hl.tail
  exact {
    tail := ⟨es.foldl LogTail.push t, by simp [modifyTail, ht],
      (LogTail.foldl_push_base t es).trans hb,
      by
        rw [LogTail.foldl_push_entries, hent]
        exact (drop_append_of_le_length hl.floor_le).symm,
      (LogTail.foldl_push_rewritten t es).trans hrw⟩
    floor_le := hl.floor_le.trans (by simp)
    lastRound := hrounds.last he
    snapshotTerm := hl.snapshotTerm.trans
      (termAt_of_isPrefix (prefix_append log es) hl.floor_le).symm
    lastTerm := by
      obtain ⟨p, rfl⟩ := getLast?_eq_some_iff.mp he
      rw [← append_assoc, lastTerm_append_singleton]
    rounds := hrounds }

omit hr in
/-- More entries at the end of the log. -/
lemma Mem.extend (hm : Mem cfg snaps i s n net)
    (he : es.getLast? = some e) (hrounds : Rounds (n.log ++ es)) (w : Option Term) :
    Mem cfg snaps i { s.modifyTail (fun t => es.foldl LogTail.push t) with
        lastRound := e.round, lastTerm := e.term }
      { n with log := n.log ++ es, written := w } net :=
  { hm with
    log := hm.log.extend he hrounds
    durable_le := hm.durable_le.trans (by simp)
    sending := by
      intro hl v cur hcur
      obtain ⟨htr, hd⟩ := hm.sending hl v cur hcur
      have hlen : cur.snapshot.info.lastRound ≤ n.log.length := by
        have := hd.length
        rw [length_take] at this
        lia
      refine ⟨htr, ?_⟩
      rw [take_append_of_le_length hlen]
      exact hd }

lemma sim_appendOwnEntry
    (hT : h.sm.hard.term = s.hard.term) (hl : s.role = .leader) (cmd : Command) :
    Sim cfg snaps i h c (s.appendOwnEntry cmd) := by
  unfold appendOwnEntry
  rw [hr.mem.log.ensureLog]
  have hrole := hr.mem.leader hl
  have hs : Steps cfg snaps i c _ :=
    .single (.appendOwn (e := ⟨s.hard.term, s.lastRound + 1, cmd⟩) hrole hr.mem.term.symm)
  have hrounds : Rounds ((c.node i).log ++ [⟨s.hard.term, s.lastRound + 1, cmd⟩]) := by
    refine hr.mem.log.rounds.append fun k e hk => ?_
    rw [getElem?_singleton] at hk
    split at hk
    · obtain rfl := some.inj hk
      subst_vars
      rw [hr.mem.log.lastRound]
    · cases hk
  refine Sim.persist hr hT (cons_ne_nil _ _) hs ?_ ?_ ?_ ?_ ?_ ?_ ?_ ?_ rfl
  all_goals rw [publish_node, put_node_self]
  exact hr.mem.extend (by rfl) hrounds (some (c.node i).term)

/-! ## Commit -/

lemma sim_advanceApply
    (hT : h.sm.hard.term = s.hard.term) : Sim cfg snaps i h c s.advanceApply := by
  unfold advanceApply
  dsimp only
  split
  · exact Sim.apply hr hT ‹_› (min_le_left _ _) (min_le_right _ _)
  · exact .done hr

omit hr in
/-- The voters that hold the round a majority is counted for are a majority. -/
lemma Consensus.isMajority_quorumMatched (s : Consensus) (h0 : 0 < s.quorumMatched) :
    IsMajority s.cfg.voters (s.cfg.voters.filter fun v => s.quorumMatched ≤ s.heldBy v) := by
  refine isMajority_of_half_lt (Finset.filter_subset _ _) ?_
  rw [s.cfg.card_voters]
  cases hget : ((s.cfg.members.map s.heldBy).insertionSort (· ≥ ·))[s.cfg.quorum - 1]? with
  | none => simp [quorumMatched, hget] at h0
  | some q =>
    have hq : s.quorumMatched = q := by simp [quorumMatched, hget]
    rw [hq]
    exact le_card_of_insertionSort s.cfg.nodup s.heldBy hget

/-- Committing what a majority holds. -/
lemma Related.advance (hadv : s.commitAdvances = true) :
    StepsTo cfg snaps i c { s with commit := s.quorumMatched } h := by
  simp only [commitAdvances, and_eq_true, decide_eq_true_eq] at hadv
  obtain ⟨⟨hl, hlt⟩, hterm⟩ := hadv
  have hrole := hr.mem.leader hl
  -- the node acknowledges to itself what it holds durably, and counts that
  let c₁ := c.send (.ack (c.node i).term i (c.node i).durable)
  have hs₁ : Step tm cfg.voters snaps i c c₁ := .sendAck le_rfl (Or.inr hrole)
  let n₂ : AbsNode := { c.node i with
    matched := update (c.node i).matched i
      (max ((c.node i).matched i) (c.node i).durable) }
  have hs₂ : Step tm cfg.voters snaps i c₁ (c₁.put i n₂) :=
    .recvAck (c := c₁) hrole (Set.mem_insert _ _)
  have hmaj := s.isMajority_quorumMatched (by lia)
  rw [hr.mem.config] at hmaj
  have hheld : ∀ v ∈ cfg.voters.filter fun v => s.quorumMatched ≤ s.heldBy v,
      s.quorumMatched ≤ n₂.matched v := by
    intro v hv
    have hle := (Finset.mem_filter.mp hv).2
    by_cases hvi : v = i
    · subst hvi
      have hself : s.heldBy v = s.durable := by simp [heldBy, hr.mem.selfId]
      simp only [n₂, update_self, hr.mem.durable]
      lia
    · simpa [n₂, hvi, hr.mem.matched hl v hvi] using hle
  have hfloor := hr.mem.log.floor_le_of_some hterm
  obtain ⟨-, hterm'⟩ := hr.mem.log.termAt_some hterm hfloor
  have hn₂ : (c₁.put i n₂).node i = n₂ := put_node_self ..
  have hs₃ : Step tm cfg.voters snaps i (c₁.put i n₂)
      ((c₁.put i n₂).put i { n₂ with commit := s.quorumMatched }) := by
    have : Step tm cfg.voters snaps i (c₁.put i n₂) ((c₁.put i n₂).put i
        { (c₁.put i n₂).node i with commit := s.quorumMatched }) :=
      .advance (by rw [hn₂]; exact hrole) hmaj (by rw [hn₂]; exact hheld)
        (by rw [hn₂]; exact hr.mem.commit ▸ hlt)
        (by rw [hn₂]; exact hterm'.trans hr.mem.term.symm)
    rwa [hn₂] at this
  have hsteps : Steps cfg snaps i c _ :=
    ((Relation.ReflTransGen.single hs₁).tail hs₂).tail hs₃
  have hnode : ((c₁.put i n₂).put i { n₂ with commit := s.quorumMatched }).node i =
      { n₂ with commit := s.quorumMatched } := put_node_self ..
  refine ⟨_, hsteps, hr.same hsteps ?_ ?_ rfl⟩
  all_goals rw [hnode]
  · exact ⟨rfl, rfl, rfl, rfl, rfl, rfl, rfl⟩
  · exact { hr.mem with
      log := { hr.mem.log with }
      commit := rfl
      applied_le := hr.mem.applied_le.trans hlt.le
      matched := fun hl' v hv =>
        (update_of_ne hv _ _).trans (hr.mem.matched hl' v hv)
      receiving := fun cur hcur =>
        (hr.mem.receiving cur hcur).mono (hsteps.keeps hr.reach).net }

lemma sim_advanceCommit
    (hT : h.sm.hard.term = s.hard.term) : Sim cfg snaps i h c s.advanceCommit := by
  unfold advanceCommit
  split
  · obtain ⟨c', hs, hr'⟩ := hr.advance ‹_›
    exact (Sim.after hs (sim_advanceApply hr' hT)).andThen fun _ _ _ _ hr'' => sim_bcastAppend hr''
  · exact .done hr

/-! ## Answers of peers -/

lemma sim_onRefused (src : NodeId) (hint : Round) :
    Sim cfg snaps i h c (s.onRefused src hint) := by
  unfold onRefused
  split
  · exact .done hr
  · split
    · exact .done hr
    · have hr' := hr.setPeer (k := src) (p := { s.peer src with next := max hint 1 }) rfl rfl
        fun cur hcur => ⟨cur, hcur, rfl⟩
      exact sim_sendAppendTo hr' src

/-- A peer whose log was seen to differ counts for nothing. -/
lemma Related.noteDivergence (hsrc : src ≠ i) (matched : Round) (digest : UInt64) :
    StepsTo cfg snaps i c (s.noteDivergence src matched digest) h := by
  unfold Consensus.noteDivergence
  split
  · split
    · exact hr.put (.forget (v := src)) ⟨rfl, rfl, rfl, rfl, rfl, rfl, rfl⟩
        (hr.mem.setHeld hsrc (fun _ => by simp) fun cur hcur => hcur) rfl
    · exact ⟨c, .refl, hr⟩
  · exact ⟨c, .refl, hr⟩

/-- An acknowledgement raises what a peer is counted as holding. -/
lemma Related.acknowledged (hl : s.role = .leader)
    (hsrc : src ≠ i) (hack : .ack s.hard.term src matched ∈ c.net) (p : Progress)
    (hp : p.matched = max (s.peer src).matched matched)
    (hd : p.diverged = (s.peer src).diverged) (hsend : p.sending = none) :
    StepsTo cfg snaps i c (s.setPeer src p) h := by
  have hself : src ≠ s.selfId := hr.mem.selfId ▸ hsrc
  have hheld := hr.mem.matched hl src hsrc
  rw [s.heldBy_peer hself] at hheld
  by_cases hdiv : (s.peer src).diverged.isNone = true
  · refine hr.put (.recvAck (hr.mem.leader hl) (hr.mem.term ▸ hack))
      ⟨rfl, rfl, rfl, rfl, rfl, rfl, rfl⟩ (hr.mem.setHeld hsrc (fun _ => ?_) (by simp [hsend])) rfl
    rw [hheld, hd, if_pos hdiv, if_pos hdiv, hp]
  · have hmem := hr.mem.setHeld (p := p) hsrc (r := (c.node i).matched src)
      (fun _ => by rw [hheld, hd, if_neg hdiv, if_neg hdiv]) (by simp [hsend])
    rw [update_eq_self] at hmem
    exact ⟨c, .refl, hr.mem_only hmem rfl⟩

lemma sim_onAcknowledged
    (hT : h.sm.hard.term = s.hard.term) (hl : s.role = .leader) (hsrc : src ≠ i)
    (hack : .ack s.hard.term src matched ∈ c.net) :
    Sim cfg snaps i h c (s.onAcknowledged src matched) := by
  unfold onAcknowledged
  split
  · exact .done hr
  · obtain ⟨c', hs, hr'⟩ := hr.acknowledged hl hsrc hack { s.peer src with
      matched := max (s.peer src).matched matched
      next := max (s.peer src).next (max (s.peer src).matched matched + 1)
      needsSnapshot := false
      sending := none } rfl rfl rfl
    refine Sim.after hs ?_
    dsimp only
    split
    · exact sim_advanceCommit hr' hT
    · split
      · exact sim_sendAppendTo hr' src
      · exact .done hr'

omit hr in
lemma Consensus.noteDivergence_role (s : Consensus) (src : NodeId) (r : Round) (d : UInt64) :
    (s.noteDivergence src r d).role = s.role := by
  unfold noteDivergence
  split
  · split <;> rfl
  · rfl

lemma sim_onAppendResp
    (hT : h.sm.hard.term = s.hard.term) {success : Bool}
    (hack : success = true → .ack s.hard.term src matched ∈ c.net) (hint : Round)
    (digest : UInt64) :
    Sim cfg snaps i h c (s.onAppendResp src success matched hint digest) := by
  unfold onAppendResp
  split
  · exact .done hr
  · rename_i hcond
    push Not at hcond
    obtain ⟨hl, hsrc, -⟩ := hcond
    have hsrc' : src ≠ i := hr.mem.selfId ▸ hsrc
    have hr₁ := hr.setPeer (k := src) (p := { s.peer src with silent := 0 }) rfl rfl
      fun cur hcur => ⟨cur, hcur, rfl⟩
    split
    · exact sim_onRefused hr₁ src hint
    · rename_i hsucc
      obtain ⟨c', hs, hr₂⟩ := hr₁.noteDivergence hsrc' matched digest
      refine Sim.after hs (sim_onAcknowledged hr₂ (by simpa using hT) ?_ hsrc' ?_)
      · rw [noteDivergence_role]
        exact hl
      · rw [noteDivergence_hard]
        exact (hs.keeps hr.reach).net (hack (by simpa using hsucc))

/-! ## Proposals and taking office -/

lemma sim_onPropose (hT : h.sm.hard.term = s.hard.term)
    (cmd : Command) : Sim cfg snaps i h c (s.onPropose cmd) := by
  unfold onPropose
  split
  · exact Sim.refuse hr
  · rename_i hl
    rw [hr.mem.log.ensureLog]
    dsimp only
    split
    · exact Sim.refuse hr
    · exact (sim_appendOwnEntry hr hT (not_not.mp hl) cmd).andThen fun _ _ _ _ hr' =>
        sim_bcastAppend hr'

omit hr in
/-- The state a candidate takes office in, before its first entry. -/
def Consensus.inOffice (s : Consensus) : Consensus :=
  { s with
    role := .leader
    leader := some s.selfId
    campaign := none
    votes := ∅
    sinceQuorum := 0
    sinceHeartbeat := 0
    progress := fun n =>
      if n ≠ s.selfId ∧ s.cfg.isKnown n then
        some { s.peer n with
          next := s.lastRound + 1, matched := 0, silent := 0, needsSnapshot := false,
          sending := none }
      else none
    agreed := s.durable
    receiving := none }

omit hr in
lemma Consensus.inOffice_peer (s : Consensus) (v : NodeId) :
    (s.inOffice.peer v).matched = 0 ∧ (s.inOffice.peer v).sending = none := by
  simp only [inOffice, peer]
  split <;> simp [Progress.default]

omit hr in
lemma Mem.inOffice (hm : Mem cfg snaps i s n net) : Mem cfg snaps i s.inOffice
      { n with role := .leader, votes := ∅, matched := fun _ => 0 } net :=
  { hm with
    role := rfl
    campaigning := fun hc => by cases hc
    precampaigning := fun hc => by cases hc
    log := { hm.log with }
    agreed := fun hne => (hne rfl).elim
    leaderless := fun hc => by rcases hc with hc | hc <;> cases hc
    ownLeader := fun _ => congrArg some hm.selfId
    otherLeader := fun hne => (hne rfl).elim
    matched := fun _ v hv => by
      have hself : v ≠ s.inOffice.selfId := hm.selfId ▸ hv
      rw [heldBy_peer _ hself, (s.inOffice_peer v).1, ite_self]
    sending := fun _ v cur hcur => by
      rw [(s.inOffice_peer v).2] at hcur
      cases hcur
    receiving := fun cur hcur => by cases hcur }

lemma Related.lead (hcand : s.role = .candidate) (hwon : s.campaignWon = true) :
    ∃ c', Steps cfg snaps i c c' ∧ Related cfg snaps i s.inOffice h c' ∧
      c'.leaderOf s.hard.term = some i := by
  obtain ⟨hcamp, hvotes, hsub⟩ := hr.mem.campaigning hcand
  have hrole : (c.node i).role = .candidate := by rw [hr.mem.role, hcand]; rfl
  have hquorum : IsMajority cfg.voters (c.node i).votes := by
    simp only [campaignWon, hcamp, Config.hasQuorum, and_eq_true,
      decide_eq_true_eq] at hwon
    rw [hvotes]
    refine isMajority_of_half_lt hsub ?_
    rw [cfg.card_voters]
    exact hwon.2
  have hs : Steps cfg snaps i c _ := .single (.lead hrole hquorum)
  refine ⟨_, hs, hr.same hs ?_ ?_ rfl, ?_⟩
  · rw [elect_node, put_node_self]
    exact ⟨rfl, rfl, rfl, rfl, rfl, rfl, rfl⟩
  · rw [elect_node, put_node_self]
    exact hr.mem.inOffice
  · simp [hr.mem.term]

lemma sim_becomeLeader (hT : h.sm.hard.term = s.hard.term)
    (hcand : s.role = .candidate) (hwon : s.campaignWon = true) :
    Sim cfg snaps i h c s.becomeLeader := by
  obtain ⟨c', hs, hr', hlead⟩ := hr.lead hcand hwon
  have hensure : initLeaderProgress { s with
      role := .leader, leader := some s.selfId, campaign := none, votes := ∅,
      sinceQuorum := 0, sinceHeartbeat := 0 } = s.inOffice := by
    obtain ⟨t, ht, -⟩ := hr.mem.log.tail
    simp [initLeaderProgress, ensureLog, ht, inOffice, peer]
  have hout : s.becomeLeader = Out.andThen
      (s.inOffice, [.roleChanged .leader s.hard.term (some s.selfId)]) fun s =>
        (s.appendOwnEntry .noOp).andThen fun s => bcastAppend { s with
          progress := fun n => (s.progress n).map fun p => { p with next := s.lastRound + 1 } } := by
    rw [← hensure]
    rfl
  rw [hout]
  refine Sim.after hs ((Sim.roleChanged hr' fun _ => hlead).andThen fun h₁ c₁ hsm _ hr₁ => ?_)
  refine (sim_appendOwnEntry hr₁ (by rw [hsm]; exact hT) rfl .noOp).andThen
    fun h₂ c₂ _ _ hr₂ => sim_bcastAppend (hr₂.mem_only (hr₂.mem.sameProgress ?_ ?_) rfl)
  · intro v
    simp only [peer]
    cases (s.inOffice.appendOwnEntry .noOp).1.progress v <;> simp
  · intro hl v cur hcur
    refine hr₂.mem.sending hl v cur ?_
    simp only [peer] at hcur ⊢
    cases hp : (s.inOffice.appendOwnEntry .noOp).1.progress v <;> simp_all

end

end FerroDb.Cluster
