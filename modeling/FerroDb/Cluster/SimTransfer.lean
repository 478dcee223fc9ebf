import FerroDb.Cluster.SimElection

/-!
# Reports, state transfer, and one step refine the protocol

A report of durable rounds, the two ends of a snapshot transfer, and with them every event a
node can be given.
-/

namespace FerroDb.Cluster

open Library Consensus
open Raft (Step)

variable {cfg : Config} {snaps : Prop} {i dst : NodeId} {s s' : Consensus} {h : Node} {c : Abs}
  {n : AbsNode} {net : Set AbsMsg} {info : SnapshotMeta} {src : NodeId} {t r : ℕ} {m : Message}

/-! ## Reports of durable rounds -/

lemma Mem.withDurable (hm : Mem cfg snaps i s n net) {d : ℕ} (hd : s.durable ≤ d)
    (hlen : d ≤ n.log.length) :
    Mem cfg snaps i { s with durable := d } { n with durable := d } net :=
  { hm with
    log := { hm.log with }
    durable := rfl
    durable_le := hlen
    applied_durable := fun htr => (hm.applied_durable htr).trans hd
    matched := fun hl v hv => by
      have hself : v ≠ s.selfId := hm.selfId ▸ hv
      rw [hm.matched hl v hv, s.heldBy_peer hself,
        heldBy_peer { s with durable := d } hself]
      rfl }

section

variable (hr : Related cfg snaps i s h c)
include hr

lemma Related.notePersisted (hp : (t, r) ∈ h.pending) :
    StepsTo cfg snaps i c (s.notePersisted t r) h := by
  obtain ⟨r', hle, hrep⟩ := hr.pending t r hp
  have hrw : s.ownLog.elim 0 LogTail.rewrittenInTerm = (c.node i).rewritten := by
    obtain ⟨tail, htail, -, -, hrw⟩ := hr.mem.log.tail
    rw [htail]
    exact hrw
  unfold Consensus.notePersisted
  rw [hrw]
  split
  · rename_i hrewritten
    refine hr.put (.report hrep hle hrewritten) ⟨rfl, rfl, rfl, rfl, rfl, rfl, rfl⟩ ?_ rfl
    have hd : max (c.node i).durable (min r (c.node i).log.length) =
        max s.durable (min r s.lastRound) := by rw [hr.mem.durable, hr.mem.log.lastRound]
    rw [hd]
    refine hr.mem.withDurable (le_max_left _ _) (max_le hr.mem.durable_le ?_)
    rw [← hr.mem.log.lastRound]
    exact min_le_right _ _
  · exact ⟨c, .refl, hr⟩

lemma sim_announceDurable
    (hT : h.sm.hard.term = s.hard.term) : Sim cfg snaps i h c s.announceDurable := by
  unfold Consensus.announceDurable
  split
  · rename_i hl
    refine sim_advanceCommit (hr.mem_only { hr.mem with
      log := { hr.mem.log with }
      agreed := fun hne => (hne hl).elim } rfl) hT
  · rename_i hrole
    split
    · rename_i l hl
      exact sim_acknowledgement hr hrole hl fun hli => hr.mem.otherLeader hrole (hli ▸ hl)
    · exact .done hr

omit hr in
/-- A report with no transfer waiting to be put in force. -/
lemma Consensus.onPersisted_eq (hs : s.ensureLog = s)
    (hp : s.pendingInstallRound = none) (t r : ℕ) :
    s.onPersisted t r = (s.notePersisted t r).announceDurable.andThen advanceApply := by
  simp [onPersisted, hs, hp, Out.andThen]

lemma sim_onPersisted (hno : s.pendingInstallRound = none) (hp : (t, r) ∈ h.pending)
    (hT : h.sm.hard.term = (s.onPersisted t r).1.hard.term) :
    Sim cfg snaps i h c (s.onPersisted t r) := by
  rw [onPersisted_eq hr.mem.log.ensureLog hno] at hT ⊢
  simp only [Out.andThen_fst, advanceApply_hard, announceDurable_hard] at hT
  obtain ⟨c', hs, hr'⟩ := hr.notePersisted hp
  refine Sim.after hs ((sim_announceDurable hr' hT).andThen fun h₁ c₁ hsm _ hr₁ => ?_)
  refine sim_advanceApply hr₁ ?_
  rw [hsm, announceDurable_hard]
  exact hT

/-! ## Sending a snapshot -/

lemma sim_onReceived (hl : s.role = .leader) (hsrc : src ≠ i) (received : ℕ) :
    Sim cfg snaps i h c (s.onReceived src received) := by
  unfold onReceived
  split
  · exact .done hr
  · rename_i cur hcur
    dsimp only
    split
    · exact .done hr
    · split
      · exact .done hr
      · split
        · have hr' := hr.setPeer (k := src) (p := { s.peer src with
            sending := none, needsSnapshot := false, next := cur.snapshot.info.lastRound + 1 })
            rfl rfl (by simp)
          exact sim_sendAppendTo hr' src
        · have hr' := hr.setPeer (k := src) (p := { s.peer src with
            sending := some { cur with acked := received } }) rfl rfl
            (by rintro _ ⟨⟩; exact ⟨cur, hcur, rfl⟩)
          exact sim_sendSnapshotChunkTo hr' hl hsrc

lemma sim_onInstallSnapshotResp (src : NodeId)
    (received : ℕ) : Sim cfg snaps i h c (s.onInstallSnapshotResp src received) := by
  unfold onInstallSnapshotResp
  split
  · exact .done hr
  · rename_i hcond
    push Not at hcond
    obtain ⟨hl, hsrc, -⟩ := hcond
    have hr₁ := hr.setPeer (k := src) (p := { s.peer src with silent := 0 }) rfl rfl
      fun cur hcur => ⟨cur, hcur, rfl⟩
    exact sim_onReceived hr₁ hl (hr.mem.selfId ▸ hsrc) received

/-! ## Receiving a snapshot -/

lemma sim_ackSnapshot (hdst : dst ≠ i)
    (k : ℕ) : Sim cfg snaps i h c (s, [s.ackSnapshot dst k]) :=
  Sim.send_plain hr ⟨hr.mem.selfId ▸ hdst.symm, trivial⟩

lemma sim_refuseSnapshot (hdst : dst ≠ i) : Sim cfg snaps i h c (s, [s.refuseSnapshot dst]) :=
  sim_ackSnapshot hr hdst _

omit hr in
/-- A transfer that may be taken up. -/
def Admits (cfg : Config) (snaps : Prop) (i : NodeId) (s : Consensus) (c : Abs)
    (info : SnapshotMeta) : Prop :=
  ∀ cur : RecvCursor, cur.info = info →
    Incoming cfg snaps s.snapshotRound (c.node i).term (c.node i).role c.net cur

lemma Related.receive (ha : Admits cfg snaps i s c info) {r : Option RecvCursor}
    (h : ∀ cur, r = some cur → cur.info = info) :
    Related cfg snaps i { s with receiving := r } ‹Node› c :=
  hr.mem_only { hr.mem with
    log := { hr.mem.log with }
    receiving := fun cur hcur => ha cur (h cur hcur) } rfl

lemma sim_receiveChunk (ha : Admits cfg snaps i s c info) (hsrc : src ≠ i) (offset : ℕ)
    (data : List UInt8) (done : Bool) :
    Sim cfg snaps i h c (s.receiveChunk src info offset data done) := by
  obtain ⟨r, n, heq, hkept | hinfo⟩ := s.receiveChunk_cases src offset data done
  · rw [heq, hkept]
    exact sim_ackSnapshot hr hsrc n
  · rw [heq]
    exact sim_ackSnapshot (hr.receive ha hinfo) hsrc n

omit hr in
/-- A description that passes its check names a configuration with voters. -/
lemma SnapshotMeta.usable_of_validate {m : SnapshotMeta} {u : Unit} (h : m.validate = .ok u) :
    m.config.isEmpty = false := by
  by_contra hne
  have hempty : m.config.isEmpty = true := by simpa using hne
  simp only [SnapshotMeta.validate, bind, Except.bind] at h
  split at h
  · cases h
  · simp at h

lemma sim_onInstallSnapshot (hsrc : src ≠ i) (htr : snaps) {l : List Entry}
    (hm : .snapshot s.hard.term l ∈ c.net) (hd : Describes cfg info l) (offset : ℕ)
    (data : List UInt8) (done : Bool) :
    Sim cfg snaps i h c (s.onInstallSnapshot src s.hard.term info offset data done) := by
  unfold onInstallSnapshot
  split
  · exact sim_refuseSnapshot hr hsrc
  · rename_i hvalid
    split
    · exact sim_refuseSnapshot hr hsrc
    · obtain ⟨hadopt, hrole, -⟩ := sim_adoptLeader hr hsrc
      refine hadopt.andThen fun h₁ c₁ _ hs₁ hr₁ => ?_
      split
      · exact sim_ackSnapshot hr₁ hsrc _
      · rename_i hcond
        push Not at hcond
        have hfol := hr₁.mem.follower hrole
        refine sim_receiveChunk hr₁ (fun cur hcur => ?_) hsrc _ _ _
        exact {
          allowed := htr
          usable := by rw [hcur]; exact SnapshotMeta.usable_of_validate hvalid
          above := fun _ => by rw [hcur]; exact hcond.1
          notLeader := by rw [hfol]; nofun
          source := by
            refine ⟨s.hard.term, l, (hs₁.keeps hr.reach).net hm, hcur ▸ hd, Or.inr ⟨?_, hfol⟩⟩
            rw [hr₁.mem.term, s.adoptLeader_hard src] }

/-! ## One step -/

lemma sim_route (hmax : m.body.hypothetical = true → s.hard.term < u64Max)
    (hm : Carries cfg snaps c.net m) (hdst : m.dst = i)
    (hterm : m.body.hypothetical = false → m.term = s.hard.term)
    (hT : h.sm.hard.term = (s.route m).1.hard.term) : Sim cfg snaps i h c (s.route m) := by
  obtain ⟨hne, hm⟩ := hm
  have hsrc : m.src ≠ i := hdst ▸ hne
  unfold Consensus.route at hT ⊢
  cases hbody : m.body with
  | preVote lt lr =>
    exact Sim.send_plain hr ⟨hr.mem.selfId ▸ hsrc.symm, trivial⟩
  | preVoteResp granted =>
    simp only [hbody] at hT
    exact sim_onPreVoteResp hr (hmax (by rw [hbody]; rfl)) _ _ _ hT
  | requestVote lt lr =>
    simp only [hbody] at hm
    obtain ⟨l, hl, rfl, rfl⟩ := hm
    rw [hterm (by rw [hbody]; rfl)] at hl
    exact sim_onRequestVote hr hsrc hl
  | requestVoteResp granted =>
    simp only [hbody, hdst, onRequestVoteResp_hard] at hm hT
    exact sim_onRequestVoteResp hr hT hm
  | append prev prevTerm es cm =>
    have hterm' := hterm (by rw [hbody]; rfl)
    simp only [hbody, hr.mem.log.ensureLog, hterm', onAppend_hard] at hm hT ⊢
    exact sim_onAppend hr hT hsrc hm
  | appendResp success matched hint digest =>
    have hterm' := hterm (by rw [hbody]; rfl)
    simp only [hbody, hr.mem.log.ensureLog, hterm', onAppendResp_hard] at hm hT ⊢
    exact sim_onAppendResp hr hT hm _ _
  | installSnapshot info offset data done =>
    have hterm' := hterm (by rw [hbody]; rfl)
    simp only [hbody, hr.mem.log.ensureLog, hterm'] at hm ⊢
    obtain ⟨htr, l, hl, hd⟩ := hm
    exact sim_onInstallSnapshot hr hsrc htr hl hd _ _ _
  | installSnapshotResp received =>
    simp only [hr.mem.log.ensureLog]
    exact sim_onInstallSnapshotResp hr _ _

lemma sim_onMessage (hmax : s.hard.term < u64Max)
    (hm : Carries cfg snaps c.net m) (hdst : m.dst = i)
    (hT : h.sm.hard.term = (s.onMessage m).1.hard.term) :
    Sim cfg snaps i h c (s.onMessage m) := by
  have hsrc : m.src ≠ i := hdst ▸ hm.1
  unfold onMessage at hT ⊢
  split
  · split
    · rename_i refusal hrefusal
      refine Sim.send_plain hr ⟨hr.mem.selfId ▸ hsrc.symm, ?_⟩
      cases hbody : m.body <;> simp only [hbody, Body.staleRefusal, Option.some.injEq,
        reduceCtorEq] at hrefusal <;> subst hrefusal <;> simp
    · exact .done hr
  · rename_i hstale
    rw [if_neg hstale] at hT
    split
    · rename_i hraise
      rw [if_pos hraise] at hT
      have hfollow := sim_becomeFollower hr hraise.1.le
      have hhard : (s.becomeFollower m.term none).1.hard.term = m.term := by
        simp only [becomeFollower]
        split
        · assumption
        · rfl
      refine hfollow.andThen fun h₁ c₁ hsm hs₁ hr₁ => ?_
      refine sim_route hr₁ (by simp [hraise.2]) (hm.mono (hs₁.keeps hr.reach).net) hdst
        (fun _ => hhard.symm) (hsm ▸ hT)
    · rename_i hkeep
      rw [if_neg hkeep] at hT
      refine (Sim.done hr).andThen fun h₁ c₁ hsm hs₁ hr₁ => ?_
      refine sim_route hr₁ (fun _ => hmax) (hm.mono (hs₁.keeps hr.reach).net) hdst (fun hhyp => ?_)
        (hsm ▸ hT)
      by_contra hne
      exact hkeep ⟨by lia, hhyp⟩

/-- Every event a node can be given, while no transfer waits to be put in force. -/
lemma sim_step (hmax : s.hard.term < u64Max) (hno : s.pendingInstallRound = none) {ev : Event}
    (hrecv : ∀ m, ev = .recv m → Carries cfg snaps c.net m ∧ m.dst = i)
    (hpend : ∀ t r, ev = .persisted t r → (t, r) ∈ h.pending)
    (hT : h.sm.hard.term = (s.step ev).1.hard.term) : Sim cfg snaps i h c (s.step ev) := by
  cases ev with
  | tick => exact sim_onTick hr hmax hT
  | recv m =>
    obtain ⟨hm, hdst⟩ := hrecv m rfl
    exact sim_onMessage hr hmax hm hdst hT
  | persisted t r => exact sim_onPersisted hr hno (hpend t r rfl) hT
  | propose cmd =>
    refine sim_onPropose hr ?_ cmd
    rw [hT]
    exact congrArg _ (s.onPropose_hard cmd)

end

end FerroDb.Cluster
