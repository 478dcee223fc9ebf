import FerroDb.Cluster.SimTransfer

/-!
# A cluster refines the protocol

Restarts, checkpoints and snapshot installs, and with them every step of a cluster: whatever
state a cluster reaches, the protocol reaches one that all its nodes and messages are related to.
-/

namespace FerroDb.Cluster

open Library List Raft.Cluster Consensus Option

variable {l : RoundLog} {log : List Entry} {floor synced : ℕ} {w : World}

open Raft (Step)

variable {cfg : Config} {snaps : Prop} {i : NodeId} {s s' : Consensus} {h : Node} {c c' : Abs}
  {cur : RecvCursor} {n : Node} {f : ℕ} {o : Out}

/-! ## Starting from the disk -/

lemma DiskLog.filter_eq (hd : DiskLog l log floor synced) :
    (l.entries.filter fun e => decide (l.snapshotRound < e.round)) = l.entries := by
  refine filter_eq_self.mpr fun e he => ?_
  obtain ⟨k, hk⟩ := mem_iff_getElem?.mp he
  rw [hd.entries, getElem?_drop] at hk
  have := hd.rounds _ e hk
  simp only [hd.floorRound]
  lia

/-- The last entry of the file, or the floor, is the end of the log. -/
lemma DiskLog.last (hd : DiskLog l log floor synced) :
    (l.entries.getLast?.elim (l.snapshotTerm, l.snapshotRound) fun e => (e.term, e.round)) =
      (lastTerm tm log, log.length) := by
  have hterm := hd.lastTerm_eq
  rw [RoundLog.lastTerm] at hterm
  have hround := hd.lastRound
  cases he : l.entries.getLast? with
  | none =>
    rw [he] at hterm
    rw [RoundLog.lastRound, getLast?_eq_none_iff.mp he] at hround
    exact Prod.ext hterm hround
  | some e =>
    rw [he] at hterm
    refine Prod.ext hterm ?_
    have hsplit : log.take floor ++ l.entries = log := by rw [hd.entries, take_append_drop]
    have hrounds : Rounds (log.take floor ++ l.entries) := by rw [hsplit]; exact hd.rounds
    exact (hrounds.last he).trans (congrArg length hsplit)

/-- A node restored from its disk is a node that has just started. -/
lemma mem_restore (hd : DiskLog l log floor synced) (hard : HardState) (seed digest : UInt64)
    (net : Set AbsMsg) :
    Mem cfg snaps i ((Consensus.new i cfg seed).restore hard l.snapshotRound l.snapshotTerm
        digest l.entries)
      (Raft.Node.start hard.term hard.votedFor log floor) net := by
  have hkept := hd.filter_eq
  have hlast := hd.last
  have hround : ((Consensus.new i cfg seed).restore hard l.snapshotRound l.snapshotTerm
      digest l.entries).lastRound = log.length := by
    simp [restore, hkept, hlast]
  have hdur : ((Consensus.new i cfg seed).restore hard l.snapshotRound l.snapshotTerm
      digest l.entries).durable = log.length := hround
  have hlog : LogRel ((Consensus.new i cfg seed).restore hard l.snapshotRound l.snapshotTerm
      digest l.entries) log 0 := by
    exact {
      tail := by
        refine ⟨l.entries.foldl LogTail.push (.rebased l.snapshotRound digest), ?_, ?_, ?_, ?_⟩
        · simp [restore, hkept]
        · exact LogTail.foldl_push_base _ _
        · rw [LogTail.foldl_push_entries]
          exact hd.entries.trans (by rw [← hd.floorRound]; rfl)
        · exact LogTail.foldl_push_rewritten _ _
      floor_le := hd.floorRound ▸ hd.floor_le
      lastRound := hround
      snapshotTerm := by
        refine hd.floorTerm.trans ?_
        rw [← hd.floorRound]
        rfl
      lastTerm := by simp only [restore, hkept, hlast]
      rounds := hd.rounds }
  exact {
    selfId := rfl
    config := rfl
    term := rfl
    vote := rfl
    role := rfl
    campaigning := nofun
    precampaigning := nofun
    log := hlog
    durable := hdur.symm
    durable_le := hdur.le
    commit := hd.floorRound.symm
    floor := hd.floorRound.symm
    floor_le := le_rfl
    applied_le := le_rfl
    applied_durable := fun _ => by
      rw [hdur]
      exact hd.floorRound ▸ hd.floor_le
    agreed := fun _ => rfl
    leaderless := fun _ => rfl
    ownLeader := nofun
    otherLeader := nofun
    matched := nofun
    sending := nofun
    receiving := nofun }

/-- Starting again from a disk that kept the first `k` rounds. -/
lemma DiskRel.restart (hd : DiskRel cfg snaps i h c)
    (hreach : Raft.Reachable tm cfg.voters snaps c) (hid : h.sm.selfId = i)
    {log : RoundLog} {k : ℕ} (hlog : DiskLog log ((c.node i).log.take k) (c.node i).floor k)
    (hs : ¬ snaps → (c.node i).synced ≤ k) (hk : k ≤ (c.node i).log.length)
    (seed digest : UInt64) : StepsTo cfg snaps i c (h.restart cfg seed digest log).sm
      (h.restart cfg seed digest log) := by
  have hsteps : Steps cfg snaps i c _ := .single (.crash hs hk)
  have hkeeps := hsteps.keeps hreach
  have hlen : ((c.node i).log.take k).length = k := by rw [length_take, min_eq_left hk]
  refine ⟨_, hsteps, ?_⟩
  have hnode := put_node_self c i (Raft.Node.start
    (c.node i).term (c.node i).vote ((c.node i).log.take k) (c.node i).floor)
  exact {
    reach := hsteps.reach hreach
    mem := by
      rw [hnode]
      have hmem : Mem cfg snaps i _ _ c.net := mem_restore hlog h.hard seed digest c.net
      simpa only [Node.restart, hid, hd.hard, put_net] using hmem
    disk := {
      hard := by rw [hnode]; exact hd.hard
      log := by rw [hnode]; exact { hlog with durable := hlog.durable.trans hlen.symm }
      transitions := fun t l hm => hkeeps.leader _ _ (hd.transitions t l hm)
      history := fun htr T e hm => hkeeps.settled _ _ (hd.history htr T e hm)
      floor_applied := le_rfl
      covered := fun htr r h0 hr => hd.covered htr r h0 (by
        have hle : r ≤ log.snapshotRound := hr
        rw [hlog.floorRound, ← hd.log.floorRound] at hle
        exact hle.trans hd.floor_applied)
      outbox := fun m hm => (hd.outbox m hm).mono hkeeps.net }
    applied := rfl
    pending := nofun
    deferred := nofun
    flushed := fun _ => by rw [hnode]; rfl }

/-- A crash that keeps at least what was synced. -/
lemma DiskRel.crash (hd : DiskRel cfg snaps i h c)
    (hreach : Raft.Reachable tm cfg.voters snaps c) (hid : h.sm.selfId = i)
    {log : RoundLog} (hs : h.log.Survives log) (seed digest : UInt64) :
    StepsTo cfg snaps i c (h.restart cfg seed digest log).sm
      (h.restart cfg seed digest log) := by
  obtain ⟨k, hsync, -, hk, hlog⟩ := hd.log.survives hs
  exact hd.restart hreach hid hlog (fun _ => hsync) hk seed digest

/-! ## Checkpoints -/

lemma LogRel.compact {rw' : Term} (hl : LogRel s log rw')
    (hlo : s.snapshotRound ≤ f) (hf : f ≤ log.length) (digest : UInt64) {term : Term}
    (ht : term = termAt tm log f) : LogRel { s.modifyTail (·.compactTo f digest) with
      snapshotRound := f, snapshotTerm := term } log rw' := by
  obtain ⟨t, htail, hb, he, hrw⟩ := hl.tail
  exact {
    tail := by
      refine ⟨t.compactTo f digest, by simp [modifyTail, htail], rfl, ?_, hrw⟩
      rw [LogTail.compactTo_entries, he, hb, drop_drop, Nat.add_sub_cancel' hlo]
    floor_le := hf
    lastRound := hl.lastRound
    snapshotTerm := ht
    lastTerm := hl.lastTerm
    rounds := hl.rounds }

section

variable (hr : Related cfg snaps i s h c)
include hr

/-- Whatever is written can be synced; without a deferred sync it is already. -/
lemma Related.syncAll :
    ∃ c' R, Steps cfg snaps i c c' ∧ c'.net = c.net ∧ (c.node i).reports ⊆ R ∧
      c'.node i = { c.node i with synced := (c.node i).log.length, reports := R } := by
  cases hdef : h.deferred with
  | none =>
    refine ⟨c, (c.node i).reports, .refl, rfl, subset_rfl, ?_⟩
    rw [← hr.flushed hdef]
  | some d =>
    obtain ⟨t, hw⟩ : ∃ t, (c.node i).written = some t := by
      rcases hr.deferred d.1 d.2 hdef with ⟨hw, -⟩ | ⟨hw, -⟩
      · exact ⟨_, hw⟩
      · exact ne_none_iff_exists'.mp hw
    exact ⟨_, _, .single (.sync hw), rfl, Set.subset_insert _ _,
      put_node_self ..⟩

omit hr in
lemma Consensus.compact_ok {through : ℕ} (hlo : s.snapshotRound < through)
    (hc : s.compact through = .ok s') :
    through ≤ s.lastRound ∧ ∃ term digest, s.termAt through = some term ∧
      s' = { s.modifyTail (·.compactTo through digest) with
        snapshotRound := through, snapshotTerm := term } := by
  unfold compact at hc
  rw [if_neg (by lia)] at hc
  split at hc
  · cases hc
  · split at hc
    · cases hc
    · split at hc
      · cases hc
      · rename_i term ht
        cases hc
        exact ⟨by lia, term, _, ht, rfl⟩

/-- The floor rises to a round that is applied. -/
lemma Related.raiseFloor (hno : s.pendingInstallRound = none) (hlo : s.snapshotRound ≤ f)
    (hlen : f ≤ (c.node i).log.length) (hle : f ≤ s.applied) {log : RoundLog}
    (hdl : DiskLog log (c.node i).log f (c.node i).log.length) (sm : Consensus) (digest : UInt64) :
    StepsTo cfg snaps i c { s.modifyTail (·.compactTo f digest) with
        snapshotRound := f, snapshotTerm := termAt tm (c.node i).log f }
      { h with sm := sm, log := log } := by
  obtain ⟨c₁, R, hs₁, hnet₁, hsub, hnode₁⟩ := hr.syncAll
  have hs₂ : Step tm cfg.voters snaps i c₁ (c₁.put i { c₁.node i with floor := f }) := by
    refine .compact ?_ fun htr => ?_
    · rw [hnode₁]
      exact (hle.trans hr.mem.applied_le).trans hr.mem.commit.ge
    · rw [hnode₁]
      exact (hle.trans (hr.mem.applied_durable htr)).trans hr.mem.durable.ge
  have hs : Steps cfg snaps i c _ := hs₁.tail hs₂
  have hkeeps := hs.keeps hr.reach
  have hnode : (c₁.put i { c₁.node i with floor := f }).node i = { c.node i with
      synced := (c.node i).log.length, reports := R, floor := f } := by
    rw [put_node_self, hnode₁]
  refine ⟨_, hs, ?_⟩
  exact {
    reach := hs.reach hr.reach
    mem := by
      rw [hnode, put_net, hnet₁]
      exact { hr.mem with
        log := hr.mem.log.compact hlo hlen digest rfl
        floor := rfl
        floor_le := hle
        receiving := fun cur hcur => { hr.mem.receiving cur hcur with
          above := fun hcomp => by
            simp [pendingInstallRound, show s.receiving = some cur from hcur,
              hcomp] at hno } }
    disk := {
      hard := by rw [hnode]; exact hr.disk.hard
      log := by rw [hnode]; exact hdl
      transitions := fun t l hm => hkeeps.leader _ _ (hr.disk.transitions t l hm)
      history := fun htr T e hm => hkeeps.settled _ _ (hr.disk.history htr T e hm)
      floor_applied := by
        rw [hdl.floorRound]
        exact hle.trans hr.applied.ge
      covered := hr.disk.covered
      outbox := fun m hm => (hr.disk.outbox m hm).mono hkeeps.net }
    applied := hr.applied
    pending := fun t r hm => by
      obtain ⟨r', hr', hrep⟩ := hr.pending t r hm
      exact ⟨r', hr', by rw [hnode]; exact hsub hrep⟩
    deferred := fun t r hdef => by
      rw [hnode]
      rcases hr.deferred t r hdef with hw | ⟨hw, huniv⟩
      · exact Or.inl hw
      · exact Or.inr ⟨hw, Set.univ_subset_iff.mp (huniv ▸ hsub)⟩
    flushed := fun _ => by rw [hnode] }

omit hr in
lemma Related.checkpoint (hr : Related cfg snaps i h.sm h c)
    (hno : h.sm.pendingInstallRound = none) {keep : ℕ}
    (hc : h.checkpoint keep = .ok n) : StepsTo cfg snaps i c n.sm n := by
  unfold Node.checkpoint at hc
  dsimp only at hc
  split at hc
  · cases hc
    exact ⟨c, .refl, hr⟩
  · rename_i habove
    push Not at habove
    have hfloor := hr.disk.log.floorRound.trans hr.mem.floor
    have hlo : h.sm.snapshotRound < h.applied - keep := hfloor ▸ habove.1
    have hlo' : (c.node i).floor < h.applied - keep := hr.disk.log.floorRound ▸ habove.1
    split at hc
    · cases hc
    · rename_i term hterm
      split at hc
      · cases hc
      · rename_i sm hcompact
        split at hc
        · cases hc
        · rename_i log hdiscard
          cases hc
          obtain ⟨hlen, term', digest, hterm', rfl⟩ := compact_ok hlo hcompact
          rw [hr.mem.log.lastRound] at hlen
          obtain ⟨-, rfl⟩ := hr.mem.log.termAt_some hterm' hlo.le
          rw [hr.disk.log.termAt_eq hlo' hlen] at hterm
          cases hterm
          obtain ⟨log', hdiscard', hdl⟩ := hr.disk.log.discardPrefix hlo' hlen
          obtain rfl : log' = log := by simpa [hdiscard'] using hdiscard
          have hle : h.applied - keep ≤ h.sm.applied := by have := hr.applied; lia
          exact hr.raiseFloor hno hlo.le hlen hle hdl _ digest

/-! ## Snapshots -/

/-- A leader arms a transfer of what it has applied. -/
lemma Related.offer (htr : snaps) {k : NodeId}
    {point : SnapshotPoint} (hp : s.snapshotPoint = some point) {snap : Snapshot}
    (hconfig : snap.info.config = point.config)
    (ho : s.offerSnapshotTo k snap = .ok s') : Related cfg snaps i s' h c := by
  obtain ⟨hterm, -, rfl⟩ := offerSnapshotTo_ok ho
  have hlo := hr.mem.log.floor_le_of_some hterm
  obtain ⟨hlen, hterm'⟩ := hr.mem.log.termAt_some hterm hlo
  have hlen' : ((c.node i).log.take snap.info.lastRound).length = snap.info.lastRound := by
    rw [length_take, min_eq_left hlen]
  have hpoint : point.config = cfg := by
    simp only [snapshotPoint] at hp
    split at hp
    · cases hp
    · simp only [bind, bind_eq_some_iff, pure, some.injEq] at hp
      obtain ⟨-, -, -, -, rfl⟩ := hp
      exact hr.mem.config
  refine hr.mem_only (hr.mem.setPeer rfl rfl ?_) rfl
  rintro - cur ⟨⟩
  refine ⟨htr, hlen', ?_, hconfig.trans hpoint, hr.mem.log.rounds.of_isPrefix (List.take_prefix _ _)⟩
  rw [Library.lastTerm, hlen', termAt_take le_rfl, hterm']

omit hr in
lemma DiskLog.emptiedLog (hd : DiskLog h.log log floor synced) :
    ∃ l k, h.emptiedLog = .ok l ∧ DiskLog l (log.take floor) floor k := by
  unfold Node.emptiedLog
  split
  · rename_i hempty
    have hnil : log.drop floor = [] := by rw [← hd.entries]; simpa using hempty
    refine ⟨h.log, synced, rfl, ?_⟩
    rw [take_of_length_le (drop_eq_nil_iff.mp hnil)]
    exact hd
  · rename_i hne
    have hlt : floor < log.length := by
      by_contra hge
      apply hne
      rw [hd.entries, drop_eq_nil_of_le (Nat.not_lt.mp hge)]
      rfl
    rw [RoundLog.firstRound, hd.floorRound]
    obtain ⟨l, hl, hdl⟩ := hd.truncateFrom (Nat.lt_succ_self floor) hlt
    exact ⟨l, _, hl, hdl⟩

omit hr in
/-- The log of a snapshot, with nothing above the floor. -/
lemma Describes.diskLog {info : SnapshotMeta} {l : List Entry} (hd : Describes cfg info l) :
    DiskLog ⟨info.lastRound, info.lastTerm, [], info.lastRound⟩ l info.lastRound l.length where
  floorRound := rfl
  floorTerm := by rw [← hd.length, ← hd.term]; rfl
  floor_le := hd.length.ge
  entries := by rw [drop_eq_nil_of_le hd.length.le]
  durable := hd.length.symm
  rounds := hd.rounds

lemma Related.installPending
    (hlo : s.snapshotRound < cur.info.lastRound) (hi : h.installPending cur = .ok n) : n = { h with
      log := ⟨cur.info.lastRound, cur.info.lastTerm, [], cur.info.lastRound⟩
      applied := max h.applied cur.info.lastRound } := by
  obtain ⟨l, k, hl, hdl⟩ := hr.disk.log.emptiedLog
  have hfloor : l.snapshotRound < cur.info.lastRound := by
    rw [hdl.floorRound, hr.mem.floor]
    exact hlo
  have hempty : l.entries = [] := by
    rw [hdl.entries]
    exact drop_eq_nil_of_le (by rw [length_take]; exact min_le_left _ _)
  have hdiscard : l.discardPrefix cur.info.lastRound cur.info.lastTerm =
      .ok ⟨cur.info.lastRound, cur.info.lastTerm, [], cur.info.lastRound⟩ := by
    have hlast : l.lastRound < cur.info.lastRound := by simpa [RoundLog.lastRound, hempty] using hfloor
    simp only [RoundLog.discardPrefix, hempty, drop_nil]
    rw [if_neg (by lia), if_neg (by lia), if_neg (by lia)]
    rfl
  simp only [Node.installPending, hl, bind, Except.bind, hdiscard, pure, Except.pure,
    Except.ok.injEq] at hi
  exact hi.symm

omit hr in
/-- The state with a transfer put in force. -/
def Consensus.installed (s : Consensus) (cur : RecvCursor) : Consensus :=
  { s with
    acked := Function.update s.acked s.selfId (some cur.info.config.at)
    snapshotRound := cur.info.lastRound
    snapshotTerm := cur.info.lastTerm
    lastRound := cur.info.lastRound
    lastTerm := cur.info.lastTerm
    ownLog := some (.rebased cur.info.lastRound cur.header.baseDigest)
    durable := cur.info.lastRound
    commit := max s.commit cur.info.lastRound
    applied := max s.applied cur.info.lastRound
    agreed := cur.info.lastRound
    receiving := none }

omit hr in
lemma Consensus.onPersisted_install (hs : s.ensureLog = s)
    (hrecv : s.receiving = some cur) (hcomp : cur.complete = true)
    (hcfg : cur.info.config = s.cfg) (hne : cur.info.config.isEmpty = false) (t : Term) :
    s.onPersisted t cur.info.lastRound =
      (s.installed cur).announceDurable.andThen advanceApply := by
  have hpending : s.pendingInstallRound = some cur.info.lastRound := by
    simp [pendingInstallRound, hrecv, hcomp]
  have hnote : s.noteConfigInLog cur.info.config =
      (({ s with acked := Function.update s.acked s.selfId (some cur.info.config.at) }, []),
        none) := by
    rw [noteConfigInLog, if_neg (by simp [hne]), if_pos (by rw [hcfg]),
      if_neg (by simp [hcfg])]
  have hfinish : s.finishInstall = ((s.installed cur, []), none) := by
    simp only [finishInstall, hrecv, hcomp, hnote, installed]
    simp
  have hpersist : (s.installed cur).notePersisted t cur.info.lastRound = s.installed cur := by
    simp [notePersisted, installed]
  simp only [onPersisted, hs, hpending, hfinish, if_true, Out.andThen, hpersist,
    nil_append]

lemma Related.installed
    (hrecv : s.receiving = some cur) (hcomp : cur.complete = true) (sm : Consensus) :
    StepsTo cfg snaps i c (s.installed cur) { h with
      sm := sm
      log := ⟨cur.info.lastRound, cur.info.lastTerm, [], cur.info.lastRound⟩
      applied := max h.applied cur.info.lastRound } := by
  have hin := hr.mem.receiving cur hrecv
  obtain ⟨t, l, hl, hd, ht⟩ := hin.source
  have hlo := hin.above hcomp
  have hdl := hd.diskLog
  have hrole : s.role ≠ .leader := fun hlead => hin.notLeader (hr.mem.leader hlead)
  let n' : AbsNode := { c.node i with
    log := l
    floor := cur.info.lastRound
    synced := l.length
    durable := cur.info.lastRound
    commit := max (c.node i).commit cur.info.lastRound
    agreed := if s.leader.isSome then cur.info.lastRound else 0
    rewritten := 0
    written := some (c.node i).term
    reports := Set.univ }
  have hs : Steps cfg snaps i c (c.put i n') :=
    .single (.install hin.allowed hl hin.notLeader ht rfl rfl rfl rfl rfl)
  have hkeeps := hs.keeps hr.reach
  have hnode : (c.put i n').node i = n' := put_node_self ..
  refine ⟨_, hs, ?_⟩
  exact {
    reach := hs.reach hr.reach
    mem := by
      rw [hnode]
      exact { hr.mem with
        log := {
          tail := ⟨_, rfl, rfl, hdl.entries, rfl⟩
          floor_le := hdl.floor_le
          lastRound := hd.length.symm
          snapshotTerm := hdl.floorTerm
          lastTerm := hd.term.symm
          rounds := hd.rounds }
        durable := rfl
        durable_le := hdl.floor_le
        commit := congrArg (max · cur.info.lastRound) hr.mem.commit
        floor := rfl
        floor_le := le_max_right _ _
        applied_le := max_le_max_right _ hr.mem.applied_le
        applied_durable := fun htr => (htr hin.allowed).elim
        agreed := fun _ => rfl
        matched := fun hlead => (hrole hlead).elim
        sending := fun hlead => (hrole hlead).elim
        receiving := nofun }
    disk := {
      hard := by rw [hnode]; exact hr.disk.hard
      log := by rw [hnode]; exact hdl
      transitions := fun t l hm => hkeeps.leader _ _ (hr.disk.transitions t l hm)
      history := fun htr => (htr hin.allowed).elim
      floor_applied := le_max_right _ _
      covered := fun htr => (htr hin.allowed).elim
      outbox := fun m hm => (hr.disk.outbox m hm).mono hkeeps.net }
    applied := congrArg (max · cur.info.lastRound) hr.applied
    pending := fun t r _ => ⟨r, le_rfl, by rw [hnode]; trivial⟩
    deferred := fun t r _ => Or.inr ⟨by rw [hnode]; nofun, by rw [hnode]⟩
    flushed := fun _ => by rw [hnode] }

omit hr in
/-- Putting a transfer in force, and reporting it. -/
lemma sim_install (hr : Related cfg snaps i h.sm h c)
    (hrecv : h.sm.receiving = some cur) (hcomp : cur.complete = true)
    (hi : h.installPending cur = .ok n) :
    Sim cfg snaps i (n.stepped (.persisted n.sm.hard.term cur.info.lastRound)) c
      (n.sm.step (.persisted n.sm.hard.term cur.info.lastRound)) := by
  have hin := hr.mem.receiving cur hrecv
  obtain ⟨_, _, _, hd, _⟩ := hin.source
  obtain rfl := hr.installPending (hin.above hcomp) hi
  have hstep : h.sm.step (.persisted h.sm.hard.term cur.info.lastRound) =
      (h.sm.installed cur).announceDurable.andThen advanceApply :=
    onPersisted_install hr.mem.log.ensureLog hrecv hcomp
      (hd.config.trans hr.mem.config.symm) hin.usable _
  obtain ⟨c', hs, hr'⟩ := hr.installed hrecv hcomp
    (h.sm.step (.persisted h.sm.hard.term cur.info.lastRound)).1
  have hT : (h.sm.step (.persisted h.sm.hard.term cur.info.lastRound)).1.hard.term =
      (h.sm.installed cur).hard.term := by
    rw [hstep]
    simp
  refine Sim.after hs ?_
  rw [hstep]
  refine (sim_announceDurable hr' hT).andThen fun h₁ c₁ hsm _ hr₁ => sim_advanceApply hr₁ ?_
  rw [hsm, announceDurable_hard]
  exact hT

/-! ## The cluster -/

omit hr in
/-- Every node and every message of the cluster has its counterpart. -/
structure Refines (cfg : Config) (snaps : Prop) (w : World) (c : Abs) : Prop where
  node : ∀ i, Related cfg snaps i (w.node i).sm (w.node i) c
  net : ∀ m ∈ w.net, Carries cfg snaps c.net m

/-- Steps of one node leave the others related. -/
lemma Related.frame {j : NodeId} (hj : i ≠ j)
    (hs : Steps cfg snaps j c c') : Related cfg snaps i s h c' := by
  have hnode : c'.node i = c.node i := hs.node_ne hj
  have hkeeps := hs.keeps hr.reach
  exact {
    reach := hs.reach hr.reach
    mem := by
      rw [hnode]
      exact { hr.mem with
        receiving := fun cur hcur => (hr.mem.receiving cur hcur).mono hkeeps.net }
    disk := hr.disk.same hkeeps (hnode ▸ .refl _)
    applied := hr.applied
    pending := by rw [hnode]; exact hr.pending
    deferred := by rw [hnode]; exact hr.deferred
    flushed := by rw [hnode]; exact hr.flushed }

omit hr in
lemma Refines.set (hw : Refines cfg snaps w c) (hn : StepsTo cfg snaps i c n.sm n) :
    ∃ c', Refines cfg snaps (w.set i n) c' := by
  obtain ⟨c', hs, hr⟩ := hn
  refine ⟨c', fun j => ?_, fun m hm => ?_⟩
  · by_cases hj : j = i
    · subst hj
      simp only [World.set, Function.update_self]
      exact { hr with disk := { hr.disk with outbox := nofun } }
    · simp only [World.set, Function.update_of_ne hj]
      exact (hw.node j).frame hj hs
  · rcases hm with hold | hnew
    · exact (hw.net m hold).mono (hs.keeps (hw.node i).reach).net
    · exact hr.disk.outbox m hnew

omit hr in
lemma Refines.init (seeds : NodeId → UInt64) :
    Refines cfg snaps (World.init cfg seeds) Raft.Cluster.init where
  node := fun _ => {
    reach := .refl
    mem := mem_restore DiskLog.empty .default _ _ _
    disk := {
      hard := rfl
      log := DiskLog.empty
      transitions := nofun
      history := nofun
      floor_applied := le_rfl
      covered := fun _ _ h0 hr => absurd (h0.trans_le hr) (lt_irrefl _)
      outbox := nofun }
    applied := rfl
    pending := nofun
    deferred := nofun
    flushed := fun _ => rfl }
  net := nofun

/-- Related once the state machine has taken its step. -/
lemma Related.stepped (sm : Consensus) : Related cfg snaps i s { h with sm := sm } c :=
  { hr with disk := { hr.disk with } }

end

lemma Sim.performed (hsim : Sim cfg snaps i h c o) (hsm : h.sm = o.1)
    (hp : h.performAll o.2 = .ok n) : StepsTo cfg snaps i c n.sm n := by
  obtain ⟨⟨h', c', hp', hs, hr⟩, -⟩ := hsim
  obtain rfl : h' = n := by simpa [hp'] using hp
  rw [Node.performAll_sm hp, hsm]
  exact ⟨c', hs, hr⟩

lemma Sim.crashed (hsim : Sim cfg snaps i h c o) (hsm : h.sm = o.1)
    (hreach : Raft.Reachable tm cfg.voters snaps c)
    (hc : h.CrashPoint o.2 n) {log : RoundLog} (hs : n.log.Survives log) (seed digest : UInt64) :
    StepsTo cfg snaps i c (n.restart cfg seed digest log).sm
      (n.restart cfg seed digest log) := by
  obtain ⟨⟨h', c', -, -, hr⟩, hcr⟩ := hsim
  obtain ⟨cx, hsx, hdx⟩ := hcr n hc
  have hid : n.sm.selfId = i := by rw [hc.sm, hsm, hr.mem.selfId]
  obtain ⟨c'', hs'', hr''⟩ := hdx.crash (hsx.reach hreach) hid hs seed digest
  exact ⟨c'', hsx.trans hs'', hr''⟩

lemma Refines.event (hw : Refines cfg snaps w c) {ev : Event}
    (hmax : (w.node i).sm.hard.term < u64Max)
    (hp : (w.node i).sm.pendingInstallRound = none) (hd : w.Deliverable i ev) :
    Sim cfg snaps i ((w.node i).stepped ev) c ((w.node i).sm.step ev) := by
  refine sim_step ((hw.node i).stepped _) hmax hp ?_ ?_ rfl
  · rintro m rfl
    exact ⟨hw.net m hd.1, hd.2⟩
  · rintro t r rfl
    exact hd

/-- Every step of the cluster is some steps of the protocol. -/
lemma Refines.step {w' : World} (hw : Refines cfg snaps w c)
    (hmax : ∀ i, (w.node i).sm.hard.term < u64Max) (hs : World.Step cfg snaps w w') :
    ∃ c', Refines cfg snaps w' c' := by
  cases hs with
  | event hp hd h => exact hw.set ((hw.event (hmax _) hp hd).performed rfl h)
  | @crash i _ _ _ seed digest hp hd hc hs =>
    exact hw.set ((hw.event (hmax _) hp hd).crashed rfl (hw.node i).reach hc hs seed digest)
  | @halt i _ seed digest hs =>
    exact hw.set ((hw.node i).disk.crash (hw.node i).reach (hw.node i).mem.selfId hs seed digest)
  | @flush i =>
    refine hw.set ?_
    rw [Node.flushDeferred_sm]
    exact (hw.node i).flush
  | @setGroupCommit i on =>
    exact hw.set ⟨c, .refl, { hw.node i with disk := { (hw.node i).disk with } }⟩
  | @checkpoint i _ _ hp h => exact hw.set ((hw.node i).checkpoint hp h)
  | @offer i _ _ _ _ _ _ _ _ _ _ sm htr hp hb h =>
    exact hw.set ⟨c, .refl, ((hw.node i).offer htr hp (Snapshot.build_info hb).2.2 h).stepped sm⟩
  | @install i _ _ _ hr hcomp hi h =>
    exact hw.set ((sim_install (hw.node i) hr hcomp hi).performed rfl h)
  | @tornInstall i _ _ _ seed digest hr hcomp he hs =>
    have hrel := hw.node i
    obtain ⟨l, k, hl, hdl⟩ := hrel.disk.log.emptiedLog
    obtain rfl : l = _ := by simpa [hl] using he
    have hlen := hrel.disk.log.floor_le
    obtain ⟨k', -, hlo, hhi, hlog⟩ := hdl.survives hs
    obtain rfl : k' = ((c.node i).floor) := by
      rw [length_take] at hhi
      lia
    rw [take_take, min_self] at hlog
    exact hw.set (hrel.disk.restart hrel.reach hrel.mem.selfId hlog
      (fun htr => (htr (hrel.mem.receiving _ hr).allowed).elim) hlen seed digest)
  | @crashInstall i _ _ _ _ seed digest hr hcomp hi hc hs =>
    exact hw.set ((sim_install (hw.node i) hr hcomp hi).crashed rfl (hw.node i).reach hc hs seed
      digest)

/-- Whatever a cluster reaches, the protocol reaches a state it refines. -/
lemma World.Reachable.refines (h : World.Reachable cfg snaps w) :
    ∃ c, Refines cfg snaps w c := by
  induction h with
  | init seeds => exact ⟨_, .init seeds⟩
  | step hr hs _ ih =>
    obtain ⟨c, hc⟩ := ih
    exact hc.step hr.term_lt hs

end FerroDb.Cluster
