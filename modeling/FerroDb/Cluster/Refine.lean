import FerroDb.Library.Raft.Safety
import FerroDb.Cluster.Disk

/-!
# How a node refines the protocol

`Related` ties a node's state machine (`Mem`), its disk (`DiskRel`) and the reports it waits for
to its counterpart in the replicated-log protocol. The counterpart's log is the whole log, with
the rounds below the snapshot floor that the node no longer retains. `Sim` says that performing
the actions of a handler keeps the relation, and that a crash at any point of it finds a disk
that is related too.
-/

namespace FerroDb.Cluster

open Library Option

variable {n n' : Node} {as : List Action}

open Raft (Grows LogInv ElectionInv SafeInv CommittedPart)

abbrev Abs := Raft.Cluster NodeId Entry
abbrev AbsNode := Raft.Node NodeId Entry
abbrev AbsMsg := Raft.Msg NodeId Entry

/-! ## The log -/

/-- The node's log fields describe `log`, of which it retains what lies above the floor. -/
structure LogRel (s : Consensus) (log : List Entry) (rewritten : Term) : Prop where
  tail : ∃ t, s.ownLog = some t ∧ t.base = s.snapshotRound ∧
    t.entries = log.drop s.snapshotRound ∧ t.rewrittenInTerm = rewritten
  floor_le : s.snapshotRound ≤ log.length
  lastRound : s.lastRound = log.length
  snapshotTerm : s.snapshotTerm = termAt tm log s.snapshotRound
  lastTerm : s.lastTerm = lastTerm tm log
  rounds : Rounds log

variable {r : Round} {net net' : Set AbsMsg} {snaps : Prop} {bs : List Action} {t : Term}
  {cfg : Config} {a : Action}

namespace LogRel

variable {s : Consensus} {log : List Entry} {rw' : Term}

section

variable (h : LogRel s log rw')
include h

lemma ensureLog : s.ensureLog = s := by
  obtain ⟨t, ht, -⟩ := h.tail
  simp [Consensus.ensureLog, ht]

lemma entryAt (hr : s.snapshotRound < r) : s.entryAt r = log[r - 1]? := by
  obtain ⟨t, ht, hb, he, -⟩ := h.tail
  simp only [Consensus.entryAt, ht, bind_some, LogTail.entryAt, hb,
    if_neg (Nat.not_le.mpr hr), he, List.getElem?_drop]
  congr 1
  lia

lemma termAt_of_lt (hr : s.snapshotRound < r) : s.termAt r = (log[r - 1]?).map Entry.term := by
  have he := h.entryAt hr
  obtain ⟨t, ht, -⟩ := h.tail
  simp only [Consensus.termAt, if_neg (Nat.ne_of_gt hr), Consensus.entryAt, ht, bind_some,
    LogTail.termAt] at he ⊢
  rw [he]

/-- The term at a round of the log that is at or above the floor. -/
lemma termAt_eq (hlo : s.snapshotRound ≤ r)
    (hhi : r ≤ log.length) : s.termAt r = some (termAt tm log r) := by
  rcases eq_or_lt_of_le hlo with rfl | hlt
  · simp [Consensus.termAt, h.snapshotTerm]
  · obtain ⟨k, rfl⟩ : ∃ k, r = k + 1 := ⟨r - 1, by lia⟩
    have hk : k < log.length := by lia
    rw [h.termAt_of_lt hlt, termAt_succ_eq hk]
    simp [hk]

lemma termAt_none (hr : log.length < r) : s.termAt r = none := by
  have := h.floor_le
  rw [h.termAt_of_lt (by lia)]
  simp only [map_eq_none_iff, List.getElem?_eq_none_iff]
  lia

/-- A round whose term is known is in the log, unless it lies below the floor. -/
lemma termAt_some (ht : s.termAt r = some t)
    (hlo : s.snapshotRound ≤ r) : r ≤ log.length ∧ termAt tm log r = t := by
  rcases Nat.lt_or_ge log.length r with hlt | hge
  · rw [h.termAt_none hlt] at ht
    cases ht
  · rw [h.termAt_eq hlo hge] at ht
    exact ⟨hge, some.inj ht⟩

/-- A retained round is above the floor or is the floor itself. -/
lemma floor_le_of_some (ht : s.termAt r = some t) : s.snapshotRound ≤ r := by
  by_contra hlt
  obtain ⟨tail, htail, hb, -⟩ := h.tail
  have hlt' : r < s.snapshotRound := by lia
  simp only [Consensus.termAt, if_neg (Nat.ne_of_lt hlt'), htail, bind_some, LogTail.termAt,
    LogTail.entryAt, hb, if_pos hlt'.le] at ht
  cases ht

end

end LogRel

/-! ## What a message claims -/

/-- A snapshot's description fits the log it stands for. -/
structure Describes (cfg : Config) (info : SnapshotMeta) (l : List Entry) : Prop where
  length : l.length = info.lastRound
  term : lastTerm tm l = info.lastTerm
  config : info.config = cfg
  rounds : Rounds l

/-- The protocol message behind a message, where there is one. -/
def Carries (cfg : Config) (snaps : Prop) (net : Set AbsMsg) (m : Message) : Prop :=
  m.src ≠ m.dst ∧
  match m.body with
  | .requestVote lt lr => ∃ l, .requestVote m.term m.src l ∈ net ∧ lastTerm tm l = lt ∧ l.length = lr
  | .requestVoteResp granted => granted = true → .grant m.term m.src m.dst ∈ net
  | .append prev prevTerm es cm => .append m.term prev prevTerm es cm ∈ net
  | .appendResp success matched _ _ => success = true → .ack m.term m.src matched ∈ net
  | .installSnapshot info _ _ _ =>
    snaps ∧ ∃ l, .snapshot m.term l ∈ net ∧ Describes cfg info l
  | .preVote .. | .preVoteResp _ | .installSnapshotResp _ => True

lemma Carries.mono {m : Message}
    (h : Carries cfg snaps net m) (hn : net ⊆ net') : Carries cfg snaps net' m := by
  obtain ⟨hne, h⟩ := h
  refine ⟨hne, ?_⟩
  cases hb : m.body <;> simp only [hb] at h ⊢
  case requestVote =>
    obtain ⟨l, hm, hl⟩ := h
    exact ⟨l, hn hm, hl⟩
  case requestVoteResp => exact fun hg => hn (h hg)
  case append => exact hn h
  case appendResp => exact fun hs => hn (h hs)
  case installSnapshot =>
    obtain ⟨htr, l, hm, hl⟩ := h
    exact ⟨htr, l, hn hm, hl⟩

/-- An applied entry is part of what was committed in a term up to `T`. -/
def Settled (cfg : Config) (c : Abs) (T : Term) (e : Entry) : Prop :=
  ∃ l, CommittedPart tm cfg.voters c T l ∧ 0 < e.round ∧ l[e.round - 1]? = some e

/-! ## The state machine -/

def absRole : Role → Raft.Role
  | .follower | .preCandidate => .follower
  | .candidate => .candidate
  | .leader => .leader

/-- A transfer under way comes from a leader this node may still take it from. -/
structure Incoming (cfg : Config) (snaps : Prop) (floor : Round) (term : Term)
    (role : Raft.Role) (net : Set AbsMsg) (cur : RecvCursor) : Prop where
  allowed : snaps
  usable : cur.info.config.isEmpty = false
  above : cur.complete = true → floor < cur.info.lastRound
  notLeader : role ≠ .leader
  source : ∃ t l, .snapshot t l ∈ net ∧ Describes cfg cur.info l ∧
    (t < term ∨ t = term ∧ role = .follower)

lemma Incoming.mono {floor : Round} {term : Term} {role : Raft.Role} {cur : RecvCursor}
    (h : Incoming cfg snaps floor term role net cur) (hn : net ⊆ net') :
    Incoming cfg snaps floor term role net' cur := by
  obtain ⟨t, l, hl, hrest⟩ := h.source
  exact { h with source := ⟨t, l, hn hl, hrest⟩ }

/-- The state machine of node `i` against its counterpart. -/
structure Mem (cfg : Config) (snaps : Prop) (i : NodeId) (s : Consensus) (n : AbsNode)
    (net : Set AbsMsg) : Prop where
  selfId : s.selfId = i
  config : s.cfg = cfg
  term : n.term = s.hard.term
  vote : n.vote = s.hard.votedFor
  role : n.role = absRole s.role
  campaigning : s.role = .candidate →
    s.campaign = some cfg ∧ n.votes = s.votes ∧ s.votes ⊆ cfg.voters
  precampaigning : s.role = .preCandidate → s.campaign = some cfg ∧ cfg.contains i = true
  log : LogRel s n.log n.rewritten
  durable : n.durable = s.durable
  durable_le : s.durable ≤ n.log.length
  commit : n.commit = s.commit
  floor : n.floor = s.snapshotRound
  floor_le : s.snapshotRound ≤ s.applied
  applied_le : s.applied ≤ s.commit
  applied_durable : ¬ snaps → s.applied ≤ s.durable
  agreed : s.role ≠ .leader → n.agreed = if s.leader.isSome then s.agreed else 0
  leaderless : s.role = .preCandidate ∨ s.role = .candidate → s.leader = none
  ownLeader : s.role = .leader → s.leader = some i
  otherLeader : s.role ≠ .leader → s.leader ≠ some i
  matched : s.role = .leader → ∀ v, v ≠ i → n.matched v = s.heldBy v
  sending : s.role = .leader → ∀ v cur, (s.peer v).sending = some cur →
    snaps ∧ Describes cfg cur.snapshot.info (n.log.take cur.snapshot.info.lastRound)
  receiving : ∀ cur, s.receiving = some cur →
    Incoming cfg snaps s.snapshotRound n.term n.role net cur

/-! ## The disk -/

/-- The disk of node `i`, and what it has done so far, against its counterpart. -/
structure DiskRel (cfg : Config) (snaps : Prop) (i : NodeId) (h : Node) (c : Abs) : Prop where
  hard : h.hard = ⟨(c.node i).term, (c.node i).vote⟩
  log : DiskLog h.log (c.node i).log (c.node i).floor (c.node i).synced
  transitions : ∀ t l, (Role.leader, t, l) ∈ h.transitions → c.leaderOf t = some i
  history : ¬ snaps → ∀ T e, (T, e) ∈ h.appliedLog → Settled cfg c T e
  floor_applied : h.log.snapshotRound ≤ h.applied
  covered : ¬ snaps → ∀ r, 0 < r → r ≤ h.applied →
    ∃ T e, (T, e) ∈ h.appliedLog ∧ e.round = r
  outbox : ∀ m ∈ h.outbox, Carries cfg snaps c.net m

/-- A node and its counterpart, between two actions. -/
structure Related (cfg : Config) (snaps : Prop) (i : NodeId) (s : Consensus) (h : Node)
    (c : Abs) : Prop where
  reach : Raft.Reachable tm cfg.voters snaps c
  mem : Mem cfg snaps i s (c.node i) c.net
  disk : DiskRel cfg snaps i h c
  applied : h.applied = s.applied
  pending : ∀ t r, (t, r) ∈ h.pending → ∃ r', r ≤ r' ∧ (t, r') ∈ (c.node i).reports
  deferred : ∀ t r, h.deferred = some (t, r) →
    (c.node i).written = some t ∧ t = (c.node i).term ∧ r ≤ (c.node i).log.length ∨
      (c.node i).written ≠ none ∧ (c.node i).reports = Set.univ
  flushed : h.deferred = none → (c.node i).synced = (c.node i).log.length

/-- Steps of node `i` only. -/
abbrev Steps (cfg : Config) (snaps : Prop) (i : NodeId) : Abs → Abs → Prop :=
  Relation.ReflTransGen (Raft.Step tm cfg.voters snaps i)

section Steps

variable {cfg : Config} {snaps : Prop} {i : NodeId} {c c' : Abs}

lemma Steps.moves (h : Steps cfg snaps i c c') : Raft.Moves tm cfg.voters snaps c c' := by
  induction h with
  | refl => exact .refl
  | tail _ hs ih => exact ih.tail ⟨i, hs⟩

section

variable (hr : Raft.Reachable tm cfg.voters snaps c)
include hr

lemma Steps.reach
    (h : Steps cfg snaps i c c') : Raft.Reachable tm cfg.voters snaps c' :=
  Relation.ReflTransGen.trans hr h.moves

omit hr in
lemma Steps.node_ne (h : Steps cfg snaps i c c') {j : NodeId} (hj : j ≠ i) :
    c'.node j = c.node j := by
  induction h with
  | refl => rfl
  | tail _ hs ih => rw [hs.node_ne hj, ih]

lemma electionInv : ElectionInv cfg.voters c := (ElectionInv.init _).moves hr

lemma logInv : LogInv tm c :=
  LogInv.init.moves (ElectionInv.init _) hr

omit hr in
lemma safeInv (htr : ¬ snaps) (hr : Raft.Reachable tm cfg.voters snaps c) :
    SafeInv tm cfg.voters c := by
  have hfalse : snaps = False := propext ⟨htr, False.elim⟩
  subst hfalse
  exact SafeInv.init.moves hr

omit hr in
/-- What no step takes back. -/
structure Keeps (cfg : Config) (c c' : Abs) : Prop where
  net : c.net ⊆ c'.net
  leader : ∀ t k, c.leaderOf t = some k → c'.leaderOf t = some k
  settled : ∀ T e, Settled cfg c T e → Settled cfg c' T e

lemma Steps.keeps (h : Steps cfg snaps i c c') : Keeps cfg c c' := by
  induction h with
  | refl => exact ⟨fun _ h => h, fun _ _ h => h, fun _ _ h => h⟩
  | @tail c₁ c₂ hms hs ih =>
    have hreach := Steps.reach hr hms
    have hg := (logInv hreach).grows (electionInv hreach) hs
    refine ⟨ih.net.trans hg.net, fun t k hk => ?_, fun T e he => ?_⟩
    · have hk' := ih.leader t k hk
      rw [hg.leaderOf t (by simp [hk']), hk']
    · obtain ⟨l, hl, hpos, hget⟩ := ih.settled T e he
      exact ⟨l, hl.mono hg le_rfl, hpos, hget⟩

end

end Steps

/-! ## Performing actions -/

namespace Node

lemma flushDeferred_sm (n : Node) : n.flushDeferred.sm = n.sm := by
  unfold flushDeferred
  split <;> rfl

lemma applyLoop_sm {k : ℕ} (h : applyLoop k n = .ok n') : n'.sm = n.sm := by
  induction k generalizing n with
  | zero => cases h; rfl
  | succ k ih =>
    simp only [applyLoop] at h
    split at h <;> try contradiction
    split at h <;> try contradiction
    rw [ih h]

lemma performNow_sm (h : n.performNow a = .ok n') : n'.sm = n.sm := by
  cases a with
  | persist es =>
    simp only [performNow, persistEntries] at h
    split at h
    · cases h; rfl
    · split at h <;> try contradiction
      split at h <;> cases h <;> rfl
  | truncate r =>
    simp only [performNow] at h
    split at h <;> cases h
    rfl
  | «apply» r => exact applyLoop_sm h
  | _ => cases h; rfl

lemma perform_sm (h : n.perform a = .ok n') : n'.sm = n.sm := by
  rw [performNow_sm h]
  split
  · rfl
  · exact flushDeferred_sm n

lemma performAll_sm (h : n.performAll as = .ok n') : n'.sm = n.sm := by
  induction as generalizing n with
  | nil => cases h; rfl
  | cons a as ih =>
    simp only [performAll, Except.bind] at h
    split at h <;> try contradiction
    rename_i m hm
    rw [ih h, perform_sm hm]

lemma CrashPoint.sm (h : CrashPoint n as n') : n'.sm = n.sm := by
  induction h with
  | here => rfl
  | torn => rfl
  | later hp _ ih => rw [ih, perform_sm hp]

lemma performAll_append (h : n.performAll as = .ok n') :
    n.performAll (as ++ bs) = n'.performAll bs := by
  induction as generalizing n with
  | nil => cases h; rfl
  | cons a as ih =>
    simp only [List.cons_append, performAll, Except.bind] at h ⊢
    split at h <;> try contradiction
    exact ih h

/-- A crash in two runs of actions comes in the first or in the second. -/
lemma CrashPoint.append_cases {n'' : Node} (h : CrashPoint n (as ++ bs) n'') :
    CrashPoint n as n'' ∨ ∃ n', n.performAll as = .ok n' ∧ CrashPoint n' bs n'' := by
  induction as generalizing n with
  | nil => exact Or.inr ⟨n, rfl, h⟩
  | cons a as ih =>
    cases h with
    | here => exact Or.inl .here
    | torn hlog => exact Or.inl (.torn hlog)
    | later hp hc =>
      rcases ih hc with hl | ⟨n', hr, hc'⟩
      · exact Or.inl (.later hp hl)
      · exact Or.inr ⟨n', by simpa [performAll, hp, Except.bind] using hr, hc'⟩

end Node

section Sim

variable (cfg : Config) (snaps : Prop) (i : NodeId)

/-- Some steps of the protocol lead to the state. -/
abbrev StepsTo (c : Abs) (s : Consensus) (h : Node) : Prop :=
  ∃ c', Steps cfg snaps i c c' ∧ Related cfg snaps i s h c'

/-- Performing the actions succeeds and ends in a related state; a crash on the way finds a
related disk. -/
def Sim (h : Node) (c : Abs) (o : Out) : Prop :=
  (∃ h' c', h.performAll o.2 = .ok h' ∧ Steps cfg snaps i c c' ∧
    Related cfg snaps i o.1 h' c') ∧
  ∀ hx, h.CrashPoint o.2 hx → ∃ cx, Steps cfg snaps i c cx ∧ DiskRel cfg snaps i hx cx

variable {cfg snaps i} {s s' : Consensus} {h : Node} {c c' : Abs} {o : Out} {a : Action}

lemma Sim.done (hr : Related cfg snaps i s h c) : Sim cfg snaps i h c (s, []) := by
  refine ⟨⟨h, c, rfl, .refl, hr⟩, fun hx hc => ?_⟩
  cases hc
  exact ⟨c, .refl, hr.disk⟩

lemma Sim.after (hs : Steps cfg snaps i c c') (h₁ : Sim cfg snaps i h c' o) :
    Sim cfg snaps i h c o := by
  obtain ⟨⟨h', c'', hp, hst, hr⟩, hcr⟩ := h₁
  refine ⟨⟨h', c'', hp, hs.trans hst, hr⟩, fun hx hc => ?_⟩
  obtain ⟨cx, hsx, hd⟩ := hcr hx hc
  exact ⟨cx, hs.trans hsx, hd⟩

lemma Sim.andThen {f : Consensus → Out} (h₁ : Sim cfg snaps i h c o)
    (h₂ : ∀ h' c', h'.sm = h.sm → Steps cfg snaps i c c' → Related cfg snaps i o.1 h' c' →
      Sim cfg snaps i h' c' (f o.1)) : Sim cfg snaps i h c (o.andThen f) := by
  obtain ⟨⟨h', c', hp, hst, hr⟩, hcr⟩ := h₁
  have hsim := h₂ h' c' (Node.performAll_sm hp) hst hr
  obtain ⟨⟨h'', c'', hp', hst', hr'⟩, hcr'⟩ := hsim
  refine ⟨⟨h'', c'', ?_, hst.trans hst', hr'⟩, fun hx hc => ?_⟩
  · rw [Out.andThen_snd, Node.performAll_append hp, hp']
  · rcases hc.append_cases with hl | ⟨n', hn', hc'⟩
    · exact hcr hx hl
    · obtain rfl : h' = n' := by simpa [hp] using hn'
      obtain ⟨cx, hsx, hd⟩ := hcr' hx hc'
      exact ⟨cx, hst.trans hsx, hd⟩

/-- One action. -/
lemma Sim.single {g : Node} (hd : DiskRel cfg snaps i h c) (hp : h.perform a = .ok g)
    (hs : Steps cfg snaps i c c') (hr : Related cfg snaps i s' g c')
    (ht : ∀ es log, a = .persist es → h.log.append es = .ok log →
      ∃ cx, Steps cfg snaps i c cx ∧ DiskRel cfg snaps i { h with log := log } cx) :
    Sim cfg snaps i h c (s', [a]) := by
  refine ⟨⟨g, c', by simp [Node.performAll, hp, Except.bind], hs, hr⟩, fun hx hc => ?_⟩
  cases hc with
  | here => exact ⟨c, .refl, hd⟩
  | torn hlog => exact ht _ _ rfl hlog
  | later hp' hc' =>
    obtain rfl : g = _ := by simpa [hp] using hp'
    cases hc'
    exact ⟨c', hs, hr.disk⟩

/-! ### Steps that the disk does not see -/

/-- The two nodes have the same durable part. -/
structure SameDisk (n n' : AbsNode) : Prop where
  term : n'.term = n.term
  vote : n'.vote = n.vote
  log : n'.log = n.log
  synced : n'.synced = n.synced
  floor : n'.floor = n.floor
  written : n'.written = n.written
  reports : n'.reports = n.reports

lemma SameDisk.refl (n : AbsNode) : SameDisk n n := ⟨rfl, rfl, rfl, rfl, rfl, rfl, rfl⟩

lemma DiskRel.same (hd : DiskRel cfg snaps i h c) (hk : Keeps cfg c c')
    (he : SameDisk (c.node i) (c'.node i)) : DiskRel cfg snaps i h c' :=
  { hard := by rw [he.term, he.vote]; exact hd.hard
    log := by rw [he.floor, he.log, he.synced]; exact hd.log
    transitions := fun t l hm => hk.leader _ _ (hd.transitions t l hm)
    history := fun htr T e hm => hk.settled _ _ (hd.history htr T e hm)
    floor_applied := hd.floor_applied
    covered := hd.covered
    outbox := fun m hm => (hd.outbox m hm).mono hk.net }

lemma Related.same (hr : Related cfg snaps i s h c) (hs : Steps cfg snaps i c c')
    (he : SameDisk (c.node i) (c'.node i)) (hm : Mem cfg snaps i s' (c'.node i) c'.net)
    (ha : s'.applied = s.applied) : Related cfg snaps i s' h c' where
  reach := hs.reach hr.reach
  mem := hm
  disk := hr.disk.same (hs.keeps hr.reach) he
  applied := hr.applied.trans ha.symm
  pending := by rw [he.reports]; exact hr.pending
  deferred := by rw [he.reports, he.written, he.term, he.log]; exact hr.deferred
  flushed := by rw [he.synced, he.log]; exact hr.flushed

/-- One step of this node that leaves its disk alone. -/
lemma Related.put {n : AbsNode} (hr : Related cfg snaps i s h c)
    (hs : Raft.Step tm cfg.voters snaps i c (c.put i n)) (he : SameDisk (c.node i) n)
    (hm : Mem cfg snaps i s' n c.net) (ha : s'.applied = s.applied) :
    StepsTo cfg snaps i c s' h := by
  refine ⟨_, .single hs, hr.same (.single hs) ?_ ?_ ha⟩ <;> rwa [Raft.Cluster.put_node_self]

/-- A change of the state machine alone. -/
lemma Related.mem_only (hr : Related cfg snaps i s h c)
    (hm : Mem cfg snaps i s' (c.node i) c.net) (ha : s'.applied = s.applied) :
    Related cfg snaps i s' h c :=
  hr.same .refl (.refl _) hm ha

end Sim

end FerroDb.Cluster
