import FerroDb.Cluster.SimLeader

/-!
# The follower's side refines the protocol

Stepping down, following a leader, and taking its rounds: what is held already is compared, a
conflicting suffix is dropped, the rest is appended, and what is durable is acknowledged.
-/

namespace FerroDb.Cluster

open Library List Consensus Raft.Cluster Option
open Raft (Step Matches)

variable {cfg : Config} {snaps : Prop} {i src dst : NodeId} {s : Consensus} {h : Node} {c : Abs}
  {n : AbsNode} {net : Set AbsMsg} {l : Option NodeId} {log : List Entry} {a r : Round}
  {es : List Entry} {t rw' : Term} {prev : ℕ}

/-! ## Stepping down -/

/-- Following, in the same term or a later one. -/
lemma Mem.follow (hm : Mem cfg snaps i s n net) {hard : HardState}
    {v : Option NodeId} (ht : t = hard.term) (hv : v = hard.votedFor)
    (hle : s.hard.term ≤ hard.term) (ha : l.isSome = true → a = 0) (hl : l ≠ some i) :
    Mem cfg snaps i { s with
        hard := hard, role := .follower, leader := l, campaign := none, votes := ∅,
        sinceHeard := 0, agreed := a }
      { n with term := t, vote := v, role := .follower, votes := ∅, agreed := 0 } net :=
  { hm with
    term := ht
    vote := hv
    role := rfl
    campaigning := nofun
    precampaigning := nofun
    log := { hm.log with }
    agreed := fun _ => by
      change 0 = if l.isSome = true then a else 0
      split
      · exact (ha ‹_›).symm
      · rfl
    leaderless := by rintro (hc | hc) <;> cases hc
    ownLeader := nofun
    otherLeader := fun _ => hl
    matched := nofun
    sending := nofun
    receiving := fun cur hcur => by
      have hin := hm.receiving cur hcur
      obtain ⟨t', l', hl', hd, hlt⟩ := hin.source
      have hterm := hm.term
      refine { hin with notLeader := nofun, source := ⟨t', l', hl', hd, ?_⟩ }
      rcases Nat.lt_or_ge t' t with hlt' | hge
      · exact Or.inl hlt'
      · exact Or.inr ⟨by lia, rfl⟩ }

section

variable (hr : Related cfg snaps i s h c)
include hr

/-- The silent part of stepping down within a term. -/
lemma Related.stepDown (ha : l.isSome = true → a = 0) (hl : l ≠ some i) :
    StepsTo cfg snaps i c { s with
      role := .follower, leader := l, campaign := none, votes := ∅, sinceHeard := 0,
      agreed := a } h :=
  hr.put .stepDown ⟨rfl, rfl, rfl, rfl, rfl, rfl, rfl⟩
    (hr.mem.follow hr.mem.term hr.mem.vote le_rfl ha hl) rfl

/-- Stepping down within a term, with or without a report of it. -/
lemma sim_stepDown (ha : l.isSome = true → a = 0) (hl : l ≠ some i) (p : Prop) [Decidable p] :
    Sim cfg snaps i h c ({ s with
        role := .follower, leader := l, campaign := none, votes := ∅, sinceHeard := 0,
        agreed := a }, if p then [.roleChanged .follower s.hard.term l] else []) := by
  obtain ⟨c', hs, hr'⟩ := hr.stepDown ha hl
  refine Sim.after hs ?_
  split
  · exact Sim.roleChanged hr' nofun
  · exact .done hr'

lemma sim_becomeFollower
    (ht : s.hard.term ≤ t) : Sim cfg snaps i h c (s.becomeFollower t none) := by
  unfold becomeFollower
  rcases eq_or_lt_of_le ht with rfl | hlt
  · simp only [if_true]
    exact sim_stepDown hr (l := none) (a := s.agreed) (by simp) nofun _
  · simp only [if_neg (Nat.ne_of_lt hlt)]
    have hraise : Sim cfg snaps i h c ({ s with
        hard := ⟨t, none⟩, role := .follower, leader := none, campaign := none, votes := ∅,
        sinceHeard := 0 }, [.persistHardState t none]) := by
      refine Sim.persistHardState hr ?_ ?_ ?_
      · intro c₁ _ hm₁
        have hlt₁ : (c₁.node i).term < t := hm₁.term ▸ hlt
        refine ⟨_, .raiseTerm hlt₁, ?_⟩
        rw [put_node_self]
        exact ⟨hm₁.follow rfl rfl hlt.le (by simp) nofun, rfl, rfl, rfl, rfl⟩
      · rfl
      · rfl
    refine hraise.andThen (f := fun s' => (s', if s.role ≠ .follower ∨ s.hard.term ≠ t ∨
      s.leader ≠ none then [.roleChanged .follower t none] else [])) fun h₁ c₁ _ _ hr₁ => ?_
    split
    · exact Sim.roleChanged hr₁ nofun
    · exact .done hr₁

omit hr in
/-- Only a follower has a leader other than itself. -/
lemma Mem.role_of_leader (hm : Mem cfg snaps i s n net) (hsrc : src ≠ i)
    (hl : s.leader = some src) : s.role = .follower := by
  cases hrole : s.role with
  | follower => rfl
  | preCandidate =>
    rw [hm.leaderless (Or.inl hrole)] at hl
    cases hl
  | candidate =>
    rw [hm.leaderless (Or.inr hrole)] at hl
    cases hl
  | leader =>
    rw [hm.ownLeader hrole] at hl
    exact (hsrc (some.inj hl).symm).elim

/-- A node that follows `src` already, or starts to. -/
lemma sim_adoptLeader (hsrc : src ≠ i) : Sim cfg snaps i h c (s.adoptLeader src s.hard.term) ∧
      (s.adoptLeader src s.hard.term).1.role = .follower ∧
      (s.adoptLeader src s.hard.term).1.leader = some src := by
  unfold adoptLeader
  by_cases hadopt : s.leader = some src
  · have hrole := hr.mem.role_of_leader hsrc hadopt
    rw [if_neg (by simpa using hadopt), if_neg (by simp [hadopt, hrole])]
    exact ⟨.done (hr.mem_only { hr.mem with log := { hr.mem.log with } } rfl), hrole, hadopt⟩
  · rw [if_pos hadopt, if_pos (Or.inr (Or.inl hadopt))]
    unfold becomeFollower
    simp only [if_true]
    exact ⟨sim_stepDown hr (fun _ => rfl) (by simpa using hsrc) _, trivial, trivial⟩

/-! ## Comparing a batch with the log -/

omit hr in
/-- How far the batch is held, and what stops it there. -/
structure HeldPart (log : List Entry) (prev : ℕ) (es : List Entry) (k : ℕ)
    (conflict : Option Round) : Prop where
  le : k ≤ es.length
  inside : prev + k ≤ log.length
  same : ∀ j, 0 < j → j ≤ k → termAt tm es j = termAt tm log (prev + j)
  ends : conflict = none → k = es.length ∨ log.length = prev + k
  differs : ∀ r, conflict = some r → r = prev + k + 1 ∧ k < es.length ∧ prev + k < log.length ∧
    termAt tm es (k + 1) ≠ termAt tm log (prev + k + 1)

omit hr in
lemma LogRel.heldPart (hl : LogRel s log rw')
    (hfloor : s.snapshotRound ≤ prev) (hprev : prev ≤ log.length)
    (hes : ∀ k e, es[k]? = some e → e.round = prev + 1 + k) :
    HeldPart log prev es (s.heldPart es).1 (s.heldPart es).2 := by
  induction es generalizing prev with
  | nil =>
    exact ⟨le_rfl, hprev, fun j h0 hj => absurd hj (by simp [heldPart]; lia),
      fun _ => Or.inl rfl, nofun⟩
  | cons e es ih =>
    have hround : e.round = prev + 1 := hes 0 e rfl
    rcases Nat.lt_or_ge log.length (prev + 1) with hend | hin
    · rw [heldPart, hround, hl.termAt_none hend]
      exact ⟨Nat.zero_le _, hprev, fun j h0 hj => absurd hj (by lia),
        fun _ => Or.inr (by lia), nofun⟩
    · rw [heldPart, hround, hl.termAt_eq (by lia) hin]
      have hone : termAt tm (e :: es) 1 = e.term := rfl
      dsimp only
      split
      · rename_i hterm
        have hih := ih (by lia) hin fun k e' he' => by
          have := hes (k + 1) e' (by simpa using he')
          lia
        exact {
          le := by simpa using hih.le
          inside := by have := hih.inside; lia
          same := by
            intro j h0 hj
            obtain ⟨j, rfl⟩ : ∃ j', j = j' + 1 := ⟨j - 1, by lia⟩
            rcases Nat.eq_zero_or_pos j with rfl | hpos
            · rw [hone, hterm]
            · rw [termAt_cons_succ e es hpos, hih.same j hpos (by lia)]
              lia
          ends := by
            intro hnone
            rcases hih.ends hnone with hk | hk
            · exact Or.inl (by simp [hk])
            · exact Or.inr (by lia)
          differs := by
            intro r hr
            obtain ⟨rfl, hk, hlen, hne⟩ := hih.differs r hr
            have hidx : prev + ((s.heldPart es).1 + 1) + 1 = prev + 1 + (s.heldPart es).1 + 1 := by
              lia
            refine ⟨by lia, by simpa using hk, by lia, ?_⟩
            rw [hidx]
            exact hne }
      · rename_i hterm
        exact ⟨Nat.zero_le _, hprev, fun j h0 hj => absurd hj (by lia), nofun,
          fun r hr => ⟨(some.inj hr).symm, by simp, by lia,
            fun heq => hterm (heq.symm.trans hone)⟩⟩

omit hr in
lemma HeldPart.matches {k : ℕ}
    {conflict : Option Round} (h : HeldPart log prev es k conflict) {prevTerm : Term}
    (ht : termAt tm log prev = prevTerm) : Matches tm log prev prevTerm es k :=
  ⟨h.inside, h.le, ht, h.same⟩

/-! ## Taking a batch -/

lemma sim_refusal (hdst : dst ≠ i)
    (hint : Round) : Sim cfg snaps i h c (s, [s.refusal dst hint]) :=
  Sim.send_plain hr ⟨hr.mem.selfId ▸ hdst.symm, nofun⟩

/-- What is durable and agreed may be acknowledged. -/
lemma sim_acknowledgement (hrole : s.role ≠ .leader)
    {l : NodeId} (hl : s.leader = some l) (hdst : dst ≠ i) :
    Sim cfg snaps i h c (s, [s.acknowledgement dst]) := by
  have hagreed : (c.node i).agreed = s.agreed := by rw [hr.mem.agreed hrole, hl]; rfl
  refine Sim.send hr (.single (.sendAck (m := min s.durable s.agreed) ?_ (Or.inl ?_))) rfl
    ⟨hr.mem.selfId ▸ hdst.symm, fun _ => ?_⟩
  · rw [hr.mem.durable]
    exact min_le_left _ _
  · rw [hagreed]
    exact min_le_right _ _
  · rw [hr.mem.term, hr.mem.selfId]
    exact Set.mem_insert _ _

end

lemma LogRel.truncate (hl : LogRel s log rw') (hlo : s.snapshotRound < r) (hr : r ≤ log.length) :
    LogRel (s.truncateLog r) (log.take (r - 1)) s.hard.term := by
  obtain ⟨t, ht, hb, he, -⟩ := hl.tail
  let t' : LogTail := { t.truncateFrom r with rewrittenInTerm := s.hard.term }
  have hbase : t'.base = s.snapshotRound := (t.truncateFrom_base r).trans hb
  have hentries : t'.entries = (log.take (r - 1)).drop s.snapshotRound := by
    refine (t.truncateFrom_entries (hb ▸ hlo)).trans ?_
    rw [drop_take]
    lia
  have hlen : (log.take (r - 1)).length = r - 1 := by
    rw [length_take]
    lia
  have hsnap : s.snapshotTerm = termAt tm (log.take (r - 1)) s.snapshotRound := by
    rw [termAt_take (by lia)]
    exact hl.snapshotTerm
  -- the state after the cut has the shorter log, so its term at `r - 1` is the last one
  have hcut : LogRel { s with
      ownLog := some t', lastRound := r - 1, lastTerm := Library.lastTerm tm (log.take (r - 1)) }
      (log.take (r - 1)) s.hard.term :=
    { tail := ⟨t', rfl, hbase, hentries, rfl⟩
      floor_le := by rw [hlen]; exact Nat.le_sub_one_of_lt hlo
      lastRound := hlen.symm
      snapshotTerm := hsnap
      lastTerm := rfl
      rounds := hl.rounds.of_isPrefix (List.take_prefix _ _) }
  have hterm := hcut.termAt_eq (r := r - 1) (Nat.le_sub_one_of_lt hlo) hlen.ge
  have htail : (s.truncateLog r).ownLog = some t' := by
    simp [truncateLog, modifyTail, ht, t']
  have hlast : (s.truncateLog r).lastTerm = Library.lastTerm tm (log.take (r - 1)) := by
    rw [Library.lastTerm, hlen, ← some_inj, ← hterm]
    simp only [truncateLog, modifyTail, ht, getD_some]
    rw [show termAt { s with ownLog := some t' } (r - 1) = _ from hterm, hterm]
    rfl
  exact { hcut with
    tail := ⟨t', htail, hbase, hentries, rfl⟩
    lastTerm := hlast }

/-- Dropping a suffix above the commit. -/
lemma Mem.truncate (hm : Mem cfg snaps i s n net) (hrole : s.role = .follower)
    (hc : s.commit < r) (hr : r ≤ n.log.length) :
    Mem cfg snaps i { s.truncateLog r with agreed := min s.agreed (r - 1) }
      { n with
        log := n.log.take (r - 1)
        synced := min n.synced (r - 1)
        written := none
        rewritten := n.term
        durable := min n.durable (r - 1)
        agreed := min n.agreed (r - 1) } net := by
  have hlo : s.snapshotRound < r := by
    have := hm.floor_le
    have := hm.applied_le
    lia
  have happ : s.applied ≤ r - 1 := by
    have := hm.applied_le
    lia
  have hl := hm.log.truncate hlo hr
  rw [← hm.term] at hl
  have hne : s.role ≠ .leader := by rw [hrole]; nofun
  exact { hm with
    campaigning := fun h => by rw [show s.role = .candidate from h] at hrole; cases hrole
    precampaigning := hm.precampaigning
    log := { hl with }
    durable := congrArg (min · (r - 1)) hm.durable
    durable_le := by
      rw [length_take]
      exact le_min (min_le_right _ _) ((min_le_left _ _).trans hm.durable_le)
    applied_durable := fun htr => le_min (hm.applied_durable htr) happ
    agreed := fun _ => by
      change min n.agreed (r - 1) = if s.leader.isSome = true then min s.agreed (r - 1) else 0
      rw [hm.agreed hne]
      split <;> simp
    matched := fun hl' => (hne hl').elim
    sending := fun hl' => (hne hl').elim }

lemma Mem.follower (hm : Mem cfg snaps i s n net) (hrole : s.role = .follower) :
    n.role = .follower := by
  rw [hm.role, hrole]
  rfl

lemma Mem.agreed_eq (hm : Mem cfg snaps i s n net) (hrole : s.role = .follower) {l : NodeId}
    (hl : s.leader = some l) : n.agreed = s.agreed := by
  rw [hm.agreed (by rw [hrole]; nofun), hl]
  rfl

/-- The log agrees with the leader's through the batch. -/
lemma Mem.agree (hm : Mem cfg snaps i s n net) (hrole : s.role = .follower) {l : NodeId}
    (hl : s.leader = some l) (r : ℕ) : Mem cfg snaps i { s with agreed := max s.agreed r }
      { n with agreed := max n.agreed r } net := by
  exact { hm with
    log := { hm.log with }
    agreed := fun _ => by simp [hl, hm.agreed_eq hrole hl] }

variable {l src : NodeId} {prev prevTerm cm k : ℕ} {es : List Entry}

/-- Two logs a state describes match the same batches above its floor. -/
lemma LogRel.matches_congr {log' : List Entry} {rw₁ rw₂ : Term} (h₁ : LogRel s log rw₁)
    (h₂ : LogRel s log' rw₂) (hfloor : s.snapshotRound ≤ prev)
    (hk : Matches tm log prev prevTerm es k) : Matches tm log' prev prevTerm es k := by
  obtain ⟨hlen, hle, hprev, hsame⟩ := hk
  have hlen' : log'.length = log.length := h₂.lastRound.symm.trans h₁.lastRound
  have hterm : ∀ r, s.snapshotRound ≤ r → r ≤ log.length → termAt tm log' r = termAt tm log r := by
    intro r hlo hhi
    have := (h₂.termAt_eq hlo (hlen' ▸ hhi)).symm.trans (h₁.termAt_eq hlo hhi)
    exact some.inj this
  refine ⟨hlen' ▸ hlen, hle, ?_, fun j h0 hj => ?_⟩
  · rw [hterm prev hfloor (by lia), hprev]
  · rw [hterm (prev + j) (by lia) (by lia)]
    exact hsame j h0 hj

section

variable (hr : Related cfg snaps i s h c)
include hr

lemma Related.observeQuorumWatermark (w : Round) :
    Related cfg snaps i (s.observeQuorumWatermark w) h c := by
  unfold Consensus.observeQuorumWatermark
  split
  · exact hr.mem_only { hr.mem with log := { hr.mem.log with } } rfl
  · exact hr

lemma Related.observeConfigAt (a : CfgAt) :
    Related cfg snaps i (s.observeConfigAt a) h c := by
  unfold Consensus.observeConfigAt
  split
  · exact hr.mem_only { hr.mem with log := { hr.mem.log with } } rfl
  · exact hr

section

variable (hrole : s.role = .follower) (hl : s.leader = some l)
  (hm : .append s.hard.term prev prevTerm es cm ∈ c.net)
include hrole hl hm

lemma Related.agree (hk : Matches tm (c.node i).log prev prevTerm es es.length) :
    StepsTo cfg snaps i c { s with agreed := max s.agreed (prev + es.length) } h :=
  hr.put (.agree (hr.mem.follower hrole) (hr.mem.term ▸ hm) hk)
    ⟨rfl, rfl, rfl, rfl, rfl, rfl, rfl⟩ (hr.mem.agree hrole hl _) rfl

/-- The leader's commit counts as far as this log agrees with the leader's. -/
lemma Related.learnCommit :
    StepsTo cfg snaps i c { s with commit := max s.commit (min cm s.agreed) } h :=
  hr.put (.learnCommit (hr.mem.follower hrole) (hr.mem.term ▸ hm))
    ⟨rfl, rfl, rfl, rfl, rfl, rfl, rfl⟩
    { hr.mem with
      log := { hr.mem.log with }
      commit := by simp only [hr.mem.commit, hr.mem.agreed_eq hrole hl]
      applied_le := hr.mem.applied_le.trans (le_max_left _ _) } rfl

lemma sim_learnFromAppend (hT : h.sm.hard.term = s.hard.term) :
    Sim cfg snaps i h c (s.learnFromAppend es cm) := by
  obtain ⟨c', hs, hr'⟩ := hr.learnCommit hrole hl hm
  unfold learnFromAppend
  refine Sim.after hs ?_
  cases newestConfig es with
  | none => exact sim_advanceApply (hr'.observeQuorumWatermark cm) (by simpa using hT)
  | some a =>
    exact sim_advanceApply ((hr'.observeQuorumWatermark cm).observeConfigAt a) (by simpa using hT)

section

variable (hT : h.sm.hard.term = s.hard.term) (hsrc : src ≠ i)
  (hk : Matches tm (c.node i).log prev prevTerm es k)
  (hend : k = es.length ∨ (c.node i).log.length = prev + k)
  (hes : ∀ k e, es[k]? = some e → e.round = prev + 1 + k)
include hT hsrc hk hend hes

/-- The entries not held yet go onto the log; with none there is only the acknowledgement. -/
lemma sim_extendLog : Sim cfg snaps i h c
      (Consensus.extendLog { s with agreed := max s.agreed (prev + es.length) } src (es.drop k)) := by
  have hfol := hr.mem.follower hrole
  have hm' : .append (c.node i).term prev prevTerm es cm ∈ c.net := hr.mem.term ▸ hm
  unfold extendLog
  split
  · rename_i hnil
    have hlen : k = es.length := by
      have := drop_eq_nil_iff.mp (getLast?_eq_none_iff.mp hnil)
      exact le_antisymm hk.2.1 this
    subst hlen
    obtain ⟨c', hs, hr'⟩ := hr.agree hrole hl hm hk
    refine Sim.after hs (sim_acknowledgement hr' ?_ hl hsrc)
    rw [hrole]
    nofun
  · rename_i e he
    have hlt : k < es.length := by
      by_contra hge
      rw [drop_eq_nil_of_le (Nat.not_lt.mp hge)] at he
      cases he
    have hlog := hend.resolve_left (Nat.ne_of_lt hlt)
    have hrounds : Rounds ((c.node i).log ++ es.drop k) := by
      refine hr.mem.log.rounds.append fun j e' he' => ?_
      rw [getElem?_drop] at he'
      have := hes _ e' he'
      lia
    let n₁ : AbsNode := { c.node i with
      log := (c.node i).log ++ es.drop k, written := some (c.node i).term }
    have hs₁ : Step tm cfg.voters snaps i c (c.put i n₁) := .extend hfol hm' hk hlog
    have hn₁ : (c.put i n₁).node i = n₁ := put_node_self ..
    have hs₂ : Step tm cfg.voters snaps i (c.put i n₁)
        ((c.put i n₁).put i { n₁ with agreed := max n₁.agreed (prev + es.length) }) := by
      have : Step tm cfg.voters snaps i (c.put i n₁) ((c.put i n₁).put i
          { (c.put i n₁).node i with
            agreed := max ((c.put i n₁).node i).agreed (prev + es.length) }) :=
        .agree (by rw [hn₁]; exact hfol) (by rw [hn₁]; exact hm')
          (by rw [hn₁]; exact hk.append_drop hlog)
      rwa [hn₁] at this
    have hs := (Relation.ReflTransGen.single hs₁).tail hs₂
    have hne : es.drop k ≠ [] := by
      rintro hnil
      rw [hnil] at he
      cases he
    refine Sim.persist hr hT hne hs ?_ ?_ ?_ ?_ ?_ ?_ ?_ ?_ rfl
    all_goals rw [put_node_self]
    have hmem := (hr.mem.extend he hrounds (some (c.node i).term)).agree hrole hl (prev + es.length)
    exact { hmem with log := { hmem.log with } }

/-- The batch goes onto the log, and the leader's commit is learned. -/
lemma sim_extend_learn : Sim cfg snaps i h c
      ((Consensus.extendLog { s with agreed := max s.agreed (prev + es.length) } src
        (es.drop k)).andThen (Consensus.learnFromAppend · es cm)) := by
  have hkeep : ∀ (s : Consensus) fresh, (s.extendLog src fresh).1.role = s.role ∧
      (s.extendLog src fresh).1.leader = s.leader := by
    intro s fresh
    unfold extendLog
    split <;> exact ⟨rfl, rfl⟩
  refine (sim_extendLog hr hrole hl hm hT hsrc hk hend hes).andThen fun h₁ c₁ hsm hs₁ hr₁ => ?_
  have hm₁ := (hs₁.keeps hr.reach).net hm
  refine sim_learnFromAppend hr₁ ((hkeep _ _).1.trans hrole) ((hkeep _ _).2.trans hl)
    (by rw [extendLog_hard]; exact hm₁) (by rw [hsm]; simpa using hT)

end

lemma sim_acceptAppend (hT : h.sm.hard.term = s.hard.term) (hsrc : src ≠ i)
    (hprev : s.termAt prev = some prevTerm)
    (hes : ∀ k e, es[k]? = some e → e.round = prev + 1 + k) :
    Sim cfg snaps i h c (s.acceptAppend src prev es cm) := by
  have hfloor := hr.mem.log.floor_le_of_some hprev
  have hheld : ∀ {c₁ : Abs}, Mem cfg snaps i s (c₁.node i) c₁.net →
      HeldPart (c₁.node i).log prev es (s.heldPart es).1 (s.heldPart es).2 ∧
        Matches tm (c₁.node i).log prev prevTerm es (s.heldPart es).1 := by
    intro c₁ hm₁
    obtain ⟨hlen, hterm⟩ := hm₁.log.termAt_some hprev hfloor
    have := hm₁.log.heldPart hfloor hlen hes
    exact ⟨this, this.matches hterm⟩
  obtain ⟨hpart, hmatch⟩ := hheld hr.mem
  unfold acceptAppend
  dsimp only
  split
  · rename_i r hconf
    split
    · exact sim_refusal hr hsrc _
    · obtain ⟨hr', hlt, hlen, -⟩ := hpart.differs r hconf
      have hlo : s.snapshotRound < r := by lia
      have hidx : prev + (s.heldPart es).1 = r - 1 := by lia
      -- the cut comes first, and with it what was agreed beyond it
      have htrunc : Sim cfg snaps i h c
          ({ s.truncateLog r with agreed := min s.agreed (r - 1) }, [.truncate r]) := by
        refine Sim.truncate hr hlo (by rw [hr.mem.log.lastRound]; lia) ?_ ?_
        · intro c₁ hs₁ hm₁
          obtain ⟨hpart₁, hmatch₁⟩ := hheld hm₁
          obtain ⟨-, -, hlen₁, hne₁⟩ := hpart₁.differs r hconf
          refine ⟨_, .truncate (hm₁.follower hrole)
            (hm₁.term ▸ (hs₁.keeps hr.reach).net hm) hmatch₁ hlt hlen₁ hne₁
            (by rw [hm₁.commit]; lia), ?_⟩
          rw [put_node_self, hidx]
          exact ⟨hm₁.truncate hrole (by lia) (by lia), rfl, rfl, rfl, rfl, rfl, rfl⟩
        · rfl
      have hcut : Matches tm ((c.node i).log.take (r - 1)) prev prevTerm es (s.heldPart es).1 := by
        obtain ⟨-, hle, hp, hsame⟩ := hmatch
        refine ⟨by rw [length_take]; lia, hle, ?_, fun j h0 hj => ?_⟩
        · rwa [termAt_take (by lia)]
        · rw [termAt_take (by lia)]
          exact hsame j h0 hj
      refine htrunc.andThen (f := fun t => (extendLog { t with
        agreed := max t.agreed (prev + es.length) } src (es.drop (s.heldPart es).1)).andThen
          (learnFromAppend · es cm)) fun h₁ c₁ hsm hs₁ hr₁ => ?_
      have hlog := (hr.mem.truncate hrole (r := r) (by lia) (by lia)).log
      refine sim_extend_learn hr₁ hrole hl ((hs₁.keeps hr.reach).net hm) (by rw [hsm]; exact hT)
        hsrc (hlog.matches_congr hr₁.mem.log hfloor hcut) (Or.inr ?_) hes
      exact hr₁.mem.log.lastRound.symm.trans hidx.symm
  · exact sim_extend_learn hr hrole hl hm hT hsrc hmatch (hpart.ends ‹_›) hes

lemma sim_matchAppend (hT : h.sm.hard.term = s.hard.term) (hsrc : src ≠ i)
    (hes : ∀ k e, es[k]? = some e → e.round = prev + 1 + k) :
    Sim cfg snaps i h c (s.matchAppend src prev prevTerm es cm) := by
  unfold matchAppend
  split
  · exact sim_refusal hr hsrc _
  · split
    · rename_i t ht
      split
      · rename_i heq
        exact sim_acceptAppend hr hrole hl hm hT hsrc (heq ▸ ht) hes
      · exact sim_refusal hr hsrc _
    · exact sim_refusal hr hsrc _

end

lemma sim_onAppend (hT : h.sm.hard.term = s.hard.term)
    (hsrc : src ≠ i) (hm : .append s.hard.term prev prevTerm es cm ∈ c.net) :
    Sim cfg snaps i h c (s.onAppend src s.hard.term prev prevTerm es cm) := by
  unfold onAppend
  split
  · exact sim_refusal hr hsrc _
  · rename_i hwell
    obtain ⟨hadopt, hrole, hl⟩ := sim_adoptLeader hr hsrc
    refine hadopt.andThen fun h₁ c₁ hsm hs₁ hr₁ => ?_
    refine sim_matchAppend hr₁ hrole hl ?_ ?_ hsrc fun k e he =>
      rounds_of_not_malformed (by simpa using hwell) he
    · rw [s.adoptLeader_hard src]
      exact (hs₁.keeps hr.reach).net hm
    · rw [hsm, s.adoptLeader_hard src]
      exact hT

end

end FerroDb.Cluster
