import FerroDb.Cluster.SimFollower

/-!
# Elections refine the protocol

A pre-campaign is nothing in the protocol: the node is a follower there until it raises its
term. A campaign casts the node's own ballot, a granted vote casts another, and a won campaign
is a win in the protocol too.
-/

namespace FerroDb.Cluster

open Library Consensus Raft.Cluster Bool
open Raft (Step)

variable {cfg : Config} {snaps : Prop} {i src : NodeId} {s s' : Consensus} {h : Node} {c : Abs}
  {n : AbsNode} {net : Set AbsMsg} {l : List Entry}

/-! ## Many messages, and the clock -/

lemma Sim.sends {α : Type*} {as : List α} {f : α → Message} (hr : Related cfg snaps i s h c)
    (H : ∀ a ∈ as, ∀ h₁ c₁, Steps cfg snaps i c c₁ → Related cfg snaps i s h₁ c₁ →
      ∃ c₂, Steps cfg snaps i c₁ c₂ ∧ c₂.node i = c₁.node i ∧
        Carries cfg snaps c₂.net (f a)) :
    Sim cfg snaps i h c (s, as.map fun a => .send (f a)) := by
  induction as generalizing h c with
  | nil => exact .done hr
  | cons a as ih =>
    obtain ⟨c₂, hs, hnode, hm⟩ := H a List.mem_cons_self h c .refl hr
    refine (Sim.send hr hs hnode hm).andThen (f := fun s => (s, as.map fun a => .send (f a)))
      fun h₁ c₁ _ hs₁ hr₁ => ih hr₁ fun b hb h₂ c₂ hs₂ => ?_
    exact H b (.tail _ hb) h₂ c₂ (hs₁.trans hs₂)

/-- A change of the state that the relation does not see. -/
lemma Sim.withState {o : Out} (hsim : Sim cfg snaps i h c o)
    (H : ∀ h' c', Related cfg snaps i o.1 h' c' → Related cfg snaps i s' h' c') :
    Sim cfg snaps i h c (s', o.2) := by
  obtain ⟨⟨h', c', hp, hs, hr⟩, hcr⟩ := hsim
  exact ⟨⟨h', c', hp, hs, H h' c' hr⟩, hcr⟩

section

variable (hr : Related cfg snaps i s h c)
include hr

lemma Related.timers (heard timeout : ℕ) (rng : Rng) : Related cfg snaps i
      { s with sinceHeard := heard, electionTimeout := timeout, rng := rng } h c :=
  hr.mem_only { hr.mem with log := { hr.mem.log with } } rfl

lemma Related.drawTimeout : Related cfg snaps i s.drawTimeout h c := by
  exact hr.timers _ _ _

/-! ## Campaigns -/

omit hr in
lemma Consensus.becomeCandidate_hard (s : Consensus) :
    s.becomeCandidate.1.hard = ⟨satAdd64 s.hard.term 1, some s.selfId⟩ := by
  unfold becomeCandidate
  rw [Out.andThen_fst]
  split
  · rw [becomeLeader_hard]
    rfl
  · rfl

omit hr in
lemma Mem.standing (hm : Mem cfg snaps i s n net) (hv : cfg.contains i = true)
    (hmax : s.hard.term < u64Max) : Mem cfg snaps i s.standing { n with
      term := n.term + 1, vote := some i, role := .candidate, votes := {i}, agreed := 0 } net := by
  have hterm : n.term + 1 = satAdd64 s.hard.term 1 := by
    rw [hm.term, satAdd64, min_eq_left (Nat.succ_le_of_lt hmax)]
  exact { hm with
    term := hterm
    vote := congrArg some hm.selfId.symm
    role := rfl
    campaigning := fun _ => by
      refine ⟨congrArg some hm.config, ?_, ?_⟩
      · simp [Consensus.standing, hm.selfId]
      · simpa [Consensus.standing, hm.selfId] using hv
    precampaigning := nofun
    log := { hm.log with }
    agreed := fun _ => rfl
    leaderless := fun _ => rfl
    ownLeader := nofun
    otherLeader := nofun
    matched := nofun
    sending := nofun
    receiving := fun cur hcur => by
      have hin := hm.receiving cur hcur
      obtain ⟨t, l, hl, hd, hlt⟩ := hin.source
      exact { hin with notLeader := nofun, source := ⟨t, l, hl, hd, Or.inl (by lia)⟩ } }

lemma sim_becomeCandidate (hv : cfg.contains i = true)
    (hmax : s.hard.term < u64Max) (hT : h.sm.hard.term = s.becomeCandidate.1.hard.term) :
    Sim cfg snaps i h c s.becomeCandidate := by
  rw [becomeCandidate_hard] at hT
  have hstand : Sim cfg snaps i h c (s.standing,
      [.persistHardState s.standing.hard.term (some s.selfId)]) := by
    refine Sim.persistHardState hr ?_ ?_ ?_
    · intro c₁ _ hm₁
      refine ⟨_, .stand (Config.mem_voters.mpr hv), ?_⟩
      rw [cast_node, put_node_self]
      exact ⟨hm₁.standing hv hmax, rfl, rfl, rfl, rfl⟩
    · rfl
    · rfl
  have hdraw := hstand.withState fun _ _ hr' => hr'.drawTimeout
  have hout : s.becomeCandidate = Out.andThen (s.standing.drawTimeout,
      [.persistHardState s.standing.hard.term (some s.selfId)]) fun s =>
        Out.andThen (s, [.roleChanged .candidate s.hard.term none]) fun s =>
          if s.campaignWon then s.becomeLeader
          else (s, s.campaignVoters.map fun n =>
            s.sendTo n (.requestVote s.lastTerm s.lastRound)) := rfl
  rw [hout]
  refine hdraw.andThen fun h₁ c₁ hsm₁ _ hr₁ => ?_
  refine (Sim.roleChanged hr₁ (fun hc => by cases hc)).andThen fun h₂ c₂ hsm₂ _ hr₂ => ?_
  split
  · refine sim_becomeLeader hr₂ ?_ rfl ‹_›
    rw [hsm₂, hsm₁]
    exact hT
  · refine Sim.sends hr₂ fun v hv' h₃ c₃ _ hr₃ => ?_
    refine ⟨_, .single (.solicit (hr₃.mem.role.trans rfl)), rfl, ?_, (c₃.node i).log, ?_, ?_, ?_⟩
    · exact ((List.mem_filter.mp hv').2 |> of_decide_eq_true).symm
    · rw [hr₃.mem.term, hr₃.mem.selfId]
      exact Set.mem_insert _ _
    · exact hr₃.mem.log.lastTerm.symm
    · exact hr₃.mem.log.lastRound.symm

omit hr in
lemma Mem.asking (hm : Mem cfg snaps i s n net) (hv : cfg.contains i = true) :
    Mem cfg snaps i s.asking { n with role := .follower, votes := ∅, agreed := 0 } net :=
  { hm with
    role := rfl
    campaigning := nofun
    precampaigning := fun _ => ⟨congrArg some hm.config, hv⟩
    log := { hm.log with }
    agreed := fun _ => rfl
    leaderless := fun _ => rfl
    ownLeader := nofun
    otherLeader := nofun
    matched := nofun
    sending := nofun
    receiving := fun cur hcur => by
      have hin := hm.receiving cur hcur
      obtain ⟨t, l, hl, hd, hlt⟩ := hin.source
      refine { hin with notLeader := nofun, source := ⟨t, l, hl, hd, ?_⟩ }
      exact hlt.imp id fun h => ⟨h.1, rfl⟩ }

lemma Related.asking (hv : cfg.contains i = true) : StepsTo cfg snaps i c s.asking h :=
  hr.put .stepDown ⟨rfl, rfl, rfl, rfl, rfl, rfl, rfl⟩ (hr.mem.asking hv) rfl

lemma sim_startPrecampaign (hv : cfg.contains i = true)
    (hmax : s.hard.term < u64Max) (hT : h.sm.hard.term = s.startPrecampaign.1.hard.term) :
    Sim cfg snaps i h c s.startPrecampaign := by
  obtain ⟨c₁, hs, hr₁⟩ := hr.asking hv
  have hout : s.startPrecampaign = Out.andThen
      (s.asking.drawTimeout, [.roleChanged .preCandidate s.hard.term none]) fun s =>
        if s.campaignWon then s.becomeCandidate
        else (s, s.campaignVoters.map fun n =>
          .send ⟨s.selfId, n, satAdd64 s.hard.term 1, .preVote s.lastTerm s.lastRound⟩) := rfl
  rw [hout, Out.andThen_fst] at hT
  refine Sim.after hs ((Sim.roleChanged hr₁.drawTimeout (fun hc => by cases hc)).andThen
    fun h₂ c₂ hsm₂ _ hr₂ => ?_)
  split
  · rename_i hwon
    rw [if_pos hwon] at hT
    exact sim_becomeCandidate hr₂ hv hmax (by rw [hsm₂]; exact hT)
  · refine Sim.sends hr₂ fun v hv' h₃ c₃ _ hr₃ => ⟨c₃, .refl, rfl, ?_, trivial⟩
    exact ((List.mem_filter.mp hv').2 |> of_decide_eq_true).symm

/-! ## Ticks -/

lemma sim_voterTick (hmax : s.hard.term < u64Max)
    (hT : h.sm.hard.term = s.voterTick.1.hard.term) : Sim cfg snaps i h c s.voterTick := by
  unfold voterTick at hT ⊢
  dsimp only at hT ⊢
  have hr₁ := hr.timers (satAdd32 s.sinceHeard 1) s.electionTimeout s.rng
  split
  · exact .done hr₁
  · rename_i htime
    rw [if_neg htime] at hT
    split
    · rename_i hmay
      rw [if_pos hmay] at hT
      refine sim_startPrecampaign hr₁ ?_ hmax hT
      simp only [mayCampaign, and_eq_true] at hmay
      rw [← hr.mem.config, ← hr.mem.selfId]
      exact hmay.2
    · have hfollow : Sim cfg snaps i h c
          (if s.role ≠ .follower then
            becomeFollower { s with sinceHeard := satAdd32 s.sinceHeard 1 } s.hard.term none
          else ({ s with sinceHeard := satAdd32 s.sinceHeard 1 }, [])) := by
        split
        · exact sim_becomeFollower hr₁ le_rfl
        · exact .done hr₁
      exact hfollow.withState fun _ _ hr' => (hr'.timers 0 _ _).drawTimeout

lemma Related.silence {f : NodeId → Option Progress} (hf : ∀ v, f v = s.progress v ∨
      f v = (s.progress v).map fun (p : Progress) => { p with silent := satAdd32 p.silent 1 })
    (q b : ℕ) :
    Related cfg snaps i { s with progress := f, sinceQuorum := q, sinceHeartbeat := b } h c := by
  have hpeer : ∀ v, ({ s with progress := f }.peer v).matched = (s.peer v).matched ∧
      ({ s with progress := f }.peer v).diverged = (s.peer v).diverged ∧
      ({ s with progress := f }.peer v).sending = (s.peer v).sending := by
    intro v
    simp only [peer]
    rcases hf v with hv | hv <;> rw [hv]
    · exact ⟨rfl, rfl, rfl⟩
    · cases s.progress v <;> exact ⟨rfl, rfl, rfl⟩
  have hmem := hr.mem.sameProgress (f := f) (fun v => ⟨(hpeer v).1, (hpeer v).2.1⟩)
    fun hl v cur hcur => hr.mem.sending hl v cur (by rw [← (hpeer v).2.2]; exact hcur)
  exact hr.mem_only { hmem with log := { hmem.log with } } rfl

lemma sim_leaderTick : Sim cfg snaps i h c s.leaderTick := by
  unfold leaderTick
  split
  · exact sim_becomeFollower hr le_rfl
  · have hsilent : ∀ v, (if v ∈ s.peerIds then
        (s.progress v).map fun (p : Progress) => { p with silent := satAdd32 p.silent 1 }
        else s.progress v) = s.progress v ∨ (if v ∈ s.peerIds then
        (s.progress v).map fun (p : Progress) => { p with silent := satAdd32 p.silent 1 }
        else s.progress v) = (s.progress v).map fun (p : Progress) =>
          { p with silent := satAdd32 p.silent 1 } := by
      intro v
      split
      · exact Or.inr rfl
      · exact Or.inl rfl
    dsimp only
    split
    · exact sim_becomeFollower (hr.silence hsilent _ s.sinceHeartbeat) le_rfl
    · split
      · exact sim_bcastAppend (hr.silence hsilent _ 0)
      · exact .done (hr.silence hsilent _ _)

lemma sim_onTick (hmax : s.hard.term < u64Max)
    (hT : h.sm.hard.term = s.onTick.1.hard.term) : Sim cfg snaps i h c s.onTick := by
  unfold onTick at hT ⊢
  cases hrole : s.role with
  | leader => exact sim_leaderTick hr
  | follower | preCandidate | candidate =>
    rw [hrole] at hT
    exact sim_voterTick hr hmax hT

/-! ## Votes -/

lemma sim_onPreVoteResp (hmax : s.hard.term < u64Max)
    (src : NodeId) (asked : Term) (granted : Bool)
    (hT : h.sm.hard.term = (s.onPreVoteResp src asked granted).1.hard.term) :
    Sim cfg snaps i h c (s.onPreVoteResp src asked granted) := by
  unfold onPreVoteResp at hT ⊢
  split
  · exact .done hr
  · rename_i hcond
    rw [if_neg hcond] at hT
    push Not at hcond
    have hrole := hcond.1
    have hr₁ : Related cfg snaps i { s with votes := insert src s.votes } h c :=
      hr.mem_only { hr.mem with
        campaigning := fun hc => by rw [show s.role = .candidate from hc] at hrole; cases hrole
        log := { hr.mem.log with } } rfl
    dsimp only at hT ⊢
    split
    · rename_i hwon
      rw [if_pos hwon] at hT
      exact sim_becomeCandidate hr₁ (hr.mem.precampaigning hrole).2 hmax hT
    · exact .done hr₁

omit hr in
lemma Mem.covers (hm : Mem cfg snaps i s n net)
    (hlog : s.logIsAtLeastAsComplete (lastTerm tm l) l.length = true) : Covers tm l n.log := by
  simp only [logIsAtLeastAsComplete, or_eq_true, and_eq_true,
    decide_eq_true_eq] at hlog
  rw [hm.log.lastTerm, hm.log.lastRound] at hlog
  exact hlog

lemma sim_onRequestVote (hsrc : src ≠ i) (hm : .requestVote s.hard.term src l ∈ c.net) :
    Sim cfg snaps i h c (s.onRequestVote src (lastTerm tm l) l.length) := by
  unfold onRequestVote
  dsimp only
  split
  · rename_i hcond
    obtain ⟨hvote, -, hlog⟩ := hcond
    have hpersist : Sim cfg snaps i h c ({ s with
        hard := ⟨s.hard.term, some src⟩, sinceHeard := 0 },
        [.persistHardState s.hard.term (some src)]) := by
      refine Sim.persistHardState hr ?_ ?_ ?_
      · intro c₁ hs₁ hm₁
        have hreq := hm₁.term ▸ (hs₁.keeps hr.reach).net hm
        refine ⟨_, .castVote hreq (hm₁.vote ▸ hvote) (hm₁.covers hlog), ?_⟩
        rw [cast_node, put_node_self]
        exact ⟨{ hm₁ with vote := rfl, log := { hm₁.log with } }, rfl, rfl, rfl, rfl⟩
      · rfl
      · rfl
    refine hpersist.andThen (f := fun s => (s, [s.sendTo src (.requestVoteResp true)]))
      fun h₁ c₁ _ hs₁ hr₁ => ?_
    -- the ballot is cast, and may be cast again; then it can be sent
    have hvote₁ : (c₁.node i).vote = some src := hr₁.mem.vote
    have hreq : .requestVote (c₁.node i).term src l ∈ c₁.net :=
      hr₁.mem.term ▸ (hs₁.keeps hr.reach).net hm
    let c₂ := (c₁.put i { c₁.node i with vote := some src }).cast
      ⟨(c₁.node i).term, i, src, (c₁.node i).log⟩
    have hs₂ : Step tm cfg.voters snaps i c₁ c₂ :=
      .castVote hreq (Or.inr hvote₁) (hr₁.mem.covers hlog)
    have hnode : c₂.node i = c₁.node i := by
      simp only [c₂, cast_node, put_node_self]
      rw [← hvote₁]
    have hs₃ : Step tm cfg.voters snaps i c₂
        (c₂.send (.grant (c₂.node i).term i src)) :=
      .sendGrant (l := (c₁.node i).log) (by rw [hnode]; exact Set.mem_insert _ _)
    refine Sim.send hr₁ ((Relation.ReflTransGen.single hs₂).tail hs₃) hnode
      ⟨hr.mem.selfId ▸ hsrc.symm, fun _ => ?_⟩
    rw [hnode, hr₁.mem.term, hr₁.mem.selfId]
    exact Set.mem_insert _ _
  · exact Sim.send_plain hr ⟨hr.mem.selfId ▸ hsrc.symm, nofun⟩

lemma Related.countVote (hcand : s.role = .candidate)
    {v : NodeId} (hv : v ∈ cfg.voters) (hm : .grant s.hard.term v i ∈ c.net) :
    StepsTo cfg snaps i c { s with votes := insert v s.votes } h := by
  obtain ⟨hcamp, hvotes, hsub⟩ := hr.mem.campaigning hcand
  have hrole : (c.node i).role = .candidate := by rw [hr.mem.role, hcand]; rfl
  exact hr.put (.countVote hrole hv (hr.mem.term ▸ hm)) ⟨rfl, rfl, rfl, rfl, rfl, rfl, rfl⟩
    { hr.mem with
      campaigning := fun _ => ⟨hcamp, congrArg (insert v) hvotes, Finset.insert_subset hv hsub⟩
      log := { hr.mem.log with } } rfl

lemma sim_onRequestVoteResp
    (hT : h.sm.hard.term = s.hard.term) {term : Term} {granted : Bool}
    (hm : granted = true → .grant term src i ∈ c.net) :
    Sim cfg snaps i h c (s.onRequestVoteResp src term granted) := by
  unfold onRequestVoteResp
  split
  · exact .done hr
  · rename_i hcond
    push Not at hcond
    obtain ⟨hcand, rfl, hin, hgranted⟩ := hcond
    have hcamp := (hr.mem.campaigning hcand).1
    have hvoter : src ∈ cfg.voters := by
      simpa [campaignContains, hcamp] using hin
    obtain ⟨c₁, hs, hr₁⟩ := hr.countVote hcand hvoter (hm (by simpa using hgranted))
    refine Sim.after hs ?_
    dsimp only
    split
    · exact sim_becomeLeader hr₁ hT hcand ‹_›
    · exact .done hr₁

end

end FerroDb.Cluster
