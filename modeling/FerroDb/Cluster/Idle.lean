import FerroDb.Cluster.Step

/-!
# What most handlers leave alone

Only an append that conflicts with the log truncates it, and only a chunk of a snapshot moves the
transfer that is being received. Every other handler is idle in both respects: it emits no
truncation, and the transfer goes on from where it was or is given up.
-/

namespace FerroDb.Cluster

/-- The rounds a list of actions truncates from. -/
def truncates (as : List Action) : List Round :=
  as.filterMap fun
    | .truncate r => some r
    | _ => none

@[simp] lemma truncates_nil : truncates [] = [] := rfl
@[simp] lemma truncates_append (as bs : List Action) :
    truncates (as ++ bs) = truncates as ++ truncates bs := List.filterMap_append
@[simp] lemma truncates_cons (a : Action) (as : List Action) :
    truncates (a :: as) = (match a with | .truncate r => [r] | _ => []) ++ truncates as := by
  cases a <;> rfl

lemma truncates_map_send {α : Type*} (as : List α) (f : α → Message) :
    truncates (as.map fun a => .send (f a)) = [] := by
  induction as with
  | nil => rfl
  | cons a as ih => simpa using ih

variable {as : List Action}

lemma mem_truncates {r : Round} : r ∈ truncates as ↔ .truncate r ∈ as := by
  simp only [truncates, List.mem_filterMap]
  constructor
  · rintro ⟨a, ha, heq⟩
    cases a <;> simp_all
  · exact fun h => ⟨_, h, rfl⟩

/-- The message carries neither entries nor a part of a snapshot. -/
def Body.bare : Body → Bool
  | .append .. | .installSnapshot .. => false
  | _ => true

/-- Nothing is truncated, and the transfer that was being received stays where it was or is given
up. -/
structure Idle (o : Out) (receiving : Option RecvCursor) : Prop where
  transfer : o.1.receiving = receiving ∨ o.1.receiving = none
  truncates : truncates o.2 = []

namespace Idle

lemma stay (s : Consensus) (h : Cluster.truncates as = []) :
    Idle (s, as) s.receiving := ⟨.inl rfl, h⟩

lemma andThen {r : Option RecvCursor} {o : Out} {f : Consensus → Out} (h : Idle o r)
    (hf : ∀ s, Idle (f s) s.receiving) : Idle (o.andThen f) r where
  transfer := by
    rcases (hf o.1).transfer with hkept | hnone
    · exact h.transfer.imp hkept.trans hkept.trans
    · exact .inr hnone
  truncates := by rw [Out.andThen_snd, truncates_append, h.truncates, (hf o.1).truncates]; rfl

end Idle

namespace Consensus

variable (s : Consensus)

lemma idle_becomeFollower (t : Term) (l : Option NodeId) :
    Idle (s.becomeFollower t l) s.receiving := by
  refine ⟨.inl rfl, ?_⟩
  unfold becomeFollower
  dsimp only
  split <;> split <;> rfl

variable (src : NodeId)

lemma receiving_adoptLeader (t : Term) : (s.adoptLeader src t).1.receiving = s.receiving := by
  unfold adoptLeader
  dsimp only
  split <;> split <;> rfl

lemma idle_adoptLeader (t : Term) : Idle (s.adoptLeader src t) s.receiving := by
  refine ⟨.inl (s.receiving_adoptLeader src t), ?_⟩
  have hfollow := (s.idle_becomeFollower t (some src)).truncates
  unfold adoptLeader
  dsimp only
  split <;> split <;> first | exact hfollow | rfl

lemma truncates_sendSnapshotChunkTo (n : NodeId) : truncates (s.sendSnapshotChunkTo n) = [] := by
  unfold sendSnapshotChunkTo
  split <;> rfl

lemma idle_sendAppendTo (n : NodeId) : Idle (s.sendAppendTo n) s.receiving := by
  unfold sendAppendTo sendNextTo
  dsimp only
  split
  · exact .stay s rfl
  · rw [← s.receiving_ensureLog]
    split
    · exact .stay _ (truncates_sendSnapshotChunkTo _ n)
    · split <;> exact .stay _ rfl

lemma idle_bcastAppend : Idle s.bcastAppend s.receiving := by
  have hsends : ∀ (ns : List NodeId) (s : Consensus), Idle (s.sendAppendsTo ns) s.receiving := by
    intro ns
    induction ns with
    | nil => exact fun s => .stay s rfl
    | cons n ns ih => exact fun s => (s.idle_sendAppendTo n).andThen ih
  unfold bcastAppend
  split
  · exact .stay s rfl
  · exact hsends _ s

lemma idle_advanceApply : Idle s.advanceApply s.receiving := by
  unfold advanceApply
  dsimp only
  split <;> exact .stay _ rfl

lemma idle_advanceCommit : Idle s.advanceCommit s.receiving := by
  unfold advanceCommit
  split
  · exact (idle_advanceApply _).andThen idle_bcastAppend
  · exact .stay s rfl

lemma idle_appendOwnEntry (c : Command) : Idle (s.appendOwnEntry c) s.receiving :=
  ⟨.inl s.receiving_ensureLog, rfl⟩

lemma idle_becomeLeader : Idle s.becomeLeader s.receiving := by
  have hoffice : ∀ s : Consensus, Idle s.onBecameLeader s.receiving := fun s =>
    Idle.andThen ⟨.inr (receiving_ensureLog _), rfl⟩ fun s => idle_bcastAppend _
  exact Idle.andThen (.stay _ rfl) hoffice

lemma idle_becomeCandidate : Idle s.becomeCandidate s.receiving := by
  unfold becomeCandidate
  refine Idle.andThen ⟨.inl rfl, by rfl⟩ fun s => ?_
  split
  · exact s.idle_becomeLeader
  · exact .stay s (truncates_map_send _ _)

lemma idle_onTick : Idle s.onTick s.receiving := by
  have hpre : ∀ s : Consensus, Idle s.startPrecampaign s.receiving := by
    intro s
    unfold startPrecampaign
    refine Idle.andThen ⟨.inl rfl, by rfl⟩ fun s => ?_
    split
    · exact s.idle_becomeCandidate
    · exact .stay s (truncates_map_send _ _)
  have hvoter : Idle s.voterTick s.receiving := by
    unfold voterTick
    dsimp only
    split
    · exact ⟨.inl rfl, rfl⟩
    · split
      · exact hpre _
      · split
        · exact ⟨.inl rfl, (idle_becomeFollower _ _ _).truncates⟩
        · exact ⟨.inl rfl, rfl⟩
  have hleader : Idle s.leaderTick s.receiving := by
    unfold leaderTick
    dsimp only
    split_ifs
    · exact idle_becomeFollower _ _ _
    · exact idle_becomeFollower _ _ _
    · exact idle_bcastAppend _
    · exact ⟨.inl rfl, rfl⟩
  unfold onTick
  split
  · exact hleader
  all_goals exact hvoter

lemma idle_onPropose (c : Command) : Idle (s.onPropose c) s.receiving := by
  unfold onPropose
  split
  · exact .stay s rfl
  · dsimp only
    rw [← s.receiving_ensureLog]
    split
    · exact .stay _ rfl
    · exact (idle_appendOwnEntry _ c).andThen idle_bcastAppend

/-! ## Answers -/

lemma idle_onPreVoteResp (t : Term) (granted : Bool) :
    Idle (s.onPreVoteResp src t granted) s.receiving := by
  unfold onPreVoteResp
  dsimp only
  split_ifs
  · exact .stay s rfl
  · exact idle_becomeCandidate _
  · exact ⟨.inl rfl, rfl⟩

lemma idle_onRequestVote (t : Term) (r : Round) : Idle (s.onRequestVote src t r) s.receiving := by
  unfold onRequestVote
  dsimp only
  split <;> exact ⟨.inl rfl, rfl⟩

lemma idle_onRequestVoteResp (t : Term) (granted : Bool) :
    Idle (s.onRequestVoteResp src t granted) s.receiving := by
  unfold onRequestVoteResp
  dsimp only
  split_ifs
  · exact .stay s rfl
  · exact idle_becomeLeader _
  · exact ⟨.inl rfl, rfl⟩

lemma idle_onAppendResp (success : Bool) (matched hint : Round)
    (digest : UInt64) : Idle (s.onAppendResp src success matched hint digest) s.receiving := by
  have hrefused : ∀ s : Consensus, Idle (s.onRefused src hint) s.receiving := by
    intro s
    unfold onRefused
    split_ifs
    · exact .stay s rfl
    · exact .stay s rfl
    · exact idle_sendAppendTo _ src
  have hheld : ∀ s : Consensus, Idle (s.onAcknowledged src matched) s.receiving := by
    intro s
    unfold onAcknowledged
    dsimp only
    split_ifs
    · exact .stay s rfl
    · exact idle_advanceCommit _
    · exact idle_sendAppendTo _ src
    · exact ⟨.inl rfl, rfl⟩
  have hnote : ∀ s : Consensus, (s.noteDivergence src matched digest).receiving = s.receiving := by
    intro s
    unfold noteDivergence
    split
    · split <;> rfl
    · rfl
  unfold onAppendResp
  split_ifs
  · exact .stay s rfl
  · exact hrefused _
  · exact hnote (s.setPeer src _) ▸ hheld _

lemma idle_onInstallSnapshotResp (n : ℕ) : Idle (s.onInstallSnapshotResp src n) s.receiving := by
  unfold onInstallSnapshotResp onReceived
  dsimp only
  split
  · exact .stay s rfl
  · split
    · exact ⟨.inl rfl, rfl⟩
    · split_ifs
      · exact ⟨.inl rfl, rfl⟩
      · exact ⟨.inl rfl, rfl⟩
      · exact idle_sendAppendTo _ src
      · exact ⟨.inl rfl, truncates_sendSnapshotChunkTo _ src⟩

lemma idle_route {m : Message} (h : m.body.bare = true) : Idle (s.route m) s.receiving := by
  unfold route
  cases hm : m.body with
  | preVote lastTerm lastRound => exact .stay s rfl
  | preVoteResp granted => exact s.idle_onPreVoteResp _ _ _
  | requestVote lastTerm lastRound => exact s.idle_onRequestVote _ _ _
  | requestVoteResp granted => exact s.idle_onRequestVoteResp _ _ _
  | appendResp success matched hint digest =>
    exact s.receiving_ensureLog ▸ idle_onAppendResp _ _ _ _ _ _
  | installSnapshotResp n => exact s.receiving_ensureLog ▸ idle_onInstallSnapshotResp _ _ _
  | _ => simp [hm, Body.bare] at h

/-! ## Reports -/

lemma idle_finishInstall : Idle s.finishInstall.1 s.receiving := by
  have hconfig : ∀ (s : Consensus) cfg, Idle (s.applyConfig cfg) s.receiving := by
    intro s cfg
    unfold applyConfig
    dsimp only
    split_ifs
    · exact ⟨.inl rfl, rfl⟩
    · exact idle_becomeFollower _ _ _
    · exact ⟨.inl rfl, rfl⟩
  have hnote : ∀ cfg, Idle (s.noteConfigInLog cfg).1 s.receiving := by
    intro cfg
    have hlatch := (s.idle_becomeFollower s.hard.term none).truncates
    unfold noteConfigInLog
    split_ifs
    · exact ⟨.inl rfl, hlatch⟩
    · exact ⟨.inl rfl, hlatch⟩
    · exact ⟨.inl rfl, rfl⟩
    · exact hconfig _ cfg
  unfold finishInstall
  split
  · exact .stay s rfl
  · next cur _ =>
    have hcur := hnote cur.info.config
    split
    · exact .stay s rfl
    · split
      · next o why heq => exact heq ▸ hcur
      · next o heq =>
        rw [heq] at hcur
        exact ⟨.inr rfl, hcur.truncates⟩

lemma idle_onPersisted (t : Term) (r : Round) : Idle (s.onPersisted t r) s.receiving := by
  have hannounce : ∀ s : Consensus, Idle s.announceDurable s.receiving := by
    intro s
    unfold announceDurable
    split
    · exact idle_advanceCommit _
    · split <;> exact .stay s rfl
  have hpersist : ∀ s : Consensus, (s.notePersisted t r).receiving = s.receiving := by
    intro s
    unfold notePersisted
    split <;> rfl
  have hinstall : Idle (if s.ensureLog.pendingInstallRound = some r
      then s.ensureLog.finishInstall else ((s.ensureLog, []), none)).1 s.receiving := by
    rw [← s.receiving_ensureLog]
    split
    · exact idle_finishInstall _
    · exact .stay _ rfl
  unfold onPersisted
  dsimp only
  split
  · exact ⟨hinstall.transfer, by simpa using hinstall.truncates⟩
  · refine hinstall.andThen fun s => ?_
    rw [← hpersist s]
    exact (hannounce _).andThen idle_advanceApply

/-! ## Appends -/

lemma idle_extendLog (fresh : List Entry) : Idle (s.extendLog src fresh) s.receiving := by
  unfold extendLog
  split <;> exact ⟨.inl rfl, rfl⟩

lemma idle_learnFromAppend (es : List Entry) (cm : Round) :
    Idle (s.learnFromAppend es cm) s.receiving := by
  have hwatermark : ∀ (s : Consensus) w, (s.observeQuorumWatermark w).receiving = s.receiving := by
    intro s w
    unfold observeQuorumWatermark
    split <;> rfl
  have hconfig : ∀ (s : Consensus) a, (s.observeConfigAt a).receiving = s.receiving := by
    intro s a
    unfold observeConfigAt
    split <;> rfl
  have hlast := fun s : Consensus => s.idle_advanceApply
  refine ⟨(hlast _).transfer.imp_left fun h => h.trans ?_, (hlast _).truncates⟩
  cases newestConfig es <;> simp [hwatermark, hconfig]

end Consensus

end FerroDb.Cluster
