import FerroDb.Library.Raft.Durability

/-!
# State machine safety

A position is committed in term `t` when a majority acknowledged it to the leader of `t`
and its entry is of term `t`. Every later leader then has it (`leader_complete`): its
voters include one that acknowledged the position, and a log that covers that voter's
log covers the position. Everything a node takes as committed is part of what some
leader committed, so any two nodes agree on it (`committed_comparable`).
-/

namespace FerroDb.Library.Raft

open List Raft.Cluster Function

variable {N E : Type*} {tm : E → ℕ} {voters : Finset N} {c c' : Cluster N E} {i v : N}
  {l l' : List E} {t r T T' : ℕ} {u : ℕ} {b : Ballot N E}

/-! ## Ballots -/

/-- The voter's log at the vote still had everything it ever acknowledged to an earlier
leader, or a leader of a term up to `T` does not have it. -/
def Retains (c : Cluster N E) (u : ℕ) (v : N) (l : List E) (T : ℕ) : Prop :=
  ∀ t m, .ack t v m ∈ c.net → t < u → ∀ r ≤ m, chunk c t r <+: l ∨ Lost c t r T

/-- What a ballot says: the candidate's log covers the voter's, which retains what the
voter acknowledged. -/
structure BallotOk (tm : E → ℕ) (c : Cluster N E) (b : Ballot N E) : Prop where
  voter_le : b.t ≤ (c.node b.v).term
  candidate_le : b.t ≤ (c.node b.c).term
  covers : (c.node b.c).term = b.t → (c.node b.c).role = .candidate →
    Covers tm (c.node b.c).log b.log
  rooted : Rooted tm c.leaderLog b.log
  retains : Retains c b.t b.v b.log b.t

/-- What an election says: a majority voted for a log that covers theirs. -/
structure ElectedOk (tm : E → ℕ) (voters : Finset N) (c : Cluster N E) (u : ℕ) : Prop where
  base : c.baseLog u <+: c.leaderLog u
  base_lt : ∀ e ∈ c.baseLog u, tm e < u
  quorum : ∃ Q, IsMajority voters Q ∧ ∀ v ∈ Q, ∃ l, Rooted tm c.leaderLog l ∧
    Covers tm (c.baseLog u) l ∧ u ≤ (c.node v).term ∧ Retains c u v l (u - 1)

structure VoteInv (tm : E → ℕ) (voters : Finset N) (c : Cluster N E) : Prop where
  request : ∀ t k l, .requestVote t k l ∈ c.net → t ≤ (c.node k).term ∧
    ((c.node k).term = t → (c.node k).role = .candidate → l = (c.node k).log)
  ballot : ∀ b ∈ c.ballots, BallotOk tm c b
  elected : ∀ u, c.leaderOf u ≠ none → ElectedOk tm voters c u

lemma VoteInv.init : VoteInv tm voters (Cluster.init : Cluster N E) where
  request := by simp [Cluster.init]
  ballot := by simp [Cluster.init]
  elected := by simp [Cluster.init]

/-- Retention survives a step: an acknowledgement sent after the vote is of a later term. -/
lemma Retains.mono (h : LogInv tm c) (hk : AckInv c) (hg : Grows tm c c')
    (hack : ∀ t v m, .ack t v m ∈ c'.net → .ack t v m ∈ c.net ∨ t = (c.node v).term)
    (hu : u ≤ (c.node v).term) (hr : Retains c u v l T) : Retains c' u v l T := by
  intro t m hm htu r hrm
  rcases hack t v m hm with hold | rfl
  · have hlen := hrm.trans (hk t v m hold).le_length
    rcases hr t m hold htu r hrm with hpre | hlost
    · exact Or.inl (by rwa [hg.chunk_eq hlen])
    · exact Or.inr (hlost.mono h hg hlen le_rfl)
  · omega

/-- A node's log retains what the node acknowledged, as long as its term allows. -/
lemma AckInv.retains (hk : AckInv c) (v : N) (u : ℕ) :
    Retains c u v (c.node v).log (c.node v).term := by
  intro t m hm _ r hr
  rcases (hk t v m hm).kept r hr with hkept | hlost
  · exact Or.inl hkept.1
  · exact Or.inr hlost

/-- Before a term has a leader, nothing is lost to that leader. -/
lemma Retains.before (hu : c.leaderOf u = none)
    (h : Retains c u v l u) : Retains c u v l (u - 1) := by
  intro t m hm ht r hr
  rcases h t m hm ht r hr with hpre | ⟨w, htw, hw, hled, hnot⟩
  · exact Or.inl hpre
  · have hne : w ≠ u := by
      rintro rfl
      exact hled hu
    exact Or.inr ⟨w, htw, by omega, hled, hnot⟩

variable [DecidableEq N]

/-- Acknowledgements are sent in the sender's own term. -/
lemma Step.ack_term {snaps : Prop} (hs : Step tm voters snaps i c c')
    {m : ℕ} (hm : .ack t v m ∈ c'.net) : .ack t v m ∈ c.net ∨ t = (c.node v).term := by
  cases hs with
  | sendAck =>
    rcases hm with heq | hm
    · cases heq
      exact Or.inr rfl
    · exact Or.inl hm
  | solicit | sendGrant | sendAppend | sendSnapshot =>
    rcases hm with heq | hm
    · cases heq
    · exact Or.inl hm
  | _ => exact Or.inl hm

/-- Only standing for election makes a candidate, and a candidate's log does not change. -/
lemma Step.candidate (hs : Step tm voters False i c c') {k : N}
    (hr : (c'.node k).role = .candidate) :
    (c.node k).role = .candidate ∧ (c'.node k).term = (c.node k).term ∧
        (c'.node k).log = (c.node k).log ∨
      (c.node k).term < (c'.node k).term ∧ (c'.node k).log = (c.node k).log ∧
        ⟨(c'.node k).term, k, k, (c.node k).log⟩ ∈ c'.ballots := by
  by_cases hk : k = i
  · subst hk
    cases hs with
    | stand => exact Or.inr ⟨by simp, by simp, by simp⟩
    | raiseTerm | stepDown | lead | crash => simp [Node.start] at hr
    | appendOwn hr' | extend hr' | truncate hr' => simp [hr'] at hr
    | install htr => exact htr.elim
    | _ => exact Or.inl ⟨by simpa using hr, by simp, by simp⟩
  · rw [hs.node_ne hk] at hr ⊢
    exact Or.inl ⟨hr, rfl, rfl⟩

lemma BallotOk.step (h : LogInv tm c) (he : ElectionInv voters c) (hk : AckInv c)
    (hs : Step tm voters False i c c') (hb : BallotOk tm c b) : BallotOk tm c' b := by
  have hg := h.grows he hs
  refine ⟨hb.voter_le.trans (hg.term_le _), hb.candidate_le.trans (hg.term_le _), ?_,
    hb.rooted.mono hg.leaderLog,
    hb.retains.mono h hk hg (fun _ _ _ hm => hs.ack_term hm) hb.voter_le⟩
  intro hterm hr
  rcases hs.candidate hr with ⟨hr', ht', hl'⟩ | ⟨hlt, -, -⟩
  · rw [hl']
    exact hb.covers (ht' ▸ hterm) hr'
  · have := hb.candidate_le
    omega

lemma ElectedOk.step (h : LogInv tm c) (he : ElectionInv voters c) (hk : AckInv c)
    (hs : Step tm voters False i c c') (hu : c.leaderOf u ≠ none)
    (ho : ElectedOk tm voters c u) : ElectedOk tm voters c' u := by
  have hg := h.grows he hs
  have hbase := hg.baseLog u hu
  obtain ⟨Q, hQ, hv⟩ := ho.quorum
  refine ⟨hbase ▸ ho.base.trans (hg.leaderLog u), hbase ▸ ho.base_lt, Q, hQ, ?_⟩
  intro v hvQ
  obtain ⟨l, hroot, hcov, hle, hret⟩ := hv v hvQ
  exact ⟨l, hroot.mono hg.leaderLog, hbase ▸ hcov, hle.trans (hg.term_le v),
    hret.mono h hk hg (fun _ _ _ hm => hs.ack_term hm) hle⟩

/-- The one new ballot a step can cast is a good one. -/
lemma VoteInv.newBallot (hv : VoteInv tm voters c) (h : LogInv tm c)
    (he : ElectionInv voters c) (hk : AckInv c) (hs : Step tm voters False i c c')
    (hb : b ∈ c'.ballots) (hold : b ∉ c.ballots) : BallotOk tm c' b := by
  have hg := h.grows he hs
  have hret : ∀ u, (c.node i).term ≤ u →
      (∀ t m, .ack t i m ∈ c'.net → .ack t i m ∈ c.net) →
        Retains c' u i (c.node i).log u := by
    intro u hu hsame t m hm htu r hr
    have hm' := hsame t m hm
    have hlen := hr.trans (hk t i m hm').le_length
    rcases hk.retains i u t m hm' htu r hr with hpre | hlost
    · exact Or.inl (by rwa [hg.chunk_eq hlen])
    · exact Or.inr (hlost.mono h hg hlen hu)
  cases hs with
  | stand hvot =>
    rcases hb with rfl | hb
    · refine ⟨by simp, by simp, fun _ _ => by simpa using Covers.refl _, h.rooted i, ?_⟩
      exact hret _ (Nat.le_succ _) fun _ _ hm => hm
    · exact absurd hb hold
  | @castVote k l hm hvote hcov =>
    rcases hb with rfl | hb
    · obtain ⟨hle, hlog⟩ := hv.request _ _ _ hm
      refine ⟨by simp, hle.trans (hg.term_le k), fun ht hr => ?_, h.rooted i, ?_⟩
      · have hsame : ((c.put i { c.node i with vote := some k }).node k).term = (c.node k).term ∧
            ((c.put i { c.node i with vote := some k }).node k).role = (c.node k).role ∧
            ((c.put i { c.node i with vote := some k }).node k).log = (c.node k).log := by
          by_cases hki : k = i
          · subst hki
            simp
          · simp [put_node_ne _ _ _ _ hki]
        simp only [cast_node, hsame] at ht hr ⊢
        rw [← hlog ht hr]
        exact hcov
      · exact hret _ le_rfl fun _ _ hm => hm
    · exact absurd hb hold
  | _ => exact absurd hb hold

/-- A candidate with a majority of ballots is elected by voters whose logs it covers. -/
lemma VoteInv.newLeader (hv : VoteInv tm voters c) (h : LogInv tm c)
    (he : ElectionInv voters c) (hk : AckInv c) (hr : (c.node i).role = .candidate)
    (hq : IsMajority voters (c.node i).votes)
    (hs : Step tm voters False i c c') (hlog : c'.leaderLog (c.node i).term = (c.node i).log)
    (hbase : c'.baseLog (c.node i).term = (c.node i).log) :
    ElectedOk tm voters c' (c.node i).term := by
  have hg := h.grows he hs
  have hnone := he.leaderOf_eq_none hr hq
  refine ⟨by rw [hbase, hlog], by rw [hbase]; exact h.candidate i hr, _, hq, ?_⟩
  intro v hvQ
  obtain ⟨l, hb⟩ := (he.candidate i hr).2.2.2 v hvQ
  have hok := hv.ballot _ hb
  refine ⟨l, hok.rooted.mono hg.leaderLog, ?_, hok.voter_le.trans (hg.term_le v), ?_⟩
  · rw [hbase]
    exact hok.covers rfl hr
  · exact (hok.retains.before hnone).mono h hk hg (fun _ _ _ hm => hs.ack_term hm) hok.voter_le

lemma VoteInv.step (hv : VoteInv tm voters c) (h : LogInv tm c) (he : ElectionInv voters c)
    (hk : AckInv c) (hs : Step tm voters False i c c') : VoteInv tm voters c' := by
  have hg := h.grows he hs
  constructor
  case request =>
    intro t k l hm
    have hold : .requestVote t k l ∈ c.net → t ≤ (c'.node k).term ∧
        ((c'.node k).term = t → (c'.node k).role = .candidate → l = (c'.node k).log) := by
      intro hm
      obtain ⟨hle, hlog⟩ := hv.request t k l hm
      refine ⟨hle.trans (hg.term_le k), fun ht hr => ?_⟩
      rcases hs.candidate hr with ⟨hr', ht', hl'⟩ | ⟨hlt, -, -⟩
      · rw [hl']
        exact hlog (ht' ▸ ht) hr'
      · omega
    cases hs with
    | solicit hr =>
      rcases hm with heq | hm
      · cases heq
        exact ⟨le_rfl, fun _ _ => rfl⟩
      · exact hold hm
    | sendGrant | sendAppend | sendSnapshot | sendAck =>
      rcases hm with heq | hm
      · cases heq
      · exact hold hm
    | _ => exact hold hm
  case ballot =>
    intro b hb
    by_cases hin : b ∈ c.ballots
    · exact (hv.ballot b hin).step h he hk hs
    · exact hv.newBallot h he hk hs hb hin
  case elected =>
    intro u hu
    by_cases hin : c.leaderOf u = none
    · have hs' := hs
      cases hs with
      | lead hr hq =>
        obtain rfl : u = (c.node i).term := by
          by_contra hne
          simp [hne, hin] at hu
        exact hv.newLeader h he hk hr hq hs' (by simp) (by simp)
      | _ => exact absurd hin hu
    · exact (hv.elected u hin).step h he hk hs hin

/-! ## Leader completeness -/

/-- A majority acknowledged position `r` to the leader of term `t`, whose own entry it is. -/
structure Committed (tm : E → ℕ) (voters : Finset N) (c : Cluster N E) (t r : ℕ) : Prop where
  pos : 0 < r
  le_length : r ≤ (c.leaderLog t).length
  own : termAt tm (c.leaderLog t) r = t
  quorum : ∃ Q, IsMajority voters Q ∧ ∀ v ∈ Q, ∃ m, r ≤ m ∧ .ack t v m ∈ c.net

section

omit [DecidableEq N]

lemma Committed.mono (hg : Grows tm c c') (h : Committed tm voters c t r) :
    Committed tm voters c' t r where
  pos := h.pos
  le_length := h.le_length.trans (hg.leaderLog t).length_le
  own := by rw [termAt_of_isPrefix (hg.leaderLog t) h.le_length, h.own]
  quorum := by
    obtain ⟨Q, hQ, hq⟩ := h.quorum
    refine ⟨Q, hQ, fun v hv => ?_⟩
    obtain ⟨m, hrm, hm⟩ := hq v hv
    exact ⟨m, hrm, hg.net hm⟩

/-- The last entry of a committed chunk has the term it was committed in. -/
lemma Committed.lastTerm_chunk (h : Committed tm voters c t r) :
    lastTerm tm (chunk c t r) = t := by
  have hlen : (chunk c t r).length = r := by simp [chunk, h.le_length]
  rw [lastTerm, hlen, chunk, termAt_take le_rfl, h.own]

lemma Committed.chunk_ne_nil (h : Committed tm voters c t r) : chunk c t r ≠ [] := by
  have hlen : (chunk c t r).length = r := by simp [chunk, h.le_length]
  intro hnil
  have := h.pos
  rw [hnil] at hlen
  simp only [length_nil] at hlen
  omega

/-- A leader's log is not empty only if there was a leader. -/
lemma LogInv.led (h : LogInv tm c) (ht : c.leaderLog t ≠ []) : c.leaderOf t ≠ none :=
  fun hnone => ht (h.unled t hnone)

lemma LogInv.sorted_of_rooted (h : LogInv tm c) (hl : Rooted tm c.leaderLog l) :
    TermSorted tm l := by
  by_cases hnil : l = []
  · subst hnil
    exact Pairwise.nil
  · exact (h.sorted _).of_isPrefix (hl.prefix_lastTerm hnil)

/-- A log that covers one with a committed chunk has the chunk too, if every leader
between the two terms has it. -/
lemma Committed.covers (h : LogInv tm c) (hc : Committed tm voters c t r)
    {b : List E} (hl : Rooted tm c.leaderLog l) (hb : Rooted tm c.leaderLog b)
    (hpre : chunk c t r <+: l) (hcov : Covers tm b l) (hlt : ∀ e ∈ b, tm e < u)
    (ih : ∀ w, t < w → w < u → c.leaderOf w ≠ none → chunk c t r <+: c.leaderLog w) :
    chunk c t r <+: b := by
  have hne : l ≠ [] := by
    rintro rfl
    exact hc.chunk_ne_nil (prefix_nil.mp hpre)
  -- the chunk's last entry is in `l`, so `l` ends in term `t` or later
  have htl : t ≤ lastTerm tm l := by
    obtain ⟨p, e, hpe⟩ : ∃ p e, chunk c t r = p ++ [e] :=
      ⟨_, _, (dropLast_append_getLast hc.chunk_ne_nil).symm⟩
    have hte : tm e = t := by
      rw [← hc.lastTerm_chunk, hpe, lastTerm_append_singleton]
    rw [← hte]
    exact (h.sorted_of_rooted hl).le_lastTerm (hpre.subset (by simp [hpe]))
  rcases hcov with hlater | ⟨hsame, hlen⟩
  · -- `b` ends in a later term, whose leader has the chunk
    obtain ⟨e, hmem, hte⟩ := exists_mem_of_lastTerm_pos (Nat.zero_lt_of_lt hlater)
    have hbL := hb.prefix_lastTerm (ne_nil_of_mem hmem)
    have hled : c.leaderOf (lastTerm tm b) ≠ none :=
      h.led fun hnil => ne_nil_of_mem hmem (prefix_nil.mp (hnil ▸ hbL))
    have hchunk := ih _ (by omega) (hte ▸ hlt e hmem) hled
    rcases le_total (chunk c t r).length b.length with hle | hle
    · exact prefix_of_prefix_length_le hchunk hbL hle
    · have hin : e ∈ chunk c t r := (prefix_of_prefix_length_le hbL hchunk hle).subset hmem
      have := h.leaderTerm_le t e (mem_of_mem_take hin)
      omega
  · -- both end in the same term, and `b` is the longer one
    have hbne : b ≠ [] := by
      rintro rfl
      exact hne (length_eq_zero_iff.mp (Nat.le_zero.mp hlen))
    have h1 := hl.prefix_lastTerm hne
    have h2 := hb.prefix_lastTerm hbne
    rw [hsame] at h1
    exact hpre.trans (prefix_of_prefix_length_le h1 h2 hlen)

/-- `l` is part of what was committed in some term up to `T`. -/
def CommittedPart (tm : E → ℕ) (voters : Finset N) (c : Cluster N E) (T : ℕ) (l : List E) :
    Prop :=
  l = [] ∨ ∃ t r, t ≤ T ∧ Committed tm voters c t r ∧ l <+: chunk c t r

lemma CommittedPart.mono (hg : Grows tm c c') (hT : T ≤ T')
    (h : CommittedPart tm voters c T l) : CommittedPart tm voters c' T' l := by
  rcases h with rfl | ⟨t, r, ht, hc, hpre⟩
  · exact Or.inl rfl
  · exact Or.inr ⟨t, r, ht.trans hT, hc.mono hg, by rwa [hg.chunk_eq hc.le_length]⟩

lemma CommittedPart.of_isPrefix (h : CommittedPart tm voters c T l)
    (hp : l' <+: l) : CommittedPart tm voters c T l' := by
  rcases h with rfl | ⟨t, r, ht, hc, hpre⟩
  · exact Or.inl (prefix_nil.mp hp)
  · exact Or.inr ⟨t, r, ht, hc, hp.trans hpre⟩

lemma Committed.led (h : LogInv tm c) (hc : Committed tm voters c t r) : c.leaderOf t ≠ none := by
  refine h.led fun hnil => ?_
  have h1 := hc.pos
  have h2 := hc.le_length
  rw [hnil, length_nil] at h2
  omega

end

/-- **Leader completeness.** Whatever was committed in a term, every later leader has. -/
lemma VoteInv.leader_complete (hv : VoteInv tm voters c) (h : LogInv tm c)
    (hc : Committed tm voters c t r) (htu : t < u) (hu : c.leaderOf u ≠ none) :
    chunk c t r <+: c.leaderLog u := by
  induction u using Nat.strong_induction_on with
  | _ u ih =>
    have ho := hv.elected u hu
    obtain ⟨P, hP, hack⟩ := hc.quorum
    obtain ⟨Q, hQ, hvote⟩ := ho.quorum
    obtain ⟨v, hvP, hvQ⟩ := hP.exists_mem_inter hQ
    obtain ⟨m, hrm, hm⟩ := hack v hvP
    obtain ⟨l, hroot, hcov, -, hret⟩ := hvote v hvQ
    have hpre : chunk c t r <+: l := by
      rcases hret t m hm htu r hrm with hpre | ⟨w, htw, hw, hled, hnot⟩
      · exact hpre
      · exact absurd (ih w (by omega) htw hled) hnot
    have hbroot := (h.leaderRooted u).of_isPrefix ho.base
    refine (hc.covers h hroot hbroot hpre hcov ho.base_lt ?_).trans ho.base
    exact fun w htw hwu hled => ih w hwu htw hled

/-! ## Commit -/

/-- A leader of a term at least as late has all of it. -/
lemma VoteInv.committedPart_leader (hv : VoteInv tm voters c) (h : LogInv tm c)
    (hl : CommittedPart tm voters c T l) (hu : c.leaderOf u ≠ none) (hT : T ≤ u) :
    l <+: c.leaderLog u := by
  rcases hl with rfl | ⟨t, r, ht, hc, hpre⟩
  · exact nil_prefix
  · refine hpre.trans ?_
    rcases eq_or_lt_of_le (ht.trans hT) with rfl | hlt
    · exact take_prefix _ _
    · exact hv.leader_complete h hc hlt hu

/-- **State machine safety.** Two committed parts are parts of one log. -/
lemma VoteInv.committed_comparable (hv : VoteInv tm voters c) (h : LogInv tm c)
    (hl : CommittedPart tm voters c T l)
    (hl' : CommittedPart tm voters c T' l') : l <+: l' ∨ l' <+: l := by
  rcases hl with rfl | ⟨t, r, -, hc, hpre⟩
  · exact Or.inl nil_prefix
  rcases hl' with rfl | ⟨t', r', -, hc', hpre'⟩
  · exact Or.inr nil_prefix
  -- both are prefixes of the log of the later of the two leaders
  have hjoin : ∃ g, l <+: g ∧ l' <+: g := by
    rcases le_total t t' with hle | hle
    · exact ⟨_, hv.committedPart_leader h (Or.inr ⟨t, r, le_rfl, hc, hpre⟩) (hc'.led h) hle,
        hpre'.trans (List.take_prefix _ _)⟩
    · exact ⟨_, hpre.trans (List.take_prefix _ _),
        hv.committedPart_leader h (Or.inr ⟨t', r', le_rfl, hc', hpre'⟩) (hc.led h) hle⟩
  obtain ⟨g, hg, hg'⟩ := hjoin
  exact prefix_or_prefix_of_prefix hg hg'

/-- What every reachable cluster keeps about commits. -/
structure CommitInv (tm : E → ℕ) (voters : Finset N) (c : Cluster N E) : Prop where
  matched : ∀ i, (c.node i).role = .leader → ∀ v, (c.node i).matched v = 0 ∨
    ∃ m, (c.node i).matched v ≤ m ∧ .ack (c.node i).term v m ∈ c.net
  le_length : ∀ i, (c.node i).commit ≤ (c.node i).log.length
  commit : ∀ i, CommittedPart tm voters c (c.node i).term
    ((c.node i).log.take (c.node i).commit)
  append : ∀ t prev prevTerm es cm, .append t prev prevTerm es cm ∈ c.net →
    cm ≤ (c.leaderLog t).length ∧ CommittedPart tm voters c t (chunk c t cm)

omit [DecidableEq N] in
lemma CommitInv.init : CommitInv tm voters (Cluster.init : Cluster N E) where
  matched := by simp [Cluster.init, Node.start]
  le_length := by simp [Cluster.init, Node.start]
  commit := fun _ => Or.inl (by simp [Cluster.init, Node.start])
  append := by simp [Cluster.init]

/-- What a step does to a node's committed prefix: it keeps it, or learns it anew. -/
lemma CommitInv.commit_step (hc : CommitInv tm voters c) (h : LogInv tm c)
    (hd : DiskInv c) (hk : AckInv c) (hs : Step tm voters False i c c') :
    (c'.node i).commit ≤ (c'.node i).log.length ∧ CommittedPart tm voters c (c'.node i).term
      ((c'.node i).log.take (c'.node i).commit) := by
  have hle := hc.le_length i
  have hpart := hc.commit i
  have hi := hd i
  cases hs with
  | raiseTerm ht =>
    simp only [put_node_self]
    refine ⟨hle, ?_⟩
    rcases hpart with hnil | ⟨t, r, htT, hcom, hpre⟩
    · exact Or.inl hnil
    · exact Or.inr ⟨t, r, htT.trans ht.le, hcom, hpre⟩
  | stand =>
    simp only [cast_node, put_node_self]
    refine ⟨hle, ?_⟩
    rcases hpart with hnil | ⟨t, r, htT, hcom, hpre⟩
    · exact Or.inl hnil
    · exact Or.inr ⟨t, r, htT.trans (Nat.le_succ _), hcom, hpre⟩
  | appendOwn =>
    simp only [publish_node, put_node_self]
    rw [take_append_of_le_length hle]
    exact ⟨hle.trans (by simp), hpart⟩
  | extend =>
    simp only [put_node_self]
    rw [take_append_of_le_length hle]
    exact ⟨hle.trans (by simp), hpart⟩
  | truncate hr hm hk hes hlog hne hcm =>
    simp only [put_node_self]
    rw [take_take, min_eq_left (by omega), length_take]
    exact ⟨by omega, hpart⟩
  | @learnCommit prev prevTerm es cm hr hm =>
    simp only [put_node_self]
    obtain ⟨hcm, hcmpart⟩ := hc.append _ _ _ _ _ hm
    refine ⟨max_le hle ((min_le_right _ _).trans hi.agreed_le), ?_⟩
    rcases le_total (c.node i).commit (min cm (c.node i).agreed) with hmax | hmax
    · rw [max_eq_right hmax]
      refine hcmpart.of_isPrefix ?_
      -- the follower's log agrees with the leader's as far as the new commit reaches
      have hagree : (c.node i).log.take (min cm (c.node i).agreed) <+:
          c.leaderLog (c.node i).term :=
        (take_prefix_take_left (min_le_right _ _)).trans hi.agreed
      exact isPrefix_take hagree ((length_take_le _ _).trans (min_le_left _ _))
    · rw [max_eq_left hmax]
      exact hpart
  | @advance Q q hr hQ hq h0 ht =>
    simp only [put_node_self]
    have hlead := h.leader i hr
    have hack : ∀ v ∈ Q, ∃ m, q ≤ m ∧ .ack (c.node i).term v m ∈ c.net := by
      intro v hv
      rcases hc.matched i hr v with hzero | ⟨m, hmm, hm⟩
      · have := hq v hv
        omega
      · exact ⟨m, (hq v hv).trans hmm, hm⟩
    obtain ⟨v, hvQ, -⟩ := hQ.exists_mem_inter hQ
    obtain ⟨m, hqm, hm⟩ := hack v hvQ
    have hlen := hqm.trans (hk _ _ _ hm).le_length
    refine ⟨hlead ▸ hlen, Or.inr ⟨_, q, le_rfl, ⟨by omega, hlen, by rw [hlead, ht], Q, hQ, hack⟩, ?_⟩⟩
    rw [chunk, hlead]
  | crash hsy hkl =>
    simp only [put_node_self, Node.start]
    have hfloor := hi.floor_le_synced.trans (hsy not_false)
    refine ⟨by simp [hkl, hfloor], ?_⟩
    rw [take_take, min_eq_left hfloor]
    exact hpart.of_isPrefix (take_prefix_take_left hi.floor_le_commit)
  | install htr => exact htr.elim
  | _ => exact ⟨by simpa using hle, by simpa using hpart⟩

lemma CommitInv.matched_step (hc : CommitInv tm voters c) (hs : Step tm voters False i c c')
    (hr : (c'.node i).role = .leader) (v : N) : (c'.node i).matched v = 0 ∨
      ∃ m, (c'.node i).matched v ≤ m ∧ .ack (c'.node i).term v m ∈ c'.net := by
  cases hs with
  | raiseTerm | stepDown | stand | crash => simp [Node.start] at hr
  | lead => exact Or.inl (by simp)
  | truncate hr' | extend hr' | agree hr' | learnCommit hr' => simp [hr'] at hr
  | @recvAck w m hr' hm =>
    simp only [put_node_self]
    by_cases hw : v = w
    · subst hw
      simp only [update_self]
      rcases hc.matched i hr' v with hzero | ⟨m', hmm, hm'⟩
      · exact Or.inr ⟨m, by simp [hzero], hm⟩
      · rcases le_total m' m with hle | hle
        · exact Or.inr ⟨m, max_le (hmm.trans hle) le_rfl, hm⟩
        · exact Or.inr ⟨m', max_le hmm hle, hm'⟩
    · simp only [update_of_ne hw]
      exact hc.matched i hr' v
  | @forget w =>
    simp only [put_node_self] at hr ⊢
    by_cases hw : v = w
    · subst hw
      exact Or.inl (by simp)
    · simp only [update_of_ne hw]
      exact hc.matched i hr v
  | solicit | sendGrant | sendAppend | sendAck | sendSnapshot =>
    rcases hc.matched i hr v with hzero | ⟨m, hmm, hm⟩
    · exact Or.inl hzero
    · exact Or.inr ⟨m, hmm, Or.inr hm⟩
  | install htr => exact htr.elim
  | _ => simpa using hc.matched i (by simpa using hr) v

lemma CommitInv.step (hc : CommitInv tm voters c) (h : LogInv tm c)
    (he : ElectionInv voters c) (hd : DiskInv c) (hk : AckInv c)
    (hs : Step tm voters False i c c') : CommitInv tm voters c' := by
  have hg := h.grows he hs
  obtain ⟨hle, hpart⟩ := hc.commit_step h hd hk hs
  constructor
  case matched =>
    intro j hr v
    by_cases hj : j = i
    · subst hj
      exact hc.matched_step hs hr v
    · rw [hs.node_ne hj] at hr ⊢
      rcases hc.matched j hr v with hzero | ⟨m, hmm, hm⟩
      · exact Or.inl hzero
      · exact Or.inr ⟨m, hmm, hg.net hm⟩
  case le_length =>
    intro j
    by_cases hj : j = i
    · subst hj
      exact hle
    · rw [hs.node_ne hj]
      exact hc.le_length j
  case commit =>
    intro j
    by_cases hj : j = i
    · subst hj
      exact hpart.mono hg le_rfl
    · rw [hs.node_ne hj]
      exact (hc.commit j).mono hg le_rfl
  case append =>
    intro t prev prevTerm es cm hm
    have hold : .append t prev prevTerm es cm ∈ c.net →
        cm ≤ (c'.leaderLog t).length ∧ CommittedPart tm voters c' t (chunk c' t cm) := by
      intro hm
      obtain ⟨hcm, hp⟩ := hc.append _ _ _ _ _ hm
      exact ⟨hcm.trans (hg.leaderLog t).length_le, hg.chunk_eq hcm ▸ hp.mono hg le_rfl⟩
    cases hs with
    | sendAppend hr =>
      rcases hm with heq | hm
      · cases heq
        have hlead := h.leader i hr
        refine ⟨by simpa [hlead] using hc.le_length i, ?_⟩
        simp only [chunk, send_leaderLog, hlead]
        exact (hc.commit i).mono hg le_rfl
      · exact hold hm
    | solicit | sendGrant | sendAck | sendSnapshot =>
      rcases hm with heq | hm
      · cases heq
      · exact hold hm
    | _ => exact hold hm

/-! ## Runs -/

/-- Everything a run without snapshot transfers keeps. -/
structure SafeInv (tm : E → ℕ) (voters : Finset N) (c : Cluster N E) : Prop where
  election : ElectionInv voters c
  log : LogInv tm c
  disk : DiskInv c
  ack : AckInv c
  vote : VoteInv tm voters c
  commit : CommitInv tm voters c

omit [DecidableEq N] in
lemma SafeInv.init : SafeInv tm voters (Cluster.init : Cluster N E) :=
  ⟨ElectionInv.init voters, LogInv.init, DiskInv.init, AckInv.init, VoteInv.init, CommitInv.init⟩

lemma SafeInv.step (h : SafeInv tm voters c) (hs : Step tm voters False i c c') :
    SafeInv tm voters c' where
  election := h.election.step hs
  log := h.log.step h.election hs
  disk := h.disk.step h.log h.election hs
  ack := h.ack.step h.log h.election h.disk hs
  vote := h.vote.step h.log h.election h.ack hs
  commit := h.commit.step h.log h.election h.disk h.ack hs

lemma SafeInv.moves (h : SafeInv tm voters c) (hs : Moves tm voters False c c') :
    SafeInv tm voters c' := by
  induction hs with
  | refl => exact h
  | tail _ hm ih =>
    obtain ⟨i, hi⟩ := hm
    exact ih.step hi

end FerroDb.Library.Raft
