import FerroDb.Cluster.Schedule
import FerroDb.Cluster.SimWorld
import FerroDb.Cluster.Truncate

/-!
# Safety of the cluster

What the refinement brings down to the nodes: one leader in a term, logs that agree below any
entry they share, and one history of applied entries.
-/

namespace FerroDb.Cluster

open Library Option

variable {cfg : Config} {snaps : Prop} {w : World} {i j : NodeId} {c : Abs} {e : Entry}
  {T : Term}

/-- Node `i` was a leader in term `t`: it reported so, which it does before anything it does as
a leader, or it is one now. -/
def World.LedTerm (w : World) (i : NodeId) (t : Term) : Prop :=
  (∃ l, (Role.leader, t, l) ∈ (w.node i).transitions) ∨
    (w.node i).sm.role = .leader ∧ (w.node i).sm.hard.term = t

lemma Refines.leaderOf (hw : Refines cfg snaps w c) {t : Term}
    (h : w.LedTerm i t) : c.leaderOf t = some i := by
  rcases h with ⟨l, hl⟩ | ⟨hrole, rfl⟩
  · exact (hw.node i).disk.transitions t l hl
  · have hmem := (hw.node i).mem
    rw [← hmem.term]
    exact (electionInv (hw.node i).reach).leader i (hmem.leader hrole)

/-- At most one node ever leads a term. -/
theorem election_safety (h : World.Reachable cfg snaps w) {t : Term} (hi : w.LedTerm i t)
    (hj : w.LedTerm j t) : i = j := by
  obtain ⟨c, hw⟩ := h.refines
  exact some.inj ((hw.leaderOf hi).symm.trans (hw.leaderOf hj))

theorem election_safety_pair :
    Pair.final.world.LedTerm 1 1 ∧ ∀ j, Pair.final.world.LedTerm j 1 → j = 1 := by
  have hled : Pair.final.world.LedTerm 1 1 := by
    right
    decide +kernel
  exact ⟨hled, fun j hj => election_safety (Pair.reachable True) hj hled⟩

/-! ## Votes -/

/-- Whatever crashes, a voter grants one vote in a term, and it is on its disk while the term
lasts. -/
theorem votes_once (h : World.Reachable cfg snaps w) {m m' : Message} (hm : m ∈ w.net)
    (hm' : m' ∈ w.net) (hg : m.body = .requestVoteResp true) (hg' : m'.body = .requestVoteResp true)
    (hsrc : m.src = m'.src) (hterm : m.term = m'.term) : m.dst = m'.dst ∧
      (m.term < (w.node m.src).hard.term ∨ (w.node m.src).hard = ⟨m.term, some m.dst⟩) := by
  obtain ⟨c, hw⟩ := h.refines
  have hinv := electionInv (hw.node m.src).reach
  have hballot {m : Message} (hm : m ∈ w.net) (hg : m.body = .requestVoteResp true) :
      ∃ l, ⟨m.term, m.src, m.dst, l⟩ ∈ c.ballots := by
    have hcarries := (hw.net m hm).2
    rw [hg] at hcarries
    exact hinv.grant _ _ _ (hcarries rfl)
  obtain ⟨l, hl⟩ := hballot hm hg
  obtain ⟨l', hl'⟩ := hballot hm' hg'
  refine ⟨hinv.unique _ hl _ hl' hterm hsrc, ?_⟩
  rw [(hw.node m.src).disk.hard]
  rcases hinv.backed _ hl with hlt | ⟨ht, hv⟩
  · exact .inl hlt
  · right
    rw [← ht, hv]

theorem votes_once_pair : ∃ m ∈ Pair.final.world.net, m.src = 2 ∧
    (m.term < (Pair.final.world.node 2).hard.term ∨
      (Pair.final.world.node 2).hard = ⟨m.term, some m.dst⟩) := by
  have h : ∃ m ∈ Pair.final.sent, m.src = 2 ∧ m.body = .requestVoteResp true := by decide +kernel
  obtain ⟨m, hm, hsrc, hg⟩ := h
  exact ⟨m, hm, hsrc, hsrc ▸ (votes_once (Pair.reachable True) hm hm hg hg rfl rfl).2⟩

/-! ## Logs -/

/-- A retained entry is in the whole log. -/
lemma Mem.entryAt_eq {s : Consensus} {n : AbsNode} {net : Set AbsMsg}
    (hm : Mem cfg snaps i s n net) {r : Round} (he : s.entryAt r = some e) :
    0 < r ∧ n.log[r - 1]? = some e := by
  have hlo : s.snapshotRound < r := by
    by_contra hge
    obtain ⟨t, ht, hb, -⟩ := hm.log.tail
    simp [Consensus.entryAt, ht, LogTail.entryAt, hb, Nat.not_lt.mp hge] at he
  exact ⟨by lia, by rw [← hm.log.entryAt hlo, he]⟩

/-- Two nodes that retain entries of one term at one round have the same entry there, and agree
on every lower round that both retain. -/
theorem retained_logs_match (h : World.Reachable cfg snaps w) {r : Round} {e e' : Entry}
    (hi : (w.node i).sm.entryAt r = some e) (hj : (w.node j).sm.entryAt r = some e')
    (ht : e.term = e'.term) :
    e = e' ∧ ∀ r' < r, ∀ f f', (w.node i).sm.entryAt r' = some f →
      (w.node j).sm.entryAt r' = some f' → f = f' := by
  obtain ⟨c, hw⟩ := h.refines
  obtain ⟨h0, hi'⟩ := (hw.node i).mem.entryAt_eq hi
  obtain ⟨-, hj'⟩ := (hw.node j).mem.entryAt_eq hj
  obtain ⟨k, rfl⟩ : ∃ k, r = k + 1 := ⟨r - 1, by lia⟩
  rw [Nat.add_sub_cancel] at hi' hj'
  have hterm : termAt tm (c.node i).log (k + 1) = termAt tm (c.node j).log (k + 1) := by
    simp [termAt, hi', hj', ht]
  have htake := Raft.log_matching (hw.node i).reach
    (List.getElem?_eq_some_iff.mp hi').1 (List.getElem?_eq_some_iff.mp hj').1 hterm
  have hsame : ∀ m, m < k + 1 → (c.node i).log[m]? = (c.node j).log[m]? := by
    intro m hm
    have := congrArg (·[m]?) htake
    simpa [List.getElem?_take, hm] using this
  refine ⟨?_, fun r' hr' f f' hf hf' => ?_⟩
  · rw [hsame k (Nat.lt_succ_self k), hj'] at hi'
    exact (some.inj hi').symm
  · obtain ⟨h0', hf⟩ := (hw.node i).mem.entryAt_eq hf
    obtain ⟨-, hf'⟩ := (hw.node j).mem.entryAt_eq hf'
    rw [hsame _ (by lia), hf'] at hf
    exact (some.inj hf).symm

theorem retained_logs_match_pair :
    (Pair.final.world.node 1).sm.entryAt 1 = some Pair.opening ∧
      (Pair.final.world.node 2).sm.entryAt 1 = some Pair.opening ∧
      ∀ r' < 1, ∀ f f', (Pair.final.world.node 1).sm.entryAt r' = some f →
        (Pair.final.world.node 2).sm.entryAt r' = some f' → f = f' := by
  have h₁ : (Pair.final.world.node 1).sm.entryAt 1 = some Pair.opening := by decide +kernel
  have h₂ : (Pair.final.world.node 2).sm.entryAt 1 = some Pair.opening := by decide +kernel
  exact ⟨h₁, h₂, (retained_logs_match (Pair.reachable True) h₁ h₂ rfl).2⟩

/-! ## Applied entries -/

/-- Two entries settled at one round are the same. -/
lemma Settled.unique (hreach : Raft.Reachable tm cfg.voters False c)
    {T' : Term} {e' : Entry} (h : Settled cfg c T e) (h' : Settled cfg c T' e')
    (hr : e.round = e'.round) : e = e' := by
  have hinv := safeInv not_false hreach
  obtain ⟨l, hl, -, hget⟩ := h
  obtain ⟨l', hl', -, hget'⟩ := h'
  have hpick : ∀ {l₁ l₂ : List Entry} {e₁ e₂ : Entry} {k : ℕ}, l₁ <+: l₂ → l₁[k]? = some e₁ →
      l₂[k]? = some e₂ → e₁ = e₂ := by
    rintro l₁ l₂ e₁ e₂ k ⟨s, rfl⟩ h₁ h₂
    rw [List.getElem?_append_left (List.getElem?_eq_some_iff.mp h₁).1, h₁] at h₂
    exact some.inj h₂
  rw [hr] at hget
  rcases hinv.vote.committed_comparable hinv.log hl hl' with hpre | hpre
  · exact hpick hpre hget hget'
  · exact (hpick hpre hget' hget).symm

/-- Node `i` has entry `e` in its log: it retains it, or it has applied it and compacted. -/
def World.Has (w : World) (i : NodeId) (e : Entry) : Prop :=
  e.round ≤ (w.node i).sm.lastRound ∧
    ((w.node i).sm.snapshotRound < e.round → (w.node i).sm.entryAt e.round = some e) ∧
    (e.round ≤ (w.node i).sm.snapshotRound → ∃ T, (T, e) ∈ (w.node i).appliedLog)

lemma Refines.leader_has (hw : Refines cfg False w c) (h : Settled cfg c T e) :
    ∃ t ≤ T, ∀ i, (w.node i).sm.role = .leader → t ≤ (w.node i).sm.hard.term → w.Has i e := by
  have hsettled := h
  obtain ⟨l, hl, hpos, hget⟩ := h
  rcases hl with rfl | ⟨t, r, htT, hcom, hpre⟩
  · simp at hget
  refine ⟨t, htT, fun i hrole hterm => ?_⟩
  have hrel := hw.node i
  have hinv := safeInv not_false hrel.reach
  have hlead := hrel.mem.leader hrole
  have hwon := hinv.election.leader i hlead
  have hpart : l <+: (c.node i).log := by
    rw [← hinv.log.leader i hlead]
    refine hinv.vote.committedPart_leader hinv.log (Or.inr ⟨t, r, le_rfl, hcom, hpre⟩)
      (by simp [hwon]) ?_
    rw [hrel.mem.term]
    exact hterm
  have hlog : (c.node i).log[e.round - 1]? = some e := by
    obtain ⟨s, hs⟩ := hpart
    rw [← hs, List.getElem?_append_left (List.getElem?_eq_some_iff.mp hget).1, hget]
  refine ⟨?_, fun hlo => ?_, fun hle => ?_⟩
  · rw [hrel.mem.log.lastRound]
    have := (List.getElem?_eq_some_iff.mp hlog).1
    lia
  · rw [hrel.mem.log.entryAt hlo, hlog]
  · have happ : e.round ≤ (w.node i).applied := hrel.applied ▸ hle.trans hrel.mem.floor_le
    obtain ⟨T', e', hm, hround⟩ := hrel.disk.covered not_false e.round hpos happ
    obtain rfl := Settled.unique hrel.reach (hrel.disk.history not_false T' e' hm) hsettled hround
    exact ⟨T', hm⟩

/-- No two nodes apply different entries at one round; once an entry is applied, every leader
from the term it was committed in on has it; and no step truncates at or below the commit. -/
theorem state_machine_safety (h : World.Reachable cfg False w) :
    (∀ i j T T' e e', (T, e) ∈ (w.node i).appliedLog → (T', e') ∈ (w.node j).appliedLog →
      e.round = e'.round → e = e') ∧
    (∀ j T e, (T, e) ∈ (w.node j).appliedLog → ∃ t ≤ T, ∀ i, (w.node i).sm.role = .leader →
      t ≤ (w.node i).sm.hard.term → w.Has i e) ∧
    (∀ i ev r, .truncate r ∈ ((w.node i).sm.step ev).2 → (w.node i).sm.commit < r) := by
  obtain ⟨c, hw⟩ := h.refines
  have hsettled : ∀ i T e, (T, e) ∈ (w.node i).appliedLog → Settled cfg c T e :=
    fun i => (hw.node i).disk.history not_false
  refine ⟨fun i j T T' e e' hi hj hr => ?_, fun j T e hj => ?_, fun i ev r hr => ?_⟩
  · exact Settled.unique (hw.node i).reach (hsettled i T e hi) (hsettled j T' e' hj) hr
  · exact hw.leader_has (hsettled j T e hj)
  · exact Consensus.commit_lt_of_truncate _ hr

theorem state_machine_safety_pair :
    (1, Pair.opening) ∈ (Pair.final.world.node 1).appliedLog ∧
      (∀ T e, (T, e) ∈ (Pair.final.world.node 2).appliedLog → e.round = 1 → e = Pair.opening) ∧
      Pair.final.world.Has 1 Pair.opening := by
  have hsafe := state_machine_safety (Pair.reachable False)
  have happ : (1, Pair.opening) ∈ (Pair.final.world.node 1).appliedLog := by decide +kernel
  obtain ⟨t, ht, hhas⟩ := hsafe.2.1 1 1 Pair.opening happ
  refine ⟨happ, fun T e he hr => hsafe.1 2 1 T 1 e Pair.opening he happ hr, hhas 1 ?_ ?_⟩
  · decide +kernel
  · have hterm : 1 ≤ (Pair.final.world.node 1).sm.hard.term := by decide +kernel
    exact ht.trans hterm

/-- Up to the round both have applied, two nodes have applied an entry at every round, the same
one, and no node another. -/
theorem applied_without_gaps (h : World.Reachable cfg False w) (i j : NodeId) {r : Round}
    (h0 : 0 < r) (hi : r ≤ (w.node i).applied) (hj : r ≤ (w.node j).applied) :
    ∃ e, e.round = r ∧ (∃ T, (T, e) ∈ (w.node i).appliedLog) ∧
      (∃ T, (T, e) ∈ (w.node j).appliedLog) ∧
      ∀ k T e', (T, e') ∈ (w.node k).appliedLog → e'.round = r → e' = e := by
  obtain ⟨c, hw⟩ := h.refines
  obtain ⟨T, e, he, rfl⟩ := (hw.node i).disk.covered not_false r h0 hi
  have hsame (k : NodeId) (T' : Term) (e' : Entry) (he' : (T', e') ∈ (w.node k).appliedLog)
      (hr : e'.round = e.round) : e' = e :=
    Settled.unique (hw.node i).reach ((hw.node k).disk.history not_false T' e' he')
      ((hw.node i).disk.history not_false T e he) hr
  obtain ⟨T', e', he', hr⟩ := (hw.node j).disk.covered not_false _ h0 hj
  exact ⟨e, rfl, ⟨T, he⟩, ⟨T', hsame j T' e' he' hr ▸ he'⟩, hsame⟩

theorem applied_without_gaps_pair : ∃ e, e.round = 1 ∧
    (∃ T, (T, e) ∈ (Pair.final.world.node 1).appliedLog) ∧
    ∃ T, (T, e) ∈ (Pair.final.world.node 2).appliedLog := by
  obtain ⟨e, hr, h₁, h₂, -⟩ := applied_without_gaps (Pair.reachable False) 1 2 (r := 1) (by decide)
    (by decide +kernel) (by decide +kernel)
  exact ⟨e, hr, h₁, h₂⟩

end FerroDb.Cluster
