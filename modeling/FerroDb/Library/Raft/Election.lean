import FerroDb.Library.Raft.Protocol

/-!
# One leader a term

A ballot is recorded when it becomes durable, and a node's durable term and vote still
account for every ballot it ever cast, whether or not it has crashed since. Two
candidates that each collect a majority therefore share a voter, and that voter cast
one ballot.
-/

namespace FerroDb.Library.Raft

open Raft.Cluster Function

variable {N E : Type*} {tm : E → ℕ} {voters : Finset N} {snaps : Prop} {c c' : Cluster N E}
  {i k : N} {n : Node N E} {l : List E} {t : ℕ}

/-- The voter's term and vote account for the ballot. -/
def Ballot.Backed (b : Ballot N E) (n : Node N E) : Prop :=
  b.t < n.term ∨ b.t = n.term ∧ n.vote = some b.c

/-- What every reachable cluster keeps about votes and elections. -/
structure ElectionInv (voters : Finset N) (c : Cluster N E) : Prop where
  backed : ∀ b ∈ c.ballots, b.Backed (c.node b.v)
  unique : ∀ b ∈ c.ballots, ∀ b' ∈ c.ballots, b.t = b'.t → b.v = b'.v → b.c = b'.c
  grant : ∀ t v k, .grant t v k ∈ c.net → ∃ l, ⟨t, v, k, l⟩ ∈ c.ballots
  candidate : ∀ i, (c.node i).role = .candidate → i ∈ voters ∧ (c.node i).vote = some i ∧
    c.leaderOf (c.node i).term ≠ some i ∧
    ∀ v ∈ (c.node i).votes, ∃ l, ⟨(c.node i).term, v, i, l⟩ ∈ c.ballots
  elected : ∀ t i, c.leaderOf t = some i → t ≤ (c.node i).term ∧
    ∃ Q, IsMajority voters Q ∧ ∀ v ∈ Q, ∃ l, ⟨t, v, i, l⟩ ∈ c.ballots
  leader : ∀ i, (c.node i).role = .leader → c.leaderOf (c.node i).term = some i

lemma ElectionInv.init (voters : Finset N) : ElectionInv voters (Cluster.init : Cluster N E) where
  backed := by simp [Cluster.init]
  unique := by simp [Cluster.init]
  grant := by simp [Cluster.init]
  candidate := by simp [Cluster.init, Node.start]
  elected := by simp [Cluster.init]
  leader := by simp [Cluster.init, Node.start]

/-- A step that leaves elections alone: ballots and winners stay, terms and votes only move
the way a durable vote allows, and offices are only kept or given up. -/
structure Calm (c c' : Cluster N E) : Prop where
  ballots : c'.ballots = c.ballots
  leaderOf : c'.leaderOf = c.leaderOf
  grant : ∀ t v k, .grant t v k ∈ c'.net → .grant t v k ∈ c.net
  hard : ∀ j, (c.node j).term < (c'.node j).term ∨
    (c'.node j).term = (c.node j).term ∧ (c'.node j).vote = (c.node j).vote
  candidate : ∀ j, (c'.node j).role = .candidate → (c.node j).role = .candidate ∧
    (c'.node j).term = (c.node j).term ∧ (c'.node j).votes = (c.node j).votes
  leader : ∀ j, (c'.node j).role = .leader → (c.node j).role = .leader ∧
    (c'.node j).term = (c.node j).term

lemma Calm.term_le (h : Calm c c') (j : N) : (c.node j).term ≤ (c'.node j).term := by
  rcases h.hard j with hlt | ⟨heq, -⟩ <;> omega

lemma Calm.send {m : Msg N E} (hm : ∀ t v k, m ≠ .grant t v k) : Calm c (c.send m) where
  ballots := rfl
  leaderOf := rfl
  grant := by
    rintro t v k (h | h)
    · exact absurd h.symm (hm t v k)
    · exact h
  hard := fun _ => Or.inr ⟨rfl, rfl⟩
  candidate := fun _ h => ⟨h, rfl, rfl⟩
  leader := fun _ h => ⟨h, rfl⟩

lemma ElectionInv.of_calm (h : ElectionInv voters c) (hc : Calm c c') :
    ElectionInv voters c' where
  backed := by
    intro b hb
    rw [hc.ballots] at hb
    rcases h.backed b hb, hc.hard b.v with ⟨hlt | ⟨heq, hv⟩, hlt' | ⟨heq', hv'⟩⟩
    · exact Or.inl (hlt.trans hlt')
    · exact Or.inl (heq' ▸ hlt)
    · exact Or.inl (heq ▸ hlt')
    · exact Or.inr ⟨heq.trans heq'.symm, hv'.trans hv⟩
  unique := by
    rw [hc.ballots]
    exact h.unique
  grant := by
    intro t v k hm
    rw [hc.ballots]
    exact h.grant t v k (hc.grant t v k hm)
  candidate := by
    intro j hj
    obtain ⟨hr, ht, hvs⟩ := hc.candidate j hj
    obtain ⟨hmem, hv, hnew, hballots⟩ := h.candidate j hr
    have hvote : (c'.node j).vote = (c.node j).vote := by
      rcases hc.hard j with hlt | ⟨-, hv'⟩
      · omega
      · exact hv'
    rw [ht, hvs, hc.ballots, hc.leaderOf, hvote]
    exact ⟨hmem, hv, hnew, hballots⟩
  elected := by
    intro t j hj
    rw [hc.leaderOf] at hj
    obtain ⟨hle, hQ⟩ := h.elected t j hj
    exact ⟨hle.trans (hc.term_le j), by rwa [hc.ballots]⟩
  leader := by
    intro j hj
    obtain ⟨hr, ht⟩ := hc.leader j hj
    rw [ht, hc.leaderOf]
    exact h.leader j hr

lemma ElectionInv.sendGrant (h : ElectionInv voters c)
    (hb : ⟨(c.node i).term, i, k, l⟩ ∈ c.ballots) :
    ElectionInv voters (c.send (.grant (c.node i).term i k)) :=
  { h with
    grant := by
      rintro t v k' (heq | hm)
      · cases heq
        exact ⟨l, hb⟩
      · exact h.grant t v k' hm }

variable [DecidableEq N]

/-- Replacing one node calmly. -/
lemma Calm.put (hard : (c.node i).term < n.term ∨
      n.term = (c.node i).term ∧ n.vote = (c.node i).vote)
    (cand : n.role = .candidate → (c.node i).role = .candidate ∧
      n.term = (c.node i).term ∧ n.votes = (c.node i).votes)
    (lead : n.role = .leader → (c.node i).role = .leader ∧ n.term = (c.node i).term) :
    Calm c (c.put i n) where
  ballots := rfl
  leaderOf := rfl
  grant := fun _ _ _ h => h
  hard := by
    intro j
    by_cases hj : j = i
    · subst hj
      simpa using hard
    · simp [put_node_ne _ _ _ _ hj]
  candidate := by
    intro j
    by_cases hj : j = i
    · subst hj
      simpa using cand
    · simp [put_node_ne _ _ _ _ hj]
  leader := by
    intro j
    by_cases hj : j = i
    · subst hj
      simpa using lead
    · simp [put_node_ne _ _ _ _ hj]

/-- Changing only what elections do not read. -/
lemma Calm.put_same (ht : n.term = (c.node i).term)
    (hv : n.vote = (c.node i).vote) (hr : n.role = (c.node i).role)
    (hvs : n.votes = (c.node i).votes) : Calm c (c.put i n) :=
  Calm.put (Or.inr ⟨ht, hv⟩) (fun h => ⟨hr ▸ h, ht, hvs⟩) (fun h => ⟨hr ▸ h, ht⟩)

/-- Changing only what a new leader's log is recorded as. -/
lemma Calm.publish (h : Calm c (c.put i n)) : Calm c ((c.put i n).publish t l) :=
  { h with
    ballots := rfl
    leaderOf := rfl
    grant := fun _ _ _ h => h }

section

variable (h : ElectionInv voters c)
include h

/-- Two majorities of one term elected the same node. -/
lemma ElectionInv.winner_unique {j : N} {P Q : Finset N}
    (hP : IsMajority voters P) (hQ : IsMajority voters Q)
    (hj : ∀ v ∈ P, ∃ l, ⟨t, v, j, l⟩ ∈ c.ballots)
    (hk : ∀ v ∈ Q, ∃ l, ⟨t, v, k, l⟩ ∈ c.ballots) : j = k := by
  obtain ⟨v, hvP, hvQ⟩ := hP.exists_mem_inter hQ
  obtain ⟨l, hl⟩ := hj v hvP
  obtain ⟨l', hl'⟩ := hk v hvQ
  exact h.unique _ hl _ hl' rfl rfl

/-- Before a candidate takes office nobody holds that term. -/
lemma ElectionInv.leaderOf_eq_none
    (hr : (c.node i).role = .candidate) (hq : IsMajority voters (c.node i).votes) :
    c.leaderOf (c.node i).term = none := by
  obtain ⟨-, -, hnew, hballots⟩ := h.candidate i hr
  cases hl : c.leaderOf (c.node i).term with
  | none => rfl
  | some j =>
    obtain ⟨-, Q, hQ, hj⟩ := h.elected _ _ hl
    obtain rfl : j = i := h.winner_unique hQ hq hj hballots
    exact absurd hl hnew

/-- Recording a ballot of node `i` in the term it is in, for the candidate it now votes for. -/
lemma ElectionInv.cast (ht : (c.node i).term < n.term ∨
      (c.node i).term = n.term ∧ ((c.node i).vote = none ∨ (c.node i).vote = some k))
    (hv : n.vote = some k) (hcand : n.role = .candidate → i ∈ voters ∧ k = i ∧
      ((c.node i).role = .candidate ∧ n.term = (c.node i).term ∧ n.votes = (c.node i).votes ∨
        (c.node i).term < n.term ∧ n.votes = {i}))
    (hlead : n.role = .leader → (c.node i).role = .leader ∧ n.term = (c.node i).term) :
    ElectionInv voters ((c.put i n).cast ⟨n.term, i, k, l⟩) := by
  have hold : ∀ b ∈ c.ballots, b.v = i → b.t = n.term → b.c = k := by
    intro b hb hbi hbt
    rcases h.backed b hb with hlt | ⟨heq, hvote⟩
    · rw [hbi] at hlt
      omega
    · rw [hbi] at heq hvote
      rcases ht with hlt | ⟨-, hnone | hk⟩
      · omega
      · simp [hnone] at hvote
      · simpa [hk] using hvote.symm
  constructor
  case backed =>
    rintro b (rfl | hb)
    · exact Or.inr ⟨by simp, by simpa using hv⟩
    · by_cases hbi : b.v = i
      · rw [cast_node, hbi, put_node_self]
        rcases h.backed b hb with hlt | ⟨heq, hvote⟩
        · rw [hbi] at hlt
          rcases ht with hlt' | ⟨heq', -⟩ <;> exact Or.inl (by omega)
        · rw [hbi] at heq
          rcases ht with hlt' | ⟨heq', -⟩
          · exact Or.inl (by omega)
          · exact Or.inr ⟨by omega, by rw [hv, hold b hb hbi (by omega)]⟩
      · rw [cast_node, put_node_ne _ _ _ _ hbi]
        exact h.backed b hb
  case unique =>
    rintro b (rfl | hb) b' (rfl | hb') hbt hbv
    · rfl
    · exact (hold b' hb' hbv.symm hbt.symm).symm
    · exact hold b hb hbv hbt
    · exact h.unique b hb b' hb' hbt hbv
  case grant =>
    intro t v k' hm
    obtain ⟨l', hl'⟩ := h.grant t v k' hm
    exact ⟨l', Or.inr hl'⟩
  case candidate =>
    intro j hj
    by_cases hji : j = i
    · subst hji
      simp only [cast_node, put_node_self] at hj ⊢
      obtain ⟨hmem, rfl, hcase⟩ := hcand hj
      refine ⟨hmem, hv, ?_, ?_⟩
      · rcases hcase with ⟨hr, hterm, -⟩ | ⟨hlt, -⟩
        · simpa [hterm] using (h.candidate _ hr).2.2.1
        · intro hl
          have := (h.elected _ _ hl).1
          omega
      · intro v hvv
        rcases hcase with ⟨hr, hterm, hvs⟩ | ⟨-, hvs⟩
        · rw [hvs] at hvv
          obtain ⟨l', hl'⟩ := (h.candidate _ hr).2.2.2 v hvv
          exact ⟨l', Or.inr (hterm ▸ hl')⟩
        · rw [hvs] at hvv
          obtain rfl : v = k := by simpa using hvv
          exact ⟨l, Or.inl rfl⟩
    · simp only [cast_node, put_node_ne _ _ _ _ hji] at hj ⊢
      obtain ⟨hmem, hvj, hnew, hballots⟩ := h.candidate j hj
      refine ⟨hmem, hvj, hnew, fun v hvv => ?_⟩
      obtain ⟨l', hl'⟩ := hballots v hvv
      exact ⟨l', Or.inr hl'⟩
  case elected =>
    intro t j hj
    obtain ⟨hle, Q, hQ, hballots⟩ := h.elected t j hj
    refine ⟨?_, Q, hQ, fun v hvv => ?_⟩
    · by_cases hji : j = i
      · subst hji
        simp only [cast_node, put_node_self]
        rcases ht with hlt | ⟨heq, -⟩ <;> omega
      · simpa [put_node_ne _ _ _ _ hji] using hle
    · obtain ⟨l', hl'⟩ := hballots v hvv
      exact ⟨l', Or.inr hl'⟩
  case leader =>
    intro j hj
    by_cases hji : j = i
    · subst hji
      simp only [cast_node, put_node_self] at hj ⊢
      obtain ⟨hr, hterm⟩ := hlead hj
      simpa [hterm] using h.leader _ hr
    · simp only [cast_node, put_node_ne _ _ _ _ hji] at hj ⊢
      exact h.leader j hj

lemma ElectionInv.countVote {v : N}
    (hr : (c.node i).role = .candidate) (hm : .grant (c.node i).term v i ∈ c.net) :
    ElectionInv voters (c.put i { c.node i with votes := insert v (c.node i).votes }) := by
  have hsame : ∀ j, ((c.put i { c.node i with votes := insert v (c.node i).votes }).node j).term =
      (c.node j).term ∧
      ((c.put i { c.node i with votes := insert v (c.node i).votes }).node j).vote =
        (c.node j).vote ∧
      ((c.put i { c.node i with votes := insert v (c.node i).votes }).node j).role =
        (c.node j).role := by
    intro j
    by_cases hj : j = i
    · subst hj
      simp
    · simp [put_node_ne _ _ _ _ hj]
  constructor
  case backed =>
    intro b hb
    obtain ⟨ht, hv, -⟩ := hsame b.v
    rcases h.backed b hb with hlt | ⟨heq, hvote⟩
    · exact Or.inl (ht ▸ hlt)
    · exact Or.inr ⟨heq.trans ht.symm, hv.trans hvote⟩
  case unique => exact h.unique
  case grant => exact h.grant
  case candidate =>
    intro j hj
    obtain ⟨ht, hv, hrole⟩ := hsame j
    obtain ⟨hmem, hvote, hnew, hballots⟩ := h.candidate j (hrole ▸ hj)
    refine ⟨hmem, hv.trans hvote, by rwa [ht], ?_⟩
    intro w hw
    by_cases hji : j = i
    · subst hji
      simp only [put_node_self, Finset.mem_insert] at hw ⊢
      rcases hw with rfl | hw
      · exact h.grant _ _ _ hm
      · exact hballots w hw
    · simp only [put_node_ne _ _ _ _ hji] at hw ⊢
      exact hballots w hw
  case elected =>
    intro t j hj
    obtain ⟨hle, hQ⟩ := h.elected t j hj
    exact ⟨(hsame j).1 ▸ hle, hQ⟩
  case leader =>
    intro j hj
    obtain ⟨ht, -, hrole⟩ := hsame j
    rw [ht]
    exact h.leader j (hrole ▸ hj)

lemma ElectionInv.lead (hr : (c.node i).role = .candidate)
    (hq : IsMajority voters (c.node i).votes)
    (ht : n.term = (c.node i).term) (hv : n.vote = (c.node i).vote) (hrole : n.role = .leader) :
    ElectionInv voters ((c.put i n).elect (c.node i).term i l) := by
  have hnone := h.leaderOf_eq_none hr hq
  have hother : ∀ t j, c.leaderOf t = some j → t ≠ (c.node i).term := by
    rintro t j hj rfl
    simp [hnone] at hj
  have hterm : ∀ j, ((c.put i n).node j).term = (c.node j).term := by
    intro j
    by_cases hj : j = i
    · subst hj
      simpa using ht
    · simp [put_node_ne _ _ _ _ hj]
  constructor
  case backed =>
    intro b hb
    by_cases hbi : b.v = i
    · have := h.backed b hb
      simpa [Ballot.Backed, hbi, ht, hv] using this
    · simpa [put_node_ne _ _ _ _ hbi] using h.backed b hb
  case unique => exact h.unique
  case grant => exact h.grant
  case candidate =>
    intro j hj
    by_cases hji : j = i
    · subst hji
      simp [hrole] at hj
    · simp only [elect_node, put_node_ne _ _ _ _ hji, elect_leaderOf] at hj ⊢
      obtain ⟨hmem, hvote, hnew, hballots⟩ := h.candidate j hj
      refine ⟨hmem, hvote, ?_, hballots⟩
      rw [update_apply]
      split_ifs
      · simpa using Ne.symm hji
      · exact hnew
  case elected =>
    intro t j hj
    simp only [elect_leaderOf, update_apply] at hj
    split_ifs at hj with htt
    · obtain rfl : i = j := by simpa using hj
      subst htt
      exact ⟨by simp [ht], _, hq, (h.candidate i hr).2.2.2⟩
    · obtain ⟨hle, hQ⟩ := h.elected t j hj
      exact ⟨by simpa [hterm j] using hle, hQ⟩
  case leader =>
    intro j hj
    by_cases hji : j = i
    · subst hji
      simp [ht]
    · simp only [elect_node, put_node_ne _ _ _ _ hji, elect_leaderOf] at hj ⊢
      have hl := h.leader j hj
      rwa [update_of_ne (hother _ _ hl)]

/-- Every step keeps the election invariant. -/
lemma ElectionInv.step (hs : Step tm voters snaps i c c') : ElectionInv voters c' := by
  cases hs with
  | raiseTerm ht => exact h.of_calm (Calm.put (Or.inl ht) (by simp) (by simp))
  | stepDown => exact h.of_calm (Calm.put (Or.inr ⟨rfl, rfl⟩) (by simp) (by simp))
  | stand hv =>
    exact h.cast (Or.inl (Nat.lt_succ_self _)) rfl
      (fun _ => ⟨hv, rfl, Or.inr ⟨Nat.lt_succ_self _, rfl⟩⟩) (by simp)
  | solicit => exact h.of_calm (Calm.send (by simp))
  | castVote hm hv hl =>
    refine h.cast (n := { c.node i with vote := some _ }) (Or.inr ⟨rfl, hv⟩) rfl ?_
      (fun hr => ⟨hr, rfl⟩)
    intro hr
    obtain ⟨hmem, hvote, -⟩ := h.candidate i hr
    refine ⟨hmem, ?_, Or.inl ⟨hr, rfl, rfl⟩⟩
    rcases hv with hnone | hk
    · simp [hnone] at hvote
    · simpa [hk] using hvote
  | sendGrant hb => exact h.sendGrant hb
  | countVote hr _ hm => exact h.countVote hr hm
  | lead hr hq => exact h.lead hr hq rfl rfl rfl
  | appendOwn => exact h.of_calm (Calm.publish (Calm.put_same rfl rfl rfl rfl))
  | sendAppend | sendAck | sendSnapshot => exact h.of_calm (Calm.send (by simp))
  | truncate | extend | agree | learnCommit | recvAck | forget | advance | sync | report
  | compact => exact h.of_calm (Calm.put_same rfl rfl rfl rfl)
  | crash => exact h.of_calm (Calm.put (Or.inr ⟨rfl, rfl⟩) (by simp [Node.start])
      (by simp [Node.start]))
  | install _ _ _ _ hterm hvote hrole hvotes _ =>
    exact h.of_calm (Calm.put_same hterm hvote hrole hvotes)

/-- Every run keeps the election invariant. -/
lemma ElectionInv.moves (hs : Moves tm voters snaps c c') : ElectionInv voters c' := by
  induction hs with
  | refl => exact h
  | tail _ hm ih =>
    obtain ⟨i, hi⟩ := hm
    exact ih.step hi

end

end FerroDb.Library.Raft
