import FerroDb.Library.Raft.Election

/-!
# Log matching

Every log there is — a node's, a leader's, what an append carries — is rooted in the
logs the leaders wrote. A batch that matches a log at its previous position continues
the part of the leader's log that this log already has.
-/

namespace FerroDb.Library.Raft

open List Raft.Cluster Function

variable {N E : Type*} {tm : E → ℕ} {voters : Finset N} {snaps : Prop}
  {c c' : Cluster N E} {i : N}
variable {g es l : List E} {prev prevTerm cm r : ℕ} {n : Node N E} {L : ℕ → List E} {k : ℕ} {t : ℕ}
  {j : N}

/-- The batch is a piece of the log `g`. -/
def PieceOf (tm : E → ℕ) (g : List E) (prev prevTerm : ℕ) (es : List E) : Prop :=
  prev ≤ g.length ∧ termAt tm g prev = prevTerm ∧ es <+: g.drop prev

lemma PieceOf.mono {g' : List E}
    (h : PieceOf tm g prev prevTerm es) (hg : g <+: g') : PieceOf tm g' prev prevTerm es := by
  obtain ⟨hp, ht, he⟩ := h
  refine ⟨hp.trans hg.length_le, by rw [termAt_of_isPrefix hg hp, ht], ?_⟩
  obtain ⟨s, rfl⟩ := hg
  rw [drop_append_of_le_length hp]
  exact he.trans (prefix_append _ _)

lemma PieceOf.length_le (h : PieceOf tm g prev prevTerm es) : prev + es.length ≤ g.length := by
  have := h.2.2.length_le
  have := h.1
  simp only [length_drop] at *
  omega

lemma PieceOf.termAt_eq
    (h : PieceOf tm g prev prevTerm es) (h0 : 0 < k) (hk : k ≤ es.length) :
    termAt tm g (prev + k) = termAt tm es k := by
  obtain ⟨m, rfl⟩ : ∃ m, k = m + 1 := ⟨k - 1, by omega⟩
  rw [← termAt_of_isPrefix h.2.2 hk]
  simp [termAt]

/-- What a log holds of a batch it matches is what the leader holds there. -/
lemma Matches.take_eq
    (hl : Rooted tm L l) (hg : Rooted tm L g) (hp : PieceOf tm g prev prevTerm es)
    (hm : Matches tm l prev prevTerm es k) : l.take (prev + k) = g.take (prev + k) := by
  obtain ⟨hlen, hk, ht, hsame⟩ := hm
  have hle := hp.length_le
  refine hl.take_eq_take hg hlen (by omega) ?_
  rcases Nat.eq_zero_or_pos k with rfl | h0
  · exact ht.trans hp.2.1.symm
  · rw [hp.termAt_eq h0 hk, hsame k h0 (le_refl _)]

/-- A log that ends inside a batch it matches, continued by the rest of the batch, is a
prefix of the leader's log. -/
lemma Matches.append_isPrefix
    (hl : Rooted tm L l) (hg : Rooted tm L g) (hp : PieceOf tm g prev prevTerm es)
    (hm : Matches tm l prev prevTerm es k) (hend : l.length = prev + k) : l ++ es.drop k <+: g := by
  have htake : l = g.take (prev + k) := by
    have := hm.take_eq hl hg hp
    rwa [← hend, take_length, hend] at this
  have hes : es = (g.drop prev).take es.length := by
    rw [← prefix_iff_eq_take]
    exact hp.2.2
  have hrest : es.drop k = (g.drop (prev + k)).take (es.length - k) := by
    conv_lhs => rw [hes]
    rw [drop_take, drop_drop]
  rw [htake, hrest, ← take_add]
  exact take_prefix _ _

/-- What every reachable cluster keeps about its logs. -/
structure LogInv (tm : E → ℕ) (c : Cluster N E) : Prop where
  rooted : ∀ i, Rooted tm c.leaderLog (c.node i).log
  leaderRooted : ∀ t, Rooted tm c.leaderLog (c.leaderLog t)
  sorted : ∀ t, TermSorted tm (c.leaderLog t)
  term_le : ∀ i, ∀ e ∈ (c.node i).log, tm e ≤ (c.node i).term
  candidate : ∀ i, (c.node i).role = .candidate → ∀ e ∈ (c.node i).log, tm e < (c.node i).term
  leaderTerm_le : ∀ t, ∀ e ∈ c.leaderLog t, tm e ≤ t
  leader : ∀ i, (c.node i).role = .leader → c.leaderLog (c.node i).term = (c.node i).log
  unled : ∀ t, c.leaderOf t = none → c.leaderLog t = []
  append : ∀ t prev prevTerm es cm, .append t prev prevTerm es cm ∈ c.net →
    PieceOf tm (c.leaderLog t) prev prevTerm es ∧ c.leaderOf t ≠ none
  snapshot : ∀ t l, .snapshot t l ∈ c.net → l <+: c.leaderLog t

lemma LogInv.init : LogInv tm (Cluster.init : Cluster N E) where
  rooted := fun _ => Rooted.nil _
  leaderRooted := fun _ => Rooted.nil _
  sorted := fun _ => List.Pairwise.nil
  term_le := by simp [Cluster.init, Node.start]
  candidate := by simp [Cluster.init, Node.start]
  leaderTerm_le := by simp [Cluster.init]
  leader := by simp [Cluster.init, Node.start]
  unled := fun _ _ => rfl
  append := by simp [Cluster.init]
  snapshot := by simp [Cluster.init]

/-- A step after which every log is still a piece of what leaders wrote: no log is
longer, nothing new is claimed of a leader, and nobody takes office. -/
structure Quiet (c c' : Cluster N E) : Prop where
  leaderLog : c'.leaderLog = c.leaderLog
  leaderOf : c'.leaderOf = c.leaderOf
  log : ∀ j, (c'.node j).log <+: (c.node j).log
  term_le : ∀ j, (c.node j).term ≤ (c'.node j).term
  candidate : ∀ j, (c'.node j).role = .candidate →
    (c.node j).role = .candidate ∧ (c'.node j).term = (c.node j).term ∨
      (c.node j).term < (c'.node j).term
  leader : ∀ j, (c'.node j).role = .leader → (c.node j).role = .leader ∧
    (c'.node j).term = (c.node j).term ∧ (c'.node j).log = (c.node j).log
  append : ∀ t prev prevTerm es cm, .append t prev prevTerm es cm ∈ c'.net →
    .append t prev prevTerm es cm ∈ c.net
  snapshot : ∀ t l, .snapshot t l ∈ c'.net → .snapshot t l ∈ c.net

lemma LogInv.of_quiet (h : LogInv tm c) (hq : Quiet c c') : LogInv tm c' where
  rooted := fun j => hq.leaderLog ▸ (h.rooted j).of_isPrefix (hq.log j)
  leaderRooted := hq.leaderLog ▸ h.leaderRooted
  sorted := hq.leaderLog ▸ h.sorted
  term_le := fun j e he => (h.term_le j e ((hq.log j).subset he)).trans (hq.term_le j)
  candidate := by
    intro j hj e he
    have hmem := (hq.log j).subset he
    rcases hq.candidate j hj with ⟨hr, ht⟩ | hlt
    · exact ht ▸ h.candidate j hr e hmem
    · exact (h.term_le j e hmem).trans_lt hlt
  leaderTerm_le := hq.leaderLog ▸ h.leaderTerm_le
  leader := by
    intro j hj
    obtain ⟨hr, ht, hl⟩ := hq.leader j hj
    rw [ht, hl, hq.leaderLog]
    exact h.leader j hr
  unled := by
    rw [hq.leaderLog, hq.leaderOf]
    exact h.unled
  append := by
    intro t prev prevTerm es cm hm
    rw [hq.leaderLog, hq.leaderOf]
    exact h.append t prev prevTerm es cm (hq.append _ _ _ _ _ hm)
  snapshot := by
    intro t l hm
    rw [hq.leaderLog]
    exact h.snapshot t l (hq.snapshot _ _ hm)

lemma Quiet.send {m : Msg N E} (ha : ∀ t prev prevTerm es cm, m ≠ .append t prev prevTerm es cm)
    (hs : ∀ t l, m ≠ .snapshot t l) : Quiet c (c.send m) where
  leaderLog := rfl
  leaderOf := rfl
  log := fun _ => prefix_refl _
  term_le := fun _ => le_refl _
  candidate := fun _ h => Or.inl ⟨h, rfl⟩
  leader := fun _ h => ⟨h, rfl, rfl⟩
  append := by
    rintro t prev prevTerm es cm (h | h)
    · exact absurd h.symm (ha _ _ _ _ _)
    · exact h
  snapshot := by
    rintro t l (h | h)
    · exact absurd h.symm (hs _ _)
    · exact h

lemma LogInv.cast (h : LogInv tm c) (b : Ballot N E) : LogInv tm (c.cast b) :=
  { h with }

/-- No other node leads in the term of a node that leads or is about to. -/
lemma ElectionInv.leader_term_ne (he : ElectionInv voters c)
    (ht : c.leaderOf t = none ∨ c.leaderOf t = some i) (hj : j ≠ i)
    (hr : (c.node j).role = .leader) : (c.node j).term ≠ t := by
  rintro rfl
  have hl := he.leader j hr
  rcases ht with hnone | hi
  · simp [hnone] at hl
  · rw [hi] at hl
    exact hj (Option.some.inj hl).symm

lemma LogInv.sendAppend (h : LogInv tm c) (he : ElectionInv voters c) {len : ℕ}
    (hr : (c.node i).role = .leader) (hp : prev ≤ (c.node i).log.length) :
    LogInv tm (c.send (.append (c.node i).term prev (termAt tm (c.node i).log prev)
      (((c.node i).log.drop prev).take len) cm)) :=
  { h with
    append := by
      rintro t prev' prevTerm es cm' (heq | hm)
      · cases heq
        refine ⟨?_, by simp [he.leader i hr]⟩
        simp only [send_leaderLog, h.leader i hr]
        exact ⟨hp, rfl, take_prefix _ _⟩
      · exact h.append _ _ _ _ _ hm
    snapshot := by
      rintro t l (heq | hm)
      · cases heq
      · exact h.snapshot _ _ hm }

lemma LogInv.sendSnapshot (h : LogInv tm c) (hr : (c.node i).role = .leader) :
    LogInv tm (c.send (.snapshot (c.node i).term ((c.node i).log.take r))) :=
  { h with
    append := by
      rintro t prev' prevTerm es cm' (heq | hm)
      · cases heq
      · exact h.append _ _ _ _ _ hm
    snapshot := by
      rintro t l (heq | hm)
      · cases heq
        simp only [send_leaderLog, h.leader i hr]
        exact take_prefix _ _
      · exact h.snapshot _ _ hm }

/-- What a node holds after an accepted batch is part of the sender's log. -/
lemma LogInv.append_isPrefix (h : LogInv tm c)
    (hm : .append (c.node i).term prev prevTerm es cm ∈ c.net)
    (hk : Matches tm (c.node i).log prev prevTerm es k) (hlog : (c.node i).log.length = prev + k) :
    (c.node i).log ++ es.drop k <+: c.leaderLog (c.node i).term :=
  hk.append_isPrefix (h.rooted i) (h.leaderRooted _) (h.append _ _ _ _ _ hm).1 hlog

variable [DecidableEq N]

/-- Replacing one node quietly. -/
lemma Quiet.put (log : n.log <+: (c.node i).log) (term : (c.node i).term ≤ n.term)
    (cand : n.role = .candidate →
      (c.node i).role = .candidate ∧ n.term = (c.node i).term ∨ (c.node i).term < n.term)
    (lead : n.role = .leader →
      (c.node i).role = .leader ∧ n.term = (c.node i).term ∧ n.log = (c.node i).log) :
    Quiet c (c.put i n) where
  leaderLog := rfl
  leaderOf := rfl
  log := by
    intro j
    by_cases hj : j = i
    · subst hj
      simpa using log
    · simp [put_node_ne _ _ _ _ hj]
  term_le := by
    intro j
    by_cases hj : j = i
    · subst hj
      simpa using term
    · simp [put_node_ne _ _ _ _ hj]
  candidate := by
    intro j
    by_cases hj : j = i
    · subst hj
      simpa using cand
    · rw [put_node_ne _ _ _ _ hj]
      exact fun h => Or.inl ⟨h, rfl⟩
  leader := by
    intro j
    by_cases hj : j = i
    · subst hj
      simpa using lead
    · simp [put_node_ne _ _ _ _ hj]
  append := fun _ _ _ _ _ h => h
  snapshot := fun _ _ h => h

/-- Changing only what the logs do not depend on. -/
lemma Quiet.put_same (hl : n.log = (c.node i).log)
    (ht : n.term = (c.node i).term) (hr : n.role = (c.node i).role) : Quiet c (c.put i n) :=
  Quiet.put (hl ▸ prefix_refl _) ht.ge (fun h => Or.inl ⟨hr ▸ h, ht⟩)
    (fun h => ⟨hr ▸ h, ht, hl⟩)

/-- Recording a longer log for the leader of one term, which is node `i`. -/
lemma LogInv.extendLeader (h : LogInv tm c) {lo : ℕ → Option N}
    {base : ℕ → List E} {bs : Set (Ballot N E)}
    (hgrow : c.leaderLog t <+: n.log) (hother : ∀ j, j ≠ i → (c.node j).role = .leader →
      (c.node j).term ≠ t) (hlo : ∀ u, u ≠ t → lo u = c.leaderOf u) (hlot : lo t ≠ none)
    (hroot : Rooted tm (update c.leaderLog t n.log) n.log)
    (hsort : TermSorted tm n.log) (hle : ∀ e ∈ n.log, tm e ≤ t) (ht : n.term = t)
    (hrole : n.role = .leader) :
    LogInv tm ⟨update c.node i n, c.net, lo, update c.leaderLog t n.log,
      base, bs⟩ := by
  have hmono : ∀ u, c.leaderLog u <+: update c.leaderLog t n.log u := by
    intro u
    by_cases hu : u = t
    · subst hu
      simpa using hgrow
    · simp [hu]
  constructor
  case rooted =>
    intro j
    by_cases hj : j = i
    · subst hj
      simpa using hroot
    · simpa [hj] using (h.rooted j).mono hmono
  case leaderRooted =>
    intro u
    by_cases hu : u = t
    · subst hu
      simpa using hroot
    · simpa [hu] using (h.leaderRooted u).mono hmono
  case sorted =>
    intro u
    by_cases hu : u = t
    · subst hu
      simpa using hsort
    · simpa [hu] using h.sorted u
  case term_le =>
    intro j
    by_cases hj : j = i
    · subst hj
      simpa [ht] using hle
    · simpa [hj] using h.term_le j
  case candidate =>
    intro j
    by_cases hj : j = i
    · subst hj
      simp [hrole]
    · simpa [hj] using h.candidate j
  case leaderTerm_le =>
    intro u
    by_cases hu : u = t
    · subst hu
      simpa using hle
    · simpa [hu] using h.leaderTerm_le u
  case leader =>
    intro j hj
    by_cases hji : j = i
    · subst hji
      simp [ht]
    · simp only [update_of_ne hji] at hj ⊢
      rw [update_of_ne (hother j hji hj)]
      exact h.leader j hj
  case unled =>
    intro u hu
    by_cases hut : u = t
    · subst hut
      exact absurd hu hlot
    · have hold : c.leaderOf u = none := (hlo u hut).symm.trans hu
      simpa [hut] using h.unled u hold
  case append =>
    intro u prev prevTerm es cm hm
    obtain ⟨hp, hl⟩ := h.append u prev prevTerm es cm hm
    refine ⟨hp.mono (hmono u), ?_⟩
    by_cases hut : u = t
    · subst hut
      exact hlot
    · exact fun hnone => hl ((hlo u hut).symm.trans hnone)
  case snapshot =>
    intro u l hm
    exact (h.snapshot u l hm).trans (hmono u)

/-- Replacing the log of a node that does not lead by part of a leader's log. -/
lemma LogInv.putLog (h : LogInv tm c) (hl : n.log <+: c.leaderLog t)
    (hterm : (c.node i).term = n.term) (hrole : n.role ≠ .leader)
    (ht : t ≤ n.term) (hcand : n.role = .candidate → t < n.term) : LogInv tm (c.put i n) :=
  { h with
    rooted := by
      intro j
      by_cases hj : j = i
      · subst hj
        simpa using (h.leaderRooted t).of_isPrefix hl
      · simpa [put_node_ne _ _ _ _ hj] using h.rooted j
    term_le := by
      intro j
      by_cases hj : j = i
      · subst hj
        simpa using fun e he => (h.leaderTerm_le t e (hl.subset he)).trans ht
      · simpa [put_node_ne _ _ _ _ hj] using h.term_le j
    candidate := by
      intro j
      by_cases hj : j = i
      · subst hj
        simpa using fun hr e he => (h.leaderTerm_le t e (hl.subset he)).trans_lt (hcand hr)
      · simpa [put_node_ne _ _ _ _ hj] using h.candidate j
    leader := by
      intro j hj
      by_cases hji : j = i
      · subst hji
        exact absurd (by simpa using hj) hrole
      · simp only [put_node_ne _ _ _ _ hji] at hj ⊢
        exact h.leader j hj }

/-- Each step only makes the leaders' logs longer. -/
lemma LogInv.leaderLog_step (h : LogInv tm c) (he : ElectionInv voters c)
    (hs : Step tm voters snaps i c c') (t : ℕ) : c.leaderLog t <+: c'.leaderLog t := by
  cases hs with
  | lead hr hq =>
    have hnil := h.unled _ (he.leaderOf_eq_none hr hq)
    by_cases ht : t = (c.node i).term
    · subst ht
      simp [hnil]
    · simp [ht]
  | appendOwn hr =>
    by_cases ht : t = (c.node i).term
    · subst ht
      simp [h.leader i hr]
    · simp [ht]
  | _ => exact prefix_refl _

lemma LogInv.lead (h : LogInv tm c) (he : ElectionInv voters c)
    (hr : (c.node i).role = .candidate) (hq : IsMajority voters (c.node i).votes)
    (hl : n.log = (c.node i).log) (ht : n.term = (c.node i).term) (hrole : n.role = .leader) :
    LogInv tm ((c.put i n).elect (c.node i).term i (c.node i).log) := by
  have hnone := he.leaderOf_eq_none hr hq
  have hnil := h.unled _ hnone
  rw [← hl]
  refine h.extendLeader (by simp [hnil]) (fun j hj hjr => ?_) (fun u hu => ?_) (by simp) ?_ ?_ ?_
    ht hrole
  · exact he.leader_term_ne (Or.inl hnone) hj hjr
  · simp [hu]
  · rw [hl]
    refine (h.rooted i).mono fun u => ?_
    by_cases hu : u = (c.node i).term
    · subst hu
      simp [hnil]
    · simp [hu]
  · rw [hl]
    rcases eq_nil_or_concat (c.node i).log with hnil' | ⟨p, e, hpe⟩
    · rw [hnil']
      exact Pairwise.nil
    · exact (h.sorted _).of_isPrefix ((h.rooted i).prefix_lastTerm (by simp [hpe]))
  · rw [hl]
    exact fun e hmem => h.term_le i e hmem

lemma LogInv.appendOwn (h : LogInv tm c) (he : ElectionInv voters c) {e : E}
    (hr : (c.node i).role = .leader) (hterm : tm e = (c.node i).term)
    (hl : n.log = (c.node i).log ++ [e]) (ht : n.term = (c.node i).term)
    (hrole : n.role = .leader) :
    LogInv tm ((c.put i n).publish (c.node i).term ((c.node i).log ++ [e])) := by
  have hled := he.leader i hr
  have hlog := h.leader i hr
  rw [← hl]
  refine h.extendLeader (by simp [hlog, hl]) (fun j hj hjr => ?_) (fun u hu => rfl) (by simp [hled])
    ?_ ?_ ?_ ht hrole
  · exact he.leader_term_ne (Or.inr hled) hj hjr
  · rw [hl]
    refine Rooted.append_singleton ((h.rooted i).mono fun u => ?_) (by simp [hterm])
    by_cases hu : u = (c.node i).term
    · subst hu
      simp [hlog]
    · simp [hu]
  · rw [hl]
    refine TermSorted.append_singleton (hlog ▸ h.sorted _) fun a ha => ?_
    exact (h.term_le i a ha).trans hterm.ge
  · intro a ha
    rw [hl] at ha
    rcases mem_append.mp ha with ha | ha
    · exact h.term_le i a ha
    · obtain rfl : a = e := by simpa using ha
      exact hterm.le

/-- Every step keeps the logs matched. -/
lemma LogInv.step (h : LogInv tm c) (he : ElectionInv voters c)
    (hs : Step tm voters snaps i c c') : LogInv tm c' := by
  cases hs with
  | raiseTerm ht =>
    exact h.of_quiet (Quiet.put (prefix_refl _) ht.le (by simp) (by simp))
  | stepDown => exact h.of_quiet (Quiet.put (prefix_refl _) le_rfl (by simp) (by simp))
  | stand =>
    refine LogInv.cast (h.of_quiet ?_) _
    exact Quiet.put (prefix_refl _) (Nat.le_succ _) (fun _ => Or.inr (Nat.lt_succ_self _))
      (by simp)
  | castVote =>
    refine LogInv.cast (h.of_quiet ?_) _
    exact Quiet.put_same rfl rfl rfl
  | solicit | sendGrant | sendAck => exact h.of_quiet (Quiet.send (by simp) (by simp))
  | lead hr hq => exact h.lead he hr hq rfl rfl rfl
  | appendOwn hr hterm => exact h.appendOwn he hr hterm rfl rfl hr
  | sendAppend hr hp => exact h.sendAppend he hr hp
  | truncate hr =>
    exact h.of_quiet (Quiet.put (List.take_prefix _ _) le_rfl (by simp [hr]) (by simp [hr]))
  | extend hr hm hk hlog =>
    exact h.putLog (h.append_isPrefix hm hk hlog) rfl (by simp [hr]) le_rfl (by simp [hr])
  | countVote | agree | learnCommit | recvAck | forget | advance | sync | report | compact =>
    exact h.of_quiet (Quiet.put_same rfl rfl rfl)
  | crash =>
    exact h.of_quiet (Quiet.put (List.take_prefix _ _) le_rfl (by simp [Node.start])
      (by simp [Node.start]))
  | sendSnapshot hr => exact h.sendSnapshot hr
  | install _ hm hr ht hterm _ hrole _ hlog =>
    refine h.putLog (hlog ▸ h.snapshot _ _ hm) hterm.symm (hrole ▸ hr) ?_ ?_
    · rcases ht with hlt | ⟨heq, -⟩ <;> omega
    · intro hcand
      rcases ht with hlt | ⟨-, hfol⟩
      · omega
      · simp [hrole, hfol] at hcand

/-- Every run keeps the logs matched. -/
lemma LogInv.moves (h : LogInv tm c) (he : ElectionInv voters c)
    (hs : Moves tm voters snaps c c') : LogInv tm c' := by
  induction hs with
  | refl => exact h
  | tail hms hm ih =>
    obtain ⟨i, hi⟩ := hm
    exact ih.step (he.moves hms) hi

/-- **Log matching.** Two nodes with the same term at the same position hold the same log
up to it. -/
lemma log_matching (h : Reachable tm voters snaps c)
    (hi : r ≤ (c.node i).log.length) (hj : r ≤ (c.node j).log.length)
    (ht : termAt tm (c.node i).log r = termAt tm (c.node j).log r) :
    (c.node i).log.take r = (c.node j).log.take r := by
  have hc := LogInv.init.moves (ElectionInv.init voters) h
  exact (hc.rooted i).take_eq_take (hc.rooted j) hi hj ht

end FerroDb.Library.Raft
