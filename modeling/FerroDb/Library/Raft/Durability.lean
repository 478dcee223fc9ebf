import FerroDb.Library.Raft.Matching

/-!
# What an acknowledgement is worth

A node acknowledges only what is on its disk and agrees with its leader. From then on
the acknowledged prefix stays on the disk through every crash, until the leader of a
later term, whose log does not have it, makes the node drop it (`Lost`). Snapshot
snaps are off throughout: a node never replaces its log as a whole.
-/

namespace FerroDb.Library.Raft

open List Raft.Cluster

variable {N E : Type*} {tm : E → ℕ} {voters : Finset N}
  {c c' : Cluster N E} {i : N}
variable {n n' : Node N E} {L : ℕ → List E} {t r m : ℕ} {prev prevTerm cm k : ℕ} {es a : List E}
  {v : N}

/-! ## What no step takes back -/

/-- What every step does to a cluster's history: it only adds to it. -/
structure Grows (tm : E → ℕ) (c c' : Cluster N E) : Prop where
  net : c.net ⊆ c'.net
  ballots : c.ballots ⊆ c'.ballots
  leaderOf : ∀ t, c.leaderOf t ≠ none → c'.leaderOf t = c.leaderOf t
  baseLog : ∀ t, c.leaderOf t ≠ none → c'.baseLog t = c.baseLog t
  leaderLog : ∀ t, c.leaderLog t <+: c'.leaderLog t
  own : ∀ t, c.leaderOf t ≠ none → ∃ s, c'.leaderLog t = c.leaderLog t ++ s ∧ ∀ e ∈ s, tm e = t
  term_le : ∀ j, (c.node j).term ≤ (c'.node j).term

lemma Grows.send (m : Msg N E) : Grows tm c (c.send m) where
  net := Set.subset_insert _ _
  ballots := fun _ h => h
  leaderOf := fun _ _ => rfl
  baseLog := fun _ _ => rfl
  leaderLog := fun _ => prefix_refl _
  own := fun t _ => ⟨[], by simp, by simp⟩
  term_le := fun _ => le_rfl

lemma Grows.cast (h : Grows tm c c') (b : Ballot N E) : Grows tm c (c'.cast b) :=
  { h with
    ballots := h.ballots.trans (Set.subset_insert _ _) }

/-- The first `r` entries the leader of term `t` wrote or took over. -/
def chunk (c : Cluster N E) (t r : ℕ) : List E := (c.leaderLog t).take r

lemma Grows.chunk_eq (h : Grows tm c c') (hr : r ≤ (c.leaderLog t).length) :
    chunk c' t r = chunk c t r := by
  obtain ⟨s, hs⟩ := h.leaderLog t
  rw [chunk, ← hs, take_append_of_le_length hr, chunk]

/-- A later leader, of a term no higher than `T`, does not have what leader `t` had. -/
def Lost (c : Cluster N E) (t r T : ℕ) : Prop :=
  ∃ w, t < w ∧ w ≤ T ∧ c.leaderOf w ≠ none ∧ ¬ chunk c t r <+: c.leaderLog w

/-- What a later leader lacks it never gets: it appends only entries of its own term. -/
lemma Lost.mono (hl : LogInv tm c) (hg : Grows tm c c') {T T' : ℕ}
    (hr : r ≤ (c.leaderLog t).length) (hT : T ≤ T') (h : Lost c t r T) : Lost c' t r T' := by
  obtain ⟨w, htw, hwT, hled, hnot⟩ := h
  refine ⟨w, htw, hwT.trans hT, by rwa [hg.leaderOf w hled], ?_⟩
  rw [hg.chunk_eq hr]
  intro hpre
  obtain ⟨s, hs, hterm⟩ := hg.own w hled
  rw [hs] at hpre
  rcases le_or_gt (chunk c t r).length (c.leaderLog w).length with hle | hlt
  · exact hnot (prefix_of_prefix_length_le hpre (prefix_append _ _) hle)
  · -- the first entry that is not in the old log of `w` would have both terms
    have hmem : (chunk c t r).get ⟨_, hlt⟩ ∈ s := by
      obtain ⟨s', hs'⟩ := hpre
      have hget := congrArg (fun l => l[(c.leaderLog w).length]?) hs'
      simp only [getElem?_append_left hlt] at hget
      rw [getElem?_append_right le_rfl, getElem?_eq_getElem hlt] at hget
      exact mem_of_getElem? hget.symm
    have hold : (chunk c t r).get ⟨_, hlt⟩ ∈ c.leaderLog t :=
      mem_of_mem_take (get_mem _ _)
    have h1 := hterm _ hmem
    have h2 := hl.leaderTerm_le t _ hold
    omega

/-! ## One node's log and disk -/

/-- What a node keeps about its log, given the leaders' logs. -/
structure NodeOk (L : ℕ → List E) (n : Node N E) : Prop where
  synced_le : n.synced ≤ n.log.length
  durable_le : n.durable ≤ n.synced
  floor_le_synced : n.floor ≤ n.synced
  floor_le_commit : n.floor ≤ n.commit
  agreed_le : n.agreed ≤ n.log.length
  agreed : n.log.take n.agreed <+: L n.term
  written : ∀ t, n.written = some t → t ≤ n.term ∧ n.log <+: L t
  rewritten_le : n.rewritten ≤ n.term
  report : ∀ t r, (t, r) ∈ n.reports → t ≤ n.term ∧ r ≤ (L t).length ∧
    (n.rewritten ≤ t → r ≤ n.synced) ∧ (t = n.term → (L t).take r <+: n.log)

lemma NodeOk.mono {L' : ℕ → List E} (h : NodeOk L n) (hL : ∀ t, L t <+: L' t) : NodeOk L' n :=
  { h with
    agreed := h.agreed.trans (hL _)
    written := fun t ht => ⟨(h.written t ht).1, (h.written t ht).2.trans (hL t)⟩
    report := by
      intro t r hm
      obtain ⟨ht, hr, hsync, hlog⟩ := h.report t r hm
      refine ⟨ht, hr.trans (hL t).length_le, hsync, fun heq => ?_⟩
      obtain ⟨s, hs⟩ := hL t
      rw [← hs, take_append_of_le_length hr]
      exact hlog heq }

lemma NodeOk.start {vote : Option N} {log : List E} {floor : ℕ}
    (h : floor ≤ log.length) : NodeOk L (Node.start t vote log floor) where
  synced_le := le_rfl
  durable_le := le_rfl
  floor_le_synced := h
  floor_le_commit := le_rfl
  agreed_le := Nat.zero_le _
  agreed := by simp [Node.start]
  written := by simp [Node.start]
  rewritten_le := Nat.zero_le _
  report := by simp [Node.start]

/-- Changing only what the log and the disk do not depend on. -/
lemma NodeOk.same (h : NodeOk L n)
    (ht : n'.term = n.term) (hlog : n'.log = n.log) (hs : n'.synced = n.synced)
    (hw : n'.written = n.written) (hrep : n'.reports = n.reports)
    (hrew : n'.rewritten = n.rewritten) (hd : n'.durable ≤ n.synced)
    (ha : n'.agreed ≤ n.log.length) (hag : n.log.take n'.agreed <+: L n.term)
    (hf : n'.floor ≤ n.synced) (hc : n'.floor ≤ n'.commit) : NodeOk L n' where
  synced_le := by rw [hs, hlog]; exact h.synced_le
  durable_le := by rw [hs]; exact hd
  floor_le_synced := by rw [hs]; exact hf
  floor_le_commit := hc
  agreed_le := by rw [hlog]; exact ha
  agreed := by rw [hlog, ht]; exact hag
  written := by rw [hw, hlog, ht]; exact h.written
  rewritten_le := by rw [hrew, ht]; exact h.rewritten_le
  report := by rw [hrep, hrew, ht, hs, hlog]; exact h.report

/-- A follower stops where it first differs from its leader: nothing they share ends
later. -/
lemma LogInv.shared_le (h : LogInv tm c)
    (hm : .append (c.node i).term prev prevTerm es cm ∈ c.net) (hes : k < es.length)
    (hne : termAt tm es (k + 1) ≠ termAt tm (c.node i).log (prev + k + 1))
    (ha : a <+: (c.node i).log) (ha' : a <+: c.leaderLog (c.node i).term) :
    a.length ≤ prev + k := by
  by_contra hlt
  have hlen : prev + k + 1 ≤ a.length := by omega
  refine hne ?_
  rw [← (h.append _ _ _ _ _ hm).1.termAt_eq (Nat.succ_pos k) hes,
    termAt_of_isPrefix ha hlen, ← termAt_of_isPrefix ha' hlen, Nat.add_assoc]

lemma isPrefix_take {l : List E} (h : a <+: l) {n : ℕ} (hn : a.length ≤ n) : a <+: l.take n := by
  rw [prefix_take_iff]
  exact ⟨h, hn⟩

lemma NodeOk.truncate (h : NodeOk c.leaderLog (c.node i)) (hl : LogInv tm c)
    (hm : .append (c.node i).term prev prevTerm es cm ∈ c.net) (hes : k < es.length)
    (hlog : prev + k < (c.node i).log.length)
    (hne : termAt tm es (k + 1) ≠ termAt tm (c.node i).log (prev + k + 1))
    (hc : (c.node i).commit < prev + k + 1) : NodeOk c.leaderLog { c.node i with
      log := (c.node i).log.take (prev + k)
      synced := min (c.node i).synced (prev + k)
      written := none
      rewritten := (c.node i).term
      durable := min (c.node i).durable (prev + k)
      agreed := min (c.node i).agreed (prev + k) } := by
  have hlen : ((c.node i).log.take (prev + k)).length = prev + k := by
    simp only [length_take]
    omega
  constructor
  case synced_le =>
    rw [hlen]
    exact min_le_right _ _
  case durable_le => exact min_le_min_right _ h.durable_le
  case floor_le_synced =>
    have hfloor : (c.node i).floor ≤ prev + k := by
      have := h.floor_le_commit
      omega
    exact le_min h.floor_le_synced hfloor
  case floor_le_commit => exact h.floor_le_commit
  case agreed_le =>
    rw [hlen]
    exact min_le_right _ _
  case agreed =>
    rw [take_take]
    exact (take_prefix_take_left (by simp)).trans h.agreed
  case written => simp
  case rewritten_le => exact le_rfl
  case report =>
    intro t r hmem
    obtain ⟨ht, hr, hsync, hpre⟩ := h.report t r hmem
    -- what this term's leader wrote ends before the entry that is replaced
    have hshared : t = (c.node i).term → ((c.leaderLog t).take r).length ≤ prev + k :=
      fun heq => hl.shared_le hm hes hne (hpre heq) (heq ▸ take_prefix _ _)
    refine ⟨ht, hr, fun hle => ?_, fun heq => isPrefix_take (hpre heq) (hshared heq)⟩
    have hrk := hshared (le_antisymm ht hle)
    rw [length_take, min_eq_left hr] at hrk
    exact le_min (hsync (h.rewritten_le.trans hle)) hrk

lemma NodeOk.grow (h : NodeOk L n) {s : List E} (hs : n.log ++ s <+: L n.term) :
    NodeOk L { n with log := n.log ++ s, written := some n.term } :=
  { h with
    synced_le := h.synced_le.trans (by simp)
    agreed_le := h.agreed_le.trans (by simp)
    agreed := by
      rw [take_append_of_le_length h.agreed_le]
      exact h.agreed
    written := by
      rintro t heq
      obtain rfl : n.term = t := by simpa using heq
      exact ⟨le_rfl, hs⟩
    report := by
      intro t r hm
      obtain ⟨ht, hr, hsync, hlog⟩ := h.report t r hm
      exact ⟨ht, hr, hsync, fun heq => (hlog heq).trans (prefix_append _ _)⟩ }

lemma NodeOk.raise (h : NodeOk L n) (ht : n.term < t) (hn : n' = { n with
      term := t, vote := n'.vote, role := n'.role, votes := n'.votes, agreed := 0 }) :
    NodeOk L n' := by
  rw [hn]
  constructor
  case agreed => simp
  case written => exact fun u hu => ⟨(h.written u hu).1.trans ht.le, (h.written u hu).2⟩
  case rewritten_le => exact h.rewritten_le.trans ht.le
  case report =>
    intro u r hm
    obtain ⟨hu, hr, hsync, -⟩ := h.report u r hm
    exact ⟨hu.trans ht.le, hr, hsync, fun heq => by simp only at heq; omega⟩
  case agreed_le => exact Nat.zero_le _
  all_goals first | exact h.synced_le | exact h.durable_le | exact h.floor_le_synced |
    exact h.floor_le_commit

lemma NodeOk.sync (h : NodeOk L n) (hw : n.written = some t) : NodeOk L { n with
      synced := n.log.length, reports := insert (t, n.log.length) n.reports } :=
  { h with
    synced_le := le_rfl
    durable_le := h.durable_le.trans h.synced_le
    floor_le_synced := h.floor_le_synced.trans h.synced_le
    report := by
      rintro u r (heq | hm)
      · obtain ⟨rfl, rfl⟩ := Prod.mk.inj heq
        obtain ⟨hle, hpre⟩ := h.written u hw
        refine ⟨hle, hpre.length_le, fun _ => le_rfl, fun _ => ?_⟩
        rw [← prefix_iff_eq_take.mp hpre]
      · obtain ⟨hu, hr, hsync, hlog⟩ := h.report u r hm
        exact ⟨hu, hr, fun hle => (hsync hle).trans h.synced_le, hlog⟩ }

/-- Every node's log and disk agree with what the leaders wrote. -/
def DiskInv (c : Cluster N E) : Prop := ∀ j, NodeOk c.leaderLog (c.node j)

lemma DiskInv.init : DiskInv (Cluster.init : Cluster N E) := fun _ => NodeOk.start le_rfl

variable [DecidableEq N]

lemma Grows.put (ht : (c.node i).term ≤ n.term) : Grows tm c (c.put i n) where
  net := fun _ h => h
  ballots := fun _ h => h
  leaderOf := fun _ _ => rfl
  baseLog := fun _ _ => rfl
  leaderLog := fun _ => prefix_refl _
  own := fun t _ => ⟨[], by simp, by simp⟩
  term_le := by
    intro j
    by_cases hj : j = i
    · subst hj
      simpa using ht
    · rw [put_node_ne _ _ _ _ hj]

lemma LogInv.grows (h : LogInv tm c) (he : ElectionInv voters c) {snaps : Prop}
    (hs : Step tm voters snaps i c c') : Grows tm c c' := by
  have hlog := h.leaderLog_step he hs
  cases hs with
  | raiseTerm ht => exact Grows.put ht.le
  | stand =>
    refine Grows.cast ?_ _
    exact Grows.put (Nat.le_succ _)
  | castVote =>
    refine Grows.cast ?_ _
    exact Grows.put le_rfl
  | solicit | sendGrant | sendAppend | sendAck | sendSnapshot => exact Grows.send _
  | lead hr hq =>
    have hnone := he.leaderOf_eq_none hr hq
    have hne : ∀ t, c.leaderOf t ≠ none → t ≠ (c.node i).term := by
      rintro t ht rfl
      exact ht hnone
    have hp : Grows tm c (c.put i { c.node i with
        role := .leader, votes := ∅, matched := fun _ => 0 }) := Grows.put le_rfl
    refine ⟨hp.net, hp.ballots, fun t ht => ?_, fun t ht => ?_, hlog, fun t ht => ?_, hp.term_le⟩
    · simp [hne t ht]
    · simp [hne t ht]
    · exact ⟨[], by simp [hne t ht], by simp⟩
  | @appendOwn e hr hterm =>
    have hp : Grows tm c (c.put i { c.node i with
        log := (c.node i).log ++ [e], written := some (c.node i).term }) := Grows.put le_rfl
    refine ⟨hp.net, hp.ballots, hp.leaderOf, hp.baseLog, hlog, fun t _ => ?_, hp.term_le⟩
    by_cases ht : t = (c.node i).term
    · subst ht
      exact ⟨[e], by simp [h.leader i hr], by simpa using hterm⟩
    · exact ⟨[], by simp [ht], by simp⟩
  | install _ _ _ _ hterm => exact Grows.put hterm.ge
  | _ => exact Grows.put le_rfl

lemma DiskInv.put (h : DiskInv c) (hn : NodeOk c.leaderLog n) : DiskInv (c.put i n) := by
  intro j
  by_cases hj : j = i
  · subst hj
    simpa using hn
  · simpa [put_node_ne _ _ _ _ hj] using h j

lemma DiskInv.step (h : DiskInv c) (hl : LogInv tm c) (he : ElectionInv voters c)
    (hs : Step tm voters False i c c') : DiskInv c' := by
  have hg := hl.leaderLog_step he hs
  have hi := h i
  cases hs with
  | raiseTerm ht => exact h.put (hi.raise ht rfl)
  | stepDown | castVote =>
    exact h.put (hi.same rfl rfl rfl rfl rfl rfl hi.durable_le (by simp [hi.agreed_le])
      (by simp [hi.agreed]) hi.floor_le_synced hi.floor_le_commit)
  | stand => exact h.put (hi.raise (Nat.lt_succ_self _) rfl)
  | solicit | sendGrant | sendAppend | sendAck | sendSnapshot => exact h
  | countVote | recvAck | forget =>
    exact h.put (hi.same rfl rfl rfl rfl rfl rfl hi.durable_le hi.agreed_le hi.agreed
      hi.floor_le_synced hi.floor_le_commit)
  | lead =>
    intro j
    refine NodeOk.mono ?_ hg
    refine DiskInv.put h ?_ j
    exact hi.same rfl rfl rfl rfl rfl rfl hi.durable_le hi.agreed_le hi.agreed
      hi.floor_le_synced hi.floor_le_commit
  | @appendOwn e hr hterm =>
    intro j
    by_cases hj : j = i
    · subst hj
      simp only [publish_node, put_node_self]
      exact (hi.mono hg).grow (by simp)
    · simpa [put_node_ne _ _ _ _ hj] using (h j).mono hg
  | truncate hr hm hk hes hlog hne hc => exact h.put (hi.truncate hl hm hes hlog hne hc)
  | extend hr hm hk hlog => exact h.put (hi.grow (hl.append_isPrefix hm hk hlog))
  | @agree prev prevTerm es cm hr hm hk =>
    have htake := hk.take_eq (hl.rooted i) (hl.leaderRooted _) (hl.append _ _ _ _ _ hm).1
    refine h.put (hi.same rfl rfl rfl rfl rfl rfl hi.durable_le (max_le hi.agreed_le hk.1) ?_
      hi.floor_le_synced hi.floor_le_commit)
    rcases le_total (c.node i).agreed (prev + es.length) with hle | hle
    · simp only [max_eq_right hle, htake]
      exact take_prefix _ _
    · simp only [max_eq_left hle]
      exact hi.agreed
  | learnCommit =>
    exact h.put (hi.same rfl rfl rfl rfl rfl rfl hi.durable_le hi.agreed_le hi.agreed
      hi.floor_le_synced (hi.floor_le_commit.trans (le_max_left _ _)))
  | advance _ _ _ hlt =>
    exact h.put (hi.same rfl rfl rfl rfl rfl rfl hi.durable_le hi.agreed_le hi.agreed
      hi.floor_le_synced (hi.floor_le_commit.trans hlt.le))
  | sync hw => exact h.put (hi.sync hw)
  | report hm hr ht =>
    refine h.put (hi.same rfl rfl rfl rfl rfl rfl (max_le hi.durable_le ?_) hi.agreed_le hi.agreed
      hi.floor_le_synced hi.floor_le_commit)
    exact (min_le_left _ _).trans (hr.trans ((hi.report _ _ hm).2.2.1 ht))
  | compact hf hd =>
    exact h.put (hi.same rfl rfl rfl rfl rfl rfl hi.durable_le hi.agreed_le hi.agreed
      ((hd not_false).trans hi.durable_le) hf)
  | crash hsy hk =>
    refine h.put (NodeOk.start ?_)
    simp only [length_take, min_eq_left hk]
    exact hi.floor_le_synced.trans (hsy not_false)
  | install htr => exact htr.elim

/-! ## Acknowledgements -/

/-- What is on a node's disk stays there through a step, unless the leader of the node's
term does not have it. -/
lemma LogInv.keeps (h : LogInv tm c) (hs : Step tm voters False i c c')
    (ha : a <+: (c.node v).log) (hsync : a.length ≤ (c.node v).synced) :
    a <+: (c'.node v).log ∧ a.length ≤ (c'.node v).synced ∨
      c.leaderOf (c.node v).term ≠ none ∧ ¬ a <+: c.leaderLog (c.node v).term := by
  by_cases hv : v = i
  · subst hv
    cases hs with
    | appendOwn => exact Or.inl ⟨by simpa using ha.trans (prefix_append _ _), by simpa⟩
    | extend => exact Or.inl ⟨by simpa using ha.trans (prefix_append _ _), by simpa⟩
    | @truncate prev prevTerm es cm k hr hm hk hes hlog hne hc =>
      by_cases hpre : a <+: c.leaderLog (c.node v).term
      · have hle := h.shared_le hm hes hne ha hpre
        exact Or.inl ⟨by simpa using isPrefix_take ha hle, by simpa using ⟨hsync, hle⟩⟩
      · exact Or.inr ⟨(h.append _ _ _ _ _ hm).2, hpre⟩
    | sync => exact Or.inl ⟨by simpa, by simpa using ha.length_le⟩
    | crash hsy hk =>
      have hle := hsync.trans (hsy not_false)
      refine Or.inl ⟨?_, ?_⟩
      · simpa [Node.start] using isPrefix_take ha hle
      · simpa [Node.start, min_eq_left hk] using hle
    | install htr => exact htr.elim
    | _ => exact Or.inl ⟨by simpa using ha, by simpa using hsync⟩
  · exact Or.inl ⟨by rwa [hs.node_ne hv], by rwa [hs.node_ne hv]⟩

/-- Acknowledged and still on the disk. -/
def Kept (c : Cluster N E) (t r : ℕ) (v : N) : Prop :=
  chunk c t r <+: (c.node v).log ∧ (chunk c t r).length ≤ (c.node v).synced

/-- What an acknowledgement says of its sender from then on. -/
structure AckOk (c : Cluster N E) (t : ℕ) (v : N) (m : ℕ) : Prop where
  le_length : m ≤ (c.leaderLog t).length
  term_le : t ≤ (c.node v).term
  kept : ∀ r ≤ m, Kept c t r v ∨ Lost c t r (c.node v).term

def AckInv (c : Cluster N E) : Prop := ∀ t v m, .ack t v m ∈ c.net → AckOk c t v m

lemma AckOk.step (h : LogInv tm c) (he : ElectionInv voters c)
    (hs : Step tm voters False i c c') (ho : AckOk c t v m) : AckOk c' t v m := by
  have hg := h.grows he hs
  refine ⟨ho.le_length.trans (hg.leaderLog t).length_le, ho.term_le.trans (hg.term_le v), ?_⟩
  intro r hr
  have hlen := hr.trans ho.le_length
  rcases ho.kept r hr with ⟨hpre, hsync⟩ | hlost
  · rcases h.keeps hs hpre hsync with ⟨hpre', hsync'⟩ | ⟨hled, hnot⟩
    · exact Or.inl ⟨by rwa [hg.chunk_eq hlen], by rwa [hg.chunk_eq hlen]⟩
    · -- the leader that made the node drop it is of a later term than `t`
      have hlt : t < (c.node v).term := by
        refine lt_of_le_of_ne ho.term_le ?_
        intro heq
        exact hnot (heq ▸ take_prefix _ _)
      have hlost : Lost c t r (c.node v).term := ⟨_, hlt, le_rfl, hled, hnot⟩
      exact Or.inr (hlost.mono h hg hlen (hg.term_le v))
  · exact Or.inr (hlost.mono h hg hlen (hg.term_le v))

omit [DecidableEq N] in
/-- A node acknowledges only what is on its disk and what its leader has. -/
lemma LogInv.ackOk (h : LogInv tm c) (hd : DiskInv c) (hm : m ≤ (c.node i).durable)
    (ha : m ≤ (c.node i).agreed ∨ (c.node i).role = .leader) : AckOk c (c.node i).term i m := by
  have hi := hd i
  have hsync := hm.trans hi.durable_le
  have hpre : (c.node i).log.take m <+: c.leaderLog (c.node i).term := by
    rcases ha with hag | hr
    · exact (take_prefix_take_left hag).trans hi.agreed
    · rw [h.leader i hr]
      exact take_prefix _ _
  have hlen : ((c.node i).log.take m).length = m := by
    simp [hsync.trans hi.synced_le]
  refine ⟨hlen ▸ hpre.length_le, le_rfl, fun r hr => Or.inl ⟨?_, ?_⟩⟩
  · have hr' : (c.leaderLog (c.node i).term).take r = (c.node i).log.take r := by
      have := prefix_iff_eq_take.mp hpre
      rw [hlen] at this
      rw [← min_eq_left hr, ← take_take, ← this, take_take]
    rw [chunk, hr']
    exact take_prefix _ _
  · exact (length_take_le _ _).trans (hr.trans hsync)

omit [DecidableEq N] in
lemma AckInv.init : AckInv (Cluster.init : Cluster N E) := by
  intro t v m hm
  simp [Cluster.init] at hm

lemma AckInv.step (hk : AckInv c) (h : LogInv tm c) (he : ElectionInv voters c)
    (hd : DiskInv c) (hs : Step tm voters False i c c') : AckInv c' := by
  intro t v m hm
  have hold : .ack t v m ∈ c.net → AckOk c' t v m :=
    fun hm => (hk t v m hm).step h he hs
  by_cases hin : .ack t v m ∈ c.net
  · exact hold hin
  · have hnew := hs
    cases hs with
    | sendAck hdur hag =>
      rcases hm with heq | hm
      · cases heq
        exact (h.ackOk hd hdur hag).step h he hnew
      · exact absurd hm hin
    | solicit | sendGrant | sendAppend | sendSnapshot =>
      rcases hm with heq | hm
      · cases heq
      · exact absurd hm hin
    | _ => exact absurd hm hin

end FerroDb.Library.Raft
