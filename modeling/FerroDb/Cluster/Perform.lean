import FerroDb.Cluster.Refine

/-!
# Performing each action

One rule of `Sim` for each action a handler can emit: what the protocol has to do for the
action to keep a node and its counterpart related. An action that may not pass a deferred sync
is performed after one, which is a step of the protocol too.
-/

namespace FerroDb.Cluster

open Library List Node Option

variable {cfg : Config} {snaps : Prop} {i : NodeId} {s s' : Consensus} {h h' : Node}
  {c c' : Abs} {t : Term} {m : Message} {r : Round}

/-- The disk relation after a step of the protocol that changed the disk's part of a node. -/
lemma DiskRel.move (hd : DiskRel cfg snaps i h c)
    (hreach : Raft.Reachable tm cfg.voters snaps c) (hs : Steps cfg snaps i c c')
    (hhard : h'.hard = ⟨(c'.node i).term, (c'.node i).vote⟩)
    (hlog : DiskLog h'.log (c'.node i).log (c'.node i).floor (c'.node i).synced)
    (hfloor : (c'.node i).floor = (c.node i).floor) (htrans : h'.transitions = h.transitions)
    (happ : h'.applied = h.applied) (hhist : h'.appliedLog = h.appliedLog)
    (hout : h'.outbox = h.outbox) : DiskRel cfg snaps i h' c' := by
  have hk := hs.keeps hreach
  exact {
    hard := hhard
    log := hlog
    transitions := fun t l hm => hk.leader _ _ (hd.transitions t l (htrans ▸ hm))
    history := fun htr T e hm => hk.settled _ _ (hd.history htr T e (hhist ▸ hm))
    floor_applied := by
      rw [hlog.floorRound, hfloor, happ, ← hd.log.floorRound]
      exact hd.floor_applied
    covered := by rw [happ, hhist]; exact hd.covered
    outbox := fun m hm => (hd.outbox m (hout ▸ hm)).mono hk.net }

/-! ## The deferred sync -/

/-- Syncing the log is a step of the protocol once something was written. -/
lemma DiskRel.sync (hd : DiskRel cfg snaps i h c)
    (hreach : Raft.Reachable tm cfg.voters snaps c) (hw : (c.node i).written = some t) :
    ∃ c', Steps cfg snaps i c c' ∧ DiskRel cfg snaps i { h with log := h.log.sync } c' ∧
      c'.net = c.net ∧ c'.node i = { c.node i with
        synced := (c.node i).log.length
        reports := insert (t, (c.node i).log.length) (c.node i).reports } := by
  have hs : Steps cfg snaps i c _ := .single (.sync hw)
  refine ⟨_, hs, hd.move hreach hs ?_ ?_ ?_ rfl rfl rfl rfl, rfl, Raft.Cluster.put_node_self ..⟩
  all_goals rw [Raft.Cluster.put_node_self]
  · exact hd.hard
  · exact hd.log.sync

lemma Related.flush (hr : Related cfg snaps i s h c) :
    StepsTo cfg snaps i c s h.flushDeferred := by
  cases hdef : h.deferred with
  | none =>
    refine ⟨c, .refl, ?_⟩
    rwa [flushDeferred, hdef]
  | some report =>
    obtain ⟨t, r⟩ := report
    have hcases := hr.deferred t r hdef
    obtain ⟨w, hw⟩ : ∃ w, (c.node i).written = some w := by
      rcases hcases with ⟨hw, -⟩ | ⟨hw, -⟩
      · exact ⟨t, hw⟩
      · exact ne_none_iff_exists'.mp hw
    obtain ⟨c', hs, hd, hnet, hnode⟩ := hr.disk.sync hr.reach hw
    have hreports : (c'.node i).reports = insert (w, (c.node i).log.length) (c.node i).reports := by
      rw [hnode]
    refine ⟨c', hs, ?_⟩
    rw [flushDeferred, hdef]
    exact {
      reach := hs.reach hr.reach
      mem := by rw [hnode, hnet]; exact { hr.mem with }
      disk := { hd with }
      applied := hr.applied
      pending := by
        intro t' r' hm
        rcases mem_append.mp hm with hold | hnew
        · obtain ⟨r'', hle, hmem⟩ := hr.pending t' r' hold
          exact ⟨r'', hle, hreports ▸ Set.mem_insert_of_mem _ hmem⟩
        · obtain ⟨rfl, rfl⟩ : t' = t ∧ r' = r := by simpa using hnew
          rw [hreports]
          rcases hcases with ⟨hwt, -, hle⟩ | ⟨-, huniv⟩
          · obtain rfl : t' = w := by simpa [hwt] using hw
            exact ⟨_, hle, Set.mem_insert _ _⟩
          · exact ⟨r', le_rfl, by simp [huniv]⟩
      deferred := fun _ _ hnone => by cases hnone
      flushed := fun _ => by rw [hnode] }

/-- An action that waits for the deferred sync. -/
lemma Sim.flushing {a : Action} (hr : Related cfg snaps i s h c)
    (hp : passesDeferred a = false) (H : ∀ h₁ c₁, h₁.deferred = none → Steps cfg snaps i c c₁ →
      Related cfg snaps i s h₁ c₁ → Sim cfg snaps i h₁ c₁ (s', [a])) :
    Sim cfg snaps i h c (s', [a]) := by
  obtain ⟨c₁, hs, hr₁⟩ := hr.flush
  have hnone : h.flushDeferred.deferred = none := by
    unfold flushDeferred
    split <;> simp_all
  have hperform : h.perform a = h.flushDeferred.perform a := by
    have hidem : h.flushDeferred.flushDeferred = h.flushDeferred := by
      rw [flushDeferred, hnone]
    simp [perform, hp, hidem]
  obtain ⟨⟨h₂, c₂, hp₂, hs₂, hr₂⟩, hcr⟩ := H _ _ hnone hs hr₁
  refine ⟨⟨h₂, c₂, ?_, hs.trans hs₂, hr₂⟩, fun hx hc => ?_⟩
  · simpa [performAll, hperform] using hp₂
  · cases hc with
    | here => exact ⟨c, .refl, hr.disk⟩
    | torn => simp [passesDeferred] at hp
    | later hpa hca =>
      obtain ⟨cx, hsx, hdx⟩ := hcr hx (.later (hperform ▸ hpa) hca)
      exact ⟨cx, hs.trans hsx, hdx⟩

/-! ## The rules -/

lemma Sim.send (hr : Related cfg snaps i s h c)
    (hs : Steps cfg snaps i c c') (hnode : c'.node i = c.node i)
    (hm : Carries cfg snaps c'.net m) : Sim cfg snaps i h c (s, [.send m]) := by
  have hnet := (hs.keeps hr.reach).net
  have hmem : Mem cfg snaps i s (c'.node i) c'.net := by
    rw [hnode]
    exact { hr.mem with receiving := fun cur hcur => (hr.mem.receiving cur hcur).mono hnet }
  have hr' := hr.same hs (hnode ▸ .refl _) hmem rfl
  refine Sim.single (g := { h with outbox := h.outbox ++ [m] }) hr.disk rfl hs
    { hr' with disk := { hr'.disk with outbox := ?_ } } (by simp)
  intro m' hm'
  rcases mem_append.mp hm' with hold | hnew
  · exact hr'.disk.outbox m' hold
  · rwa [mem_singleton.mp hnew]

/-- A message that stands for nothing in the protocol. -/
lemma Sim.send_plain (hr : Related cfg snaps i s h c)
    (hm : Carries cfg snaps c.net m) : Sim cfg snaps i h c (s, [.send m]) :=
  Sim.send hr .refl rfl hm

lemma Sim.refuse {e : FerroError} (hr : Related cfg snaps i s h c) :
    Sim cfg snaps i h c (s, [.refuse e]) :=
  Sim.flushing hr rfl fun h₁ _ hnone _ hr₁ =>
    Sim.single (g := h₁) hr₁.disk (by simp [Node.perform, flushDeferred, hnone,
      performNow]) .refl hr₁ (by simp)

lemma Sim.roleChanged {role : Role} {l : Option NodeId}
    (hr : Related cfg snaps i s h c) (hl : role = .leader → c.leaderOf t = some i) :
    Sim cfg snaps i h c (s, [.roleChanged role t l]) := by
  refine Sim.flushing hr rfl fun h₁ c₁ hnone hs hr₁ => ?_
  refine Sim.single (g := { h₁ with transitions := h₁.transitions ++ [(role, t, l)] }) hr₁.disk
    (by simp [perform, flushDeferred, hnone, performNow]) .refl
    { hr₁ with disk := { hr₁.disk with transitions := ?_ } } (by simp)
  intro t' l' hm
  rcases mem_append.mp hm with hold | hnew
  · exact hr₁.disk.transitions t' l' hold
  · obtain ⟨hrole, rfl, -⟩ : Role.leader = role ∧ t' = t ∧ l' = l := by simpa using hnew
    exact (hs.keeps hr.reach).leader _ _ (hl hrole.symm)

/-- A new term or vote: any step of the protocol that keeps the node's log. -/
lemma Sim.persistHardState (hr : Related cfg snaps i s h c)
    (H : ∀ c₁, Steps cfg snaps i c c₁ → Mem cfg snaps i s (c₁.node i) c₁.net →
      ∃ c₂, Raft.Step tm cfg.voters snaps i c₁ c₂ ∧
        Mem cfg snaps i s' (c₂.node i) c₂.net ∧ (c₂.node i).log = (c₁.node i).log ∧
        (c₂.node i).synced = (c₁.node i).synced ∧ (c₂.node i).floor = (c₁.node i).floor ∧
        (c₂.node i).reports = (c₁.node i).reports)
    (ha : s'.applied = s.applied) {v : Option NodeId} (hhard : s'.hard = ⟨t, v⟩) :
    Sim cfg snaps i h c (s', [.persistHardState t v]) := by
  refine Sim.flushing hr rfl fun h₁ c₁ hnone hs hr₁ => ?_
  obtain ⟨c₂, hstep, hmem, hlog, hsync, hfloor, hrep⟩ := H c₁ hs hr₁.mem
  have hs₂ : Steps cfg snaps i c₁ c₂ := .single hstep
  have hperform : h₁.perform (.persistHardState t v) = .ok { h₁ with hard := ⟨t, v⟩ } := by
    simp [perform, flushDeferred, hnone, performNow]
  refine Sim.single hr₁.disk hperform hs₂ ?_ (by simp)
  exact {
    reach := hs₂.reach hr₁.reach
    mem := hmem
    disk := hr₁.disk.move hr₁.reach hs₂ (by rw [hmem.term, hmem.vote, hhard])
      (by rw [hlog, hsync, hfloor]; exact hr₁.disk.log) hfloor rfl rfl rfl rfl
    applied := hr₁.applied.trans ha.symm
    pending := by rw [hrep]; exact hr₁.pending
    deferred := fun _ _ hsome => by simp [hnone] at hsome
    flushed := fun hn => by rw [hsync, hlog]; exact hr₁.flushed hn }

lemma Sim.truncate (hr : Related cfg snaps i s h c)
    (hlo : s.snapshotRound < r) (hlen : r ≤ s.lastRound)
    (H : ∀ c₁, Steps cfg snaps i c c₁ → Mem cfg snaps i s (c₁.node i) c₁.net →
      ∃ c₂, Raft.Step tm cfg.voters snaps i c₁ c₂ ∧
        Mem cfg snaps i s' (c₂.node i) c₂.net ∧ (c₂.node i).term = (c₁.node i).term ∧
        (c₂.node i).vote = (c₁.node i).vote ∧ (c₂.node i).log = (c₁.node i).log.take (r - 1) ∧
        (c₂.node i).synced = min (c₁.node i).synced (r - 1) ∧
        (c₂.node i).floor = (c₁.node i).floor ∧ (c₂.node i).reports = (c₁.node i).reports)
    (ha : s'.applied = s.applied) : Sim cfg snaps i h c (s', [.truncate r]) := by
  refine Sim.flushing hr rfl fun h₁ c₁ hnone hs hr₁ => ?_
  obtain ⟨c₂, hstep, hmem, hterm, hvote, hlog, hsync, hfloor, hrep⟩ := H c₁ hs hr₁.mem
  have hs₂ : Steps cfg snaps i c₁ c₂ := .single hstep
  obtain ⟨l', htr, hdl⟩ := hr₁.disk.log.truncateFrom (r := r)
    (by rw [hr₁.mem.floor]; exact hlo) (by rw [← hr₁.mem.log.lastRound]; exact hlen)
  have hperform : h₁.perform (.truncate r) = .ok { h₁ with log := l' } := by
    simp [perform, flushDeferred, hnone, performNow, htr]
  refine Sim.single hr₁.disk hperform hs₂ ?_ (by simp)
  have hflushed := hr₁.flushed hnone
  exact {
    reach := hs₂.reach hr₁.reach
    mem := hmem
    disk := hr₁.disk.move hr₁.reach hs₂ (by rw [hterm, hvote]; exact hr₁.disk.hard)
      (by rw [hlog, hsync, hfloor]; exact hdl) hfloor rfl rfl rfl rfl
    applied := hr₁.applied.trans ha.symm
    pending := by rw [hrep]; exact hr₁.pending
    deferred := fun _ _ hsome => by simp [hnone] at hsome
    flushed := fun _ => by rw [hsync, hlog, hflushed, length_take, min_comm] }

/-- New entries at the end of the log. -/
lemma Sim.persist {es : List Entry} (hr : Related cfg snaps i s h c)
    (hT : h.sm.hard.term = s.hard.term) (hne : es ≠ []) (hs : Steps cfg snaps i c c')
    (hterm' : (c'.node i).term = (c.node i).term) (hvote : (c'.node i).vote = (c.node i).vote)
    (hlog' : (c'.node i).log = (c.node i).log ++ es)
    (hwritten : (c'.node i).written = some (c'.node i).term)
    (hsync : (c'.node i).synced = (c.node i).synced) (hfloor : (c'.node i).floor = (c.node i).floor)
    (hreports : (c'.node i).reports = (c.node i).reports)
    (hmem : Mem cfg snaps i s' (c'.node i) c'.net) (ha : s'.applied = s.applied) :
    Sim cfg snaps i h c (s', [.persist es]) := by
  have hreach := hs.reach hr.reach
  have hrounds : Rounds ((c.node i).log ++ es) := hlog' ▸ hmem.log.rounds
  have hsorted : TermSorted tm ((c.node i).log ++ es) :=
    hlog' ▸ (logInv hreach).sorted_of_rooted ((logInv hreach).rooted i)
  obtain ⟨l', happ, hdl⟩ := hr.disk.log.append hrounds hsorted
  have hd : DiskRel cfg snaps i { h with log := l' } c' :=
    hr.disk.move hr.reach hs (by rw [hterm', hvote]; exact hr.disk.hard)
      (by rw [hlog', hsync, hfloor]; exact hdl) hfloor rfl rfl rfl rfl
  obtain ⟨last, hlast⟩ : ∃ e, es.getLast? = some e :=
    ne_none_iff_exists'.mp (by simpa using hne)
  have hround : last.round = (c'.node i).log.length := hlog' ▸ hrounds.last hlast
  have hterm : (c'.node i).term = h.sm.hard.term := by rw [hterm', hT, hr.mem.term]
  have hgrew : (c.node i).log.length ≤ (c'.node i).log.length := by rw [hlog']; simp
  -- what was deferred before is still covered by the next sync
  have hdeferred : ∀ t r, h.deferred = some (t, r) →
      t = (c'.node i).term ∧ r ≤ (c'.node i).log.length ∨ (c'.node i).reports = Set.univ := by
    intro t r hdef
    rcases hr.deferred t r hdef with ⟨-, ht, hle⟩ | ⟨-, huniv⟩
    · exact Or.inl ⟨by rw [ht, hterm'], hle.trans hgrew⟩
    · exact Or.inr (hreports.trans huniv)
  have htorn : ∀ es' log, Action.persist es = .persist es' → h.log.append es' = .ok log →
      ∃ cx, Steps cfg snaps i c cx ∧ DiskRel cfg snaps i { h with log := log } cx := by
    rintro es' log ⟨⟩ hlog
    obtain rfl : l' = log := by simpa [happ] using hlog
    exact ⟨c', hs, hd⟩
  by_cases hg : h.groupCommit = true
  · refine Sim.single (g := { h with
        log := l', deferred := some (h.deferred.elim h.sm.hard.term Prod.fst, last.round) })
      hr.disk ?_ hs ?_ htorn
    · simp [perform, passesDeferred, performNow, persistEntries, hlast, happ, hg]
    · exact {
        reach := hreach
        mem := hmem
        disk := { hd with }
        applied := hr.applied.trans ha.symm
        pending := by rw [hreports]; exact hr.pending
        deferred := by
          rintro t r ⟨⟩
          rw [hwritten]
          cases hdef : h.deferred with
          | none => exact Or.inl ⟨by simp [hterm], by simp [hterm], hround.le⟩
          | some d =>
            rcases hdeferred d.1 d.2 hdef with ⟨ht, -⟩ | huniv
            · exact Or.inl ⟨by simp [ht], by simp [ht], hround.le⟩
            · exact Or.inr ⟨by simp, huniv⟩
        flushed := by simp }
  · obtain ⟨c₂, hs₂, hd₂, hnet₂, hnode₂⟩ := hd.sync hreach hwritten
    have hreports₂ : (c₂.node i).reports =
        insert ((c'.node i).term, (c'.node i).log.length) (c.node i).reports := by
      rw [hnode₂, ← hreports]
    refine Sim.single (g := { h with
        log := l'.sync, pending := h.pending ++ [(h.sm.hard.term, last.round)] })
      hr.disk ?_ (hs.trans hs₂) ?_ htorn
    · simp [perform, passesDeferred, performNow, persistEntries, hlast, happ, hg]
    · exact {
        reach := hs₂.reach hreach
        mem := by rw [hnode₂, hnet₂]; exact { hmem with }
        disk := { hd₂ with }
        applied := hr.applied.trans ha.symm
        pending := by
          intro t r hm
          rw [hreports₂]
          rcases mem_append.mp hm with hold | hnew
          · obtain ⟨r', hle, hmem'⟩ := hr.pending t r hold
            exact ⟨r', hle, Set.mem_insert_of_mem _ hmem'⟩
          · obtain ⟨rfl, rfl⟩ : t = h.sm.hard.term ∧ r = last.round := by simpa using hnew
            exact ⟨_, hround.le, by rw [hterm]; exact Set.mem_insert _ _⟩
        deferred := by
          intro t r hdef
          rw [hreports₂, hnode₂]
          rcases hdeferred t r hdef with ⟨rfl, hle⟩ | huniv
          · exact Or.inl ⟨hwritten, rfl, hle⟩
          · exact Or.inr ⟨by simp [hwritten], by rw [← hreports, huniv]; simp⟩
        flushed := fun _ => by rw [hnode₂] }

/-! ## Applying -/

/-- Applying the next `k` rounds of a log that has them. -/
lemma Node.applyLoop_ok {log : List Entry} {floor synced : ℕ} {k : ℕ} {n : Node}
    (hd : DiskLog n.log log floor synced) (hfloor : floor ≤ n.applied)
    (hk : n.applied + k ≤ log.length) : applyLoop k n = .ok { n with
      applied := n.applied + k
      appliedLog := n.appliedLog ++ ((log.drop n.applied).take k).map (n.sm.hard.term, ·) } := by
  induction k generalizing n with
  | zero => simp [applyLoop]
  | succ k ih =>
    have hlt : n.applied < log.length := by lia
    have hget : log[n.applied + 1 - 1]? = some (log[n.applied]) :=
      getElem?_eq_getElem (by lia)
    rw [applyLoop, hd.floorRound, if_neg (by lia), hd.entry (by lia) hget]
    refine (ih ?_ ?_ ?_).trans ?_
    · exact hd
    · exact hfloor.trans (Nat.le_succ _)
    · lia
    · rw [drop_eq_getElem_cons hlt, take_succ_cons]
      simp only [map_cons, append_assoc, singleton_append, Nat.add_assoc,
        Nat.add_comm 1]

lemma Sim.apply (hr : Related cfg snaps i s h c)
    (hT : h.sm.hard.term = s.hard.term) (hlt : s.applied < r) (hcommit : r ≤ s.commit)
    (hdurable : r ≤ s.durable) : Sim cfg snaps i h c ({ s with applied := r }, [.apply r]) := by
  have hlen := hdurable.trans hr.mem.durable_le
  have happ := hr.applied
  have hfloor : (c.node i).floor ≤ h.applied := hr.disk.log.floorRound ▸ hr.disk.floor_applied
  have hloop := applyLoop_ok (k := r - h.applied) hr.disk.log hfloor (by lia)
  have hr' : h.applied + (r - h.applied) = r := by lia
  rw [hr'] at hloop
  refine Sim.single hr.disk (a := .apply r) hloop .refl ?_ (by simp)
  have hmem : Mem cfg snaps i { s with applied := r } (c.node i) c.net :=
    { hr.mem with
      log := { hr.mem.log with }
      floor_le := hr.mem.floor_le.trans hlt.le
      applied_le := hcommit
      applied_durable := fun _ => hdurable }
  -- the entry applied at index `k` above the old cursor
  have hentry : ∀ T e, (T, e) ∈ ((((c.node i).log.drop h.applied).take (r - h.applied)).map
      (h.sm.hard.term, ·)) → T = s.hard.term ∧ ∃ k < r, (c.node i).log[k]? = some e := by
    intro T e hm
    obtain ⟨e', he', heq⟩ := mem_map.mp hm
    obtain ⟨rfl, rfl⟩ : h.sm.hard.term = T ∧ e' = e := by simpa using heq
    obtain ⟨k, hk, rfl⟩ := getElem_of_mem he'
    rw [length_take] at hk
    refine ⟨hT, h.applied + k, by lia, ?_⟩
    rw [getElem_take, getElem_drop]
    exact getElem?_eq_getElem _
  exact {
    reach := hr.reach
    mem := hmem
    disk := { hr.disk with
      history := by
        intro htr T e hm
        rcases mem_append.mp hm with hold | hnew
        · exact hr.disk.history htr T e hold
        · obtain ⟨rfl, k, hk, hget⟩ := hentry T e hnew
          have hround := hr.disk.log.rounds k e hget
          refine ⟨_, hr.mem.term ▸ (safeInv htr hr.reach).commit.commit i, by lia, ?_⟩
          rw [hround, getElem?_take]
          rw [hr.mem.commit]
          lia
      floor_applied := hr.disk.floor_applied.trans (by simp only [happ]; exact hlt.le)
      covered := by
        intro htr k h0 hk
        rcases Nat.lt_or_ge h.applied k with hnew | hold
        · obtain ⟨e, hget⟩ : ∃ e, (c.node i).log[k - 1]? = some e :=
            ⟨_, getElem?_eq_getElem (by lia)⟩
          have hround := hr.disk.log.rounds _ _ hget
          refine ⟨h.sm.hard.term, e, mem_append_right _ (mem_map.mpr ⟨e, ?_, rfl⟩),
            hround.trans (by lia)⟩
          refine mem_iff_getElem?.mpr ⟨k - 1 - h.applied, ?_⟩
          rw [getElem?_take, if_pos (by lia), getElem?_drop, ← hget]
          congr 1
          lia
        · obtain ⟨T, e, hm, he⟩ := hr.disk.covered htr k h0 hold
          exact ⟨T, e, mem_append_left _ hm, he⟩ }
    applied := rfl
    pending := hr.pending
    deferred := hr.deferred
    flushed := hr.flushed }

end FerroDb.Cluster
