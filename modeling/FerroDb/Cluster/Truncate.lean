import FerroDb.Cluster.Idle

/-!
# Only a conflicting append truncates

Of all the handlers, only `acceptAppend` emits a truncation, and it refuses one that would reach
the commit.
-/

namespace FerroDb.Cluster

lemma Idle.not_truncates {o : Out} {c : Option RecvCursor} (h : Idle o c) (r : Round) :
    r ∉ Cluster.truncates o.2 := by
  rw [h.truncates]
  exact List.not_mem_nil

variable {es : List Entry} {src : NodeId} {prev : Round} {cm r : Round}

namespace Consensus

variable (s : Consensus)

lemma truncates_onInstallSnapshot (src : NodeId) (t : Term) (info : SnapshotMeta)
    (offset : ℕ) (data : List UInt8) (done : Bool) :
    truncates (s.onInstallSnapshot src t info offset data done).2 = [] := by
  have hchunk : ∀ s : Consensus, truncates (s.receiveChunk src info offset data done).2 = [] := by
    intro s
    obtain ⟨r, n, heq, -⟩ := s.receiveChunk_cases src offset data done
    rw [heq]
    rfl
  unfold onInstallSnapshot
  split
  · rfl
  · split
    · rfl
    · rw [Out.andThen_snd, truncates_append, (s.idle_adoptLeader src t).truncates]
      split
      · rfl
      · simpa using hchunk _

/-- An append truncates above the commit only. -/
lemma commit_lt_of_truncates_acceptAppend
    (h : r ∈ truncates (s.acceptAppend src prev es cm).2) : s.commit < r := by
  have hgrow : ∀ (s : Consensus) fresh, truncates ((s.extendLog src fresh).andThen
      (learnFromAppend · es cm)).2 = [] := fun s fresh =>
    ((s.idle_extendLog src fresh).andThen (idle_learnFromAppend · es cm)).truncates
  unfold acceptAppend at h
  dsimp only at h
  split at h
  · split at h
    · cases h
    · rw [Out.andThen_snd, truncates_append, hgrow] at h
      obtain rfl := List.mem_singleton.mp h
      lia
  · rw [hgrow] at h
    cases h

lemma commit_lt_of_truncates_onAppend {t : Term} {prevTerm : Term}
    (h : r ∈ truncates (s.onAppend src t prev prevTerm es cm).2) : s.commit < r := by
  have hadopt : (s.adoptLeader src t).1.commit = s.commit := by
    unfold adoptLeader becomeFollower
    dsimp only
    split <;> split <;> rfl
  unfold onAppend at h
  split at h
  · cases h
  · rw [Out.andThen_snd, truncates_append, (s.idle_adoptLeader src t).truncates] at h
    unfold matchAppend at h
    split at h
    · cases h
    · split at h
      · split at h
        · exact hadopt ▸ commit_lt_of_truncates_acceptAppend _ h
        · cases h
      · cases h

lemma commit_lt_of_truncates_route {m : Message}
    (h : r ∈ truncates (s.route m).2) : s.commit < r := by
  have hensure : s.ensureLog.commit = s.commit := by
    unfold ensureLog
    split <;> rfl
  cases hm : m.body with
  | append prev prevTerm es cm =>
    rw [route, hm] at h
    exact hensure ▸ commit_lt_of_truncates_onAppend _ h
  | installSnapshot info offset data done =>
    rw [route, hm, truncates_onInstallSnapshot] at h
    cases h
  | _ => exact absurd h ((s.idle_route (by rw [hm]; rfl)).not_truncates r)

/-- No step truncates at or below the commit. -/
lemma commit_lt_of_truncate {ev : Event} (h : .truncate r ∈ (s.step ev).2) : s.commit < r := by
  rw [← mem_truncates] at h
  cases ev with
  | tick => exact absurd h (s.idle_onTick.not_truncates r)
  | recv m =>
    rw [step, onMessage] at h
    split at h
    · split at h <;> simp [sendTo] at h
    · rw [Out.andThen_snd, truncates_append] at h
      split at h
      · rw [(s.idle_becomeFollower m.term none).truncates] at h
        exact commit_lt_of_truncates_route (s.becomeFollower m.term none).1 h
      · exact commit_lt_of_truncates_route _ h
  | persisted t r' => exact absurd h ((s.idle_onPersisted t r').not_truncates r)
  | propose c => exact absurd h ((s.idle_onPropose c).not_truncates r)

end Consensus

end FerroDb.Cluster
