import FerroDb.Library.TermLog
import FerroDb.Cluster.Node

/-!
# What the round log on the disk stands for

`DiskLog l log floor synced`: the file holds the part of `log` above `floor`, and what lies
below `synced` survives a crash. Each operation of the round log, on arguments the driver can
give it, succeeds and does the corresponding thing to `log`.
-/

namespace FerroDb.Cluster

open Library List

abbrev tm : Entry → ℕ := Entry.term

/-- The entry at index `k` is the one for round `k + 1`. -/
def Rounds (log : List Entry) : Prop := ∀ k e, log[k]? = some e → e.round = k + 1

variable {l es : List Entry} {e : Entry} {r : ℕ}

namespace Rounds

lemma of_isPrefix {l' : List Entry} (h : Rounds l) (hp : l' <+: l) : Rounds l' := by
  intro k e he
  obtain ⟨s, rfl⟩ := hp
  refine h k e ?_
  rw [getElem?_append_left (List.getElem?_eq_some_iff.mp he).1]
  exact he

lemma append (h : Rounds l)
    (he : ∀ k e, es[k]? = some e → e.round = l.length + k + 1) : Rounds (l ++ es) := by
  intro k e hk
  rcases lt_or_ge k l.length with hlt | hge
  · rw [getElem?_append_left hlt] at hk
    exact h k e hk
  · rw [getElem?_append_right hge] at hk
    have := he _ e hk
    lia

/-- The rounds of what was appended. -/
lemma right (h : Rounds (l ++ es)) {k : ℕ}
    (he : es[k]? = some e) : e.round = l.length + k + 1 := by
  have := h (l.length + k) e (by simpa [getElem?_append_right] using he)
  lia

lemma last (h : Rounds (l ++ es)) (he : es.getLast? = some e) : e.round = (l ++ es).length := by
  have hne : es ≠ [] := by rintro rfl; cases he
  have hpos := length_pos_iff.mpr hne
  rw [getLast?_eq_getElem?] at he
  rw [h.right he, length_append]
  lia

end Rounds

structure DiskLog (l : RoundLog) (log : List Entry) (floor synced : ℕ) : Prop where
  floorRound : l.snapshotRound = floor
  floorTerm : l.snapshotTerm = termAt tm log floor
  floor_le : floor ≤ log.length
  entries : l.entries = log.drop floor
  durable : l.durableRound = synced
  rounds : Rounds log

namespace DiskLog

variable {l l' : RoundLog} {log es : List Entry} {floor synced : ℕ}

lemma empty : DiskLog .empty [] 0 0 := ⟨rfl, rfl, le_rfl, rfl, rfl, nofun⟩

section

variable (h : DiskLog l log floor synced)
include h

lemma lastRound : l.lastRound = log.length := by
  have := h.floor_le
  simp only [RoundLog.lastRound, h.floorRound, h.entries, length_drop]
  lia

lemma lastTerm_eq : l.lastTerm = lastTerm tm log := by
  have hle := h.floor_le
  rw [RoundLog.lastTerm, h.entries, h.floorTerm, getLast?_drop, lastTerm]
  split
  · rw [le_antisymm hle ‹_›]
    rfl
  · obtain ⟨k, hk⟩ : ∃ k, log.length = k + 1 := ⟨log.length - 1, by lia⟩
    have hget : log[k]? = some (log[k]) := getElem?_eq_getElem (by lia)
    rw [getLast?_eq_getElem?, hk, Nat.add_sub_cancel, hget,
      termAt_succ_eq (show k < log.length by lia)]
    rfl

lemma entry (hlo : floor < r) (he : log[r - 1]? = some e) : l.entry r = .ok e := by
  have hidx : l.entries[r - l.firstRound]? = some e := by
    rw [h.entries, getElem?_drop, ← he, RoundLog.firstRound, h.floorRound]
    congr 1
    lia
  have hr : l.checkReadable r = .ok () := by
    rw [RoundLog.checkReadable, h.floorRound, if_neg (by lia), if_neg (by lia)]
  simp only [RoundLog.entry, hr, hidx]
  rfl

lemma termAt_eq (hlo : floor < r) (hr : r ≤ log.length) : l.termAt r = .ok (termAt tm log r) := by
  obtain ⟨k, rfl⟩ : ∃ k, r = k + 1 := ⟨r - 1, by lia⟩
  have he : log[k + 1 - 1]? = some log[k] := getElem?_eq_getElem (by lia)
  rw [RoundLog.termAt, if_neg (by lia), h.floorRound, if_neg (by lia), h.entry hlo he,
    termAt_succ_eq (by lia)]
  rfl

omit h in
/-- A batch that continues the log with terms that do not go back passes the check. -/
lemma checkBatch_ok (hr : Rounds (log ++ es)) (hs : TermSorted tm (log ++ es)) :
    RoundLog.checkBatch (log.length + 1) (lastTerm tm log) es = .ok () := by
  induction es generalizing log with
  | nil => rfl
  | cons e es ih =>
    have hround : e.round = log.length + 1 := hr.right (l := log) (k := 0) rfl
    have hterm : lastTerm tm log ≤ e.term := by
      rcases Nat.eq_zero_or_pos (lastTerm tm log) with h0 | hpos
      · lia
      · obtain ⟨f, hf, hft⟩ := exists_mem_of_lastTerm_pos hpos
        rw [← hft]
        exact (pairwise_append.mp hs).2.2 f hf e mem_cons_self
    have hrest := @ih (log ++ [e]) (by simpa using hr) (by simpa using hs)
    rw [lastTerm_append_singleton, length_append] at hrest
    rw [RoundLog.checkBatch, if_neg (not_not.mpr hround), if_neg (not_lt.mpr hterm)]
    exact hrest

lemma append (hr : Rounds (log ++ es)) (hs : TermSorted tm (log ++ es)) :
    ∃ l', l.append es = .ok l' ∧ DiskLog l' (log ++ es) floor synced := by
  have hle := h.floor_le
  refine ⟨{ l with entries := l.entries ++ es }, ?_, ⟨h.floorRound, ?_, ?_, ?_, h.durable, hr⟩⟩
  · have hb := checkBatch_ok hr hs
    simp only [RoundLog.append, h.lastRound, h.lastTerm_eq, hb]
    rfl
  · rw [termAt_of_isPrefix (prefix_append _ _) hle]
    exact h.floorTerm
  · rw [length_append]
    lia
  · rw [drop_append_of_le_length hle, h.entries]

lemma sync : DiskLog l.sync log floor log.length :=
  { h with durable := h.lastRound }

lemma truncateFrom (hlo : floor < r) (hr : r ≤ log.length) :
    ∃ l', l.truncateFrom r = .ok l' ∧ DiskLog l' (log.take (r - 1)) floor (min synced (r - 1)) := by
  have hread : l.checkReadable r = .ok () := by
    rw [RoundLog.checkReadable, h.floorRound, if_neg (by lia), if_neg (by lia)]
  refine ⟨{ l with
    entries := l.entries.take (r - l.firstRound)
    durableRound := min l.durableRound (r - 1) }, ?_, ⟨h.floorRound, ?_, ?_, ?_, ?_, ?_⟩⟩
  · simp only [RoundLog.truncateFrom, hread, h.lastRound]
    rw [if_neg (by lia)]
    rfl
  · rw [termAt_take (by lia)]
    exact h.floorTerm
  · rw [length_take]
    lia
  · rw [h.entries, drop_take, RoundLog.firstRound, h.floorRound, Nat.sub_sub, Nat.add_comm 1]
  · rw [h.durable]
  · exact h.rounds.of_isPrefix (List.take_prefix _ _)

/-- A crash keeps a prefix that reaches past everything synced. -/
lemma survives (hs : l.Survives l') :
    ∃ k, synced ≤ k ∧ floor ≤ k ∧ k ≤ log.length ∧ DiskLog l' (log.take k) floor k := by
  obtain ⟨k, hk, hsync, rfl⟩ := hs
  have hle := h.floor_le
  have hlen : l.entries.length = log.length - floor := by rw [h.entries, length_drop]
  rw [h.durable, h.floorRound] at hsync
  refine ⟨floor + k, hsync, by lia, by lia, ⟨h.floorRound, ?_, ?_, ?_, ?_, ?_⟩⟩
  · rw [termAt_take (by lia)]
    exact h.floorTerm
  · rw [length_take]
    lia
  · rw [h.entries, drop_take, Nat.add_sub_cancel_left]
  · exact congrArg (· + k) h.floorRound
  · exact h.rounds.of_isPrefix (List.take_prefix _ _)

/-- Discarding up to a round of the log raises the floor, and leaves the rest synced. -/
lemma discardPrefix {f : ℕ} (hlo : floor < f) (hf : f ≤ log.length) :
    ∃ l', l.discardPrefix f (termAt tm log f) = .ok l' ∧ DiskLog l' log f log.length := by
  obtain ⟨k, rfl⟩ : ∃ k, f = k + 1 := ⟨f - 1, by lia⟩
  have hentry := h.entry hlo (getElem?_eq_getElem (show k + 1 - 1 < log.length by lia))
  refine ⟨⟨k + 1, termAt tm log (k + 1), l.entries.drop (k + 1 - l.snapshotRound),
    k + 1 + (l.entries.drop (k + 1 - l.snapshotRound)).length⟩, ?_, ⟨rfl, rfl, hf, ?_, ?_, h.rounds⟩⟩
  · simp only [RoundLog.discardPrefix, h.floorRound, h.lastRound]
    rw [if_neg (by lia), if_neg (by lia), if_pos hf, hentry,
      termAt_succ_eq (show k < log.length by lia)]
    simp only [bind, Except.bind, pure, Except.pure, Nat.add_sub_cancel, ne_eq, not_true,
      if_false]
  · rw [h.entries, drop_drop, h.floorRound, Nat.add_sub_cancel' hlo.le]
  · simp only [h.entries, h.floorRound, length_drop]
    lia

end

end DiskLog

end FerroDb.Cluster
