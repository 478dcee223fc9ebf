import FerroDb.Library.Fallible
import FerroDb.Wal.Log

/-!
# Walking the log

Records stand in the log frame after frame, so a reader goes from a record to the next one by its
length. `Framed` says so of a list of records; a walk that starts where a record does visits the
records of its range and no others.
-/

namespace FerroDb.Wal

open Library List

lemma LogRecord.frameLen_pos (r : LogRecord) : 0 < r.frameLen := by
  rw [LogRecord.frameLen]
  omega

/-- The records fill the log from `start` to `stop`. -/
def Framed : ℕ → List LogRecord → ℕ → Prop
  | start, [], stop => start = stop
  | start, r :: rs, stop => r.lsn = start ∧ Framed (start + r.frameLen) rs stop

section

variable {start stop mid : ℕ} {xs ys : List LogRecord} {r : LogRecord}

lemma framed_append :
    Framed start (xs ++ ys) stop ↔ ∃ mid, Framed start xs mid ∧ Framed mid ys stop := by
  induction xs generalizing start with
  | nil => simp [Framed]
  | cons r xs ih =>
    simp only [cons_append, Framed, ih]
    constructor
    · rintro ⟨hr, mid, hx, hy⟩
      exact ⟨mid, ⟨hr, hx⟩, hy⟩
    · rintro ⟨mid, ⟨hr, hx⟩, hy⟩
      exact ⟨hr, mid, hx, hy⟩

namespace Framed

lemma le (h : Framed start xs stop) : start ≤ stop := by
  induction xs generalizing start with
  | nil => exact h.le
  | cons x xs ih => exact (Nat.le_add_right _ _).trans (ih h.2)

lemma mem_bounds (h : Framed start xs stop) (hr : r ∈ xs) :
    start ≤ r.lsn ∧ r.lsn + r.frameLen ≤ stop := by
  obtain ⟨before, after, rfl⟩ := append_of_mem hr
  obtain ⟨mid, hbefore, hlsn, hafter⟩ := framed_append.mp h
  rw [hlsn]
  exact ⟨hbefore.le, hafter.le⟩

lemma lsn_lt (h : Framed start xs stop) (hr : r ∈ xs) : r.lsn < stop := by
  have := h.mem_bounds hr
  have := r.frameLen_pos
  omega

lemma ascending (h : Framed start xs stop) : xs.Pairwise (·.lsn < ·.lsn) := by
  induction xs generalizing start with
  | nil => exact .nil
  | cons x xs ih =>
    refine .cons (fun y hy => ?_) (ih h.2)
    have h₁ := (h.2.mem_bounds hy).1
    have h₂ := h.1
    have h₃ := x.frameLen_pos
    omega

/-- The stop is determined by the records. -/
lemma stop_unique {stop' : ℕ} (h : Framed start xs stop) (h' : Framed start xs stop') :
    stop = stop' := by
  induction xs generalizing start with
  | nil => exact h.symm.trans h'
  | cons x xs ih => exact ih h.2 h'.2

/-- Where a record starts and where it ends the log can be split. -/
lemma split_at (h : Framed start xs stop) (hr : r ∈ xs) :
    ∃ before after, xs = before ++ r :: after ∧ Framed start before r.lsn ∧
      Framed (r.lsn + r.frameLen) after stop := by
  obtain ⟨before, after, rfl⟩ := append_of_mem hr
  obtain ⟨mid, hbefore, hlsn, hafter⟩ := framed_append.mp h
  subst hlsn
  exact ⟨before, after, rfl, hbefore, hafter⟩

/-- Splitting where a record starts is splitting by LSN. -/
lemma filter_lt (h : Framed start xs mid) (h' : Framed mid ys stop) :
    (xs ++ ys).filter (·.lsn < mid) = xs := by
  rw [filter_append, filter_eq_self.mpr fun r hr => by simpa using h.lsn_lt hr,
    filter_eq_nil_iff.mpr fun r hr => by simpa using (h'.mem_bounds hr).1, append_nil]

/-- Cutting at any LSN below the end. -/
lemma cut (h : Framed start xs stop) (q : ℕ) :
    ∃ ys zs mid, xs = ys ++ zs ∧ xs.filter (·.lsn < q) = ys ∧ Framed start ys mid ∧
      Framed mid zs stop := by
  induction xs generalizing start with
  | nil => exact ⟨[], [], start, rfl, rfl, rfl, h⟩
  | cons r xs ih =>
    obtain ⟨hlsn, hrest⟩ := h
    by_cases hq : r.lsn < q
    · obtain ⟨ys, zs, mid, rfl, hfilter, hys, hzs⟩ := ih hrest
      exact ⟨r :: ys, zs, mid, rfl, by simp [hq, hfilter], ⟨hlsn, hys⟩, hzs⟩
    · refine ⟨[], r :: xs, start, rfl, ?_, rfl, hlsn, hrest⟩
      refine filter_eq_nil_iff.mpr fun x hx => ?_
      rcases mem_cons.mp hx with rfl | hx
      · simpa using hq
      · have := (hrest.mem_bounds hx).1
        simp only [decide_eq_true_eq]
        omega

end Framed

end

namespace WalManager

/-- The log as it is kept: without gaps, and flushed up to the end of a record. -/
structure Sound (w : WalManager) : Prop where
  framed : Framed initialLsn w.records w.nextLsn
  flushed : ∃ xs ys, w.records = xs ++ ys ∧ Framed initialLsn xs w.flushedLsn

variable {w : WalManager} {lsn : ℕ} {r : LogRecord} {xs ys : List LogRecord}

lemma sound_new : new.Sound := ⟨rfl, [], [], rfl, rfl⟩

lemma Sound.flushed_le (h : w.Sound) : w.flushedLsn ≤ w.nextLsn := by
  obtain ⟨xs, ys, hrec, hxs⟩ := h.flushed
  have hall := h.framed
  rw [hrec] at hall
  obtain ⟨mid, hxs', hys⟩ := framed_append.mp hall
  rw [hxs.stop_unique hxs']
  exact hys.le

lemma Sound.append (h : w.Sound) (txnId prevLsn : ℕ) (kind : RecKind) :
    (w.append txnId prevLsn kind).2.Sound where
  framed := framed_append.mpr ⟨_, h.framed, rfl, rfl⟩
  flushed := by
    obtain ⟨xs, ys, hrec, hxs⟩ := h.flushed
    exact ⟨xs, ys ++ [_], by rw [WalManager.append, hrec, append_assoc], hxs⟩

lemma Sound.flush (h : w.Sound) : w.flush.Sound where
  framed := h.framed
  flushed := by
    refine ⟨w.records, [], (append_nil _).symm, ?_⟩
    rw [WalManager.flush, max_eq_right h.flushed_le]
    exact h.framed

lemma readRecord_ok (h : w.readRecord lsn = .ok r) : r ∈ w.records ∧ r.lsn = lsn := by
  unfold readRecord at h
  split at h
  · rename_i x hx
    obtain rfl := Except.ok.inj h
    exact ⟨mem_of_find?_eq_some hx, by simpa using find?_some hx⟩
  · cases h

lemma Sound.readRecord (h : w.Sound) (hr : r ∈ w.records) : w.readRecord r.lsn = .ok r := by
  unfold WalManager.readRecord
  obtain ⟨before, after, hrec, hbefore, -⟩ := h.framed.split_at hr
  rw [hrec, find?_append, find?_eq_none.mpr fun x hx => by
    simpa using (hbefore.lsn_lt hx).ne]
  simp

/-! ## Walks -/

/-- Visits the records from `lsn` on that start before `toLsn`. No record is empty, so the length
of the range is enough `fuel`. -/
def forRecords {σ : Type} (w : WalManager) (stuck : ℕ → FerroError) (toLsn : ℕ)
    (visit : ℕ → ℕ → LogRecord → σ → Except FerroError σ) : ℕ → ℕ → σ → Except FerroError σ
  | 0, _, s => .ok s
  | fuel + 1, lsn, s =>
    if lsn < toLsn then do
      let r ← w.readRecord lsn
      let next := lsn + r.frameLen
      let s ← visit lsn next r s
      if next ≤ lsn then throw (stuck lsn)
      forRecords w stuck toLsn visit fuel next s
    else .ok s

variable {σ : Type} {stuck : ℕ → FerroError} {toLsn : ℕ}
  {visit : ℕ → ℕ → LogRecord → σ → Except FerroError σ} {fuel : ℕ} {s : σ}

/-- From the start of a record, a walk visits the records of its range. -/
lemma Sound.forRecords_eq (h : w.Sound) (hrec : w.records = xs ++ ys)
    (hxs : Framed initialLsn xs lsn) (hto : toLsn ≤ w.nextLsn) (hfuel : toLsn - lsn ≤ fuel) :
    w.forRecords stuck toLsn visit fuel lsn s =
      (ys.filter (·.lsn < toLsn)).foldlM
        (fun s r => visit r.lsn (r.lsn + r.frameLen) r s) s := by
  have hall := h.framed
  rw [hrec] at hall
  obtain ⟨mid, hxs', hys⟩ := framed_append.mp hall
  obtain rfl := hxs.stop_unique hxs'
  induction ys generalizing xs lsn fuel s with
  | nil =>
    have hle : toLsn ≤ lsn := hto.trans_eq hys.symm
    cases fuel with
    | zero => rfl
    | succ fuel =>
      rw [forRecords, if_neg hle.not_gt]
      rfl
  | cons r ys ih =>
    obtain ⟨hlsn, hrest⟩ := hys
    by_cases hlt : lsn < toLsn
    · have hmem : r ∈ w.records := by simp [hrec]
      have hpos := r.frameLen_pos
      obtain ⟨fuel, rfl⟩ := Nat.exists_eq_add_of_lt (show 0 < fuel by omega)
      have hstep : Framed initialLsn (xs ++ [r]) (lsn + r.frameLen) :=
        framed_append.mpr ⟨lsn, hxs, hlsn, rfl⟩
      have hread := h.readRecord hmem
      rw [hlsn] at hread
      rw [Nat.zero_add, forRecords, if_pos hlt, hread, ok_bind,
        filter_cons_of_pos (by simpa [hlsn] using hlt), foldlM_cons, hlsn]
      refine bind_congr fun s' => ?_
      rw [if_neg (by omega)]
      exact ih (by simpa using hrec) hstep (by omega) (by simpa using hall) hstep hrest
    · have hnil : (r :: ys).filter (·.lsn < toLsn) = [] := by
        refine filter_eq_nil_iff.mpr fun x hx => ?_
        have hge : lsn ≤ x.lsn := by
          rcases mem_cons.mp hx with rfl | hx
          · exact hlsn.ge
          · have := (hrest.mem_bounds hx).1
            omega
        simpa using (not_lt.mp hlt).trans hge
      rw [hnil]
      cases fuel with
      | zero => rfl
      | succ fuel =>
        rw [forRecords, if_neg hlt]
        rfl

/-- A walk that gets anywhere starts where a record does. -/
lemma forRecords_starts {s' : σ} (hlt : lsn < toLsn) (hfuel : toLsn - lsn ≤ fuel)
    (h : w.forRecords stuck toLsn visit fuel lsn s = .ok s') : ∃ r ∈ w.records, r.lsn = lsn := by
  obtain ⟨fuel, rfl⟩ := Nat.exists_eq_add_of_lt (show 0 < fuel by omega)
  rw [forRecords, if_pos hlt] at h
  obtain ⟨r, hr, -⟩ := bind_ok.mp h
  exact ⟨r, readRecord_ok hr⟩

end WalManager

end FerroDb.Wal
