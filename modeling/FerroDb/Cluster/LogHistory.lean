import FerroDb.Cluster.LogRecovery
import FerroDb.Library.Fallible

/-!
# Every history of the round log

An operation of the log is a list of storage operations, and a crash may come between any two of
them. Up to one place in each operation the disk is as the handle says (`Sound`), before that
operation or after it; the two places where it is not are a truncation that was not yet synced,
and the header of the spare file between its write and its sync. From that, what the log opens to
after any history of operations and crashes.
-/

namespace FerroDb.Cluster.FileLog

open Library List Except Option

variable {Q : Disk → Prop} {expect through : Round} {prev term : Term} {new s : List RawEntry}
  {e : RawEntry}

open PayloadHeader (slice slice_append)

variable {h : Header} {es : List RawEntry} {j k g a : ℕ} {f : File} {x : List UInt8} {i : ℕ}
  {ops ops' : List StoreOp} {l' : FileLog} {d : Disk} {op : FileOp} {l : FileLog} {version : ℕ}
  {round : Round} {α : Type*} {xs : List α}

/-! ## Crashes inside an operation -/

/-- `Q` holds before and after each of the operations. -/
def Always (Q : Disk → Prop) : Disk → List StoreOp → Prop
  | d, [] => Q d
  | d, op :: ops => Q d ∧ Always Q (d.perform op) ops

lemma Always.take (hq : Always Q d ops) (i : ℕ) : Q (d.performAll (ops.take i)) := by
  induction ops generalizing d i with
  | nil => rw [take_nil]; exact hq
  | cons op ops ih =>
    cases i with
    | zero => exact hq.1
    | succ i => exact ih hq.2 i

lemma Always.append
    (hq : Always Q d ops) (hq' : Always Q (d.performAll ops) ops') : Always Q d (ops ++ ops') := by
  induction ops generalizing d with
  | nil => exact hq'
  | cons op ops ih => exact ⟨hq.1, ih hq.2 hq'⟩

lemma Always.mono {Q' : Disk → Prop} (himp : ∀ d, Q d → Q' d)
    (hq : Always Q d ops) : Always Q' d ops := by
  induction ops generalizing d with
  | nil => exact himp d hq
  | cons op ops ih => exact ⟨himp d hq.1, ih hq.2⟩

lemma Recovers.mono {P P' : FileLog → List RawEntry → Prop} (himp : ∀ r es, P r es → P' r es)
    (hd : Recovers P d) : Recovers P' d := by
  intro c hc
  obtain ⟨r, ops, es, hopen, hsound, hP⟩ := hd c hc
  exact ⟨r, ops, es, hopen, hsound, himp r es hP⟩

section Perform

variable (d : Disk) (file : Bool) (op : FileOp)

@[simp] lemma perform_issue_same : d.perform (.issue file op) file = (d file).issue op := by
  simp [Disk.perform]

@[simp] lemma perform_issue_not : d.perform (.issue file op) (!file) = d !file := by
  simp [Disk.perform]

@[simp] lemma perform_issue_of_not : d.perform (.issue (!file) op) file = d file := by
  simp [Disk.perform]

@[simp] lemma perform_sync_same : d.perform (.sync file) file = (d file).sync := by
  simp [Disk.perform]

@[simp] lemma perform_sync_not : d.perform (.sync file) (!file) = d !file := by
  simp [Disk.perform]

@[simp] lemma perform_sync_of_not : d.perform (.sync (!file)) file = d file := by
  simp [Disk.perform]

end Perform

section Steps

variable {d : Disk} {l : FileLog}

lemma place_append (pos : ℕ) (es es' : List RawEntry) :
    place pos (es ++ es') = place pos es ++ place (pos + (frames es).length) es' := by
  induction es generalizing pos with
  | nil => simp [place]
  | cons e es ih => simp [place, ih, Nat.add_assoc]

lemma getElem?_place (pos : ℕ) (es : List RawEntry) (i : ℕ) : (place pos es)[i]? =
      es[i]?.map fun e => ⟨pos + (frames (es.take i)).length, e.frame.length, e.term⟩ := by
  induction es generalizing pos i with
  | nil => simp
  | cons e es ih =>
    cases i with
    | zero => simp [place]
    | succ i => simp [place, ih, Nat.add_assoc]

lemma take_place (pos : ℕ) (es : List RawEntry) (m : ℕ) :
    (place pos es).take m = place pos (es.take m) := by
  induction es generalizing pos m with
  | nil => simp
  | cons e es ih =>
    cases m with
    | zero => rfl
    | succ m => simp [place, ih]

lemma Sound.lastRound (hs : Sound d l es k) : l.lastRound = l.snapshotRound + es.length := by
  rw [FileLog.lastRound, hs.index, length_place]

lemma Sound.lastTerm (hs : Sound d l es k) :
    l.lastTerm = es.getLast?.elim l.snapshotTerm RawEntry.term := by
  have hlast : l.index.getLast?.map Frame.term = es.getLast?.map RawEntry.term := by
    rw [hs.index, getLast?_eq_getElem?, getLast?_eq_getElem?, getElem?_place,
      length_place, Option.map_map]
    rfl
  rw [FileLog.lastTerm]
  revert hlast
  cases l.index.getLast? <;> cases es.getLast? <;> simp

/-- A frame of the index reads as the frame of its entry. -/
lemma Sound.readFrame (hs : Sound d l es k) (he : es[i]? = some e) :
    l.readFrame d ⟨endOf es i, e.frame.length, e.term⟩ = e.frame := by
  obtain ⟨tail, htail, -⟩ := hs.live.content
  obtain ⟨hi, rfl⟩ := List.getElem?_eq_some_iff.mp he
  have hsplit : frames es = frames (es.take i) ++ (es[i].frame ++ frames (es.drop (i + 1))) := by
    rw [← frames_cons, cons_getElem_drop_succ, ← frames_eq_take_append]
  rw [readFrame, htail, hsplit, append_assoc, ← append_assoc,
    slice_append (by simp [endOf]), Nat.add_sub_cancel_left, append_assoc, take_left]

/-- Every round the handle lists can be read back. -/
lemma Sound.entry (hs : Sound d l es k) (he : es[i]? = some e)
    (hround : e.round = l.snapshotRound + 1 + i) : l.entry d e.round = .ok e := by
  have hfit : e.Fits := hs.fits e (mem_of_getElem? he)
  have hread : l.checkReadable e.round = .ok () := by
    rw [checkReadable, if_neg (by lia), if_neg (by lia)]
  have hidx : l.index[e.round - l.firstRound]? =
      some ⟨endOf es i, e.frame.length, e.term⟩ := by
    rw [show e.round - l.firstRound = i by simp only [firstRound]; lia, hs.index, getElem?_place,
      he]
    rfl
  have hframe : l.frameOf e.round = .ok ⟨endOf es i, e.frame.length, e.term⟩ := by
    rw [frameOf, hread]
    simp only [hidx]
    rfl
  rw [FileLog.entry, hframe]
  simp only [bind, Except.bind]
  rw [hs.readFrame he, hfit.decodeFrame]

lemma Chained.round_eq (hc : Chained expect prev es)
    (he : es[i]? = some e) : e.round = expect + i := by
  induction es generalizing expect prev i with
  | nil => cases he
  | cons e' es ih =>
    cases i with
    | zero =>
      obtain rfl : e' = e := by simpa using he
      simpa using hc.1
    | succ i =>
      rw [ih hc.2.2 (by simpa using he)]
      lia

lemma Chained.append (hc : Chained expect prev es)
    (hnew : Chained (expect + es.length) (es.getLast?.elim prev RawEntry.term) new) :
    Chained expect prev (es ++ new) := by
  induction es generalizing expect prev with
  | nil => exact hnew
  | cons e es ih =>
    refine ⟨hc.1, hc.2.1, ih hc.2.2 ?_⟩
    have hlen : expect + 1 + es.length = expect + (e :: es).length := by
      rw [length_cons]; lia
    rw [hlen]
    cases es with
    | nil => exact hnew
    | cons e' es =>
      rw [getLast?_cons_cons] at hnew
      rwa [getLast?_cons] at hnew ⊢

lemma Batch.append (hb : Batch es k op) (hk : k ≤ es.length)
    (new : List RawEntry) : Batch (es ++ new) k op := by
  obtain ⟨a, n, tail, hka, htail, rfl⟩ := hb
  refine ⟨min a es.length, ((es.drop a).take n).length, tail, le_min hka hk, htail, ?_⟩
  have htake : (es ++ new).take (min a es.length) = es.take a := by
    rw [take_append_of_le_length (min_le_right _ _), ← take_eq_take_min]
  have hdrop : ((es ++ new).drop (min a es.length)).take ((es.drop a).take n).length =
      (es.drop a).take n := by
    have hrest : (es ++ new).drop (min a es.length) = es.drop a ++ new := by
      rw [drop_append_of_le_length (min_le_right _ _)]
      rcases Nat.le_total a es.length with h' | h'
      · rw [min_eq_left h']
      · rw [min_eq_right h', drop_eq_nil_of_le le_rfl, drop_eq_nil_of_le h']
    rw [hrest, take_append_of_le_length (length_take_le' _ _)]
    exact (prefix_iff_eq_take.mp (List.take_prefix _ _)).symm
  rw [endOf, endOf, htake, hdrop]

lemma LiveFile.append (hf : LiveFile h es k f) (hk : k ≤ es.length) (new : List RawEntry) :
    LiveFile h (es ++ new) k (f.issue (.write (endOf es es.length) (frames new ++ terminator))) where
  header := hf.header
  synced := by
    rw [take_append_of_le_length hk]
    exact hf.synced
  unsynced := by
    intro op hop
    rw [File.pending_issue, mem_append, mem_singleton] at hop
    rcases hop with hop | rfl
    · exact (hf.unsynced op hop).append hk new
    · refine ⟨es.length, new.length, terminator, hk, by decide, ?_⟩
      simp [endOf]
  content := by
    obtain ⟨tail, htail, hlen⟩ := hf.content
    have hat : endOf es es.length = (h.encode ++ frames es).length := by simp [endOf]
    refine ⟨terminator, ?_, by decide⟩
    rw [File.content_issue, htail, ← append_assoc, hat, FileOp.apply_write_tail]
    · simp
    · simp only [length_append]
      exact hlen.trans (Nat.le_add_left _ _)

lemma LiveFile.sync (hf : LiveFile h es k f) : LiveFile h es es.length f.sync := by
  obtain ⟨tail, htail, hlen⟩ := hf.content
  exact {
    header := by rw [File.durable_sync, htail, take_left' h.length_encode]
    synced := ⟨tail, by
      rw [File.durable_sync, htail, drop_left' h.length_encode, take_length], hlen⟩
    unsynced := nofun
    content := ⟨tail, htail, hlen⟩ }

/-- Cutting the file off behind the first `i` entries. -/
lemma LiveFile.truncate (hf : LiveFile h es k f) (hi : i ≤ es.length) :
    LiveFile h (es.take i) i (f.issue (.setLen (endOf es i))).sync := by
  obtain ⟨tail, htail, -⟩ := hf.content
  have hlen : endOf es i = (h.encode ++ frames (es.take i)).length := by simp [endOf]
  have hcontent : (f.issue (.setLen (endOf es i))).content = h.encode ++ frames (es.take i) := by
    have hsplit : f.content = h.encode ++ frames (es.take i) ++ (frames (es.drop i) ++ tail) := by
      rw [htail, frames_eq_take_append es i]
      simp
    rw [File.content_issue, hsplit, FileOp.apply_setLen_le (by simp [hlen]), hlen, take_left]
  have hstored := LiveFile.stored h (es.take i)
  rw [length_take_of_le hi] at hstored
  rwa [File.sync, hcontent]

/-! ### Appending, syncing, truncating -/

lemma encodeBatch_ok {fs : List (List UInt8)} (htyped : ∀ e ∈ new, e.Typed)
    (hok : encodeBatch expect prev new = .ok fs) :
    fs = new.map RawEntry.frame ∧ Chained expect prev new ∧ ∀ e ∈ new, e.Fits := by
  induction new generalizing expect prev fs with
  | nil => cases hok; exact ⟨rfl, trivial, nofun⟩
  | cons e new ih =>
    rw [encodeBatch] at hok
    by_cases hround : e.round ≠ expect
    · rw [if_pos hround] at hok
      cases hok
    rw [if_neg hround] at hok
    by_cases hterm : e.term < prev
    · rw [if_pos hterm] at hok
      cases hok
    rw [if_neg hterm] at hok
    obtain ⟨frame, hframe, hok⟩ := bind_ok.mp hok
    obtain ⟨frames, hframes, hok⟩ := bind_ok.mp hok
    cases hok
    by_cases hfit : maxEntryBytes < e.total
    · rw [encodeFrame, if_pos hfit] at hframe
      cases hframe
    rw [encodeFrame, if_neg hfit] at hframe
    cases hframe
    obtain ⟨rfl, hchain, hfits⟩ := ih (fun e' h' => htyped e' (.tail _ h')) hframes
    have he : e.Fits := ⟨htyped e (by simp), Nat.not_lt.mp hfit⟩
    exact ⟨rfl, ⟨not_not.mp hround, Nat.not_lt.mp hterm, hchain⟩, by simpa [he] using hfits⟩

lemma Sound.write (hs : Sound d l es k)
    (hchain : Chained (l.lastRound + 1) l.lastTerm new) (hfits : ∀ e ∈ new, e.Fits) :
    Sound (d.perform (.issue l.live (.write l.endOffset (frames new ++ terminator))))
      { l with
        index := l.index ++ place l.endOffset new
        endOffset := l.endOffset + (frames new).length } (es ++ new) k where
  live := by
    rw [perform_issue_same, hs.endOffset]
    exact hs.live.append hs.synced_le new
  spare := by
    rw [perform_issue_not]
    exact hs.spare
  index := by
    have hend : l.endOffset = headerSize + (frames es).length := by
      rw [hs.endOffset, endOf, take_length]
    rw [hs.index, hend, place_append]
  endOffset := by
    rw [hs.endOffset, endOf, endOf, take_length, take_length, frames_append,
      length_append, Nat.add_assoc]
  synced_le := hs.synced_le.trans (by simp)
  durableRound := hs.durableRound
  inRange := hs.inRange
  chained := by
    refine hs.chained.append ?_
    rw [hs.lastRound, hs.lastTerm] at hchain
    rwa [Nat.add_right_comm]
  fits := by
    intro e he
    rcases mem_append.mp he with he | he
    · exact hs.fits e he
    · exact hfits e he

lemma Sound.sync (hs : Sound d l es k) : Sound (d.perform (.sync l.live)) l.sync.1 es es.length :=
  { hs with
    live := by
      rw [show l.sync.1.live = l.live from rfl, perform_sync_same]
      exact hs.live.sync
    spare := by
      rw [show l.sync.1.live = l.live from rfl, perform_sync_not]
      exact hs.spare
    synced_le := le_rfl
    durableRound := hs.lastRound.le }

/-- A crash before the cut is synced may leave entries on both sides of it, but none of the
synced ones before it is lost. -/
lemma Sound.recovers_cut (hs : Sound d l es k) (i : ℕ) :
    Recovers (fun r es' => r.header = l.header ∧ ∃ m, min k i ≤ m ∧ es' = es.take m)
      (d.perform (.issue l.live (.setLen (endOf es i)))) := by
  intro c hc
  have hx : LiveBytes l.header es (min k i) (c l.live) := by
    have hlive := hc l.live
    rw [perform_issue_same] at hlive
    refine .of_crash hs.fits (hs.live.toDurableAs.issue _) ?_ (min_le_left _ _) hlive
    intro op hop
    rw [File.pending_issue, mem_append, mem_singleton] at hop
    rcases hop with hop | rfl
    · exact .inl (hs.live.unsynced op hop)
    · exact .inr ⟨_, endOf_mono es (min_le_right _ _), rfl⟩
  have hy : Older l.header.generation (.stored (c !l.live)) := by
    have hspare := hc !l.live
    rw [perform_issue_not] at hspare
    exact hs.spare.of_crash hspare
  obtain ⟨r, ops, m, hopen, hheader, hm, -, hsound⟩ :=
    reopen hs.inRange hs.fits hs.chained ((min_le_left _ _).trans hs.synced_le) hx hy
  exact ⟨r, ops, _, hopen, hsound, hheader, m, hm, rfl⟩

lemma Sound.cut (hs : Sound d l es k) (hi : i ≤ es.length) :
    Sound (d.performAll [.issue l.live (.setLen (endOf es i)), .sync l.live])
      { l with
        index := l.index.take i
        endOffset := endOf es i
        durableRound := min l.durableRound (l.snapshotRound + i) } (es.take i) i where
  live := by
    simp only [Disk.performAll, foldl_cons, foldl_nil, perform_sync_same,
      perform_issue_same]
    exact hs.live.truncate hi
  spare := by
    simp only [Disk.performAll, foldl_cons, foldl_nil, perform_sync_not,
      perform_issue_not]
    exact hs.spare
  index := by rw [hs.index, take_place]
  endOffset := by rw [endOf, endOf, take_length]
  synced_le := by simp [hi]
  durableRound := min_le_right _ _
  inRange := hs.inRange
  chained := hs.chained.take i
  fits := fun e he => hs.fits e (mem_of_mem_take he)

/-! ### Moving to the spare file -/

/-- The operation puts nothing at the head of the file. -/
def Clear (op : FileOp) : Prop := ∀ r, ¬ op.Carries 0 r

lemma clear_setLen (n : ℕ) : Clear (.setLen n) := fun _ h => h

lemma clear_write {off : ℕ} (hoff : 0 < off) (bs : List UInt8) : Clear (.write off bs) :=
  fun _ h => absurd h.1 (Nat.not_le.mpr hoff)

lemma Older.issue (hf : Older g f) (hop : Clear op) : Older g (f.issue op) := by
  intro r hlen hchecked hstands
  refine hf r hlen hchecked ?_
  rcases hstands with hpre | ⟨op', hop', hcarries⟩
  · exact .inl hpre
  · rw [File.pending_issue, mem_append, mem_singleton] at hop'
    rcases hop' with hop' | rfl
    · exact .inr ⟨op', hop', hcarries⟩
    · exact absurd hcarries (hop r)

lemma Older.sync (hfree : ∀ r, r.length = headerSize → r <+: f.content →
    ¬ Header.Checked r) : Older g f.sync := by
  intro r hlen hchecked hstands
  rcases hstands with hpre | ⟨op, hop, -⟩
  · exact absurd hchecked (hfree r hlen hpre)
  · cases hop

/-- The header of a live file is older than that of its successor. -/
lemma LiveFile.older (hf : LiveFile h es k f) (hr : h.InRange) : Older (h.generation + 1) f := by
  intro r hlen hchecked hstands
  rcases hstands with hpre | ⟨op, hop, hcarries⟩
  · have hr' : r = h.encode := by
      rw [prefix_iff_eq_take.mp hpre, hlen, drop_zero, hf.header]
    exact ⟨h, by rw [hr', Header.decode_encode hr], Nat.lt_succ_self _⟩
  · obtain ⟨a, n, tail, -, -, rfl⟩ := hf.unsynced op hop
    exact absurd hcarries (clear_write (lt_of_lt_of_le (by decide) (headerSize_le_endOf es a)) _ r)

section

variable (hs : Sound d l es k)
include hs

lemma Sound.issue_spare (hop : Clear op) : Sound (d.perform (.issue (!l.live) op)) l es k :=
  { hs with
    live := by
      rw [perform_issue_of_not]
      exact hs.live
    spare := by
      rw [perform_issue_same]
      exact hs.spare.issue hop }

lemma Sound.sync_spare
    (hfree : ∀ r, r.length = headerSize → r <+: (d !l.live).content → ¬ Header.Checked r) :
    Sound (d.perform (.sync !l.live)) l es k :=
  { hs with
    live := by
      rw [perform_sync_of_not]
      exact hs.live
    spare := by
      rw [perform_sync_same]
      exact .sync hfree }

/-- While the spare file is being filled the live one stays what it is. -/
lemma Sound.fill_spare (ops : List FileOp) (hops : ∀ op ∈ ops, Clear op) :
    Always (Sound · l es k) d (ops.map (.issue !l.live)) ∧
      Sound (d.performAll (ops.map (.issue !l.live))) l es k ∧
      (d.performAll (ops.map (.issue !l.live)) !l.live).content =
        ops.foldl FileOp.apply (d !l.live).content := by
  induction ops generalizing d with
  | nil => exact ⟨hs, hs, rfl⟩
  | cons op ops ih =>
    obtain ⟨halways, hsound, hcontent⟩ :=
      ih (hs.issue_spare (hops op (by simp))) (fun op' h' => hops op' (mem_cons_of_mem op h'))
    refine ⟨⟨hs, halways⟩, hsound, ?_⟩
    rw [perform_issue_same, File.content_issue] at hcontent
    exact hcontent

omit hs in
/-- The frame of the index holds the frame of the entry. -/
def Holds (d : Disk) (l : FileLog) (f : Frame) (e : RawEntry) : Prop :=
  l.readFrame d f = e.frame ∧ f.len = e.frame.length ∧ f.term = e.term

lemma Sound.holds (a : ℕ) : List.Forall₂ (Holds d l) (l.index.drop a) (es.drop a) := by
  rw [hs.index, forall₂_iff_get]
  refine ⟨by simp, fun i h₁ h₂ => ?_⟩
  have hi : a + i < es.length := by
    simp only [length_drop] at h₂
    omega
  have hget := getElem?_eq_getElem hi
  have hframe : (place headerSize es)[a + i]? =
      some ⟨endOf es (a + i), es[a + i].frame.length, es[a + i].term⟩ := by
    rw [getElem?_place, hget]
    rfl
  have hidx : ((place headerSize es).drop a).get ⟨i, h₁⟩ =
      ⟨endOf es (a + i), es[a + i].frame.length, es[a + i].term⟩ := by
    rw [get_eq_getElem, getElem_drop]
    exact some.inj ((getElem?_eq_getElem _).symm.trans hframe)
  rw [hidx, get_eq_getElem, getElem_drop]
  exact ⟨hs.readFrame hget, rfl, rfl⟩

omit hs in
/-- The survivors come to stand behind each other, with the terminator behind them. -/
lemma copySurvivors_spec {fs : List Frame}
    (hholds : List.Forall₂ (Holds d l) fs s) (base pos : ℕ) (batch : List UInt8)
    (hpos : base + batch.length ≤ pos) :
    ∃ writes, copySurvivors d l fs pos batch = (writes, place pos s, pos + (frames s).length) ∧
      (∀ op ∈ writes, ∃ off bs, base ≤ off ∧ op = .write off bs) ∧
      ∀ z : List UInt8, z.length + batch.length ≤ pos → writes.foldl FileOp.apply z =
        z ++ replicate (pos - batch.length - z.length) 0 ++
          (batch ++ frames s ++ terminator) := by
  induction hholds generalizing base pos batch with
  | nil =>
    refine ⟨_, rfl, ?_, fun z hz => ?_⟩
    · intro op hop
      rw [mem_singleton] at hop
      exact ⟨_, _, by simp [terminator]; omega, hop⟩
    · have hoff : pos + 4 - (batch ++ terminator).length = pos - batch.length := by
        simp [terminator]
      rw [foldl_cons, hoff, FileOp.apply_write_beyond (by omega)]
      simp
  | @cons f e fs s hf hrest ih =>
    obtain ⟨hread, hlen, hterm⟩ := hf
    have hcat : (batch ++ e.frame).length = batch.length + e.frame.length := length_append
    by_cases hfull : copyBatch ≤ (batch ++ e.frame).length
    · obtain ⟨writes, hcopy, hoffs, hfold⟩ :=
        ih base (pos + e.frame.length) []
          (by simp only [length_nil]; omega)
      refine ⟨.write (pos + e.frame.length - (batch ++ e.frame).length) (batch ++ e.frame) ::
        writes, ?_, ?_, ?_⟩
      · simp only [copySurvivors, hread, hfull, ↓reduceIte, hcopy, hlen, hterm]
        rw [place, frames_cons, Nat.add_assoc pos, ← length_append]
      · intro op hop
        rcases mem_cons.mp hop with rfl | hop
        · exact ⟨_, _, by omega, rfl⟩
        · exact hoffs op hop
      · intro z hz
        have hoff : pos + e.frame.length - (batch ++ e.frame).length = pos - batch.length := by
          omega
        rw [foldl_cons, hoff, FileOp.apply_write_beyond (by omega), hfold]
        · have hpad : pos + e.frame.length - ([] : List UInt8).length -
              (z ++ replicate (pos - batch.length - z.length) 0 ++
                (batch ++ e.frame)).length = 0 := by
            simp only [length_append, length_replicate]
            omega
          rw [hpad]
          simp
        · simp only [length_append, length_replicate, length_nil]
          omega
    · obtain ⟨writes, hcopy, hoffs, hfold⟩ :=
        ih base (pos + e.frame.length) (batch ++ e.frame) (by omega)
      refine ⟨writes, ?_, hoffs, ?_⟩
      · simp only [copySurvivors, hread, hfull, ↓reduceIte, hcopy, hlen, hterm]
        rw [place, frames_cons, Nat.add_assoc pos, ← length_append]
      · intro z hz
        have hpad : pos + e.frame.length - (batch ++ e.frame).length = pos - batch.length := by
          omega
        rw [hfold z (by omega), hpad]
        simp

omit hs in
/-- No header stands at the head of a file that begins with zeros. -/
lemma not_checked_zeros {r c : List UInt8} (hlen : r.length = headerSize)
    (hpre : r <+: replicate headerSize 0 ++ c) : ¬ Header.Checked r := by
  have hr : r = replicate headerSize 0 := by
    rw [prefix_iff_eq_take.mp hpre, hlen, take_left' length_replicate]
  rw [hr]
  exact fun hc => absurd hc.2 (by decide)

section

variable (hgen : l'.generation = l.generation + 1) (hr : l'.header.InRange)
  (hfits : ∀ e ∈ s, e.Fits) (hchain : Chained (l'.snapshotRound + 1) l'.snapshotTerm s)
  (hsynced : d (!l.live) = .stored (replicate headerSize 0 ++ (frames s ++ terminator)))
include hgen hr hfits hchain hsynced

/-- Once the survivors are synced and the header is written, a crash leaves either the old log
or the new one whole. -/
lemma Sound.recovers_header :
    Recovers (fun r es' => (r.header = l.header ∧ ∃ m, k ≤ m ∧ es' = es.take m) ∨
        (r.header = l'.header ∧ es' = s))
      (d.perform (.issue (!l.live) (.write 0 l'.header.encode))) := by
  intro c hc
  have hold := hc l.live
  have hnew := hc !l.live
  rw [perform_issue_of_not] at hold
  rw [perform_issue_same, hsynced] at hnew
  by_cases hhead : ((c !l.live).take headerSize).length = headerSize ∧
      Header.Checked ((c !l.live).take headerSize)
  · -- the header is whole, and then so is what is behind it
    have hheader : (c !l.live).take headerSize = l'.header.encode := by
      rcases hnew.revealed 0 _ (.inl ⟨rfl, rfl, hhead.1, hhead.2⟩) with hpre | ⟨op, hop, hcarries⟩
      · exact absurd hhead.2 (not_checked_zeros hhead.1 hpre)
      · obtain rfl : op = .write 0 l'.header.encode := by simpa [File.stored] using hop
        rw [prefix_iff_eq_take.mp hcarries.2, hhead.1, drop_zero,
          take_of_length_le l'.header.length_encode.le]
    have hbody : (c !l.live).drop headerSize = frames s ++ terminator := by
      have hdurable : (replicate headerSize (0 : UInt8) ++ (frames s ++ terminator)).drop
          headerSize = frames s ++ terminator := drop_left' length_replicate
      rw [← hdurable]
      refine ext_getElem? fun p => ?_
      rw [getElem?_drop, getElem?_drop]
      refine hnew.untouched _ ?_
      rintro ⟨op, hop, htouch⟩
      obtain rfl : op = .write 0 l'.header.encode := by simpa [File.stored] using hop
      have := htouch.1
      rw [Header.length_encode] at this
      omega
    have hx : LiveBytes l'.header s s.length (c !l.live) :=
      .of_crash hfits ⟨hheader, terminator, by rw [take_length]; exact hbody, by decide⟩
        (fun op hop => absurd hop not_mem_nil) le_rfl (crash_durable (.stored _))
    have hy : Older l'.header.generation (.stored (c !!l.live)) := by
      rw [Bool.not_not, header, hgen]
      exact (hs.live.older hs.inRange).of_crash hold
    obtain ⟨r, ops, m, hopen, hh, hm, -, hsound⟩ := reopen hr hfits hchain le_rfl hx hy
    rw [take_of_length_le hm] at hsound
    exact ⟨r, ops, s, hopen, hsound, .inr ⟨hh, rfl⟩⟩
  · have hx : LiveBytes l.header es k (c l.live) :=
      .of_crash hs.fits hs.live.toDurableAs (fun op hop => .inl (hs.live.unsynced op hop)) le_rfl
        hold
    have hy : Older l.header.generation (.stored (c !l.live)) := by
      intro r hlen hchecked hstands
      rcases hstands with hpre | ⟨op, hop, -⟩
      · have hr' : r = (c !l.live).take headerSize := by
          rw [prefix_iff_eq_take.mp hpre, hlen]
          rfl
        exact absurd ⟨hr' ▸ hlen, hr' ▸ hchecked⟩ hhead
      · cases hop
    obtain ⟨r, ops, m, hopen, hh, hm, -, hsound⟩ :=
      reopen hs.inRange hs.fits hs.chained hs.synced_le hx hy
    exact ⟨r, ops, _, hopen, hsound, .inl ⟨hh, m, hm, rfl⟩⟩

/-- The log has moved once the header is synced. -/
lemma Sound.moved (hlive : l'.live = !l.live) (hindex : l'.index = place headerSize s)
    (hend : l'.endOffset = endOf s s.length)
    (hround : l'.durableRound = l'.snapshotRound + s.length) :
    Sound ((d.perform (.issue (!l.live) (.write 0 l'.header.encode))).perform (.sync !l.live))
      l' s s.length where
  live := by
    have hcontent : (d (!l.live)).content =
        replicate headerSize 0 ++ (frames s ++ terminator) := by rw [hsynced]; rfl
    have hwritten : FileOp.apply (replicate headerSize 0 ++ (frames s ++ terminator))
        (.write 0 l'.header.encode) = l'.header.encode ++ (frames s ++ terminator) := by
      rw [FileOp.apply, take_zero, nil_append, Nat.zero_add, Header.length_encode,
        drop_left' length_replicate]
    rw [hlive, perform_sync_same, perform_issue_same]
    exact {
      header := by
        rw [File.durable_sync, File.content_issue, hcontent, hwritten,
          take_left' (Header.length_encode _)]
      synced := ⟨terminator, by
        rw [File.durable_sync, File.content_issue, hcontent, hwritten,
          drop_left' (Header.length_encode _), take_length], by decide⟩
      unsynced := fun op hop => absurd hop not_mem_nil
      content := ⟨terminator, by
        rw [File.content_sync, File.content_issue, hcontent, hwritten], by decide⟩ }
  spare := by
    rw [hlive, Bool.not_not, perform_sync_of_not, perform_issue_of_not, hgen]
    exact hs.live.older hs.inRange
  index := hindex
  endOffset := hend
  synced_le := le_rfl
  durableRound := hround.le
  inRange := hr
  chained := hchain
  fits := hfits

end

/-- The old file is emptied behind the move. -/
lemma Sound.retire : Sound (d.perform (.issue (!l.live) (.setLen 0))) l es k ∧
      Sound ((d.perform (.issue (!l.live) (.setLen 0))).perform (.sync !l.live)) l es k := by
  have hset := hs.issue_spare (clear_setLen 0)
  refine ⟨hset, hset.sync_spare fun r hlen hpre => ?_⟩
  rw [perform_issue_same, File.content_issue] at hpre
  rw [prefix_nil.mp hpre] at hlen
  exact absurd hlen (by decide)

omit hs in
/-- What a move may be interrupted to: the old log, as far as it was there, or the new one. -/
def Moves (l l' : FileLog) (es : List RawEntry) (k : ℕ) (s : List RawEntry) (r : FileLog)
    (es' : List RawEntry) : Prop :=
  (r.header = l.header ∧ ∃ m, k ≤ m ∧ es' = es.take m) ∨ (r.header = l'.header ∧ es' = s)

lemma Sound.switch (hr : Header.InRange ⟨version, l.generation + 1, through, term⟩)
    (hchain : Chained (through + 1) term (es.drop a)) :
    Sound (d.performAll (l.switch d (l.index.drop a) through term version).2)
        (l.switch d (l.index.drop a) through term version).1 (es.drop a) (es.drop a).length ∧
      Always (Recovers (Moves l (l.switch d (l.index.drop a) through term version).1 es k
          (es.drop a))) d
        (l.switch d (l.index.drop a) through term version).2 := by
  obtain ⟨writes, hcopy, hoffs, hfold⟩ :=
    copySurvivors_spec (hs.holds a) headerSize headerSize [] le_rfl
  set s := es.drop a with hsdef
  set l' := (l.switch d (l.index.drop a) through term version).1 with hl'
  have hl'eq : l' = ⟨!l.live, l.generation + 1, version, through, term, place headerSize s,
      headerSize + (frames s).length, through + s.length⟩ := by
    rw [hl', FileLog.switch, hcopy]
    simp
  have hfits : ∀ e ∈ s, e.Fits := fun e he => hs.fits e (mem_of_mem_drop he)
  have hops : (l.switch d (l.index.drop a) through term version).2 =
      ((.setLen 0 :: writes).map (.issue !l.live)) ++
        [.sync !l.live, .issue (!l.live) (.write 0 l'.header.encode), .sync !l.live,
          .issue l.live (.setLen 0), .sync l.live] := by
    rw [FileLog.switch, hcopy]
    rfl
  rw [hops]
  obtain ⟨halways, hfilled, hcontent⟩ := hs.fill_spare (.setLen 0 :: writes) (by
    intro op hop
    rcases mem_cons.mp hop with rfl | hop
    · exact clear_setLen 0
    · obtain ⟨off, bs, hoff, rfl⟩ := hoffs op hop
      exact clear_write (lt_of_lt_of_le (by decide) hoff) bs)
  set d₁ := d.performAll ((.setLen 0 :: writes).map (.issue !l.live)) with hd₁
  have hfull : (d₁ !l.live).content =
      replicate headerSize 0 ++ (frames s ++ terminator) := by
    rw [hcontent, foldl_cons, FileOp.apply, take_zero, hfold [] (by decide)]
    simp
  have hsynced : d₁.perform (.sync !l.live) (!l.live) =
      .stored (replicate headerSize 0 ++ (frames s ++ terminator)) := by
    rw [perform_sync_same, File.sync, hfull]
    rfl
  have hcopied := hfilled.sync_spare fun r hlen hpre => not_checked_zeros hlen (hfull ▸ hpre)
  have hgen : l'.generation = l.generation + 1 := by rw [hl'eq]
  have hr' : l'.header.InRange := by rw [hl'eq]; exact hr
  have hchain' : Chained (l'.snapshotRound + 1) l'.snapshotTerm s := by rw [hl'eq]; exact hchain
  have hmoved := hcopied.moved hgen hr' hfits hchain' hsynced (by rw [hl'eq]) (by rw [hl'eq])
    (by rw [hl'eq]; simp [endOf]) (by rw [hl'eq])
  have hretired := hmoved.retire
  have hspare : (!l'.live) = l.live := by rw [hl'eq]; exact Bool.not_not _
  rw [hspare] at hretired
  have hrecover {d : Disk} (hd : Sound d l es k) : Recovers (Moves l l' es k s) d :=
    hd.recovers.mono fun _ _ => .inl
  have hrecover' {d : Disk} (hd : Sound d l' s s.length) : Recovers (Moves l l' es k s) d := by
    refine hd.recovers.mono ?_
    rintro r es' ⟨hh, m, hm, he⟩
    exact .inr ⟨hh, he.trans (take_of_length_le hm)⟩
  refine ⟨?_, .append (halways.mono fun _ => hrecover) ?_⟩
  · rw [Disk.performAll, foldl_append]
    exact hretired.2
  · exact ⟨hrecover hfilled, hrecover hcopied,
      hcopied.recovers_header hgen hr' hfits hchain' hsynced, hrecover' hmoved,
      hrecover' hretired.1, hrecover' hretired.2⟩

/-! ### Any operation -/

omit hs in
lemma filterMap_range_eq {f : ℕ → Option α} (hf : ∀ n (hn : n < xs.length), f n = some xs[n]) :
    (List.range xs.length).filterMap f = xs := by
  induction xs using reverseRecOn with
  | nil => rfl
  | append_singleton xs x ih =>
    have hlt (n : ℕ) (hn : n < xs.length) : f n = some xs[n] := by
      rw [hf n (by simp; omega), getElem_append_left hn]
    rw [length_append, length_singleton, range_succ, filterMap_append, ih hlt]
    simp [hf]

lemma Sound.entries : l.entries d = es := by
  have hlen : l.index.length = es.length := by rw [hs.index, length_place]
  have hentry (n : ℕ) (hn : n < es.length) :
      l.entry d (l.firstRound + n) = .ok es[n] := by
    have hget : es[n]? = some es[n] := getElem?_eq_getElem hn
    have hround := hs.chained.round_eq hget
    rw [firstRound, ← hround]
    exact hs.entry hget hround
  rw [FileLog.entries, hlen]
  exact filterMap_range_eq fun n hn => by rw [hentry n hn]; rfl

omit hs in
/-- What the log may open to after a crash inside an operation: the old floor and a beginning of
the entries, or the operation complete. Synced entries that the operation keeps are there. -/
structure Interrupted (op : Op) (l l' : FileLog) (es es' : List RawEntry) (k : ℕ) (r : FileLog)
    (er : List RawEntry) : Prop where
  outcome : (r.snapshotRound = l.snapshotRound ∧ r.snapshotTerm = l.snapshotTerm ∧
      er <+: es ++ op.appends) ∨
    (r.snapshotRound = l'.snapshotRound ∧ r.snapshotTerm = l'.snapshotTerm ∧ er = es')
  kept : ∀ e ∈ es.take k, op.keeps e.round → e ∈ er

omit hs in
/-- What an operation does: the log afterwards, and what a crash inside it leaves. -/
structure Runs (op : Op) (d : Disk) (l : FileLog) (es : List RawEntry) (k : ℕ) (l' : FileLog)
    (ops : List StoreOp) (es' : List RawEntry) (k' : ℕ) : Prop where
  sound : Sound (d.performAll ops) l' es' k'
  kept : ∀ e ∈ es.take k, op.keeps e.round → e ∈ es'.take k'
  appended : ∀ e ∈ es', e ∈ es ++ op.appends
  interrupted : Always (Recovers (Interrupted op l l' es es' k)) d ops

omit hs in
lemma mem_take_of_le {x : α} (hij : i ≤ j) (hx : x ∈ xs.take i) : x ∈ xs.take j :=
  (take_prefix_take_left hij).subset hx

omit hs in
/-- Opening to a beginning of the entries, under the old floor, is an outcome of an interrupted
operation if the synced entries it keeps are in every such beginning. -/
lemma Recovers.interrupted {op : Op} {l₀ : FileLog} {es₁ es' : List RawEntry}
    (hd : Recovers (fun r er => r.header = l₀.header ∧ ∃ m, j ≤ m ∧ er = es₁.take m) d)
    (hround : l₀.snapshotRound = l.snapshotRound) (hterm : l₀.snapshotTerm = l.snapshotTerm)
    (hpre : es₁ <+: es ++ op.appends) (hkept : ∀ e ∈ es.take k, op.keeps e.round → e ∈ es₁.take j) :
    Recovers (Interrupted op l l' es es' k) d := by
  refine hd.mono fun r er ⟨hheader, m, hm, her⟩ => ?_
  subst her
  have hr : r.snapshotRound = l₀.snapshotRound := congrArg Header.snapshotRound hheader
  have ht : r.snapshotTerm = l₀.snapshotTerm := congrArg Header.snapshotTerm hheader
  exact ⟨.inl ⟨hr.trans hround, ht.trans hterm, (List.take_prefix _ _).trans hpre⟩,
    fun e he hk => mem_take_of_le hm (hkept e he hk)⟩

/-- Before the first storage operation the log is what it was. -/
lemma Sound.interrupted {op : Op} {es' : List RawEntry} :
    Recovers (Interrupted op l l' es es' k) d :=
  hs.recovers.interrupted rfl rfl (prefix_append _ _) fun _ he _ => he

/-- An operation that leaves the log alone. -/
lemma Sound.runs_noop (op : Op) : Runs op d l es k l [] es k where
  sound := hs
  kept := fun _ he _ => he
  appended := fun _ he => mem_append_left _ he
  interrupted := hs.interrupted

lemma Sound.runs_sync : Runs .sync d l es k l.sync.1 l.sync.2 es es.length where
  sound := hs.sync
  kept := fun _ he _ => mem_take_of_le hs.synced_le he
  appended := fun _ he => mem_append_left _ he
  interrupted :=
    ⟨hs.interrupted,
      hs.sync.recovers.interrupted rfl rfl (prefix_append _ _)
        fun _ he _ => mem_take_of_le hs.synced_le he⟩

/-- The entries of the rounds before the `i`-th are the first `i`. -/
lemma Sound.mem_take (he : e ∈ es) (hround : e.round < l.firstRound + i) : e ∈ es.take i := by
  obtain ⟨n, hn, hget⟩ := mem_iff_getElem.mp he
  have hround' := hs.chained.round_eq (List.getElem?_eq_some_iff.mpr ⟨hn, hget⟩)
  rw [firstRound] at hround
  exact mem_take_iff_getElem.mpr ⟨n, by lia, hget⟩

omit hs in
lemma checkReadable_ok (hok : l.checkReadable round = .ok ()) : l.snapshotRound < round := by
  rw [checkReadable] at hok
  split at hok
  · cases hok
  split at hok
  · cases hok
  · lia

lemma Sound.runs_truncateFrom {start : Round} (hrun : l.truncateFrom start = .ok (l', ops)) :
    ∃ es' k', Runs (.truncateFrom start) d l es k l' ops es' k' := by
  obtain ⟨⟨⟩, hread, hrun⟩ := bind_ok.mp hrun
  have hfloor := checkReadable_ok hread
  rw [hs.index, getElem?_place] at hrun
  cases hget : es[start - l.firstRound]? with
  | none =>
    rw [hget] at hrun
    simp only [map_none] at hrun
    split at hrun
    · cases hrun
      exact ⟨es, k, hs.runs_noop _⟩
    · cases hrun
  | some f =>
    rw [hget] at hrun
    cases hrun
    set i := start - l.firstRound with hi
    have hlt : i < es.length := (List.getElem?_eq_some_iff.mp hget).1
    have hstart : start = l.firstRound + i := by
      simp only [firstRound] at hi ⊢
      lia
    have hcut := hs.cut hlt.le
    have hkept : ∀ x ∈ es.take k, Op.keeps (.truncateFrom start) x.round →
        x ∈ es.take (min k i) := by
      intro x hx hkeep
      have hcut : x ∈ es.take i := by
        refine hs.mem_take (mem_of_mem_take hx) ?_
        rw [← hstart]
        simpa [Op.keeps] using hkeep
      rcases min_choice k i with h | h <;> rwa [h]
    have hmin : min l.durableRound (start - 1) = min l.durableRound (l.snapshotRound + i) := by
      rw [hstart, firstRound]
      lia
    have hkept' : ∀ x ∈ es.take k, Op.keeps (.truncateFrom start) x.round →
        x ∈ (es.take i).take i := by
      intro x hx hkeep
      rw [take_take, min_self]
      exact mem_take_of_le (min_le_right _ _) (hkept x hx hkeep)
    rw [← hs.index, hmin]
    exact ⟨es.take i, i, hcut, hkept', fun e he => mem_append_left _ (mem_of_mem_take he),
      hs.interrupted, (hs.recovers_cut i).interrupted rfl rfl (prefix_append _ _) hkept,
      hcut.recovers.interrupted rfl rfl ((List.take_prefix _ _).trans (prefix_append _ _)) hkept'⟩

/-- Moving the entries from the `a`-th on to the other file. -/
lemma Sound.runs_switch (op : Op) (hr : Header.InRange ⟨version, l.generation + 1, through, term⟩)
    (hchain : Chained (through + 1) term (es.drop a))
    (hkept : ∀ e ∈ es.take k, op.keeps e.round → e ∈ es.drop a) :
    Runs op d l es k (l.switch d (l.index.drop a) through term version).1
      (l.switch d (l.index.drop a) through term version).2 (es.drop a) (es.drop a).length := by
  obtain ⟨hsound, halways⟩ := hs.switch hr hchain
  refine ⟨hsound, ?_, fun e he => mem_append_left _ (mem_of_mem_drop he),
    halways.mono fun d' hd' c hc => ?_⟩
  · rw [take_length]
    exact hkept
  · obtain ⟨r, ops, er, hopen, hr', hmoves⟩ := hd' c hc
    refine ⟨r, ops, er, hopen, hr', ?_⟩
    rcases hmoves with ⟨hheader, m, hm, rfl⟩ | ⟨hheader, rfl⟩
    · exact ⟨.inl ⟨congrArg Header.snapshotRound hheader, congrArg Header.snapshotTerm hheader,
        (List.take_prefix _ _).trans (prefix_append _ _)⟩, fun e he _ => mem_take_of_le hm he⟩
    · exact ⟨.inr ⟨congrArg Header.snapshotRound hheader, congrArg Header.snapshotTerm hheader,
        rfl⟩, hkept⟩

omit hs in
lemma Chained.drop (hc : Chained expect prev es) {n : ℕ}
    (he : es[n]? = some e) : Chained (expect + n + 1) e.term (es.drop (n + 1)) := by
  induction es generalizing expect prev n with
  | nil => cases he
  | cons e' es ih =>
    cases n with
    | zero =>
      obtain rfl : e' = e := by simpa using he
      exact hc.2.2
    | succ n =>
      have := ih hc.2.2 (n := n) (by simpa using he)
      rwa [show expect + 1 + n + 1 = expect + (n + 1) + 1 by lia] at this

lemma Sound.frameOf_ok {f : Frame} (hok : l.frameOf round = .ok f) :
    ∃ e, es[round - l.firstRound]? = some e ∧ f.term = e.term := by
  obtain ⟨⟨⟩, -, hok⟩ := bind_ok.mp hok
  rw [hs.index, getElem?_place] at hok
  cases hget : es[round - l.firstRound]? with
  | none => rw [hget] at hok; cases hok
  | some e =>
    rw [hget] at hok
    cases hok
    exact ⟨e, rfl, rfl⟩

/-- What is discarded up to a round of the log is everything before the next one. -/
lemma Sound.chained_survivors (hfloor : l.snapshotRound < through)
    (hterm : through ≤ l.lastRound → ∃ f, l.frameOf through = .ok f ∧ f.term = term) :
    Chained (through + 1) term (es.drop (through - l.snapshotRound)) := by
  rcases Nat.lt_or_ge l.lastRound through with hpast | hin
  · rw [hs.lastRound] at hpast
    rw [drop_eq_nil_of_le (by lia)]
    trivial
  · obtain ⟨f, hf, rfl⟩ := hterm hin
    obtain ⟨e, he, hft⟩ := hs.frameOf_ok hf
    have hdrop := hs.chained.drop he
    rw [firstRound] at hdrop
    rw [hft]
    rwa [show l.snapshotRound + 1 + (through - (l.snapshotRound + 1)) + 1 = through + 1 by lia,
      show through - (l.snapshotRound + 1) + 1 = through - l.snapshotRound by lia] at hdrop

lemma Sound.mem_survivors (he : e ∈ es)
    (hround : through < e.round) : e ∈ es.drop (through - l.snapshotRound) := by
  obtain ⟨n, hn, hget⟩ := mem_iff_getElem.mp he
  have hround' := hs.chained.round_eq (List.getElem?_eq_some_iff.mpr ⟨hn, hget⟩)
  have hle : through - l.snapshotRound ≤ n := by lia
  refine mem_iff_getElem.mpr ⟨n - (through - l.snapshotRound), ?_, ?_⟩
  · rw [length_drop]
    lia
  · rw [getElem_drop, ← hget]
    congr 1
    lia

lemma Sound.survivors_eq (hfloor : l.snapshotRound < through) :
    (if through < l.lastRound then l.index.drop (through + 1 - l.firstRound) else []) =
      l.index.drop (through - l.snapshotRound) := by
  split
  · congr 1
    simp only [firstRound]
    lia
  · rename_i hpast
    have hlen : l.index.length = es.length := by rw [hs.index, length_place]
    rw [hs.lastRound] at hpast
    rw [drop_eq_nil_of_le (by lia)]

lemma Sound.runs_discardPrefix
    (hthrough : through < 2 ^ 64) (hterm : term < 2 ^ 64) (hgen : l.generation + 1 < 2 ^ 64)
    (hrun : l.discardPrefix d through term = .ok (l', ops)) :
    ∃ es' k', Runs (.discardPrefix through term) d l es k l' ops es' k' := by
  rw [discardPrefix] at hrun
  by_cases hlt : through < l.snapshotRound
  · rw [if_pos hlt] at hrun
    cases hrun
    exact ⟨es, k, hs.runs_noop _⟩
  rw [if_neg hlt] at hrun
  by_cases heq : through = l.snapshotRound
  · rw [if_pos heq] at hrun
    split at hrun
    · cases hrun
    · cases hrun
      exact ⟨es, k, hs.runs_noop _⟩
  rw [if_neg heq] at hrun
  have hfloor : l.snapshotRound < through := lt_of_le_of_ne (Nat.not_lt.mp hlt) (Ne.symm heq)
  -- the term the caller names is the term held at that round, if the round is held
  have hheld : (through ≤ l.lastRound → ∃ f, l.frameOf through = .ok f ∧ f.term = term) ∧
      l.switch d (l.index.drop (through - l.snapshotRound)) through term l.version =
        (l', ops) := by
    rw [hs.survivors_eq hfloor] at hrun
    split at hrun
    · obtain ⟨f, hf, hrun⟩ := bind_ok.mp hrun
      split at hrun
      · cases hrun
      · rename_i hft
        exact ⟨fun _ => ⟨f, hf, not_not.mp hft⟩, ok.inj hrun⟩
    · rename_i hpast
      exact ⟨fun hle => absurd hle hpast, ok.inj hrun⟩
  obtain ⟨hheld, hswitch⟩ := hheld
  have hr : Header.InRange ⟨l.version, l.generation + 1, through, term⟩ :=
    ⟨hs.inRange.version, hgen, hthrough, hterm⟩
  have hruns := hs.runs_switch (.discardPrefix through term) hr (hs.chained_survivors hfloor hheld)
    fun e he hkeep => hs.mem_survivors (mem_of_mem_take he) (by simpa [Op.keeps] using hkeep)
  rw [hswitch] at hruns
  exact ⟨_, _, hruns⟩

lemma Sound.runs_raiseVersion (op : Op) (hgen : l.generation + 1 < 2 ^ 64) :
    Runs op d l es k (l.raiseVersion d).1 (l.raiseVersion d).2 es es.length :=
  hs.runs_switch op (a := 0) ⟨.inr rfl, hgen, hs.inRange.snapshotRound, hs.inRange.snapshotTerm⟩
    hs.chained fun _ he _ => mem_of_mem_take he

/-- An append to a log in which nothing has to be moved. -/
lemma Sound.runs_write
    (hchain : Chained (l.lastRound + 1) l.lastTerm new) (hfits : ∀ e ∈ new, e.Fits) :
    Runs (.append new) d l es k
      { l with
        index := l.index ++ place l.endOffset new
        endOffset := l.endOffset + (frames new).length }
      [.issue l.live (.write l.endOffset (frames new ++ terminator))] (es ++ new) k := by
  have hwritten := hs.write hchain hfits
  have hkept : ∀ e ∈ es.take k, e ∈ (es ++ new).take k := by
    rw [take_append_of_le_length hs.synced_le]
    exact fun _ => id
  exact ⟨hwritten, fun e he _ => hkept e he, fun _ => id,
    hs.interrupted,
    hwritten.recovers.interrupted rfl rfl prefix_rfl fun e he _ => hkept e he⟩

lemma Sound.runs_append
    (htyped : ∀ e ∈ new, e.Typed) (hgen : l.generation + 1 < 2 ^ 64)
    (hrun : l.append d new = .ok (l', ops)) :
    ∃ es' k', Runs (.append new) d l es k l' ops es' k' := by
  rw [append] at hrun
  by_cases hnil : new = []
  · rw [if_pos hnil] at hrun
    cases hrun
    exact ⟨es, k, hs.runs_noop _⟩
  rw [if_neg hnil] at hrun
  obtain ⟨fs, hfs, hrun⟩ := bind_ok.mp hrun
  obtain ⟨rfl, hchain, hfits⟩ := encodeBatch_ok htyped hfs
  by_cases hraise : l.version = legacyVersion ∧
      (new.map RawEntry.frame).any (legacyReadBound < ·.length)
  · -- the frames move to the other file first, and the batch goes behind them there
    rw [if_pos hraise] at hrun
    have hmove := hs.runs_raiseVersion (.append new) hgen
    have hround : (l.raiseVersion d).1.snapshotRound = l.snapshotRound := rfl
    have hterm : (l.raiseVersion d).1.snapshotTerm = l.snapshotTerm := rfl
    generalize l.raiseVersion d = moved at hrun hmove hround hterm
    obtain ⟨l₁, ops₁⟩ := moved
    cases hrun
    have hchain₁ : Chained (l₁.lastRound + 1) l₁.lastTerm new := by
      rwa [hmove.sound.lastRound, hmove.sound.lastTerm, hround, hterm, ← hs.lastRound,
        ← hs.lastTerm]
    have hwrite := hmove.sound.runs_write hchain₁ hfits
    have hkept : ∀ e ∈ es.take k, e ∈ es.take es.length := fun e he =>
      mem_take_of_le hs.synced_le he
    refine ⟨es ++ new, es.length, ?_, fun e he hkeep => hwrite.kept e (hkept e he) rfl,
      fun _ => id, .append (hmove.interrupted.mono fun d' hd' => ?_)
        (hwrite.interrupted.mono fun d' hd' => ?_)⟩
    · rw [Disk.performAll, foldl_append]
      exact hwrite.sound
    · refine hd'.mono fun r er hint => ⟨?_, hint.kept⟩
      rcases hint.outcome with hold | ⟨hr, ht, rfl⟩
      · exact .inl hold
      · exact .inl ⟨hr.trans hround, ht.trans hterm, prefix_append _ _⟩
    · refine hd'.mono fun r er hint => ⟨?_, fun e he hkeep => hint.kept e (hkept e he) hkeep⟩
      rcases hint.outcome with ⟨hr, ht, hpre⟩ | hnew
      · exact .inl ⟨hr.trans hround, ht.trans hterm, hpre⟩
      · exact .inr hnew
  · rw [if_neg hraise] at hrun
    cases hrun
    exact ⟨es ++ new, k, hs.runs_write hchain hfits⟩

lemma Sound.runs {op : Op} (htyped : op.Typed) (hgen : l.generation + 1 < 2 ^ 64)
    (hrun : l.run d op = .ok (l', ops)) : ∃ es' k', Runs op d l es k l' ops es' k' := by
  cases op with
  | append new => exact hs.runs_append htyped hgen hrun
  | sync => cases hrun; exact ⟨_, _, hs.runs_sync⟩
  | truncateFrom start => exact hs.runs_truncateFrom hrun
  | discardPrefix through term => exact hs.runs_discardPrefix htyped.1 htyped.2 hgen hrun
  | raiseVersion => cases hrun; exact ⟨_, _, hs.runs_raiseVersion _ hgen⟩

end

end Steps

/-! ## Every history of the log -/

/-- The entries that a completed sync covers, after one more operation. -/
def Op.covered (op : Op) (d : Disk) (l : FileLog) (synced : List RawEntry) : List RawEntry :=
  match op with
  | .sync => l.entries d
  | op => synced.filter fun e => op.keeps e.round

/-- The states of a log that was created empty: after operations that completed, and after
operations cut short by a crash, from which the log was opened again. `hist` is everything that
was ever appended and `synced` what a completed sync covers and nothing removed since. -/
inductive Reaches : List RawEntry → List RawEntry → Disk → FileLog → Prop
  | create {l : FileLog} {ops : List StoreOp} (hopen : withStorage (fun _ => []) = .ok (l, ops)) :
    Reaches [] [] ((Disk.stored fun _ => []).performAll ops) l
  | run {hist synced : List RawEntry} {d : Disk} {l l' : FileLog} {op : Op} {ops : List StoreOp}
    (hreach : Reaches hist synced d l) (htyped : op.Typed) (hgen : l.generation + 1 < 2 ^ 64)
    (hrun : l.run d op = .ok (l', ops)) :
    Reaches (hist ++ op.appends) (op.covered d l synced) (d.performAll ops) l'
  | crash {hist synced : List RawEntry} {d : Disk} {l l' r : FileLog} {op : Op}
    {ops ops' : List StoreOp} {c : Bool → List UInt8} (i : ℕ) (hreach : Reaches hist synced d l)
    (htyped : op.Typed) (hgen : l.generation + 1 < 2 ^ 64) (hrun : l.run d op = .ok (l', ops))
    (hcrash : ∀ file, (d.performAll (ops.take i) file).Crash Checks (c file))
    (hopen : withStorage c = .ok (r, ops')) :
    Reaches (hist ++ op.appends) (synced.filter fun e => op.keeps e.round)
      ((Disk.stored c).performAll ops') r

/-- The handle is right about the disk, and about what is synced. -/
def Held (hist synced : List RawEntry) (d : Disk) (l : FileLog) : Prop :=
  ∃ es k, Sound d l es k ∧ (∀ e ∈ synced, e ∈ es.take k) ∧ ∀ e ∈ es, e ∈ hist

lemma openLive_nil (live : Bool) (h : Header) :
    openLive live h [] = (⟨live, h.generation, h.version, h.snapshotRound, h.snapshotTerm, [],
      headerSize, h.snapshotRound⟩, []) := rfl

lemma withStorage_nil :
    withStorage (fun _ => []) = .ok (⟨false, 1, legacyVersion, 0, 0, [], headerSize, 0⟩,
      [.issue false (.write 0 (Header.encode ⟨legacyVersion, 1, 0, 0⟩)), .sync false]) := by
  have hread : readHeader [] = .ok none := rfl
  have hempty : ¬ (headerSize < ([] : List UInt8).length ∨ headerSize < ([] : List UInt8).length) := by
    decide
  simp only [withStorage, hread, bind, bind, hempty, ↓reduceIte, openLive_nil]
  rfl

/-- A first file that holds the header of an empty log, beside an empty one. -/
lemma sound_empty (hr : h.InRange) :
    Sound ((Disk.stored fun _ => []).performAll [.issue false (.write 0 h.encode), .sync false])
      ⟨false, h.generation, h.version, h.snapshotRound, h.snapshotTerm, [], headerSize,
        h.snapshotRound⟩ [] 0 where
  live := by
    have hlive : (Disk.stored fun _ => []).performAll
        [.issue false (.write 0 h.encode), .sync false] false =
          .stored (h.encode ++ frames []) := by
      simp [Disk.performAll, Disk.stored, File.sync, File.stored, File.content, FileOp.apply]
    rw [hlive]
    exact .stored h []
  spare := by
    have hspare : (Disk.stored fun _ => []).performAll
        [.issue false (.write 0 h.encode), .sync false] true = .stored [] := by
      simp [Disk.performAll, Disk.perform, Disk.stored]
    intro r hlen _ hstands
    rw [Bool.not_false, hspare] at hstands
    rcases hstands with hpre | ⟨op, hop, -⟩
    · rw [prefix_nil.mp hpre] at hlen
      exact absurd hlen (by decide)
    · cases hop
  index := rfl
  endOffset := rfl
  synced_le := le_rfl
  durableRound := le_rfl
  inRange := hr
  chained := trivial
  fits := nofun

lemma held_create (hopen : withStorage (fun _ => []) = .ok (l, ops)) :
    Held [] [] ((Disk.stored fun _ => []).performAll ops) l := by
  obtain ⟨rfl, rfl⟩ := Prod.mk.inj (ok.inj (withStorage_nil.symm.trans hopen))
  exact ⟨[], 0, sound_empty (h := ⟨legacyVersion, 1, 0, 0⟩)
    ⟨.inl rfl, by norm_num, by norm_num, by norm_num⟩, nofun, nofun⟩

section Reached

variable {hist synced : List RawEntry} {d : Disk} {l l' : FileLog} {op : Op} {ops : List StoreOp}

lemma Held.run (hheld : Held hist synced d l) (htyped : op.Typed)
    (hgen : l.generation + 1 < 2 ^ 64) (hrun : l.run d op = .ok (l', ops)) :
    Held (hist ++ op.appends) (op.covered d l synced) (d.performAll ops) l' := by
  obtain ⟨es, k, hs, hsynced, hhist⟩ := hheld
  by_cases hsync : op = .sync
  · subst hsync
    cases hrun
    refine ⟨es, es.length, hs.sync, ?_, fun e he => mem_append_left _ (hhist e he)⟩
    rw [Op.covered, hs.entries, take_length]
    exact fun _ => id
  · obtain ⟨es', k', hruns⟩ := hs.runs htyped hgen hrun
    refine ⟨es', k', hruns.sound, fun e he => ?_, fun e he => ?_⟩
    · have hcovered : op.covered d l synced = synced.filter fun e => op.keeps e.round := by
        cases op <;> first | rfl | exact absurd rfl hsync
      rw [hcovered, mem_filter] at he
      exact hruns.kept e (hsynced e he.1) he.2
    · exact mem_append.mpr ((mem_append.mp (hruns.appended e he)).imp_left (hhist e))

lemma Held.crash (hheld : Held hist synced d l) (htyped : op.Typed)
    (hgen : l.generation + 1 < 2 ^ 64) (hrun : l.run d op = .ok (l', ops)) (i : ℕ)
    {c : Bool → List UInt8} {r : FileLog}
    (hcrash : ∀ file, (d.performAll (ops.take i) file).Crash Checks (c file))
    (hopen : withStorage c = .ok (r, ops')) :
    Held (hist ++ op.appends) (synced.filter fun e => op.keeps e.round)
      ((Disk.stored c).performAll ops') r := by
  obtain ⟨es, k, hs, hsynced, hhist⟩ := hheld
  obtain ⟨es', k', hruns⟩ := hs.runs htyped hgen hrun
  obtain ⟨r₁, ops₁, er, hopen₁, hsound, hint⟩ := hruns.interrupted.take i c hcrash
  obtain ⟨rfl, rfl⟩ := Prod.mk.inj (ok.inj (hopen₁.symm.trans hopen))
  refine ⟨er, er.length, hsound, fun e he => ?_, fun e he => ?_⟩
  · rw [mem_filter] at he
    rw [take_length]
    exact hint.kept e (hsynced e he.1) he.2
  · have hmem : e ∈ es ++ op.appends := by
      rcases hint.outcome with ⟨-, -, hpre⟩ | ⟨-, -, rfl⟩
      · exact hpre.subset he
      · exact hruns.appended e he
    exact mem_append.mpr ((mem_append.mp hmem).imp_left (hhist e))

lemma Reaches.held (hreach : Reaches hist synced d l) : Held hist synced d l := by
  induction hreach with
  | create hopen => exact held_create hopen
  | run _ htyped hgen hrun ih => exact ih.run htyped hgen hrun
  | crash i _ htyped hgen hrun hcrash hopen ih => exact ih.crash htyped hgen hrun i hcrash hopen

/-- What a log opened after a crash inside an operation holds: `l` is the log before the
operation, `l'` the one after it and `r` the one that was opened. -/
structure Reopened (op : Op) (hist synced : List RawEntry) (d : Disk) (l : FileLog) (d' : Disk)
    (l' : FileLog) (dr : Disk) (r : FileLog) : Prop where
  contiguous : (r.entries dr).map RawEntry.round = range' r.firstRound r.index.length
  outcome : (r.snapshotRound = l.snapshotRound ∧ r.snapshotTerm = l.snapshotTerm ∧
      r.entries dr <+: l.entries d ++ op.appends) ∨
    (r.snapshotRound = l'.snapshotRound ∧ r.snapshotTerm = l'.snapshotTerm ∧
      r.entries dr = l'.entries d')
  synced : ∀ e ∈ synced, op.keeps e.round → e ∈ r.entries dr
  durable : ∀ e ∈ l.entries d, e.round ≤ l.durableRound → op.keeps e.round → e ∈ r.entries dr
  appended : ∀ e ∈ r.entries dr, e ∈ hist ++ op.appends

lemma Sound.rounds (hs : Sound d l es k) :
    (l.entries d).map RawEntry.round = range' l.firstRound l.index.length := by
  rw [hs.entries, hs.index]
  refine ext_getElem (by simp) fun n h₁ h₂ => ?_
  rw [getElem_map, getElem_range', Nat.one_mul]
  exact hs.chained.round_eq (getElem?_eq_getElem _)

/-- After a crash at any storage operation of any operation of the log, the log opens again: it
is contiguous, its floor is the one before or after the operation, it has every synced entry that
was not removed, and it has nothing that was not appended. -/
theorem reopens_after_crash (hreach : Reaches hist synced d l) (htyped : op.Typed)
    (hgen : l.generation + 1 < 2 ^ 64) (hrun : l.run d op = .ok (l', ops)) (i : ℕ)
    {c : Bool → List UInt8}
    (hcrash : ∀ file, (d.performAll (ops.take i) file).Crash Checks (c file)) :
    ∃ r ops', withStorage c = .ok (r, ops') ∧
      Reopened op hist synced d l (d.performAll ops) l' ((Disk.stored c).performAll ops') r := by
  obtain ⟨es, k, hs, hsynced, hhist⟩ := hreach.held
  obtain ⟨es', k', hruns⟩ := hs.runs htyped hgen hrun
  obtain ⟨r, ops', er, hopen, hsound, hint⟩ := hruns.interrupted.take i c hcrash
  obtain ⟨es₁, k₁, hs₁, -, hhist₁⟩ := hreach.held.crash htyped hgen hrun i hcrash hopen
  refine ⟨r, ops', hopen, hsound.rounds, ?_, ?_, ?_, ?_⟩
  · rw [hsound.entries, hs.entries, hruns.sound.entries]
    exact hint.outcome
  · rw [hsound.entries]
    exact fun e he hkeep => hint.kept e (hsynced e he) hkeep
  · rw [hsound.entries, hs.entries]
    refine fun e he hround hkeep => hint.kept e (hs.mem_take he ?_) hkeep
    have := hs.durableRound
    rw [firstRound]
    lia
  · rw [hs₁.entries]
    exact hhist₁

end Reached

/-- An append of one entry that fits is one write. -/
lemma run_append_singleton (hround : e.round = l.lastRound + 1)
    (hterm : l.lastTerm ≤ e.term) (hsmall : e.total ≤ legacyReadBound) : l.run d (.append [e]) = .ok
      ({ l with
          index := l.index ++ place l.endOffset [e]
          endOffset := l.endOffset + (frames [e]).length },
        [.issue l.live (.write l.endOffset (frames [e] ++ terminator))]) := by
  have hfit : ¬ maxEntryBytes < e.total := Nat.not_lt.mpr (hsmall.trans (by decide))
  have henc : encodeBatch (l.lastRound + 1) l.lastTerm [e] = .ok [e.frame] := by
    rw [encodeBatch, if_neg (not_not.mpr hround), if_neg (Nat.not_lt.mpr hterm), encodeFrame,
      if_neg hfit]
    rfl
  have hraise : ¬ (l.version = legacyVersion ∧ [e.frame].any (legacyReadBound < ·.length)) := by
    simp [hsmall]
  rw [run, append, henc]
  simp only [bind, Except.bind]
  rw [if_neg hraise]
  rfl

/-- An entry that is appended and synced. -/
lemma Reaches.append_sync {hist synced : List RawEntry}
    (hreach : Reaches hist synced d l) (hs : Sound d l es k) (hgen : l.generation + 1 < 2 ^ 64)
    (htyped : e.Typed) (hround : e.round = l.lastRound + 1)
    (hterm : l.lastTerm ≤ e.term) (hsmall : e.total ≤ legacyReadBound) :
    ∃ d' l', Reaches (hist ++ [e]) (es ++ [e]) d' l' ∧
      Sound d' l' (es ++ [e]) (es ++ [e]).length ∧ l'.generation = l.generation ∧
      l'.snapshotRound = l.snapshotRound := by
  have hfits : ∀ x ∈ [e], x.Fits := by
    simp only [mem_singleton, forall_eq]
    exact ⟨htyped, hsmall.trans (by decide)⟩
  have hchain : Chained (l.lastRound + 1) l.lastTerm [e] := ⟨hround, hterm, trivial⟩
  have hwritten := hs.write hchain hfits
  have hop : Op.Typed (.append [e]) := by simpa [Op.Typed] using htyped
  have happended := hreach.run hop hgen (run_append_singleton hround hterm hsmall)
  have hsynced := happended.run (show Op.Typed .sync from trivial) hgen rfl
  have hentries := hwritten.entries
  simp only [Op.covered, Disk.performAll, foldl_cons, foldl_nil, hentries, Op.appends,
    append_nil] at hsynced
  exact ⟨_, _, hsynced, hwritten.sync, rfl, rfl⟩

theorem reopens_after_crash_append :
    ∃ (d : Disk) (l l' : FileLog) (ops : List StoreOp), Reaches [⟨1, 1, [8]⟩] [⟨1, 1, [8]⟩] d l ∧
      l.run d (.append [⟨1, 2, [8]⟩]) = .ok (l', ops) ∧
      ∃ r ops', withStorage (fun file => (d.performAll (ops.take 1) file).durable) =
          .ok (r, ops') ∧
        Reopened (.append [⟨1, 2, [8]⟩]) [⟨1, 1, [8]⟩] [⟨1, 1, [8]⟩] d l (d.performAll ops) l'
          ((Disk.stored fun file => (d.performAll (ops.take 1) file).durable).performAll ops') r := by
  have htyped (n : ℕ) (hn : n < 2 ^ 64) : RawEntry.Typed ⟨1, n, [8]⟩ :=
    ⟨cons_ne_nil _ _, by norm_num, hn⟩
  obtain ⟨d, l, hreach, hs, hgen, hfloor⟩ := (Reaches.create withStorage_nil).append_sync
    (sound_empty (h := ⟨legacyVersion, 1, 0, 0⟩) ⟨.inl rfl, by norm_num, by norm_num, by norm_num⟩)
    (by norm_num) (htyped 1 (by norm_num)) rfl (Nat.zero_le _) (by decide)
  have hlast : l.lastRound = 1 := by rw [hs.lastRound, hfloor]; rfl
  have hterm : l.lastTerm = 1 := by rw [hs.lastTerm]; rfl
  have hrun := run_append_singleton (d := d) (l := l) (e := ⟨1, 2, [8]⟩) (by rw [hlast]) hterm.le
    (by decide)
  exact ⟨d, l, _, _, hreach, hrun, reopens_after_crash hreach
    (by simpa [Op.Typed] using htyped 2 (by norm_num)) (by rw [hgen]; norm_num) hrun 1
    fun _ => crash_durable _⟩

end FerroDb.Cluster.FileLog
