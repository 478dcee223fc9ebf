import FerroDb.Cluster.LogFile

/-!
# Opening the round log after a crash

What was written reads back, so a scan of a file finds the frames that stand whole. Appends write
frames only where the entries before them end, and there no other record ever stood; so whatever
a crash leaves of a live file, a scan finds a beginning of its entries, and at least the synced
ones (`scanLoop_own`, `LiveBytes.of_crash`). The spare file never carries a header of the live
generation or a later one (`Older`), so the live file is the one taken up again (`reopen`).
-/

namespace FerroDb.Cluster.FileLog

open List Option

open Library (File FileOp)

variable {c : List UInt8} {live : Bool} {es : List RawEntry} {e : RawEntry} {r : List UInt8}
  {expect : Round} {prev : Term} {p pos fuel a m g : ℕ}

open PayloadHeader (slice u32At u64At slice_append u32At_append u64At_append)

/-! ## Reading back what was written -/

namespace Header

/-- The numbers fit their fields, and the version is one this build reads. -/
structure InRange (h : Header) : Prop where
  version : h.version = legacyVersion ∨ h.version = version2
  generation : h.generation < 2 ^ 64
  snapshotRound : h.snapshotRound < 2 ^ 64
  snapshotTerm : h.snapshotTerm < 2 ^ 64

@[simp] lemma length_body (h : Header) : h.body.length = 32 := by simp [body]

@[simp] lemma length_encode (h : Header) : h.encode.length = headerSize := by
  simp [encode, headerSize]

lemma checked_encode (h : Header) : Checked h.encode := by
  refine ⟨?_, ?_⟩
  · have hat : u32At h.encode 32 = (crc32 h.body).toNat := by
      have := u32At_append (b := []) h.length_body (UInt32.toNat_lt (crc32 h.body))
      rwa [append_nil] at this
    rw [hat, encode, take_left' h.length_body]
  · exact u32At_append (a := []) rfl (by decide)

lemma decode_encode {h : Header} (hr : h.InRange) : decode h.encode = .ok (some h) := by
  have hv : u32At h.encode 4 = h.version := by
    simp only [encode, body, append_assoc]
    refine u32At_append (by simp) ?_
    rcases hr.version with hv | hv <;> rw [hv] <;> decide
  have hg : u64At h.encode 8 = h.generation := by
    simp only [encode, body, append_assoc]
    rw [← append_assoc (beBytes 4 magic)]
    exact u64At_append (by simp) hr.generation
  have hs : u64At h.encode 16 = h.snapshotRound := by
    simp only [encode, body, append_assoc]
    rw [← append_assoc (beBytes 4 magic), ← append_assoc (beBytes 4 magic ++ _)]
    exact u64At_append (by simp) hr.snapshotRound
  have ht : u64At h.encode 24 = h.snapshotTerm := by
    simp only [encode, body, append_assoc]
    rw [← append_assoc (beBytes 4 magic), ← append_assoc (beBytes 4 magic ++ _),
      ← append_assoc (beBytes 4 magic ++ _ ++ _)]
    exact u64At_append (by simp) hr.snapshotTerm
  have hver : ¬ (h.version ≠ version2 ∧ h.version ≠ legacyVersion) := by
    rcases hr.version with hv | hv <;> simp [hv]
  simp only [decode, h.checked_encode, hv, hg, hs, ht, hver]
  rfl

lemma decode_of_not_checked {bytes : List UInt8} (h : ¬ Checked bytes) :
    decode bytes = .ok none := by
  simp only [decode, h]
  rfl

end Header

namespace RawEntry

/-- An entry that an append accepts. -/
structure Fits (e : RawEntry) : Prop where
  typed : e.Typed
  total_le : e.total ≤ maxEntryBytes

lemma length_body (e : RawEntry) : e.body.length = e.total - 4 := by
  simp [body, total]; omega

@[simp] lemma length_frame (e : RawEntry) : e.frame.length = e.total := by
  simp [frame, length_body, total]

variable {e : RawEntry}

lemma Fits.minFrame_le (h : e.Fits) : minFrame ≤ e.total := by
  have := length_pos_of_ne_nil h.typed.1
  simp only [minFrame, total]
  omega

lemma Fits.total_lt (h : e.Fits) : e.total < 2 ^ 32 :=
  h.total_le.trans_lt (by decide)

lemma Fits.u32At_frame (h : e.Fits) (c : List UInt8) : u32At (e.frame ++ c) 0 = e.total := by
  exact u32At_append (a := []) rfl h.total_lt

lemma Fits.term_frame (h : e.Fits) : u64At e.frame 4 = e.term := by
  simp only [frame, body, append_assoc]
  exact u64At_append (by simp) h.typed.2.1

lemma Fits.round_frame (h : e.Fits) : u64At e.frame 12 = e.round := by
  simp only [frame, body, append_assoc]
  rw [← append_assoc (beBytes 4 _)]
  exact u64At_append (by simp) h.typed.2.2

lemma take_frame (e : RawEntry) : e.frame.take (e.total - 4) = e.body :=
  take_left' e.length_body

lemma crc_frame (e : RawEntry) :
    ofBeBytes (e.frame.drop (e.total - 4)) = (crc32 e.body).toNat := by
  rw [frame, drop_left' e.length_body,
    ofBeBytes_beBytes (by simpa using UInt32.toNat_lt (crc32 e.body))]

lemma payload_frame (e : RawEntry) : slice e.frame 20 (e.total - 4) = e.payload := by
  have hlen : (beBytes 4 e.total ++ beBytes 8 e.term ++ beBytes 8 e.round).length = 20 := by simp
  rw [frame, body, append_assoc, slice_append hlen,
    take_left' (by simp only [total]; omega)]

/-- A frame that was written reads back as the entry. -/
lemma Fits.decodeFrame (h : e.Fits) : decodeFrame e.frame e.round e.term = .ok e := by
  have htotal : u32At e.frame 0 = e.total := by simpa using h.u32At_frame []
  have hmin : ¬ e.total < minFrame := Nat.not_lt.mpr h.minFrame_le
  simp only [FileLog.decodeFrame, length_frame, hmin, htotal, take_frame, crc_frame, h.term_frame,
    h.round_frame, payload_frame, ne_eq]
  rfl

end RawEntry

/-! ## Scanning what a crash left -/

lemma frameAt_eq_some (h : frameAt c p = some r) :
    minFrame ≤ r.length ∧ u32At r 0 = r.length ∧ r <+: c.drop p := by
  simp only [frameAt] at h
  split at h
  · cases h
  split at h
  · cases h
  rename_i hlen
  split at h
  swap
  · cases h
  obtain rfl := some.inj h
  push Not at hlen
  have hl : (slice c p (p + u32At c p)).length = u32At c p := by simp [slice]; omega
  have h4 : 4 ≤ u32At c p := le_trans (by decide) hlen.1
  refine ⟨by rw [hl]; exact hlen.1, ?_, ?_⟩
  · rw [hl]
    simp only [u32At, slice, drop_zero]
    rw [take_take]
    congr 2
    simp only [u32At, slice] at h4
    omega
  · exact take_prefix _ _

lemma frameAt_of_mono (he : e.Fits) (h : e.frame <+: c.drop p) : frameAt c p = some e.frame := by
  obtain ⟨rest, hrest⟩ := h
  have hlen : e.total + rest.length = c.length - p := by
    simpa using congrArg length hrest
  have hpos := he.minFrame_le
  have hmin : 25 ≤ e.total := he.minFrame_le
  have htotal : u32At c p = e.total := by
    rw [← he.u32At_frame rest, hrest]
    simp [u32At, slice]
  have hslice : slice c p (p + e.total) = e.frame := by
    rw [slice, Nat.add_sub_cancel_left, ← hrest, take_left' e.length_frame]
  have hmax : e.total ≤ maxFrame := he.total_le.trans (by decide)
  have hbounds : ¬ (e.total < minFrame ∨ maxFrame < e.total ∨ c.length < p + e.total) := by
    omega
  have hshort : ¬ c.length < p + 4 := by omega
  simp [frameAt, hshort, htotal, hbounds, hslice, RawEntry.take_frame, RawEntry.crc_frame]

/-- A record is found where a frame stands only if it is that frame. -/
lemma eq_frame_of_prefix (he : e.Fits)
    (hmin : minFrame ≤ r.length) (hr : u32At r 0 = r.length) (h : r <+: e.frame ++ c) :
    r = e.frame := by
  obtain ⟨rest, hrest⟩ := h
  have hlen : r.length = e.total := by
    rw [← hr, ← he.u32At_frame c, ← hrest]
    have : 4 ≤ r.length := le_trans (by decide) hmin
    simp [u32At, slice, take_append_of_le_length this]
  exact (append_inj hrest (by simpa using hlen)).1

/-- The bytes of the entries, one frame behind the other. -/
def frames (es : List RawEntry) : List UInt8 := es.flatMap RawEntry.frame

@[simp] lemma frames_nil : frames [] = [] := rfl

@[simp] lemma frames_cons (e : RawEntry) (es : List RawEntry) :
    frames (e :: es) = e.frame ++ frames es := rfl

@[simp] lemma frames_append (es es' : List RawEntry) :
    frames (es ++ es') = frames es ++ frames es' := flatMap_append

lemma frames_eq_take_append (es : List RawEntry) (m : ℕ) :
    frames es = frames (es.take m) ++ frames (es.drop m) := by
  rw [← frames_append, take_append_drop]

/-- Where the first `m` entries end. -/
def endOf (es : List RawEntry) (m : ℕ) : ℕ := headerSize + (frames (es.take m)).length

lemma headerSize_le_endOf (es : List RawEntry) (m : ℕ) : headerSize ≤ endOf es m :=
  Nat.le_add_right _ _

/-- The entries continue a log whose next round is `expect` and whose last term is `prev`. -/
def Chained : Round → Term → List RawEntry → Prop
  | _, _, [] => True
  | expect, prev, e :: es => e.round = expect ∧ prev ≤ e.term ∧ Chained (expect + 1) e.term es

/-- Where an entry ends, only the frame of the next one passes its check. -/
def Own (c : List UInt8) (pos : ℕ) (es : List RawEntry) : Prop :=
  ∀ m ≤ es.length, ∀ r, frameAt c (pos + (frames (es.take m)).length) = some r →
    es[m]?.map RawEntry.frame = some r

lemma Own.tail (h : Own c pos (e :: es)) : Own c (pos + e.frame.length) es := by
  intro m hm r hr
  refine h (m + 1) (by simpa using hm) r ?_
  rwa [take_succ_cons, frames_cons, length_append, ← Nat.add_assoc]

lemma scanLoop_of_none (h : frameAt c pos = none)
    (expect : Round) (prev : Term) : scanLoop c fuel pos expect prev = ([], pos) := by
  cases fuel with
  | zero => rfl
  | succ fuel => rw [scanLoop, h]

/-- A scan finds the entries that stand whole, and of the others some more in order. -/
lemma scanLoop_own (hfits : ∀ e ∈ es, e.Fits) {j : ℕ} (hfuel : c.length ≤ pos + fuel)
    (hchain : Chained expect prev es) (hown : Own c pos es) (hj : j ≤ es.length)
    (hkept : frames (es.take j) <+: c.drop pos) : ∃ m, j ≤ m ∧ m ≤ es.length ∧
      scanLoop c fuel pos expect prev =
        (place pos (es.take m), pos + (frames (es.take m)).length) ∧
      frames (es.take m) <+: c.drop pos := by
  induction es generalizing fuel pos j expect prev with
  | nil =>
    have hnone : frameAt c pos = none := by
      cases h : frameAt c pos with
      | none => rfl
      | some r => simpa using hown 0 le_rfl r (by simpa using h)
    exact ⟨0, by simpa using hj, le_rfl, by simp [scanLoop_of_none hnone, place], by simp⟩
  | cons e es ih =>
    have he : e.Fits := hfits e (by simp)
    obtain ⟨hround, hterm, hrest⟩ := hchain
    cases h : frameAt c pos with
    | none =>
      have hj0 : j = 0 := by
        rcases Nat.eq_zero_or_pos j with h0 | h0
        · exact h0
        obtain ⟨j, rfl⟩ := Nat.exists_eq_succ_of_ne_zero h0.ne'
        rw [frameAt_of_mono he ((prefix_append _ _).trans hkept)] at h
        cases h
      exact ⟨0, by omega, Nat.zero_le _, by simp [scanLoop_of_none h, place], by simp⟩
    | some r =>
      have hr : r = e.frame := by
        simpa using (hown 0 (Nat.zero_le _) r (by simpa using h)).symm
      subst hr
      obtain ⟨hmin, -, hstands⟩ := frameAt_eq_some h
      have hpos : 0 < e.frame.length := lt_of_lt_of_le (by decide) hmin
      have hroom : e.frame.length ≤ c.length - pos := by simpa using hstands.length_le
      obtain ⟨fuel, rfl⟩ : ∃ n, fuel = n + 1 := Nat.exists_eq_add_one.mpr (by omega)
      have hdrop : c.drop pos = e.frame ++ c.drop (pos + e.frame.length) := by
        obtain ⟨rest, hrest⟩ := hstands
        rw [← drop_drop, ← hrest, drop_left]
      have hkept' : frames (es.take (j - 1)) <+: c.drop (pos + e.frame.length) := by
        rcases j with - | j
        · simp
        · rw [hdrop] at hkept
          exact (prefix_append_right_inj _).mp hkept
      have hfuel' : c.length ≤ pos + e.frame.length + fuel := by omega
      obtain ⟨m, hjm, hm, hscan, hpre⟩ :=
        ih (fun e' h' => hfits e' (.tail _ h')) hfuel' hrest hown.tail
          (by simp only [length_cons] at hj; omega) hkept'
      refine ⟨m + 1, by omega, Nat.succ_le_succ hm, ?_, ?_⟩
      · have hgo : ¬ (e.round ≠ expect ∨ e.term < prev) := by
          simpa [hround] using hterm
        rw [scanLoop, h]
        simp only [he.term_frame, he.round_frame, hgo, ↓reduceIte, hscan, take_succ_cons,
          place, frames_cons, length_append, Nat.add_assoc]
      · rw [hdrop]
        exact (prefix_append_right_inj _).mpr hpre

/-! ## What a crash leaves of the live file -/

/-- A header or a frame that passes its check. -/
def Checks (x : List UInt8) (p : ℕ) (r : List UInt8) : Prop :=
  (p = 0 ∧ r = x.take headerSize ∧ r.length = headerSize ∧ Header.Checked r) ∨
    frameAt x p = some r

lemma frames_mono {es' : List RawEntry} (h : es <+: es') : frames es <+: frames es' := by
  obtain ⟨rest, rfl⟩ := h
  simp

lemma endOf_mono (es : List RawEntry) (h : a ≤ m) : endOf es a ≤ endOf es m :=
  Nat.add_le_add_left (frames_mono (take_prefix_take_left h)).length_le _

lemma endOf_add (es : List RawEntry) (a n : ℕ) :
    endOf es (a + n) = endOf es a + (frames ((es.drop a).take n)).length := by
  rw [endOf, endOf, take_add, frames_append, length_append, Nat.add_assoc]

lemma endOf_lt (hfits : ∀ e ∈ es, e.Fits) (h : m < a)
    (hm : m < es.length) : endOf es m < endOf es a := by
  have hone : endOf es (m + 1) = endOf es m + es[m].total := by
    rw [endOf_add, drop_eq_getElem_cons hm, take_succ_cons, take_zero, frames_cons,
      frames_nil, append_nil, RawEntry.length_frame]
  have hpos := (hfits es[m] (getElem_mem hm)).minFrame_le
  have hmin : 0 < minFrame := by decide
  have hmono : endOf es (m + 1) ≤ endOf es a := endOf_mono es h
  omega

/-- In a run of entries that was written from the `a`-th on, only the frame of the `m`-th is
found where the entries before it end. -/
lemma own_segment (hfits : ∀ e ∈ es, e.Fits) {n : ℕ}
    {tail : List UInt8} (htail : tail.length ≤ 4) (hmin : minFrame ≤ r.length)
    (hr : u32At r 0 = r.length) (hle : endOf es a ≤ endOf es m)
    (h : r <+: (frames ((es.drop a).take n) ++ tail).drop (endOf es m - endOf es a)) :
    es[m]?.map RawEntry.frame = some r := by
  have h25 : 25 ≤ r.length := hmin
  set s := (es.drop a).take n with hs
  rcases Nat.lt_or_ge m a with hma | ham
  · -- the run lies behind the log and writes no frame
    have hnil : s = [] := by
      rcases Nat.lt_or_ge m es.length with hm | hm
      · exact absurd hle (Nat.not_le.mpr (endOf_lt hfits hma hm))
      · rw [hs, drop_eq_nil_of_le (by omega), take_nil]
    have := h.length_le
    simp only [hnil, frames_nil, nil_append, length_drop] at this
    omega
  obtain ⟨i, rfl⟩ := Nat.exists_eq_add_of_le ham
  have hdiff : endOf es (a + i) - endOf es a = (frames ((es.drop a).take i)).length := by
    rw [endOf_add]; omega
  rw [hdiff] at h
  rcases Nat.lt_or_ge i s.length with hi | hi
  · have htake : (es.drop a).take i = s.take i := by
      rw [take_take, Nat.min_eq_left]
      exact hi.le.trans (length_take_le _ _)
    have hmem : s[i] ∈ es := mem_of_mem_drop (mem_of_mem_take (getElem_mem hi))
    have hget : es[a + i]? = some s[i] := by
      rw [← getElem?_eq_getElem hi, getElem?_take_of_lt, getElem?_drop]
      exact hi.trans_le (length_take_le _ _)
    rw [htake, frames_eq_take_append s i, append_assoc, drop_left,
      drop_eq_getElem_cons hi, frames_cons, append_assoc] at h
    rw [hget, map_some, eq_frame_of_prefix (hfits _ hmem) hmin hr h]
  · have hpre : s <+: (es.drop a).take i := by
      refine prefix_of_prefix_length_le (List.take_prefix _ _) (List.take_prefix _ _) ?_
      rw [length_take (i := i)]
      exact le_min hi (length_take_le' _ _)
    have hlong := (frames_mono hpre).length_le
    have := h.length_le
    simp only [length_drop, length_append] at this
    omega

/-- A write of entries of the log, behind the first `k` of them. -/
def Batch (es : List RawEntry) (k : ℕ) (op : FileOp) : Prop :=
  ∃ a n tail, k ≤ a ∧ tail.length ≤ 4 ∧
    op = .write (endOf es a) (frames ((es.drop a).take n) ++ tail)

/-- The durable part of a live file: the header and the first `k` entries, and behind them too
little for a frame. -/
structure DurableAs (h : Header) (es : List RawEntry) (k : ℕ) (f : File) : Prop where
  header : f.durable.take headerSize = h.encode
  synced : ∃ tail, f.durable.drop headerSize = frames (es.take k) ++ tail ∧ tail.length ≤ 4

/-- What a crash leaves of a live file: at least the first `j` entries, and no frame at the end
of an entry but the frame of the next one. -/
structure LiveBytes (h : Header) (es : List RawEntry) (j : ℕ) (x : List UInt8) : Prop where
  header : x.take headerSize = h.encode
  kept : frames (es.take j) <+: x.drop headerSize
  own : Own x headerSize es

variable {h : Header} {es : List RawEntry} {j k : ℕ} {f : File} {x : List UInt8}

lemma DurableAs.eq (hd : DurableAs h es k f) :
    ∃ tail, f.durable = h.encode ++ (frames (es.take k) ++ tail) ∧ tail.length ≤ 4 := by
  obtain ⟨tail, htail, hlen⟩ := hd.synced
  exact ⟨tail, by rw [← hd.header, ← htail, take_append_drop], hlen⟩

lemma DurableAs.issue (hd : DurableAs h es k f) (op : FileOp) : DurableAs h es k (f.issue op) :=
  ⟨hd.header, hd.synced⟩

lemma LiveBytes.of_crash (hfits : ∀ e ∈ es, e.Fits) (hd : DurableAs h es k f)
    (hpending : ∀ op ∈ f.pending, Batch es k op ∨ ∃ n, endOf es j ≤ n ∧ op = .setLen n)
    (hj : j ≤ k) (hcrash : f.Crash Checks x) : LiveBytes h es j x := by
  obtain ⟨tail, hdurable, htail⟩ := hd.eq
  have hjk := endOf_mono es hj
  have hlen : endOf es k ≤ f.durable.length := by
    rw [hdurable]
    simp [endOf]
  have hlow : ∀ p < endOf es j, ¬ f.Touched p := by
    rintro p hp ⟨op, hop, htouch⟩
    rcases hpending op hop with ⟨a, n, tail, hka, -, rfl⟩ | ⟨n, hn, rfl⟩
    · have := endOf_mono es hka
      rcases htouch.2 with h' | h' <;> omega
    · rcases htouch with h' | h' <;> omega
  have htake : x.take (endOf es j) = h.encode ++ frames (es.take j) := by
    have hpre : frames (es.take j) <+: frames (es.take k) ++ tail :=
      (frames_mono (take_prefix_take_left hj)).trans (prefix_append _ _)
    obtain ⟨rest, hrest⟩ := hpre
    rw [hcrash.take_eq hlow, hdurable, ← hrest, ← append_assoc,
      take_left' (by simp [endOf])]
  have hpre : h.encode ++ frames (es.take j) <+: x := htake ▸ take_prefix _ _
  obtain ⟨rest, hrest⟩ := hpre
  refine ⟨?_, ?_, ?_⟩
  · rw [← hrest, append_assoc, take_left' h.length_encode]
  · rw [← hrest]
    exact prefix_append _ _
  · intro m hm r hr
    obtain ⟨hmin, hself, -⟩ := frameAt_eq_some hr
    rcases hcrash.revealed _ _ (.inr hr) with hstands | ⟨op, hop, hcarries⟩
    · -- the durable bytes are the run of the first `k` entries
      obtain ⟨tail, hsynced, htail⟩ := hd.synced
      refine own_segment hfits htail (a := 0) (n := k) hmin hself (endOf_mono es (Nat.zero_le m)) ?_
      have hzero : endOf es 0 = headerSize := by simp [endOf]
      have hdrop : (frames ((es.drop 0).take k) ++ tail).drop (endOf es m - endOf es 0) =
          f.durable.drop (endOf es m) := by
        rw [hzero, drop_zero, ← hsynced, drop_drop,
          Nat.add_sub_cancel' (headerSize_le_endOf es m)]
      rwa [hdrop]
    · rcases hpending op hop with ⟨a, n, tail, hka, htail, rfl⟩ | ⟨n, hn, rfl⟩
      · exact own_segment hfits htail hmin hself hcarries.1 hcarries.2
      · exact hcarries.elim

/-- A crash may take everything that was not synced. -/
lemma crash_durable (f : File) : f.Crash Checks f.durable := by
  refine ⟨fun _ _ => rfl, fun p r hr => .inl ?_⟩
  rcases hr with ⟨rfl, rfl, -, -⟩ | hr
  · exact take_prefix _ _
  · exact (frameAt_eq_some hr).2.2

/-! ## Opening the log again -/

/-- Every header that a crash may leave at the head of the file is of an earlier generation. -/
def Older (generation : ℕ) (f : File) : Prop :=
  ∀ r, r.length = headerSize → Header.Checked r → f.Stands 0 r →
    ∃ h, Header.decode r = .ok (some h) ∧ h.generation < generation

lemma Older.of_crash (hf : Older g f) (hcrash : f.Crash Checks x) : Older g (.stored x) := by
  intro r hlen hchecked hstands
  refine hf r hlen hchecked (hcrash.revealed 0 r (.inl ⟨rfl, ?_, hlen, hchecked⟩))
  rcases hstands with hpre | ⟨op, hop, -⟩
  · rw [prefix_iff_eq_take.mp hpre, hlen]
    rfl
  · cases hop

lemma Older.readHeader (hx : Older g (.stored x)) :
    ∃ o, readHeader x = .ok o ∧ ∀ h, o = some h → h.generation < g := by
  unfold FileLog.readHeader
  split
  case isFalse => exact ⟨none, rfl, nofun⟩
  case isTrue hlen =>
    by_cases hc : Header.Checked (x.take headerSize)
    · obtain ⟨h, hh, hg⟩ := hx _ (by simpa using hlen) hc (.inl (List.take_prefix _ _))
      exact ⟨some h, hh, fun h' he => some.inj he ▸ hg⟩
    · exact ⟨none, Header.decode_of_not_checked hc, nofun⟩

lemma LiveBytes.readHeader (hx : LiveBytes h es j x) (hr : h.InRange) :
    readHeader x = .ok (some h) := by
  have hlen : headerSize ≤ x.length := by
    have := congrArg length hx.header
    simp only [length_take, Header.length_encode] at this
    omega
  rw [FileLog.readHeader, if_pos hlen, hx.header, Header.decode_encode hr]

/-- The file of the greater generation is taken up. -/
lemma withStorage_live {c : Bool → List UInt8} (hr : h.InRange)
    (hx : LiveBytes h es j (c live)) (hy : Older h.generation (.stored (c !live))) :
    withStorage c = .ok (openLive live h (c live)) := by
  obtain ⟨o, ho, hlt⟩ := hy.readHeader
  have hh := hx.readHeader hr
  cases live
  · rw [Bool.not_false] at ho
    simp only [withStorage, hh, ho]
    cases o with
    | none => rfl
    | some h' =>
      have hgen := hlt h' rfl
      simp only [bind, Except.bind, hgen.ne', hgen]
      rfl
  · rw [Bool.not_true] at ho
    simp only [withStorage, hh, ho]
    cases o with
    | none => rfl
    | some h' =>
      have hgen := hlt h' rfl
      simp only [bind, Except.bind, hgen.ne, hgen.asymm]
      rfl

/-- A live file, of whose entries the first `k` are synced. -/
structure LiveFile (h : Header) (es : List RawEntry) (k : ℕ) (f : File) : Prop
    extends DurableAs h es k f where
  unsynced : ∀ op ∈ f.pending, Batch es k op
  content : ∃ tail, f.content = h.encode ++ (frames es ++ tail) ∧ tail.length ≤ 4

/-- The handle tells what the disk holds: the entries `es`, of which the first `k` are synced. -/
structure Sound (d : Disk) (l : FileLog) (es : List RawEntry) (k : ℕ) : Prop where
  live : LiveFile l.header es k (d l.live)
  spare : Older l.generation (d !l.live)
  index : l.index = place headerSize es
  endOffset : l.endOffset = endOf es es.length
  synced_le : k ≤ es.length
  durableRound : l.durableRound ≤ l.snapshotRound + k
  inRange : l.header.InRange
  chained : Chained (l.snapshotRound + 1) l.snapshotTerm es
  fits : ∀ e ∈ es, e.Fits

@[simp] lemma length_place (pos : ℕ) (es : List RawEntry) : (place pos es).length = es.length := by
  induction es generalizing pos with
  | nil => rfl
  | cons e es ih => simp [place, ih]

lemma Chained.take (hc : Chained expect prev es) (m : ℕ) : Chained expect prev (es.take m) := by
  induction es generalizing expect prev m with
  | nil => simpa using hc
  | cons e es ih =>
    cases m with
    | zero => trivial
    | succ m => exact ⟨hc.1, hc.2.1, ih hc.2.2 m⟩

/-- A file that holds the header and the entries and nothing else. -/
lemma LiveFile.stored (h : Header) (es : List RawEntry) :
    LiveFile h es es.length (.stored (h.encode ++ frames es)) where
  header := take_left' h.length_encode
  synced := ⟨[], by simp [File.stored, drop_left' h.length_encode], by simp⟩
  unsynced := nofun
  content := ⟨[], by simp, by simp⟩

/-- Cutting the live file off where the scan stopped leaves the header and the entries found. -/
lemma openLive_stored {c : Bool → List UInt8} (hheader : (c live).take headerSize = h.encode)
    (hscan : scanFrames (c live) h.snapshotRound h.snapshotTerm =
      (place headerSize (es.take m), endOf es m))
    (hpre : frames (es.take m) <+: (c live).drop headerSize) :
    ((Disk.stored c).performAll (openLive live h (c live)).2) live =
        .stored (h.encode ++ frames (es.take m)) ∧
      ((Disk.stored c).performAll (openLive live h (c live)).2) (!live) = .stored (c !live) := by
  have htake : (c live).take (endOf es m) = h.encode ++ frames (es.take m) := by
    obtain ⟨rest, hrest⟩ := hpre
    rw [← take_append_drop headerSize (c live), hheader, ← hrest, ← append_assoc,
      take_left' (by simp [endOf])]
  have hlen : endOf es m ≤ (c live).length := by
    have := congrArg length htake
    simp only [length_take, length_append, Header.length_encode] at this
    simp only [endOf] at this ⊢
    omega
  simp only [openLive, hscan]
  split
  · refine ⟨?_, ?_⟩
    · simp [Disk.performAll, Disk.perform, Disk.stored, File.sync, FileOp.apply_setLen_le hlen,
        htake, File.stored, File.content]
    · simp [Disk.performAll, Disk.perform, Disk.stored]
  · refine ⟨?_, rfl⟩
    rw [← htake, take_of_length_le (by omega)]
    rfl

/-- After a crash at `d` the log opens again, with an outcome in `P`. -/
def Recovers (P : FileLog → List RawEntry → Prop) (d : Disk) : Prop :=
  ∀ c : Bool → List UInt8, (∀ file, (d file).Crash Checks (c file)) →
    ∃ r ops es, withStorage c = .ok (r, ops) ∧
      Sound ((Disk.stored c).performAll ops) r es es.length ∧ P r es

/-- A disk with a live file and an older spare opens to a beginning of its entries. -/
lemma reopen {c : Bool → List UInt8} (hr : h.InRange) (hfits : ∀ e ∈ es, e.Fits)
    (hchain : Chained (h.snapshotRound + 1) h.snapshotTerm es) (hj : j ≤ es.length)
    (hx : LiveBytes h es j (c live)) (hy : Older h.generation (.stored (c !live))) :
    ∃ r ops m, withStorage c = .ok (r, ops) ∧ r.header = h ∧ j ≤ m ∧ m ≤ es.length ∧
      Sound ((Disk.stored c).performAll ops) r (es.take m) (es.take m).length := by
  obtain ⟨m, hjm, hm, hscan, hpre⟩ :=
    scanLoop_own hfits (Nat.le_add_left _ _) hchain hx.own hj hx.kept
  obtain ⟨hlive, hspare⟩ := openLive_stored hx.header hscan hpre
  have hopen : (openLive live h (c live)).1 =
      ⟨live, h.generation, h.version, h.snapshotRound, h.snapshotTerm,
        place headerSize (es.take m), endOf es m, h.snapshotRound + (es.take m).length⟩ := by
    rw [openLive, show scanFrames _ _ _ = _ from hscan]
    simp [endOf]
  refine ⟨(openLive live h (c live)).1, (openLive live h (c live)).2, m,
    withStorage_live hr hx hy, by rw [hopen]; rfl, hjm, hm, ?_⟩
  rw [hopen]
  exact {
    live := by
      rw [hlive]
      exact .stored h (es.take m)
    spare := by
      rw [hspare]
      exact hy
    index := rfl
    endOffset := by rw [endOf, endOf, take_length]
    synced_le := le_rfl
    durableRound := le_rfl
    inRange := hr
    chained := hchain.take m
    fits := fun e he => hfits e (mem_of_mem_take he) }

lemma Sound.recovers {d : Disk} {l : FileLog} (hs : Sound d l es k) :
    Recovers (fun r es' => r.header = l.header ∧ ∃ m, k ≤ m ∧ es' = es.take m) d := by
  intro c hc
  have hx : LiveBytes l.header es k (c l.live) :=
    .of_crash hs.fits hs.live.toDurableAs (fun op hop => .inl (hs.live.unsynced op hop)) le_rfl
      (hc l.live)
  obtain ⟨r, ops, m, hopen, hheader, hkm, -, hsound⟩ :=
    reopen hs.inRange hs.fits hs.chained hs.synced_le hx (hs.spare.of_crash (hc _))
  exact ⟨r, ops, _, hopen, hsound, hheader, m, hkm, rfl⟩

end FerroDb.Cluster.FileLog
