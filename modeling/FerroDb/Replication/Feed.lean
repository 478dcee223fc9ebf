import FerroDb.Replication.Range
import FerroDb.Replication.Stream
import FerroDb.Storage.TupleCodec

/-!
# The feed loses nothing and repeats nothing

What a subscription has received is the beginning of the committed events of the log, over every
run: the log grows and is flushed, batches of any size are pumped, and the reader or the whole
process restarts from the saved cursor and last commit.

The invariant is `CommitFeed.Resumable` between the cursor and the end of the flushed log, and that
the decoder's history agrees with the log. The events agree but for the time a session of a run
began: a walk names the first session it meets in its range, so that two ways to cut the log into
batches name two sessions.

## Main definitions

* `Orderly` — at all times the log is one of interleaved transactions.
* `OneSession` — a run that is named twice is named with the same start.

## Main results

* `Inv.step` — every action keeps the invariant.
* `feed_begins_committed` — what was received begins the committed events.
-/

namespace FerroDb.Replication

open Library Library.CommitFeed Sql Storage Wal List ChangeEvent Std
open Prod (ext mk snd)

namespace FeedStreamer

variable {n k : ℕ} {ns : List ℕ}

lemma le_maxFrom : n ≤ maxFrom n ns := by
  induction ns generalizing n with
  | nil => exact le_rfl
  | cons k ns ih => exact (le_max_left n k).trans ih

lemma mem_le_maxFrom (h : k ∈ ns) : k ≤ maxFrom n ns := by
  induction ns generalizing n with
  | nil => cases h
  | cons j ns ih =>
    rcases mem_cons.mp h with rfl | h
    · exact (le_max_right n k).trans le_maxFrom
    · exact ih h

lemma maxFrom_mem (n : ℕ) (ns : List ℕ) : maxFrom n ns = n ∨ maxFrom n ns ∈ ns := by
  unfold maxFrom
  induction ns generalizing n with
  | nil => exact .inl rfl
  | cons k ns ih =>
    rw [foldl_cons]
    rcases ih (max n k) with h | h
    · rw [h]
      rcases max_choice n k with hc | hc
      · exact .inl hc
      · exact .inr (by simp [hc])
    · exact .inr (.tail _ h)

end FeedStreamer

open FeedStreamer

/-- An event with its place in the order of commits. -/
def ChangeEvent.place (norm : RunEntity → RunEntity) (e : ChangeEvent) : ℕ × ChangeEvent :=
  (e.commitLsn, e.naming norm)

variable {x : Item ℕ View ChangeEvent} {t : ℕ} {w : Walk}

section

variable {deserialize : Schema → List UInt8 → Except FerroError Row}
  {norm : RunEntity → RunEntity} {m : Mapping} {before xs ys zs rs : List LogRecord} {w : Walk}
  {cursor stop e frontier : ℕ}

variable (deserialize norm m before) in
/-- The items of a part of the log, with their events named in one way. -/
def namedItems (rs : List LogRecord) : List (Item ℕ View ChangeEvent) :=
  (itemsFrom deserialize m before rs).map (Item.map (naming norm))

lemma namedItems_append : namedItems deserialize norm m before (xs ++ ys) =
    namedItems deserialize norm m before xs ++ namedItems deserialize norm m (before ++ xs) ys := by
  rw [namedItems, itemsFrom_append, map_append]
  rfl

lemma namedItems_ascending (h : rs.Pairwise (·.lsn < ·.lsn)) :
    Ascending (namedItems deserialize norm m before rs) :=
  pairwise_map.mpr
    (itemsFrom_ascending h : Ascending (itemsFrom deserialize m before rs))

lemma namedItems_lawful
    (h : x ∈ namedItems deserialize norm m before rs) : x.Lawful View.none View.pend := by
  obtain ⟨y, hy, rfl⟩ := mem_map.mp h
  exact (itemsFrom_lawful hy).map

lemma mem_namedItems
    (h : x ∈ namedItems deserialize norm m before rs) : ∃ r ∈ rs, x.pos = r.lsn := by
  obtain ⟨y, hy, rfl⟩ := mem_map.mp h
  obtain ⟨pre, r, hr, rfl⟩ := mem_itemsFrom hy
  exact ⟨r, hr, rfl⟩

/-- The events of a walk are what its range releases. -/
lemma Sim.events_place (h : Sim deserialize norm m before xs w) :
    w.out.events.map (ChangeEvent.place norm) =
      released View.none (fun _ => View.none) (namedItems deserialize norm m before xs) := by
  have hplace : ChangeEvent.place norm =
      (fun e : ChangeEvent => (e.commitLsn, e)) ∘ naming norm := rfl
  rw [hplace, ← map_map, h.events, namedItems, released_map, map_map]
  refine map_congr_left fun y hy => ?_
  obtain ⟨r, -, hpos, hlsn, -⟩ := mem_released hy
  exact ext (hlsn.trans hpos.symm) rfl

/-- An event of a walk ends with a record of its range. -/
lemma Sim.mem_events (h : Sim deserialize norm m before xs w) {e : ChangeEvent}
    (he : e ∈ w.out.events) :
    ∃ r ∈ xs, e.commitLsn = r.lsn ∧ e.commitEndLsn = r.lsn + r.frameLen := by
  have hmem : e.naming norm ∈ w.out.events.map (naming norm) :=
    mem_map_of_mem he
  rw [h.events] at hmem
  obtain ⟨y, hy, heq⟩ := mem_map.mp hmem
  obtain ⟨r, hr, -, hlsn, hend, -⟩ := mem_released hy
  refine ⟨r, hr, ?_, ?_⟩
  · rw [← hlsn]
    exact (congrArg commitLsn heq).symm
  · rw [← hend]
    exact (congrArg commitEndLsn heq).symm

/-- A change that is pending keeps the range open from its place on. -/
lemma openFrom_le {c : Change} (hc : c ∈ w.changesOf t) :
    ∃ o, w.finish.openFrom = some o ∧ o ≤ c.lsn := by
  rw [Walk.changesOf_eq] at hc
  cases hs : w.staged[t]? with
  | none =>
    rw [hs] at hc
    cases hc
  | some changes =>
    rw [hs] at hc
    have hmem : c.lsn ∈ w.staged.toList.flatMap (·.2.map Change.lsn) :=
      mem_flatMap.mpr ⟨(t, changes), TreeMap.mem_toList_iff_getElem?_eq_some.mpr hs,
        mem_map_of_mem hc⟩
    obtain ⟨o, ho⟩ := isSome_min?_of_mem hmem |> Option.isSome_iff_exists.mp
    exact ⟨o, ho, (min?_eq_some_iff.mp ho).2 _ hmem⟩

lemma exists_of_openFrom {o : ℕ} (h : w.finish.openFrom = some o) :
    ∃ t, ∃ c ∈ w.changesOf t, c.lsn = o := by
  obtain ⟨⟨t, changes⟩, ht, hlsn⟩ := mem_flatMap.mp (min?_mem h)
  obtain ⟨c, hc, rfl⟩ := mem_map.mp hlsn
  refine ⟨t, c, ?_, rfl⟩
  rw [Walk.changesOf_eq, TreeMap.mem_toList_iff_getElem?_eq_some.mp ht]
  exact hc

/-- The cursor moves to the start or the end of a record of the range. -/
lemma Sim.cut (h : Sim deserialize norm m before xs w) (hxs : Framed cursor xs stop)
    (e frontier : ℕ) : ∃ read rest, xs = read ++ rest ∧
      Framed cursor read (deliver cursor e frontier w.finish).1.cursor := by
  have hstart : ∃ read rest, xs = read ++ rest ∧ Framed cursor read cursor := ⟨[], xs, rfl, rfl⟩
  have hmax : ∃ read rest, xs = read ++ rest ∧
      Framed cursor read (maxFrom cursor (w.out.events.map commitEndLsn)) := by
    rcases maxFrom_mem cursor (w.out.events.map commitEndLsn) with hm | hm
    · rw [hm]
      exact hstart
    · obtain ⟨ev, hev, hend⟩ := mem_map.mp hm
      obtain ⟨r, hr, -, hlsn⟩ := h.mem_events hev
      obtain ⟨read, rest, hsplit, hread, -⟩ := hxs.split_at hr
      refine ⟨read ++ [r], rest, by simp [hsplit], ?_⟩
      rw [← hend, hlsn]
      exact framed_append.mpr ⟨_, hread, rfl, rfl⟩
  unfold deliver
  cases ho : w.finish.openFrom with
  | none => exact hmax
  | some o =>
    rcases min_choice (maxFrom cursor (w.out.events.map commitEndLsn)) o with hc | hc
    · change ∃ read rest, _ ∧ Framed cursor read (min (maxFrom cursor _) o)
      rw [show w.finish.events = w.out.events from rfl, hc]
      exact hmax
    · change ∃ read rest, _ ∧ Framed cursor read (min (maxFrom cursor _) o)
      rw [show w.finish.events = w.out.events from rfl, hc]
      obtain ⟨t, c, hmem, rfl⟩ := exists_of_openFrom ho
      have hview := congrArg View.changes (h.view t)
      obtain ⟨r, hr, hlsn⟩ := mem_stagedAfter (show c ∈ (stagedAfter View.none _ _ t).changes by
        rw [hview]; exact hmem)
      obtain ⟨read, rest, hsplit, hread, -⟩ := hxs.split_at hr
      exact ⟨read, r :: rest, hsplit, hlsn ▸ hread⟩

end

/-! ## Sessions of a run -/

/-- A run without the time its session began. -/
def anySession (r : RunEntity) : RunEntity := { r with startedAt := 0 }

/-- Sessions of one actor differ in nothing else. -/
lemma namedAlike_anySession (rs : List LogRecord) : NamedAlike anySession rs := by
  intro run _ run' _ hslot hsame
  simp only [RunEntity.sameActor, Bool.and_eq_true, decide_eq_true_eq] at hsame
  obtain ⟨⟨⟨⟨⟨h₁, h₂⟩, h₃⟩, h₄⟩, h₅⟩, h₆⟩ := hsame
  simp [anySession, hslot, h₁, h₂, h₃, h₄, h₅, h₆]

/-- A run that the log names twice is named with the same start. -/
def OneSession (rs : List LogRecord) : Prop := NamedAlike id rs

instance (rs : List LogRecord) : Decidable (OneSession rs) :=
  inferInstanceAs (Decidable (∀ run ∈ identities rs, ∀ run' ∈ identities rs,
    run.provId = run'.provId → run.sameActor run' → id run = id run'))

/-! ## The invariant -/

section

variable (deserialize : Schema → List UInt8 → Except FerroError Row) (norm : RunEntity → RunEntity)
  (m : Mapping)

/-- The flushed log is cut by the cursor into what was read and what is left, and reading on from
the cursor delivers what was not delivered. -/
structure Position (wal : WalManager) (sub : Subscription) (sink : List ChangeEvent)
    (xs ys zs : List LogRecord) : Prop where
  records : wal.records = xs ++ ys ++ zs
  read : Framed initialLsn xs sub.cursor
  left : Framed sub.cursor ys wal.flushedLsn
  emitted : sub.emittedThrough < wal.flushedLsn
  resumable : NamedAlike norm (xs ++ ys) →
    Resumable View.none (namedItems deserialize norm m [] xs) (namedItems deserialize norm m xs ys)
      sub.emittedThrough (sink.map (ChangeEvent.place norm))

/-- The decoder was built for the mapping and its history agrees with the log. -/
structure Ready (wal : WalManager) (decoder : LogicalDecoder) : Prop where
  mapping : decoder.mapping = m
  covers : Covers m (shapesIn wal.records) decoder.history.shapes decoder.history.coveredThrough
  covered : decoder.history.coveredThrough ≤ wal.flushedLsn

structure Inv (f : Feed) : Prop where
  sound : f.wal.Sound
  ready : Ready m f.wal f.streamer.decoder
  position : ∃ xs ys zs, Position deserialize norm m f.wal f.sub f.sink xs ys zs

end

section

variable {deserialize : Schema → List UInt8 → Except FerroError Row}
  {norm : RunEntity → RunEntity} {m : Mapping} {wal : WalManager} {sub : Subscription}
  {sink : List ChangeEvent} {xs ys zs : List LogRecord} {decoder decoder' : LogicalDecoder}
  {f : Feed} {maxBytes toLsn : ℕ}

lemma ready_new (wal : WalManager) : Ready m wal (.new m) :=
  ⟨rfl, covers_new m _, Nat.zero_le _⟩

lemma inv_init : Inv deserialize norm m (Feed.init m maxBytes) where
  sound := WalManager.sound_new
  ready := ready_new _
  position := ⟨[], [], [], rfl, rfl, rfl, Nat.one_pos, fun _ => resumable_nil⟩

namespace Position

variable (h : Position deserialize norm m wal sub sink xs ys zs)
include h

lemma framed : Framed initialLsn (xs ++ ys) wal.flushedLsn :=
  framed_append.mpr ⟨_, h.read, h.left⟩

lemma tail (hsound : wal.Sound) : Framed wal.flushedLsn zs wal.nextLsn := by
  have := hsound.framed
  rw [h.records] at this
  obtain ⟨mid, hxy, hz⟩ := framed_append.mp this
  rwa [h.framed.stop_unique hxy]

/-- What is appended is not flushed. -/
lemma append (txnId prevLsn : ℕ) (kind : RecKind) :
    ∃ zs', Position deserialize norm m (wal.append txnId prevLsn kind).2 sub sink xs ys zs' :=
  ⟨zs ++ [_], by rw [WalManager.append, h.records, append_assoc], h.read, h.left, h.emitted,
    h.resumable⟩

lemma flush (hsound : wal.Sound) :
    Position deserialize norm m wal.flush sub sink xs (ys ++ zs) [] := by
  have hflushed : wal.flush.flushedLsn = wal.nextLsn := max_eq_right hsound.flushed_le
  refine ⟨?_, h.read, ?_, ?_, fun hnamed => ?_⟩
  · rw [WalManager.flush, h.records, append_nil, append_assoc]
  · rw [hflushed]
    exact framed_append.mpr ⟨_, h.left, h.tail hsound⟩
  · rw [hflushed]
    exact h.emitted.trans_le hsound.flushed_le
  · rw [namedItems_append]
    refine (h.resumable (hnamed.mono ?_)).grow fun z hz => ?_
    · rw [← append_assoc]
      exact subset_append_left _ _
    · obtain ⟨r, hr, hpos⟩ := mem_namedItems hz
      rw [hpos]
      exact h.emitted.trans_le ((h.tail hsound).mem_bounds hr).1

/-- A process that starts anew finds the flushed log. -/
lemma durable (hsound : wal.Sound) :
    Position deserialize norm m (Replication.durable wal) sub sink xs ys [] := by
  refine ⟨?_, h.read, h.left, h.emitted, h.resumable⟩
  rw [Replication.durable, h.records, append_nil]
  exact h.framed.filter_lt (h.tail hsound)

end Position

lemma sound_durable (hsound : wal.Sound) (h : Position deserialize norm m wal sub sink xs ys zs) :
    (durable wal).Sound := by
  have hrec : (durable wal).records = xs ++ ys := by
    rw [(h.durable hsound).records, append_nil]
  refine ⟨?_, xs ++ ys, [], by simp [hrec], h.framed⟩
  rw [hrec]
  exact h.framed

/-! ## A batch -/

/-- Decoding a range that starts at the cursor: the decoder stays ready, and a range that can be
decoded has been walked from the mapping in force at the cursor. -/
lemma decode_spec (hsound : wal.Sound) (hready : Ready m wal decoder)
    (h : Position deserialize norm m wal sub sink xs ys zs) (hto : toLsn ≤ wal.flushedLsn)
    {res : Except FerroError Decoded}
    (heq : decoder.decode deserialize wal sub.cursor toLsn = (res, decoder'))
    (hil : Interleaved (xs ++ ys)) : Ready m wal decoder' ∧ ∀ decoded, res = .ok decoded →
      ∃ w, decoded = w.finish ∧ (ys.filter (·.lsn < toLsn)).foldlM
        (fun w r => Walk.step deserialize w r.lsn (r.lsn + r.frameLen) r)
        (Walk.start (m.after xs)) = .ok w := by
  have hnext := hto.trans hsound.flushed_le
  have hcursor := h.left.le
  have hbase := h.read.le.trans hcursor
  obtain ⟨res', history, hcatch⟩ : ∃ res' history,
      decoder.history.catchUp wal sub.cursor = (res', history) := ⟨_, _, rfl⟩
  obtain ⟨hcovers, hfrom, hcovered⟩ := Learned.catchUp_covers hsound hready.covers
    (hcursor.trans hsound.flushed_le) hcatch
  have hcovered : history.coveredThrough ≤ wal.flushedLsn :=
    hcovered.trans (max_le (max_le hready.covered hbase) hcursor)
  have hready' : Ready m wal { decoder with history } := ⟨hready.mapping, hcovers, hcovered⟩
  have hrec : wal.records = xs ++ (ys ++ zs) := by rw [h.records, append_assoc]
  have hrange : (ys ++ zs).filter (·.lsn < toLsn) = ys.filter (·.lsn < toLsn) := by
    have hnone : zs.filter (·.lsn < toLsn) = [] :=
      filter_eq_nil_iff.mpr fun r hr => by
        simpa using hto.trans ((h.tail hsound).mem_bounds hr).1
    rw [filter_append, hnone, append_nil]
  unfold LogicalDecoder.decode at heq
  rw [hcatch] at heq
  cases res' with
  | error err =>
    obtain ⟨rfl, rfl⟩ := mk.inj heq
    exact ⟨hready', fun decoded hd => by cases hd⟩
  | ok u =>
    have hseed : history.seed decoder.mapping sub.cursor = m.after xs := by
      rw [hready.mapping]
      exact Learned.seed_eq hsound hcovers (hfrom rfl) hrec h.read
    have hthrough : Walk.through deserialize wal sub.cursor toLsn (Walk.start (m.after xs)) =
        (ys.filter (·.lsn < toLsn)).foldlM
          (fun w r => Walk.step deserialize w r.lsn (r.lsn + r.frameLen) r)
          (Walk.start (m.after xs)) := by
      rw [Walk.through, hsound.forRecords_eq hrec h.read hnext le_rfl, hrange]
    dsimp only at heq
    rw [hseed, hthrough] at heq
    cases hwalk : (ys.filter (·.lsn < toLsn)).foldlM
        (fun w r => Walk.step deserialize w r.lsn (r.lsn + r.frameLen) r)
        (Walk.start (m.after xs)) with
    | error err =>
      rw [hwalk] at heq
      obtain ⟨rfl, rfl⟩ := mk.inj heq
      exact ⟨hready', fun decoded hd => by cases hd⟩
    | ok w =>
      rw [hwalk] at heq
      obtain ⟨rfl, rfl⟩ := mk.inj heq
      refine ⟨⟨hready.mapping, ?_, max_le hcovered hto⟩, fun decoded hd => ?_⟩
      · have hsim : Sim deserialize anySession m xs (ys.filter (·.lsn < toLsn)) w := by
          obtain ⟨read, rest, mid, hys, hfilter, -⟩ := h.left.cut toLsn
          rw [hfilter] at hwalk ⊢
          refine Sim.walk hwalk ?_ (namedAlike_anySession _)
          rw [hys, ← append_assoc] at hil
          exact hil.of_append
        refine hcovers.merge (shapesIn_ascending hsound.framed) (hfrom rfl) ?_
        rw [hsim.learned, ← hrange]
        exact shapesIn_range hsound hrec h.read
      · exact ⟨w, (Except.ok.inj hd).symm, rfl⟩

lemma map_place_filter {events : List ChangeEvent} {e : ℕ} :
    (events.map (ChangeEvent.place norm)).filter (e < ·.1) =
      (events.filter (e < ·.commitLsn)).map (ChangeEvent.place norm) :=
  filter_map

/-- The cursor stays below what is still open. -/
lemma cursor_le_pend {before rs : List LogRecord} {p : ℕ}
    (cursor e frontier : ℕ) (h : Sim deserialize norm m before rs w)
    (hp : View.pend (stagedAfter View.none (fun _ => View.none)
      (namedItems deserialize norm m before rs) t) = some p) :
    (deliver cursor e frontier w.finish).1.cursor ≤ p := by
  rw [namedItems, stagedAfter_map, h.view] at hp
  obtain ⟨c, hc, rfl⟩ := Option.map_eq_some_iff.mp hp
  obtain ⟨o, ho, hle⟩ := openFrom_le (w := w) (t := t) (mem_of_head? hc)
  unfold deliver
  simp only [ho]
  exact (min_le_right _ _).trans hle

/-- A range that was walked moves the position on. -/
lemma Position.deliver {frontier : ℕ} (h : Position deserialize norm m wal sub sink xs ys zs)
    (hwalk : (ys.filter (·.lsn < toLsn)).foldlM
      (fun w r => Walk.step deserialize w r.lsn (r.lsn + r.frameLen) r)
      (Walk.start (m.after xs)) = .ok w)
    (hil : Interleaved (xs ++ ys)) {pumped : Pumped} {owned : List ChangeEvent}
    (heq : FeedStreamer.deliver sub.cursor sub.emittedThrough frontier w.finish = (pumped, owned)) :
    ∃ xs' ys', Position deserialize norm m wal ⟨pumped.cursor, pumped.emittedThrough⟩
      (sink ++ owned) xs' ys' zs := by
  obtain ⟨range, later, mid, rfl, hfilter, hrange, hlater⟩ := h.left.cut toLsn
  rw [hfilter] at hwalk
  rw [← append_assoc] at hil
  have hsim : ∀ {norm}, NamedAlike norm (xs ++ range) → Sim deserialize norm m xs range w :=
    fun hnamed => Sim.walk hwalk hil.of_append hnamed
  have hany := hsim (namedAlike_anySession _)
  obtain ⟨read, rest, rfl, hread⟩ :=
    hany.cut hrange sub.emittedThrough frontier
  have howned : owned = w.out.events.filter (sub.emittedThrough < ·.commitLsn) :=
    (congrArg snd heq).symm
  have hemitted : pumped.emittedThrough =
      maxFrom sub.emittedThrough (owned.map commitLsn) := by
    rw [howned]
    exact (congrArg (·.1.emittedThrough) heq).symm
  rw [heq] at hread
  have hlast := maxFrom_mem sub.emittedThrough (owned.map commitLsn)
  refine ⟨xs ++ read, rest ++ later, ?_, ?_, ?_, ?_, fun hnamed => ?_⟩
  · rw [h.records]
    simp
  · exact framed_append.mpr ⟨_, h.read, hread⟩
  · have hleft := h.left
    rw [append_assoc] at hleft
    obtain ⟨mid', hread', hrest⟩ := framed_append.mp hleft
    rwa [hread'.stop_unique hread] at hrest
  · rw [hemitted]
    rcases hlast with hl | hl
    · rw [hl]
      exact h.emitted
    · obtain ⟨ev, hev, hlsn⟩ := mem_map.mp hl
      rw [howned] at hev
      obtain ⟨r, hr, hcommit, -⟩ := hany.mem_events (mem_filter.mp hev).1
      rw [← hlsn, hcommit]
      exact h.left.lsn_lt (mem_append_left _ hr)
  · have hsub : xs ++ (read ++ rest) ⊆ xs ++ read ++ (rest ++ later) := by
      rw [← append_assoc, ← append_assoc (xs ++ read)]
      exact subset_append_left _ _
    have hsim := hsim (hnamed.mono hsub)
    have hold := h.resumable (by simpa using hnamed)
    have hitems : namedItems deserialize norm m xs (read ++ rest ++ later) =
        namedItems deserialize norm m xs read ++
          namedItems deserialize norm m (xs ++ read) rest ++
          namedItems deserialize norm m (xs ++ (read ++ rest)) later := by
      rw [namedItems_append, namedItems_append]
    have hasc : Ascending (namedItems deserialize norm m [] (xs ++ (read ++ rest ++ later))) :=
      namedItems_ascending h.framed.ascending
    rw [namedItems_append, nil_append, hitems] at hasc
    rw [hitems] at hold
    have hevents := hsim.events_place
    rw [namedItems_append] at hevents
    have hnew : (released View.none (fun _ => View.none) (namedItems deserialize norm m xs read ++
        namedItems deserialize norm m (xs ++ read) rest)).filter (sub.emittedThrough < ·.1) =
        owned.map (ChangeEvent.place norm) := by
      rw [← hevents, map_place_filter, howned]
    have hlaw : ∀ x ∈ namedItems deserialize norm m xs read ++
        namedItems deserialize norm m (xs ++ read) rest, x.Lawful View.none View.pend := by
      intro x hx
      rcases mem_append.mp hx with hx | hx
      · exact namedItems_lawful hx
      · exact namedItems_lawful hx
    have hpend : ∀ t p, View.pend (stagedAfter View.none (fun _ => View.none)
        (namedItems deserialize norm m xs read ++
          namedItems deserialize norm m (xs ++ read) rest) t) = some p → pumped.cursor ≤ p := by
      intro t p hp
      rw [← namedItems_append] at hp
      have := cursor_le_pend sub.cursor sub.emittedThrough frontier hsim hp
      rwa [heq] at this
    have hcut : ∀ x ∈ namedItems deserialize norm m xs read, x.pos < pumped.cursor := by
      intro x hx
      obtain ⟨r, hr, hpos⟩ := mem_namedItems hx
      rw [hpos]
      exact hread.lsn_lt hr
    have hle : sub.emittedThrough ≤ pumped.emittedThrough := by
      rw [hemitted]
      exact le_maxFrom
    have hadv := hold.advance hasc hlaw hle ?_ ?_ hcut hpend
    · rw [hnew, ← map_append] at hadv
      rw [namedItems_append, namedItems_append, append_assoc xs]
      exact hadv
    · rw [hnew, hemitted]
      intro y hy
      obtain ⟨ev, hev, rfl⟩ := mem_map.mp hy
      exact mem_le_maxFrom (mem_map_of_mem hev)
    · rw [hnew, hemitted]
      rcases hlast with hl | hl
      · exact .inl hl
      · obtain ⟨ev, hev, hlsn⟩ := mem_map.mp hl
        exact .inr ⟨_, mem_map_of_mem hev, hlsn⟩

/-- A batch keeps the invariant, whether it is delivered or fails. -/
lemma Inv.pump (h : Inv deserialize norm m f) (hil : Interleaved f.wal.records) :
    Inv deserialize norm m (f.step deserialize m .pump) := by
  obtain ⟨hsound, hready, xs, ys, zs, hpos⟩ := h
  have hil' : Interleaved (xs ++ ys) := by
    rw [hpos.records] at hil
    exact hil.of_append
  have hsame : Inv deserialize norm m f := ⟨hsound, hready, xs, ys, zs, hpos⟩
  unfold Feed.step Subscription.pump FeedStreamer.pump
  dsimp only
  by_cases hbase : f.sub.cursor < f.wal.baseLsn
  · rw [if_pos hbase]
    exact hsame
  · rw [if_neg hbase]
    by_cases hend : f.wal.flushedLsn ≤ f.sub.cursor
    · rw [if_pos hend]
      simpa using hsame
    · rw [if_neg hend]
      cases hdec : f.streamer.decoder.decode deserialize f.wal f.sub.cursor
          (min f.wal.flushedLsn (f.sub.cursor + f.streamer.maxBytes)) with
      | mk res decoder =>
        obtain ⟨hready', hok⟩ :=
          decode_spec hsound hready hpos (min_le_left _ _) hdec hil'
        cases res with
        | error err => exact ⟨hsound, hready', xs, ys, zs, hpos⟩
        | ok decoded =>
          obtain ⟨w, rfl, hwalk⟩ := hok decoded rfl
          obtain ⟨xs', ys', hpos'⟩ := hpos.deliver hwalk hil'
            (mk.eta (p := deliver f.sub.cursor f.sub.emittedThrough
              f.wal.flushedLsn w.finish)).symm
          exact ⟨hsound, hready', xs', ys', zs, hpos'⟩

/-- Every action keeps the invariant. -/
lemma Inv.step (h : Inv deserialize norm m f) (hil : Interleaved f.wal.records) (a : Action) :
    Inv deserialize norm m (f.step deserialize m a) := by
  cases a with
  | pump => exact h.pump hil
  | append txnId prevLsn kind =>
    obtain ⟨hsound, hready, xs, ys, zs, hpos⟩ := h
    obtain ⟨zs', hpos'⟩ := hpos.append txnId prevLsn kind
    refine ⟨hsound.append .., ⟨hready.mapping, ?_, hready.covered⟩, xs, ys, zs', hpos'⟩
    change Covers m (shapesIn (f.wal.records ++ [_])) _ _
    rw [shapesIn_append]
    refine hready.covers.grow fun s hs => ?_
    obtain ⟨r, hr, hshape⟩ := mem_shapesIn.mp hs
    obtain rfl := mem_singleton.mp hr
    rw [shapeOf_lsn hshape]
    exact hready.covered.trans hsound.flushed_le
  | flush =>
    obtain ⟨hsound, hready, xs, ys, zs, hpos⟩ := h
    exact ⟨hsound.flush, ⟨hready.mapping, hready.covers, hready.covered.trans (le_max_left _ _)⟩,
      xs, _, [], hpos.flush hsound⟩
  | restart maxBytes =>
    obtain ⟨hsound, -, hpos⟩ := h
    exact ⟨hsound, ready_new _, hpos⟩
  | crash maxBytes =>
    obtain ⟨hsound, -, xs, ys, zs, hpos⟩ := h
    exact ⟨sound_durable hsound hpos, ready_new _, xs, ys, [], hpos.durable hsound⟩

end

/-! ## Runs -/

/-- The log after the actions; what the reader does leaves it as it is. -/
def Action.onLog (wal : WalManager) : Action → WalManager
  | .append txnId prevLsn kind => (wal.append txnId prevLsn kind).2
  | .flush => wal.flush
  | .crash _ => durable wal
  | .pump | .restart _ => wal

def logOf (actions : List Action) : WalManager := actions.foldl Action.onLog .new

/-- At all times the log is one of interleaved transactions. -/
def Orderly (actions : List Action) : Prop :=
  ∀ before ∈ actions.inits, Interleaved (logOf before).records

instance (actions : List Action) : Decidable (Orderly actions) :=
  inferInstanceAs (Decidable (∀ before ∈ actions.inits, Interleaved (logOf before).records))

section

variable {deserialize : Schema → List UInt8 → Except FerroError Row}
  {norm : RunEntity → RunEntity} {m : Mapping} {maxBytes : ℕ} {actions before : List Action}
  {a : Action} {rs : List LogRecord}

lemma Orderly.of_isPrefix (h : Orderly actions) (hpre : before <+: actions) : Orderly before :=
  fun _ hb => h _ ((mem_inits _ _).mpr (((mem_inits _ _).mp hb).trans hpre))

lemma wal_run : (Feed.run deserialize m maxBytes actions).wal = logOf actions := by
  have hstep : ∀ f : Feed, ∀ a, (f.step deserialize m a).wal = a.onLog f.wal := by
    intro f a
    cases a with
    | pump =>
      unfold Feed.step
      dsimp only
      split <;> rfl
    | append | flush | restart | crash => rfl
  induction actions using reverseRecOn with
  | nil => rfl
  | append_singleton actions a ih =>
    rw [Feed.run, foldl_concat, hstep, logOf, foldl_concat]
    exact congrArg (Action.onLog · a) ih

variable (deserialize norm m maxBytes) in
lemma inv_run (h : Orderly actions) :
    Inv deserialize norm m (Feed.run deserialize m maxBytes actions) := by
  induction actions using reverseRecOn with
  | nil => exact inv_init
  | append_singleton actions a ih =>
    have hpre : actions <+: actions ++ [a] := prefix_append _ _
    have hil : Interleaved (Feed.run deserialize m maxBytes actions).wal.records := by
      rw [wal_run]
      exact h _ ((mem_inits _ _).mpr hpre)
    rw [Feed.run, foldl_concat]
    exact (ih (h.of_isPrefix hpre)).step hil a

variable (deserialize m maxBytes) in
/-- What was received, named in one way, begins the committed events. -/
lemma named_begins (h : Orderly actions) (hnamed : NamedAlike norm (logOf actions).records) :
    (Feed.run deserialize m maxBytes actions).sink.map (naming norm) <+:
      (committedEvents deserialize m (logOf actions).records).map (naming norm) := by
  obtain ⟨hsound, -, xs, ys, zs, hpos⟩ := inv_run deserialize norm m maxBytes h
  have hrec := hpos.records
  rw [wal_run] at hrec
  have hres := hpos.resumable (hnamed.mono (by rw [hrec]; exact subset_append_left _ _))
  have hasc : Ascending (namedItems deserialize norm m [] (xs ++ ys)) :=
    namedItems_ascending hpos.framed.ascending
  have hitems : namedItems deserialize norm m [] (xs ++ ys) =
      namedItems deserialize norm m [] xs ++ namedItems deserialize norm m xs ys :=
    namedItems_append
  rw [hitems] at hasc
  have hpre := (hres.isPrefix hasc).map snd
  rw [map_map, ← hitems, namedItems, released_map, map_map] at hpre
  refine hpre.trans ?_
  have hgrow := (committedEvents_mono : committedEvents deserialize m (xs ++ ys) <+:
    committedEvents deserialize m (xs ++ ys ++ zs)).map (naming norm)
  rwa [committedEvents, map_map, ← hrec] at hgrow

lemma logOf_sound (h : Orderly actions) : (logOf actions).Sound := by
  have := (inv_run (fun _ _ => .ok []) id ⟨fun _ => none, fun _ => false⟩ 0 h).sound
  rwa [wal_run] at this

lemma naming_id : naming id = id := by
  funext e
  simp [naming]

/-- Whatever happens, what was received begins the committed events but for the sessions named; no
change is received twice, and none of a transaction that aborted or is open. In a log that names
every run with one start, what was received begins the committed events. -/
theorem feed_begins_committed (h : Orderly actions) :
    ((Feed.run deserialize m maxBytes actions).sink.map (naming anySession) <+:
      (committedEvents deserialize m (logOf actions).records).map
        (naming anySession)) ∧
    (OneSession (logOf actions).records →
      (Feed.run deserialize m maxBytes actions).sink <+:
        committedEvents deserialize m (logOf actions).records) ∧
    (committedEvents deserialize m (logOf actions).records).Pairwise
      (·.commitLsn ≤ ·.commitLsn) ∧
    ((Feed.run deserialize m maxBytes actions).sink.map ChangeEvent.lsn).Nodup ∧
    ∀ e ∈ (Feed.run deserialize m maxBytes actions).sink, e.op.isWrite →
      (∃ r ∈ (logOf actions).records, r.txnId = e.txnId ∧ r.kind = .commit) ∧
        ∀ r ∈ (logOf actions).records, r.txnId = e.txnId → r.kind ≠ .abort := by
  have hasc := (logOf_sound h).framed.ascending
  have hil : Interleaved (logOf actions).records :=
    h _ ((mem_inits _ _).mpr prefix_rfl)
  have hpre := named_begins deserialize m maxBytes h (namedAlike_anySession _)
  refine ⟨hpre, fun hone => ?_, committedEvents_sorted hasc, ?_, fun e he hwrite => ?_⟩
  · have := named_begins deserialize m maxBytes h hone
    rwa [naming_id, map_id, map_id] at this
  · have hlsn := hpre.map ChangeEvent.lsn
    rw [map_map, map_map] at hlsn
    exact (committedEvents_nodup hasc hil).sublist hlsn.sublist
  · obtain ⟨e', he', hname⟩ := mem_map.mp (hpre.subset (mem_map_of_mem he))
    have htxn : e'.txnId = e.txnId := (congrArg ChangeEvent.txnId hname :)
    have hop : e'.op = e.op := (congrArg ChangeEvent.op hname :)
    obtain ⟨r, -, -, -, ⟨-, c, hc, hctxn, hcommit⟩ | ⟨hschema, -⟩⟩ := mem_committedEvents hasc he'
    · refine ⟨⟨c, hc, hctxn.trans htxn, hcommit⟩, fun r hr hrtxn habort => ?_⟩
      obtain ⟨p, hp⟩ := Option.isSome_iff_exists.mp (hil e.txnId)
      have hknow := says_of_phaseOf hp
      have h₁ := hknow.committed ⟨c, hc, hctxn.trans htxn, hcommit⟩
      rcases hknow.aborted ⟨r, hr, hrtxn, habort⟩ with h₂ | h₂ <;> cases h₁.symm.trans h₂
    · rw [hop, hwrite] at hschema
      cases hschema

end

/-! ## Two sessions of one run -/

/-- A session of a run that began at `startedAt`. -/
def sessionOf (startedAt : ℕ) : RunEntity := ⟨1, "a", "r", "m", "v", [], startedAt, .trunk⟩

/-- The stored row of a table that has an integer for its only column. -/
def keyRow (key : ℕ) : List UInt8 := Tuple.header 0 ++ [0] ++ Tuple.fixed 4 4 25 key

/-- A transaction that inserts a row and commits it in the name of the session. -/
def insertsAs (txnId startedAt : ℕ) : List Action :=
  [.append txnId 0 .begin, .append txnId 0 (.heapInsert 1 3 txnId (keyRow txnId)),
    .append txnId 0 (.runIdentity (sessionOf startedAt)), .append txnId 0 .commit]

def oneTable : Mapping :=
  ⟨fun root => if root = 1 then some ⟨"t", ⟨[⟨"k", .integer, false⟩]⟩⟩ else none, fun _ => false⟩

/-- A row of integers, as `Tuple::deserialize` reads it. -/
def integerRow (schema : Schema) (bytes : List UInt8) : Except FerroError Row := do
  return (← Tuple.deserialize bytes schema).map fun
    | .integer i => .integer i.toInt
    | _ => .null

/-- The events received when the log of two transactions is read in batches of some size. -/
def receivedFrom (secondStart maxBytes : ℕ) : Feed :=
  Feed.run integerRow oneTable maxBytes
    (insertsAs 1 10 ++ insertsAs 2 secondStart ++ [.flush, .pump, .pump])

theorem feed_begins_one_session :
    Orderly (insertsAs 1 10 ++ insertsAs 2 10 ++ [.flush, .pump, .pump]) ∧
      (receivedFrom 10 246).sink.length = 2 ∧
      (receivedFrom 10 246).sink <+:
        committedEvents integerRow oneTable
          (logOf (insertsAs 1 10 ++ insertsAs 2 10 ++ [.flush, .pump, .pump])).records := by
  have h : Orderly (insertsAs 1 10 ++ insertsAs 2 10 ++ [.flush, .pump, .pump]) := by
    decide +kernel
  exact ⟨h, by decide +kernel, (feed_begins_committed h).2.1 (by decide +kernel)⟩

/-- Read in one batch, the second transaction's change is in the name of the first session; read in
two batches it is in the name of its own. No sequence of events begins with both. -/
theorem feed_names_other_session :
    Orderly (insertsAs 1 10 ++ insertsAs 2 20 ++ [.flush, .pump, .pump]) ∧
      ¬ ∃ events, (receivedFrom 20 (2 ^ 20)).sink <+: events ∧
        (receivedFrom 20 246).sink <+: events := by
  refine ⟨by decide +kernel, ?_⟩
  rintro ⟨events, h₁, h₂⟩
  have hlen : (receivedFrom 20 (2 ^ 20)).sink.length = (receivedFrom 20 246).sink.length := by
    decide +kernel
  have hne : (receivedFrom 20 (2 ^ 20)).sink ≠ (receivedFrom 20 246).sink := by decide +kernel
  exact hne ((prefix_of_prefix_length_le h₁ h₂ hlen.le).eq_of_length hlen)

end FerroDb.Replication
