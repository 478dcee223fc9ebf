import FerroDb.Cluster.Wire

/-!
# Frames off a socket

`FrameReader` of `consensus/transport.rs`: a tag, a length of four bytes and so many bytes more. A
read brings as much as the socket pleases, or nothing for now, and the reader keeps what has come of
a frame until the rest comes. Whatever the reads bring, the frames are those of the stream
(`framesOf`), and a stream that ends or is refused does so behind the same frames.

What the buffers hold behind the bytes that have come is not kept, and neither are the failures of
the socket itself.
-/

namespace FerroDb.Cluster

open List Option

abbrev WireFrame := UInt8 × List UInt8

inductive Poll where
  | pending
  | frame (f : WireFrame)
  | eof

/-- What is still to come, and how the next reads go: `none` brings nothing for now, and `some n` at
most `n + 1` bytes. Once the peer has closed, a read brings no bytes. -/
structure Socket where
  rest : List UInt8
  reads : List (Option ℕ)

/-- How many of the reads bring something. -/
def Socket.data (s : Socket) : ℕ := s.reads.countP (·.isSome)

def Socket.readSome (s : Socket) (room : ℕ) : Option (List UInt8) × Socket :=
  match s.reads with
  | [] => (none, s)
  | none :: reads => (none, ⟨s.rest, reads⟩)
  | some n :: reads =>
    (some (s.rest.take (min room (n + 1))), ⟨s.rest.drop (min room (n + 1)), reads⟩)

def closedInHeader (got : ℕ) : FerroError :=
  .wal (s!"the peer closed after {got} byte(s) of a 5-byte frame header; a frame that stops " ++
    "inside its own length is refused rather than completed from whatever arrives next")

def closedInBody (have_ want : ℕ) : FerroError :=
  .wal s!"the peer closed {have_} byte(s) into a {want}-byte frame body"

def claimsTooMuch (len : ℕ) : FerroError :=
  .wal s!"a consensus frame claims {len} bytes, over the {Wire.maxFrameBytes} limit"

/-- The bytes of the header and of the body that have come, and the length of the body. -/
structure FrameReader where
  header : List UInt8
  body : List UInt8
  bodyWant : ℕ

namespace FrameReader

abbrev Polled := Except FerroError Poll × FrameReader × Socket

def new : FrameReader := ⟨[], [], 0⟩

def deliver (r : FrameReader) (s : Socket) : Polled :=
  (.ok (.frame (r.header.headD 0, r.body)), new, s)

def pollBody (r : FrameReader) (s : Socket) : Polled :=
  if r.body.length < r.bodyWant then
    match s.readSome (r.bodyWant - r.body.length) with
    | (none, s) => (.ok .pending, r, s)
    | (some [], s) => (.error (closedInBody r.body.length r.bodyWant), r, s)
    | (some (b :: bs), s) =>
      let r := { r with body := r.body ++ b :: bs }
      if r.body.length < r.bodyWant then (.ok .pending, r, s) else r.deliver s
  else r.deliver s

def poll (r : FrameReader) (s : Socket) : Polled :=
  if r.header.length < 5 then
    match s.readSome (5 - r.header.length) with
    | (none, s) => (.ok .pending, r, s)
    | (some [], s) =>
      (if r.header.length = 0 then .ok .eof else .error (closedInHeader r.header.length), r, s)
    | (some (b :: bs), s) =>
      let r := { r with header := r.header ++ b :: bs }
      if r.header.length < 5 then (.ok .pending, r, s)
      else
        let len := ofBeBytes (r.header.drop 1)
        if Wire.maxFrameBytes < len then (.error (claimsTooMuch len), r, s)
        else pollBody { r with body := [], bodyWant := len } s
  else r.pollBody s

/-! ## The frames of a stream -/

/-- What becomes of a stream that comes in whole: its frames, and why it was refused if it was. -/
def framesOf : List UInt8 → List WireFrame × Option FerroError
  | [] => ([], none)
  | tag :: a :: b :: c :: d :: rest =>
    let len := ofBeBytes [a, b, c, d]
    if Wire.maxFrameBytes < len then ([], some (claimsTooMuch len))
    else if rest.length < len then ([], some (closedInBody rest.length len))
    else
      let more := framesOf (rest.drop len)
      ((tag, rest.take len) :: more.1, more.2)
  | bytes => ([], some (closedInHeader bytes.length))
termination_by bytes => bytes.length
decreasing_by
  simp only [length_drop, length_cons]
  omega

/-- What has come of a frame that is not complete. -/
def held (r : FrameReader) : List UInt8 := r.header ++ r.body

/-- The reader between two polls. -/
inductive Partway : FrameReader → Prop
  | header {header : List UInt8} (h : header.length < 5) : Partway ⟨header, [], 0⟩
  | body {header body : List UInt8} {want : ℕ} (h : header.length = 5)
      (hwant : want = ofBeBytes (header.drop 1)) (hmax : want ≤ Wire.maxFrameBytes)
      (hlt : body.length < want) : Partway ⟨header, body, want⟩

/-- The bytes a frame was read from. -/
def bytesOf (f : WireFrame) : List UInt8 := f.1 :: beBytes 4 f.2.length ++ f.2

/-- At least one read went by, if there was one, and none that brought something brought nothing. -/
structure Used (s s' : Socket) : Prop where
  le : s'.reads.length ≤ s.reads.length
  lt : s.reads ≠ [] → s'.reads.length < s.reads.length
  data : s.data + s'.rest.length ≤ s'.data + s.rest.length

/-- What a poll makes of the bytes that were held and those still to come: it loses none of them,
and what it answers is what stands in them. -/
def Polls (s₀ : Socket) (bytes : List UInt8) : Polled → Prop
  | (.ok .pending, r, s) => Used s₀ s ∧ r.Partway ∧ bytes = r.held ++ s.rest
  | (.ok (.frame f), r, s) => Used s₀ s ∧ r = new ∧ bytes = bytesOf f ++ s.rest ∧
    framesOf bytes = (f :: (framesOf s.rest).1, (framesOf s.rest).2)
  | (.ok .eof, _, _) => bytes = []
  | (.error e, _, _) => framesOf bytes = ([], some e)

variable {r : FrameReader} {s s' s₀ : Socket} {bytes header body : List UInt8} {want : ℕ}

lemma exists_five (h : header.length = 5) : ∃ tag a b c d, header = [tag, a, b, c, d] := by
  rcases header with _ | ⟨tag, _ | ⟨a, _ | ⟨b, _ | ⟨c, _ | ⟨d, _ | ⟨e, header⟩⟩⟩⟩⟩⟩ <;> simp_all

lemma framesOf_short (h : header.length < 5) (hne : header ≠ []) :
    framesOf header = ([], some (closedInHeader header.length)) := by
  rcases header with _ | ⟨tag, _ | ⟨a, _ | ⟨b, _ | ⟨c, _ | ⟨d, header⟩⟩⟩⟩⟩
  case cons.cons.cons.cons.cons => simp only [length_cons] at h; omega
  all_goals simp_all [framesOf]

lemma Used.trans (h : Used s₀ s) (h' : Used s s') : Used s₀ s' :=
  ⟨h'.le.trans h.le, fun hne => h'.le.trans_lt (h.lt hne), by linarith [h.data, h'.data]⟩

/-- The bytes that a read brings come off the stream in order, and none only at its end. -/
lemma rest_readSome {room : ℕ} {out : Option (List UInt8)} (hroom : 0 < room)
    (h : s.readSome room = (out, s')) : s.rest = out.getD [] ++ s'.rest ∧
      (out.getD []).length ≤ room ∧ (out = some [] → s.rest = []) ∧
      (out ≠ some [] → Used s s') := by
  unfold Socket.readSome at h
  split at h <;> obtain ⟨rfl, rfl⟩ := Prod.mk.inj h
  · exact ⟨rfl, Nat.zero_le _, nofun, fun _ => ⟨le_rfl, by simp_all, le_rfl⟩⟩
  · refine ⟨rfl, Nat.zero_le _, nofun, fun _ => ?_⟩
    constructor <;> simp_all [Socket.data]
  · rename_i n reads hreads
    refine ⟨(take_append_drop _ _).symm, by simp, fun hnil => ?_, fun hne => ?_⟩
    · have hlen := congrArg length (some.inj hnil)
      rw [length_take, length_nil] at hlen
      exact length_eq_zero_iff.mp (by omega)
    · have hpos : 0 < s.rest.length := length_pos_iff.mpr fun hnil => hne (by simp [hnil])
      refine ⟨by simp [hreads], by simp [hreads], ?_⟩
      simp only [Socket.data, hreads, countP_cons, isSome_some, if_true, length_drop]
      omega

lemma polls_deliver (h : header.length = 5) (hlen : body.length = ofBeBytes (header.drop 1))
    (hmax : body.length ≤ Wire.maxFrameBytes) (hused : Used s₀ s) :
    Polls s₀ (header ++ body ++ s.rest) (deliver ⟨header, body, want⟩ s) := by
  obtain ⟨tag, a, b, c, d, rfl⟩ := exists_five h
  have hlen' : body.length = ofBeBytes [a, b, c, d] := hlen
  refine ⟨hused, rfl, ?_, ?_⟩
  · have hbytes := beBytes_ofBeBytes [a, b, c, d]
    rw [← hlen'] at hbytes
    simp only [bytesOf, headD_cons]
    rw [show beBytes 4 body.length = [a, b, c, d] from hbytes]
  · simp only [cons_append, framesOf, ← hlen']
    rw [if_neg (not_lt.mpr hmax)]
    simp

lemma polls_pollBody (h : header.length = 5) (hwant : want = ofBeBytes (header.drop 1))
    (hmax : want ≤ Wire.maxFrameBytes) (hle : body.length ≤ want)
    (hused : body.length < want ∧ s₀ = s ∨ Used s₀ s) :
    Polls s₀ (header ++ body ++ s.rest) (pollBody ⟨header, body, want⟩ s) := by
  have hread {s' : Socket} (h : Used s s') : Used s₀ s' :=
    hused.elim (fun heq => heq.2 ▸ h) (·.trans h)
  unfold pollBody
  dsimp only
  split_ifs with hlt
  · have hroom : 0 < want - body.length := by omega
    split
    · rename_i s' hout
      obtain ⟨hrest, -, -, hs'⟩ := rest_readSome hroom hout
      exact ⟨hread (hs' nofun), .body h hwant hmax hlt, by simpa [held] using hrest⟩
    · rename_i s' hout
      obtain ⟨-, -, hnil, -⟩ := rest_readSome hroom hout
      obtain ⟨tag, a, b, c, d, rfl⟩ := exists_five h
      have hwant' : want = ofBeBytes [a, b, c, d] := hwant
      simp only [Polls, hnil rfl, append_nil, cons_append, nil_append, framesOf, ← hwant']
      rw [if_neg (not_lt.mpr hmax), if_pos hlt]
    · rename_i b bs s' hout
      obtain ⟨hrest, hroom', -, hs'⟩ := rest_readSome hroom hout
      have hbytes : header ++ body ++ s.rest = header ++ (body ++ b :: bs) ++ s'.rest := by
        simpa using hrest
      have hle' : (body ++ b :: bs).length ≤ want := by
        simp only [getD_some] at hroom'
        rw [length_append]
        omega
      rw [hbytes]
      split_ifs with hlt'
      · exact ⟨hread (hs' nofun), .body h hwant hmax hlt', rfl⟩
      · have hlen : (body ++ b :: bs).length = want := le_antisymm hle' (not_lt.mp hlt')
        exact polls_deliver h (hlen.trans hwant) (hlen ▸ hmax) (hread (hs' nofun))
  · have hlen : body.length = want := le_antisymm hle (not_lt.mp hlt)
    exact polls_deliver h (hlen.trans hwant) (hlen ▸ hmax) (hused.resolve_left (hlt ·.1))

lemma polls_poll (hr : r.Partway) : Polls s (r.held ++ s.rest) (r.poll s) := by
  cases hr with
  | body h hwant hmax hlt =>
    rw [poll, if_neg (by simp [h])]
    exact polls_pollBody h hwant hmax hlt.le (.inl ⟨hlt, rfl⟩)
  | @header header h =>
    rw [poll, if_pos h, held, append_nil]
    have hroom : 0 < 5 - header.length := by omega
    dsimp only
    split
    · rename_i s' hout
      obtain ⟨hrest, -, -, hs'⟩ := rest_readSome hroom hout
      exact ⟨hs' nofun, .header h, by simpa [held] using hrest⟩
    · rename_i s' hout
      obtain ⟨-, -, hnil, -⟩ := rest_readSome hroom hout
      rw [hnil rfl, append_nil]
      split_ifs with hzero
      · exact length_eq_zero_iff.mp hzero
      · exact framesOf_short h (by simpa using hzero)
    · rename_i b bs s' hout
      obtain ⟨hrest, hroom', -, hs'⟩ := rest_readSome hroom hout
      have hbytes : header ++ s.rest = (header ++ b :: bs) ++ s'.rest := by simpa using hrest
      have hle : (header ++ b :: bs).length ≤ 5 := by
        simp only [getD_some] at hroom'
        rw [length_append]
        omega
      rw [hbytes]
      split_ifs with hlt hlong
      · exact ⟨hs' nofun, .header hlt, by simp [held]⟩
      · obtain ⟨tag, x, y, z, w, heq⟩ := exists_five (le_antisymm hle (not_lt.mp hlt))
        rw [heq] at hlong ⊢
        simp only [Polls, cons_append, framesOf]
        exact if_pos hlong
      · have hpolls : Polls s (header ++ b :: bs ++ [] ++ s'.rest) (pollBody ⟨_, [], _⟩ s') :=
          polls_pollBody (le_antisymm hle (not_lt.mp hlt)) rfl (not_lt.mp hlong)
            (Nat.zero_le _) (.inr (hs' nofun))
        rwa [append_nil] at hpolls

/-! ## Any number of polls -/

inductive Ending where
  | waiting (r : FrameReader) (s : Socket)
  | closed
  | refused (e : FerroError)

/-- Poll so many times, as far as the stream goes, and keep the frames. -/
def pollTimes : ℕ → FrameReader → Socket → List WireFrame × Ending
  | 0, r, s => ([], .waiting r s)
  | n + 1, r, s =>
    match r.poll s with
    | (.ok .pending, r, s) => pollTimes n r s
    | (.ok (.frame f), r, s) => (f :: (pollTimes n r s).1, (pollTimes n r s).2)
    | (.ok .eof, _, _) => ([], .closed)
    | (.error e, _, _) => ([], .refused e)

/-- The frames are those that the bytes start with, and what comes after them is still there. -/
def Yields (bytes : List UInt8) (fs : List WireFrame) : Ending → Prop
  | .waiting r s => bytes = fs.flatMap bytesOf ++ (r.held ++ s.rest) ∧ framesOf bytes =
    (fs ++ (framesOf (r.held ++ s.rest)).1, (framesOf (r.held ++ s.rest)).2)
  | .closed => bytes = fs.flatMap bytesOf ∧ framesOf bytes = (fs, none)
  | .refused e => framesOf bytes = (fs, some e)

lemma partway_new : new.Partway := .header (by decide)

lemma yields_pollTimes {n : ℕ} (hr : r.Partway) :
    Yields (r.held ++ s.rest) (pollTimes n r s).1 (pollTimes n r s).2 := by
  induction n generalizing r s with
  | zero => simp [pollTimes, Yields]
  | succ n ih =>
    have hpoll := polls_poll (s := s) hr
    rw [pollTimes]
    generalize r.poll s = out at hpoll
    rcases out with ⟨e | _ | f | _, r', s'⟩
    · exact hpoll
    · obtain ⟨-, hr', hbytes⟩ := hpoll
      rw [hbytes]
      exact ih hr'
    · obtain ⟨-, rfl, hbytes, hframes⟩ := hpoll
      have hnew : Yields s'.rest (pollTimes n new s').1 (pollTimes n new s').2 :=
        ih partway_new
      dsimp only
      generalize pollTimes n new s' = out at hnew
      obtain ⟨fs, r' | _ | e⟩ := out
      · exact ⟨by rw [hbytes, hnew.1]; simp, by rw [hframes, hnew.2]; rfl⟩
      · exact ⟨by rw [hbytes, hnew.1]; simp, by rw [hframes, hnew.2]⟩
      · exact hframes.trans (by rw [show framesOf s'.rest = (fs, some e) from hnew])
    · have hnil : r.held ++ s.rest = [] := hpoll
      rw [hnil]
      exact ⟨rfl, by rw [framesOf]⟩

lemma used_pollTimes {n : ℕ} (hr : r.Partway) {r' : FrameReader}
    (h : (pollTimes n r s).2 = .waiting r' s') (hn : s.reads.length ≤ n) :
    s.data ≤ s.rest.length := by
  induction n generalizing r s with
  | zero =>
    rw [Socket.data, length_eq_zero_iff.mp (Nat.le_zero.mp hn)]
    exact Nat.zero_le _
  | succ n ih =>
    have hpoll := polls_poll (s := s) hr
    rw [pollTimes] at h
    by_cases hnil : s.reads = []
    · simp [Socket.data, hnil]
    generalize r.poll s = out at hpoll h
    rcases out with ⟨e | _ | f | _, r'', s''⟩
    · cases h
    · obtain ⟨hused, hr', -⟩ := hpoll
      have hlt := hused.lt hnil
      have hdata := hused.data
      have := ih hr' h (by omega)
      omega
    · obtain ⟨hused, rfl, -⟩ := hpoll
      have hlt := hused.lt hnil
      have hdata := hused.data
      have := ih partway_new h (by omega)
      omega
    · cases h

/-- Whatever the reads bring, the polls answer with the frames of the stream, in order, and lose no
byte; and once more reads have brought something than there are bytes, they are through. -/
theorem framing_is_that_of_the_stream (bytes : List UInt8) (reads : List (Option ℕ)) (n : ℕ) :
    Yields bytes (pollTimes n new ⟨bytes, reads⟩).1 (pollTimes n new ⟨bytes, reads⟩).2 ∧
      (bytes.length < reads.countP (·.isSome) → reads.length ≤ n →
        ∀ r s, (pollTimes n new ⟨bytes, reads⟩).2 ≠ .waiting r s) := by
  refine ⟨yields_pollTimes partway_new, fun hdata hn r s h => ?_⟩
  exact absurd (used_pollTimes partway_new h hn) (not_le.mpr hdata)

end FrameReader

end FerroDb.Cluster
