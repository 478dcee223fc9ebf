import FerroDb.Branch.Record
import FerroDb.Cluster.LogFile
import FerroDb.Library.Cursor

/-!
# The bytes of a branch record

A record is written as its fields in order, big-endian, with a checksum behind them, after
`BranchRecord::serialize` and `deserialize`. Reading gives back what was written, if every field
fits the width it is written in.
-/

namespace FerroDb.Branch

open Cluster (beBytes ofBeBytes ofBeBytes_beBytes length_beBytes crc32)
open Library Library.Cursor List

/-! ## Writing -/

def BranchState.asU8 : BranchState → UInt8
  | live => 0
  | reaping => 1
  | reaped => 2
  | quarantined => 3

def BranchState.fromU8 (v : UInt8) : Except BranchError BranchState :=
  if v = 0 then .ok live
  else if v = 1 then .ok reaping
  else if v = 2 then .ok reaped
  else if v = 3 then .ok quarantined
  else .error (.corrupt s!"unknown branch state {v.toNat}")

/-- The 64 bits of an `i64`. -/
def i64Bits (i : ℤ) : ℕ := (i % 2 ^ 64).toNat

def floorBytes (floor : Option ℤ) : List UInt8 :=
  match floor with
  | none => 0 :: beBytes 8 0
  | some f => 1 :: beBytes 8 (i64Bits f)

namespace ColumnCapability

def serialize (c : ColumnCapability) : List UInt8 := beBytes 4 c.col ++ floorBytes c.floor

end ColumnCapability

namespace TableCapability

def serialize (t : TableCapability) : List UInt8 :=
  beBytes 4 t.table ++ beBytes 4 t.columns.length ++ t.columns.flatMap ColumnCapability.serialize

end TableCapability

namespace CapabilityEnvelope

def serialize (e : CapabilityEnvelope) : List UInt8 :=
  UInt8.ofBitVec e.verbs :: beBytes 8 e.maxRowWrites ++ beBytes 8 e.rowWrites ++
    beBytes 4 e.tables.length ++ e.tables.flatMap TableCapability.serialize

end CapabilityEnvelope

def parentBytes (parentId : Option BranchId) : List UInt8 :=
  match parentId with
  | some p => 1 :: beBytes 8 p.id ++ beBytes 4 p.generation
  | none => 0 :: beBytes 8 0 ++ beBytes 4 0

def envelopeBytes (envelope : Option CapabilityEnvelope) : List UInt8 :=
  match envelope with
  | none => [0]
  | some e => 1 :: e.serialize

namespace BranchRecord

/-- The fields up to the list of children. -/
def headBytes (r : BranchRecord) : List UInt8 :=
  beBytes 8 r.branchId.id ++ beBytes 4 r.branchId.generation ++ beBytes 4 r.generation ++
    parentBytes r.parentId ++ beBytes 8 r.forkEpoch ++ beBytes 4 r.rootPageId ++
    beBytes 8 r.leaseDeadline ++ [r.state.asU8, UInt8.ofNat (min r.depth 255)] ++
    beBytes 4 r.arenas.length ++ r.arenas.flatMap (beBytes 4) ++
    beBytes 4 r.liveChildren.length ++ r.liveChildren.flatMap (beBytes 8)

def body (r : BranchRecord) : List UInt8 :=
  r.headBytes ++ envelopeBytes r.envelope ++ beBytes 4 r.depth

def serialize (r : BranchRecord) : List UInt8 := r.body ++ beBytes 4 (crc32 r.body).toNat

end BranchRecord

/-! ## Reading -/

abbrev RecordCursor := Cursor UInt8 BranchError

namespace RecordCursor

def take (n : ℕ) : RecordCursor (List UInt8) :=
  Cursor.take (fun pos => .corrupt s!"branch record truncated at byte {pos} (wanted {n})") n

def u8 : RecordCursor UInt8 := do return (← take 1).headD 0

def u32 : RecordCursor ℕ := do return ofBeBytes (← take 4)

def u64 : RecordCursor ℕ := do return ofBeBytes (← take 8)

def i64 : RecordCursor ℤ := do return (ofBeBytes (← take 8) : ℤ).bmod (2 ^ 64)

end RecordCursor

open RecordCursor

def refuseTag (msg : String) {α : Type} : RecordCursor α := fun _ _ => .error (.corrupt msg)

def readFloor (table col : ℕ) : RecordCursor (Option ℤ) := do
  let tag ← u8
  if tag = 0 then
    let _ ← i64
    return none
  else if tag = 1 then return some (← i64)
  else refuseTag s!"unknown capability floor tag {tag.toNat} on table {table} column {col}"

def readColumn (table : ℕ) : RecordCursor ColumnCapability := do
  let col ← u32
  return ⟨col, ← readFloor table col⟩

def readTable : RecordCursor (ℕ × List ColumnCapability) := do
  let table ← u32
  let count ← u32
  return (table, ← many (readColumn table) count)

namespace CapabilityEnvelope

def deserializeFrom : RecordCursor CapabilityEnvelope := do
  let verbs ← u8
  let maxRowWrites ← u64
  let rowWrites ← u64
  let count ← u32
  let tables ← many readTable count
  let e := tables.foldl (fun e t => e.allow t.1 t.2) (new verbs.toBitVec maxRowWrites)
  return { e with rowWrites := rowWrites }

end CapabilityEnvelope

def readParent : RecordCursor (Option BranchId) := do
  let hasParent ← u8
  let id ← u64
  let generation ← u32
  return if hasParent = 1 then some ⟨id, generation⟩ else none

def readState : RecordCursor BranchState := do
  match BranchState.fromU8 (← u8) with
  | .ok state => pure state
  | .error e => fun _ _ => .error e

namespace BranchRecord

/-- The fields up to the list of children, with the depth that fits a byte. -/
def readHead : RecordCursor BranchRecord := do
  let id ← u64
  let genAtBirth ← u32
  let generation ← u32
  let parentId ← readParent
  let forkEpoch ← u64
  let rootPageId ← u32
  let leaseDeadline ← u64
  let state ← readState
  let depthByte ← u8
  let arenaLen ← u32
  let arenas ← many u32 arenaLen
  let childLen ← u32
  let liveChildren ← many u64 childLen
  return {
    branchId := ⟨id, genAtBirth⟩, generation, parentId, forkEpoch, rootPageId, leaseDeadline,
    state, arenas, liveChildren, depth := depthByte.toNat, envelope := none }

def readTaggedEnvelope : RecordCursor (Option CapabilityEnvelope) := do
  let tag ← u8
  if tag = 0 then pure none
  else if tag = 1 then some <$> CapabilityEnvelope.deserializeFrom
  else refuseTag s!"unknown capability envelope tag {tag.toNat}"

/-- Records of earlier builds end before the envelope. -/
def readEnvelope (bodyLen : ℕ) : RecordCursor (Option CapabilityEnvelope) := do
  let pos ← position
  if bodyLen ≤ pos then pure none else readTaggedEnvelope

/-- Records of earlier builds have no more of the depth than a byte. -/
def readDepth (bodyLen depthByte : ℕ) : RecordCursor ℕ := do
  let pos ← position
  if bodyLen ≤ pos then pure depthByte else u32

def readBody (bodyLen : ℕ) : RecordCursor BranchRecord := do
  let head ← readHead
  let envelope ← readEnvelope bodyLen
  let depth ← readDepth bodyLen head.depth
  let stop ← position
  if stop ≠ bodyLen then
    -- The subtraction wraps where the fields reached into the checksum.
    refuseTag (s!"branch record has {(bodyLen + 2 ^ 64 - stop) % 2 ^ 64} byte(s) after the last " ++
      "field this build understands")
  else return { head with envelope := envelope, depth := depth }

def deserialize (bytes : List UInt8) : Except BranchError BranchRecord :=
  if bytes.length < 4 then .error (.corrupt "record shorter than its checksum")
  else
    let bodyLen := bytes.length - 4
    if (crc32 (bytes.take bodyLen)).toNat ≠ ofBeBytes (bytes.drop bodyLen) then
      .error (.corrupt "branch record checksum mismatch")
    else (readBody bodyLen bytes 0).map Prod.fst

end BranchRecord

/-! ## Fields that fit -/

def ColumnCapability.Fits (c : ColumnCapability) : Prop :=
  c.col < 2 ^ 32 ∧ ∀ f, c.floor = some f → -2 ^ 63 ≤ f ∧ f < 2 ^ 63

structure TableCapability.Fits (t : TableCapability) : Prop where
  table : t.table < 2 ^ 32
  columns : ∀ c ∈ t.columns, c.Fits

structure CapabilityEnvelope.Fits (e : CapabilityEnvelope) : Prop where
  maxRowWrites : e.maxRowWrites < 2 ^ 64
  rowWrites : e.rowWrites < 2 ^ 64
  tables : ∀ t ∈ e.tables, t.Fits

/-- Every number is of the width the source gives it. -/
structure BranchRecord.Fits (r : BranchRecord) : Prop where
  id : r.branchId.id < 2 ^ 64
  birth : r.branchId.generation < 2 ^ 32
  generation : r.generation < 2 ^ 32
  parent : ∀ p, r.parentId = some p → p.id < 2 ^ 64 ∧ p.generation < 2 ^ 32
  forkEpoch : r.forkEpoch < 2 ^ 64
  rootPageId : r.rootPageId < 2 ^ 32
  leaseDeadline : r.leaseDeadline < 2 ^ 64
  arenas : ∀ a ∈ r.arenas, a < 2 ^ 32
  liveChildren : ∀ e ∈ r.liveChildren, e < 2 ^ 64
  depth : r.depth < 2 ^ 32
  envelope : ∀ e, r.envelope = some e → e.Fits

/-- The number of tables and columns fits the four bytes it is written in. -/
structure CapabilityEnvelope.Counted (e : CapabilityEnvelope) : Prop where
  tables : e.tables.length < 2 ^ 32
  columns : ∀ t ∈ e.tables, t.columns.length < 2 ^ 32

/-- The length of every list fits the four bytes it is written in. -/
structure BranchRecord.Counted (r : BranchRecord) : Prop where
  arenas : r.arenas.length < 2 ^ 32
  liveChildren : r.liveChildren.length < 2 ^ 32
  envelope : ∀ e, r.envelope = some e → e.Counted

/-! ## Reading what was written -/

variable {α : Type} {enc : α → List UInt8} {xs : List α} {n v i j : ℕ}

lemma length_le_flatMap
    (h : ∀ x ∈ xs, 0 < (enc x).length) : xs.length ≤ (xs.flatMap enc).length := by
  induction xs with
  | nil => simp
  | cons x xs ih =>
    rw [forall_mem_cons] at h
    have := ih h.2
    rw [flatMap_cons, length_append, length_cons]
    omega

lemma length_le_of_mem_flatMap {x : α}
    (h : x ∈ xs) : (enc x).length ≤ (xs.flatMap enc).length := by
  obtain ⟨before, after, rfl⟩ := append_of_mem h
  simp only [flatMap_append, flatMap_cons, length_append]
  omega

lemma reads_bytes {xs : List UInt8} (h : xs.length = n) : Reads (RecordCursor.take n) xs xs :=
  reads_take _ h

lemma reads_u8 (v : UInt8) : Reads u8 [v] v := by
  have h : Reads (RecordCursor.take 1) [v] [v] := reads_bytes rfl
  exact h.bind_pure (g := fun bytes => bytes.headD 0)

lemma reads_u32 (hv : v < 2 ^ 32) : Reads u32 (beBytes 4 v) v := by
  have h := (reads_bytes (length_beBytes 4 v)).bind_pure (g := ofBeBytes)
  rwa [ofBeBytes_beBytes (n := 4) hv] at h

lemma reads_u64 (hv : v < 2 ^ 64) : Reads u64 (beBytes 8 v) v := by
  have h := (reads_bytes (length_beBytes 8 v)).bind_pure (g := ofBeBytes)
  rwa [ofBeBytes_beBytes (n := 8) hv] at h

lemma i64Bits_lt (f : ℤ) : i64Bits f < 2 ^ 64 := by
  unfold i64Bits
  omega

lemma reads_i64 {f : ℤ} (hlo : -2 ^ 63 ≤ f) (hhi : f < 2 ^ 63) :
    Reads i64 (beBytes 8 (i64Bits f)) f := by
  have h := (reads_bytes (length_beBytes 8 (i64Bits f))).bind_pure
    (g := fun bytes => (ofBeBytes bytes : ℤ).bmod (2 ^ 64))
  have hval : ((i64Bits f : ℕ) : ℤ).bmod (2 ^ 64) = f := by
    rw [i64Bits, Int.bmod_def]
    omega
  rwa [ofBeBytes_beBytes (n := 8) (i64Bits_lt f), hval] at h

lemma reads_floor {floor : Option ℤ} (table col : ℕ)
    (hf : ∀ f, floor = some f → -2 ^ 63 ≤ f ∧ f < 2 ^ 63) :
    Reads (readFloor table col) (floorBytes floor) floor := by
  cases floor with
  | none =>
    have hzero : Reads i64 (beBytes 8 0) 0 := reads_i64 (f := 0) (by decide) (by decide)
    exact (reads_u8 0).bind (hzero.bind_pure (g := fun _ => none))
  | some f =>
    obtain ⟨hlo, hhi⟩ := hf f rfl
    exact (reads_u8 1).bind ((reads_i64 hlo hhi).bind_pure (g := some))

lemma reads_column {c : ColumnCapability} (hc : c.Fits) (table : ℕ) :
    Reads (readColumn table) c.serialize c :=
  (reads_u32 hc.1).bind ((reads_floor table c.col hc.2).bind_pure
    (g := fun floor => ColumnCapability.mk c.col floor))

lemma reads_table {t : TableCapability} (ht : t.Fits) (hcount : t.columns.length < 2 ^ 32) :
    Reads readTable t.serialize (t.table, t.columns) := by
  have hcolumns : Reads (many (readColumn t.table) t.columns.length)
      (t.columns.flatMap ColumnCapability.serialize) t.columns := by
    simpa using reads_many id fun c hc => reads_column (ht.columns c hc) t.table
  exact (reads_u32 ht.table).bind ((reads_u32 hcount).bind
    (hcolumns.bind_pure (g := fun columns => (t.table, columns))))

/-! ## Tables put back in their places -/

lemma insertTable_last {cap : TableCapability} {ts : List TableCapability}
    (h : ∀ t ∈ ts, t.table < cap.table) : insertTable cap ts = ts ++ [cap] := by
  induction ts with
  | nil => rfl
  | cons t ts ih =>
    rw [forall_mem_cons] at h
    rw [insertTable, if_neg (by omega), if_neg (by omega), ih h.2, cons_append]

lemma TableCapability.new_self (t : TableCapability) : new t.table t.columns = t := by
  obtain ⟨table, columns, hsorted⟩ := t
  have hbefore : columns.Pairwise ColumnCapability.Before := hsorted.imp fun h => .inl h
  have hne := (hsorted.imp fun h => h.ne).isChain
  simp only [new, TableCapability.mk.injEq, true_and]
  rw [hbefore.insertionSort_eq, destutter_of_isChain _ _ hne]

lemma CapabilityEnvelope.foldl_allow (ts : List TableCapability) :
    ∀ e : CapabilityEnvelope, (∀ a ∈ e.tables, ∀ b ∈ ts, a.table < b.table) →
      ts.Pairwise (fun a b => a.table < b.table) →
      let e' := (ts.map fun t => (t.table, t.columns)).foldl (fun e t => e.allow t.1 t.2) e
      e'.tables = e.tables ++ ts ∧ e'.verbs = e.verbs ∧ e'.maxRowWrites = e.maxRowWrites := by
  induction ts with
  | nil => exact fun e _ _ => ⟨by simp, rfl, rfl⟩
  | cons t ts ih =>
    intro e hlt hsorted
    rw [pairwise_cons] at hsorted
    have htables : (e.allow t.table t.columns).tables = e.tables ++ [t] := by
      change insertTable (.new t.table t.columns) e.tables = _
      rw [TableCapability.new_self]
      exact insertTable_last fun a ha => hlt a ha t mem_cons_self
    obtain ⟨h₁, h₂, h₃⟩ := ih (e.allow t.table t.columns) (fun a ha b hb => by
      rw [htables, mem_append, mem_singleton] at ha
      rcases ha with ha | rfl
      · exact hlt a ha b (.tail _ hb)
      · exact hsorted.1 b hb) hsorted.2
    refine ⟨?_, h₂, h₃⟩
    rw [map_cons, foldl_cons, h₁, htables, append_assoc, singleton_append]

lemma CapabilityEnvelope.eq_of_fields {a b : CapabilityEnvelope} (hv : a.verbs = b.verbs)
    (ht : a.tables = b.tables) (hm : a.maxRowWrites = b.maxRowWrites)
    (hr : a.rowWrites = b.rowWrites) : a = b := by
  cases a
  simp_all

lemma CapabilityEnvelope.reads {e : CapabilityEnvelope} (he : e.Fits) (hc : e.Counted) :
    Reads deserializeFrom e.serialize e := by
  have htables := reads_many _ fun t ht => reads_table (he.tables t ht) (hc.columns t ht)
  let rebuilt (tables : List (ℕ × List ColumnCapability)) : CapabilityEnvelope :=
    { tables.foldl (fun e t => e.allow t.1 t.2) (new e.verbs e.maxRowWrites) with
      rowWrites := e.rowWrites }
  have heq : rebuilt (e.tables.map fun t => (t.table, t.columns)) = e := by
    obtain ⟨h₁, h₂, h₃⟩ :=
      foldl_allow e.tables (new e.verbs e.maxRowWrites) (by simp [new]) e.sorted
    exact eq_of_fields h₂ h₁ h₃ rfl
  have hend := htables.bind_pure (g := rebuilt)
  rw [heq] at hend
  exact (reads_u8 (UInt8.ofBitVec e.verbs)).bind ((reads_u64 he.maxRowWrites).bind
    ((reads_u64 he.rowWrites).bind ((reads_u32 hc.tables).bind hend)))

/-! ## The round trip -/

lemma reads_parent {parentId : Option BranchId}
    (hp : ∀ p, parentId = some p → p.id < 2 ^ 64 ∧ p.generation < 2 ^ 32) :
    Reads readParent (parentBytes parentId) parentId := by
  cases parentId with
  | none =>
    exact (reads_u8 0).bind ((reads_u64 (v := 0) (by decide)).bind
      ((reads_u32 (v := 0) (by decide)).bind_pure (g := fun _ => none)))
  | some p =>
    obtain ⟨hid, hgen⟩ := hp p rfl
    exact (reads_u8 1).bind ((reads_u64 hid).bind
      ((reads_u32 hgen).bind_pure (g := fun generation => some (BranchId.mk p.id generation))))

lemma reads_state (state : BranchState) : Reads readState [state.asU8] state := by
  have h : Reads (match BranchState.fromU8 state.asU8 with
      | .ok state => pure state
      | .error e => fun _ _ => .error e : RecordCursor BranchState) [] state := by
    cases state <;> exact reads_pure
  exact (reads_u8 state.asU8).bind h

namespace BranchRecord

variable {r : BranchRecord} {items : List UInt8}

lemma reads_head (hr : r.Fits) (hc : r.Counted) : Reads readHead r.headBytes
      { r with depth := (UInt8.ofNat (min r.depth 255)).toNat, envelope := none } := by
  have harenas : Reads (many u32 r.arenas.length) (r.arenas.flatMap (beBytes 4)) r.arenas := by
    simpa using reads_many id fun a h => reads_u32 (hr.arenas a h)
  have hchildren : Reads (many u64 r.liveChildren.length) (r.liveChildren.flatMap (beBytes 8))
      r.liveChildren := by
    simpa using reads_many id fun e h => reads_u64 (hr.liveChildren e h)
  have hend := hchildren.bind_pure (g := fun liveChildren =>
    { r with
      liveChildren := liveChildren
      depth := (UInt8.ofNat (min r.depth 255)).toNat
      envelope := none })
  unfold headBytes
  simp only [append_assoc]
  exact (reads_u64 hr.id).bind ((reads_u32 hr.birth).bind ((reads_u32 hr.generation).bind
    ((reads_parent hr.parent).bind ((reads_u64 hr.forkEpoch).bind ((reads_u32 hr.rootPageId).bind
    ((reads_u64 hr.leaseDeadline).bind ((reads_state r.state).bind ((reads_u8 _).bind
    ((reads_u32 hc.arenas).bind (harenas.bind ((reads_u32 hc.liveChildren).bind hend)))))))))))

lemma reads_taggedEnvelope (hr : r.Fits) (hc : r.Counted) :
    Reads readTaggedEnvelope (envelopeBytes r.envelope) r.envelope := by
  cases h : r.envelope with
  | none => exact (reads_u8 0).bind reads_pure
  | some e =>
    have hread := CapabilityEnvelope.reads (hr.envelope e h) (hc.envelope e h)
    exact (reads_u8 1).bind (hread.bind_pure (g := some))

lemma runs_envelope {v : Option CapabilityEnvelope}
    (hi : i < n) (h : Runs readTaggedEnvelope items i v j) : Runs (readEnvelope n) items i v j := by
  refine runs_position.bind ?_
  rwa [if_neg (by omega)]

lemma runs_depth (depthByte : ℕ) (hi : i < n)
    (h : Runs u32 items i v j) : Runs (readDepth n depthByte) items i v j := by
  refine runs_position.bind ?_
  rwa [if_neg (by omega)]

/-- What stands behind the checksum of its own bytes is read by the body's reader. -/
lemma deserialize_sealed {body : List UInt8}
    (h : ∀ tail, Runs (readBody body.length) (body ++ tail) 0 r body.length) :
    deserialize (body ++ beBytes 4 (crc32 body).toNat) = .ok r := by
  set bytes := body ++ beBytes 4 (crc32 body).toNat with hbytes
  have hlen : bytes.length - 4 = body.length := by simp [hbytes]
  have hbody : bytes.take body.length = body := by simp [hbytes]
  have hcrc : ofBeBytes (bytes.drop body.length) = (crc32 body).toNat := by
    rw [drop_left]
    exact ofBeBytes_beBytes (n := 4) (UInt32.toNat_lt _)
  rw [deserialize, if_neg (by simp [hbytes]), hlen]
  simp only [hbody, hcrc, ne_eq]
  rw [show readBody body.length bytes 0 = _ from h _]
  rfl

/-- The fields up to the children, then what more there is of the body. -/
lemma runs_body (hr : r.Fits) (hc : r.Counted) {rest : List UInt8} {depth : ℕ}
    {envelope : Option CapabilityEnvelope}
    (henvelope : Runs (readEnvelope n) (r.headBytes ++ rest) r.headBytes.length envelope j)
    (hdepth : Runs (readDepth n (UInt8.ofNat (min r.depth 255)).toNat) (r.headBytes ++ rest) j
      depth n) : Runs (readBody n) (r.headBytes ++ rest) 0
      { r with envelope := envelope, depth := depth } n := by
  have hhead := reads_head hr hc [] rest
  refine hhead.bind (henvelope.bind (hdepth.bind (runs_position.bind ?_)))
  rw [if_neg (not_not.mpr rfl)]
  exact runs_pure

/-- Lists are counted in four bytes, which is no restriction on what is shorter than `2 ^ 32`
bytes altogether. -/
lemma counted_of_length (h : r.serialize.length < 2 ^ 32) : r.Counted := by
  have ha : r.arenas.length ≤ (r.arenas.flatMap (beBytes 4)).length :=
    length_le_flatMap fun a _ => by simp
  have hc : r.liveChildren.length ≤ (r.liveChildren.flatMap (beBytes 8)).length :=
    length_le_flatMap fun a _ => by simp
  simp only [serialize, body, headBytes, length_append] at h
  refine ⟨by omega, by omega, fun e he => ?_⟩
  simp only [he, envelopeBytes, CapabilityEnvelope.serialize, length_cons,
    length_append] at h
  have ht : e.tables.length ≤ (e.tables.flatMap TableCapability.serialize).length :=
    length_le_flatMap fun t _ => by simp [TableCapability.serialize]
  refine ⟨by omega, fun t hmem => ?_⟩
  have hle : t.serialize.length ≤ (e.tables.flatMap TableCapability.serialize).length :=
    length_le_of_mem_flatMap hmem
  have hcol : t.columns.length ≤ (t.columns.flatMap ColumnCapability.serialize).length :=
    length_le_flatMap fun c _ => by simp [ColumnCapability.serialize]
  simp only [TableCapability.serialize, length_append] at hle
  omega

/-- Reading a record gives back what was written. -/
lemma deserialize_counted (hr : r.Fits) (hc : r.Counted) : deserialize r.serialize = .ok r := by
  refine deserialize_sealed fun tail => ?_
  have htagged := reads_taggedEnvelope hr hc r.headBytes (beBytes 4 r.depth ++ tail)
  have hu32 := reads_u32 hr.depth (r.headBytes ++ envelopeBytes r.envelope) tail
  have hlen : r.body.length = r.headBytes.length + ((envelopeBytes r.envelope).length + 4) := by
    simp [body]
  have hitems : r.body ++ tail =
      r.headBytes ++ (envelopeBytes r.envelope ++ (beBytes 4 r.depth ++ tail)) := by
    simp [body]
  rw [hitems]
  simp only [append_assoc, length_append, length_beBytes, ← hlen] at htagged hu32
  exact runs_body hr hc (runs_envelope (by omega) htagged) (runs_depth _ (by omega) hu32)

lemma deserialize_serialize (hr : r.Fits) (hsize : r.serialize.length < 2 ^ 32) :
    deserialize r.serialize = .ok r :=
  deserialize_counted hr (counted_of_length hsize)

end BranchRecord

end FerroDb.Branch
