import FerroDb.Branch.RecordLayout
import FerroDb.Branch.TableCatalog
import FerroDb.Library.BinarySearch

/-!
# What the decoders of a branch record accept

The layouts that `BranchRecord::deserialize` and `deserialize_core` read, the ones of earlier builds
included, with every place where the source could stop with a panic: an index out of range, and a
subtraction that goes below zero. The lists of a decoded envelope are searched by halving.

## Main definitions

* `BranchRecord.serializeCore`, `deserializeCore`: the record as a tree stores it.
* `BranchRecord.deserializeChecked`: the decoder in a build that checks its arithmetic.
* `TableCapability.columnSearch`, `CapabilityEnvelope.tableSearch`: the lookups of the source.
-/

namespace FerroDb.Branch

open Cluster (beBytes ofBeBytes ofBeBytes_beBytes length_beBytes crc32)
open Library Library.Cursor RecordCursor List BinarySearch CapabilityEnvelope Except

/-! ## The core of a record -/

def coreBytes : ℕ := 54

/-- `depth` was one byte in earlier builds. -/
def coreBytesU8Depth : ℕ := coreBytes - 3

namespace BranchRecord

def coreHead (r : BranchRecord) : List UInt8 :=
  beBytes 8 r.branchId.id ++ beBytes 4 r.branchId.generation ++ beBytes 4 r.generation ++
    parentBytes r.parentId ++ beBytes 8 r.forkEpoch ++ beBytes 4 r.rootPageId ++
    beBytes 8 r.leaseDeadline ++ [r.state.asU8]

def serializeCore (r : BranchRecord) : List UInt8 := r.coreHead ++ beBytes 4 r.depth

end BranchRecord

/-- `none` is a panic. -/
def deserializeCore (bytes : List UInt8) : Option (Except BranchError CoreRecord) :=
  if bytes.length ≠ coreBytes ∧ bytes.length ≠ coreBytesU8Depth then
    some (.error (.corrupt (s!"core branch record must be {coreBytes} bytes (or " ++
      s!"{coreBytesU8Depth} from a build before the depth field widened), got {bytes.length}")))
  else do
    let id ← numberAt bytes 0 8
    let birth ← numberAt bytes 8 4
    let generation ← numberAt bytes 12 4
    let hasParent ← byteAt bytes 16
    let parentId ←
      if hasParent = 1 then do
        let id ← numberAt bytes 17 8
        let generation ← numberAt bytes 25 4
        pure (some (BranchId.mk id generation))
      else pure none
    let forkEpoch ← numberAt bytes 29 8
    let rootPageId ← numberAt bytes 37 4
    let leaseDeadline ← numberAt bytes 41 8
    let stateByte ← byteAt bytes 49
    match BranchState.fromU8 stateByte with
    | .error e => return .error e
    | .ok state =>
      let depth ←
        if bytes.length = coreBytes then numberAt bytes 50 4
        else (byteAt bytes 50).map UInt8.toNat
      return .ok ⟨⟨id, birth⟩, generation, parentId, forkEpoch, rootPageId, leaseDeadline, state,
        depth⟩

section Slices

variable {x : UInt8} {xs : List UInt8} {i k n v : ℕ}

lemma sliceAt_skip (h : k ≤ i) : sliceAt (beBytes k v ++ xs) i n = sliceAt xs (i - k) n := by
  have hlen : i + n ≤ k + xs.length ↔ i - k + n ≤ xs.length := by omega
  have hdrop : (beBytes k v ++ xs).drop i = xs.drop (i - k) := by
    rw [drop_append, drop_eq_nil_of_le (by simpa using h), nil_append,
      length_beBytes]
  simp [sliceAt, hlen, hdrop]

lemma sliceAt_cons (h : 0 < i) : sliceAt (x :: xs) i n = sliceAt xs (i - 1) n := by
  obtain ⟨i, rfl⟩ : ∃ j, i = j + 1 := ⟨i - 1, by omega⟩
  simp only [sliceAt, length_cons]
  congr 1
  exact propext (by omega)

lemma numberAt_here (hv : v < 256 ^ n) : numberAt (beBytes n v ++ xs) 0 n = some v := by
  have hlen : 0 + n ≤ (beBytes n v ++ xs).length := by simp
  rw [numberAt, sliceAt, if_pos hlen, drop_zero, take_left' (length_beBytes n v),
    Option.map_some, ofBeBytes_beBytes hv]

lemma numberAt_skip (h : k ≤ i) : numberAt (beBytes k v ++ xs) i n = numberAt xs (i - k) n := by
  rw [numberAt, sliceAt_skip h, ← numberAt]

lemma numberAt_cons (h : 0 < i) : numberAt (x :: xs) i n = numberAt xs (i - 1) n := by
  rw [numberAt, sliceAt_cons h, ← numberAt]

lemma byteAt_skip (h : k ≤ i) : byteAt (beBytes k v ++ xs) i = byteAt xs (i - k) := by
  rw [byteAt, sliceAt_skip h, ← byteAt]

lemma byteAt_cons (h : 0 < i) : byteAt (x :: xs) i = byteAt xs (i - 1) := by
  rw [byteAt, sliceAt_cons h, ← byteAt]

lemma byteAt_here : byteAt (x :: xs) 0 = some x := by simp [byteAt, sliceAt]

end Slices

lemma BranchState.fromU8_asU8 (s : BranchState) : fromU8 s.asU8 = .ok s := by
  cases s <;> rfl

lemma BranchRecord.length_coreHead (r : BranchRecord) : r.coreHead.length = 50 := by
  cases hp : r.parentId <;> simp [coreHead, parentBytes, hp]

lemma parentBytes_eq {parentId : Option BranchId}
    (hp : ∀ p, parentId = some p → p.id < 2 ^ 64 ∧ p.generation < 2 ^ 32) :
    ∃ tag id generation, parentBytes parentId = tag :: (beBytes 8 id ++ beBytes 4 generation) ∧
      id < 2 ^ 64 ∧ generation < 2 ^ 32 ∧
      parentId = if tag = 1 then some ⟨id, generation⟩ else none := by
  cases parentId with
  | none => exact ⟨0, 0, 0, rfl, by decide, by decide, rfl⟩
  | some p => exact ⟨1, p.id, p.generation, rfl, (hp p rfl).1, (hp p rfl).2, rfl⟩

/-- The fields before the depth are read from their places. -/
lemma deserializeCore_coreHead {r : BranchRecord} (hr : r.Fits) {tail : List UInt8} {depth : ℕ}
    (htail : tail.length = 4 ∧ numberAt tail 0 4 = some depth ∨
      tail.length = 1 ∧ byteAt tail 0 = some (UInt8.ofNat depth) ∧ depth < 256) :
    deserializeCore (r.coreHead ++ tail) =
      some (.ok { CoreRecord.narrow r with depth := depth }) := by
  have hlen : (r.coreHead ++ tail).length = 50 + tail.length := by
    rw [length_append, r.length_coreHead]
  have hguard : ¬((r.coreHead ++ tail).length ≠ coreBytes ∧
      (r.coreHead ++ tail).length ≠ coreBytesU8Depth) := by
    simp only [coreBytes, coreBytesU8Depth]
    omega
  have hwide : (r.coreHead ++ tail).length = coreBytes ↔ tail.length = 4 := by
    simp only [coreBytes]
    omega
  obtain ⟨tag, id, generation, hparent, hid, hgen, hp⟩ := parentBytes_eq hr.parent
  have hbytes : r.coreHead ++ tail = beBytes 8 r.branchId.id ++ (beBytes 4 r.branchId.generation ++
      (beBytes 4 r.generation ++ (tag :: (beBytes 8 id ++ (beBytes 4 generation ++
      (beBytes 8 r.forkEpoch ++ (beBytes 4 r.rootPageId ++ (beBytes 8 r.leaseDeadline ++
      r.state.asU8 :: tail)))))))) := by
    simp [BranchRecord.coreHead, hparent]
  have hdepth : (if tail.length = 4 then numberAt tail 0 4
      else (byteAt tail 0).map UInt8.toNat) = some depth := by
    rcases htail with ⟨h4, hnum⟩ | ⟨h1, hbyte, hlt⟩
    · rw [if_pos h4, hnum]
    · rw [if_neg (by omega), hbyte, Option.map_some, UInt8.toNat_ofNat_of_lt' hlt]
  rw [deserializeCore, if_neg hguard]
  simp only [hwide]
  rw [hbytes]
  split_ifs at hdepth with h4 <;> by_cases h1 : tag = 1 <;>
    simp [numberAt_skip, numberAt_cons, byteAt_skip, byteAt_cons, byteAt_here, hdepth, h4, h1, hp,
      numberAt_here (n := 8) hr.id, numberAt_here (n := 4) hr.birth,
      numberAt_here (n := 8) hid, numberAt_here (n := 4) hgen,
      numberAt_here (n := 4) hr.generation, numberAt_here (n := 8) hr.forkEpoch,
      numberAt_here (n := 4) hr.rootPageId, numberAt_here (n := 8) hr.leaseDeadline,
      BranchState.fromU8_asU8, CoreRecord.narrow]

/-- Whatever the bytes, no index is out of range. -/
lemma isSome_deserializeCore (bytes : List UInt8) : (deserializeCore bytes).isSome = true := by
  by_cases hlen : bytes.length ≠ coreBytes ∧ bytes.length ≠ coreBytesU8Depth
  · rw [deserializeCore, if_pos hlen]
    rfl
  · have hge : 51 ≤ bytes.length := by
      simp only [coreBytes, coreBytesU8Depth] at hlen
      omega
    have hnum (i n : ℕ) (h : i + n ≤ 51) : ∃ v, numberAt bytes i n = some v :=
      ⟨_, congrArg (Option.map ofBeBytes) (if_pos (h.trans hge))⟩
    have hbyte (i : ℕ) (h : i + 1 ≤ 51) : ∃ v, byteAt bytes i = some v :=
      ⟨_, congrArg (Option.map _) (if_pos (h.trans hge))⟩
    obtain ⟨id, hid⟩ := hnum 0 8 (by decide)
    obtain ⟨birth, hbirth⟩ := hnum 8 4 (by decide)
    obtain ⟨generation, hgeneration⟩ := hnum 12 4 (by decide)
    obtain ⟨tag, htag⟩ := hbyte 16 (by decide)
    obtain ⟨parent, hparent⟩ := hnum 17 8 (by decide)
    obtain ⟨parentGen, hparentGen⟩ := hnum 25 4 (by decide)
    obtain ⟨forkEpoch, hfork⟩ := hnum 29 8 (by decide)
    obtain ⟨root, hroot⟩ := hnum 37 4 (by decide)
    obtain ⟨lease, hlease⟩ := hnum 41 8 (by decide)
    obtain ⟨stateByte, hstate⟩ := hbyte 49 (by decide)
    obtain ⟨depth, hdepth⟩ : ∃ depth, (if bytes.length = coreBytes then numberAt bytes 50 4
        else (byteAt bytes 50).map UInt8.toNat) = some depth := by
      split_ifs with hwide
      · exact ⟨_, congrArg (Option.map ofBeBytes) (if_pos hwide.ge)⟩
      · obtain ⟨v, hv⟩ := hbyte 50 (by decide)
        exact ⟨v.toNat, by rw [hv]; rfl⟩
    rw [deserializeCore, if_neg hlen]
    split_ifs at hdepth with hwide <;> cases hs : BranchState.fromU8 stateByte <;>
      by_cases h1 : tag = 1 <;>
      simp [hid, hbirth, hgeneration, htag, hparent, hparentGen, hfork, hroot, hlease, hstate, hs,
        hwide, hdepth, h1]

/-! ## Records of earlier builds -/

variable {i j : ℕ} {bytes : List UInt8}

namespace BranchRecord

variable {r : BranchRecord}

lemma runs_endOfBody (items : List UInt8) (n depthByte : ℕ) :
    Runs (readEnvelope n) items n none n ∧ Runs (readDepth n depthByte) items n depthByte n := by
  refine ⟨runs_position.bind ?_, runs_position.bind ?_⟩ <;>
  · rw [if_pos le_rfl]
    exact runs_pure

/-- The depth that earlier builds wrote. -/
def byteDepth (r : BranchRecord) : ℕ := (UInt8.ofNat (min r.depth 255)).toNat

lemma byteDepth_eq_iff : r.byteDepth = r.depth ↔ r.depth < 256 := by
  rw [byteDepth, UInt8.toNat_ofNat_of_lt' (show min r.depth 255 < 256 by omega)]
  omega

/-- From before there were envelopes. -/
lemma deserialize_beforeEnvelope (hr : r.Fits) (hc : r.Counted) :
    deserialize (r.headBytes ++ beBytes 4 (crc32 r.headBytes).toNat) =
      .ok { r with envelope := none, depth := r.byteDepth } := by
  refine deserialize_sealed fun tail => ?_
  obtain ⟨henvelope, hdepth⟩ := runs_endOfBody (r.headBytes ++ tail) r.headBytes.length r.byteDepth
  exact runs_body hr hc henvelope hdepth

/-- From before the depth was more than a byte. -/
lemma deserialize_beforeDepth (hr : r.Fits) (hc : r.Counted) :
    let body := r.headBytes ++ envelopeBytes r.envelope
    deserialize (body ++ beBytes 4 (crc32 body).toNat) = .ok { r with depth := r.byteDepth } := by
  refine deserialize_sealed fun tail => ?_
  have henv : 0 < (envelopeBytes r.envelope).length := by
    cases h : r.envelope <;> simp [envelopeBytes]
  have htagged := reads_taggedEnvelope hr hc r.headBytes tail
  have hdepth := (runs_endOfBody (r.headBytes ++ (envelopeBytes r.envelope ++ tail))
    (r.headBytes ++ envelopeBytes r.envelope).length r.byteDepth).2
  rw [append_assoc] at htagged ⊢
  exact runs_body hr hc (runs_envelope (by rw [length_append]; omega) htagged) hdepth

/-! ## Panics -/

/-- `deserialize` in a build that checks its arithmetic. `none` is a panic: the number of bytes
left over is computed before it is known that there are any. -/
def deserializeChecked (bytes : List UInt8) : Option (Except BranchError BranchRecord) :=
  if bytes.length < 4 then some (.error (.corrupt "record shorter than its checksum"))
  else
    let bodyLen := bytes.length - 4
    if (crc32 (bytes.take bodyLen)).toNat ≠ ofBeBytes (bytes.drop bodyLen) then
      some (.error (.corrupt "branch record checksum mismatch"))
    else
      match readFields bodyLen bytes 0 with
      | .error e => some (.error e)
      | .ok (r, stop) =>
        if stop = bodyLen then some (.ok r)
        else if bodyLen < stop then none
        else some (.error (.corrupt (s!"branch record has {bodyLen - stop} byte(s) after the " ++
          "last field this build understands")))

lemma isSome_deserializeChecked (bytes : List UInt8) :
    (deserializeChecked bytes).isSome = true ↔ ¬Overruns bytes := by
  unfold deserializeChecked
  by_cases hlen : bytes.length < 4
  · simp [hlen, Overruns]
  by_cases hcrc : (crc32 (bytes.take (bytes.length - 4))).toNat =
      ofBeBytes (bytes.drop (bytes.length - 4))
  · rw [overruns_iff (not_lt.mp hlen) hcrc]
    cases hread : readFields (bytes.length - 4) bytes 0 with
    | error e => simp [hlen, hcrc, hread, Stops, Runs]
    | ok out =>
      obtain ⟨r, stop⟩ := out
      have hstop (k : ℕ) : Stops (readFields (bytes.length - 4)) bytes 0 k ↔ k = stop := by
        simp [Stops, Runs, hread, eq_comm]
      simp only [hlen, hcrc, hread, hstop, exists_eq_left]
      by_cases hlt : bytes.length - 4 < stop
      · simp [hlt, hlt.ne']
      · split_ifs <;> simp [hlt]
  · simp [hlen, hcrc, Overruns]

lemma counted_of_checked (h : deserializeChecked bytes = some (.ok r)) : r.Counted := by
  unfold deserializeChecked at h
  split_ifs at h with hlen
  · cases h
  dsimp only at h
  split_ifs at h with hcrc
  · cases h
  split at h
  · cases h
  · next r' stop hfields =>
    split_ifs at h
    · cases h
      exact counted_of_readFields hfields
    · cases h

lemma readFields_of_readBody {n : ℕ} {items : List UInt8} (h : Runs (readBody n) items i r j) :
    Runs (readFields n) items i r j ∧ j = n := by
  obtain ⟨head, _, hhead, h⟩ := runs_bind.mp h
  obtain ⟨envelope, _, henvelope, h⟩ := runs_bind.mp h
  obtain ⟨depth, i₃, hdepth, h⟩ := runs_bind.mp h
  have hstop : (if i₃ ≠ n then refuseTag _ else pure { head with envelope, depth } :
      RecordCursor BranchRecord) items i₃ = .ok (r, j) := h
  split_ifs at hstop with hne
  · exact absurd hstop (by simp [refuseTag])
  · obtain ⟨rfl, rfl⟩ := Prod.mk.inj (ok.inj hstop)
    exact ⟨hhead.bind (henvelope.bind (hdepth.bind runs_pure)), not_not.mp hne⟩

lemma deserializeChecked_of_ok (h : deserialize bytes = .ok r) :
    deserializeChecked bytes = some (.ok r) := by
  unfold deserialize at h
  split_ifs at h with hlen
  simp only at h
  split_ifs at h with hcrc
  obtain ⟨⟨r', stop⟩, hbody, rfl⟩ := map_ok.mp h
  obtain ⟨hfields, rfl⟩ := readFields_of_readBody hbody
  rw [Runs] at hfields
  simp only [deserializeChecked, if_neg hlen, if_neg hcrc, hfields, if_true]

end BranchRecord

/-! ## Lookups -/

/-- `TableCapability::column`. -/
def TableCapability.columnSearch (cap : TableCapability) (col : ℕ) : Option ColumnCapability :=
  match BinarySearch.search ColumnCapability.col cap.columns col with
  | .ok i => cap.columns[i]?
  | .error _ => none

namespace CapabilityEnvelope

/-- `CapabilityEnvelope::table`. -/
def tableSearch (e : CapabilityEnvelope) (table : ℕ) : Option TableCapability :=
  match BinarySearch.search TableCapability.table e.tables table with
  | .ok i => e.tables[i]?
  | .error _ => none

/-- The tables after `CapabilityEnvelope::allow`: in the place of an earlier entry, or put in. -/
def allowSearch (e : CapabilityEnvelope) (table : ℕ) (columns : List ColumnCapability) :
    List TableCapability :=
  match BinarySearch.search TableCapability.table e.tables table with
  | .ok i => e.tables.set i (.new table columns)
  | .error i => e.tables.insertIdx i (.new table columns)

end CapabilityEnvelope

lemma TableCapability.columnSearch_eq (cap : TableCapability) (col : ℕ) :
    cap.columnSearch col = cap.column col :=
  search_eq_find? cap.sorted col

namespace CapabilityEnvelope

variable (e : CapabilityEnvelope)

lemma tableSearch_eq (table : ℕ) : e.tableSearch table = e.table table :=
  search_eq_find? e.sorted table

lemma insertTable_between {cap : TableCapability} {before after : List TableCapability}
    (hlt : ∀ t ∈ before, t.table < cap.table) :
    insertTable cap (before ++ after) = before ++ insertTable cap after := by
  induction before with
  | nil => rfl
  | cons t before ih =>
    rw [forall_mem_cons] at hlt
    rw [cons_append, insertTable, if_neg (by omega), if_neg (by omega), ih hlt.2]
    rfl

/-- The tables before and after the place of one, and that it is put between them. -/
lemma allow_split (table : ℕ) (columns : List ColumnCapability) :
    ∃ before after, (∀ t ∈ before, t.table < table) ∧ (∀ t ∈ after, table < t.table) ∧
      (e.allow table columns).tables = before ++ .new table columns :: after ∧
      e.allowSearch table columns = before ++ .new table columns :: after ∧
      (e.tables = before ++ after ∨ ∃ t, t.table = table ∧ e.tables = before ++ t :: after) := by
  have hcap : (TableCapability.new table columns).table = table := rfl
  have hallow : (e.allow table columns).tables = insertTable (.new table columns) e.tables := rfl
  obtain ⟨before, after, hlt, hgt, ⟨t, ht, htables, hsearch⟩ | ⟨htables, hsearch⟩⟩ :=
    search_spec e.sorted table
  · refine ⟨before, after, hlt, hgt, ?_, ?_, .inr ⟨t, ht, htables⟩⟩
    · rw [hallow, htables, insertTable_between hlt, insertTable, hcap, if_neg (by omega),
        if_pos ht.symm]
    · simp only [allowSearch, hsearch]
      rw [htables]
      simp
  · refine ⟨before, after, hlt, hgt, ?_, ?_, .inl htables⟩
    · rw [hallow, htables, insertTable_between hlt]
      cases after with
      | nil => rfl
      | cons t after => rw [insertTable, hcap, if_pos (hgt t mem_cons_self)]
    · simp only [allowSearch, hsearch]
      rw [htables, insertIdx_length]

lemma table_allow (table other : ℕ) (columns : List ColumnCapability) :
    (e.allow table columns).table other =
      if other = table then some (.new table columns) else e.table other := by
  have hcap : (TableCapability.new table columns).table = table := rfl
  obtain ⟨before, after, hlt, -, hallow, -, htables⟩ := e.allow_split table columns
  unfold CapabilityEnvelope.table
  rw [hallow]
  split_ifs with h
  · subst h
    have hnone : before.find? (fun t => t.table = other) = none := by
      simpa using fun t ht => (hlt t ht).ne
    simp [hnone, hcap]
  · have hne : ¬table = other := fun heq => h heq.symm
    rcases htables with htables | ⟨t, ht, htables⟩
    · simp [htables, hcap, hne]
    · simp [htables, hcap, hne, ht]

/-- Of the entries of a table the last one is found. -/
lemma table_foldl_allow (entries : List (ℕ × List ColumnCapability)) (table : ℕ)
    (he : e.tables = []) : (entries.foldl (fun e t => e.allow t.1 t.2) e).table table =
      (entries.reverse.find? fun t => t.1 = table).map fun t => .new t.1 t.2 := by
  induction entries using reverseRecOn with
  | nil => simp [CapabilityEnvelope.table, he]
  | append_singleton entries t ih =>
    rw [foldl_append, foldl_cons, foldl_nil, table_allow, ih, reverse_append,
      reverse_singleton, singleton_append, find?_cons]
    by_cases h : table = t.1
    · simp [h]
    · simp [h, Ne.symm h]

/-- The entries an envelope was written with. -/
def readEntries : RecordCursor (List (ℕ × List ColumnCapability)) := do
  let _ ← u8
  let _ ← u64
  let _ ← u64
  let count ← u32
  many readTable count

lemma tableSearch_deserializeFrom {e : CapabilityEnvelope}
    (h : deserializeFrom bytes i = .ok (e, j)) : ∃ entries, readEntries bytes i = .ok (entries, j) ∧
      ∀ table, e.tableSearch table =
        (entries.reverse.find? fun t => t.1 = table).map fun t => .new t.1 t.2 := by
  obtain ⟨verbs, _, h₁, h⟩ := runs_bind.mp h
  obtain ⟨maxRowWrites, _, h₂, h⟩ := runs_bind.mp h
  obtain ⟨rowWrites, _, h₃, h⟩ := runs_bind.mp h
  obtain ⟨count, _, h₄, h⟩ := runs_bind.mp h
  obtain ⟨entries, _, h₅, h⟩ := runs_bind.mp h
  obtain ⟨rfl, rfl⟩ := Prod.mk.inj (ok.inj h)
  refine ⟨entries, h₁.bind (h₂.bind (h₃.bind (h₄.bind h₅))), fun table => ?_⟩
  rw [tableSearch_eq]
  exact table_foldl_allow (new verbs.toBitVec maxRowWrites) entries table rfl

end CapabilityEnvelope

lemma find?_destutter {l : List ColumnCapability} (col : ℕ) :
    (l.destutter fun a b => a.col ≠ b.col).find? (fun c => c.col = col) =
      l.find? fun c => c.col = col := by
  cases l with
  | nil => rfl
  | cons a l =>
    rw [destutter_cons']
    induction l generalizing a with
    | nil => rfl
    | cons b l ih =>
      rw [destutter'_cons]
      split_ifs with h
      · rw [find?_cons, ih b, find?_cons (a := a)]
      · rw [find?_cons (a := a)]
        split <;> simp_all

lemma floorLe_antisymm {a b : Option ℤ} (h : floorLe a b = true) (h' : floorLe b a = true) :
    a = b := by
  rcases a with _ | a <;> rcases b with _ | b <;> simp_all [floorLe]
  exact le_antisymm h h'

/-- Of a column that was given more than once the entry with the highest floor is found. -/
lemma TableCapability.columnSearch_new (table col : ℕ) (columns : List ColumnCapability)
    (c : ColumnCapability) : (new table columns).columnSearch col = some c ↔
      c ∈ columns ∧ c.col = col ∧ ∀ d ∈ columns, d.col = col → floorLe d.floor c.floor = true := by
  rw [columnSearch_eq]
  change ((columns.insertionSort ColumnCapability.Before).destutter _).find? _ = _ ↔ _
  rw [find?_destutter]
  have hmem (x : ColumnCapability) :
      x ∈ columns.insertionSort ColumnCapability.Before ↔ x ∈ columns :=
    (perm_insertionSort _ columns).mem_iff
  have hsorted := pairwise_insertionSort ColumnCapability.Before columns
  simp only [← hmem]
  generalize columns.insertionSort ColumnCapability.Before = l at hsorted
  have hfirst {c : ColumnCapability} (h : l.find? (fun c => c.col = col) = some c) :
      c ∈ l ∧ c.col = col ∧ ∀ d ∈ l, d.col = col → floorLe d.floor c.floor = true := by
    obtain ⟨hcol, before, after, rfl, hbefore⟩ := find?_eq_some_iff_append.mp h
    have hcol : c.col = col := of_decide_eq_true hcol
    refine ⟨by simp, hcol, fun d hd hdcol => ?_⟩
    rcases mem_append.mp hd with hd | hd
    · simpa [hdcol] using hbefore d hd
    rcases mem_cons.mp hd with rfl | hd
    · exact (floorLe_total d.floor d.floor).elim id id
    · have hc := (pairwise_cons.mp (pairwise_append.mp hsorted).2.1).1 d hd
      rcases hc with hlt | ⟨-, hfloor⟩
      · omega
      · exact hfloor
  refine ⟨hfirst, fun ⟨hin, hcol, htight⟩ => ?_⟩
  obtain ⟨found, hfound⟩ : ∃ found, l.find? (fun c => c.col = col) = some found := by
    rw [← Option.isSome_iff_exists, find?_isSome]
    exact ⟨c, hin, by simpa using hcol⟩
  obtain ⟨hin', hcol', htight'⟩ := hfirst hfound
  have hfloor := floorLe_antisymm (htight found hin' hcol') (htight' c hin hcol)
  have heq : found = c := by
    cases found
    cases c
    simp_all
  rw [hfound, heq]

/-! ## The codec -/

namespace BranchRecord

section Sealed

variable {r : BranchRecord} (hr : r.Fits)
include hr

lemma roundTrip_iff : deserializeChecked r.serialize = some (.ok r) ↔ r.Counted :=
  ⟨counted_of_checked, fun hc => deserializeChecked_of_ok (deserialize_counted hr hc)⟩

lemma roundTrip_beforeDepth_iff : let body := r.headBytes ++ envelopeBytes r.envelope
    deserializeChecked (body ++ beBytes 4 (crc32 body).toNat) = some (.ok r) ↔
      r.depth < 256 ∧ r.Counted := by
  intro body
  rw [← byteDepth_eq_iff]
  constructor
  · intro h
    have hc := counted_of_checked h
    have hread := deserializeChecked_of_ok (deserialize_beforeDepth hr hc)
    rw [h] at hread
    exact ⟨congrArg BranchRecord.depth (ok.inj (Option.some.inj hread)).symm, hc⟩
  · rintro ⟨hd, hc⟩
    have hread := deserializeChecked_of_ok (deserialize_beforeDepth hr hc)
    rwa [hd] at hread

lemma roundTrip_beforeEnvelope_iff :
    deserializeChecked (r.headBytes ++ beBytes 4 (crc32 r.headBytes).toNat) =
        some (.ok { r with envelope := none }) ↔
      r.depth < 256 ∧ BranchRecord.Counted { r with envelope := none } := by
  have hr' : BranchRecord.Fits { r with envelope := none } :=
    { hr with envelope := by rintro _ ⟨⟩ }
  rw [← byteDepth_eq_iff]
  constructor
  · intro h
    have hc := counted_of_checked h
    have hread := deserializeChecked_of_ok (deserialize_beforeEnvelope hr' hc)
    have hread := h.symm.trans hread
    exact ⟨congrArg BranchRecord.depth (ok.inj (Option.some.inj hread)).symm, hc⟩
  · rintro ⟨hd, hc⟩
    have hread := deserializeChecked_of_ok (deserialize_beforeEnvelope hr' hc)
    rw [show byteDepth { r with envelope := none } = r.depth from hd] at hread
    exact hread

end Sealed

/-- A record is read back as it was written exactly if its lists are counted, in the layouts of
earlier builds if its depth fits a byte too. Bytes that are no record are refused, and the only ones
the decoder does not survive are those whose fields run into the checksum. In what it decodes, the
lookups find the last entry of a table and of a column the highest floor. -/
theorem codec_exact (r : BranchRecord) (hr : r.Fits) (bytes : List UInt8) :
    (deserializeChecked r.serialize = some (.ok r) ↔ r.Counted) ∧
    deserializeCore r.serializeCore = some (.ok (.narrow r)) ∧
    (deserializeChecked (r.headBytes ++ beBytes 4 (crc32 r.headBytes).toNat) =
        some (.ok { r with envelope := none }) ↔
      r.depth < 256 ∧ BranchRecord.Counted { r with envelope := none }) ∧
    (let body := r.headBytes ++ envelopeBytes r.envelope
     deserializeChecked (body ++ beBytes 4 (crc32 body).toNat) = some (.ok r) ↔
      r.depth < 256 ∧ r.Counted) ∧
    (r.depth < 256 →
      deserializeCore (r.coreHead ++ [UInt8.ofNat r.depth]) = some (.ok (.narrow r))) ∧
    (deserializeCore bytes).isSome = true ∧
    ((deserializeChecked bytes).isSome = true ↔ ¬Overruns bytes) ∧
    ∀ e i j, deserializeFrom bytes i = .ok (e, j) →
      ∃ entries, readEntries bytes i = .ok (entries, j) ∧
        (∀ table, e.tableSearch table =
          (entries.reverse.find? fun t => t.1 = table).map fun t => .new t.1 t.2) ∧
        ∀ t ∈ entries, ∀ col c, (TableCapability.new t.1 t.2).columnSearch col = some c ↔
          c ∈ t.2 ∧ c.col = col ∧ ∀ d ∈ t.2, d.col = col → floorLe d.floor c.floor = true := by
  refine ⟨roundTrip_iff hr, ?_, roundTrip_beforeEnvelope_iff hr, roundTrip_beforeDepth_iff hr,
    fun hd => deserializeCore_coreHead hr (.inr ⟨rfl, byteAt_here, hd⟩),
    isSome_deserializeCore bytes, isSome_deserializeChecked bytes, fun e i j h => ?_⟩
  · refine deserializeCore_coreHead hr (.inl ⟨length_beBytes 4 _, ?_⟩)
    have hlast : numberAt (beBytes 4 r.depth ++ []) 0 4 = some r.depth := numberAt_here hr.depth
    rwa [append_nil] at hlast
  · obtain ⟨entries, hread, htables⟩ := tableSearch_deserializeFrom h
    exact ⟨entries, hread, htables, fun t _ col c => TableCapability.columnSearch_new t.1 col t.2 c⟩

/-- The trunk, and no bytes at all. -/
theorem codec_exact_trunk :
    (trunk 7 9).Fits ∧ (trunk 7 9).Counted ∧
      deserializeChecked (trunk 7 9).serialize = some (.ok (trunk 7 9)) ∧
      (deserializeCore []).isSome = true := by
  have hr : (trunk 7 9).Fits := by
    constructor <;> simp [trunk, BranchId.trunk]
  have hc : (trunk 7 9).Counted := by
    constructor <;> simp [trunk]
  have h := codec_exact (trunk 7 9) hr []
  exact ⟨hr, hc, h.1.mpr hc, h.2.2.2.2.2.1⟩

/-- The trunk as before there were envelopes, with two bytes more: a tag that says there is none,
and the first byte of a depth that is four bytes long. The checksum is right. The depth is read
with three bytes of the checksum, and what is left of the body is computed below zero. -/
theorem depth_runs_into_checksum :
    let body := (trunk 7 9).headBytes ++ [0, 0]
    (deserializeChecked (body ++ beBytes 4 (crc32 body).toNat)).isNone = true := by
  decide +kernel

end BranchRecord

end FerroDb.Branch
