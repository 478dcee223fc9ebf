import FerroDb.Branch.Codec

/-!
# Where the fields of a branch record end

The layout of a record read off its bytes: the counts and tags that stand in them say where each
field ends, and the reader of the fields stops there and nowhere else. The lists it reads are as
long as their counts, which are four bytes.
-/

namespace FerroDb.Branch

open Cluster (ofBeBytes ofBeBytes_lt crc32)
open Library Library.Cursor RecordCursor List CapabilityEnvelope Except

/-- A slice of the bytes; a range that is not there is a panic. -/
def sliceAt (bytes : List UInt8) (i n : ℕ) : Option (List UInt8) :=
  if i + n ≤ bytes.length then some ((bytes.drop i).take n) else none

def numberAt (bytes : List UInt8) (i n : ℕ) : Option ℕ := (sliceAt bytes i n).map ofBeBytes

def byteAt (bytes : List UInt8) (i : ℕ) : Option UInt8 :=
  (sliceAt bytes i 1).map fun bytes => bytes.headD 0

variable {i j : ℕ} {bytes : List UInt8}

namespace BranchRecord

variable {r : BranchRecord}

def readFields (bodyLen : ℕ) : RecordCursor BranchRecord := do
  let head ← readHead
  let envelope ← readEnvelope bodyLen
  let depth ← readDepth bodyLen head.depth
  return { head with envelope := envelope, depth := depth }

/-! ## Where the fields end -/

/-- So many tables stand from one position up to another. -/
inductive TablesAt (bytes : List UInt8) : ℕ → ℕ → ℕ → Prop
  | nil {i : ℕ} : TablesAt bytes 0 i i
  | cons {n i columns j : ℕ} (hcolumns : numberAt bytes (i + 4) 4 = some columns)
      (hfloors : ∀ k < columns, byteAt bytes (i + 8 + 13 * k + 4) ∈ [some 0, some 1])
      (hrest : TablesAt bytes n (i + 8 + 13 * columns) j) : TablesAt bytes (n + 1) i j

/-- The envelope that begins at one position ends at the other. -/
def EnvelopeAt (bytes : List UInt8) (i j : ℕ) : Prop :=
  byteAt bytes i = some 0 ∧ j = i + 1 ∨
    byteAt bytes i = some 1 ∧ ∃ n, numberAt bytes (i + 18) 4 = some n ∧ TablesAt bytes n (i + 22) j

/-- The fields up to the children end at the position. -/
def HeadAt (bytes : List UInt8) (j : ℕ) : Prop :=
  byteAt bytes 49 ∈ [some 0, some 1, some 2, some 3] ∧
    ∃ arenas children, numberAt bytes 51 4 = some arenas ∧
      numberAt bytes (55 + 4 * arenas) 4 = some children ∧ j = 59 + 4 * arenas + 8 * children

/-- The checksum is right, and the children, the envelope or the four bytes of the depth begin
before the end of the body and end in the checksum, by the counts and tags that stand in the
bytes. -/
def Overruns (bytes : List UInt8) : Prop :=
  let bodyLen := bytes.length - 4
  4 ≤ bytes.length ∧ (crc32 (bytes.take bodyLen)).toNat = ofBeBytes (bytes.drop bodyLen) ∧
    ∃ head, HeadAt bytes head ∧ (bodyLen < head ∧ head ≤ bytes.length ∨
      head < bodyLen ∧ ∃ envelope, EnvelopeAt bytes head envelope ∧
        (bodyLen < envelope ∧ envelope ≤ bytes.length ∨
          envelope < bodyLen ∧ bodyLen < envelope + 4))

lemma isSome_sliceAt {n : ℕ} : (∃ xs, sliceAt bytes i n = some xs) ↔ i + n ≤ bytes.length := by
  unfold sliceAt
  split_ifs with h <;> simp [h]

lemma runs_number {α : Type} {g : List UInt8 → α} {v : α} {n : ℕ} :
    Runs (RecordCursor.take n >>= fun xs => pure (g xs)) bytes i v j ↔
      (sliceAt bytes i n).map g = some v ∧ j = i + n := by
  change (RecordCursor.take n bytes i >>= fun out => .ok (g out.1, out.2)) = .ok (v, j) ↔ _
  unfold RecordCursor.take Cursor.take sliceAt
  split_ifs with h
  · simp only [ok_bind, ok.injEq, Prod.mk.injEq, Option.map_some, Option.some.injEq]
    exact and_congr_right fun _ => eq_comm
  · simp [bind, Except.bind]

lemma stops_number {α : Type} {g : List UInt8 → α} {n : ℕ} :
    Stops (RecordCursor.take n >>= fun xs => pure (g xs)) bytes i j ↔
      j = i + n ∧ j ≤ bytes.length := by
  simp only [Stops, runs_number, exists_and_right, Option.map_eq_some_iff]
  constructor
  · rintro ⟨⟨v, xs, hxs, -⟩, rfl⟩
    exact ⟨rfl, isSome_sliceAt.mp ⟨xs, hxs⟩⟩
  · rintro ⟨rfl, hle⟩
    obtain ⟨xs, hxs⟩ := isSome_sliceAt.mpr hle
    exact ⟨⟨_, xs, hxs, rfl⟩, rfl⟩

lemma runs_u8 {v : UInt8} : Runs u8 bytes i v j ↔ byteAt bytes i = some v ∧ j = i + 1 := runs_number

lemma runs_u32 {v : ℕ} : Runs u32 bytes i v j ↔ numberAt bytes i 4 = some v ∧ j = i + 4 :=
  runs_number

lemma stops_u8 : Stops u8 bytes i j ↔ j = i + 1 ∧ j ≤ bytes.length := stops_number

lemma stops_u32 : Stops u32 bytes i j ↔ j = i + 4 ∧ j ≤ bytes.length := stops_number

lemma stops_u64 : Stops u64 bytes i j ↔ j = i + 8 ∧ j ≤ bytes.length := stops_number

lemma stops_i64 : Stops i64 bytes i j ↔ j = i + 8 ∧ j ≤ bytes.length := stops_number

lemma stops_refuseTag {α : Type} {msg : String} : ¬Stops (refuseTag msg : RecordCursor α) bytes i j := by
  rintro ⟨v, h⟩
  cases h

lemma stops_readFloor (table col : ℕ) : Stops (readFloor table col) bytes i j ↔
    byteAt bytes i ∈ [some 0, some 1] ∧ j = i + 9 ∧ j ≤ bytes.length := by
  have hfloor (g : ℤ → Option ℤ) : Stops (i64 >>= fun f => pure (g f)) bytes (i + 1) j ↔
      j = i + 9 ∧ j ≤ bytes.length := stops_bind_pure.trans stops_i64
  rw [readFloor, stops_bind]
  simp only [runs_u8]
  constructor
  · rintro ⟨tag, _, ⟨htag, rfl⟩, h⟩
    split_ifs at h with h0 h1
    · exact ⟨by simp [htag, h0], (hfloor fun _ => none).mp h⟩
    · exact ⟨by simp [htag, h1], (hfloor some).mp h⟩
    · exact absurd h stops_refuseTag
  · rintro ⟨htag, hj⟩
    rcases (by simpa using htag : byteAt bytes i = some 0 ∨ byteAt bytes i = some 1) with htag | htag
    · exact ⟨0, _, ⟨htag, rfl⟩, (hfloor fun _ => none).mpr hj⟩
    · exact ⟨1, _, ⟨htag, rfl⟩, (hfloor some).mpr hj⟩

lemma stops_readColumn (table : ℕ) : Stops (readColumn table) bytes i j ↔
    byteAt bytes (i + 4) ∈ [some 0, some 1] ∧ j = i + 13 ∧ j ≤ bytes.length := by
  rw [readColumn, stops_skip stops_u32 fun col => stops_bind_pure.trans (stops_readFloor table col)]
  constructor
  · rintro ⟨-, h⟩
    exact h
  · rintro ⟨htag, rfl, hle⟩
    exact ⟨by omega, htag, rfl, hle⟩

lemma stops_columns {n : ℕ} (table : ℕ) (hi : i ≤ bytes.length) :
    Stops (many (readColumn table) n) bytes i j ↔
      (∀ k < n, byteAt bytes (i + 13 * k + 4) ∈ [some 0, some 1]) ∧ j = i + 13 * n ∧
        j ≤ bytes.length := by
  induction n generalizing i with
  | zero =>
    rw [many, stops_pure]
    constructor
    · rintro rfl
      exact ⟨fun k hk => absurd hk k.not_lt_zero, rfl, hi⟩
    · rintro ⟨-, h, -⟩
      exact h
  | succ n ih =>
    rw [many, stops_bind_const fun _ _ => stops_bind_pure]
    simp only [stops_readColumn]
    constructor
    · rintro ⟨_, ⟨htag, rfl, hle⟩, h⟩
      obtain ⟨htags, rfl, hj⟩ := (ih hle).mp h
      refine ⟨fun k hk => ?_, by omega, hj⟩
      cases k with
      | zero => exact htag
      | succ k =>
        have := htags k (by omega)
        rwa [show i + 13 * (k + 1) + 4 = i + 13 + 13 * k + 4 by omega]
    · rintro ⟨htags, rfl, hj⟩
      have hle : i + 13 ≤ bytes.length := by omega
      refine ⟨i + 13, ⟨htags 0 (by omega), rfl, hle⟩, (ih hle).mpr ⟨fun k hk => ?_, by omega, hj⟩⟩
      rw [show i + 13 + 13 * k + 4 = i + 13 * (k + 1) + 4 by omega]
      exact htags (k + 1) (by omega)

/-- A count, and what depends on it. -/
lemma stops_count {α : Type} {f : ℕ → RecordCursor α} {E : ℕ → Prop}
    (hf : ∀ n, i + 4 ≤ bytes.length → (Stops (f n) bytes (i + 4) j ↔ E n)) :
    Stops (u32 >>= f) bytes i j ↔ ∃ n, numberAt bytes i 4 = some n ∧ E n := by
  rw [stops_bind]
  have hle {n : ℕ} (hn : numberAt bytes i 4 = some n) : i + 4 ≤ bytes.length :=
    (stops_u32.mp ⟨n, runs_u32.mpr ⟨hn, rfl⟩⟩).2
  constructor
  · rintro ⟨n, _, hrun, h⟩
    obtain ⟨hn, rfl⟩ := runs_u32.mp hrun
    exact ⟨n, hn, (hf n (hle hn)).mp h⟩
  · rintro ⟨n, hn, h⟩
    exact ⟨n, _, runs_u32.mpr ⟨hn, rfl⟩, (hf n (hle hn)).mpr h⟩

lemma stops_readTable : Stops readTable bytes i j ↔ ∃ columns,
    numberAt bytes (i + 4) 4 = some columns ∧
      (∀ k < columns, byteAt bytes (i + 8 + 13 * k + 4) ∈ [some 0, some 1]) ∧
        j = i + 8 + 13 * columns ∧ j ≤ bytes.length := by
  rw [readTable, stops_skip stops_u32 fun table => stops_count fun n hle =>
    stops_bind_pure.trans (stops_columns (n := n) table hle)]
  refine and_iff_right_of_imp ?_
  rintro ⟨columns, -, -, rfl, hle⟩
  omega

lemma TablesAt.le {n : ℕ} (h : TablesAt bytes n i j) : i ≤ j := by
  induction h with
  | nil => rfl
  | cons _ _ _ ih => omega

lemma stops_tables {n : ℕ} (hi : i ≤ bytes.length) : Stops (many readTable n) bytes i j ↔
    TablesAt bytes n i j ∧ j ≤ bytes.length := by
  induction n generalizing i with
  | zero =>
    rw [many, stops_pure]
    constructor
    · rintro rfl
      exact ⟨.nil, hi⟩
    · rintro ⟨⟨⟩, -⟩
      rfl
  | succ n ih =>
    rw [many, stops_bind_const fun _ _ => stops_bind_pure]
    simp only [stops_readTable]
    constructor
    · rintro ⟨_, ⟨columns, hcolumns, hfloors, rfl, hle⟩, h⟩
      obtain ⟨htables, hj⟩ := (ih hle).mp h
      exact ⟨.cons hcolumns hfloors htables, hj⟩
    · rintro ⟨htables, hj⟩
      cases htables with
      | cons hcolumns hfloors hrest =>
        have hle := hrest.le.trans hj
        exact ⟨_, ⟨_, hcolumns, hfloors, rfl, hle⟩, (ih hle).mpr ⟨hrest, hj⟩⟩

lemma stops_deserializeFrom : Stops deserializeFrom bytes i j ↔
    ∃ n, numberAt bytes (i + 17) 4 = some n ∧ TablesAt bytes n (i + 21) j ∧ j ≤ bytes.length := by
  rw [deserializeFrom, stops_skip stops_u8 fun _ => stops_skip stops_u64 fun _ =>
    stops_skip stops_u64 fun _ => stops_count fun n hle =>
      stops_bind_pure.trans (stops_tables (n := n) hle)]
  constructor
  · rintro ⟨-, -, -, h⟩
    exact h
  · rintro ⟨n, hn, htables, hle⟩
    have hbound := htables.le.trans hle
    exact ⟨by omega, by omega, by omega, n, hn, htables, hle⟩

lemma stops_readTaggedEnvelope : Stops readTaggedEnvelope bytes i j ↔
    EnvelopeAt bytes i j ∧ j ≤ bytes.length := by
  have hsome : Stops (some <$> deserializeFrom) bytes (i + 1) j ↔ ∃ n,
      numberAt bytes (i + 18) 4 = some n ∧ TablesAt bytes n (i + 22) j ∧ j ≤ bytes.length := by
    rw [map_eq_pure_bind, stops_bind_pure, stops_deserializeFrom]
  rw [readTaggedEnvelope, stops_bind]
  constructor
  · rintro ⟨tag, _, hrun, h⟩
    obtain ⟨htag, rfl⟩ := runs_u8.mp hrun
    obtain ⟨-, hle⟩ := stops_u8.mp ⟨tag, hrun⟩
    split_ifs at h with h0 h1
    · obtain rfl := stops_pure.mp h
      exact ⟨.inl ⟨by rw [htag, h0], rfl⟩, hle⟩
    · obtain ⟨n, hn, htables, hj⟩ := hsome.mp h
      exact ⟨.inr ⟨by rw [htag, h1], n, hn, htables⟩, hj⟩
    · exact absurd h stops_refuseTag
  · rintro ⟨⟨htag, rfl⟩ | ⟨htag, n, hn, htables⟩, hle⟩
    · exact ⟨0, _, runs_u8.mpr ⟨htag, rfl⟩, stops_pure.mpr rfl⟩
    · exact ⟨1, _, runs_u8.mpr ⟨htag, rfl⟩, hsome.mpr ⟨n, hn, htables, hle⟩⟩

lemma stops_readParent : Stops readParent bytes i j ↔ j = i + 13 ∧ j ≤ bytes.length := by
  rw [readParent, stops_skip stops_u8 fun _ => stops_skip stops_u64 fun _ =>
    stops_bind_pure.trans stops_u32]
  omega

lemma stops_readState : Stops readState bytes i j ↔
    byteAt bytes i ∈ [some 0, some 1, some 2, some 3] ∧ j = i + 1 := by
  rw [readState, stops_bind]
  constructor
  · rintro ⟨v, _, hrun, h⟩
    obtain ⟨hv, rfl⟩ := runs_u8.mp hrun
    cases hstate : BranchState.fromU8 v with
    | error e =>
      rw [hstate] at h
      obtain ⟨w, h⟩ := h
      cases h
    | ok state =>
      rw [hstate] at h
      refine ⟨?_, stops_pure.mp h⟩
      unfold BranchState.fromU8 at hstate
      split_ifs at hstate with h0 h1 h2 h3 <;> simp_all
  · rintro ⟨hv, rfl⟩
    simp only [mem_cons, not_mem_nil, or_false] at hv
    rcases hv with hv | hv | hv | hv <;>
      exact ⟨_, _, runs_u8.mpr ⟨hv, rfl⟩, _, rfl⟩

/-- A list that is written with its count. -/
lemma stops_counted {α β : Type} {p : RecordCursor α} {f : ℕ → List α → RecordCursor β}
    {width : ℕ} {E : ℕ → Prop}
    (hp : ∀ {i j}, Stops p bytes i j ↔ j = i + width ∧ j ≤ bytes.length)
    (hf : ∀ n xs, Stops (f n xs) bytes (i + 4 + width * n) j ↔ E n) :
    Stops (u32 >>= fun n => many p n >>= f n) bytes i j ↔
      ∃ n, numberAt bytes i 4 = some n ∧ i + 4 + width * n ≤ bytes.length ∧ E n := by
  refine stops_count fun n hle => ?_
  rw [stops_bind]
  constructor
  · rintro ⟨xs, _, hrun, h⟩
    obtain ⟨rfl, hend⟩ := (stops_many hp hle).mp ⟨xs, hrun⟩
    exact ⟨hend, (hf n xs).mp h⟩
  · rintro ⟨hend, h⟩
    obtain ⟨xs, hrun⟩ := (stops_many hp hle).mpr ⟨rfl, hend⟩
    exact ⟨xs, _, hrun, (hf n xs).mpr h⟩

lemma stops_readHead : Stops readHead bytes 0 j ↔ HeadAt bytes j ∧ j ≤ bytes.length := by
  have hstate {α : Type} {f : BranchState → RecordCursor α} {E : Prop} {i : ℕ}
      (hf : ∀ s, Stops (f s) bytes (i + 1) j ↔ E) : Stops (readState >>= f) bytes i j ↔
        byteAt bytes i ∈ [some 0, some 1, some 2, some 3] ∧ E := by
    rw [stops_bind]
    constructor
    · rintro ⟨s, _, hrun, h⟩
      obtain ⟨htag, rfl⟩ := stops_readState.mp ⟨s, hrun⟩
      exact ⟨htag, (hf s).mp h⟩
    · rintro ⟨htag, h⟩
      obtain ⟨s, hrun⟩ := stops_readState.mpr ⟨htag, rfl⟩
      exact ⟨s, _, hrun, (hf s).mpr h⟩
  rw [readHead, stops_skip stops_u64 fun _ => stops_skip stops_u32 fun _ =>
    stops_skip stops_u32 fun _ => stops_skip stops_readParent fun _ => stops_skip stops_u64 fun _ =>
    stops_skip stops_u32 fun _ => stops_skip stops_u64 fun _ => hstate fun _ =>
    stops_skip stops_u8 fun _ => stops_counted stops_u32 fun _ _ =>
    stops_counted stops_u64 fun _ _ => stops_pure]
  simp only [Nat.zero_add, Nat.reduceAdd, HeadAt]
  constructor
  · rintro ⟨-, -, -, -, -, -, -, htag, -, arenas, harenas, -, children, hchildren, hle, rfl⟩
    refine ⟨⟨htag, arenas, children, harenas, ?_, by omega⟩, hle⟩
    rwa [show 55 + 4 * arenas = 51 + 4 + 4 * arenas by omega]
  · rintro ⟨⟨htag, arenas, children, harenas, hchildren, rfl⟩, hle⟩
    rw [show 55 + 4 * arenas = 51 + 4 + 4 * arenas by omega] at hchildren
    refine ⟨?_, ?_, ?_, ?_, ?_, ?_, ?_, htag, ?_, arenas, harenas, ?_, children, hchildren, ?_, ?_⟩
    all_goals omega

lemma stops_readFields {n : ℕ} : Stops (readFields n) bytes 0 j ↔
    ∃ head, (HeadAt bytes head ∧ head ≤ bytes.length) ∧ ∃ envelope,
      (if n ≤ head then envelope = head
        else EnvelopeAt bytes head envelope ∧ envelope ≤ bytes.length) ∧
      if n ≤ envelope then j = envelope else j = envelope + 4 ∧ j ≤ bytes.length := by
  have hat {α : Type} {f : ℕ → RecordCursor α} {i k : ℕ} :
      Stops (position >>= f) bytes i k ↔ Stops (f i) bytes i k := Iff.rfl
  have hdepth (b i : ℕ) : Stops (readDepth n b) bytes i j ↔
      if n ≤ i then j = i else j = i + 4 ∧ j ≤ bytes.length := by
    rw [readDepth, hat]
    split_ifs
    · exact stops_pure
    · exact stops_u32
  have henvelope {i k : ℕ} : Stops (readEnvelope n) bytes i k ↔
      if n ≤ i then k = i else EnvelopeAt bytes i k ∧ k ≤ bytes.length := by
    rw [readEnvelope, hat]
    split_ifs
    · exact stops_pure
    · exact stops_readTaggedEnvelope
  rw [readFields, stops_bind_const fun head _ => stops_bind_const fun _ i =>
    stops_bind_pure.trans (hdepth head.depth i)]
  simp only [stops_readHead, henvelope]

lemma overruns_iff (hlen : 4 ≤ bytes.length)
    (hcrc : (crc32 (bytes.take (bytes.length - 4))).toNat =
      ofBeBytes (bytes.drop (bytes.length - 4))) : Overruns bytes ↔
      ∃ stop, Stops (readFields (bytes.length - 4)) bytes 0 stop ∧ bytes.length - 4 < stop := by
  simp only [Overruns, hlen, hcrc, true_and, stops_readFields]
  constructor
  · rintro ⟨head, hhead, ⟨hlt, hle⟩ | ⟨hlt, envelope, henvelope, hend⟩⟩
    · exact ⟨head, ⟨head, ⟨hhead, hle⟩, head, by simp [hlt.le], by simp [hlt.le]⟩, hlt⟩
    · rcases hend with ⟨hover, hle⟩ | ⟨hinside, hover⟩
      · refine ⟨envelope, ⟨head, ⟨hhead, by omega⟩, envelope, ?_, by simp [hover.le]⟩, hover⟩
        rw [if_neg (by omega)]
        exact ⟨henvelope, hle⟩
      · refine ⟨envelope + 4, ⟨head, ⟨hhead, by omega⟩, envelope, ?_, ?_⟩, hover⟩
        · rw [if_neg (by omega)]
          exact ⟨henvelope, by omega⟩
        · rw [if_neg (by omega)]
          exact ⟨rfl, by omega⟩
  · rintro ⟨stop, ⟨head, ⟨hhead, hle⟩, envelope, henvelope, hstop⟩, hover⟩
    refine ⟨head, hhead, ?_⟩
    split_ifs at henvelope with hpast
    · subst henvelope
      rw [if_pos hpast] at hstop
      exact .inl ⟨hstop ▸ hover, hle⟩
    · refine .inr ⟨by omega, envelope, henvelope.1, ?_⟩
      split_ifs at hstop with hend
      · exact .inl ⟨hstop ▸ hover, henvelope.2⟩
      · exact .inr ⟨by omega, by omega⟩

/-! ## What is read is counted -/

lemma lt_of_runs_u32 {v : ℕ} (h : Runs u32 bytes i v j) : v < 2 ^ 32 := by
  obtain ⟨xs, hxs, rfl⟩ := Option.map_eq_some_iff.mp (runs_u32.mp h).1
  have hlen : xs.length ≤ 4 := by
    unfold sliceAt at hxs
    split_ifs at hxs
    rw [← Option.some.inj hxs]
    exact length_take_le _ _
  calc ofBeBytes xs < 256 ^ xs.length := ofBeBytes_lt xs
    _ ≤ 256 ^ 4 := Nat.pow_le_pow_right (by decide) hlen

lemma length_insertTable_le (cap : TableCapability) (ts : List TableCapability) :
    (insertTable cap ts).length ≤ ts.length + 1 := by
  induction ts with
  | nil => rfl
  | cons t ts ih =>
    rw [insertTable]
    split_ifs <;> simp only [length_cons] <;> omega

lemma counted_foldl_allow {entries : List (ℕ × List ColumnCapability)} {e : CapabilityEnvelope}
    (hentries : ∀ t ∈ entries, t.2.length < 2 ^ 32)
    (htables : ∀ t ∈ e.tables, t.columns.length < 2 ^ 32) :
    let e' := entries.foldl (fun e t => e.allow t.1 t.2) e
    e'.tables.length ≤ e.tables.length + entries.length ∧
      ∀ t ∈ e'.tables, t.columns.length < 2 ^ 32 := by
  induction entries generalizing e with
  | nil => exact ⟨le_rfl, htables⟩
  | cons t entries ih =>
    rw [forall_mem_cons] at hentries
    obtain ⟨hlen, hall⟩ := ih (e := e.allow t.1 t.2) hentries.2 fun x hx => by
      rcases mem_insertTable hx with rfl | hx
      · refine lt_of_le_of_lt ?_ hentries.1
        have hsub := (destutter_sublist (fun a b : ColumnCapability => a.col ≠ b.col)
          (t.2.insertionSort ColumnCapability.Before)).length_le
        rwa [length_insertionSort] at hsub
      · exact htables x hx
    have hone := length_insertTable_le (.new t.1 t.2) e.tables
    refine ⟨hlen.trans ?_, hall⟩
    rw [length_cons]
    exact (Nat.add_le_add_right hone _).trans (by omega)

lemma counted_of_runs {e : CapabilityEnvelope} (h : Runs deserializeFrom bytes i e j) :
    e.Counted := by
  obtain ⟨verbs, _, -, h⟩ := runs_bind.mp h
  obtain ⟨maxRowWrites, _, -, h⟩ := runs_bind.mp h
  obtain ⟨rowWrites, _, -, h⟩ := runs_bind.mp h
  obtain ⟨n, _, hn, h⟩ := runs_bind.mp h
  obtain ⟨entries, _, hentries, h⟩ := runs_bind.mp h
  cases h
  have htable {i j : ℕ} {t : ℕ × List ColumnCapability} (ht : Runs readTable bytes i t j) :
      t.2.length < 2 ^ 32 := by
    obtain ⟨table, _, -, ht⟩ := runs_bind.mp ht
    obtain ⟨count, _, hcount, ht⟩ := runs_bind.mp ht
    obtain ⟨columns, _, hcolumns, ht⟩ := runs_bind.mp ht
    cases ht
    exact (length_of_many hcolumns).trans_lt (lt_of_runs_u32 hcount)
  obtain ⟨rfl, hall⟩ := of_many htable hentries
  obtain ⟨hlen, hcolumns⟩ := counted_foldl_allow (e := new verbs.toBitVec maxRowWrites) hall
    (by simp [new])
  exact ⟨(hlen.trans_eq (Nat.zero_add _)).trans_lt (lt_of_runs_u32 hn), hcolumns⟩

lemma counted_of_readHead (h : Runs readHead bytes i r j) :
    r.arenas.length < 2 ^ 32 ∧ r.liveChildren.length < 2 ^ 32 := by
  unfold readHead at h
  iterate 9 obtain ⟨_, _, -, h⟩ := runs_bind.mp h
  obtain ⟨arenaLen, _, harenas, h⟩ := runs_bind.mp h
  obtain ⟨arenas, _, hmany, h⟩ := runs_bind.mp h
  obtain ⟨childLen, _, hchildren, h⟩ := runs_bind.mp h
  obtain ⟨children, _, hmany', h⟩ := runs_bind.mp h
  cases h
  exact ⟨(length_of_many hmany).trans_lt (lt_of_runs_u32 harenas),
    (length_of_many hmany').trans_lt (lt_of_runs_u32 hchildren)⟩

lemma counted_of_readEnvelope {n : ℕ} {envelope : Option CapabilityEnvelope}
    (h : Runs (readEnvelope n) bytes i envelope j) : ∀ e, envelope = some e → e.Counted := by
  rintro e rfl
  obtain ⟨_, _, -, h⟩ := runs_bind.mp h
  split_ifs at h
  · cases h
  obtain ⟨tag, _, -, h⟩ := runs_bind.mp h
  split_ifs at h
  · cases h
  · obtain ⟨e', _, hrun, h⟩ := runs_bind.mp (map_eq_pure_bind some deserializeFrom ▸ h)
    cases h
    exact counted_of_runs hrun
  · cases h

/-- The lists of a record that is read are no longer than the counts in its bytes. -/
lemma counted_of_readFields {n : ℕ} (h : Runs (readFields n) bytes i r j) : r.Counted := by
  obtain ⟨head, _, hhead, h⟩ := runs_bind.mp h
  obtain ⟨envelope, _, henvelope, h⟩ := runs_bind.mp h
  obtain ⟨depth, _, -, h⟩ := runs_bind.mp h
  cases h
  obtain ⟨harenas, hchildren⟩ := counted_of_readHead hhead
  exact ⟨harenas, hchildren, counted_of_readEnvelope henvelope⟩

end BranchRecord

end FerroDb.Branch
