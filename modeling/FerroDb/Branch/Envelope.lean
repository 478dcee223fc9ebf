import FerroDb.Library.Fallible
import FerroDb.Sql.Order
import Mathlib.Data.List.Destutter
import Mathlib.Data.List.Sort

/-!
# Capability envelopes

What a governed branch may write, after `branch/record.rs`: verbs, tables with their columns and
floors, and a budget of row writes. An envelope may be narrowed, charged and handed down to a
child. None of these ever admits a write that an earlier envelope on the way refused, which is
shown by an order on envelopes that each of them moves down in.
-/

namespace FerroDb.Branch

open Library (bind_ok forM_ok foldlM_ok_of_imp)
open Sql List

/-! ## Row images -/

inductive Verb where
  | insert
  | update
  | delete
deriving DecidableEq

namespace Verb

def bit : Verb → BitVec 8
  | insert => 1
  | update => 2
  | delete => 4

def name : Verb → String
  | insert => "INSERT"
  | update => "UPDATE"
  | delete => "DELETE"

end Verb

inductive RowEffect where
  | unchanged
  | wrote (verb : Verb)
deriving DecidableEq

/-- A row before and after a write. -/
structure RowImage where
  row : ℕ
  before : Option Row
  after : Option Row

/-- The same variant holding the same value; a decimal is the same if it is spelled the same. -/
def sameStoredValue (a b : Value) : Bool :=
  match a, b with
  | .decimal x, .decimal y => x = y
  | a, b => a.typeRank = b.typeRank && a.eqv b

def changedColumns (before after : Option Row) : List ℕ :=
  match before, after with
  | some b, some a =>
    (List.range (max b.length a.length)).filter fun i =>
      !sameStoredValue (b[i]?.getD .null) (a[i]?.getD .null)
  | none, some r => List.range r.length
  | some r, none => List.range r.length
  | none, none => []

def RowImage.effectGiven (image : RowImage) (changed : List ℕ) : RowEffect :=
  match image.before, image.after with
  | none, some _ => .wrote .insert
  | some _, none => .wrote .delete
  | none, none => .wrote .delete
  | some _, some _ => if changed = [] then .unchanged else .wrote .update

/-- A number of some type, and no less than the floor. -/
def atOrAbove (after : Option Value) (floor : ℤ) : Bool :=
  match after with
  | some (.integer i) => (Value.integer i).cmp (.bigInt floor) ≠ .lt
  | some (.bigInt i) => (Value.bigInt i).cmp (.bigInt floor) ≠ .lt
  | some (.decimal d) => (Value.decimal d).cmp (.bigInt floor) ≠ .lt
  | some (.float f) =>
    if f.isNan || f.isInfinite then false else (Value.float f).cmp (.bigInt floor) ≠ .lt
  | _ => false

/-! ## Capabilities -/

structure ColumnCapability where
  col : ℕ
  /-- The least value a write may leave. -/
  floor : Option ℤ
deriving DecidableEq

/-- No floor is below every floor. -/
def floorLe : Option ℤ → Option ℤ → Bool
  | none, _ => true
  | some _, none => false
  | some mine, some theirs => mine ≤ theirs

namespace ColumnCapability

def permits (mine theirs : ColumnCapability) : Bool := floorLe mine.floor theirs.floor

/-- By column, the highest floor first. -/
def Before (a b : ColumnCapability) : Prop :=
  a.col < b.col ∨ a.col = b.col ∧ floorLe b.floor a.floor = true

instance : DecidableRel Before := fun _ _ => inferInstanceAs (Decidable (_ ∨ _))

end ColumnCapability

/-- A table that may be written, column by column. -/
structure TableCapability where
  table : ℕ
  columns : List ColumnCapability
  sorted : columns.Pairwise fun a b => a.col < b.col

/-- The refusal of a write or of a wider envelope. -/
structure CapabilityRefusal where
  text : String
deriving DecidableEq

def CapabilityRefusal.toError (e : CapabilityRefusal) : FerroError :=
  .constraint ("capability envelope: " ++ e.text)

structure CapabilityEnvelope where
  verbs : BitVec 8
  tables : List TableCapability
  maxRowWrites : ℕ
  rowWrites : ℕ
  sorted : tables.Pairwise fun a b => a.table < b.table

/-! ## Building an envelope -/

lemma floorLe_total (a b : Option ℤ) : floorLe a b = true ∨ floorLe b a = true := by
  rcases a with _ | a <;> rcases b with _ | b <;> simp [floorLe, le_total]

lemma floorLe_trans {a b c : Option ℤ} (hab : floorLe a b = true) (hbc : floorLe b c = true) :
    floorLe a c = true := by
  rcases a with _ | a <;> rcases b with _ | b <;> rcases c with _ | c <;>
    simp_all [floorLe]
  exact hab.trans hbc

namespace ColumnCapability

instance : Std.Total Before where
  total a b := by
    rcases lt_trichotomy a.col b.col with h | h | h
    · exact .inl (.inl h)
    · rcases floorLe_total a.floor b.floor with hf | hf
      · exact .inr (.inr ⟨h.symm, hf⟩)
      · exact .inl (.inr ⟨h, hf⟩)
    · exact .inr (.inl h)

instance : IsTrans ColumnCapability Before where
  trans a b c := by
    rintro (hab | ⟨hab, fab⟩) (hbc | ⟨hbc, fbc⟩)
    · exact .inl (hab.trans hbc)
    · exact .inl (hbc ▸ hab)
    · exact .inl (hab ▸ hbc)
    · exact .inr ⟨hab.trans hbc, floorLe_trans fbc fab⟩

end ColumnCapability

lemma pairwise_col_lt {l : List ColumnCapability} (hs : l.Pairwise ColumnCapability.Before)
    (hc : l.IsChain fun a b => a.col ≠ b.col) : l.Pairwise fun a b => a.col < b.col := by
  induction l with
  | nil => exact .nil
  | cons a l ih =>
    obtain ⟨ha, hs⟩ := pairwise_cons.mp hs
    have hl := ih hs hc.tail
    refine pairwise_cons.mpr ⟨?_, hl⟩
    obtain _ | ⟨b, l⟩ := l
    · simp
    · have hne : a.col ≠ b.col := (isChain_cons_cons.mp hc).1
      have hab : a.col < b.col := by
        rcases ha b mem_cons_self with h | ⟨h, -⟩
        · exact h
        · exact absurd h hne
      intro x hx
      rcases mem_cons.mp hx with rfl | hx
      · exact hab
      · exact hab.trans ((pairwise_cons.mp hl).1 x hx)

/-- Columns sorted, and of a column named twice the tightest floor kept. -/
def TableCapability.new (table : ℕ) (columns : List ColumnCapability) : TableCapability where
  table := table
  columns := (columns.insertionSort ColumnCapability.Before).destutter fun a b => a.col ≠ b.col
  sorted := pairwise_col_lt
    ((List.pairwise_insertionSort _ columns).sublist (destutter_sublist _ _))
    (isChain_destutter _ _)

/-- A table's capability put in its place, over an earlier one. -/
def insertTable (cap : TableCapability) : List TableCapability → List TableCapability
  | [] => [cap]
  | t :: ts =>
    if cap.table < t.table then cap :: t :: ts
    else if cap.table = t.table then cap :: ts
    else t :: insertTable cap ts

variable {name : String} {cap mine : TableCapability} {ts : List TableCapability} {image : RowImage}

lemma mem_insertTable {x : TableCapability} (h : x ∈ insertTable cap ts) : x = cap ∨ x ∈ ts := by
  induction ts with
  | nil => simpa [insertTable] using h
  | cons t ts ih =>
    rw [insertTable] at h
    split_ifs at h <;> simp only [mem_cons] at h ⊢
    · exact h
    · exact h.imp_right .inr
    · rcases h with h | h
      · exact .inr (.inl h)
      · exact (ih h).imp_right .inr

lemma insertTable_sorted (h : ts.Pairwise fun a b => a.table < b.table) :
    (insertTable cap ts).Pairwise fun a b => a.table < b.table := by
  induction ts with
  | nil => simp [insertTable]
  | cons t ts ih =>
    obtain ⟨ht, hts⟩ := pairwise_cons.mp h
    rw [insertTable]
    split_ifs with hlt heq
    · refine pairwise_cons.mpr ⟨?_, h⟩
      intro x hx
      rcases mem_cons.mp hx with rfl | hx
      · exact hlt
      · exact hlt.trans (ht x hx)
    · exact pairwise_cons.mpr ⟨fun x hx => heq ▸ ht x hx, hts⟩
    · refine pairwise_cons.mpr ⟨?_, ih hts⟩
      intro x hx
      rcases mem_insertTable hx with rfl | hx
      · omega
      · exact ht x hx

namespace CapabilityEnvelope

def new (verbs : BitVec 8) (maxRowWrites : ℕ) : CapabilityEnvelope :=
  ⟨verbs, [], maxRowWrites, 0, .nil⟩

def allow (e : CapabilityEnvelope) (table : ℕ) (columns : List ColumnCapability) :
    CapabilityEnvelope where
  verbs := e.verbs
  tables := insertTable (.new table columns) e.tables
  maxRowWrites := e.maxRowWrites
  rowWrites := e.rowWrites
  sorted := insertTable_sorted e.sorted

end CapabilityEnvelope

/-! ## What an envelope admits -/

/-- A binary search in the source; the columns are sorted and distinct. -/
def TableCapability.column (cap : TableCapability) (col : ℕ) : Option ColumnCapability :=
  cap.columns.find? (·.col = col)

namespace CapabilityEnvelope

def table (e : CapabilityEnvelope) (table : ℕ) : Option TableCapability :=
  e.tables.find? (·.table = table)

variable (e : CapabilityEnvelope)

def remaining : ℕ := e.maxRowWrites - e.rowWrites

def allowsVerb (verb : Verb) : Bool := e.verbs &&& verb.bit ≠ 0

def refuse {α : Type} (text : String) : Except CapabilityRefusal α := .error ⟨text⟩

/-- One changed column of a row. -/
def admitColumn (cap : TableCapability) (tableName : String) (image : RowImage) (col : ℕ) :
    Except CapabilityRefusal Unit :=
  match cap.column col with
  | none => refuse (s!"branch may not write `{tableName}` column {col} (row {image.row}): the " ++
      "column is not on the allowlist")
  | some column =>
    match column.floor with
    | none => .ok ()
    | some floor =>
      let after := image.after.bind (·[col]?)
      if atOrAbove after floor then .ok ()
      else
        let left := match after with
          | some v => v.debug
          | none => "no value (the row was removed)"
        refuse (s!"branch may not leave `{tableName}` column {col} (row {image.row}) at {left} " ++
          s!"— the floor is {floor}")

/-- One row; a row that was left as it was is not charged for. -/
def admitImage (cap : TableCapability) (tableName : String)
    (charged : ℕ) (image : RowImage) : Except CapabilityRefusal ℕ :=
  let changed := changedColumns image.before image.after
  match image.effectGiven changed with
  | .unchanged => .ok charged
  | .wrote verb =>
    if e.allowsVerb verb then do
      changed.forM (admitColumn cap tableName image)
      return charged + 1
    else refuse (s!"branch may not {verb.name} in `{tableName}` (row {image.row}): the verb is " ++
      "not on the allowlist")

/-- What a batch of row writes costs, if all of it may be written. -/
def admits (table : ℕ) (tableName : String) (rows : List RowImage) :
    Except CapabilityRefusal ℕ :=
  match e.table table with
  | none => refuse (s!"branch may not write table `{tableName}`: it is not on the allowlist " ++
      s!"({e.tables.length} table(s) allowed)")
  | some cap => do
    let charged ← rows.foldlM (e.admitImage cap tableName) 0
    if e.remaining < charged then
      refuse (s!"this statement writes {charged} row(s) in `{tableName}` but the branch has " ++
        s!"{e.remaining} of its {e.maxRowWrites} row-write budget left")
    else return charged

/-! ## Narrowing, charging, handing down -/

/-- One column of a proposed envelope. -/
def permitsColumn (mine : TableCapability) (c : ColumnCapability) : Except CapabilityRefusal Unit :=
  match mine.column c.col with
  | none => refuse (s!"refusing to widen this branch's authority to table {mine.table} column " ++
      s!"{c.col}; an envelope may only be narrowed")
  | some m =>
    if m.permits c then .ok ()
    else refuse (s!"refusing to lower or drop the floor on table {mine.table} column {c.col}; " ++
      "an envelope may only be narrowed")

def permitsTable (t : TableCapability) : Except CapabilityRefusal Unit :=
  match e.table t.table with
  | none => refuse (s!"refusing to widen this branch's authority to table {t.table}; an " ++
      "envelope may only be narrowed")
  | some mine => t.columns.forM (permitsColumn mine)

/-- Whether `other` may take the envelope's place. -/
def permits (e other : CapabilityEnvelope) : Except CapabilityRefusal Unit := do
  let extra := other.verbs &&& ~~~e.verbs
  if extra ≠ 0 then
    let names := ([.insert, .update, .delete].filter fun v => extra &&& v.bit ≠ 0).map Verb.name
    refuse ("refusing to widen this branch's authority with verb(s) " ++ ", ".intercalate names ++
      "; an envelope may only be narrowed")
  other.tables.forM e.permitsTable
  if e.remaining < other.remaining then
    refuse (s!"refusing to raise this branch's row-write budget from {e.remaining} remaining to " ++
      s!"{other.remaining}; an envelope may only be narrowed")

def charge (n : ℕ) : Except CapabilityRefusal CapabilityEnvelope :=
  if e.remaining < n then
    refuse (s!"charging {n} row-write(s) would exceed the branch's remaining budget of " ++
      s!"{e.remaining}")
  else .ok { e with rowWrites := e.rowWrites + n }

/-- The envelope of a child: what is left of the budget, none of it spent. -/
def inherited : CapabilityEnvelope :=
  { e with maxRowWrites := e.remaining, rowWrites := 0 }

end CapabilityEnvelope

/-- `BranchRecord::restrict`: the first envelope is free, later ones may only narrow. -/
def restrict (current : Option CapabilityEnvelope) (next : CapabilityEnvelope) :
    Except CapabilityRefusal CapabilityEnvelope :=
  match current with
  | none => .ok next
  | some e => do
    e.permits next
    return next

/-! ## The order of envelopes -/

/-- A value that clears a floor clears every lower one. -/
lemma atOrAbove_mono {after : Option Value} {mine theirs : ℤ} (h : mine ≤ theirs)
    (ha : atOrAbove after theirs = true) : atOrAbove after mine = true := by
  rcases after with _ | v
  · simp [atOrAbove] at ha
  · have hint : ∀ i : ℤ, compare i theirs ≠ .lt → compare i mine ≠ .lt := by
      intro i hi
      rw [Ne, compare_lt_iff_lt, not_lt] at hi ⊢
      exact h.trans hi
    cases v with
    | integer i =>
      exact decide_eq_true (hint i (of_decide_eq_true ha))
    | bigInt i =>
      exact decide_eq_true (hint i (of_decide_eq_true ha))
    | decimal d =>
      simp only [atOrAbove, Value.cmp, decimalCmp_eq, intText_val, decide_eq_true_eq, Ne,
        compare_lt_iff_lt, not_lt] at ha ⊢
      exact (Int.cast_le.mpr h).trans ha
    | float f =>
      have hswap : ∀ o : Ordering, o.swap ≠ .lt ↔ o ≠ .gt := by decide
      simp only [atOrAbove, Value.cmp] at ha ⊢
      split_ifs at ha ⊢ with hf
      simp only [Bool.or_eq_true, not_or, Bool.not_eq_true] at hf
      simp only [decide_eq_true_eq, hswap] at ha ⊢
      exact cmpI64F64_mono hf.1 h ha
    | varchar s => simp [atOrAbove] at ha
    | boolean b => simp [atOrAbove] at ha
    | timestamp ms => simp [atOrAbove] at ha
    | null => simp [atOrAbove] at ha

/-- One table's capability leaves no more room than another's. -/
def TableCapability.Within (t mine : TableCapability) : Prop :=
  ∀ col c, t.column col = some c → ∃ m, mine.column col = some m ∧ m.permits c = true

/-- One envelope leaves no more room than another. -/
structure CapabilityEnvelope.Within (e mine : CapabilityEnvelope) : Prop where
  verbs : ∀ verb, e.allowsVerb verb = true → mine.allowsVerb verb = true
  tables : ∀ table t, e.table table = some t → ∃ m, mine.table table = some m ∧ t.Within m
  remaining : e.remaining ≤ mine.remaining

variable {table n : ℕ} {t : TableCapability}

namespace CapabilityEnvelope

variable {e e' e'' : CapabilityEnvelope}

lemma Within.refl (e : CapabilityEnvelope) : e.Within e where
  verbs _ h := h
  tables _ t h := ⟨t, h, fun _ c hc => ⟨c, hc, by
    rcases floorLe_total c.floor c.floor with h | h <;> exact h⟩⟩
  remaining := le_rfl

lemma Within.trans (h : e''.Within e') (h' : e'.Within e) : e''.Within e where
  verbs verb hv := h'.verbs verb (h.verbs verb hv)
  tables table t ht := by
    obtain ⟨m, hm, htm⟩ := h.tables table t ht
    obtain ⟨n, hn, hmn⟩ := h'.tables table m hm
    refine ⟨n, hn, fun col c hc => ?_⟩
    obtain ⟨cm, hcm, hp⟩ := htm col c hc
    obtain ⟨cn, hcn, hp'⟩ := hmn col cm hcm
    exact ⟨cn, hcn, floorLe_trans hp' hp⟩
  remaining := h.remaining.trans h'.remaining

lemma table_eq_some (h : e.table table = some t) : t ∈ e.tables ∧ t.table = table :=
  ⟨List.mem_of_find?_eq_some h, by simpa using find?_some h⟩

lemma within_of_permitsColumn
    (h : t.columns.forM (permitsColumn mine) = .ok ⟨⟩) : t.Within mine := by
  intro col c hc
  have hcol : c.col = col := by simpa using find?_some hc
  have hp := forM_ok.mp h c (mem_of_find?_eq_some hc)
  rw [permitsColumn, hcol] at hp
  split at hp
  · simp [refuse] at hp
  · rename_i m hm
    split_ifs at hp with hpm
    · exact ⟨m, hm, hpm⟩
    · simp [refuse] at hp

lemma permits_verbs {mine theirs bit : BitVec 8} (h : theirs &&& ~~~mine = 0)
    (hb : theirs &&& bit ≠ 0) : mine &&& bit ≠ 0 := by
  intro h0
  apply hb
  have hsub : theirs &&& mine = theirs := by
    calc theirs &&& mine = (theirs &&& mine) ||| (theirs &&& ~~~mine) := by rw [h]; simp
      _ = theirs &&& BitVec.allOnes 8 := by rw [← BitVec.and_or_distrib_left, BitVec.or_not_self]
      _ = theirs := BitVec.and_allOnes
  rw [← hsub, BitVec.and_assoc, h0]
  simp

lemma permits_ok : e.permits e' = .ok ⟨⟩ ↔
    e'.verbs &&& ~~~e.verbs = 0 ∧ (∀ t ∈ e'.tables, e.permitsTable t = .ok ⟨⟩) ∧
      e'.remaining ≤ e.remaining := by
  rw [← forM_ok, permits]
  by_cases hv : e'.verbs &&& ~~~e.verbs = 0
  · rw [if_neg (not_not.mpr hv)]
    refine bind_ok.trans ?_
    by_cases hr : e.remaining < e'.remaining
    · simp only [if_pos hr]
      constructor
      · rintro ⟨⟨⟩, -, h⟩
        cases h
      · rintro ⟨-, -, h⟩
        omega
    · simp only [if_neg hr]
      constructor
      · rintro ⟨⟨⟩, h, -⟩
        exact ⟨hv, h, by omega⟩
      · rintro ⟨-, h, -⟩
        exact ⟨⟨⟩, h, rfl⟩
  · rw [if_pos hv]
    constructor
    · intro h
      cases h
    · rintro ⟨h, -⟩
      exact absurd h hv

/-- What `permits` lets through is no wider. -/
lemma within_of_permits (h : e.permits e' = .ok ⟨⟩) : e'.Within e := by
  obtain ⟨hverbs, htables, hremaining⟩ := permits_ok.mp h
  exact
    { verbs := fun verb hv => by
        simp only [allowsVerb, decide_eq_true_eq] at hv ⊢
        exact permits_verbs hverbs hv
      tables := fun table t ht => by
        obtain ⟨hmem, rfl⟩ := table_eq_some ht
        have hp := htables t hmem
        rw [permitsTable] at hp
        split at hp
        · simp [refuse] at hp
        · rename_i mine hm
          exact ⟨mine, hm, within_of_permitsColumn hp⟩
      remaining := hremaining }

lemma within_of_charge (h : e.charge n = .ok e') :
    e'.Within e ∧ e'.remaining + n = e.remaining := by
  rw [charge] at h
  split_ifs at h with hn
  · simp [refuse] at h
  · obtain rfl : { e with rowWrites := e.rowWrites + n } = e' := by simpa using h
    have hr : e.maxRowWrites - (e.rowWrites + n) + n = e.maxRowWrites - e.rowWrites := by
      simp only [remaining] at hn
      omega
    refine ⟨⟨fun _ hv => hv, (Within.refl e).tables, ?_⟩, hr⟩
    simp only [remaining]
    omega

lemma within_inherited (e : CapabilityEnvelope) :
    e.inherited.Within e ∧ e.inherited.remaining = e.remaining :=
  have hr : e.inherited.remaining = e.remaining := by simp [inherited, remaining]
  ⟨⟨fun _ hv => hv, (Within.refl e).tables, hr.le⟩, hr⟩

/-! ## A narrower envelope admits less -/

lemma admitColumn_mono (h : cap.Within mine)
    {col : ℕ} (ha : admitColumn cap name image col = .ok ⟨⟩) :
    admitColumn mine name image col = .ok ⟨⟩ := by
  rw [admitColumn] at ha
  split at ha
  · simp [refuse] at ha
  · rename_i c hc
    obtain ⟨m, hm, hp⟩ := h col c hc
    rw [admitColumn, hm]
    rcases hmf : m.floor with _ | mf
    · simp [hmf]
    · rcases hcf : c.floor with _ | cf
      · simp [ColumnCapability.permits, floorLe, hmf, hcf] at hp
      · have hle : mf ≤ cf := by simpa [ColumnCapability.permits, floorLe, hmf, hcf] using hp
        simp only [hcf] at ha
        split_ifs at ha with hab
        · simp [hmf, atOrAbove_mono hle hab]
        · simp [refuse] at ha

lemma admitImage_mono (h : e'.Within e) (ht : cap.Within mine) {n' : ℕ}
    (ha : e'.admitImage cap name n image = .ok n') : e.admitImage mine name n image = .ok n' := by
  simp only [admitImage] at ha ⊢
  split at ha
  · exact ha
  · rename_i verb _
    split_ifs at ha with hv
    · obtain ⟨⟨⟩, hcols, hn⟩ := bind_ok.mp ha
      rw [if_pos (h.verbs verb hv)]
      exact bind_ok.mpr ⟨⟨⟩, forM_ok.mpr fun col hcol =>
        admitColumn_mono ht (forM_ok.mp hcols col hcol), hn⟩
    · simp [refuse] at ha

lemma admit_mono (h : e'.Within e) {rows : List RowImage}
    (ha : e'.admits table name rows = .ok n) : e.admits table name rows = .ok n := by
  rw [admits] at ha
  split at ha
  · simp [refuse] at ha
  · rename_i cap hcap
    obtain ⟨mine, hmine, ht⟩ := h.tables table cap hcap
    obtain ⟨charged, hfold, hn⟩ := bind_ok.mp ha
    have hfold' := foldlM_ok_of_imp (fun _ _ _ _ => admitImage_mono h ht) hfold
    rw [admits, hmine]
    refine bind_ok.mpr ⟨charged, hfold', ?_⟩
    split_ifs at hn with hr
    · simp [refuse] at hn
    · rw [if_neg (by have := h.remaining; omega)]
      exact hn

end CapabilityEnvelope

/-! ## Paths -/

/-- What can happen to a branch's envelope. Handing it down moves to the child. -/
inductive EnvelopeStep where
  | restrict (next : CapabilityEnvelope)
  | charge (n : ℕ)
  | inherit

namespace CapabilityEnvelope

variable (e : CapabilityEnvelope)

def step : EnvelopeStep → Except CapabilityRefusal CapabilityEnvelope
  | .restrict next => Branch.restrict (some e) next
  | .charge n => e.charge n
  | .inherit => .ok e.inherited

/-- The envelope after a step; a refused one leaves it as it was. -/
def next (s : EnvelopeStep) : CapabilityEnvelope :=
  match e.step s with
  | .ok e' => e'
  | .error _ => e

/-- The envelope at the end of a path. -/
def path (steps : List EnvelopeStep) : CapabilityEnvelope :=
  steps.foldl next e

/-- The row writes a step charges: none if it is refused or no charge. -/
def charged : EnvelopeStep → ℕ
  | .charge n =>
    match e.charge n with
    | .ok _ => n
    | .error _ => 0
  | _ => 0

def totalCharged (e : CapabilityEnvelope) : List EnvelopeStep → ℕ
  | [] => 0
  | s :: steps => e.charged s + (e.next s).totalCharged steps

/-- A step moves down, and what it charges is gone from the budget. -/
lemma next_within (s : EnvelopeStep) :
    (e.next s).Within e ∧ (e.next s).remaining + e.charged s ≤ e.remaining := by
  rw [next]
  cases s with
  | restrict wanted =>
    split
    · rename_i e' h
      obtain ⟨⟨⟩, hp, hret⟩ := bind_ok.mp (h : e.permits wanted >>= _ = _)
      obtain rfl : wanted = e' := by simpa [pure, Except.pure] using hret
      have hw := within_of_permits hp
      exact ⟨hw, by simpa [charged] using hw.remaining⟩
    · exact ⟨.refl e, by simp [charged]⟩
  | charge n =>
    split
    · rename_i e' h
      have h : e.charge n = .ok e' := h
      obtain ⟨hw, hr⟩ := within_of_charge h
      exact ⟨hw, by simp [charged, h, hr]⟩
    · rename_i err h
      have h : e.charge n = .error err := h
      exact ⟨.refl e, by simp [charged, h]⟩
  | inherit =>
    obtain ⟨hw, hr⟩ := e.within_inherited
    exact ⟨hw, by simp [step, charged, hr]⟩

lemma path_within (steps : List EnvelopeStep) :
    (e.path steps).Within e ∧ (e.path steps).remaining + e.totalCharged steps ≤ e.remaining := by
  induction steps generalizing e with
  | nil => exact ⟨.refl e, by simp [path, totalCharged]⟩
  | cons s steps ih =>
    obtain ⟨hw, hr⟩ := e.next_within s
    obtain ⟨hws, hrs⟩ := ih (e.next s)
    refine ⟨hws.trans hw, ?_⟩
    have hpath : e.path (s :: steps) = (e.next s).path steps := rfl
    rw [hpath, totalCharged]
    omega

/-- Along every path of narrowings, charges and hand-downs, a batch that the last envelope admits
every envelope before it admitted at the same cost, and the row writes charged on the way fit in
the budget the path started with. -/
theorem delegation_never_widens (e : CapabilityEnvelope) (earlier later : List EnvelopeStep) :
    (∀ table name rows n, (e.path (earlier ++ later)).admits table name rows = .ok n →
      (e.path earlier).admits table name rows = .ok n) ∧
    e.totalCharged (earlier ++ later) ≤ e.remaining ∧ e.remaining ≤ e.maxRowWrites := by
  refine ⟨fun table name rows n h => ?_, ?_, Nat.sub_le _ _⟩
  · have hsplit : e.path (earlier ++ later) = (e.path earlier).path later := by
      simp [path, foldl_append]
    rw [hsplit] at h
    exact admit_mono ((e.path earlier).path_within later).1 h
  · have := (e.path_within (earlier ++ later)).2
    omega

end CapabilityEnvelope

end FerroDb.Branch
