import FerroDb.Tel.Frames

/-!
# Merging one side

With nothing on the other side, the composed effects come to what the frames do one after another
as long as no effect is moved across another that it depends on: the index sorts the effects of a
cell by their stamps, not in replay order, and it takes them apart from the rows they were
written to.

## Main definitions

* `PlainTable.plays` — effects on a table, each on something that is there.
* `cellStep` — the same, seen at one cell.
* `Ordered` — when nothing is moved across what it depends on.
-/

namespace FerroDb.Tel

open Agent (TableId RowId ColId RowKey Op OpKind Delta GuardContext PolicyTable showTable showCol
  showRow)
open Library List Except PlainTable Function
open Sql

/-! ## Replaying effects -/

/-- Effects on a row as a whole. -/
def isRowKind : OpKind → Bool
  | .rowCreate _ | .rowDelete => true
  | _ => false

def rowOf (op : Op) : RowKey := ⟨op.tbl, op.row⟩

/-- The error for an effect that has nothing to be on. -/
def absent (op : Op) : FerroError :=
  .cellAbsent (showTable op.tbl ++ "[" ++ showRow op.row ++ "]")

namespace PlainTable

variable (t : PlainTable)

/-- The effect is well formed, and the cell it is on is there. -/
def fits (op : Op) : Bool :=
  match op.col with
  | none => isRowKind op.kind
  | some c => !isRowKind op.kind && (t (rowOf op) c).isSome

def play (op : Op) : Except FerroError PlainTable :=
  if t.fits op then t.exec op else .error (absent op)

def plays (ops : List Op) : Except FerroError PlainTable := ops.foldlM play t

/-- The table as a merge reads it. -/
def context : GuardContext := fun tbl row col =>
  match t ⟨tbl, row⟩ col with
  | some v => .ok v
  | none => .error (.cellAbsent (showTable tbl ++ "." ++ showCol col ++ "[" ++ showRow row ++ "]"))

end PlainTable

variable {s : StampedOp} {base : Option Value} {key : CellKey} {v : Option Value}
  {part : CellKey → Composition} {ops : List StampedOp} {op : Op}

section Play

variable {t t' T : PlainTable} {op : Op} {ops : List Op} {key : RowKey} {c : ColId}

lemma exec_cell {v : Value} (hkind : isRowKind op.kind = false) (hc : op.col = some c)
    (hv : t (rowOf op) c = some v) :
    t.exec op = (execCell op.kind v).map (t.setCell (rowOf op) c) := by
  have hat : t.exec op = t.execAt (rowOf op) c op.kind := by
    unfold exec
    cases h : op.kind <;> simp_all [isRowKind, rowOf]
  rw [hat, execAt, hv]

/-- What playing an effect can do. -/
lemma play_cases (h : t.play op = .ok t') : (∃ image, op.col = none ∧ op.kind = .rowCreate image ∧
      t' = update t (rowOf op) fun c => image[c]?) ∨
    (op.col = none ∧ op.kind = .rowDelete ∧ t' = update t (rowOf op) fun _ => none) ∨
    ∃ c v x, op.col = some c ∧ isRowKind op.kind = false ∧ t (rowOf op) c = some v ∧
      execCell op.kind v = .ok x ∧ t' = t.setCell (rowOf op) c x := by
  unfold play at h
  split_ifs at h with hfits
  unfold PlainTable.fits at hfits
  cases hcol : op.col with
  | none =>
    rw [hcol] at hfits
    unfold exec at h
    cases hkind : op.kind with
    | rowCreate image =>
      rw [hkind] at h
      exact Or.inl ⟨image, rfl, rfl, (ok.inj h).symm⟩
    | rowDelete =>
      rw [hkind] at h
      exact Or.inr (Or.inl ⟨rfl, rfl, (ok.inj h).symm⟩)
    | _ =>
      rw [hkind] at hfits
      cases hfits
  | some c =>
    rw [hcol] at hfits
    obtain ⟨hrow, hsome⟩ := (Bool.and_eq_true _ _).mp hfits
    have hkind : isRowKind op.kind = false := by simpa using hrow
    obtain ⟨v, hv⟩ := Option.isSome_iff_exists.mp hsome
    rw [exec_cell hkind hcol hv] at h
    obtain ⟨x, hx, rfl⟩ := map_ok.mp h
    exact Or.inr (Or.inr ⟨c, v, x, rfl, hkind, hv, hx, rfl⟩)

/-- What an effect does to one cell. -/
def cellStep (key : RowKey) (c : ColId) (v : Option Value) (op : Op) :
    Except FerroError (Option Value) :=
  if rowOf op = key then
    match op.kind with
    | .rowCreate image => .ok image[c]?
    | .rowDelete => .ok none
    | kind =>
      if op.col = some c then
        match v with
        | some v => some <$> execCell kind v
        | none => .error (absent op)
      else .ok v
  else .ok v

lemma cellStep_create {image : Row} (hk : rowOf op = key)
    (hkind : op.kind = .rowCreate image) : cellStep key c v op = .ok image[c]? := by
  simp [cellStep, hk, hkind]

lemma cellStep_delete (hk : rowOf op = key) (hkind : op.kind = .rowDelete) :
    cellStep key c v op = .ok none := by
  simp [cellStep, hk, hkind]

lemma cellStep_some {v : Value} (hk : rowOf op = key) (hkind : isRowKind op.kind = false)
    (hc : op.col = some c) : cellStep key c (some v) op = some <$> execCell op.kind v := by
  unfold cellStep
  cases h : op.kind <;> simp_all [isRowKind]

lemma cellStep_none (hk : rowOf op = key) (hkind : isRowKind op.kind = false)
    (hc : op.col = some c) : cellStep key c none op = .error (absent op) := by
  unfold cellStep
  cases h : op.kind <;> simp_all [isRowKind]

/-- An effect on another row, or on another cell of the row. -/
lemma cellStep_other (h : rowOf op ≠ key ∨ isRowKind op.kind = false ∧ op.col ≠ some c) :
    cellStep key c v op = .ok v := by
  unfold cellStep
  by_cases hk : rowOf op = key
  · cases h : op.kind <;> simp_all [isRowKind]
  · rw [if_neg hk]

/-- Playing an effect, seen at one cell. -/
lemma cellStep_of_play (h : t.play op = .ok t') (key : RowKey) (c : ColId) :
    cellStep key c (t key c) op = .ok (t' key c) := by
  by_cases hk : rowOf op = key
  · subst hk
    obtain ⟨image, -, hkind, rfl⟩ | ⟨-, hkind, rfl⟩ | ⟨c', v, x, hc', hkind, hv, hx, rfl⟩ :=
      play_cases h
    · rw [cellStep_create rfl hkind, update_self]
    · rw [cellStep_delete rfl hkind, update_self]
    · rw [setCell_apply]
      by_cases hc : c = c'
      · subst hc
        rw [hv, cellStep_some rfl hkind hc', hx, if_pos ⟨rfl, rfl⟩]
        rfl
      · rw [cellStep_other (Or.inr ⟨hkind, fun heq => hc (Option.some.inj (heq.symm.trans hc'))⟩),
          if_neg fun h => hc h.2]
  · have hk' : key ≠ rowOf op := fun h => hk h.symm
    rw [cellStep_other (Or.inl hk)]
    obtain ⟨image, -, -, rfl⟩ | ⟨-, -, rfl⟩ | ⟨c', v, x, -, -, -, -, rfl⟩ := play_cases h
    · rw [update_of_ne hk']
    · rw [update_of_ne hk']
    · rw [setCell_apply, if_neg fun h => hk' h.1]

/-- A replay, seen at one cell. -/
lemma cell_of_plays (h : t.plays ops = .ok T) (key : RowKey) (c : ColId) :
    ops.foldlM (cellStep key c) (t key c) = .ok (T key c) := by
  induction ops generalizing t with
  | nil => exact congrArg (fun t => ok (t key c)) (ok.inj h)
  | cons op ops ih =>
    obtain ⟨t', ht', hrest⟩ := bind_ok.mp h
    rw [foldlM_cons, cellStep_of_play ht']
    exact ih hrest

/-- An effect that is well formed plays where it gets through at its cell. -/
lemma play_of_cellStep (hwf : isRowKind op.kind = op.col.isNone)
    (h : ∀ key c, ∃ v, cellStep key c (t key c) op = .ok v) : ∃ t', t.play op = .ok t' := by
  unfold play PlainTable.fits
  cases hcol : op.col with
  | none =>
    rw [hcol] at hwf
    rw [exec]
    cases hkind : op.kind with
    | rowCreate image => exact ⟨_, rfl⟩
    | rowDelete => exact ⟨_, rfl⟩
    | _ => rw [hkind] at hwf; cases hwf
  | some c =>
    have hkind : isRowKind op.kind = false := by rw [hwf, hcol]; rfl
    obtain ⟨x, hx⟩ := h (rowOf op) c
    cases hv : t (rowOf op) c with
    | none =>
      rw [hv, cellStep_none rfl hkind hcol] at hx
      cases hx
    | some v =>
      rw [hv, cellStep_some rfl hkind hcol] at hx
      obtain ⟨y, hy, -⟩ := map_ok.mp hx
      refine ⟨t.setCell (rowOf op) c y, ?_⟩
      rw [if_pos (by simp [hkind, hv]), exec_cell hkind hcol hv]
      exact map_ok.mpr ⟨y, hy, rfl⟩

/-- Effects that get through at every cell play. -/
lemma plays_of_cells (hwf : ∀ op ∈ ops, isRowKind op.kind = op.col.isNone)
    (h : ∀ key c, ops.foldlM (cellStep key c) (t key c) = .ok (T key c)) : t.plays ops = .ok T := by
  induction ops generalizing t with
  | nil => exact congrArg ok (funext fun key => funext fun c => ok.inj (h key c))
  | cons op ops ih =>
    have hstep : ∀ key c, ∃ v, cellStep key c (t key c) op = .ok v ∧
        ops.foldlM (cellStep key c) v = .ok (T key c) := fun key c =>
      bind_ok.mp (by rw [← foldlM_cons]; exact h key c)
    obtain ⟨t', ht'⟩ := play_of_cellStep (hwf op mem_cons_self) fun key c =>
      (hstep key c).imp fun _ h => h.1
    refine bind_ok.mpr ⟨t', ht', ih (fun o ho => hwf o (mem_cons_of_mem op ho)) ?_⟩
    intro key c
    obtain ⟨v, hv, hrest⟩ := hstep key c
    rw [cellStep_of_play ht'] at hv
    rw [ok.inj hv]
    exact hrest

end Play

/-! ## Composing one side -/

/-- The index of a side on which nothing happened. -/
def SideIndex.none : SideIndex := ⟨[], []⟩

/-- One of two sides has all the effects. -/
def Alone (ix ours theirs : SideIndex) : Prop :=
  ours = ix ∧ theirs = .none ∨ ours = .none ∧ theirs = ix

/-- What a row comes to by its last effect. -/
def rowPart (ix : SideIndex) (key : RowKey) : Composition :=
  match (ix.rows.get key).getLast? with
  | some s =>
    match s.op.kind with
    | .rowCreate image => rowCreated key s image
    | .rowDelete => rowDeleted key s
    | _ => .empty
  | none => .empty

def emitFold (key : CellKey) (ops : List StampedOp) (base : Option Value) :
    Except FerroError Composition := do
  match ← foldSide ops base with
  | none => return .empty
  | some e => emitSingle key e base

section Alone

variable {ix ours theirs : SideIndex} {oo ot : HashOrder} {policies : PolicyTable}
  {base : GuardContext}

lemma Alone.composeRow (h : Alone ix ours theirs) {key : RowKey}
    (hrows : ∀ s ∈ ix.rows.get key, isRowKind s.op.kind = true) :
    composeRow oo ot ours theirs key = .ok (rowPart ix key) := by
  have hlast : ∀ s, (ix.rows.get key).getLast? = some s →
      s.op.kind = .rowDelete ∨ ∃ image, s.op.kind = .rowCreate image := by
    intro s hs
    have := hrows s (mem_of_getLast? hs)
    cases hk : s.op.kind <;> simp_all [isRowKind]
  have htouch : SideIndex.none.touchesRow key = false := rfl
  have hget : (SideIndex.none.rows.get key).getLast? = none := rfl
  unfold Tel.composeRow rowPart
  rcases h with ⟨rfl, rfl⟩ | ⟨rfl, rfl⟩
  · cases hs : (ours.rows.get key).getLast? with
    | none => simp [hget, isDelete, composeCreates, createOf]
    | some s =>
      rcases hlast s hs with hk | ⟨image, hk⟩
      · simp [hget, isDelete, hk, htouch]
      · simp [hget, isDelete, hk, composeCreates, createOf]
  · cases hs : (theirs.rows.get key).getLast? with
    | none => simp [hget, isDelete, composeCreates, createOf]
    | some s =>
      rcases hlast s hs with hk | ⟨image, hk⟩
      · simp [hget, isDelete, hk, htouch]
      · simp [hget, isDelete, hk, composeCreates, createOf]

lemma Alone.composeAt (h : Alone ix ours theirs) (fresh : List (RowKey × Row)) (key : CellKey) :
    composeAt ours theirs policies base fresh key
      = baseValue base fresh key >>= emitFold key (ix.cells.get key) := by
  unfold Tel.composeAt composeCell emitFold
  rcases h with ⟨rfl, rfl⟩ | ⟨rfl, rfl⟩
  · refine congrArg _ (funext fun b => ?_)
    cases foldSide (ours.cells.get key) b with
    | error e => rfl
    | ok e => cases e <;> rfl
  · refine congrArg _ (funext fun b => ?_)
    cases foldSide (theirs.cells.get key) b with
    | error e => rfl
    | ok e => cases e <;> rfl

/-- The rows of one side, composed. -/
def rowsPart (ix : SideIndex) : Composition :=
  .join ((sortedKeys rowLe ix.rows.keys).map (rowPart ix))

/-- The cells of rows that are not deleted. -/
def liveCells (ix : SideIndex) : List CellKey :=
  (sortedKeys cellLe ix.cells.keys).filter fun k => k.rowKey ∉ (rowsPart ix).poisoned

/-- A side alone is composed of its rows and of the cells that stay. -/
lemma Alone.compose (h : Alone ix ours theirs)
    (hrows : ∀ key, ∀ s ∈ ix.rows.get key, isRowKind s.op.kind = true)
    (hcells : ∀ key ∈ liveCells ix,
      (baseValue base (rowsPart ix).created key >>= emitFold key (ix.cells.get key))
        = .ok (part key)) : compose oo ot ours theirs policies base
      = .ok ((rowsPart ix).append (.join ((liveCells ix).map part))) := by
  have hrowKeys : ours.rows.keys ++ theirs.rows.keys = ix.rows.keys := by
    rcases h with ⟨rfl, rfl⟩ | ⟨rfl, rfl⟩
    · exact append_nil _
    · exact nil_append _
  have hcellKeys : ours.cells.keys ++ theirs.cells.keys = ix.cells.keys := by
    rcases h with ⟨rfl, rfl⟩ | ⟨rfl, rfl⟩
    · exact append_nil _
    · exact nil_append _
  unfold Tel.compose
  dsimp only
  rw [hrowKeys, hcellKeys, mapM_eq_map fun key _ => h.composeRow (hrows key)]
  show ((liveCells ix).mapM (Tel.composeAt ours theirs policies base (rowsPart ix).created) >>=
    fun cells => pure ((rowsPart ix).append (.join cells))) = _
  rw [mapM_eq_map fun key hk => (h.composeAt _ key).trans (hcells key hk)]
  rfl

end Alone

/-! ## The effects on one cell -/

def rowOpsOf (ops : List StampedOp) (key : RowKey) : List StampedOp :=
  ops.filter (·.rowKey? = some key)

def cellOpsOf (ops : List StampedOp) (key : CellKey) : List StampedOp :=
  ops.filter (·.cellKey? = some key)

/-- What a cell holds when the row effects are through. -/
def startValue (t : PlainTable) (ops : List StampedOp) (key : CellKey) : Option Value :=
  match (rowOpsOf ops key.rowKey).getLast? with
  | none => t key.rowKey key.col
  | some s =>
    match s.op.kind with
    | .rowCreate image => image[key.col]?
    | _ => none

/-- Row effects have no column and cell effects have one. -/
def WellFormed (op : Op) : Prop := isRowKind op.kind = op.col.isNone

/-- What a list of effects does to one cell. -/
def runCell (key : CellKey) (v : Option Value) (ops : List Op) :
    Except FerroError (Option Value) :=
  ops.foldlM (cellStep key.rowKey key.col) v

lemma runCell_cons (key : CellKey) (v : Option Value) (op : Op) (ops : List Op) :
    runCell key v (op :: ops) = cellStep key.rowKey key.col v op >>= (runCell key · ops) :=
  foldlM_cons

lemma runCell_singleton (key : CellKey) (v : Option Value) (op : Op) :
    runCell key v [op] = cellStep key.rowKey key.col v op := by
  unfold runCell
  simp

lemma runCell_append (key : CellKey) (v : Option Value) (ops ops' : List Op) :
    runCell key v (ops ++ ops') = runCell key v ops >>= (runCell key · ops') :=
  foldlM_append

section Cell

variable {t T : PlainTable} {ops : List StampedOp} {key : CellKey} {v w : Option Value}

lemma wellFormed_of_plays {l : List Op} (h : t.plays l = .ok T) : ∀ op ∈ l, WellFormed op := by
  induction l generalizing t with
  | nil => simp
  | cons op l ih =>
    obtain ⟨t', ht', hrest⟩ := bind_ok.mp h
    refine forall_mem_cons.mpr ⟨?_, ih hrest⟩
    obtain ⟨image, hc, hk, -⟩ | ⟨hc, hk, -⟩ | ⟨c, v, x, hc, hk, -⟩ := play_cases ht'
    · simp [WellFormed, hc, hk, isRowKind]
    · simp [WellFormed, hc, hk, isRowKind]
    · simp [WellFormed, hc, hk]

lemma wellFormed_ops (h : t.plays (ops.map (·.op)) = .ok T) : ∀ s ∈ ops, WellFormed s.op :=
  forall_mem_map.mp (wellFormed_of_plays h)

lemma rowKey?_eq {k : RowKey} (h : s.rowKey? = some k) : s.op.col = none ∧ rowOf s.op = k := by
  unfold StampedOp.rowKey? at h
  cases hc : s.op.col with
  | none =>
    rw [hc] at h
    exact ⟨rfl, Option.some.inj h⟩
  | some c =>
    rw [hc] at h
    cases h

lemma cellKey?_eq' (h : s.cellKey? = some key) :
    s.op.col = some key.col ∧ rowOf s.op = key.rowKey := by
  obtain ⟨c, hc, rfl⟩ := Option.map_eq_some_iff.mp h
  exact ⟨hc, rfl⟩

/-- An effect that is neither on the row nor on the cell leaves the cell alone. -/
lemma cellStep_irrelevant (hwf : WellFormed s.op)
    (hrow : s.rowKey? ≠ some key.rowKey) (hcell : s.cellKey? ≠ some key) :
    cellStep key.rowKey key.col v s.op = .ok v := by
  apply cellStep_other
  by_cases hk : rowOf s.op = key.rowKey
  · right
    cases hc : s.op.col with
    | none =>
      refine absurd ?_ hrow
      rw [← hk]
      simp [StampedOp.rowKey?, hc, rowOf]
    | some c =>
      refine ⟨by rw [hwf, hc]; rfl, fun hcc => hcell ?_⟩
      obtain rfl := Option.some.inj hcc
      have htbl : s.op.tbl = key.tbl := congrArg RowKey.tbl hk
      have hrw : s.op.row = key.row := congrArg RowKey.row hk
      simp [StampedOp.cellKey?, hc, htbl, hrw]
  · exact Or.inl hk

/-- Where no row effect follows one on the cell, the row effects can be taken first. -/
lemma runCell_split (hwf : ∀ s ∈ ops, WellFormed s.op)
    (h : ops.Pairwise fun a b => a.cellKey? = some key → b.rowKey? ≠ some key.rowKey) :
    runCell key v (ops.map (·.op))
      = runCell key v ((rowOpsOf ops key.rowKey ++ cellOpsOf ops key).map (·.op)) := by
  induction ops generalizing v with
  | nil => rfl
  | cons s ops ih =>
    obtain ⟨hs, hops⟩ := pairwise_cons.mp h
    have ih := fun v => ih (v := v) (fun s' hs' => hwf s' (.tail _ hs')) hops
    rw [map_cons, runCell_cons]
    by_cases hcell : s.cellKey? = some key
    · have hrows : rowOpsOf ops key.rowKey = [] := by
        rw [rowOpsOf, filter_eq_nil_iff]
        intro b hb
        simpa using hs b hb hcell
      have hrow : s.rowKey? ≠ some key.rowKey := fun hr => by
        have h1 := (rowKey?_eq hr).1
        rw [(cellKey?_eq' hcell).1] at h1
        cases h1
      have hleft : rowOpsOf (s :: ops) key.rowKey = [] := by
        rw [rowOpsOf, filter_cons_of_neg (by simpa using hrow)]
        exact hrows
      have hright : cellOpsOf (s :: ops) key = s :: cellOpsOf ops key := by
        rw [cellOpsOf, filter_cons_of_pos (by simpa using hcell)]
        rfl
      rw [hleft, hright, nil_append, map_cons, runCell_cons]
      refine bind_congr fun v' => ?_
      rw [ih, hrows, nil_append]
    · have hright : cellOpsOf (s :: ops) key = cellOpsOf ops key := by
        rw [cellOpsOf, filter_cons_of_neg (by simpa using hcell)]
        rfl
      by_cases hrow : s.rowKey? = some key.rowKey
      · have hleft : rowOpsOf (s :: ops) key.rowKey = s :: rowOpsOf ops key.rowKey := by
          rw [rowOpsOf, filter_cons_of_pos (by simpa using hrow)]
          rfl
        rw [hleft, hright]
        exact bind_congr fun v' => ih v'
      · have hleft : rowOpsOf (s :: ops) key.rowKey = rowOpsOf ops key.rowKey := by
          rw [rowOpsOf, filter_cons_of_neg (by simpa using hrow)]
          rfl
        rw [cellStep_irrelevant (hwf s mem_cons_self) hrow hcell, hleft, hright]
        exact ih v

/-- What a row effect leaves in a cell. -/
lemma cellStep_row (hwf : WellFormed s.op) (h : s.rowKey? = some key.rowKey) :
    cellStep key.rowKey key.col v s.op = .ok (match s.op.kind with
      | .rowCreate image => image[key.col]?
      | _ => none) := by
  obtain ⟨hc, hk⟩ := rowKey?_eq h
  have hrow : isRowKind s.op.kind = true := by rw [hwf, hc]; rfl
  cases hkind : s.op.kind with
  | rowCreate image => exact cellStep_create hk hkind
  | rowDelete => exact cellStep_delete hk hkind
  | _ => rw [hkind] at hrow; cases hrow

lemma runCell_rows (hwf : ∀ s ∈ ops, WellFormed s.op) :
    runCell key (t key.rowKey key.col) ((rowOpsOf ops key.rowKey).map (·.op))
      = .ok (startValue t ops key) := by
  have hrows : ∀ l : List StampedOp, (∀ s ∈ l, WellFormed s.op ∧ s.rowKey? = some key.rowKey) →
      runCell key (t key.rowKey key.col) (l.map (·.op)) = .ok (match l.getLast? with
        | none => t key.rowKey key.col
        | some s =>
          match s.op.kind with
          | .rowCreate image => image[key.col]?
          | _ => none) := by
    intro l
    induction l using reverseRecOn with
    | nil => exact fun _ => rfl
    | append_singleton l s ih =>
      intro hl
      obtain ⟨hs, hk⟩ := hl s (mem_append_right _ mem_cons_self)
      rw [map_append, runCell_append, ih fun s' hs' => hl s' (mem_append_left _ hs')]
      simp [runCell_singleton, cellStep_row hs hk]
  refine hrows _ fun s hs => ?_
  obtain ⟨hmem, hk⟩ := mem_filter.mp hs
  exact ⟨hwf s hmem, by simpa using hk⟩

/-- A row whose last effect deletes it has no cells: writing to one after that would fail. -/
lemma runCell_deleted (hwf : ∀ s ∈ ops, WellFormed s.op)
    (hlast : isDelete (rowOpsOf ops key.rowKey).getLast? = true)
    (h : runCell key v (ops.map (·.op)) = .ok w) : w = none := by
  induction ops using reverseRecOn generalizing w with
  | nil => cases hlast
  | append_singleton ops s ih =>
    have hwf' : ∀ s' ∈ ops, WellFormed s'.op := fun s' hs' => hwf s' (mem_append_left _ hs')
    have hs := hwf s (mem_append_right _ mem_cons_self)
    rw [map_append, runCell_append] at h
    obtain ⟨u, hu, hstep⟩ := bind_ok.mp h
    rw [map_cons, map_nil, runCell_singleton] at hstep
    rw [rowOpsOf, filter_append] at hlast
    by_cases hrow : s.rowKey? = some key.rowKey
    · rw [filter_cons_of_pos (by simpa using hrow)] at hlast
      have hkind : s.op.kind = .rowDelete := by simpa [isDelete] using hlast
      rw [cellStep_row hs hrow, hkind] at hstep
      exact (ok.inj hstep).symm
    · rw [filter_cons_of_neg (by simpa using hrow), filter_nil,
        append_nil] at hlast
      obtain rfl := ih hwf' hlast hu
      by_cases hcell : s.cellKey? = some key
      · obtain ⟨hc, hk⟩ := cellKey?_eq' hcell
        rw [cellStep_none hk (by rw [hs, hc]; rfl) hc] at hstep
        cases hstep
      · rw [cellStep_irrelevant hs hrow hcell] at hstep
        exact (ok.inj hstep).symm

end Cell

/-! ## The values of one cell -/

/-- Effects on one cell that is there. -/
def OnlyCell (key : CellKey) (op : Op) : Prop :=
  rowOf op = key.rowKey ∧ op.col = some key.col ∧ isRowKind op.kind = false

section Values

variable {key : CellKey} {b x : Value} {k : OpKind} {kinds : List OpKind} {l : List Op}

lemma onlyCell_new (hk : isRowKind k = false) :
    OnlyCell key (.new key.tbl key.row (some key.col) k) := ⟨rfl, rfl, hk⟩

lemma runCell_some (h : ∀ op ∈ l, OnlyCell key op) : runCell key (some b) l
      = some <$> (l.map (·.kind)).foldlM (fun v k => execCell k v) b := by
  induction l generalizing b with
  | nil => rfl
  | cons op l ih =>
    obtain ⟨hk, hc, hrow⟩ := h op mem_cons_self
    rw [runCell_cons, cellStep_some hk hrow hc, map_cons, foldlM_cons]
    cases execCell op.kind b with
    | error e => rfl
    | ok v => exact ih fun o ho => h o (mem_cons_of_mem op ho)

/-- A run of effects on a cell starts from a value. -/
lemma runCell_ok {w : Option Value} (h : ∀ op ∈ l, OnlyCell key op) (hne : l ≠ [])
    (hrun : runCell key v l = .ok w) : ∃ b x, v = some b ∧ w = some x ∧
      (l.map (·.kind)).foldlM (fun v k => execCell k v) b = .ok x := by
  cases v with
  | none =>
    obtain ⟨op, l, rfl⟩ := exists_cons_of_ne_nil hne
    obtain ⟨hk, hc, hrow⟩ := h op mem_cons_self
    rw [runCell_cons, cellStep_none hk hrow hc] at hrun
    cases hrun
  | some b =>
    rw [runCell_some h] at hrun
    obtain ⟨x, hx, rfl⟩ := map_ok.mp hrun
    exact ⟨b, x, rfl, rfl, hx⟩

lemma execCell_scalar (hset : isSetKind k = false) (hrow : isRowKind k = false) :
    execCell k b = Agent.applyOp (some b) k := by
  cases k with
  | rowCreate image => cases hrow
  | rowDelete => cases hrow
  | setInsert elem dot => cases hset
  | setRemove elem dots => cases hset
  | _ => rfl

lemma exec_scalars (h : ∀ k ∈ kinds, isSetKind k = false ∧ isRowKind k = false) :
    kinds.foldlM (fun v k => execCell k v) b = Agent.replay b kinds := by
  induction kinds generalizing b with
  | nil => rfl
  | cons k kinds ih =>
    obtain ⟨hset, hrow⟩ := h k mem_cons_self
    rw [foldlM_cons, execCell_scalar hset hrow]
    exact bind_congr fun v => ih fun k' hk' => h k' (.tail _ hk')

lemma exec_sets (h : ∀ k ∈ kinds, isSetKind k = true) :
    kinds.foldlM (fun v k => execCell k v) b = .ok b := by
  induction kinds with
  | nil => rfl
  | cons k kinds ih =>
    have hk : execCell k b = .ok b := by
      have := h k mem_cons_self
      cases k <;> first | rfl | cases this
    rw [foldlM_cons, hk]
    exact ih fun k' hk' => h k' (.tail _ hk')

/-! ### The composed effect of a cell -/

lemma foldKinds_some {e : Option SideEffect} (hne : kinds ≠ [])
    (h : foldKinds base kinds = .ok e) : ∃ e', e = some e' := by
  obtain ⟨l, k, rfl⟩ := eq_nil_or_concat kinds |>.resolve_left hne
  rw [foldKinds, concat_eq_append, foldlM_append] at h
  obtain ⟨acc, -, h⟩ := bind_ok.mp h
  obtain ⟨e₁, h₁, h⟩ := bind_ok.mp h
  obtain ⟨e', -, rfl⟩ := map_ok.mp h₁
  exact ⟨e', (ok.inj h).symm⟩

lemma foldKinds_sets (hne : kinds ≠ [])
    (h : ∀ k ∈ kinds, isSetKind k = true) : ∃ c, foldKinds base kinds = .ok (some (.set c)) := by
  have hfold : ∀ (kinds : List OpKind) c, (∀ k ∈ kinds, isSetKind k = true) → ∃ c',
      kinds.foldlM (fun acc k => some <$> foldStep base acc k) (some (.set c))
        = .ok (some (.set c')) := by
    intro kinds
    induction kinds with
    | nil => exact fun c _ => ⟨c, rfl⟩
    | cons k kinds ih =>
      intro c h
      have hk := h k mem_cons_self
      have htail := fun c => ih c fun k' hk' => h k' (.tail _ hk')
      cases k with
      | setInsert elem dot => exact htail _
      | setRemove elem dots => exact htail _
      | _ => cases hk
  obtain ⟨k, kinds, rfl⟩ := exists_cons_of_ne_nil hne
  have hk := h k mem_cons_self
  have htail := fun c => hfold kinds c fun k' hk' => h k' (.tail _ hk')
  cases k with
  | setInsert elem dot => exact htail _
  | setRemove elem dots => exact htail _
  | _ => cases hk

/-- Set effects ahead of an assignment are given up with what it overwrites. -/
lemma foldKinds_dropSets {a : Value} (h : (kinds.dropWhile isSetKind).head? = some (.assign a)) :
    foldKinds base kinds = foldKinds base (kinds.dropWhile isSetKind) := by
  have hsets : ∀ k ∈ kinds.takeWhile isSetKind, isSetKind k = true := fun k => mem_takeWhile_imp
  conv_lhs => rw [← takeWhile_append_dropWhile (p := isSetKind) (l := kinds)]
  generalize kinds.takeWhile isSetKind = sets at *
  obtain ⟨rest, hrest⟩ := head?_eq_some_iff.mp h
  rw [hrest]
  cases sets with
  | nil => rfl
  | cons k sets =>
    obtain ⟨c, hc⟩ : ∃ c, foldKinds base (k :: sets) = .ok (some (.set c)) :=
      foldKinds_sets (cons_ne_nil k sets) hsets
    unfold foldKinds at hc ⊢
    rw [foldlM_append, hc]
    rfl

lemma exec_dropSets : kinds.foldlM (fun v k => execCell k v) b
      = (kinds.dropWhile isSetKind).foldlM (fun v k => execCell k v) b := by
  conv_lhs => rw [← takeWhile_append_dropWhile (p := isSetKind) (l := kinds)]
  rw [foldlM_append, exec_sets fun k => mem_takeWhile_imp, ok_bind]

lemma mem_setInserts_new {removed seen : List Agent.Dot} {inserts : List (Value × Agent.Dot)}
    (h : op ∈ setInserts key removed seen inserts) :
    ∃ k, isSetKind k = true ∧ op = .new key.tbl key.row (some key.col) k := by
  fun_induction setInserts key removed seen inserts with
  | case1 => simp at h
  | case2 seen elem dot rest _ ih => exact ih h
  | case3 seen elem dot rest _ _ ih => exact ih h
  | case4 seen elem dot rest _ _ ih =>
    rcases mem_cons.mp h with rfl | h
    · exact ⟨_, rfl, rfl⟩
    · exact ih h

lemma mem_composeSets {c c' : SetChange} (h : op ∈ composeSets key c c') :
    ∃ k, isSetKind k = true ∧ op = .new key.tbl key.row (some key.col) k := by
  unfold composeSets setRemoves at h
  simp only [mem_append, mem_map] at h
  rcases h with (⟨r, -, rfl⟩ | ⟨r, -, rfl⟩) | h
  · exact ⟨_, rfl, rfl⟩
  · exact ⟨_, rfl, rfl⟩
  · exact mem_setInserts_new h

/-- What composing a cell gives: effects on that cell, which bring it from one value to
another. -/
structure Brings (key : CellKey) (v w : Option Value) (part : Composition) : Prop where
  conflicts : part.conflicts = []
  onlyCell : ∀ op ∈ part.composed, OnlyCell key op
  run : runCell key v part.composed = .ok w

lemma emitFold_sets (hne : ops ≠ []) (h : ∀ s ∈ ops, isSetKind s.op.kind = true) :
    ∃ part, emitFold key ops base = .ok part ∧ Brings key (some b) (some b) part := by
  obtain ⟨c, hc⟩ : ∃ c, foldKinds base (ops.map (·.op.kind)) = .ok (some (.set c)) :=
    foldKinds_sets (by simpa using hne) (by simpa using h)
  have honly : ∀ op ∈ composeSets key c .empty, OnlyCell key op ∧ isSetKind op.kind = true := by
    intro op hop
    obtain ⟨k, hk, rfl⟩ := mem_composeSets hop
    refine ⟨onlyCell_new ?_, hk⟩
    cases k <;> first | rfl | cases hk
  refine ⟨_, by rw [emitFold, foldSide, hc]; rfl, rfl, fun op hop => (honly op hop).1, ?_⟩
  rw [runCell_some fun op hop => (honly op hop).1, exec_sets]
  · rfl
  · intro k hk
    obtain ⟨op, hop, rfl⟩ := mem_map.mp hk
    exact (honly op hop).2

/-- A cell composed from a value comes to what its effects do to the one it starts with, if they
make one run or come to the same from both. -/
lemma emitFold_scalars {b₀ x₀ : Value}
    (hfolds : foldSide ops (some b₀) = foldKinds (some b₀) kinds) (hne : kinds ≠ [])
    (hkinds : ∀ k ∈ kinds, k.InRange ∧ isSetKind k = false) (hb₀ : b₀.InRange) (hb : b.InRange)
    (hlead₀ : LeadingExact b₀ kinds) (hlead : LeadingExact b kinds)
    (hrun₀ : Agent.replay b₀ kinds = .ok x₀) (hrun : Agent.replay b kinds = .ok x)
    (hbase : OneRun kinds ∨ x = x₀) :
    ∃ part, emitFold key ops (some b₀) = .ok part ∧ Brings key (some b) (some x) part := by
  have hrange : ∀ k ∈ kinds, k.InRange := fun k hk => (hkinds k hk).1
  obtain ⟨e, hfold, hres⟩ := foldKinds_faithful hb₀ hrange hlead₀ hrun₀
  obtain ⟨e, rfl⟩ := foldKinds_some hne hfold
  have hres : e.resolve (some b₀) = .ok x₀ := hres
  obtain ⟨k, hk, happly, -⟩ := resolve_eq hres
  have hkind : isSetKind k = false ∧ isRowKind k = false := by
    cases e <;> cases hk <;> exact ⟨rfl, rfl⟩
  have hexec : execCell k b = .ok x := by
    rw [execCell_scalar hkind.1 hkind.2]
    by_cases hone : OneRun kinds
    · -- the fold is the same from the other value
      obtain ⟨e', hfold', hres'⟩ := foldKinds_faithful hb hrange hlead hrun
      have hsame : foldKinds (some b) kinds = foldKinds (some b₀) kinds := hone.foldKinds_eq
      rw [hsame, hfold] at hfold'
      cases hfold'
      obtain ⟨k', hk', happly', -⟩ := resolve_eq hres'
      rw [hk] at hk'
      cases hk'
      exact happly'
    · obtain ⟨a, rfl⟩ := foldKinds_of_not_oneRun (fun k hk => (hkinds k hk).2) hone hfold
      cases hk
      rw [hbase.resolve_left hone]
      exact hres
  have hemit : emitSingle key e (some b₀) = .ok { Composition.empty with
      composed := [.new key.tbl key.row (some key.col) k], cells := [(key, x₀)] } := by
    cases e with
    | set c => cases hk
    | _ =>
      simp only [emitSingle, hres, canonicalOp, hk]
      rfl
  refine ⟨_, by rw [emitFold, hfolds, hfold]; exact hemit, rfl, ?_, ?_⟩
  · intro op hop
    obtain rfl := mem_singleton.mp hop
    exact onlyCell_new hkind.2
  · have hcell : OnlyCell key (.new key.tbl key.row (some key.col) k) := onlyCell_new hkind.2
    rw [runCell_singleton, cellStep_some hcell.1 hcell.2.2 hcell.2.1]
    exact map_ok.mpr ⟨x, hexec, rfl⟩

end Values

/-! ## The whole side -/

lemma join_flatMap {β : Type} (proj : Composition → List β) (hempty : proj .empty = [])
    (happend : ∀ a b : Composition, proj (a.append b) = proj a ++ proj b)
    (parts : List Composition) : proj (.join parts) = parts.flatMap proj := by
  have hfold : ∀ acc : Composition,
      proj (parts.foldl Composition.append acc) = proj acc ++ parts.flatMap proj := by
    induction parts with
    | nil => simp
    | cons c parts ih => intro acc; simp [ih, happend]
  rw [Composition.join, hfold, hempty, nil_append]

/-- Of the parts of a list, one is on the cell. -/
lemma runCell_flatMap {κ : Type} [DecidableEq κ] {f : κ → List Op}
    {ks : List κ} (hnodup : ks.Nodup) (k₀ : κ) (hother : ∀ k ∈ ks, k ≠ k₀ → ∀ op ∈ f k, ∀ v,
      cellStep key.rowKey key.col v op = .ok v) (v : Option Value) :
    runCell key v (ks.flatMap f) = if k₀ ∈ ks then runCell key v (f k₀) else .ok v := by
  have hskip : ∀ (l : List Op) (v : Option Value), (∀ op ∈ l, ∀ v,
      cellStep key.rowKey key.col v op = .ok v) → runCell key v l = .ok v := by
    intro l v
    induction l with
    | nil => exact fun _ => rfl
    | cons op l ih =>
      intro h
      rw [runCell_cons, h op mem_cons_self]
      exact ih fun o ho => h o (mem_cons_of_mem op ho)
  induction ks generalizing v with
  | nil => rfl
  | cons k ks ih =>
    obtain ⟨hk, hks⟩ := nodup_cons.mp hnodup
    have ih := ih hks fun k' hk' => hother k' (.tail _ hk')
    rw [flatMap_cons, runCell_append]
    by_cases heq : k = k₀
    · subst heq
      rw [if_pos mem_cons_self]
      cases runCell key v (f k) with
      | error e => rfl
      | ok w =>
        rw [ok_bind, ih, if_neg hk]
    · rw [hskip (f k) v (hother k mem_cons_self heq), ok_bind, ih]
      simp [Ne.symm heq]

/-- The row that a cell is in is not deleted in the end. -/
def Stays (ops : List StampedOp) (key : CellKey) : Prop :=
  isDelete (rowOpsOf ops key.rowKey).getLast? = false

def cellKinds (ops : List StampedOp) (key : CellKey) : List OpKind :=
  (cellOpsOf ops key).map (·.op.kind)

/-- The effects on a cell behind those on it as a set. -/
def scalarKinds (ops : List StampedOp) (key : CellKey) : List OpKind :=
  (cellKinds ops key).dropWhile isSetKind

/-- A cell is used as a set or as a scalar, or as a scalar from an assignment on. -/
def Unmixed (ops : List StampedOp) (key : CellKey) : Prop :=
  (∀ k ∈ scalarKinds ops key, isSetKind k = false) ∧
    (scalarKinds ops key = cellKinds ops key ∨ scalarKinds ops key = [] ∨
      ∃ v, (scalarKinds ops key).head? = some (.assign v))

/-- Effects can be folded over one value in place of another: they get through there, and they
make one run or come to the same. -/
def Rebased (b₀ b : Value) (kinds : List OpKind) : Prop :=
  ∃ x₀, Agent.replay b₀ kinds = .ok x₀ ∧ LeadingExact b₀ kinds ∧
    (OneRun kinds ∨ Agent.replay b kinds = .ok x₀)

/-- When a side alone is composed to what it did. The last effect on a row has the latest stamp
of those on the row, and the effects on a cell that stays have the order of their stamps. On a row
that ends up created, no effect on a cell is left from before that, and the effects on a cell that
was there before can be folded over what it held then. Sets are kept apart from scalars, and the
increments a cell starts with add up exactly. -/
structure Ordered (t : PlainTable) (ops : List StampedOp) : Prop where
  rowStamps : ∀ key s, (rowOpsOf ops key).getLast? = some s → ∀ s' ∈ rowOpsOf ops key, stampLe s' s
  cellStamps : ∀ key, Stays ops key → (cellOpsOf ops key).Pairwise stampLe
  created : ∀ key s image, (rowOpsOf ops (CellKey.rowKey key)).getLast? = some s →
    s.op.kind = .rowCreate image →
    ops.Pairwise fun a b => a.cellKey? = some key → b.rowKey? ≠ some key.rowKey
  rebased : ∀ key b₀ b, rowOpsOf ops (CellKey.rowKey key) ≠ [] →
    t key.rowKey key.col = some b₀ → startValue t ops key = some b → scalarKinds ops key ≠ [] →
    Rebased b₀ b (scalarKinds ops key)
  unmixed : ∀ key, Stays ops key → Unmixed ops key
  increments : ∀ key b, startValue t ops key = some b → LeadingExact b (scalarKinds ops key)

/-- The values of a table and of effects are what their types hold. -/
structure OpsInRange (t : PlainTable) (ops : List StampedOp) : Prop where
  table : ∀ k c v, t k c = some v → v.InRange
  kinds : ∀ s ∈ ops, s.op.kind.InRange
  images : ∀ s ∈ ops, ∀ image, s.op.kind = .rowCreate image → ∀ v ∈ image, v.InRange

section Side

variable {t T : PlainTable} {ops : List StampedOp}

section

variable (h : Ordered t ops)
include h

lemma Ordered.rows_last (key : RowKey) :
    ((SideIndex.ofOps ops).rows.get key).getLast? = (rowOpsOf ops key).getLast? := by
  rw [ofOps_rows_get]
  change ((rowOpsOf ops key).insertionSort stampLe).getLast? = _
  cases hs : (rowOpsOf ops key).getLast? with
  | none =>
    rw [getLast?_eq_none_iff.mp hs]
    rfl
  | some s => exact getLast?_insertionSort hs (h.rowStamps key s hs)

lemma Ordered.cells_get (hkey : Stays ops key) :
    (SideIndex.ofOps ops).cells.get key = cellOpsOf ops key := by
  rw [ofOps_cells_get]
  exact (h.cellStamps key hkey).insertionSort_eq

omit h in
lemma rowOpsOf_spec (hwf : ∀ s ∈ ops, WellFormed s.op) {key : RowKey}
    (hs : s ∈ rowOpsOf ops key) :
    s ∈ ops ∧ s.rowKey? = some key ∧ rowOf s.op = key ∧ isRowKind s.op.kind = true := by
  obtain ⟨hmem, hk⟩ := mem_filter.mp hs
  have hk : s.rowKey? = some key := by simpa using hk
  obtain ⟨hc, hrow⟩ := rowKey?_eq hk
  exact ⟨hmem, hk, hrow, by rw [hwf s hmem, hc]; rfl⟩

omit h in
lemma cellOpsOf_spec (hwf : ∀ s ∈ ops, WellFormed s.op)
    (hs : s ∈ cellOpsOf ops key) : s ∈ ops ∧ OnlyCell key s.op := by
  obtain ⟨hmem, hk⟩ := mem_filter.mp hs
  obtain ⟨hc, hrow⟩ := cellKey?_eq' (by simpa using hk)
  exact ⟨hmem, hrow, hc, by rw [hwf s hmem, hc]; rfl⟩

omit h in
/-- The last effect on a row deletes it or creates it. -/
lemma lastRow_cases (hwf : ∀ s ∈ ops, WellFormed s.op) {key : RowKey}
    (hs : (rowOpsOf ops key).getLast? = some s) :
    s.op.kind = .rowDelete ∨ ∃ image, s.op.kind = .rowCreate image := by
  obtain ⟨-, -, -, hkind⟩ := rowOpsOf_spec hwf (mem_of_getLast? hs)
  cases hk : s.op.kind with
  | rowDelete => exact Or.inl rfl
  | rowCreate image => exact Or.inr ⟨image, rfl⟩
  | _ => rw [hk] at hkind; cases hkind

section

variable (hwf : ∀ s ∈ ops, WellFormed s.op)
include hwf

lemma mem_poisoned {key : RowKey} :
    key ∈ (rowsPart (.ofOps ops)).poisoned ↔ isDelete (rowOpsOf ops key).getLast? = true := by
  have hpart : ∀ k, key ∈ (rowPart (.ofOps ops) k).poisoned ↔
      k = key ∧ isDelete (rowOpsOf ops key).getLast? = true := by
    intro k
    unfold rowPart
    rw [h.rows_last]
    cases hs : (rowOpsOf ops k).getLast? with
    | none =>
      simp only [Composition.empty, not_mem_nil, false_iff, not_and]
      rintro rfl
      simp [hs, isDelete]
    | some s =>
      rcases lastRow_cases hwf hs with hk | ⟨image, hk⟩
      · simp only [hk, rowDeleted, mem_singleton]
        constructor
        · rintro rfl
          exact ⟨rfl, by simp [hs, isDelete, hk]⟩
        · exact fun h => h.1.symm
      · simp only [hk, rowCreated, Composition.empty, not_mem_nil, false_iff, not_and]
        rintro rfl
        simp [hs, isDelete, hk]
  rw [rowsPart, join_flatMap (·.poisoned) rfl fun _ _ => rfl, flatMap_map]
  simp only [mem_flatMap, hpart]
  constructor
  · rintro ⟨k, -, -, hdel⟩
    exact hdel
  · intro hdel
    obtain ⟨s, hs, -⟩ := isDelete_some hdel
    obtain ⟨hmem, hk, -⟩ := rowOpsOf_spec hwf (mem_of_getLast? hs)
    refine ⟨key, ?_, rfl, hdel⟩
    rw [mem_sortedKeys, mem_ofOps_rows_keys]
    exact ⟨s, hmem, hk⟩

/-- The rows a side creates, by their last effects. -/
lemma mem_created {p : RowKey × Row} : p ∈ (rowsPart (.ofOps ops)).created ↔
      ∃ s, (rowOpsOf ops p.1).getLast? = some s ∧ s.op.kind = .rowCreate p.2 := by
  have hpart : ∀ k, p ∈ (rowPart (.ofOps ops) k).created ↔
      k = p.1 ∧ ∃ s, (rowOpsOf ops p.1).getLast? = some s ∧ s.op.kind = .rowCreate p.2 := by
    intro k
    unfold rowPart
    rw [h.rows_last]
    cases hs : (rowOpsOf ops k).getLast? with
    | none =>
      simp only [Composition.empty, not_mem_nil, false_iff, not_and]
      rintro rfl
      simp [hs]
    | some s =>
      rcases lastRow_cases hwf hs with hk | ⟨image, hk⟩
      · simp only [hk, rowDeleted, Composition.empty, not_mem_nil, false_iff, not_and]
        rintro rfl
        simp [hs, hk]
      · simp only [hk, rowCreated, mem_singleton]
        constructor
        · rintro rfl
          exact ⟨rfl, s, hs, hk⟩
        · rintro ⟨rfl, s', hs', hk'⟩
          obtain rfl := Option.some.inj (hs.symm.trans hs')
          obtain rfl := OpKind.rowCreate.inj (hk.symm.trans hk')
          rfl
  rw [rowsPart, join_flatMap (·.created) rfl fun _ _ => rfl, flatMap_map]
  simp only [mem_flatMap, hpart]
  constructor
  · rintro ⟨k, -, -, hcr⟩
    exact hcr
  · rintro ⟨s, hs, hk⟩
    obtain ⟨hmem, hrk, -⟩ := rowOpsOf_spec hwf (mem_of_getLast? hs)
    refine ⟨p.1, ?_, rfl, s, hs, hk⟩
    rw [mem_sortedKeys, mem_ofOps_rows_keys]
    exact ⟨s, hmem, hrk⟩

lemma rowPart_composed (key : RowKey) : (rowPart (.ofOps ops) key).composed
      = ((rowOpsOf ops key).getLast?.map (·.op)).toList := by
  unfold rowPart
  rw [h.rows_last]
  cases hs : (rowOpsOf ops key).getLast? with
  | none => rfl
  | some s =>
    rcases lastRow_cases hwf hs with hk | ⟨image, hk⟩
    · simp [hk, rowDeleted]
    · simp [hk, rowCreated]

end

omit h in
lemma rowsPart_composed (ix : SideIndex) : (rowsPart ix).composed
    = (sortedKeys rowLe ix.rows.keys).flatMap fun key => (rowPart ix key).composed := by
  rw [rowsPart, join_flatMap (·.composed) rfl fun _ _ => rfl, flatMap_map]

lemma rowsPart_mem (hwf : ∀ s ∈ ops, WellFormed s.op)
    (hop : op ∈ (rowsPart (.ofOps ops)).composed) : ∃ s ∈ ops, s.op = op := by
  rw [rowsPart_composed] at hop
  obtain ⟨key, -, hop⟩ := mem_flatMap.mp hop
  rw [rowPart_composed h hwf] at hop
  obtain ⟨s, hs, hop⟩ := Option.map_eq_some_iff.mp (Option.mem_toList.mp hop)
  exact ⟨s, (rowOpsOf_spec hwf (mem_of_getLast? hs)).1, hop⟩

omit h in
lemma rowsPart_conflicts (ix : SideIndex) : (rowsPart ix).conflicts = [] := by
  rw [rowsPart, join_flatMap (·.conflicts) rfl fun _ _ => rfl, flatMap_map,
    flatMap_eq_nil_iff]
  intro key _
  unfold rowPart
  split
  · split <;> rfl
  · rfl

lemma runCell_rowsPart (hwf : ∀ s ∈ ops, WellFormed s.op) (key : CellKey) :
    runCell key (t key.rowKey key.col) (rowsPart (.ofOps ops)).composed
      = .ok (startValue t ops key) := by
  rw [rowsPart_composed, runCell_flatMap (nodup_sortedKeys rowLe _) key.rowKey]
  · rw [rowPart_composed h hwf, startValue]
    cases hs : (rowOpsOf ops key.rowKey).getLast? with
    | none => split_ifs <;> rfl
    | some s =>
      obtain ⟨hmem, hk, -⟩ := rowOpsOf_spec hwf (mem_of_getLast? hs)
      have hin : key.rowKey ∈ sortedKeys rowLe (SideIndex.ofOps ops).rows.keys := by
        rw [mem_sortedKeys, mem_ofOps_rows_keys]
        exact ⟨s, hmem, hk⟩
      rw [if_pos hin]
      exact (runCell_singleton _ _ _).trans (cellStep_row (hwf s hmem) hk)
  · intro k _ hne op hop v
    rw [rowPart_composed h hwf] at hop
    obtain ⟨s, hs, rfl⟩ := Option.map_eq_some_iff.mp (Option.mem_toList.mp hop)
    obtain ⟨-, -, hrow, -⟩ := rowOpsOf_spec hwf (mem_of_getLast? hs)
    exact cellStep_other (Or.inl (hrow ▸ hne))

omit h in
lemma context_eq (t : PlainTable) (fresh : List (RowKey × Row)) (key : CellKey) :
    baseValue t.context fresh key = .ok ((t key.rowKey key.col).or
      ((fresh.find? (·.1 = key.rowKey)).bind fun p => p.2[key.col]?)) := by
  unfold baseValue context
  cases h : t key.rowKey key.col with
  | some v => simp [show t ⟨key.tbl, key.row⟩ key.col = some v from h]
  | none => simp [show t ⟨key.tbl, key.row⟩ key.col = none from h]

/-- What the cells of one side do to a cell that stays. -/
lemma cells_run (hplay : t.plays (ops.map (·.op)) = .ok T) (key : CellKey)
    (hlive : isDelete (rowOpsOf ops key.rowKey).getLast? = false) :
    runCell key (startValue t ops key) ((cellOpsOf ops key).map (·.op))
      = .ok (T key.rowKey key.col) := by
  have hwf := wellFormed_ops hplay
  have hpair : ops.Pairwise fun a b => a.cellKey? = some key → b.rowKey? ≠ some key.rowKey := by
    cases hs : (rowOpsOf ops key.rowKey).getLast? with
    | none =>
      rw [getLast?_eq_none_iff, rowOpsOf, filter_eq_nil_iff] at hs
      exact pairwise_of_forall_mem_list fun a _ b hb _ => by simpa using hs b hb
    | some s =>
      rcases lastRow_cases hwf hs with hk | ⟨image, hk⟩
      · simp [hs, isDelete, hk] at hlive
      · exact h.created key s image hs hk
  have hrun : runCell key (t key.rowKey key.col) (ops.map (·.op)) = .ok (T key.rowKey key.col) :=
    cell_of_plays hplay key.rowKey key.col
  rw [runCell_split hwf hpair, map_append, runCell_append, runCell_rows hwf] at hrun
  exact hrun

/-- The value a cell is composed from: the one it starts with, or one its effects can be folded
over. -/
lemma baseValue_start (hr : OpsInRange t ops)
    (hwf : ∀ s ∈ ops, WellFormed s.op) {b : Value} (hstart : startValue t ops key = some b) :
    ∃ b₀, baseValue t.context (rowsPart (.ofOps ops)).created key = .ok (some b₀) ∧
      b₀.InRange ∧ b.InRange ∧ (b₀ = b ∨
        (scalarKinds ops key ≠ [] → Rebased b₀ b (scalarKinds ops key))) := by
  rw [context_eq]
  cases hs : (rowOpsOf ops key.rowKey).getLast? with
  | none =>
    have hstart : t key.rowKey key.col = some b := by simpa [startValue, hs] using hstart
    have hb := hr.table _ _ _ hstart
    exact ⟨b, by rw [hstart]; rfl, hb, hb, Or.inl rfl⟩
  | some s =>
    obtain ⟨hmem, -⟩ := rowOpsOf_spec hwf (mem_of_getLast? hs)
    rcases lastRow_cases hwf hs with hk | ⟨image, hk⟩
    · simp [startValue, hs, hk] at hstart
    · have himage : image[key.col]? = some b := by simpa [startValue, hs, hk] using hstart
      have hb := hr.images s hmem image hk b (mem_of_getElem? himage)
      cases ht : t key.rowKey key.col with
      | some b₀ =>
        have hne : rowOpsOf ops key.rowKey ≠ [] := ne_nil_of_mem (mem_of_getLast? hs)
        exact ⟨b₀, rfl, hr.table _ _ _ ht, hb, Or.inr (h.rebased key b₀ b hne ht hstart)⟩
      | none =>
        have hfind : (rowsPart (.ofOps ops)).created.find? (·.1 = key.rowKey)
            = some (key.rowKey, image) := by
          have hmem : (key.rowKey, image) ∈ (rowsPart (.ofOps ops)).created :=
            (mem_created h hwf).mpr ⟨s, hs, hk⟩
          cases hf : (rowsPart (.ofOps ops)).created.find? (·.1 = key.rowKey) with
          | none => exact absurd (find?_eq_none.mp hf _ hmem) (by simp)
          | some p =>
            obtain ⟨k, image'⟩ := p
            obtain rfl : k = key.rowKey := by simpa using find?_some hf
            obtain ⟨s', hs', hk'⟩ := (mem_created h hwf).mp (mem_of_find?_eq_some hf)
            obtain rfl := Option.some.inj (hs.symm.trans hs')
            rw [OpKind.rowCreate.inj (hk.symm.trans hk')]
        exact ⟨b, by simp [hfind, himage], hb, hb, Or.inl rfl⟩

/-- The composed effects of a cell that stays bring it to what the replay does. -/
lemma emitFold_brings (hr : OpsInRange t ops)
    (hplay : t.plays (ops.map (·.op)) = .ok T) (hne : cellOpsOf ops key ≠ [])
    (hlive : Stays ops key) :
    ∃ part, (baseValue t.context (rowsPart (.ofOps ops)).created key >>=
      emitFold key ((SideIndex.ofOps ops).cells.get key)) = .ok part ∧
      Brings key (startValue t ops key) (T key.rowKey key.col) part := by
  have hwf := wellFormed_ops hplay
  have honly : ∀ op ∈ (cellOpsOf ops key).map (·.op), OnlyCell key op := by
    intro op hop
    obtain ⟨s, hs, rfl⟩ := mem_map.mp hop
    exact (cellOpsOf_spec hwf hs).2
  obtain ⟨b, x, hb, hx, hexec⟩ := runCell_ok honly (by simpa using hne)
    (cells_run h hplay key hlive)
  rw [map_map] at hexec
  obtain ⟨b₀, hb₀, hrange₀, hrange, hbase⟩ := baseValue_start h hr hwf hb
  rw [h.cells_get hlive, hb₀, hb, hx]
  obtain ⟨hscalars, hmixed⟩ := h.unmixed key hlive
  by_cases hnil : scalarKinds ops key = []
  · -- set effects leave the value of the cell alone
    have hsets : ∀ k ∈ cellKinds ops key, isSetKind k = true := dropWhile_eq_nil_iff.mp hnil
    have hsame : ((cellOpsOf ops key).map ((·.kind) ∘ (·.op))).foldlM
        (fun v k => execCell k v) b = .ok b := exec_sets hsets
    rw [ok.inj (hexec.symm.trans hsame)]
    exact emitFold_sets hne fun s hs => hsets _ (mem_map_of_mem hs)
  · have hkinds : ∀ k ∈ scalarKinds ops key, (k.InRange ∧ isSetKind k = false) ∧
        isRowKind k = false := by
      intro k hk
      obtain ⟨s, hs, rfl⟩ := mem_map.mp ((dropWhile_sublist _).subset hk)
      obtain ⟨hmem, hcell⟩ := cellOpsOf_spec hwf hs
      exact ⟨⟨hr.kinds s hmem, hscalars _ hk⟩, hcell.2.2⟩
    have hreplay : Agent.replay b (scalarKinds ops key) = .ok x := by
      rw [← exec_scalars fun k hk => ⟨(hkinds k hk).1.2, (hkinds k hk).2⟩]
      exact exec_dropSets.symm.trans hexec
    have hfolds : foldSide (cellOpsOf ops key) (some b₀) =
        foldKinds (some b₀) (scalarKinds ops key) := by
      rcases hmixed with hsame | hempty | ⟨v, hv⟩
      · rw [hsame]
        rfl
      · exact absurd hempty hnil
      · exact foldKinds_dropSets hv
    have hlead := h.increments key b hb
    obtain ⟨x₀, hrun₀, hlead₀, hsame⟩ : Rebased b₀ b (scalarKinds ops key) := by
      rcases hbase with rfl | hrebased
      · exact ⟨x, hreplay, hlead, Or.inr hreplay⟩
      · exact hrebased hnil
    exact emitFold_scalars hfolds hnil (fun k hk => (hkinds k hk).1) hrange₀ hrange hlead₀ hlead
      hrun₀ hreplay (hsame.imp_right fun h => ok.inj (hreplay.symm.trans h))

lemma mem_liveCells (hwf : ∀ s ∈ ops, WellFormed s.op) :
    key ∈ liveCells (.ofOps ops) ↔ cellOpsOf ops key ≠ [] ∧
      isDelete (rowOpsOf ops key.rowKey).getLast? = false := by
  rw [liveCells, mem_filter, mem_sortedKeys, mem_ofOps_cells_keys, decide_eq_true_eq,
    mem_poisoned h hwf]
  simp [cellOpsOf]

/-- The rows bring a cell to the value it starts with, and its own effects to what the replay
does. -/
lemma run_composed (hplay : t.plays (ops.map (·.op)) = .ok T)
    (hbrings : ∀ key ∈ liveCells (.ofOps ops),
      Brings key (startValue t ops key) (T key.rowKey key.col) (part key)) (key : CellKey) :
    runCell key (t key.rowKey key.col) ((rowsPart (.ofOps ops)).composed ++
      (liveCells (.ofOps ops)).flatMap fun key => (part key).composed)
      = .ok (T key.rowKey key.col) := by
  have hwf := wellFormed_ops hplay
  have hnodup : (liveCells (.ofOps ops)).Nodup := (nodup_sortedKeys cellLe _).filter _
  rw [runCell_append, runCell_rowsPart h hwf, ok_bind, runCell_flatMap hnodup key]
  · split_ifs with hlive
    · exact (hbrings key hlive).run
    · cases hdel : isDelete (rowOpsOf ops key.rowKey).getLast? with
      | true =>
        have hnone := runCell_deleted (v := t key.rowKey key.col) hwf hdel
          (cell_of_plays hplay key.rowKey key.col)
        obtain ⟨s, hs, hk⟩ := isDelete_some hdel
        simp [startValue, hs, hk, hnone]
      | false =>
        have hnil : cellOpsOf ops key = [] := by
          by_contra hne
          exact hlive ((mem_liveCells h hwf).mpr ⟨hne, hdel⟩)
        have hrun := cells_run h hplay key hdel
        rw [hnil] at hrun
        exact hrun
  · intro key' hkey' hne op hop v
    obtain ⟨hrow, hc, hkind⟩ := (hbrings key' hkey').onlyCell op hop
    refine cellStep_other ?_
    by_cases heq : key'.rowKey = key.rowKey
    · refine Or.inr ⟨hkind, fun hc' => hne ?_⟩
      obtain ⟨a, b, d⟩ := key'
      obtain ⟨rfl, rfl⟩ := heq
      obtain rfl := Option.some.inj (hc.symm.trans hc')
      rfl
    · exact Or.inl (hrow ▸ heq)

/-- One side alone is composed to what it did. -/
lemma compose_alone (hr : OpsInRange t ops)
    (hplay : t.plays (ops.map (·.op)) = .ok T) {ours theirs : SideIndex}
    (halone : Alone (.ofOps ops) ours theirs) (oo ot : HashOrder) (policies : PolicyTable) :
    ∃ comp, compose oo ot ours theirs policies t.context = .ok comp ∧ comp.conflicts = [] ∧
      t.plays comp.composed = .ok T := by
  have hwf := wellFormed_ops hplay
  have hbrings := fun key (hkey : key ∈ liveCells (.ofOps ops)) => emitFold_brings h hr hplay
    ((mem_liveCells h hwf).mp hkey).1 ((mem_liveCells h hwf).mp hkey).2
  have hne : Nonempty Composition := ⟨.empty⟩
  choose! part hpart hbrings using hbrings
  have hcomposed : ((rowsPart (.ofOps ops)).append
      (.join ((liveCells (.ofOps ops)).map part))).composed
      = (rowsPart (.ofOps ops)).composed ++
        (liveCells (.ofOps ops)).flatMap fun key => (part key).composed := by
    rw [← flatMap_map, ← join_flatMap (·.composed) rfl fun _ _ => rfl]
    rfl
  refine ⟨_, halone.compose (fun key s hs => ?_) hpart, ?_, ?_⟩
  · rw [ofOps_rows_get, mem_insertionSort] at hs
    exact (rowOpsOf_spec hwf hs).2.2.2
  · refine append_eq_nil_iff.mpr ⟨rowsPart_conflicts _, ?_⟩
    rw [join_flatMap (·.conflicts) rfl fun _ _ => rfl, flatMap_map, flatMap_eq_nil_iff]
    exact fun key hkey => (hbrings key hkey).conflicts
  · rw [hcomposed]
    refine plays_of_cells (fun op hop => ?_) fun rk c =>
      run_composed h hplay hbrings ⟨rk.tbl, rk.row, c⟩
    rcases mem_append.mp hop with hop | hop
    · obtain ⟨s, hs, rfl⟩ := rowsPart_mem h hwf hop
      exact hwf s hs
    · obtain ⟨key, hkey, hop⟩ := mem_flatMap.mp hop
      obtain ⟨-, hc, hrow⟩ := (hbrings key hkey).onlyCell op hop
      rw [hc, hrow]
      rfl

end

end Side

/-! ## Frames on one side -/

/-- The composition pass over the frames of two sides. -/
def composition (oo ot : HashOrder) (policies : PolicyTable) (base : GuardContext)
    (ours theirs : List TxnFrame) : Except FerroError Composition :=
  let frames := (dedupByTxn ours theirs).1
  compose oo ot (.ofOps (sideOps frames .ours)) (.ofOps (sideOps frames .theirs)) policies base

/-- A frame of effects on one row. -/
def rowFrame (txn seq : ℕ) (effects : List (Option ColId × OpKind)) : TxnFrame :=
  ⟨txn, ⟨1, 0⟩, seq, 1, effects.map fun e => .new 1 1 e.1 e.2, [], []⟩

/-- A table of one cell. -/
def oneCell (v : Value) : PlainTable := fun k c => if k = ⟨1, 1⟩ ∧ c = 0 then some v else none

/-- The effects of a frame that deletes a row, creates it again and changes it. -/
def recreating : List StampedOp :=
  [⟨.new 1 1 none .rowDelete, ⟨1, 0⟩, 1, 1⟩,
    ⟨.new 1 1 none (.rowCreate [.integer 7]), ⟨1, 0⟩, 1, 1⟩,
    ⟨.new 1 1 (some 0) (.add (.int 5)), ⟨1, 0⟩, 1, 1⟩]

end FerroDb.Tel
