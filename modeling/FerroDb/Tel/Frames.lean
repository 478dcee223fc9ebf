import FerroDb.Tel.Engine

/-!
# Frames taken once

What the passes of a merge see of the frames they are given: each side's frames in replay order,
one for each transaction, and their effects by row and by cell in the order of their stamps.

## Main definitions

* `distinctFrames` — the frames of a side that a merge keeps.
* `frameOps` — their effects.
-/

namespace FerroDb.Tel

open Agent (TableId RowId ColId RowKey Op OpKind GuardContext)
open Library (Groups)
open Sql List SideIndex Function

/-! ## Keeping a transaction once -/

/-- The frames whose transaction was not seen before. -/
def unseen (kept : List ℕ) : List TxnFrame → List TxnFrame
  | [] => []
  | f :: fs => if f.txnId ∈ kept then unseen kept fs else f :: unseen (kept ++ [f.txnId]) fs

/-- The frames of one side that a merge keeps, in the order of their replay. -/
def distinctFrames (frames : List TxnFrame) : List TxnFrame :=
  unseen [] (frames.insertionSort replayLe)

/-- The effects of frames, one frame after another. -/
def frameOps (frames : List TxnFrame) : List StampedOp := frames.flatMap stampedOps

section Unseen

variable {kept : List ℕ} {fs : List TxnFrame} {f g : TxnFrame}

lemma unseen_sublist : (unseen kept fs).Sublist fs := by
  fun_induction unseen kept fs with
  | case1 => exact .slnil
  | case2 kept f fs _ ih => exact ih.cons f
  | case3 kept f fs _ ih => exact ih.cons_cons f

lemma unseen_append {l : List ℕ} (h : ∀ f ∈ fs, f.txnId ∉ kept) :
    unseen (kept ++ l) fs = unseen l fs := by
  induction fs generalizing l with
  | nil => rfl
  | cons f fs ih =>
    have hf : f.txnId ∉ kept := h f mem_cons_self
    have hfs : ∀ g ∈ fs, g.txnId ∉ kept := fun g hg => h g (.tail _ hg)
    simp [unseen, hf, ih hfs]

lemma foldl_dedupStep (fs : List TxnFrame) (side : Side) (acc : List (TxnFrame × Side) × Deduped) :
    (fs.foldl (dedupStep side) acc).1 = acc.1 ++ (unseen acc.2.kept fs).map (·, side) ∧
      (fs.foldl (dedupStep side) acc).2.kept
        = acc.2.kept ++ (unseen acc.2.kept fs).map (·.txnId) := by
  induction fs generalizing acc with
  | nil => simp [unseen]
  | cons f fs ih =>
    rw [foldl_cons]
    obtain ⟨hfst, hkept⟩ := ih (dedupStep side acc f)
    rw [hfst, hkept]
    by_cases hf : f.txnId ∈ acc.2.kept
    · simp [dedupStep, unseen, hf]
    · simp [dedupStep, unseen, hf]

lemma mem_distinctFrames (h : f ∈ distinctFrames fs) : f ∈ fs :=
  (perm_insertionSort replayLe fs).mem_iff.mp (unseen_sublist.mem h)

end Unseen

/-- Sides with disjoint transactions are kept apart from each other. -/
lemma dedupByTxn_fst {ours theirs : List TxnFrame}
    (h : ∀ f ∈ ours, ∀ g ∈ theirs, f.txnId ≠ g.txnId) :
    (dedupByTxn ours theirs).1 = (distinctFrames ours).map (·, Side.ours) ++
      (distinctFrames theirs).map (·, Side.theirs) := by
  unfold dedupByTxn
  obtain ⟨hfst, hkept⟩ := foldl_dedupStep (ours.insertionSort replayLe) .ours ([], ⟨[], []⟩)
  rw [(foldl_dedupStep _ _ _).1, hkept]
  congr 2
  have hdisj : ∀ g ∈ theirs.insertionSort replayLe,
      g.txnId ∉ (distinctFrames ours).map (·.txnId) := by
    intro g hg hmem
    obtain ⟨f, hf, heq⟩ := mem_map.mp hmem
    exact h f (mem_distinctFrames hf) g ((perm_insertionSort _ _).mem_iff.mp hg) heq
  have := unseen_append (l := []) hdisj
  rwa [append_nil] at this

section SideOps

variable (A B : List TxnFrame)

@[simp] lemma sideOps_ours :
    sideOps (A.map (·, Side.ours) ++ B.map (·, Side.theirs)) .ours = frameOps A := by
  simp [sideOps, frameOps, filter_map, flatMap_map, comp_def]

@[simp] lemma sideOps_theirs :
    sideOps (A.map (·, Side.ours) ++ B.map (·, Side.theirs)) .theirs = frameOps B := by
  simp [sideOps, frameOps, filter_map, flatMap_map, comp_def]

end SideOps

variable {s : StampedOp} {key : CellKey}

/-! ## The index of a side -/

lemma isDelete_some {s : Option StampedOp} (h : isDelete s = true) :
    ∃ d, s = some d ∧ d.op.kind = .rowDelete := by
  cases s with
  | none => cases h
  | some d => exact ⟨d, rfl, by simpa [isDelete] using h⟩

section Index

variable (ops : List StampedOp)

lemma ofOps_cells_get (key : CellKey) : (ofOps ops).cells.get key
    = (ops.filter (·.cellKey? = some key)).insertionSort stampLe := by
  simp [ofOps, Groups.get_mapValues, Groups.get_collect]

lemma ofOps_rows_get (key : RowKey) : (ofOps ops).rows.get key
    = (ops.filter (·.rowKey? = some key)).insertionSort stampLe := by
  simp [ofOps, Groups.get_mapValues, Groups.get_collect]

lemma mem_ofOps_cells_keys : key ∈ (ofOps ops).cells.keys ↔ ∃ s ∈ ops, s.cellKey? = some key := by
  rw [ofOps, Groups.keys_mapValues, Groups.mem_keys_collect]
  simp [Groups.keys]

lemma mem_ofOps_rows_keys {key : RowKey} :
    key ∈ (ofOps ops).rows.keys ↔ ∃ s ∈ ops, s.rowKey? = some key := by
  rw [ofOps, Groups.keys_mapValues, Groups.mem_keys_collect]
  simp [Groups.keys]

end Index

end FerroDb.Tel
