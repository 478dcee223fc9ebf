import FerroDb.Cow.Partition
import FerroDb.Cow.Cid

/-!
# Histories of a tree

A tree made by a list of operations holds the rows that the operations make of none, and its
leaves are the runs of these rows, as long as no merge goes astray. Where one does, rows stand
under a leaf that the tree does not lead to, and the leaves come to depend on the history.
-/

namespace FerroDb.Cow

open Library SepTree M CowTree

/-- Runs operations one after another, each on the root that the one before it returned. -/
def runAll : List Op → PageId → M PageId
  | [], root => return root
  | op :: ops, root => do runAll ops (← op.run root)

/-- Makes a tree by a list of operations. -/
def build (ops : List Op) : M PageId := do runAll ops (← create)

/-- The rows that operations make of none. -/
def rowsAfter (ops : List Op) : Rows := ops.foldl Op.apply []

lemma create_stands (s : State) :
    wp create (fun i s' => Stands s' (.leaf i []) ∧ s'.strayed = s.strayed) (fun _ => True) s := by
  have hcall (s : State) : wp call (fun _ s' => Reads s s') (fun _ => True) s := by
    simp only [call, wp_bind, wp_get, wp_set]
    split
    · exact wp_throw.mpr trivial
    · exact wp_pure.mpr ⟨rfl, rfl, rfl, rfl, .call s⟩
  refine wp_bind.mpr ((hcall s).bind fun _ s₁ h₁ => wp_pure.mpr ?_)
  refine wp_bind.mpr ((hcall s₁).bind fun a s₂ h₂ => ?_)
  simp only [wp_bind, wp_get]
  split
  · exact wp_throw.mpr trivial
  refine wp_bind.mpr (wp_set.mpr (wp_pure.mpr (wp_bind.mpr (wp_bind.mpr
    ((hcall _).mono fun _ s₃ h₃ => ?_)))))
  have hfresh : s₃.pages a.fresh = some ⟨.leaf [], 0⟩ := by
    rw [h₃.pages]
    exact Function.update_self ..
  rw [view]
  simp only [wp_bind, wp_get, hfresh, wp_pure, M.write, wp_modify]
  refine ⟨⟨fun c hc => ?_, by simp⟩, h₃.strayed.trans (h₂.strayed.trans h₁.strayed)⟩
  rw [cells_leaf, Multiset.mem_singleton] at hc
  simp [hc, Stored.write]

section Run

variable {op : Op} {ops done : List Op} {s s' : State} {T : Tree} {r : PageId}
  {P : List Op → Tree → Prop}

lemma runAll_cons (hrun : ((runAll (op :: ops) T.id).run s : Except FerroError PageId × State) =
      (.ok r, s')) :
    ∃ r₁ s₁, ((op.run T.id).run s : Except FerroError PageId × State) = (.ok r₁, s₁) ∧
      ((runAll ops r₁).run s₁ : Except FerroError PageId × State) = (.ok r, s') := by
  rw [runAll, run_bind] at hrun
  split at hrun
  · next r₁ s₁ h => exact ⟨r₁, s₁, h, hrun⟩
  · cases hrun

lemma runAll_strayed (hs : Stands s T)
    (hrun : ((runAll ops T.id).run s : Except FerroError PageId × State) = (.ok r, s'))
    (hstray : s'.strayed = false) : s.strayed = false := by
  induction ops generalizing s T with
  | nil =>
    cases hrun
    exact hstray
  | cons op ops ih =>
    obtain ⟨r₁, s₁, hop, hrest⟩ := runAll_cons hrun
    obtain ⟨T₁, strays, rfl, -, hs₁, -, hflag⟩ := op.run_cases hs hop
    rw [ih hs₁ hrest] at hflag
    exact (Bool.or_eq_false_iff.mp hflag.symm).1

/-- What every operation keeps that has not gone astray, a run keeps. -/
lemma runAll_induct (hs : Stands s T)
    (hrun : ((runAll ops T.id).run s : Except FerroError PageId × State) = (.ok r, s'))
    (hstray : s'.strayed = false) (hP : P done T)
    (hstep : ∀ pre op T T', pre ++ [op] <+: done ++ ops → P pre T → op.Makes false T T' →
      P (pre ++ [op]) T') : ∃ T', T'.id = r ∧ Stands s' T' ∧ P (done ++ ops) T' := by
  induction ops generalizing s T done with
  | nil =>
    cases hrun
    exact ⟨T, rfl, hs, by simpa using hP⟩
  | cons op ops ih =>
    obtain ⟨r₁, s₁, hop, hrest⟩ := runAll_cons hrun
    obtain ⟨T₁, strays, rfl, hmakes, hs₁, -, hflag⟩ := op.run_cases hs hop
    rw [runAll_strayed hs₁ hrest hstray] at hflag
    rw [(Bool.or_eq_false_iff.mp hflag.symm).2] at hmakes
    have happend : done ++ op :: ops = (done ++ [op]) ++ ops := by simp
    rw [happend] at hstep ⊢
    exact ih hs₁ hrest (hstep done op T T₁ (List.prefix_append _ _) hP hmakes) hstep

end Run

variable {r : PageId} {ops : List Op} {s s' : State}

/-- A tree that a history has made, unless it went astray. -/
lemma build_induct {P : List Op → Tree → Prop}
    (hrun : ((build ops).run s : Except FerroError PageId × State) = (.ok r, s'))
    (hstray : s'.strayed = false) (hP : ∀ i, P [] (.leaf i []))
    (hstep : ∀ pre op T T', pre ++ [op] <+: ops → P pre T → op.Makes false T T' →
      P (pre ++ [op]) T') : ∃ T, T.id = r ∧ Stands s' T ∧ P ops T := by
  rw [build, run_bind] at hrun
  split at hrun
  · next i s₁ hcreate =>
    have hs := (wp_ok hcreate (create_stands s)).1
    simpa using runAll_induct hs hrun hstray (hP i) (by simpa using hstep)
  · cases hrun

lemma rowsAfter_concat (ops : List Op) (op : Op) :
    rowsAfter (ops ++ [op]) = op.apply (rowsAfter ops) := by
  simp [rowsAfter]

/-- And so do its leaves, if the runs fit at every time. -/
lemma build_leaves (hrun : ((build ops).run s : Except FerroError PageId × State) = (.ok r, s'))
    (hstray : s'.strayed = false) (hfit : ∀ pre ∈ ops.inits, Fit (rowsAfter pre)) :
    ∃ T, T.id = r ∧ Stands s' T ∧
      T.leaves = pieces (rowsAfter ops) (0 :: leafCutsOf (rowsAfter ops)) := by
  obtain ⟨T, hid, hs, -, hrows, hparted⟩ := build_induct
    (P := fun ops T => WF ⊥ ⊤ T ∧ T.entries = rowsAfter ops ∧ Parted T) hrun hstray
    (fun i => ⟨by simp [Ascending], by simp [rowsAfter], .inl (by simp)⟩) (by
      rintro pre op T T' hpre ⟨hT, hrows, hparted⟩ hmakes
      obtain ⟨hT', hrows'⟩ := hmakes.correct hT
      rw [hrows, ← rowsAfter_concat] at hrows'
      refine ⟨hT', hrows', hmakes.parted hT hparted ?_⟩
      rw [hrows']
      exact hfit _ (List.mem_inits _ _ |>.mpr hpre))
  refine ⟨T, hid, hs, ?_⟩
  rw [hparted.eq_runs, hrows, pieces_leafCutsOf (hfit _ (List.mem_inits _ _ |>.mpr List.prefix_rfl))]

/-- Two histories that make the same rows make the same leaves, the pieces that the chunker cuts
the rows into, and leaves with the same content ids, provided that the runs of rows fit into
pages all the way and that neither history has gone astray. -/
theorem leaves_of_same_rows (ops₁ ops₂ : List Op) (s₁ s₂ s₁' s₂' : State) (r₁ r₂ : PageId)
    (hrun₁ : ((build ops₁).run s₁ : Except FerroError PageId × State) = (.ok r₁, s₁'))
    (hrun₂ : ((build ops₂).run s₂ : Except FerroError PageId × State) = (.ok r₂, s₂'))
    (hfit₁ : ∀ pre ∈ ops₁.inits, Fit (rowsAfter pre))
    (hfit₂ : ∀ pre ∈ ops₂.inits, Fit (rowsAfter pre))
    (hrows : rowsAfter ops₁ = rowsAfter ops₂)
    (hstray₁ : s₁'.strayed = false) (hstray₂ : s₂'.strayed = false) :
    ∃ T₁ T₂ ls, T₁.id = r₁ ∧ Stands s₁' T₁ ∧ T₂.id = r₂ ∧ Stands s₂' T₂ ∧
      ls = pieces (rowsAfter ops₁) (0 :: leafCutsOf (rowsAfter ops₁)) ∧
      T₁.leaves = ls ∧ T₂.leaves = ls ∧
      (T₁.height ≤ Cid.maxDescent →
        leafPartitionCid s₁'.reader r₁ = .ok (partitionCid (ls.map leafCid))) ∧
      (T₂.height ≤ Cid.maxDescent →
        leafPartitionCid s₂'.reader r₂ = .ok (partitionCid (ls.map leafCid))) := by
  obtain ⟨T₁, rfl, hs₁, hleaves₁⟩ := build_leaves hrun₁ hstray₁ hfit₁
  obtain ⟨T₂, rfl, hs₂, hleaves₂⟩ := build_leaves hrun₂ hstray₂ hfit₂
  rw [← hrows] at hleaves₂
  refine ⟨T₁, T₂, _, rfl, hs₁, rfl, hs₂, rfl, hleaves₁, hleaves₂, fun h => ?_, fun h => ?_⟩
  · rw [leafPartitionCid_spec hs₁.holds h, hleaves₁]
  · rw [leafPartitionCid_spec hs₂.holds h, hleaves₂]

/-- A store with no page in use, which gives out pages in order and lets all be written in
place. -/
def freshStore : State where
  pages _ := none
  journal := ⟨[], []⟩
  freed := []
  answers n := ⟨none, fun _ => true, fun _ => true, n + 1, fun _ => true⟩
  calls := 0
  strayed := false

lemma run_eq_ok {x : Except FerroError PageId × State}
    (h : x.1.toOption = some r) : x = (.ok r, x.2) := by
  obtain ⟨_ | r', s⟩ := x
  · cases h
  · cases h
    rfl

theorem leaves_of_same_rows_two :
    ∃ T₁ T₂ : Tree, T₁.leaves = [[([1], []), ([2], [])]] ∧ T₁.leaves = T₂.leaves := by
  obtain ⟨T₁, T₂, ls, -, -, -, -, hls, h₁, h₂, -⟩ := leaves_of_same_rows
    [.insert [1] [], .insert [2] []] [.insert [2] [], .insert [1] []] freshStore freshStore _ _
    2 2 (run_eq_ok (by decide +kernel)) (run_eq_ok (by decide +kernel)) (by decide +kernel)
    (by decide +kernel) (by decide +kernel) (by decide +kernel) (by decide +kernel)
  exact ⟨T₁, T₂, h₁.trans (hls.trans (by decide +kernel)), h₁.trans h₂.symm⟩

/-- A key that takes a quarter of a page. -/
def longKey (b : UInt8) : Key := List.replicate 990 b

/-- A history in which a deletion makes a leaf take over the entries of a right neighbour under
another parent, after which a key is put once more that the tree holds but no longer finds. -/
def strayHistory : List Op :=
  [.insert (longKey 10) [], .insert (longKey 20) [], .insert (longKey 30) [],
    .insert (longKey 40) [], .insert (longKey 50) [], .insert (longKey 60) [], .insert [35] [],
    .delete (longKey 40), .insert (longKey 50) []]

/-- A history of insertions that makes the same rows. -/
def plainHistory : List Op :=
  [.insert (longKey 10) [], .insert (longKey 20) [], .insert (longKey 30) [], .insert [35] [],
    .insert (longKey 50) [], .insert (longKey 60) []]

/-- The number of leaves under the root that a history has made. -/
def leafCount (ops : List Op) : Option ℕ :=
  match ((build ops).run freshStore : Except FerroError PageId × State) with
  | (.ok root, s) => (forEachLeaf s.reader (fun n _ => n + 1) (Cid.maxDescent + 1) root 0).toOption
  | (.error _, _) => none

theorem leaves_depend_on_history :
    rowsAfter strayHistory = rowsAfter plainHistory ∧
      (∀ pre ∈ strayHistory.inits, Fit (rowsAfter pre)) ∧
      (∀ pre ∈ plainHistory.inits, Fit (rowsAfter pre)) ∧
      leafCount strayHistory = some 6 ∧ leafCount plainHistory = some 5 := by
  decide +kernel

end FerroDb.Cow
