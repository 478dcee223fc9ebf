import FerroDb.Replication.Committed

/-!
# Walking a range of the log

The decoder's walk over a range against the committed events. Started at any record, with the
mapping in force there, it has in view for every transaction what stands in the range, and its
events are what the range releases. Only who wrote them may be named differently: the walk names
the first session of a run it meets in the range.

## Main definitions

* `Walk.viewOf` — what a walk has pending for a transaction.
* `Sim` — a walk has the pending views and the events of its range.

## Main results

* `Sim.step`, `Sim.walk` — a record more, and a whole range.
-/

namespace FerroDb.Replication

open Library Library.CommitFeed Sql Storage Wal Except List Walk Mapping ChangeEvent Function Std Bool

variable {run : RunEntity} {op : DdlOp} {table : String} {timeTravelRoot : ℕ}
  {columns : List Column}

/-! ## One step of the walk -/

namespace Walk

/-- What the walk has pending for a transaction. -/
def viewOf (w : Walk) (t : ℕ) : View := ⟨w.changesOf t, w.relocating[t]?⟩

/-- Only what is pending differs. -/
structure Frame (w w' : Walk) : Prop where
  mapping : w'.mapping = w.mapping
  learned : w'.learned = w.learned
  runs : w'.runs = w.runs
  bound : w'.bound = w.bound
  events : w'.out.events = w.out.events

variable {deserialize : Schema → List UInt8 → Except FerroError Row} {w w' : Walk}
  {lsn next txn dirRoot t : ℕ} {half : Option ℕ} {tuple old new : List UInt8} {r : LogRecord}

lemma changesOf_eq : w.changesOf t = w.staged[t]?.getD [] :=
  TreeMap.getD_eq_getD_getElem?

lemma changesOf_setChanges {changes : List Change} :
    (w.setChanges txn changes).changesOf t = if t = txn then changes else w.changesOf t := by
  rw [changesOf_eq, changesOf_eq, setChanges, getElem?_insert_if]
  split <;> rfl

lemma heapInsert_ok (h : w.heapInsert deserialize half lsn txn dirRoot tuple = .ok w') :
    w.Frame w' ∧ w'.relocating = w.relocating ∧
      ∀ t, w'.changesOf t = if t = txn then
          match w.mapping.rowOf deserialize dirRoot tuple with
          | some (table, columns, values) =>
            pairInsert half dirRoot lsn table columns values (w.changesOf t)
          | none => w.changesOf t
        else w.changesOf t := by
  obtain ⟨res, hres, h⟩ := bind_ok.mp h
  unfold Mapping.rowOf
  rw [hres]
  cases res with
  | row table columns values =>
    obtain rfl := ok.inj h
    refine ⟨⟨rfl, rfl, rfl, rfl, rfl⟩, rfl, fun t => ?_⟩
    rw [changesOf_setChanges]
    split_ifs with ht
    · rw [ht]
    · rfl
  | unknownTable | undecodable =>
    obtain rfl := ok.inj h
    exact ⟨⟨rfl, rfl, rfl, rfl, rfl⟩, rfl, fun t => (ite_self _).symm⟩

lemma heapDelete_ok (h : w.heapDelete deserialize lsn txn dirRoot old = .ok w') : w.Frame w' ∧
      ∀ t, w'.viewOf t = if t = txn then
          if isDead old then w.viewOf t
          else
            match w.mapping.rowOf deserialize dirRoot old with
            | some (table, columns, values) =>
              ⟨w.changesOf t ++ [⟨lsn, table, columns, .delete values⟩], some dirRoot⟩
            | none => w.viewOf t
        else w.viewOf t := by
  unfold heapDelete at h
  by_cases hdead : isDead old
  · rw [if_pos hdead] at h
    obtain rfl := ok.inj h
    refine ⟨⟨rfl, rfl, rfl, rfl, rfl⟩, fun t => ?_⟩
    rw [if_pos hdead]
    exact (ite_self _).symm
  · rw [if_neg hdead] at h
    obtain ⟨res, hres, h⟩ := bind_ok.mp h
    simp only [if_neg hdead]
    unfold Mapping.rowOf
    rw [hres]
    cases res with
    | row table columns values =>
      obtain rfl := ok.inj h
      refine ⟨⟨rfl, rfl, rfl, rfl, rfl⟩, fun t => ?_⟩
      rw [viewOf, getElem?_insert_if]
      change View.mk ((w.setChanges txn _).changesOf t) _ = _
      rw [changesOf_setChanges]
      split_ifs with ht
      · rw [ht]
      · rfl
    | unknownTable | undecodable =>
      obtain rfl := ok.inj h
      exact ⟨⟨rfl, rfl, rfl, rfl, rfl⟩, fun t => (ite_self _).symm⟩

lemma heapUpdate_ok (h : w.heapUpdate deserialize lsn txn dirRoot old new = .ok w') :
    w.Frame w' ∧ w'.relocating = w.relocating ∧
      ∀ t, w'.changesOf t = if t = txn then
          match w.mapping.rowOf deserialize dirRoot old, w.mapping.rowOf deserialize dirRoot new with
          | some (table, columns, oldRow), some (_, _, newRow) =>
            w.changesOf t ++
              [⟨lsn, table, columns, updateOp (isDead old) (isDead new) oldRow newRow⟩]
          | _, _ => w.changesOf t
        else w.changesOf t := by
  obtain ⟨res₁, hres₁, h⟩ := bind_ok.mp h
  obtain ⟨res₂, hres₂, h⟩ := bind_ok.mp h
  unfold Mapping.rowOf
  rw [hres₁, hres₂]
  cases res₁ with
  | row table columns oldRow =>
    cases res₂ with
    | row table' columns' newRow =>
      obtain rfl := ok.inj h
      refine ⟨⟨rfl, rfl, rfl, rfl, rfl⟩, rfl, fun t => ?_⟩
      rw [changesOf_setChanges]
      split_ifs with ht
      · rw [ht]
      · rfl
    | unknownTable | undecodable =>
      obtain rfl := ok.inj h
      exact ⟨⟨rfl, rfl, rfl, rfl, rfl⟩, rfl, fun t => (ite_self _).symm⟩
  | unknownTable =>
    obtain rfl := ok.inj h
    exact ⟨⟨rfl, rfl, rfl, rfl, rfl⟩, rfl, fun t => (ite_self _).symm⟩
  | undecodable =>
    cases res₂ <;>
    · obtain rfl := ok.inj h
      exact ⟨⟨rfl, rfl, rfl, rfl, rfl⟩, rfl, fun t => (ite_self _).symm⟩

/-- The walk without the memory of a row that was moving. -/
abbrev settled (w : Walk) (txn : ℕ) : Walk := { w with relocating := w.relocating.erase txn }

lemma viewOf_settled : (w.settled txn).viewOf t =
    if t = txn then ⟨w.changesOf t, none⟩ else w.viewOf t := by
  rw [viewOf, getElem?_erase_if]
  split_ifs <;> rfl

section

variable (h : w.step deserialize r.lsn next r = .ok w')
include h

/-- A heap record changes what its transaction has pending, and nothing else. -/
lemma step_heap (hkind : isHeap r.kind) : w.Frame w' ∧ ∀ t, w'.viewOf t =
      if t = r.txnId then stage deserialize w.mapping r (w.viewOf t) else w.viewOf t := by
  unfold step at h
  unfold stage
  by_cases hint : w.mapping.internalRoot r.kind
  · rw [if_pos hint] at h
    obtain rfl := ok.inj h
    refine ⟨⟨rfl, rfl, rfl, rfl, rfl⟩, fun t => ?_⟩
    rw [if_pos hint, ite_self]
    rfl
  · rw [if_neg hint] at h
    simp only [if_neg hint]
    cases hk : r.kind with
    | heapInsert dirRoot pageId slot tuple =>
      simp only [hk] at h
      obtain ⟨hframe, hreloc, hchanges⟩ := heapInsert_ok h
      refine ⟨{ hframe with }, fun t => ?_⟩
      rw [viewOf, hreloc, hchanges, getElem?_erase_if]
      split_ifs with ht
      · subst ht
        dsimp only
        cases w.mapping.rowOf deserialize dirRoot tuple <;> rfl
      · rfl
    | heapDelete dirRoot pageId slot old =>
      simp only [hk] at h
      obtain ⟨hframe, hview⟩ := heapDelete_ok h
      refine ⟨{ hframe with }, fun t => ?_⟩
      rw [hview, viewOf_settled]
      dsimp only
      split_ifs with ht hdead
      · rfl
      · cases w.mapping.rowOf deserialize dirRoot old <;> rfl
      · rfl
    | heapUpdate dirRoot pageId slot old new =>
      simp only [hk] at h
      obtain ⟨hframe, hreloc, hchanges⟩ := heapUpdate_ok h
      refine ⟨{ hframe with }, fun t => ?_⟩
      rw [viewOf, hreloc, hchanges, getElem?_erase_if]
      split_ifs with ht
      · dsimp only
        cases w.mapping.rowOf deserialize dirRoot old <;>
          cases w.mapping.rowOf deserialize dirRoot new <;> rfl
      · rfl
    | begin | commit | abort | txnEnd | clr | checkpoint | ddl | runIdentity =>
      simp [hk, isHeap] at hkind

/-- The other records of a transaction that goes on say only that no row is moving. -/
lemma step_mark (hkind : r.kind matches .begin | .txnEnd | .checkpoint | .clr ..) :
    w.Frame w' ∧ ∀ t, w'.viewOf t =
      if t = r.txnId then stage deserialize w.mapping r (w.viewOf t) else w.viewOf t := by
  unfold step at h
  unfold stage
  cases hk : r.kind with
  | begin | txnEnd | checkpoint | clr =>
    simp only [hk] at h
    obtain rfl := ok.inj h
    exact ⟨⟨rfl, rfl, rfl, rfl, rfl⟩, fun t => viewOf_settled⟩
  | commit | abort | heapInsert | heapDelete | heapUpdate | ddl | runIdentity => simp [hk] at hkind

/-- Naming a run binds it to the transaction, as the slot was first declared. -/
lemma step_runIdentity (hkind : r.kind = .runIdentity run) :
    ∃ shared, (w.runs[run.provId]? = some shared ∧ shared.sameActor run ∨
        w.runs[run.provId]? = none ∧ shared = run) ∧
      w' = (w.settled r.txnId).bindRun r.txnId run shared := by
  unfold step at h
  simp only [hkind, internalRoot, false_eq_true, if_false] at h
  unfold runIdentity at h
  split at h
  · rename_i known hknown
    split_ifs at h with hsame
    obtain rfl := ok.inj h
    exact ⟨known, .inl ⟨hknown, hsame⟩, rfl⟩
  · rename_i hnone
    obtain rfl := ok.inj h
    exact ⟨run, .inr ⟨hnone, rfl⟩, rfl⟩

lemma step_commit (hkind : r.kind = .commit) :
    w' = (w.settled r.txnId).commit r.lsn next r.txnId := by
  unfold step at h
  simp only [hkind] at h
  exact (ok.inj h).symm

lemma step_abort (hkind : r.kind = .abort) : w' = (w.settled r.txnId).abort r.txnId := by
  unfold step at h
  simp only [hkind] at h
  exact (ok.inj h).symm

lemma step_ddl (hkind : r.kind = .ddl op table dirRoot timeTravelRoot columns) :
    (w.settled r.txnId).ddl r.lsn next r.txnId op table dirRoot timeTravelRoot columns = .ok w' := by
  unfold step at h
  simpa only [hkind, internalRoot, false_eq_true, if_false] using h

end

/-- A commit releases what the transaction had pending. -/
lemma commit_spec (w : Walk) (lsn next txn : ℕ) : (w.commit lsn next txn).mapping = w.mapping ∧
    (w.commit lsn next txn).learned = w.learned ∧ (w.commit lsn next txn).runs = w.runs ∧
    (w.commit lsn next txn).relocating = w.relocating ∧
    (∀ t, (w.commit lsn next txn).bound[t]? = if t = txn then none else w.bound[t]?) ∧
    (∀ t, (w.commit lsn next txn).changesOf t = if t = txn then [] else w.changesOf t) ∧
    (w.commit lsn next txn).out.events =
      w.out.events ++ (w.changesOf txn).map (eventOf txn lsn next w.bound[txn]?) := by
  unfold commit
  dsimp only
  cases hstaged : w.staged[txn]? with
  | none =>
    refine ⟨rfl, rfl, rfl, rfl, fun t => getElem?_erase_if, fun t => ?_, ?_⟩
    · split_ifs with ht
      · rw [ht, changesOf_eq, hstaged]
        rfl
      · rfl
    · rw [changesOf_eq, hstaged]
      simp
  | some changes =>
    refine ⟨rfl, rfl, rfl, rfl, fun t => getElem?_erase_if, fun t => ?_, ?_⟩
    · rw [changesOf_eq, changesOf_eq, getElem?_erase_if]
      split_ifs <;> rfl
    · rw [changesOf_eq, hstaged]
      dsimp only
      split_ifs <;> rfl

/-- A schema record puts its shape into force and is an event of its own. -/
lemma ddl_ok (h : w.ddl lsn next txn op table dirRoot timeTravelRoot columns = .ok w') :
    ∃ change shape, schemaChangeOf op table columns = .ok change ∧
      shapeOfDdl lsn op table dirRoot timeTravelRoot columns = .ok shape ∧
      w'.mapping = w.mapping.applyShape shape ∧ w'.learned = w.learned ++ [shape] ∧
      w'.runs = w.runs ∧ w'.bound = w.bound ∧ w'.staged = w.staged ∧
      w'.relocating = w.relocating ∧
      w'.out.events = w.out.events ++ [schemaEvent txn lsn next table columns change] := by
  obtain ⟨change, hchange, h⟩ := bind_ok.mp h
  obtain rfl := ok.inj h
  refine ⟨change, _, hchange, ?_, ?_, rfl, rfl, rfl, rfl, rfl, rfl⟩
  · cases op with
    | createTable | dropTable => simp [shapeOfDdl, adopt]
    | alterColumn alt =>
      have hany : columns.any (·.name = alt.column) := by
        unfold schemaChangeOf at hchange
        dsimp only at hchange
        split at hchange
        · rename_i c hc
          exact any_eq_true.mpr ⟨c, mem_of_find?_eq_some hc, by simpa using find?_some hc⟩
        · cases hchange
      simp [shapeOfDdl, adopt, hany]
  · cases op <;> simp [adopt, applyShape]

end Walk

/-! ## The walk over a range -/

/-- The event with the run named in another way. -/
def ChangeEvent.naming (norm : RunEntity → RunEntity) (e : ChangeEvent) : ChangeEvent :=
  { e with writer := e.writer.map norm }

/-- The runs that records name. -/
def identities (rs : List LogRecord) : List RunEntity :=
  rs.filterMap fun r => match r.kind with
    | .runIdentity run => some run
    | _ => none

lemma mem_identities {rs : List LogRecord} {r : LogRecord} (hr : r ∈ rs)
    (hkind : r.kind = .runIdentity run) : run ∈ identities rs :=
  mem_filterMap.mpr ⟨r, hr, by rw [hkind]⟩

/-- Runs that share a slot and are the same actor are named alike. -/
def NamedAlike (norm : RunEntity → RunEntity) (rs : List LogRecord) : Prop :=
  ∀ run ∈ identities rs, ∀ run' ∈ identities rs,
    run.provId = run'.provId → run.sameActor run' → norm run = norm run'

lemma NamedAlike.mono {norm : RunEntity → RunEntity} {xs ys : List LogRecord}
    (h : NamedAlike norm ys) (hsub : xs ⊆ ys) : NamedAlike norm xs :=
  fun run hrun run' hrun' => h run (filterMap_subset _ hsub hrun) run'
    (filterMap_subset _ hsub hrun')

section

variable (deserialize : Schema → List UInt8 → Except FerroError Row)
  (norm : RunEntity → RunEntity)

/-- The walk over `xs`, started behind `before`, has in view what `xs` says. -/
structure Sim (m : Mapping) (before xs : List LogRecord) (w : Walk) : Prop where
  mapping : w.mapping = m.after (before ++ xs)
  learned : w.learned = shapesIn xs
  view : ∀ t, stagedAfter View.none (fun _ => View.none) (itemsFrom deserialize m before xs) t =
    w.viewOf t
  events : w.out.events.map (naming norm) =
    (released View.none (fun _ => View.none) (itemsFrom deserialize m before xs)).map
      fun y => y.2.naming norm
  idle : w.viewOf 0 = View.none
  unbound : w.bound[0]? = none
  runs : ∀ key x, w.runs[key]? = some x →
    x.provId = key ∧ ∃ r ∈ xs, r.kind = .runIdentity x
  bound : ∀ t x, w.bound[t]? = some x → ∃ y, writerOf (before ++ xs) t = some y ∧ norm x = norm y
  named : ∀ t y, w.changesOf t ≠ [] → writerOf (before ++ xs) t = some y →
    ∃ x, w.bound[t]? = some x

end

namespace Sim

variable {deserialize : Schema → List UInt8 → Except FerroError Row}
  {norm : RunEntity → RunEntity} {m : Mapping} {before xs : List LogRecord} {w w' : Walk}
  {r : LogRecord}

lemma start : Sim deserialize norm m before [] (Walk.start (m.after before)) where
  mapping := by rw [append_nil]; rfl
  learned := rfl
  view t := by simp [itemsFrom, viewOf, changesOf, Walk.start, View.none]
  events := rfl
  idle := by simp [viewOf, changesOf, Walk.start, View.none]
  unbound := by simp [Walk.start]
  runs key x h := by simp [Walk.start] at h
  bound t x h := by simp [Walk.start] at h
  named t y h := by simp [changesOf, Walk.start] at h

variable (h : Sim deserialize norm m before xs w)
include h

lemma staged_eq :
    stagedAfter View.none (fun _ => View.none) (itemsFrom deserialize m before xs) = w.viewOf :=
  funext h.view

lemma stagedAfter_concat :
    stagedAfter View.none (fun _ => View.none) (itemsFrom deserialize m before (xs ++ [r])) =
      (itemAt deserialize m (before ++ xs) r).staged View.none w.viewOf := by
  rw [itemsFrom_append, stagedAfter_append, h.staged_eq]
  rfl

lemma released_concat :
    released View.none (fun _ => View.none) (itemsFrom deserialize m before (xs ++ [r])) =
      released View.none (fun _ => View.none) (itemsFrom deserialize m before xs) ++
        (itemAt deserialize m (before ++ xs) r).released w.viewOf := by
  rw [itemsFrom_append, released_append, h.staged_eq]
  simp [itemsFrom, released]

/-- A record that is not a schema record leaves the shapes as they are. -/
lemma shapes_concat (hshape : shapeOf r = none) :
    w.mapping = m.after (before ++ (xs ++ [r])) ∧ w.learned = shapesIn (xs ++ [r]) := by
  rw [h.mapping, h.learned]
  simp [Mapping.after, shapesIn, hshape]

lemma runs_concat {key : ℕ} {x : RunEntity} (hx : w.runs[key]? = some x) :
    x.provId = key ∧ ∃ y ∈ xs ++ [r], y.kind = .runIdentity x := by
  obtain ⟨hkey, y, hy, hrun⟩ := h.runs key x hx
  exact ⟨hkey, y, mem_append_left _ hy, hrun⟩

lemma idle_settled (t : ℕ) : (w.settled t).viewOf 0 = View.none := by
  rw [viewOf_settled]
  split_ifs
  · exact congrArg (fun v : View => (⟨v.changes, none⟩ : View)) h.idle
  · exact h.idle

omit h in
lemma settled_eq_stage (hheap : isHeap r.kind = false) (t : ℕ) : (w.settled r.txnId).viewOf t =
      if t = r.txnId then stage deserialize w.mapping r (w.viewOf t) else w.viewOf t := by
  rw [viewOf_settled, stage_of_not_heap hheap]
  rfl

section

variable (hentry : entryAt deserialize m (before ++ xs) r =
    .own r.txnId (stage deserialize (m.after (before ++ xs)) r)) (hshape : shapeOf r = none)
  (hview : ∀ t, w'.viewOf t =
    if t = r.txnId then stage deserialize w.mapping r (w.viewOf t) else w.viewOf t)
  (hidle : w'.viewOf 0 = View.none)
include hentry hshape hview hidle

/-- A record of a transaction that goes on. -/
lemma own (hframe : w'.mapping = w.mapping ∧ w'.learned = w.learned ∧
      w'.out.events = w.out.events) (hunbound : w'.bound[0]? = none)
    (hruns : ∀ key x, w'.runs[key]? = some x →
      x.provId = key ∧ ∃ y ∈ xs ++ [r], y.kind = .runIdentity x)
    (hbound : ∀ t x, w'.bound[t]? = some x →
      ∃ y, writerOf (before ++ (xs ++ [r])) t = some y ∧ norm x = norm y)
    (hnamed : ∀ t y, w'.changesOf t ≠ [] → writerOf (before ++ (xs ++ [r])) t = some y →
      ∃ x, w'.bound[t]? = some x) : Sim deserialize norm m before (xs ++ [r]) w' where
  mapping := hframe.1.trans (h.shapes_concat hshape).1
  learned := hframe.2.1.trans (h.shapes_concat hshape).2
  view t := by
    rw [h.stagedAfter_concat, Item.staged, itemAt, hentry, hview, ← h.mapping]
    dsimp only
    rw [update_apply]
    split_ifs with ht
    · rw [ht]
    · rfl
  events := by
    rw [hframe.2.2, h.events, h.released_concat, Item.released, itemAt, hentry]
    simp
  idle := hidle
  unbound := hunbound
  runs := hruns
  bound := hbound
  named := hnamed

/-- A record that leaves the writers alone. -/
lemma quiet (hframe : w.Frame w') (hkind : ∀ run, r.kind ≠ .runIdentity run)
    (hearly : w'.changesOf r.txnId = w.changesOf r.txnId ∨ writerOf (before ++ xs) r.txnId = none) :
    Sim deserialize norm m before (xs ++ [r]) w' := by
  have hwriter : ∀ t, writerOf (before ++ (xs ++ [r])) t = writerOf (before ++ xs) t := fun t =>
    writerOf_eq_of_not_identity hkind
  refine h.own hentry hshape hview hidle ⟨hframe.mapping, hframe.learned, hframe.events⟩ ?_ ?_ ?_ ?_
  · rw [hframe.bound, h.unbound]
  · intro key x hx
    exact h.runs_concat (hframe.runs ▸ hx)
  · intro t x hx
    rw [hframe.bound] at hx
    rw [hwriter]
    exact h.bound t x hx
  · intro t y hne hy
    rw [hwriter] at hy
    rw [hframe.bound]
    by_cases ht : t = r.txnId
    · rcases hearly with hsame | hnone
      · exact h.named t y (by rw [ht] at hne ⊢; rwa [hsame] at hne) hy
      · rw [ht, hnone] at hy
        cases hy
    · refine h.named t y ?_ hy
      have hsame : w'.changesOf t = w.changesOf t := by
        have := hview t
        rw [if_neg ht] at this
        exact congrArg View.changes this
      exact hsame ▸ hne

end

section

variable (hstep : w.step deserialize r.lsn (r.lsn + r.frameLen) r = .ok w')
include hstep

lemma heap (hil : Interleaved (before ++ xs ++ [r])) (hkind : isHeap r.kind) :
    Sim deserialize norm m before (xs ++ [r]) w' := by
  obtain ⟨hframe, hview⟩ := step_heap hstep hkind
  obtain ⟨p, p', hp, hnext, -⟩ := hil.next
  obtain ⟨wrote, rfl⟩ := Phase.next_heap hnext hkind
  have hknow := says_of_phaseOf hp
  have htxn : r.txnId ≠ 0 := fun h0 => by simpa using hknow.system.mpr h0
  refine h.quiet ?_ ?_ hview ?_ hframe ?_ (.inr (hknow.writer rfl))
  · unfold entryAt
    cases hk : r.kind <;> simp [hk, isHeap] at hkind ⊢
  · unfold shapeOf
    cases hk : r.kind <;> simp [hk, isHeap] at hkind ⊢
  · rw [hview, if_neg htxn.symm, h.idle]
  · rintro run hk
    simp [hk, isHeap] at hkind

lemma mark (hkind : r.kind matches .begin | .txnEnd | .checkpoint | .clr ..) :
    Sim deserialize norm m before (xs ++ [r]) w' := by
  obtain ⟨hframe, hview⟩ := step_mark hstep hkind
  have hheap : isHeap r.kind = false := by cases hk : r.kind <;> simp [hk, isHeap] at hkind ⊢
  have hsettled : ∀ t, w'.viewOf t = (w.settled r.txnId).viewOf t := fun t =>
    (hview t).trans (settled_eq_stage hheap t).symm
  refine h.quiet ?_ ?_ hview ?_ hframe ?_ (.inl ?_)
  · unfold entryAt
    cases hk : r.kind <;> simp [hk] at hkind ⊢
  · unfold shapeOf
    cases hk : r.kind <;> simp [hk] at hkind ⊢
  · exact (hsettled 0).trans (h.idle_settled _)
  · rintro run hk
    simp [hk] at hkind
  · exact congrArg View.changes (hsettled r.txnId)

lemma identity
    (halike : NamedAlike norm (before ++ xs ++ [r])) (hkind : r.kind = .runIdentity run) :
    Sim deserialize norm m before (xs ++ [r]) w' := by
  obtain ⟨shared, hshared, rfl⟩ := step_runIdentity hstep hkind
  have hheap : isHeap r.kind = false := by rw [hkind]; rfl
  have hslot : shared.provId = run.provId ∧ (∃ y ∈ xs ++ [r], y.kind = .runIdentity shared) ∧
      norm shared = norm run := by
    rcases hshared with ⟨hknown, hsame⟩ | ⟨-, rfl⟩
    · obtain ⟨hkey, y, hy, hrun⟩ := h.runs _ _ hknown
      refine ⟨hkey, ⟨y, mem_append_left _ hy, hrun⟩, ?_⟩
      exact halike _ (mem_identities (r := y) (by simp [hy]) hrun) _
        (mem_identities (r := r) (by simp) hkind) hkey hsame
    · exact ⟨rfl, ⟨r, by simp, hkind⟩, rfl⟩
  refine h.own (by simp [entryAt, hkind]) (by simp [shapeOf, hkind])
    (fun t => (settled_eq_stage hheap t : (w.settled r.txnId).viewOf t = _)) (h.idle_settled _)
    ⟨rfl, rfl, rfl⟩ ?_ ?_ ?_ ?_
  · dsimp only [bindRun]
    split_ifs with h0
    · rw [getElem?_insert_if, if_neg (Ne.symm h0), h.unbound]
    · exact h.unbound
  · intro key x hx
    rw [bindRun, TreeMap.getElem?_insertIfNew] at hx
    split_ifs at hx with hnew
    · obtain rfl := Option.some.inj hx
      exact ⟨LawfulEqCmp.compare_eq_iff_eq.mp hnew.1, r, by simp, hkind⟩
    · exact h.runs_concat hx
  · intro t x hx
    rw [← append_assoc, writerOf_concat, writerStep, hkind]
    dsimp only [bindRun] at hx ⊢
    by_cases ht : r.txnId = t
    · rw [if_pos ht]
      refine ⟨run, rfl, ?_⟩
      split_ifs at hx with h0
      · rw [getElem?_insert_if, if_pos ht.symm] at hx
        exact Option.some.inj hx ▸ hslot.2.2
      · rw [← ht, not_not.mp h0, h.unbound] at hx
        cases hx
    · rw [if_neg ht]
      refine h.bound t x ?_
      split_ifs at hx with h0
      · rwa [getElem?_insert_if, if_neg (Ne.symm ht)] at hx
      · exact hx
  · intro t y hne hy
    have h0 : t ≠ 0 := by
      rintro rfl
      exact hne (congrArg View.changes h.idle)
    dsimp only [bindRun]
    by_cases ht : r.txnId = t
    · rw [if_pos (ht ▸ h0), getElem?_insert_if, if_pos ht.symm]
      exact ⟨shared, rfl⟩
    · rw [← append_assoc, writerOf_concat, writerStep, hkind] at hy
      dsimp only at hy
      rw [if_neg ht] at hy
      obtain ⟨x, hx⟩ := h.named t y hne hy
      refine ⟨x, ?_⟩
      split_ifs
      · rwa [getElem?_insert_if, if_neg (Ne.symm ht)]
      · exact hx

omit hstep in
/-- The record that ends a transaction. -/
lemma ended (hframe : w'.mapping = w.mapping ∧ w'.learned = w.learned ∧ w'.runs = w.runs)
    (hshape : shapeOf r = none) (hkind : ∀ run, r.kind ≠ .runIdentity run)
    (hview : ∀ t, w'.viewOf t = if t = r.txnId then View.none else w.viewOf t)
    (hbound : ∀ t, w'.bound[t]? = if t = r.txnId then none else w.bound[t]?)
    (hstaged : (itemAt deserialize m (before ++ xs) r).staged View.none w.viewOf =
      update w.viewOf r.txnId View.none) (hevents : w'.out.events.map (naming norm) =
      w.out.events.map (naming norm) ++
        ((itemAt deserialize m (before ++ xs) r).released w.viewOf).map fun y => y.2.naming norm) :
    Sim deserialize norm m before (xs ++ [r]) w' where
  mapping := hframe.1.trans (h.shapes_concat hshape).1
  learned := hframe.2.1.trans (h.shapes_concat hshape).2
  view t := by rw [h.stagedAfter_concat, hstaged, hview, update_apply]
  events := by rw [hevents, h.events, h.released_concat, map_append]
  idle := by
    rw [hview, h.idle, ite_self]
  unbound := by
    rw [hbound, h.unbound, ite_self]
  runs key x hx := h.runs_concat (hframe.2.2 ▸ hx)
  bound t x hx := by
    rw [hbound] at hx
    split_ifs at hx
    rw [writerOf_eq_of_not_identity hkind]
    exact h.bound t x hx
  named t y hne hy := by
    rw [writerOf_eq_of_not_identity hkind] at hy
    have hchanges := congrArg View.changes (hview t)
    rw [hbound]
    split_ifs at hchanges ⊢ with ht
    · exact absurd hchanges hne
    · exact h.named t y (fun hnil => hne (hchanges.trans hnil)) hy

lemma commit (hkind : r.kind = .commit) : Sim deserialize norm m before (xs ++ [r]) w' := by
  obtain rfl := step_commit hstep hkind
  obtain ⟨hmapping, hlearned, hruns, hreloc, hbound, hchanges, hevents⟩ :=
    (w.settled r.txnId).commit_spec r.lsn (r.lsn + r.frameLen) r.txnId
  refine h.ended ⟨hmapping, hlearned, hruns⟩ (by simp [shapeOf, hkind]) (by simp [hkind])
    (fun t => ?_) hbound (by simp [itemAt, entryAt, hkind, Item.staged]) ?_
  · rw [viewOf, hchanges, hreloc, getElem?_erase_if]
    split_ifs <;> rfl
  · -- Who wrote it matters only if there is something that was written.
    have hwriter : w.changesOf r.txnId ≠ [] →
        w.bound[r.txnId]?.map norm = (writerOf (before ++ xs) r.txnId).map norm := by
      intro hne
      cases hb : w.bound[r.txnId]? with
      | some x =>
        obtain ⟨y, hy, hnorm⟩ := h.bound _ _ hb
        rw [hy, Option.map_some, Option.map_some, hnorm]
      | none =>
        cases hy : writerOf (before ++ xs) r.txnId with
        | none => rfl
        | some y =>
          obtain ⟨x, hx⟩ := h.named _ _ hne hy
          rw [hb] at hx
          cases hx
    rw [hevents, map_append]
    congr 1
    simp only [itemAt, entryAt, hkind, Item.released, map_map]
    refine map_congr_left fun c hc => ?_
    simp [naming, eventOf, hwriter (ne_nil_of_mem hc)]

lemma abort (hkind : r.kind = .abort) : Sim deserialize norm m before (xs ++ [r]) w' := by
  obtain rfl := step_abort hstep hkind
  refine h.ended ⟨rfl, rfl, rfl⟩ (by simp [shapeOf, hkind]) (by simp [hkind])
    (fun t => ?_) (fun t => getElem?_erase_if) (by simp [itemAt, entryAt, hkind, Item.staged])
    (by simp [itemAt, entryAt, hkind, Item.released, Walk.abort])
  rw [viewOf, changesOf_eq]
  dsimp only [Walk.abort]
  rw [getElem?_erase_if, getElem?_erase_if]
  split_ifs
  · rfl
  · rw [← changesOf_eq]
    rfl

omit hstep in
lemma ddl {dirRoot : ℕ} (hstep : w.step deserialize r.lsn (r.lsn + r.frameLen) r = .ok w')
    (hil : Interleaved (before ++ xs ++ [r]))
    (hkind : r.kind = .ddl op table dirRoot timeTravelRoot columns) :
    Sim deserialize norm m before (xs ++ [r]) w' := by
  obtain ⟨p, p', hp, hnext, -⟩ := hil.next
  rw [hkind] at hnext
  obtain rfl := Phase.next_ddl hnext
  have htxn : r.txnId = 0 := (says_of_phaseOf hp).system.mp rfl
  obtain ⟨change, shape, hchange, hshape, hmapping, hlearned, hruns, hbound, hstaged, hreloc,
    hevents⟩ := ddl_ok (step_ddl hstep hkind)
  have hshapeOf : shapeOf r = some shape := by simp [shapeOf, hkind, hshape, Except.toOption]
  have hnot : ∀ run, r.kind ≠ .runIdentity run := by simp [hkind]
  have hview : ∀ t, w'.viewOf t = w.viewOf t := by
    intro t
    rw [viewOf, changesOf_eq, hstaged, hreloc, getElem?_erase_if]
    split_ifs with ht
    · rw [ht, htxn, h.idle, ← changesOf_eq]
      exact congrArg (fun v : View => (⟨v.changes, none⟩ : View)) h.idle
    · rw [← changesOf_eq]
      rfl
  have hentry : entryAt deserialize m (before ++ xs) r =
      .solo [schemaEvent r.txnId r.lsn (r.lsn + r.frameLen) table columns change] := by
    simp [entryAt, hkind, hchange]
  refine ⟨?_, ?_, fun t => ?_, ?_, ?_, ?_, fun key x hx => ?_, fun t x hx => ?_,
    fun t y hne hy => ?_⟩
  · rw [hmapping, ← append_assoc, after_append, ← h.mapping]
    simp [Mapping.after, afterShapes, shapesIn, hshapeOf]
  · rw [hlearned]
    simp [shapesIn, hshapeOf, h.learned]
  · rw [h.stagedAfter_concat, hview, Item.staged, itemAt, hentry]
  · rw [hevents, h.released_concat, map_append, map_append, itemAt, hentry]
    rw [← h.events]
    rfl
  · rw [hview, h.idle]
  · rw [hbound]
    exact h.unbound
  · exact h.runs_concat (hruns ▸ hx)
  · rw [hbound] at hx
    rw [writerOf_eq_of_not_identity hnot]
    exact h.bound t x hx
  · rw [writerOf_eq_of_not_identity hnot] at hy
    rw [hbound]
    have hchanges : w'.changesOf t = w.changesOf t := congrArg View.changes (hview t)
    exact h.named t y (hchanges ▸ hne) hy

/-- One record more. -/
lemma step
    (hil : Interleaved (before ++ xs ++ [r])) (halike : NamedAlike norm (before ++ xs ++ [r])) :
    Sim deserialize norm m before (xs ++ [r]) w' := by
  cases hkind : r.kind with
  | heapInsert | heapDelete | heapUpdate => exact h.heap hstep hil (by simp [hkind, isHeap])
  | begin | txnEnd | checkpoint | clr => exact h.mark hstep (by simp [hkind])
  | runIdentity run => exact h.identity hstep halike hkind
  | commit => exact h.commit hstep hkind
  | abort => exact h.abort hstep hkind
  | ddl => exact h.ddl hstep hil hkind

end

omit h in
/-- The walk over a range has in view what the range says. -/
lemma walk (hwalk : xs.foldlM
      (fun w r => Walk.step deserialize w r.lsn (r.lsn + r.frameLen) r)
      (Walk.start (m.after before)) = .ok w)
    (hil : Interleaved (before ++ xs)) (halike : NamedAlike norm (before ++ xs)) :
    Sim deserialize norm m before xs w := by
  induction xs using reverseRecOn generalizing w with
  | nil =>
    obtain rfl := ok.inj hwalk
    exact start
  | append_singleton xs r ih =>
    rw [foldlM_append] at hwalk
    obtain ⟨mid, hmid, hwalk⟩ := bind_ok.mp hwalk
    obtain ⟨w', hw', hwalk⟩ := bind_ok.mp hwalk
    obtain rfl := ok.inj hwalk
    rw [← append_assoc] at hil halike
    exact (ih hmid hil.of_concat (halike.mono (subset_append_left _ _))).step hw' hil halike

end Sim

end FerroDb.Replication
