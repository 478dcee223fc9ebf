import FerroDb.Library.CommitFeed
import FerroDb.Replication.Interleaved
import FerroDb.Replication.Shapes

/-!
# What a log commits

The events of a log, in the order its transactions commit. The log is read from its start with all
that every transaction did in view, and every row under the mapping in force where it stands.

## Main definitions

* `View`, `stage` — what a transaction has pending, and how one of its records changes it.
* `itemAt` — what a record is for the feed.
* `committedEvents` — the committed events of a log, ordered by commit.
-/

namespace FerroDb.Replication

open Library.CommitFeed Sql Storage Wal List Function
open Option (none)

variable {half : Option ℕ} {dirRoot lsn : ℕ} {table : String} {columns : List String} {new : Row}
  {c : Change}

/-- What a transaction has pending: its changes, and the table of a row that may be moving. -/
structure View where
  changes : List Change
  relocating : Option ℕ
deriving DecidableEq

def View.none : View := ⟨[], Option.none⟩

/-- Where what is pending began. -/
def View.pend (v : View) : Option ℕ := v.changes.head?.map Change.lsn

section

variable (deserialize : Schema → List UInt8 → Except FerroError Row)

variable (m : Mapping)

/-- The row that bytes stand for, if they can be read. -/
def Mapping.rowOf (dirRoot : ℕ) (bytes : List UInt8) :
    Option (String × List String × Row) :=
  match m.rowIn deserialize dirRoot bytes with
  | .ok (.row table columns values) => some (table, columns, values)
  | _ => none

/-- What a record adds to the changes of its transaction, under the mapping where it stands. -/
def stage (r : LogRecord) (v : View) : View :=
  if m.internalRoot r.kind then v
  else
    match r.kind with
    | .heapInsert dirRoot _ _ tuple =>
      match m.rowOf deserialize dirRoot tuple with
      | some (table, columns, new) =>
        ⟨pairInsert v.relocating dirRoot r.lsn table columns new v.changes, none⟩
      | none => ⟨v.changes, none⟩
    | .heapDelete dirRoot _ _ old =>
      if isDead old then ⟨v.changes, none⟩
      else
        match m.rowOf deserialize dirRoot old with
        | some (table, columns, row) =>
          ⟨v.changes ++ [⟨r.lsn, table, columns, .delete row⟩], some dirRoot⟩
        | none => ⟨v.changes, none⟩
    | .heapUpdate dirRoot _ _ old new =>
      match m.rowOf deserialize dirRoot old, m.rowOf deserialize dirRoot new with
      | some (table, columns, oldRow), some (_, _, newRow) =>
        ⟨v.changes ++
          [⟨r.lsn, table, columns, updateOp (isDead old) (isDead new) oldRow newRow⟩], none⟩
      | _, _ => ⟨v.changes, none⟩
    | _ => ⟨v.changes, none⟩

/-- What a record is for the feed, behind the records `before`. -/
def entryAt (before : List LogRecord) (r : LogRecord) : Entry ℕ View ChangeEvent :=
  match r.kind with
  | .commit =>
    .commit r.txnId fun v => v.changes.map
      (Walk.eventOf r.txnId r.lsn (r.lsn + r.frameLen) (writerOf before r.txnId))
  | .abort => .abort r.txnId
  | .ddl op table _ _ columns =>
    match schemaChangeOf op table columns with
    | .ok change =>
      .solo [schemaEvent r.txnId r.lsn (r.lsn + r.frameLen) table columns change]
    | .error _ => .solo []
  | _ => .own r.txnId (stage deserialize (m.after before) r)

def itemAt (before : List LogRecord) (r : LogRecord) : Item ℕ View ChangeEvent :=
  ⟨r.lsn, entryAt deserialize m before r⟩

def itemsFrom (m : Mapping) (before : List LogRecord) :
    List LogRecord → List (Item ℕ View ChangeEvent)
  | [] => []
  | r :: rs => itemAt deserialize m before r :: itemsFrom m (before ++ [r]) rs

/-- The events of a log: every transaction's changes where it commits, every schema change where it
stands. -/
def committedEvents (rs : List LogRecord) : List ChangeEvent :=
  (released View.none (fun _ => View.none) (itemsFrom deserialize m [] rs)).map Prod.snd

end

variable {x : Item ℕ View ChangeEvent} {changes : List Change}

section

variable {deserialize : Schema → List UInt8 → Except FerroError Row} {m : Mapping}
  {before xs ys rs : List LogRecord} {r : LogRecord} {v : View} {t : ℕ}

lemma itemsFrom_append : itemsFrom deserialize m before (xs ++ ys) =
    itemsFrom deserialize m before xs ++ itemsFrom deserialize m (before ++ xs) ys := by
  induction xs generalizing before with
  | nil => simp [itemsFrom]
  | cons r xs ih => simp [itemsFrom, ih]

lemma mem_itemsFrom (h : x ∈ itemsFrom deserialize m before rs) :
    ∃ pre, ∃ r ∈ rs, x = itemAt deserialize m pre r := by
  induction rs generalizing before with
  | nil => cases h
  | cons r rs ih =>
    rcases mem_cons.mp h with rfl | h
    · exact ⟨before, r, mem_cons_self, rfl⟩
    · obtain ⟨pre, r', hr', hx⟩ := ih h
      exact ⟨pre, r', mem_cons_of_mem _ hr', hx⟩

lemma itemsFrom_ascending (h : rs.Pairwise (·.lsn < ·.lsn)) :
    Ascending (itemsFrom deserialize m before rs) := by
  induction rs generalizing before with
  | nil => exact .nil
  | cons r rs ih =>
    obtain ⟨hr, hrs⟩ := pairwise_cons.mp h
    refine .cons (fun x hx => ?_) (ih hrs)
    obtain ⟨pre, r', hr', rfl⟩ := mem_itemsFrom hx
    exact hr r' hr'

/-! ## What is pending keeps its place -/

lemma head_pairInsert {cs : List Change} :
    ((pairInsert half dirRoot lsn table columns new (c :: cs)).head?.map Change.lsn) =
      some c.lsn := by
  unfold pairInsert
  split_ifs
  · split
    · rename_i moved tbl cols old hlast
      split_ifs
      · cases cs with
        | nil =>
          obtain rfl : c = ⟨moved, tbl, cols, .delete old⟩ := by simpa using hlast
          rfl
        | cons c' cs => rfl
      · rfl
    · rfl
  · rfl

lemma pend_stage {p : ℕ} (h : v.pend = some p) : (stage deserialize m r v).pend = some p := by
  obtain ⟨changes, half⟩ := v
  cases changes with
  | nil => cases h
  | cons c cs =>
    have hc : some c.lsn = some p := h
    unfold stage
    split_ifs
    · exact h
    · split
      · split
        · exact head_pairInsert.trans hc
        · exact h
      · split_ifs
        · exact h
        · split <;> exact h
      · split <;> exact h
      · exact h

lemma stage_none : stage deserialize m r View.none = View.none ∨
    (stage deserialize m r View.none).pend = some r.lsn := by
  unfold stage
  split_ifs
  · exact .inl rfl
  · split
    · split
      · exact .inr rfl
      · exact .inl rfl
    · split_ifs
      · exact .inl rfl
      · split
        · exact .inr rfl
        · exact .inl rfl
    · split
      · exact .inr rfl
      · exact .inl rfl
    · exact .inl rfl

/-- Records that are not of rows do not stage anything. -/
lemma stage_of_not_heap (hkind : isHeap r.kind = false) :
    stage deserialize m r v = ⟨v.changes, none⟩ := by
  unfold stage
  cases hk : r.kind <;> simp [hk, isHeap, Mapping.internalRoot] at hkind ⊢

lemma itemAt_lawful : (itemAt deserialize m before r).Lawful View.none View.pend := by
  unfold Item.Lawful itemAt entryAt
  dsimp only
  cases r.kind with
  | commit =>
    intro v p hp hnil
    obtain ⟨changes, half⟩ := v
    cases changes with
    | nil => cases hp
    | cons c cs => cases hnil
  | abort => trivial
  | ddl op table dirRoot timeTravelRoot columns =>
    dsimp only
    cases schemaChangeOf op table columns <;> trivial
  | begin | txnEnd | heapInsert | heapDelete | heapUpdate | clr | checkpoint | runIdentity =>
    exact ⟨fun v p hp => pend_stage hp, stage_none⟩

lemma itemsFrom_lawful
    (h : x ∈ itemsFrom deserialize m before rs) : x.Lawful View.none View.pend := by
  obtain ⟨pre, r, -, rfl⟩ := mem_itemsFrom h
  exact itemAt_lawful

/-! ## Where changes and events come from -/

lemma mem_pairInsert (h : c ∈ pairInsert half dirRoot lsn table columns new changes) :
    (∃ c' ∈ changes, c'.lsn = c.lsn) ∨ c.lsn = lsn := by
  have hplain : c ∈ changes ++ [⟨lsn, table, columns, .insert new⟩] →
      (∃ c' ∈ changes, c'.lsn = c.lsn) ∨ c.lsn = lsn := by
    intro h
    rcases mem_append.mp h with h | h
    · exact .inl ⟨c, h, rfl⟩
    · obtain rfl := mem_singleton.mp h
      exact .inr rfl
  unfold pairInsert at h
  split_ifs at h
  · split at h
    · rename_i moved tbl cols old hlast
      split_ifs at h
      · rcases mem_append.mp h with h | h
        · exact .inl ⟨c, mem_of_mem_dropLast h, rfl⟩
        · obtain rfl := mem_singleton.mp h
          exact .inl ⟨_, mem_of_getLast? hlast, rfl⟩
      · exact hplain h
    · exact hplain h
  · exact hplain h

lemma mem_stage (h : c ∈ (stage deserialize m r v).changes) :
    (∃ c' ∈ v.changes, c'.lsn = c.lsn) ∨ c.lsn = r.lsn := by
  have hadd : ∀ {c' : Change}, c'.lsn = r.lsn → c ∈ v.changes ++ [c'] →
      (∃ c' ∈ v.changes, c'.lsn = c.lsn) ∨ c.lsn = r.lsn := by
    intro c' hc' h
    rcases mem_append.mp h with h | h
    · exact .inl ⟨c, h, rfl⟩
    · obtain rfl := mem_singleton.mp h
      exact .inr hc'
  have hold : c ∈ v.changes → (∃ c' ∈ v.changes, c'.lsn = c.lsn) ∨ c.lsn = r.lsn := fun h =>
    .inl ⟨c, h, rfl⟩
  unfold stage at h
  split_ifs at h
  · exact hold h
  · split at h
    · split at h
      · exact mem_pairInsert h
      · exact hold h
    · split_ifs at h
      · exact hold h
      · split at h
        · exact hadd rfl h
        · exact hold h
    · split at h
      · exact hadd rfl h
      · exact hold h
    · exact hold h

/-- What is pending was staged by a record of the range. -/
lemma mem_stagedAfter (h : c ∈ (stagedAfter View.none (fun _ => View.none)
      (itemsFrom deserialize m before rs) t).changes) : ∃ r ∈ rs, r.lsn = c.lsn := by
  induction rs using reverseRecOn generalizing c with
  | nil => cases h
  | append_singleton rs r ih =>
    have hold : ∀ {c'}, c' ∈ (stagedAfter View.none (fun _ => View.none)
        (itemsFrom deserialize m before rs) t).changes → ∃ x ∈ rs ++ [r], x.lsn = c'.lsn := by
      intro c' hc'
      obtain ⟨x, hx, hlsn⟩ := ih hc'
      exact ⟨x, mem_append_left _ hx, hlsn⟩
    rw [itemsFrom_append, stagedAfter_append] at h
    simp only [itemsFrom, stagedAfter_cons, stagedAfter_nil, Item.staged, itemAt] at h
    cases hentry : entryAt deserialize m (before ++ rs) r with
    | own t' change =>
      simp only [hentry] at h
      by_cases ht : t = t'
      · subst ht
        rw [update_self] at h
        have hstage : change = stage deserialize (m.after (before ++ rs)) r := by
          unfold entryAt at hentry
          cases hkind : r.kind with
          | ddl op table dirRoot timeTravelRoot columns =>
            simp only [hkind] at hentry
            split at hentry <;> cases hentry
          | commit | abort =>
            simp only [hkind] at hentry
            cases hentry
          | begin | txnEnd | heapInsert | heapDelete | heapUpdate | clr | checkpoint
            | runIdentity =>
            simp only [hkind] at hentry
            cases hentry
            rfl
        rw [hstage] at h
        rcases mem_stage h with ⟨c', hc', hlsn⟩ | hlsn
        · rw [← hlsn]
          exact hold hc'
        · exact ⟨r, by simp, hlsn.symm⟩
      · rw [update_of_ne ht] at h
        exact hold h
    | commit t' | abort t' =>
      simp only [hentry] at h
      by_cases ht : t = t'
      · subst ht
        rw [update_self] at h
        cases h
      · rw [update_of_ne ht] at h
        exact hold h
    | solo events =>
      simp only [hentry] at h
      exact hold h

/-- An event is released by the commit of its transaction or is a schema change. -/
lemma mem_released {s : ℕ → View} {y : ℕ × ChangeEvent}
    (h : y ∈ released View.none s (itemsFrom deserialize m before rs)) :
    ∃ r ∈ rs, y.1 = r.lsn ∧ y.2.commitLsn = r.lsn ∧ y.2.commitEndLsn = r.lsn + r.frameLen ∧
      y.2.txnId = r.txnId ∧ (r.kind = .commit ∨
        ∃ op table dirRoot timeTravelRoot columns,
          r.kind = .ddl op table dirRoot timeTravelRoot columns) := by
  induction rs generalizing before s with
  | nil => cases h
  | cons r rs ih =>
    rcases mem_append.mp h with h | h
    · refine ⟨r, mem_cons_self, ?_⟩
      simp only [itemAt, entryAt, Item.released] at h
      cases hkind : r.kind with
      | commit =>
        simp only [hkind, map_map, mem_map] at h
        obtain ⟨c, -, rfl⟩ := h
        exact ⟨rfl, rfl, rfl, rfl, .inl rfl⟩
      | ddl op table dirRoot timeTravelRoot columns =>
        simp only [hkind] at h
        cases hchange : schemaChangeOf op table columns with
        | ok change =>
          simp only [hchange, map_cons, map_nil, mem_singleton] at h
          subst h
          exact ⟨rfl, rfl, rfl, rfl, .inr ⟨_, _, _, _, _, rfl⟩⟩
        | error e => simp [hchange] at h
      | begin | txnEnd | heapInsert | heapDelete | heapUpdate | clr | checkpoint | runIdentity
        | abort => simp [hkind] at h
    · obtain ⟨x, hx, hrest⟩ := ih h
      exact ⟨x, mem_cons_of_mem _ hx, hrest⟩

lemma committedEvents_mono :
    committedEvents deserialize m xs <+: committedEvents deserialize m (xs ++ ys) := by
  rw [committedEvents, committedEvents, itemsFrom_append, released_append, map_append]
  exact prefix_append _ _

/-- The events stand in the order of the commits. -/
lemma committedEvents_sorted (h : rs.Pairwise (·.lsn < ·.lsn)) :
    (committedEvents deserialize m rs).Pairwise (·.commitLsn ≤ ·.commitLsn) := by
  rw [committedEvents, pairwise_map]
  refine (released_sorted (itemsFrom_ascending h)).imp_of_mem fun {a b} ha hb hab => ?_
  obtain ⟨r, -, hpos, hlsn, -⟩ := mem_released ha
  obtain ⟨r', -, hpos', hlsn', -⟩ := mem_released hb
  omega

/-! ## No event twice -/

variable (deserialize m) in
/-- What a transaction has pending after the records. -/
def pending (rs : List LogRecord) : ℕ → View :=
  stagedAfter View.none (fun _ => View.none) (itemsFrom deserialize m [] rs)

lemma pending_concat : pending deserialize m (rs ++ [r]) =
    (itemAt deserialize m rs r).staged View.none (pending deserialize m rs) := by
  rw [pending, itemsFrom_append, stagedAfter_append]
  rfl

lemma committedEvents_concat : committedEvents deserialize m (rs ++ [r]) =
    committedEvents deserialize m rs ++
      ((itemAt deserialize m rs r).released (pending deserialize m rs)).map Prod.snd := by
  rw [committedEvents, itemsFrom_append, released_append]
  simp [itemsFrom, released, committedEvents, pending]

lemma map_lsn_pairInsert :
    (pairInsert half dirRoot lsn table columns new changes).map Change.lsn =
        changes.map Change.lsn ∨
      (pairInsert half dirRoot lsn table columns new changes).map Change.lsn =
        changes.map Change.lsn ++ [lsn] := by
  unfold pairInsert
  split_ifs
  · split
    · rename_i moved tbl cols old hlast
      split_ifs
      · obtain ⟨front, rfl⟩ := getLast?_eq_some_iff.mp hlast
        simp
      · exact .inr (by simp)
    · exact .inr (by simp)
  · exact .inr (by simp)

variable (deserialize m r v) in
/-- A record stages at most one change, at its own place. -/
lemma map_lsn_stage :
    (stage deserialize m r v).changes.map Change.lsn = v.changes.map Change.lsn ∨
      isHeap r.kind ∧
        (stage deserialize m r v).changes.map Change.lsn = v.changes.map Change.lsn ++ [r.lsn] := by
  unfold stage
  split_ifs
  · exact .inl rfl
  · cases hkind : r.kind with
    | heapInsert dirRoot pageId slot tuple =>
      dsimp only
      split
      · exact map_lsn_pairInsert.imp id fun h => ⟨rfl, h⟩
      · exact .inl rfl
    | heapDelete dirRoot pageId slot old =>
      dsimp only
      split_ifs
      · exact .inl rfl
      · split
        · exact .inr ⟨rfl, by simp⟩
        · exact .inl rfl
    | heapUpdate dirRoot pageId slot old new =>
      dsimp only
      split
      · exact .inr ⟨rfl, by simp⟩
      · exact .inl rfl
    | begin | commit | abort | txnEnd | clr | checkpoint | ddl | runIdentity => exact .inl rfl

variable (deserialize m rs r) in
/-- An item changes what is pending for its own transaction only, by staging or by ending. -/
lemma pending_concat_apply (t : ℕ) :
    pending deserialize m (rs ++ [r]) t = pending deserialize m rs t ∨
      pending deserialize m (rs ++ [r]) t = View.none ∨
      t = r.txnId ∧ pending deserialize m (rs ++ [r]) t =
        stage deserialize (m.after rs) r (pending deserialize m rs t) := by
  rw [pending_concat, Item.staged, itemAt]
  unfold entryAt
  cases hkind : r.kind with
  | commit | abort =>
    dsimp only
    rw [update_apply]
    split_ifs
    · exact .inr (.inl rfl)
    · exact .inl rfl
  | ddl op table dirRoot timeTravelRoot columns =>
    dsimp only
    cases schemaChangeOf op table columns <;> exact .inl rfl
  | begin | txnEnd | heapInsert | heapDelete | heapUpdate | clr | checkpoint | runIdentity =>
    dsimp only
    rw [update_apply]
    split_ifs with ht
    · subst ht
      exact .inr (.inr ⟨rfl, rfl⟩)
    · exact .inl rfl

variable (deserialize m) in
/-- What is pending stands in the order of the transaction's row records. -/
lemma pending_ascending (hasc : rs.Pairwise (·.lsn < ·.lsn)) (t : ℕ) :
    ((pending deserialize m rs t).changes.map Change.lsn).Pairwise (· < ·) ∧
      ∀ lsn ∈ (pending deserialize m rs t).changes.map Change.lsn,
        ∃ r ∈ rs, r.lsn = lsn ∧ r.txnId = t ∧ isHeap r.kind := by
  induction rs using reverseRecOn with
  | nil => exact ⟨.nil, fun lsn h => by cases h⟩
  | append_singleton rs r ih =>
    obtain ⟨hrs, -, hlt⟩ := pairwise_append.mp hasc
    obtain ⟨hord, horigin⟩ := ih hrs
    have hold : ∀ lsn ∈ (pending deserialize m rs t).changes.map Change.lsn,
        ∃ x ∈ rs ++ [r], x.lsn = lsn ∧ x.txnId = t ∧ isHeap x.kind := by
      intro lsn hlsn
      obtain ⟨x, hx, hrest⟩ := horigin lsn hlsn
      exact ⟨x, mem_append_left _ hx, hrest⟩
    rcases pending_concat_apply deserialize m rs r t with h | h | ⟨ht, h⟩
    · rw [h]
      exact ⟨hord, hold⟩
    · rw [h]
      exact ⟨.nil, fun lsn h => by cases h⟩
    · rw [h]
      rcases map_lsn_stage deserialize (m.after rs) r (pending deserialize m rs t) with
        hs | ⟨hheap, hs⟩
      · rw [hs]
        exact ⟨hord, hold⟩
      · rw [hs]
        refine ⟨pairwise_append.mpr ⟨hord, pairwise_singleton _ _, ?_⟩, ?_⟩
        · rintro lsn hlsn _ hr
          obtain rfl := mem_singleton.mp hr
          obtain ⟨x, hx, rfl, -⟩ := horigin lsn hlsn
          exact hlt x hx r (by simp)
        · intro lsn hlsn
          rcases mem_append.mp hlsn with hlsn | hlsn
          · exact hold lsn hlsn
          · obtain rfl := mem_singleton.mp hlsn
            exact ⟨r, by simp, rfl, ht.symm, hheap⟩

/-- An event stands where its row record does, in a transaction that committed, or where its
schema record does. -/
lemma mem_committedEvents (hasc : rs.Pairwise (·.lsn < ·.lsn)) {e : ChangeEvent}
    (h : e ∈ committedEvents deserialize m rs) : ∃ r ∈ rs, r.lsn = e.lsn ∧ r.txnId = e.txnId ∧
      (isHeap r.kind ∧ (∃ c ∈ rs, c.txnId = e.txnId ∧ c.kind = .commit) ∨
        e.op.isWrite = false ∧ ∃ op table dirRoot timeTravelRoot columns,
          r.kind = .ddl op table dirRoot timeTravelRoot columns) := by
  induction rs using reverseRecOn with
  | nil => cases h
  | append_singleton rs r ih =>
    have hrs := (pairwise_append.mp hasc).1
    rw [committedEvents_concat] at h
    rcases mem_append.mp h with h | h
    · obtain ⟨x, hx, hlsn, htxn, hwhy⟩ := ih hrs h
      refine ⟨x, mem_append_left _ hx, hlsn, htxn, hwhy.imp ?_ id⟩
      rintro ⟨hheap, c, hc, hcommit⟩
      exact ⟨hheap, c, mem_append_left _ hc, hcommit⟩
    · simp only [itemAt, entryAt, Item.released] at h
      cases hkind : r.kind with
      | commit =>
        simp only [hkind, map_map, mem_map] at h
        obtain ⟨c, hc, rfl⟩ := h
        obtain ⟨x, hx, hlsn, htxn, hheap⟩ :=
          (pending_ascending deserialize m hrs r.txnId).2 _
            (mem_map_of_mem hc)
        exact ⟨x, mem_append_left _ hx, hlsn, htxn, .inl ⟨hheap, r, by simp, rfl, hkind⟩⟩
      | ddl op table dirRoot timeTravelRoot columns =>
        simp only [hkind] at h
        cases hchange : schemaChangeOf op table columns with
        | ok change =>
          simp only [hchange, map_cons, map_nil, mem_singleton] at h
          subst h
          exact ⟨r, by simp, rfl, rfl, .inr ⟨rfl, _, _, _, _, _, hkind⟩⟩
        | error err => simp [hchange] at h
      | begin | txnEnd | heapInsert | heapDelete | heapUpdate | clr | checkpoint | runIdentity
        | abort => simp [hkind] at h

/-- Every event has a place in the log of its own. -/
lemma committedEvents_nodup (hasc : rs.Pairwise (·.lsn < ·.lsn)) (hil : Interleaved rs) :
    ((committedEvents deserialize m rs).map ChangeEvent.lsn).Nodup := by
  induction rs using reverseRecOn with
  | nil => exact .nil
  | append_singleton rs r ih =>
    obtain ⟨hrs, -, hlt⟩ := pairwise_append.mp hasc
    have hold := ih hrs hil.of_concat
    have hinj : ∀ x ∈ rs, ∀ y ∈ rs, x.lsn = y.lsn → x = y := fun x hx y hy =>
      inj_on_of_nodup_map ((pairwise_map.mpr hrs).imp fun h => h.ne) hx hy
    rw [committedEvents_concat, map_append]
    simp only [itemAt, entryAt, Item.released]
    cases hkind : r.kind with
    | commit =>
      rw [map_map, map_map, map_map, nodup_append]
      obtain ⟨hord, horigin⟩ := pending_ascending deserialize m hrs r.txnId
      refine ⟨hold, hord.imp fun h => h.ne, fun lsn hlsn _ hlsn' heq => ?_⟩
      subst heq
      obtain ⟨e, he, rfl⟩ := mem_map.mp hlsn
      obtain ⟨x, hx, hxlsn, hxtxn, hxheap⟩ := horigin _ hlsn'
      obtain ⟨y, hy, hylsn, hytxn, hwhy⟩ := mem_committedEvents hrs he
      obtain rfl := hinj x hx y hy (hxlsn.trans hylsn.symm)
      -- The transaction would commit a second time.
      rcases hwhy with ⟨-, c, hc, hctxn, hcommit⟩ | ⟨-, op, table, dirRoot, ttRoot, columns, hddl⟩
      · obtain ⟨p, p', hp, hnext, -⟩ := hil.next
        have hdone := (says_of_phaseOf hp).committed
          ⟨c, hc, hctxn.trans (hytxn.symm.trans hxtxn), hcommit⟩
        rw [hdone, hkind] at hnext
        cases hnext
      · simp [hddl, isHeap] at hxheap
    | ddl op table dirRoot timeTravelRoot columns =>
      dsimp only
      cases schemaChangeOf op table columns with
      | ok change =>
        refine nodup_append.mpr ⟨hold, nodup_singleton _, fun lsn hlsn _ hlsn' heq => ?_⟩
        obtain rfl := mem_singleton.mp hlsn'
        obtain ⟨e, he, rfl⟩ := mem_map.mp hlsn
        obtain ⟨y, hy, hylsn, -⟩ := mem_committedEvents hrs he
        have := hlt y hy r (by simp)
        rw [hylsn, heq] at this
        exact absurd this (lt_irrefl _)
      | error err => simpa using hold
    | begin | txnEnd | heapInsert | heapDelete | heapUpdate | clr | checkpoint | runIdentity
      | abort => simpa using hold

end

end FerroDb.Replication
