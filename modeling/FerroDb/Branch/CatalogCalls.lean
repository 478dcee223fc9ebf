import FerroDb.Branch.CatalogChildren

/-!
# Calls on the two catalogs

A call that both catalogs understand alike has the same outcome on either: they accept it with the
same reply, or refuse it, and are in step afterwards.
-/

namespace FerroDb.Branch

open List hiding mem_insert_iff
open Except (ok toOption)

open Library TableBranchCatalog Option

variable {id lease epoch : ℕ} {p child r : BranchRecord} {parent : BranchId}

/-! ## Calls -/

/-- A reply but for the children of records, which the catalog in a tree never fills in. -/
def CatalogReply.childless : CatalogReply → CatalogReply
  | .record r => .record r.childless
  | reply => reply

/-- Both refuse, or both accept with the same reply. -/
def SameReply (reply reply' : Except FerroError CatalogReply) : Prop :=
  reply'.toOption = reply.toOption.map CatalogReply.childless

/-- The catalogs understand a call alike: no slot is reused that is not reaped any more or has
children, released slots are not lost to a fork that is refused, ids do not run out, an envelope
fits an entry, a slot is released when its children are settled, a child is attached to a parent
that there is, a fork or an attachment comes at an epoch the parent does not list yet, and arenas
come in ascending order. -/
def Admissible (c : LogBranchCatalog) (t : TableBranchCatalog) : CatalogOp → Prop
  | .fork parent _ =>
    c.nextId + 1 < 2 ^ 64 ∧
    (∀ id ∈ c.freeIds, ∃ r, c.records[id]? = some r ∧ r.state = .reaped ∧ r.liveChildren = []) ∧
    (c.freeIds ≠ [] → ∀ r, c.records[parent.id]? = some r → r.state ≠ .quarantined) ∧
    c.tick.epoch ∉ c.liveChildren parent.id
  | .restrictEnvelope _ envelope => admitEnvelope envelope = .ok ()
  | .releaseId id => t.Settled id
  | .attachChild parentId forkEpoch childId =>
    ((∃ r, c.records[parentId]? = some r) ↔ ∃ r, c.records[childId]? = some r) ∧
      forkEpoch ∉ c.liveChildren parentId
  | .addArena branch arena =>
    ∀ r, c.records[branch.id]? = some r → arena ∈ r.arenas ∨ ∀ a ∈ r.arenas, a < arena
  | _ => True

/-- The slot a call may take from the released ones. -/
def LogBranchCatalog.reuses (c : LogBranchCatalog) : CatalogOp → List ℕ
  | .fork _ _ => c.freeIds.getLast?.toList
  | _ => []

/-! ## Operations -/

/-- The outcome of a call on one catalog follows the one on the other. -/
structure Follows (o : LogBranchCatalog.Outcome) (o' : TableBranchCatalog.Outcome)
    (reused : List ℕ) : Prop where
  reply : SameReply o.reply o'.reply
  sim : Sim o.catalog o'.catalog reused

namespace Sim

open LogBranchCatalog

variable {c c' : LogBranchCatalog} {t : TableBranchCatalog} {reused : List ℕ}

section

variable (h : Sim c t reused)
include h

lemma follows_refused (e e' : FerroError) : Follows (c.refused e) (t.refused e') reused :=
  ⟨rfl, h⟩

lemma follows_withReadable (b : BranchId)
    {f : BranchRecord → Except FerroError (Option BranchRecord × CatalogReply)}
    {g : CoreRecord → Except FerroError (TableBranchCatalog × CatalogReply)}
    (hfg : ∀ x, c.records[b.id]? = some x → x.branchId.id = b.id →
      (∃ e e', f x = .error e ∧ g (.narrow x) = .error e') ∨
      (∃ y t' reply, f x = .ok (y, reply) ∧ g (.narrow x) = .ok (t', reply.childless) ∧
        Sim (y.elim c c.install) t' reused)) :
    Follows (c.withReadable b f) (t.withReadable b g) reused := by
  unfold LogBranchCatalog.withReadable TableBranchCatalog.withReadable
  rw [h.core_eq]
  cases hx : c.records[b.id]? with
  | none => exact h.follows_refused _ _
  | some x =>
    dsimp only [map_some]
    rw [checkReadable_narrow]
    cases x.checkReadable b with
    | error e => exact h.follows_refused _ _
    | ok _ =>
      rcases hfg x hx ((h.slot hx).keyed x rfl) with
        ⟨e, e', hf, hg⟩ | ⟨y, t', reply, hf, hg, hsim⟩
      · rw [hf, hg]
        exact h.follows_refused _ _
      · rw [hf, hg]
        cases y <;> exact ⟨rfl, hsim⟩

/-- An operation that writes another record of the same slot, with the same envelope. -/
lemma follows_rewrite {x : BranchRecord} (hx : c.records[id]? = some x) (hid : r.branchId.id = id)
    (hchildren : r.liveChildren = x.liveChildren) (harenas : r.arenas.Pairwise (· < ·))
    (henvelope : r.envelope = x.envelope) :
    ∃ t', t.writeRecord r.childless (some (.narrow x)) = .ok t' ∧ Sim (c.install r) t' reused :=
  h.rewrite (hid ▸ hx) hchildren harenas henvelope

lemma follows_reparent (branch parent : BranchId) (forkEpoch root : ℕ) :
    Follows (c.reparent branch parent forkEpoch root) (t.reparent branch parent forkEpoch root)
      reused := by
  refine h.follows_withReadable branch fun x hx hid => ?_
  rw [h.core_eq, (h.slot hx).hydrate]
  cases c.records[parent.id]? with
  | none => exact .inl ⟨_, _, rfl, rfl⟩
  | some p =>
    let r := { x with
      parentId := some parent
      forkEpoch := forkEpoch
      depth := BranchRecord.below p.depth
      rootPageId := root }
    obtain ⟨t', hwrite, hsim⟩ := h.follows_rewrite (r := r) hx hid rfl
      ((h.slot hx).arenasSorted x rfl) rfl
    refine .inr ⟨some r, t', .record r, rfl, ?_, hsim⟩
    change (t.writeRecord r.childless (some (.narrow x))).map _ = _
    rw [hwrite]
    rfl

omit h in
lemma length_serialize_charge {e e' : CapabilityEnvelope} {n : ℕ} (h : e.charge n = .ok e') :
    e'.serialize.length = e.serialize.length := by
  rw [CapabilityEnvelope.charge] at h
  split_ifs at h
  · simp [CapabilityEnvelope.refuse] at h
  · obtain rfl : { e with rowWrites := e.rowWrites + n } = e' := by simpa using h
    simp [CapabilityEnvelope.serialize]

variable (branch : BranchId)

lemma follows_restrictEnvelope
    {envelope : CapabilityEnvelope} (he : admitEnvelope envelope = .ok ()) :
    Follows (c.restrictEnvelope branch envelope) (t.restrictEnvelope branch envelope) reused := by
  refine h.follows_withReadable branch fun x hx hid => ?_
  have henv : t.envelopes[branch.id]? = x.envelope := (h.slot hx).envelope
  rw [henv, BranchRecord.restrict]
  have hnext : ∀ e, restrict x.envelope envelope = .ok e → e = envelope := fun e hr => by
    unfold restrict at hr
    cases hcur : x.envelope with
    | none => simpa [hcur] using hr.symm
    | some cur =>
      simp only [hcur] at hr
      obtain ⟨-, -, hr⟩ := bind_ok.mp hr
      exact (ok.inj hr).symm
  cases hr : restrict x.envelope envelope with
  | error e => exact .inl ⟨_, _, rfl, rfl⟩
  | ok e =>
    obtain rfl := hnext e hr
    refine .inr ⟨_, _, .unit, rfl, ?_, h.setEnvelope (hid ▸ hx) he⟩
    simp only [he, hid]
    rfl

lemma follows_setState (expect dest : BranchState) :
    Follows (c.setState branch expect dest) (t.setState branch expect dest) reused := by
  unfold LogBranchCatalog.setState TableBranchCatalog.setState
  rw [h.core_eq]
  cases hx : c.records[branch.id]? with
  | none => exact h.follows_refused _ _
  | some x =>
    have hslot := h.slot hx
    have hid := hslot.keyed x rfl
    dsimp only [map_some]
    rw [hslot.hydrate]
    change Follows _ (if x.generation ≠ branch.generation then _ else
      if x.state ≠ expect then _ else if expect = dest then _ else _) reused
    by_cases hgen : x.generation ≠ branch.generation
    · rw [if_pos hgen, if_pos hgen]
      exact h.follows_refused _ _
    by_cases hstate : x.state ≠ expect
    · rw [if_neg hgen, if_pos hstate, if_neg hgen, if_pos hstate]
      exact h.follows_refused _ _
    by_cases hsame : expect = dest
    · rw [if_neg hgen, if_neg hstate, if_pos hsame, if_neg hgen, if_neg hstate, if_pos hsame]
      exact ⟨rfl, h⟩
    rw [if_neg hgen, if_neg hstate, if_neg hsame, if_neg hgen, if_neg hstate, if_neg hsame]
    by_cases hdest : dest = .reaped
    · obtain ⟨t', hwrite, hsim⟩ := h.follows_rewrite (r := x.markReaped) hx hid rfl
        Pairwise.nil rfl
      rw [if_pos hdest, if_pos hdest,
        show t.writeRecord x.childless.markReaped (some (.narrow x)) = .ok t' from hwrite]
      exact ⟨rfl, hsim⟩
    · obtain ⟨t', hwrite, hsim⟩ := h.follows_rewrite (r := { x with state := dest }) hx hid rfl
        (hslot.arenasSorted x rfl) rfl
      rw [if_neg hdest, if_neg hdest,
        show t.writeRecord { x.childless with state := dest } (some (.narrow x)) = .ok t'
          from hwrite]
      exact ⟨rfl, hsim⟩

lemma follows_setRoot (root : ℕ) :
    Follows (c.setRoot branch root) (t.setRoot branch root) reused := by
  refine h.follows_withReadable branch fun x hx hid => .inr ?_
  obtain ⟨t', hwrite, hsim⟩ := h.follows_rewrite (r := { x with rootPageId := root }) hx hid rfl
    ((h.slot hx).arenasSorted x rfl) rfl
  refine ⟨_, t', .unit, rfl, ?_, hsim⟩
  rw [(h.slot hx).hydrate]
  change (t.writeRecord (BranchRecord.childless { x with rootPageId := root })
    (some (.narrow x))).map _ = _
  rw [hwrite]
  rfl

lemma follows_renewLease (lease : ℕ) :
    Follows (c.renewLease branch lease) (t.renewLease branch lease) reused := by
  refine h.follows_withReadable branch fun x hx hid => .inr ?_
  obtain ⟨t', hwrite, hsim⟩ := h.follows_rewrite (r := { x with leaseDeadline := lease }) hx hid rfl
    ((h.slot hx).arenasSorted x rfl) rfl
  refine ⟨_, t', .unit, rfl, ?_, hsim⟩
  rw [(h.slot hx).hydrate]
  change (t.writeRecord (BranchRecord.childless { x with leaseDeadline := lease })
    (some (.narrow x))).map _ = _
  rw [hwrite]
  rfl

lemma follows_addArena {arena : ℕ}
    (ha : ∀ r, c.records[branch.id]? = some r → arena ∈ r.arenas ∨ ∀ a ∈ r.arenas, a < arena) :
    Follows (c.addArena branch arena) (t.addArena branch arena) reused := by
  refine h.follows_withReadable branch fun x hx hid => .inr ?_
  rw [← hid] at hx ⊢
  by_cases hin : arena ∈ x.arenas
  · refine ⟨none, _, .unit, if_pos hin, rfl, h.sameArena hx hin⟩
  · refine ⟨some _, _, .unit, if_neg hin, rfl, h.pushArena hx ?_⟩
    exact (ha x (hid ▸ hx)).resolve_left hin

lemma follows_chargeRowWrites (n : ℕ) :
    Follows (c.chargeRowWrites branch n) (t.chargeRowWrites branch n) reused := by
  refine h.follows_withReadable branch fun x hx hid => ?_
  have henv : t.envelopes[branch.id]? = x.envelope := (h.slot hx).envelope
  rw [henv]
  cases hcur : x.envelope with
  | none => exact .inl ⟨_, _, rfl, rfl⟩
  | some e =>
    cases hcharge : e.charge n with
    | error e' => exact .inl ⟨e'.toError, e'.toError, by simp [hcharge], by simp [hcharge]⟩
    | ok e' =>
      have hadmit : admitEnvelope e' = .ok () := by
        rw [admitEnvelope, length_serialize_charge hcharge]
        exact (h.slot hx).admitted e (henv.trans hcur)
      refine .inr ⟨some { x with envelope := some e' }, _, .unit, by simp [hcharge], ?_,
        h.setEnvelope (hid ▸ hx) hadmit⟩
      simp only [hcharge, hadmit, hid]
      rfl

/-! ## Children and slots -/

lemma follows_attachChild {parentId forkEpoch childId : ℕ}
    (hboth : (∃ r, c.records[parentId]? = some r) ↔ ∃ r, c.records[childId]? = some r)
    (hnew : forkEpoch ∉ c.liveChildren parentId) :
    Follows (c.attachChild parentId forkEpoch) (t.attachChild parentId forkEpoch childId)
      reused := by
  unfold LogBranchCatalog.attachChild TableBranchCatalog.attachChild
  rw [h.core_eq]
  cases hp : c.records[parentId]? with
  | none =>
    have hc : c.records[childId]? = none := by
      rw [eq_none_iff_forall_ne_some]
      intro r hr
      obtain ⟨p, hp'⟩ := hboth.mpr ⟨r, hr⟩
      simp [hp] at hp'
    rw [hc]
    exact h.follows_refused _ _
  | some p =>
    obtain ⟨child, hc⟩ := hboth.mp ⟨p, hp⟩
    rw [hc]
    have hslot := h.slot hp
    have hid := hslot.keyed p rfl
    have hlist : c.liveChildren parentId = p.liveChildren := by
      rw [liveChildren, hp, elim_some]
    have hothers : (t.children parentId).filter (fun x => x.1 ≠ forkEpoch) = t.children parentId := by
      rw [filter_eq_self]
      intro x hx
      have hin : x.1 ∈ c.liveChildren parentId := h.map_children parentId ▸ mem_map_of_mem hx
      simpa using fun heq : x.1 = forkEpoch => hnew (heq ▸ hin)
    rw [hothers, ← hid]
    refine ⟨rfl, h.setChildren (hid ▸ hp) ?_ (insertEpoch_sorted (hslot.sorted p rfl)) ?_⟩
    · rw [map_insertEntry, hid, h.map_children, hlist]
    · intro y hy
      rcases mem_insertEntry.mp hy with rfl | hy
      · exact ⟨child, hc⟩
      · exact h.known _ y hy

lemma follows_detachChild (parentId forkEpoch : ℕ) :
    Follows (c.detachChild parentId forkEpoch) (t.detachChild parentId forkEpoch) reused := by
  have hmap := h.map_children parentId
  have hnone (hn : forkEpoch ∉ (t.children parentId).map Prod.fst) :
      t.detachChild parentId forkEpoch = ⟨.ok (.removed false), t⟩ := by
    unfold TableBranchCatalog.detachChild
    rw [removeEntry_of_notMem hn]
    dsimp only
    rw [Function.update_eq_self]
  unfold LogBranchCatalog.detachChild
  cases hp : c.records[parentId]? with
  | none =>
    rw [hnone (by simp [hmap, liveChildren, hp])]
    exact ⟨rfl, h⟩
  | some p =>
    have hslot := h.slot hp
    have hid := hslot.keyed p rfl
    have hlist : c.liveChildren parentId = p.liveChildren := by
      rw [liveChildren, hp, elim_some]
    dsimp only
    rw [removeLiveChild_eq (hslot.sorted p rfl)]
    by_cases hin : forkEpoch ∈ p.liveChildren
    · rw [if_pos hin]
      obtain ⟨hremoved, hrest⟩ := removeEntry_of_mem (hmap.trans hlist ▸ hin)
      unfold TableBranchCatalog.detachChild
      dsimp only
      rw [hremoved, ← hid]
      refine ⟨rfl, h.setChildren (hid ▸ hp) ?_ ?_ ?_⟩
      · rw [hid, hrest, hmap, hlist]
      · exact (hslot.sorted p rfl).sublist erase_sublist
      · exact fun y hy => h.known _ y (mem_of_mem_removeEntry hy)
    · rw [if_neg hin, hnone (by rwa [hmap, hlist])]
      exact ⟨rfl, h⟩

/-- Whether a slot may be taken again, if its children are settled. -/
lemma reusableSlot_eq (hs : t.Settled id) : ∃ n, ∀ fuel ≥ n, t.reusableSlot fuel id = some (.ok
      (if (c.records[id]?).any fun r => r.state = .reaped && r.liveChildren.isEmpty then
        t.core id else none)) := by
  obtain ⟨n, hn⟩ := h.children_agree hs
  refine ⟨n, fun fuel hfuel => ?_⟩
  unfold reusableSlot
  rw [h.core_eq]
  cases hr : c.records[id]? with
  | none => simp
  | some r =>
    change (if r.state = .reaped then _ else _) = _
    by_cases hreaped : r.state = .reaped
    · rw [(hn fuel hfuel).2]
      simp [hreaped, LogBranchCatalog.hasLiveChildren, liveChildren, hr,
        Except.map]
    · simp [hreaped]

lemma follows_releaseId (hs : t.Settled id) :
    ∃ n o, (∀ fuel ≥ n, t.releaseId fuel id = some o) ∧ Follows (c.releaseId id) o reused := by
  by_cases hzero : id = 0
  · refine ⟨0, ⟨.ok .unit, t⟩, fun fuel _ => by simp [TableBranchCatalog.releaseId, hzero], ?_⟩
    rw [LogBranchCatalog.releaseId, if_pos (.inl hzero)]
    exact ⟨rfl, h⟩
  obtain ⟨n, hn⟩ := h.reusableSlot_eq hs
  by_cases hreuse : (c.records[id]?).any fun r => r.state = .reaped && r.liveChildren.isEmpty
  · -- The slot is put among the released ones, where it may be already.
    obtain ⟨r, hr⟩ : ∃ r, c.records[id]? = some r := by
      cases hr : c.records[id]? with
      | none => simp [hr] at hreuse
      | some r => exact ⟨r, rfl⟩
    refine ⟨n, ⟨.ok .unit, { t with freeIds := t.freeIds.insert id }⟩, fun fuel hfuel => ?_, ?_⟩
    · rw [TableBranchCatalog.releaseId, if_neg hzero, hn fuel hfuel, if_pos hreuse, h.core_eq, hr]
      rfl
    · unfold LogBranchCatalog.releaseId
      rw [hreuse]
      by_cases hin : id ∈ c.freeIds
      · rw [if_pos (.inr (.inr hin))]
        refine ⟨rfl, h.recount (fun i => ?_) h.freeSorted h.epoch h.nextId le_rfl⟩
        rw [mem_insert_iff, h.free, or_iff_right_iff_imp]
        rintro rfl
        exact hin
      · rw [if_neg (by simp [hzero, hin])]
        refine ⟨rfl, h.recount (fun i => ?_) ?_ h.epoch h.nextId le_rfl⟩
        · rw [mem_insert_iff, mem_orderedInsert, h.free]
        · have hle := (h.freeSorted.imp le_of_lt).orderedInsert id _
          have hne : (c.freeIds.orderedInsert (· ≤ ·) id).Pairwise (· ≠ ·) :=
            (perm_orderedInsert _ id c.freeIds).nodup_iff.mpr
              (nodup_cons.mpr ⟨hin, h.freeSorted.imp ne_of_lt⟩)
          exact hle.imp₂ (fun _ _ hab hne => lt_of_le_of_ne hab hne) hne
  · refine ⟨n, ⟨.ok .unit, t⟩, fun fuel hfuel => ?_, ?_⟩
    · rw [TableBranchCatalog.releaseId, if_neg hzero, hn fuel hfuel, if_neg hreuse]
      rfl
    · unfold LogBranchCatalog.releaseId
      rw [if_pos (.inr (.inl (by simpa using hreuse)))]
      exact ⟨rfl, h⟩

/-! ## Forks -/

lemma tick : Sim c.tick t.tick reused := by
  refine h.recount h.free h.freeSorted ?_ h.nextId le_rfl
  rw [h.epoch]

lemma toList_freeIds : t.freeIds.toList = c.freeIds :=
  toList_eq_of_mem h.freeSorted h.free

/-- The released slot that is found is the last one. -/
lemma firstReusable_eq
    (hfree : ∀ id ∈ c.freeIds, ∃ r, c.records[id]? = some r ∧ r.state = .reaped ∧
      r.liveChildren = []) {fuel : ℕ} (hfuel : 0 < fuel) :
    t.firstReusable fuel t.freeIds.toList.reverse =
      some (c.freeIds.getLast?.bind fun id => (t.core id).map (id, ·), []) := by
  rw [h.toList_freeIds]
  rcases eq_nil_or_concat c.freeIds with hnil | ⟨ids, id, hlast⟩
  · rw [hnil]
    rfl
  · obtain ⟨r, hr, hreaped, hempty⟩ := hfree id (by simp [hlast])
    have hslot : t.reusableSlot fuel id = some (.ok (some (.narrow r))) := by
      have hcore : t.core id = some (.narrow r) := by rw [h.core_eq, hr, map_some]
      have hnone : t.children id = [] := by
        have hmap := h.map_children id
        rw [liveChildren, hr, elim_some, hempty] at hmap
        simpa using hmap
      rw [reusableSlot, hcore]
      change (if r.state = .reaped then _ else _) = _
      rw [if_pos hreaped, hasLiveChildren_empty hnone hfuel]
      rfl
    rw [hlast, concat_eq_append, reverse_append]
    simp only [reverse_singleton, singleton_append, firstReusable, hslot,
      getLast?_append_of_ne_nil _ (cons_ne_nil _ _), getLast?_singleton,
      bind_some]
    rw [h.core_eq, hr]
    rfl

omit h in
lemma forkChild_ok {childId : BranchId} (h : p.forkChild childId epoch lease = .ok child) :
    p.state = .live ∧ child.branchId = childId ∧ child.state = .live ∧ child.arenas = [] ∧
      child.liveChildren = [] ∧ child.envelope = p.envelope.map CapabilityEnvelope.inherited := by
  rw [BranchRecord.forkChild] at h
  split_ifs at h with hlive
  obtain rfl := ok.inj h
  exact ⟨not_not.mp hlive, rfl, rfl, rfl, rfl, rfl⟩

lemma admitted_child (hp : c.records[id]? = some p)
    (henvelope : child.envelope = p.envelope.map CapabilityEnvelope.inherited) :
    ∀ e, child.envelope = some e → admitEnvelope e = .ok () := by
  intro e he
  rw [henvelope, map_eq_some_iff] at he
  obtain ⟨e, he, rfl⟩ := he
  exact (h.slot hp).admitted e ((h.slot hp).envelope.trans he)

omit h in
/-- The order in which the records of a child and its parent are put in does not matter. -/
lemma reorder {p' : BranchRecord} (hne : p'.branchId.id ≠ child.branchId.id)
    (hp : c.records[p'.branchId.id]? = some p) (hstate : p'.state = p.state)
    (h : Sim ((c.install child).store p') t reused) :
    Sim ((c.install p').install child) t reused := by
  have hlookup (i : ℕ) : ((c.install p').install child).records[i]? =
      ((c.install child).store p').records[i]? := by
    simp only [getElem?_install, getElem?_store]
    by_cases h₁ : i = child.branchId.id
    · rw [if_pos h₁, if_neg (h₁ ▸ hne.symm), if_pos h₁]
    · rw [if_neg h₁, if_neg h₁]
  have hlive : ((c.install p').install child).live = ((c.install child).store p').live := by
    have hchild : (c.install p').records[child.branchId.id]? = c.records[child.branchId.id]? := by
      rw [getElem?_install, if_neg hne.symm]
    exact live_install_congr hchild (live_install_of_state hp hstate)
  exact
    { slots := fun i => hlookup i ▸ h.slots i
      known := fun p x hx => by
        rw [hlookup]
        exact h.known p x hx
      free := h.free
      freeSorted := h.freeSorted
      live := hlive.trans h.live
      epoch := h.epoch
      nextId := h.nextId
      below := fun i r hr => h.below i r (hlookup i ▸ hr) }

omit h in
/-- The child is in its slot; it is listed among the children of its parent. -/
lemma follows_listed
    (hne : p.branchId.id ≠ child.branchId.id) (hp : c.records[p.branchId.id]? = some p)
    (hchildren : child.liveChildren = []) (h : Sim (c.install child) t reused) :
    Follows ⟨.ok (.record child), (c.install (p.addLiveChild epoch)).install child, some child⟩
      ⟨.ok (.record child), t.insertChild p.branchId.id (epoch, child.branchId.id)⟩ reused := by
  have hp' : (c.install child).records[p.branchId.id]? = some p := by
    rw [getElem?_install, if_neg hne, hp]
  have hlist : (c.install child).liveChildren p.branchId.id = p.liveChildren := by
    rw [liveChildren, hp', elim_some]
  have hsame : child.childless = child := by
    cases child
    subst hchildren
    rfl
  constructor
  · rw [SameReply]
    simp [toOption, CatalogReply.childless, hsame]
  · refine reorder hne hp rfl (h.setChildren hp' ?_ (insertEpoch_sorted
      ((h.slot hp').sorted p rfl)) fun y hy => ?_)
    · rw [map_insertEntry, h.map_children, hlist]
    · rcases mem_insertEntry.mp hy with rfl | hy
      · exact ⟨child, by rw [getElem?_install, if_pos rfl]⟩
      · exact h.known _ y hy

/-- Both make the child from what they hold of its parent. -/
lemma forkChildFromCore_eq (hp : c.records[id]? = some p) (childId : BranchId) (lease : ℕ) :
    BranchRecord.forkChildFromCore (.narrow p) t.envelopes[id]? childId t.epoch lease =
      p.forkChild childId c.epoch lease := by
  have henv := (h.slot hp).envelope
  rw [henv, h.epoch]
  rfl

lemma forkInto_new
    (hp : c.records[parent.id]? = some p) (hfree : c.freeIds = []) (hnext : c.nextId + 1 < 2 ^ 64) :
    Follows
      (match p.forkChild c.takeId.1 c.takeId.2.epoch lease with
        | .error e => c.takeId.2.refused e.toError
        | .ok child => ⟨.ok (.record child),
          (c.takeId.2.install (p.addLiveChild c.takeId.2.epoch)).install child, some child⟩)
      (t.forkInto parent lease (.narrow p) none []) reused := by
  have hid := (h.slot hp).keyed p rfl
  have htake : c.takeId = (⟨c.nextId, 0⟩, { c with nextId := c.nextId + 1 }) := by
    rw [LogBranchCatalog.takeId, hfree, Nat.mod_eq_of_lt hnext]
    rfl
  have htake' : t.takeId none = (⟨c.nextId, 0⟩, { t with nextId := c.nextId + 1 }) := by
    rw [TableBranchCatalog.takeId, h.nextId, Nat.mod_eq_of_lt hnext]
  have htaken : Sim { c with nextId := c.nextId + 1 } { t with nextId := c.nextId + 1 } reused :=
    h.recount h.free h.freeSorted h.epoch rfl (Nat.le_succ _)
  rw [htake, forkInto, htake']
  dsimp only
  rw [h.forkChildFromCore_eq hp]
  cases hchild : p.forkChild ⟨c.nextId, 0⟩ c.epoch lease with
  | error e => exact htaken.follows_refused _ _
  | ok child =>
    obtain ⟨-, hcid, hlive, harenas, hchildren, henvelope⟩ := forkChild_ok hchild
    have hnum : child.branchId.id = c.nextId := by rw [hcid]
    have hnew : c.records[child.branchId.id]? = none := by
      rw [eq_none_iff_forall_ne_some]
      intro r hr
      have := h.below _ r hr
      omega
    obtain ⟨t', hwrite, hsim, hepoch⟩ := htaken.occupy_new (r := child) hnew hlive
      (by rw [hnum]; exact Nat.lt_succ_self _) harenas hchildren (h.admitted_child hp henvelope)
    have hne : p.branchId.id ≠ child.branchId.id := by
      have := h.below _ p hp
      omega
    simp only [forgetFree_nil, isSome_none, Bool.false_eq_true, if_false, hwrite]
    have hentry : (t'.epoch, c.nextId) = (c.epoch, child.branchId.id) := by
      rw [hnum, hepoch, h.epoch]
    rw [hentry, ← hid]
    exact follows_listed hne (hid ▸ hp) hchildren hsim

lemma forkInto_released
    (hp : c.records[parent.id]? = some p) (hlive : p.state = .live) {ids : List ℕ}
    (hfree : c.freeIds = ids ++ [id]) (hr : c.records[id]? = some r) (hreaped : r.state = .reaped)
    (hempty : r.liveChildren = []) : Follows
      (match p.forkChild c.takeId.1 c.takeId.2.epoch lease with
        | .error e => c.takeId.2.refused e.toError
        | .ok child => ⟨.ok (.record child),
          (c.takeId.2.install (p.addLiveChild c.takeId.2.epoch)).install child, some child⟩)
      (t.forkInto parent lease (.narrow p) (some (id, .narrow r)) []) (id :: reused) := by
  have hid := (h.slot hp).keyed p rfl
  have htake : c.takeId = (⟨id, r.generation⟩, { c with freeIds := ids }) := by
    rw [LogBranchCatalog.takeId, hfree]
    simp [hr]
  have hsorted := h.freeSorted
  rw [hfree, pairwise_append] at hsorted
  have htaken : Sim { c with freeIds := ids } (t.forgetFree [id]) (id :: reused) := by
    refine (h.mono (subset_cons_self _ _)).recount (fun i => ?_) hsorted.1 h.epoch h.nextId le_rfl
    change i ∈ t.freeIds.erase id ↔ i ∈ ids
    rw [mem_erase_iff, h.free, hfree, mem_append, mem_singleton]
    constructor
    · rintro ⟨hin | rfl, hne⟩
      · exact hin
      · exact absurd rfl hne
    · intro hin
      exact ⟨.inl hin, (hsorted.2.2 i hin id (mem_singleton_self id)).ne⟩
  rw [htake, forkInto]
  dsimp only [TableBranchCatalog.takeId]
  rw [h.forkChildFromCore_eq hp, show (CoreRecord.narrow r).generation = r.generation from rfl]
  cases hchild : p.forkChild ⟨id, r.generation⟩ c.epoch lease with
  | error e => simp [BranchRecord.forkChild, hlive] at hchild
  | ok child =>
    obtain ⟨-, hcid, hclive, harenas, hchildren, henvelope⟩ := forkChild_ok hchild
    have hnum : child.branchId.id = id := by rw [hcid]
    have hslotOf : ∀ y, c.records[child.branchId.id]? = some y → y = r := fun y hy => by
      rw [hnum, hr] at hy
      exact (some.inj hy).symm
    obtain ⟨t', hwrite, hsim, hepoch⟩ := htaken.occupy_released (r := child)
      (fun y hy => by rw [hslotOf y hy, hnum]; exact ⟨hreaped, mem_cons_self⟩)
      (fun y hy => by rw [hslotOf y hy, hempty]) hclive
      (by rw [hnum]; exact h.below _ r hr) harenas hchildren (h.admitted_child hp henvelope)
    have hne : p.branchId.id ≠ child.branchId.id := by
      intro heq
      rw [hid, hnum] at heq
      rw [heq, hr] at hp
      rw [some.inj hp, hlive] at hreaped
      exact absurd hreaped (by decide)
    simp only [forgetFree_nil, isSome_some, if_true, hwrite]
    have hentry : (t'.epoch, id) = (c.epoch, child.branchId.id) := by
      rw [hnum, hepoch]
      exact congrArg (·, id) h.epoch
    rw [hentry, ← hid]
    exact follows_listed hne (hid ▸ hp) hchildren hsim

lemma follows_fork (parent : BranchId) (lease : ℕ) (hop : Admissible c t (.fork parent lease)) :
    ∃ o, (∀ fuel, 0 < fuel → t.fork fuel parent lease = some o) ∧
      Follows (c.fork parent lease) o (c.freeIds.getLast?.toList ++ reused) := by
  obtain ⟨hnext, hfree, hquarantined, -⟩ := hop
  have htick := h.tick
  have hmono := htick.mono (subset_append_right c.freeIds.getLast?.toList reused)
  unfold TableBranchCatalog.fork LogBranchCatalog.fork
  dsimp only
  rw [htick.core_eq]
  cases hp : c.tick.records[parent.id]? with
  | none => exact ⟨_, fun _ _ => rfl, hmono.follows_refused _ _⟩
  | some p =>
    dsimp only [map_some]
    rw [checkReadable_narrow]
    cases hread : p.checkReadable parent with
    | error e => exact ⟨_, fun _ _ => rfl, hmono.follows_refused _ _⟩
    | ok _ =>
      refine ⟨_, fun fuel hfuel => by rw [htick.firstReusable_eq hfree hfuel]; rfl, ?_⟩
      change Follows _ (t.tick.forkInto parent lease (.narrow p)
        (c.freeIds.getLast?.bind fun id => (t.tick.core id).map (id, ·)) []) _
      rcases eq_nil_or_concat c.freeIds with hnil | ⟨ids, id, hlast⟩
      · rw [hnil]
        exact htick.forkInto_new hp hnil hnext
      · rw [concat_eq_append] at hlast
        obtain ⟨r, hr, hreaped, hempty⟩ := hfree id (by simp [hlast])
        have hcore : t.tick.core id = some (.narrow r) := by
          rw [htick.core_eq]
          exact congrArg (Option.map _) hr
        have hlive : p.state = .live := by
          have hne := hquarantined (by simp [hlast]) p hp
          unfold BranchRecord.checkReadable at hread
          split_ifs at hread with hbad
          cases hs : p.state <;> simp_all
        rw [hlast, getLast?_concat, bind_some, hcore]
        exact htick.forkInto_released hp hlive hlast hr hreaped hempty

/-- Every call that both understand alike has the same outcome. -/
lemma follows_apply {op : CatalogOp} (hop : Admissible c t op) :
    ∃ n o, (∀ fuel ≥ n, t.apply fuel op = some o) ∧
      Follows (c.apply op) o (c.reuses op ++ reused) := by
  cases op with
  | nextEpoch =>
    refine ⟨0, _, fun _ _ => rfl, ?_, h.tick⟩
    simp [SameReply, toOption, CatalogReply.childless, LogBranchCatalog.apply,
      h.tick.epoch]
  | fork parent lease =>
    obtain ⟨o, ho, hfollows⟩ := h.follows_fork parent lease hop
    exact ⟨1, o, fun fuel hfuel => ho fuel hfuel, hfollows⟩
  | reparent branch parent forkEpoch root =>
    exact ⟨0, _, fun _ _ => rfl, h.follows_reparent branch parent forkEpoch root⟩
  | restrictEnvelope branch envelope =>
    exact ⟨0, _, fun _ _ => rfl, h.follows_restrictEnvelope branch hop⟩
  | setState branch expect dest =>
    exact ⟨0, _, fun _ _ => rfl, h.follows_setState branch expect dest⟩
  | setRoot branch root => exact ⟨0, _, fun _ _ => rfl, h.follows_setRoot branch root⟩
  | releaseId id => exact h.follows_releaseId hop
  | attachChild parentId forkEpoch childId =>
    exact ⟨0, _, fun _ _ => rfl, h.follows_attachChild hop.1 hop.2⟩
  | detachChild parentId forkEpoch =>
    exact ⟨0, _, fun _ _ => rfl, h.follows_detachChild parentId forkEpoch⟩
  | addArena branch arena => exact ⟨0, _, fun _ _ => rfl, h.follows_addArena branch hop⟩
  | renewLease branch lease => exact ⟨0, _, fun _ _ => rfl, h.follows_renewLease branch lease⟩
  | chargeRowWrites branch n => exact ⟨0, _, fun _ _ => rfl, h.follows_chargeRowWrites branch n⟩

end

end Sim

end FerroDb.Branch
