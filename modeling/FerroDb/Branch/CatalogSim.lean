import FerroDb.Branch.TableCatalog
import FerroDb.Library.OrderedSet

/-!
# One catalog for the other

The catalog in a tree follows the catalog in memory: slot by slot, the families of the tree hold
what the record of the slot says. Only the index by state may hold more: a slot that is taken
again keeps the entry that says it is reaped.
-/

namespace FerroDb.Branch

open Library Option Function Std Prod

variable {write : TableBranchCatalog.EnvelopeWrite} {x : BranchRecord} {r : BranchRecord} {id : ℕ}
  {i : ℕ} {arenas : List ℕ} {s : BranchState} {k : DeadlineKey}

/-! ## What the families of the tree hold -/

namespace TableBranchCatalog

variable {t t' : TableBranchCatalog} {r : BranchRecord} {prev : CoreRecord}

lemma mem_states_putRecord :
    i ∈ (t.putRecord r).states s ↔ (s = r.state ∧ i = r.branchId.id) ∨ i ∈ t.states s := by
  by_cases hs : s = r.state
  · subst hs
    simp [putRecord, eq_comm (a := i)]
  · simp [putRecord, hs]

lemma mem_states_unindex :
    i ∈ (t.unindex prev).states s ↔ i ∈ t.states s ∧ ¬(s = prev.state ∧ i = prev.branchId.id) := by
  by_cases hs : s = prev.state
  · subst hs
    simp [unindex, eq_comm (a := i), and_comm]
  · simp [unindex, hs]

lemma mem_deadlines_putRecord : k ∈ (t.putRecord r).deadlines ↔
      (inDeadlineIndex r.state r.branchId ∧ k = ⟨r.leaseDeadline, r.branchId.id⟩) ∨
        k ∈ t.deadlines := by
  unfold putRecord
  by_cases h : inDeadlineIndex r.state r.branchId
  · simp [h, eq_comm (a := k)]
  · simp [h]

lemma mem_deadlines_unindex : k ∈ (t.unindex prev).deadlines ↔ k ∈ t.deadlines ∧
      ¬(inDeadlineIndex prev.state prev.branchId ∧
        k = ⟨prev.leaseDeadline, prev.branchId.id⟩) := by
  unfold unindex
  by_cases h : inDeadlineIndex prev.state prev.branchId
  · simp [h, eq_comm (a := k), and_comm]
  · simp [h]

lemma mem_arenas_writeArenas {a : ℕ} :
    a ∈ (t.writeArenas id arenas).arenas i ↔ if i = id then a ∈ arenas else a ∈ t.arenas i := by
  unfold writeArenas
  by_cases hi : i = id
  · subst hi
    simp only [update_self, mem_foldl_insert, mem_foldl_erase, TreeSet.mem_toList]
    constructor
    · rintro (h | ⟨h, hl⟩)
      · exact h
      · exact hl h
    · exact .inl
  · simp [hi]

lemma size_states_putRecord : ((t.putRecord r).states .live).size =
    if r.state = .live ∧ r.branchId.id ∉ t.states .live then (t.states .live).size + 1
    else (t.states .live).size := by
  by_cases hs : r.state = .live
  · simp only [putRecord, hs, update_self, TreeSet.size_insert]
    split_ifs <;> simp_all
  · have hne : BranchState.live ≠ r.state := fun h => hs h.symm
    simp [putRecord, hs, update_of_ne hne]

lemma size_states_unindex : ((t.unindex prev).states .live).size =
    if prev.state = .live ∧ prev.branchId.id ∈ t.states .live then (t.states .live).size - 1
    else (t.states .live).size := by
  by_cases hs : prev.state = .live
  · simp only [unindex, hs, update_self, true_and, TreeSet.size_erase,
      TreeSet.mem_iff_contains]
  · have hne : BranchState.live ≠ prev.state := fun h => hs h.symm
    simp [unindex, hs, update_of_ne hne]

/-! ## Frames -/

/-- Nothing of a slot is changed. -/
structure Untouched (t t' : TableBranchCatalog) (i : ℕ) : Prop where
  record : t'.records[i]? = t.records[i]?
  arenas : ∀ a, a ∈ t'.arenas i ↔ a ∈ t.arenas i
  envelope : t'.envelopes[i]? = t.envelopes[i]?
  states : ∀ s, i ∈ t'.states s ↔ i ∈ t.states s
  deadlines : ∀ millis, ⟨millis, i⟩ ∈ t'.deadlines ↔ ⟨millis, i⟩ ∈ t.deadlines
  children : t'.children i = t.children i

namespace Untouched

variable {i : ℕ} {t'' : TableBranchCatalog}

lemma refl (t : TableBranchCatalog) (i : ℕ) : Untouched t t i :=
  ⟨rfl, fun _ => .rfl, rfl, fun _ => .rfl, fun _ => .rfl, rfl⟩

lemma trans (h : Untouched t t' i) (h' : Untouched t' t'' i) : Untouched t t'' i where
  record := h'.record.trans h.record
  arenas a := (h'.arenas a).trans (h.arenas a)
  envelope := h'.envelope.trans h.envelope
  states s := (h'.states s).trans (h.states s)
  deadlines m := (h'.deadlines m).trans (h.deadlines m)
  children := h'.children.trans h.children

lemma putRecord (hi : i ≠ r.branchId.id) : Untouched t (t.putRecord r) i where
  record := by simp [TableBranchCatalog.putRecord, TreeMap.getElem?_insert, Ne.symm hi]
  arenas _ := .rfl
  envelope := rfl
  states s := by simp [mem_states_putRecord, hi]
  deadlines m := by simp [mem_deadlines_putRecord, hi]
  children := rfl

lemma unindex (hi : i ≠ prev.branchId.id) : Untouched t (t.unindex prev) i where
  record := rfl
  arenas _ := .rfl
  envelope := rfl
  states s := by simp [mem_states_unindex, hi]
  deadlines m := by simp [mem_deadlines_unindex, hi]
  children := rfl

lemma putEnvelope {e : CapabilityEnvelope} (hi : i ≠ id) : Untouched t (t.putEnvelope id e) i :=
  { refl t i with
    envelope := by
      simp [TableBranchCatalog.putEnvelope, TreeMap.getElem?_insert, Ne.symm hi] }

lemma writeEnvelope (hi : i ≠ id) : Untouched t (t.writeEnvelope id write) i := by
  cases write with
  | unchanged => exact refl t i
  | put e => exact putEnvelope hi
  | remove =>
    exact { refl t i with
      envelope := by
        simp [writeEnvelope, TreeMap.getElem?_erase, Ne.symm hi] }

lemma writeArenas (hi : i ≠ id) : Untouched t (t.writeArenas id arenas) i :=
  { refl t i with arenas := fun a => by rw [mem_arenas_writeArenas, if_neg hi] }

lemma putArena {arena : ℕ} (hi : i ≠ id) : Untouched t (t.putArena id arena) i :=
  { refl t i with arenas := fun a => by simp [TableBranchCatalog.putArena, hi] }

lemma setChildren {entries : List ChildEntry} (hi : i ≠ id) :
    Untouched t { t with children := Function.update t.children id entries } i :=
  { refl t i with children := update_of_ne hi _ _ }

end Untouched

end TableBranchCatalog

/-! ## Slots -/

open TableBranchCatalog

/-- The families of the tree hold for a slot what its record says, and no more, but for an entry
of the index by state that is left over. -/
structure Slot (r : Option BranchRecord) (t : TableBranchCatalog) (id : ℕ) (leftover : Prop) :
    Prop where
  keyed : ∀ x, r = some x → x.branchId.id = id
  record : t.records[id]? = r.map .narrow
  arenas : ∀ a, a ∈ t.arenas id ↔ ∃ x, r = some x ∧ a ∈ x.arenas
  arenasSorted : ∀ x, r = some x → x.arenas.Pairwise (· < ·)
  envelope : t.envelopes[id]? = r.bind BranchRecord.envelope
  admitted : ∀ e, t.envelopes[id]? = some e → admitEnvelope e = .ok ()
  states : ∀ s, s ≠ .reaped ∨ ¬leftover → (id ∈ t.states s ↔ ∃ x, r = some x ∧ x.state = s)
  reaped : ∀ x, r = some x → x.state = .reaped → id ∈ t.states .reaped
  deadlines : ∀ millis, ⟨millis, id⟩ ∈ t.deadlines ↔
    ∃ x, r = some x ∧ inDeadlineIndex x.state x.branchId ∧ x.leaseDeadline = millis
  children : (t.children id).map fst = r.elim [] BranchRecord.liveChildren
  sorted : ∀ x, r = some x → x.liveChildren.Pairwise (· ≤ ·)

namespace Slot

variable {r : Option BranchRecord} {t t' : TableBranchCatalog} {id : ℕ} {leftover : Prop}

lemma congr (h : Slot r t id leftover) (ht : Untouched t t' id) : Slot r t' id leftover where
  keyed := h.keyed
  record := ht.record.trans h.record
  arenas a := (ht.arenas a).trans (h.arenas a)
  arenasSorted := h.arenasSorted
  envelope := ht.envelope.trans h.envelope
  admitted e he := h.admitted e (ht.envelope ▸ he)
  states s hs := (ht.states s).trans (h.states s hs)
  reaped x hx hs := (ht.states _).mpr (h.reaped x hx hs)
  deadlines m := (ht.deadlines m).trans (h.deadlines m)
  children := by
    rw [ht.children]
    exact h.children
  sorted := h.sorted

lemma mono {leftover' : Prop} (h : Slot r t id leftover) (hl : leftover → leftover') :
    Slot r t id leftover' :=
  { h with states := fun s hs => h.states s (hs.imp_right fun hn hl' => hn (hl hl')) }

/-- What is read of a slot is the record, but for its children. -/
lemma hydrate (h : Slot (some x) t id leftover) : t.hydrate (.narrow x) = x.childless := by
  have hid := h.keyed x rfl
  have harenas : (t.arenas id).toList = x.arenas :=
    toList_eq_of_mem (h.arenasSorted x rfl) fun a => by simp [h.arenas]
  have henv := h.envelope
  rw [TableBranchCatalog.hydrate, show (CoreRecord.narrow x).branchId.id = id from hid, harenas,
    henv]
  rfl

/-- Another record with the same core leaves the record and the indexes as they are. -/
lemma recore {y : BranchRecord} (h : Slot (some x) t id leftover)
    (hcore : CoreRecord.narrow y = .narrow x) (hrecords : t'.records = t.records)
    (hstates : t'.states = t.states) (hdeadlines : t'.deadlines = t.deadlines)
    (harenas : ∀ a, a ∈ t'.arenas id ↔ a ∈ y.arenas) (harenasSorted : y.arenas.Pairwise (· < ·))
    (henvelope : t'.envelopes[id]? = y.envelope)
    (hadmitted : ∀ e, y.envelope = some e → admitEnvelope e = .ok ())
    (hchildren : (t'.children id).map fst = y.liveChildren)
    (hsorted : y.liveChildren.Pairwise (· ≤ ·)) : Slot (some y) t' id leftover := by
  have hid : y.branchId = x.branchId := congrArg CoreRecord.branchId hcore
  have hstate : y.state = x.state := congrArg CoreRecord.state hcore
  have hlease : y.leaseDeadline = x.leaseDeadline := congrArg CoreRecord.leaseDeadline hcore
  exact
    { keyed := fun z hz => by
        rw [← some.inj hz, hid]
        exact h.keyed x rfl
      record := by
        rw [hrecords, h.record, map_some, map_some, hcore]
      arenas := fun a => (harenas a).trans (by simp)
      arenasSorted := fun z hz => some.inj hz ▸ harenasSorted
      envelope := henvelope
      admitted := fun e he => hadmitted e (henvelope ▸ he)
      states := fun s hs => by
        rw [hstates, h.states s hs]
        simp [hstate]
      reaped := fun z hz hs => by
        rw [hstates]
        refine h.reaped x rfl ?_
        rw [← hstate, some.inj hz, hs]
      deadlines := fun m => by
        rw [hdeadlines, h.deadlines]
        simp [hstate, hid, hlease]
      children := hchildren
      sorted := fun z hz => some.inj hz ▸ hsorted }

/-- The state of a slot is in the index if the slot has it. -/
lemma mem_live (h : Slot (some x) t id leftover) : id ∈ t.states .live ↔ x.state = .live := by
  rw [h.states .live (.inl (by decide))]
  simp

end Slot

namespace TableBranchCatalog

variable {t t' : TableBranchCatalog}

/-- What a written record leaves in its slot, when the indexes hold at most what is left over. -/
lemma slot_written {leftover : Prop}
    (hstates : ∀ s, r.branchId.id ∈ t.states s → s = .reaped ∧ leftover)
    (hdeadlines : ∀ millis, ⟨millis, r.branchId.id⟩ ∉ t.deadlines)
    (hchildren : (t.children r.branchId.id).map fst = r.liveChildren)
    (hsorted : r.liveChildren.Pairwise (· ≤ ·)) (harenas : r.arenas.Pairwise (· < ·))
    (henvelope : ((t.writeEnvelope r.branchId.id write).envelopes)[r.branchId.id]? = r.envelope)
    (hadmitted : ∀ e, r.envelope = some e → admitEnvelope e = .ok ()) : Slot (some r)
      (((t.putRecord r).writeEnvelope r.branchId.id write).writeArenas r.branchId.id r.arenas)
      r.branchId.id leftover := by
  have hput : ((((t.putRecord r).writeEnvelope r.branchId.id write).writeArenas r.branchId.id
      r.arenas).envelopes)[r.branchId.id]? = r.envelope := by
    rw [← henvelope]
    cases write <;> rfl
  have hfields : ∀ u : TableBranchCatalog,
      (u.writeEnvelope r.branchId.id write).records = u.records ∧
      (u.writeEnvelope r.branchId.id write).states = u.states ∧
      (u.writeEnvelope r.branchId.id write).deadlines = u.deadlines ∧
      (u.writeEnvelope r.branchId.id write).children = u.children := fun u => by
    cases write <;> exact ⟨rfl, rfl, rfl, rfl⟩
  obtain ⟨hr, hs, hd, hc⟩ := hfields (t.putRecord r)
  refine
    { keyed := fun x hx => by rw [some.inj hx]
      record := ?_
      arenas := fun a => by simp [mem_arenas_writeArenas]
      arenasSorted := fun x hx => some.inj hx ▸ harenas
      envelope := hput
      admitted := fun e he => hadmitted e (hput ▸ he)
      states := fun s hl => ?_
      reaped := fun x hx hx' => ?_
      deadlines := fun m => ?_
      children := ?_
      sorted := fun x hx => some.inj hx ▸ hsorted }
  · change ((t.putRecord r).writeEnvelope r.branchId.id write).records[r.branchId.id]? = _
    rw [hr]
    simp [putRecord]
  · change r.branchId.id ∈ ((t.putRecord r).writeEnvelope r.branchId.id write).states s ↔ _
    rw [hs, mem_states_putRecord]
    constructor
    · rintro (⟨rfl, -⟩ | h)
      · exact ⟨r, rfl, rfl⟩
      · obtain ⟨rfl, hleft⟩ := hstates s h
        exact (hl.elim (fun h => h rfl) fun h => h hleft).elim
    · rintro ⟨x, hx, rfl⟩
      obtain rfl := some.inj hx
      exact .inl ⟨rfl, rfl⟩
  · obtain rfl := some.inj hx
    change r.branchId.id ∈ ((t.putRecord r).writeEnvelope r.branchId.id write).states .reaped
    rw [hs, mem_states_putRecord]
    exact .inl ⟨hx'.symm, rfl⟩
  · change (⟨m, r.branchId.id⟩ : DeadlineKey) ∈
      ((t.putRecord r).writeEnvelope r.branchId.id write).deadlines ↔ _
    rw [hd, mem_deadlines_putRecord]
    simp only [hdeadlines m, or_false, some.injEq, exists_eq_left', DeadlineKey.mk.injEq,
      and_true]
    exact and_congr_right fun _ => eq_comm
  · change (((t.putRecord r).writeEnvelope r.branchId.id write).children r.branchId.id).map _ = _
    rw [hc]
    exact hchildren

lemma untouched_written (hi : i ≠ r.branchId.id) : Untouched t
      (((t.putRecord r).writeEnvelope r.branchId.id write).writeArenas r.branchId.id r.arenas) i :=
  ((Untouched.putRecord hi).trans (.writeEnvelope hi)).trans (.writeArenas hi)

end TableBranchCatalog

/-! ## The two catalogs -/

/-- The catalogs hold the same; of the slots in `reused` an entry of the index by state may be
left over. -/
structure Sim (c : LogBranchCatalog) (t : TableBranchCatalog) (reused : List ℕ) : Prop where
  slots : ∀ id : ℕ, Slot c.records[id]? t id (id ∈ reused)
  /-- Every child that is listed has a record. -/
  known : ∀ (p : ℕ) (x : ChildEntry), x ∈ t.children p → ∃ r, c.records[x.2]? = some r
  free : ∀ id, id ∈ t.freeIds ↔ id ∈ c.freeIds
  freeSorted : c.freeIds.Pairwise (· < ·)
  live : c.live = (t.states .live).size
  epoch : t.epoch = c.epoch
  nextId : t.nextId = c.nextId
  below : ∀ (id : ℕ) (r : BranchRecord), c.records[id]? = some r → id < c.nextId

namespace Sim

variable {c c' : LogBranchCatalog} {t t' : TableBranchCatalog} {reused : List ℕ}

lemma core_eq (h : Sim c t reused) (id : ℕ) : t.core id = (c.records[id]?).map .narrow :=
  (h.slots id).record

lemma slot (h : Sim c t reused) (hr : c.records[id]? = some r) :
    Slot (some r) t id (id ∈ reused) :=
  hr ▸ h.slots id

lemma checkReadable_narrow (r : BranchRecord) (b : BranchId) :
    (CoreRecord.narrow r).checkReadable b = r.checkReadable b := rfl

/-- A change of one slot, and of nothing else that the catalogs share. -/
lemma change (h : Sim c t reused)
    (hrecords : ∀ i : ℕ, c'.records[i]? = if i = id then some r else c.records[i]?)
    (hslot : Slot (some r) t' id (id ∈ reused)) (hother : ∀ i, i ≠ id → Untouched t t' i)
    (hknown : ∀ x ∈ t'.children id, ∃ y, c'.records[x.2]? = some y)
    (hbelow : id < c'.nextId) (hle : c.nextId ≤ c'.nextId)
    (hfree : ∀ i, i ∈ t'.freeIds ↔ i ∈ c'.freeIds) (hfreeSorted : c'.freeIds.Pairwise (· < ·))
    (hlive : c'.live = (t'.states .live).size) (hepoch : t'.epoch = c'.epoch)
    (hnextId : t'.nextId = c'.nextId) : Sim c' t' reused where
  slots i := by
    rw [hrecords]
    split_ifs with hi
    · exact hi ▸ hslot
    · exact (h.slots i).congr (hother i hi)
  known p x hx := by
    by_cases hp : p = id
    · exact hknown x (hp ▸ hx)
    · obtain ⟨y, hy⟩ := h.known p x ((hother p hp).children ▸ hx)
      rw [hrecords]
      split_ifs
      · exact ⟨r, rfl⟩
      · exact ⟨y, hy⟩
  free := hfree
  freeSorted := hfreeSorted
  live := hlive
  epoch := hepoch
  nextId := hnextId
  below i x hx := by
    rw [hrecords] at hx
    split_ifs at hx with hi
    · exact hi ▸ hbelow
    · exact (h.below i x hx).trans_le hle

end Sim

end FerroDb.Branch
