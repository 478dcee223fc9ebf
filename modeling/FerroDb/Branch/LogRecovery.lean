import FerroDb.Branch.LogReplay

/-!
# What the log keeps of a catalog

Every operation appends the one record it changes, but for the children of a parent. So the last
records of the log are the records in memory, and a reopening recovers them, as long as nothing
is appended behind a record that was cut short.
-/

namespace FerroDb.Branch

open Option hiding mem_map
open Std (TreeMap)
open Except (ok toOption)

open List LogBranchCatalog

/-! ## Widths are kept -/

variable {n epoch lease forkEpoch : ℕ}

namespace CapabilityEnvelope.Fits

variable {e e' : CapabilityEnvelope}

lemma inherited (he : e.Fits) : e.inherited.Fits where
  maxRowWrites := lt_of_le_of_lt (Nat.sub_le e.maxRowWrites e.rowWrites) he.maxRowWrites
  rowWrites := by
    change 0 < 2 ^ 64
    decide
  tables := he.tables

lemma charge (he : e.Fits) (h : e.charge n = .ok e') : e'.Fits := by
  rw [CapabilityEnvelope.charge] at h
  split_ifs at h with hn
  · simp [refuse] at h
  · obtain rfl : { e with rowWrites := e.rowWrites + n } = e' := by simpa using h
    have hmax := he.maxRowWrites
    have hrow := he.rowWrites
    simp only [remaining] at hn
    exact ⟨hmax, by change e.rowWrites + n < 2 ^ 64; omega, he.tables⟩

end CapabilityEnvelope.Fits

namespace BranchRecord

variable {r r' : BranchRecord}

lemma below_lt (depth : ℕ) : below depth < 2 ^ 32 := by
  unfold below
  omega

lemma mem_insertEpoch {e : ℕ} {es : List ℕ} : e ∈ insertEpoch epoch es ↔ e = epoch ∨ e ∈ es := by
  induction es with
  | nil => simp [insertEpoch]
  | cons x es ih =>
    rw [insertEpoch]
    split_ifs
    · rw [mem_cons, ih, mem_cons]
      exact or_left_comm
    · exact mem_cons

namespace Fits

lemma addLiveChild (hr : r.Fits) (he : epoch < 2 ^ 64) : (r.addLiveChild epoch).Fits :=
  { hr with
    liveChildren := fun e h => by
      rcases mem_insertEpoch.mp h with rfl | h
      · exact he
      · exact hr.liveChildren e h }

lemma removeLiveChild (hr : r.Fits) (epoch : ℕ) : (r.removeLiveChild epoch).2.Fits := by
  rw [BranchRecord.removeLiveChild]
  split_ifs
  · exact { hr with
      liveChildren := fun e h => hr.liveChildren e (eraseIdx_subset h) }
  · exact hr

lemma markReaped (hr : r.Fits) : r.markReaped.Fits :=
  { hr with
    generation := Nat.mod_lt _ (by decide)
    arenas := by simp [BranchRecord.markReaped] }

lemma forkChild (hr : r.Fits) {childId : BranchId} (hid : childId.id < 2 ^ 64)
    (hgen : childId.generation < 2 ^ 32) (he : epoch < 2 ^ 64) (hl : lease < 2 ^ 64)
    (h : r.forkChild childId epoch lease = .ok r') : r'.Fits := by
  rw [BranchRecord.forkChild] at h
  split_ifs at h
  obtain rfl := ok.inj h
  exact {
    id := hid
    birth := hgen
    generation := hgen
    parent := fun p hp => by
      obtain rfl := some.inj hp
      exact ⟨hr.id, hr.birth⟩
    forkEpoch := he
    rootPageId := hr.rootPageId
    leaseDeadline := hl
    arenas := by simp
    liveChildren := by simp
    depth := below_lt _
    envelope := fun e h => by
      obtain ⟨e', he', rfl⟩ := map_eq_some_iff.mp h
      exact (hr.envelope e' he').inherited }

end Fits

lemma childless_addLiveChild (r : BranchRecord) (epoch : ℕ) :
    (r.addLiveChild epoch).childless = r.childless :=
  rfl

lemma branchId_removeLiveChild (r : BranchRecord) (epoch : ℕ) :
    (r.removeLiveChild epoch).2.branchId = r.branchId := by
  rw [removeLiveChild]
  split_ifs <;> rfl

end BranchRecord

/-! ## What an operation appends -/

variable {r : BranchRecord} {stored : TreeMap ℕ BranchRecord} {trunkRoot : ℕ} {c : CatalogCall}
  {rs : List BranchRecord} {events : List LogEvent} {c' : LogBranchCatalog}

namespace LogBranchCatalog

/-- Records stand in their own slots, and numbers have the widths of their types. -/
structure WellFormed (c : LogBranchCatalog) : Prop where
  keyed : ∀ (id : ℕ) (r : BranchRecord), c.records[id]? = some r → r.branchId.id = id
  fits : ∀ (id : ℕ) (r : BranchRecord), c.records[id]? = some r → r.Fits
  free : ∀ id ∈ c.freeIds, id < 2 ^ 64
  epoch : c.epoch < 2 ^ 64
  nextId : c.nextId < 2 ^ 64

/-- The records after an operation are those before it with the appended one in its slot. -/
structure Outcome.Logged (o : Outcome) (before : TreeMap ℕ BranchRecord) : Prop where
  wellFormed : o.catalog.WellFormed
  unchanged : o.appended = none → SameChildless o.catalog.records before
  appended : ∀ r, o.appended = some r →
    r.Fits ∧ SameChildless o.catalog.records (before.insert r.branchId.id r)

variable {c : LogBranchCatalog}

lemma Outcome.logged_same {reply : Except FerroError CatalogReply}
    (hc : c'.WellFormed) (h : c'.records = c.records) :
    Outcome.Logged ⟨reply, c', none⟩ c.records where
  wellFormed := hc
  unchanged _ := by
    rw [h]
    exact .refl _
  appended := by simp

section

variable (hc : c.WellFormed)
include hc

lemma logged_refused (e : FerroError) : (c.refused e).Logged c.records :=
  Outcome.logged_same hc rfl

lemma WellFormed.insert (hr : r.Fits) (hrecords : c'.records = c.records.insert r.branchId.id r)
    (hfree : c'.freeIds = c.freeIds) (hepoch : c'.epoch = c.epoch)
    (hnext : c'.nextId = c.nextId) : c'.WellFormed where
  keyed id r' h := by
    rw [hrecords, TreeMap.getElem?_insert] at h
    split_ifs at h with hid
    · obtain rfl := some.inj h
      simpa using hid
    · exact hc.keyed id r' h
  fits id r' h := by
    rw [hrecords, TreeMap.getElem?_insert] at h
    split_ifs at h
    · obtain rfl := some.inj h
      exact hr
    · exact hc.fits id r' h
  free := hfree ▸ hc.free
  epoch := hepoch ▸ hc.epoch
  nextId := hnext ▸ hc.nextId

lemma WellFormed.install (hr : r.Fits) : (c.install r).WellFormed :=
  hc.insert hr rfl rfl rfl rfl

lemma WellFormed.store (hr : r.Fits) : (c.store r).WellFormed :=
  hc.insert hr rfl rfl rfl rfl

lemma WellFormed.tick : c.tick.WellFormed :=
  { hc with epoch := Nat.mod_lt _ (by decide) }

lemma WellFormed.takeId :
    c.takeId.2.WellFormed ∧ c.takeId.2.records = c.records ∧ c.takeId.2.epoch = c.epoch ∧
      c.takeId.1.id < 2 ^ 64 ∧ c.takeId.1.generation < 2 ^ 32 := by
  rw [LogBranchCatalog.takeId]
  cases h : c.freeIds.getLast? with
  | some id =>
    refine ⟨{ hc with free := fun i hi => hc.free i (dropLast_subset _ hi) }, rfl, rfl,
      hc.free id (mem_of_getLast? h), ?_⟩
    cases hr : c.records[id]? with
    | none => simp [hr]
    | some r => simpa [hr] using (hc.fits id r hr).generation
  | none =>
    exact ⟨{ hc with nextId := Nat.mod_lt _ (by decide) }, rfl, rfl, hc.nextId,
      show 0 < 2 ^ 32 by decide⟩

lemma logged_install (hr : r.Fits) (reply : Except FerroError CatalogReply) :
    Outcome.Logged ⟨reply, c.install r, some r⟩ c.records where
  wellFormed := hc.install hr
  unchanged := by simp
  appended r' h := by
    obtain rfl := some.inj h
    exact ⟨hr, .refl _⟩

lemma logged_store (hr : r.Fits) (reply : Except FerroError CatalogReply) :
    Outcome.Logged ⟨reply, c.store r, some r⟩ c.records where
  wellFormed := hc.store hr
  unchanged := by simp
  appended r' h := by
    obtain rfl := some.inj h
    exact ⟨hr, .refl _⟩

variable (branch : BranchId)

lemma logged_withReadable
    {f : BranchRecord → Except FerroError (Option BranchRecord × CatalogReply)}
    (hf : ∀ r r' reply, r.Fits → f r = .ok (some r', reply) → r'.Fits) :
    (c.withReadable branch f).Logged c.records := by
  unfold withReadable
  cases hr : c.records[branch.id]? with
  | none => exact logged_refused hc _
  | some r =>
    dsimp only
    cases r.checkReadable branch with
    | error e => exact logged_refused hc _
    | ok _ =>
      cases hfr : f r with
      | error e => exact logged_refused hc _
      | ok out =>
        obtain ⟨_ | r', reply⟩ := out
        · exact Outcome.logged_same hc rfl
        · exact logged_install hc (hf r r' reply (hc.fits _ r hr) hfr) _

lemma logged_fork (parent : BranchId) (hl : lease < 2 ^ 64) :
    (c.fork parent lease).Logged c.records := by
  have htick := hc.tick
  unfold fork
  dsimp only
  cases hp : c.tick.records[parent.id]? with
  | none => exact Outcome.logged_same htick rfl
  | some p =>
    dsimp only
    cases p.checkReadable parent with
    | error e => exact Outcome.logged_same htick rfl
    | ok _ =>
      obtain ⟨htake, hrecords, hepoch, hid, hgen⟩ := htick.takeId
      cases hchild : p.forkChild c.tick.takeId.1 c.tick.takeId.2.epoch lease with
      | error e => exact Outcome.logged_same htake hrecords
      | ok child =>
        have hpfits := htick.fits _ p hp
        have hcfits := hpfits.forkChild hid hgen htake.epoch hl hchild
        have hpfits' := hpfits.addLiveChild htake.epoch
        refine ⟨(htake.install hpfits').install hcfits, by simp, fun r h => ?_⟩
        obtain rfl := some.inj h
        refine ⟨hcfits, SameChildless.insert ?_ rfl⟩
        -- The parent changes no more than its children.
        have hslot : c.records[p.branchId.id]? = some p := by
          rw [htick.keyed _ p hp]
          exact hp
        change SameChildless (c.tick.takeId.2.records.insert p.branchId.id _) c.records
        rw [hrecords]
        exact .insert_left hslot (p.childless_addLiveChild _)

lemma logged_reparent {parent : BranchId}
    {root : ℕ} (hid : parent.id < 2 ^ 64) (hgen : parent.generation < 2 ^ 32)
    (he : forkEpoch < 2 ^ 64) (hroot : root < 2 ^ 32) :
    (c.reparent branch parent forkEpoch root).Logged c.records := by
  refine logged_withReadable hc branch fun r r' reply hr h => ?_
  cases hp : c.records[parent.id]? with
  | none => simp [hp] at h
  | some p =>
    simp only [hp] at h
    cases h
    exact { hr with
      parent := fun q hq => by
        obtain rfl := some.inj hq
        exact ⟨hid, hgen⟩
      forkEpoch := he
      rootPageId := hroot
      depth := BranchRecord.below_lt _ }

lemma logged_restrictEnvelope {envelope : CapabilityEnvelope} (he : envelope.Fits) :
    (c.restrictEnvelope branch envelope).Logged c.records := by
  refine logged_withReadable hc branch fun r r' reply hr h => ?_
  have hrestrict : ∀ e, restrict r.envelope envelope = .ok e → e = envelope := by
    intro e h
    unfold restrict at h
    cases henv : r.envelope with
    | none => simpa [henv] using h.symm
    | some cur =>
      simp only [henv] at h
      obtain ⟨-, -, h⟩ := Library.bind_ok.mp h
      exact (ok.inj h).symm
  dsimp only [BranchRecord.restrict] at h
  cases hnext : restrict r.envelope envelope with
  | error e => simp [hnext, Except.map] at h
  | ok e =>
    obtain rfl := hrestrict e hnext
    simp only [hnext] at h
    cases h
    exact { hr with
      envelope := fun e h => by
        obtain rfl := some.inj h
        exact he }

lemma logged_setState (expect dest : BranchState) :
    (c.setState branch expect dest).Logged c.records := by
  unfold setState
  cases hr : c.records[branch.id]? with
  | none => exact logged_refused hc _
  | some r =>
    have hfits := hc.fits _ r hr
    dsimp only
    split_ifs
    · exact logged_refused hc _
    · exact logged_refused hc _
    · exact Outcome.logged_same hc rfl
    · exact logged_install hc hfits.markReaped _
    · have hmoved : ({ r with state := dest } : BranchRecord).Fits := { hfits with }
      exact logged_install hc hmoved _

lemma logged_attachChild (parentId : ℕ)
    (he : forkEpoch < 2 ^ 64) : (c.attachChild parentId forkEpoch).Logged c.records := by
  unfold attachChild
  cases hp : c.records[parentId]? with
  | none => exact logged_refused hc _
  | some p => exact logged_store hc ((hc.fits _ p hp).addLiveChild he) _

lemma logged_detachChild (parentId forkEpoch : ℕ) :
    (c.detachChild parentId forkEpoch).Logged c.records := by
  unfold detachChild
  cases hp : c.records[parentId]? with
  | none => exact Outcome.logged_same hc rfl
  | some p =>
    have hfits := (hc.fits _ p hp).removeLiveChild forkEpoch
    dsimp only
    generalize p.removeLiveChild forkEpoch = out at hfits
    obtain ⟨_ | _, p'⟩ := out
    · exact Outcome.logged_same hc rfl
    · exact logged_store hc hfits _

lemma logged_releaseId (id : ℕ) : (c.releaseId id).Logged c.records := by
  unfold releaseId
  dsimp only
  split_ifs with h
  · exact Outcome.logged_same hc rfl
  · refine Outcome.logged_same { hc with free := fun i hi => ?_ } rfl
    rcases mem_orderedInsert _ |>.mp hi with rfl | hi
    · cases hr : c.records[i]? with
      | none => simp [hr] at h
      | some r =>
        rw [← hc.keyed i r hr]
        exact (hc.fits i r hr).id
    · exact hc.free i hi

lemma logged_addArena {arena : ℕ}
    (ha : arena < 2 ^ 32) : (c.addArena branch arena).Logged c.records := by
  refine logged_withReadable hc branch fun r r' reply hr h => ?_
  split_ifs at h
  · simp at h
  · cases h
    exact { hr with
      arenas := fun a h => by
        rcases mem_append.mp h with h | h
        · exact hr.arenas a h
        · rwa [mem_singleton.mp h] }

lemma logged_chargeRowWrites (n : ℕ) : (c.chargeRowWrites branch n).Logged c.records := by
  refine logged_withReadable hc branch fun r r' reply hr h => ?_
  cases henv : r.envelope with
  | none => simp [henv] at h
  | some e =>
    simp only [henv] at h
    cases hcharge : e.charge n with
    | error e => simp [hcharge] at h
    | ok e' =>
      simp only [hcharge] at h
      cases h
      exact { hr with
        envelope := fun x h => by
          obtain rfl := some.inj h
          exact (hr.envelope e henv).charge hcharge }

/-- Every operation appends the record it changes, if it changes one. -/
lemma logged_apply {op : CatalogOp} (hop : op.Fits) : (c.apply op).Logged c.records := by
  cases op with
  | nextEpoch => exact Outcome.logged_same hc.tick rfl
  | fork parent lease => exact logged_fork hc parent hop
  | reparent branch parent forkEpoch root =>
    obtain ⟨hid, hgen, he, hroot⟩ := hop
    exact logged_reparent hc branch hid hgen he hroot
  | restrictEnvelope branch envelope => exact logged_restrictEnvelope hc branch hop
  | setState branch expect dest => exact logged_setState hc branch expect dest
  | setRoot branch root =>
    rw [apply]
    refine logged_withReadable hc branch fun r r' reply hr h => ?_
    cases h
    exact { hr with rootPageId := hop }
  | releaseId id => exact logged_releaseId hc id
  | attachChild parentId forkEpoch childId => exact logged_attachChild hc parentId hop
  | detachChild parentId forkEpoch => exact logged_detachChild hc parentId forkEpoch
  | addArena branch arena => exact logged_addArena hc branch hop
  | renewLease branch lease =>
    rw [apply]
    refine logged_withReadable hc branch fun r r' reply hr h => ?_
    cases h
    exact { hr with leaseDeadline := hop }
  | chargeRowWrites branch n => exact logged_chargeRowWrites hc branch n

end

/-! ## Rebuilt catalogs -/

/-- Catalogs of which no operation can tell one from the other. -/
structure Same (c d : LogBranchCatalog) : Prop where
  records : c.records.Equiv d.records
  freeIds : c.freeIds = d.freeIds
  live : c.live = d.live
  epoch : c.epoch = d.epoch
  nextId : c.nextId = d.nextId

lemma ofRecords_congr {a b : TreeMap ℕ BranchRecord} (h : SameChildless a b) :
    (ofRecords a).Same (ofRecords b) where
  records := h.derive
  freeIds := by simp only [ofRecords, h.derive.toList_eq]
  live := by simp only [ofRecords, h.derive.toList_eq]
  epoch := by simp only [ofRecords, h.derive.toList_eq]
  nextId := by simp only [ofRecords, h.derive.toList_eq]

lemma mem_derivedChildren {nodes : TreeMap ℕ BranchNode} {id : ℕ}
    (h : epoch ∈ derivedChildren nodes id) :
    ∃ (child : ℕ) (node : BranchNode), nodes[child]? = some node ∧ node.forkEpoch = epoch := by
  unfold derivedChildren at h
  rw [mem_insertionSort, mem_map] at h
  obtain ⟨⟨child, node⟩, hmem, rfl⟩ := h
  exact ⟨child, node,
    TreeMap.mem_toList_iff_getElem?_eq_some.mp (mem_of_mem_filter hmem), rfl⟩

lemma fits_derive (hfits : ∀ (id : ℕ) (r : BranchRecord), stored[id]? = some r → r.Fits) (id : ℕ)
    (r : BranchRecord) (h : (deriveLiveChildren stored)[id]? = some r) : r.Fits := by
  rw [getElem?_deriveLiveChildren, map_eq_some_iff] at h
  obtain ⟨r, hr, rfl⟩ := h
  refine { hfits id r hr with liveChildren := fun e he => ?_ }
  obtain ⟨child, node, hnode, rfl⟩ := mem_derivedChildren he
  rw [nodesOf, TreeMap.getElem?_map, map_eq_some_iff] at hnode
  obtain ⟨r', hr', rfl⟩ := hnode
  exact (hfits child r' hr').forkEpoch

lemma epoch_ofRecords_lt {entries : List (ℕ × BranchRecord)} (h : ∀ p ∈ entries, p.2.Fits) :
    entries.foldl (fun m (p : ℕ × BranchRecord) =>
      max (max m p.2.forkEpoch) (p.2.liveChildren.getLast?.getD 0)) 0 < 2 ^ 64 := by
  refine foldlRecOn (motive := (· < 2 ^ 64)) entries _ (by decide) fun m hm p hp => ?_
  have hlast : p.2.liveChildren.getLast?.getD 0 < 2 ^ 64 := by
    cases hl : p.2.liveChildren.getLast? with
    | none => decide
    | some e => exact (h p hp).liveChildren e (mem_of_getLast? hl)
  exact max_lt (max_lt hm (h p hp).forkEpoch) hlast

lemma wellFormed_ofRecords
    (hkeyed : ∀ (id : ℕ) (r : BranchRecord), stored[id]? = some r → r.branchId.id = id)
    (hfits : ∀ (id : ℕ) (r : BranchRecord), stored[id]? = some r → r.Fits) :
    (ofRecords stored).WellFormed := by
  have hkeyed' (id : ℕ) (r : BranchRecord) (h : (deriveLiveChildren stored)[id]? = some r) :
      r.branchId.id = id := by
    rw [getElem?_deriveLiveChildren, map_eq_some_iff] at h
    obtain ⟨r, hr, rfl⟩ := h
    exact hkeyed id r hr
  have hmem (id : ℕ) (r : BranchRecord) (h : (id, r) ∈ (deriveLiveChildren stored).toList) :
      (deriveLiveChildren stored)[id]? = some r :=
    TreeMap.mem_toList_iff_getElem?_eq_some.mp h
  refine ⟨hkeyed', fits_derive hfits, fun id hid => ?_, ?_, Nat.mod_lt _ (by decide)⟩
  · obtain ⟨⟨id, r⟩, hp, rfl⟩ := mem_map.mp hid
    have hr := hmem id r (mem_of_mem_filter hp)
    rw [← hkeyed' id r hr]
    exact (fits_derive hfits id r hr).id
  · exact epoch_ofRecords_lt fun p hp => fits_derive hfits p.1 p.2 (hmem p.1 p.2 hp)

lemma latest_concat (trunkRoot : ℕ) (rs : List BranchRecord) (r : BranchRecord) :
    latest trunkRoot (rs ++ [r]) = (latest trunkRoot rs).insert r.branchId.id r := by
  rw [latest, foldl_append]
  rfl

lemma fits_trunk (hroot : trunkRoot < 2 ^ 32) :
    (BranchRecord.trunk trunkRoot trunkLease).Fits where
  id := show 0 < 2 ^ 64 by decide
  birth := show 0 < 2 ^ 32 by decide
  generation := show 0 < 2 ^ 32 by decide
  parent := by simp [BranchRecord.trunk]
  forkEpoch := show 0 < 2 ^ 64 by decide
  rootPageId := hroot
  leaseDeadline := show trunkLease < 2 ^ 64 by decide
  arenas := by simp [BranchRecord.trunk]
  liveChildren := by simp [BranchRecord.trunk]
  depth := show 0 < 2 ^ 32 by decide
  envelope := by simp [BranchRecord.trunk]

lemma latest_spec (hroot : trunkRoot < 2 ^ 32)
    (hrs : ∀ r ∈ rs, r.Fits) (id : ℕ) (r : BranchRecord)
    (h : (latest trunkRoot rs)[id]? = some r) : r.branchId.id = id ∧ r.Fits := by
  induction rs using reverseRecOn generalizing id r with
  | nil =>
    rw [latest, foldl_nil, TreeMap.getElem?_insert] at h
    split_ifs at h with hid
    · obtain rfl := some.inj h
      exact ⟨show 0 = id by simpa using hid, fits_trunk hroot⟩
    · simp at h
  | append_singleton rs last ih =>
    rw [latest_concat, TreeMap.getElem?_insert] at h
    split_ifs at h with hid
    · obtain rfl := some.inj h
      exact ⟨by simpa using hid, hrs last (by simp)⟩
    · exact ih (fun r hr => hrs r (mem_append_left _ hr)) id r h

lemma wellFormed_index (hroot : trunkRoot < 2 ^ 32)
    (hrs : ∀ r ∈ rs, r.Fits) : (index trunkRoot rs).WellFormed :=
  wellFormed_ofRecords (fun id r h => (latest_spec hroot hrs id r h).1)
    fun id r h => (latest_spec hroot hrs id r h).2

end LogBranchCatalog

/-! ## The log and the catalog in memory -/

/-- The whole records of a file are the last ones of these records, and what stands behind them
is the front of a record. -/
structure Recorded (trunkRoot : ℕ) (file : List UInt8) (records : TreeMap ℕ BranchRecord)
    (rs : List BranchRecord) (torn : List UInt8) : Prop where
  file : file = rs.flatMap BranchRecord.frame ++ torn
  torn : Torn torn
  fits : ∀ r ∈ rs, r.Fits ∧ r.serialize.length < 2 ^ 32
  same : SameChildless (latest trunkRoot rs) records

namespace Recorded

variable {trunkRoot : ℕ} {file torn : List UInt8} {records records' : TreeMap ℕ BranchRecord}
  {rs : List BranchRecord} {r : BranchRecord}

lemma replay_eq (h : Recorded trunkRoot file records rs torn) : replay file = .ok (rs, torn) := by
  rw [h.file]
  exact replay_frames h.fits h.torn

lemma congr (h : Recorded trunkRoot file records rs torn) (hs : SameChildless records' records) :
    Recorded trunkRoot file records' rs torn :=
  { h with same := h.same.trans hs.symm }

/-- A record that is appended whole. -/
lemma concat (h : Recorded trunkRoot file records rs []) (hr : r.Fits)
    (hsize : r.serialize.length < 2 ^ 32)
    (hs : SameChildless records' (records.insert r.branchId.id r)) :
    Recorded trunkRoot (file ++ r.frame) records' (rs ++ [r]) [] where
  file := by
    rw [h.file]
    simp
  torn := torn_nil
  fits := by
    intro x hx
    rcases mem_append.mp hx with hx | hx
    · exact h.fits x hx
    · obtain rfl := mem_singleton.mp hx
      exact ⟨hr, hsize⟩
  same := by
    rw [latest_concat]
    exact (h.same.insert rfl).trans hs.symm

/-- A record of which less than all is appended. -/
lemma tear (h : Recorded trunkRoot file records rs []) (hsize : r.serialize.length < 2 ^ 32)
    (hn : n < r.frame.length) :
    Recorded trunkRoot (file ++ r.frame.take n) records rs (r.frame.take n) :=
  { h with
    file := by
      rw [h.file]
      simp
    torn := BranchRecord.torn_take_frame hsize hn }

/-- Opening a log rebuilds the catalog from the records in memory. -/
lemma openLog_eq (h : Recorded trunkRoot file records rs torn) (hroot : trunkRoot < 2 ^ 32) :
    ∃ c, openLog trunkRoot file = .ok c ∧ c.WellFormed ∧
      c.Same (.ofRecords records) ∧ SameChildless c.records records := by
  refine ⟨.index trunkRoot rs, ?_,
    wellFormed_index hroot fun r hr => (h.fits r hr).1,
    ofRecords_congr h.same, (sameChildless_derive _).trans h.same⟩
  rw [openLog, h.replay_eq]
  rfl

end Recorded

namespace LogWorld

variable {trunkRoot : ℕ} {w : LogWorld}

/-- The records as a crash in a call leaves them: with what it changes, if all of it arrived. -/
def survivors (w : LogWorld) (c : CatalogCall) (n : ℕ) : TreeMap ℕ BranchRecord :=
  if n < (w.outcome c).bytes.length then w.catalog.records else (w.outcome c).catalog.records

/-- The file and the catalog agree. -/
structure Kept (trunkRoot : ℕ) (w : LogWorld) : Prop where
  wellFormed : w.catalog.WellFormed
  recorded : ∃ rs torn, Recorded trunkRoot w.file w.catalog.records rs torn

lemma Kept.tornFile (h : w.Kept trunkRoot) (hc : w.Appendable c) (n : ℕ) :
    ∃ rs torn, Recorded trunkRoot (w.tornFile c n) (w.survivors c n) rs torn := by
  obtain ⟨rs, torn, hrec⟩ := h.recorded
  have hlog := logged_apply h.wellFormed c.fits
  rw [LogWorld.tornFile, survivors]
  cases happ : (w.outcome c).appended with
  | none =>
    have hbytes : (w.outcome c).bytes = [] := by
      rw [Outcome.bytes, happ, elim_none]
    rw [hbytes, take_nil, append_nil]
    exact ⟨rs, torn, hrec.congr (hlog.unchanged happ)⟩
  | some r =>
    have hbytes : (w.outcome c).bytes = r.frame := by
      rw [Outcome.bytes, happ, elim_some]
    obtain ⟨⟨rs', hwhole⟩, hsize⟩ := hc r happ
    obtain ⟨hfits, hsame⟩ := hlog.appended r happ
    -- Nothing stands behind the last whole record.
    obtain ⟨rfl, rfl⟩ : rs = rs' ∧ torn = [] := by
      simpa [hrec.replay_eq] using hwhole
    rw [hbytes]
    by_cases hn : n < r.frame.length
    · rw [if_pos hn]
      exact ⟨rs, _, hrec.tear hsize hn⟩
    · rw [if_neg hn, take_of_length_le (not_lt.mp hn)]
      exact ⟨rs ++ [r], [], hrec.concat hfits hsize hsame⟩

lemma Kept.crash (h : w.Kept trunkRoot) (hroot : trunkRoot < 2 ^ 32)
    (hc : w.Appendable c) (n : ℕ) :
    ∃ w', w.step trunkRoot (.crash c n) = .ok w' ∧ w'.Kept trunkRoot ∧
      w'.catalog.Same (.ofRecords (w.survivors c n)) := by
  obtain ⟨rs, torn, hrec⟩ := h.tornFile hc n
  obtain ⟨cat, hopen, hwf, hsame, hchildless⟩ := hrec.openLog_eq hroot
  refine ⟨⟨w.tornFile c n, cat⟩, ?_, ⟨hwf, rs, torn, hrec.congr hchildless⟩, hsame⟩
  simp only [step, hopen]
  rfl

lemma Kept.call (h : w.Kept trunkRoot) (hc : w.Appendable c) :
    ∃ w', w.step trunkRoot (.call c) = .ok w' ∧ w'.Kept trunkRoot := by
  refine ⟨_, rfl, ?_, ?_⟩
  · exact (logged_apply h.wellFormed c.fits).wellFormed
  · have hall := h.tornFile hc (w.outcome c).bytes.length
    rwa [LogWorld.tornFile, survivors, take_length, if_neg (lt_irrefl _)] at hall

lemma Kept.step (h : w.Kept trunkRoot) (hroot : trunkRoot < 2 ^ 32) {e : LogEvent}
    (he : w.Appendable e.made) : ∃ w', w.step trunkRoot e = .ok w' ∧ w'.Kept trunkRoot := by
  cases e with
  | call c => exact h.call he
  | crash c n =>
    obtain ⟨w', hw', hkept, -⟩ := h.crash hroot he n
    exact ⟨w', hw', hkept⟩

lemma kept_start (hroot : trunkRoot < 2 ^ 32) : (start trunkRoot).Kept trunkRoot where
  wellFormed := wellFormed_index hroot (by simp)
  recorded := ⟨[], [], rfl, torn_nil, by simp, (sameChildless_derive _).symm⟩

/-! ## Runs -/

lemma after_concat (trunkRoot : ℕ) (events : List LogEvent) (e : LogEvent) :
    after trunkRoot (events ++ [e]) = after trunkRoot events >>= fun w => w.step trunkRoot e := by
  rw [after, foldlM_append]
  congr
  funext w
  exact foldlM_cons.trans (bind_pure _)

/-- Every call of a run, up to the last, appends at the end of a whole record. -/
def AppendsWhole (trunkRoot : ℕ) (events : List LogEvent) : Prop :=
  ∀ before e, before ++ [e] <+: events →
    ∀ w, after trunkRoot before = .ok w → w.Appendable e.made

lemma appendsWhole_iff : AppendsWhole trunkRoot events ↔ ∀ k, (hk : k < events.length) →
      (after trunkRoot (events.take k)).toOption.all (fun w => w.Appendable events[k].made) := by
  constructor
  · intro h k hk
    have hpre := take_append_getElem hk ▸ take_prefix (k + 1) events
    cases hw : after trunkRoot (events.take k) with
    | error e => rfl
    | ok w => simpa [toOption] using h _ _ hpre w hw
  · rintro h before e ⟨rest, rfl⟩ w hw
    have hk := h before.length (by simp)
    simpa [hw, toOption] using hk

instance (trunkRoot : ℕ) (events : List LogEvent) : Decidable (AppendsWhole trunkRoot events) :=
  decidable_of_iff _ appendsWhole_iff.symm

lemma AppendsWhole.mono {before : List LogEvent} (h : AppendsWhole trunkRoot events)
    (hb : before <+: events) : AppendsWhole trunkRoot before :=
  fun b e hbe => h b e (hbe.trans hb)

lemma kept_after (hroot : trunkRoot < 2 ^ 32) (h : AppendsWhole trunkRoot events) :
    ∃ w, after trunkRoot events = .ok w ∧ w.Kept trunkRoot := by
  induction events using reverseRecOn with
  | nil => exact ⟨_, rfl, kept_start hroot⟩
  | append_singleton events e ih =>
    obtain ⟨w, hw, hkept⟩ := ih (h.mono (prefix_append _ _))
    obtain ⟨w', hw', hkept'⟩ := hkept.step hroot (h events e (prefix_refl _) w hw)
    exact ⟨w', by rw [after_concat, hw]; exact hw', hkept'⟩

/-- The records say the children that are derived from them. -/
def ChildrenDerived (records : TreeMap ℕ BranchRecord) : Prop :=
  ∀ (id : ℕ) (r : BranchRecord), records[id]? = some r →
    r.liveChildren = derivedChildren (nodesOf records) id

lemma ChildrenDerived.derive {records : TreeMap ℕ BranchRecord}
    (h : ChildrenDerived records) (id : ℕ) : (deriveLiveChildren records)[id]? = records[id]? := by
  rw [getElem?_deriveLiveChildren]
  cases hr : records[id]? with
  | none => rfl
  | some r => rw [map_some, ← h id r hr]

/-- In a run that appends nothing behind a record that was cut short, a crash leaves a file that
opens, and the catalog is rebuilt from the very records it held at the crash: every field of every
record is as the last acknowledged operation left it, and so are the children, if they are those
the records name as their parents. -/
theorem open_recovers_acknowledged (trunkRoot : UInt32) (events : List LogEvent) (c : CatalogCall)
    (n : ℕ) (h : AppendsWhole trunkRoot.toNat (events ++ [.crash c n])) :
    ∃ w w', after trunkRoot.toNat events = .ok w ∧
      after trunkRoot.toNat (events ++ [.crash c n]) = .ok w' ∧
      w'.catalog.Same (.ofRecords (w.survivors c n)) ∧
      SameChildless w'.catalog.records (w.survivors c n) ∧
      (ChildrenDerived (w.survivors c n) →
        ∀ id : ℕ, w'.catalog.records[id]? = (w.survivors c n)[id]?) := by
  have hroot : trunkRoot.toNat < 2 ^ 32 := trunkRoot.toNat_lt
  obtain ⟨w, hw, hkept⟩ := kept_after hroot (h.mono (prefix_append _ _))
  obtain ⟨w', hw', -, hsame⟩ := hkept.crash hroot (h events _ (prefix_refl _) w hw) n
  have hlookup (id : ℕ) : w'.catalog.records[id]? = (deriveLiveChildren (w.survivors c n))[id]? :=
    hsame.records.getElem?_eq
  refine ⟨w, w', hw, by rw [after_concat, hw]; exact hw', hsame, fun id => ?_, fun hd id => ?_⟩
  · rw [hlookup]
    exact sameChildless_derive _ id
  · rw [hlookup, hd.derive]

/-- A fork of the trunk, with a lease. -/
def forkTrunk (lease : UInt64) : CatalogCall := ⟨.fork .trunk lease.toNat, lease.toNat_lt⟩

theorem open_recovers_acknowledged_fork :
    AppendsWhole (0 : UInt32).toNat [.call (forkTrunk 5), .crash (forkTrunk 6) 10] ∧
    ∃ w w', after (0 : UInt32).toNat [.call (forkTrunk 5)] = .ok w ∧
      after (0 : UInt32).toNat [.call (forkTrunk 5), .crash (forkTrunk 6) 10] = .ok w' ∧
      SameChildless w'.catalog.records (w.survivors (forkTrunk 6) 10) := by
  have hwhole : AppendsWhole (0 : UInt32).toNat
      ([.call (forkTrunk 5)] ++ [.crash (forkTrunk 6) 10]) := by decide +kernel
  obtain ⟨w, w', hw, hw', -, hchildless, -⟩ :=
    open_recovers_acknowledged 0 [.call (forkTrunk 5)] (forkTrunk 6) 10 hwhole
  exact ⟨hwhole, w, w', hw, hw', hchildless⟩

/-- A crash after one byte of a record, a fork that is acknowledged, and the catalog cannot be
opened any more: the byte that was left is taken for the first one of the next length. -/
theorem open_fails_behind_torn_record :
    let events := [.crash (forkTrunk 5) 1, .call (forkTrunk 5), .crash (forkTrunk 5) 0]
    ((after 0 (events.take 1)).map fun w => (w.outcome (forkTrunk 5)).reply.toOption.isSome) =
      .ok true ∧
    ((after 0 events).map fun _ => ()) =
      .error (BranchError.corrupt "record shorter than its checksum").toError := by
  decide +kernel

end LogWorld

end FerroDb.Branch
