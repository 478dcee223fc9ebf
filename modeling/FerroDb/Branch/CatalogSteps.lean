import FerroDb.Branch.CatalogSim

/-!
# The operations of the two catalogs

Each operation of the catalog in memory is followed by the one of the catalog in a tree, if the
call is one that both of them understand alike.
-/

namespace FerroDb.Branch

open Library TableBranchCatalog Function Option Std Prod

/-! ## Changing a slot -/

namespace TableBranchCatalog

variable {t : TableBranchCatalog} {r : BranchRecord} {write : EnvelopeWrite}

/-- The catalog after a record was written. -/
def written (t : TableBranchCatalog) (r : BranchRecord) (write : EnvelopeWrite) :
    TableBranchCatalog :=
  ((t.putRecord r).writeEnvelope r.branchId.id write).writeArenas r.branchId.id r.arenas

lemma written_states : (t.written r write).states = (t.putRecord r).states := by
  cases write <;> rfl

lemma written_children : (t.written r write).children = t.children := by
  cases write <;> rfl

lemma written_freeIds : (t.written r write).freeIds = t.freeIds := by
  cases write <;> rfl

lemma written_epoch : (t.written r write).epoch = t.epoch := by
  cases write <;> rfl

lemma written_nextId : (t.written r write).nextId = t.nextId := by
  cases write <;> rfl

lemma writeRecord_ok (h : t.envelopeWrite r = .ok write) (old : Option CoreRecord) :
    t.writeRecord r old = .ok ((old.elim t t.unindex).written r write) := by
  rw [writeRecord, h]
  rfl

/-- How an envelope is written, and that it is there afterwards. -/
lemma envelopeWrite_ok (t : TableBranchCatalog)
    (h : ∀ e, r.envelope = some e → admitEnvelope e = .ok ()) :
    ∃ write, t.envelopeWrite r = .ok write ∧
      ((t.writeEnvelope r.branchId.id write).envelopes)[r.branchId.id]? = r.envelope := by
  unfold envelopeWrite
  cases he : r.envelope with
  | none => exact ⟨.remove, rfl, by simp [writeEnvelope]⟩
  | some e =>
    dsimp only
    split_ifs with hstored
    · exact ⟨.unchanged, rfl, hstored⟩
    · rw [h e he]
      exact ⟨.put e, rfl, by simp [writeEnvelope, putEnvelope]⟩

end TableBranchCatalog

namespace LogBranchCatalog

variable {c : LogBranchCatalog} {r x : BranchRecord}

lemma getElem?_install (i : ℕ) :
    (c.install r).records[i]? = if i = r.branchId.id then some r else c.records[i]? :=
  getElem?_insert_if

lemma getElem?_store (i : ℕ) :
    (c.store r).records[i]? = if i = r.branchId.id then some r else c.records[i]? :=
  getElem?_insert_if

lemma live_install (hx : c.records[r.branchId.id]? = some x) : (c.install r).live =
      if x.state ≠ .live ∧ r.state = .live then c.live + 1
      else if x.state = .live ∧ r.state ≠ .live then c.live - 1
      else c.live := by
  simp [install, hx, isLive]

lemma live_install_of_state (hx : c.records[r.branchId.id]? = some x)
    (hs : r.state = x.state) : (c.install r).live = c.live := by
  rw [live_install hx, hs]
  split_ifs with h₁ h₂
  · exact absurd h₁.2 h₁.1
  · exact absurd h₂.1 h₂.2
  · rfl

lemma live_install_congr {d : LogBranchCatalog}
    (hr : c.records[r.branchId.id]? = d.records[r.branchId.id]?) (hl : c.live = d.live) :
    (c.install r).live = (d.install r).live := by
  unfold install
  simp [hr, hl]

end LogBranchCatalog

variable {id arena : ℕ}

namespace Sim

open LogBranchCatalog

variable {c : LogBranchCatalog} {t : TableBranchCatalog} {reused : List ℕ} {r x : BranchRecord}

section

variable (h : Sim c t reused)
include h

section

variable (hx : c.records[r.branchId.id]? = some x)
include hx

lemma indexes_unindex : (∀ s, r.branchId.id ∈ (t.unindex (.narrow x)).states s →
      s = .reaped ∧ r.branchId.id ∈ reused) ∧
    ∀ millis, (⟨millis, r.branchId.id⟩ : DeadlineKey) ∉ (t.unindex (.narrow x)).deadlines := by
  have hslot := h.slot hx
  have hid := hslot.keyed x rfl
  constructor
  · intro s hs
    obtain ⟨hs, hne⟩ := mem_states_unindex.mp hs
    by_contra hcon
    have hexact : s ≠ .reaped ∨ r.branchId.id ∉ reused := by tauto
    obtain ⟨y, hy, rfl⟩ := (hslot.states s hexact).mp hs
    obtain rfl := some.inj hy
    exact hne ⟨rfl, hid.symm⟩
  · intro m hm
    obtain ⟨hm, hne⟩ := mem_deadlines_unindex.mp hm
    obtain ⟨y, hy, hin, hl⟩ := (hslot.deadlines m).mp hm
    obtain rfl := some.inj hy
    exact hne ⟨hin, by rw [← hl, ← hid]; rfl⟩

lemma size_rewrite :
    (c.install r).live = (((t.unindex (.narrow x)).putRecord r).states .live).size := by
  have hslot := h.slot hx
  have hid := hslot.keyed x rfl
  have hmem := hslot.mem_live
  have hpos : r.branchId.id ∈ t.states .live → 0 < (t.states .live).size := fun hin => by
    rw [← TreeSet.length_toList]
    exact List.length_pos_of_mem (TreeSet.mem_toList.mpr hin)
  have hgone : r.branchId.id ∈ (t.unindex (.narrow x)).states .live ↔ False := by
    rw [mem_states_unindex, hmem]
    exact iff_false_intro fun hin => hin.2 ⟨hin.1.symm, hid.symm⟩
  have hstored : (CoreRecord.narrow x).branchId.id ∈ t.states .live ↔ x.state = .live := by
    rw [show (CoreRecord.narrow x).branchId.id = r.branchId.id from hid, hmem]
  have hstate : (CoreRecord.narrow x).state = x.state := rfl
  rw [live_install hx, h.live, size_states_putRecord, size_states_unindex]
  simp only [hgone, hstored, hstate]
  by_cases hxl : x.state = .live
  · have := hpos (hmem.mpr hxl)
    by_cases hrl : r.state = .live <;> simp [hxl, hrl]
    omega
  · by_cases hrl : r.state = .live <;> simp [hxl]

omit hx in
lemma known_install {p : ℕ} {y : ChildEntry} (hy : y ∈ t.children p) :
    ∃ z, (c.install r).records[y.2]? = some z := by
  obtain ⟨z, hz⟩ := h.known p y hy
  rw [getElem?_install]
  split_ifs
  · exact ⟨r, rfl⟩
  · exact ⟨z, hz⟩

/-- A record in the place of an earlier one of its slot. -/
lemma rewrite (hchildren : r.liveChildren = x.liveChildren) (harenas : r.arenas.Pairwise (· < ·))
    (henvelope : r.envelope = x.envelope) :
    ∃ t', t.writeRecord r (some (.narrow x)) = .ok t' ∧ Sim (c.install r) t' reused := by
  have hslot := h.slot hx
  have hid := hslot.keyed x rfl
  have hadmitted : ∀ e, r.envelope = some e → admitEnvelope e = .ok () := fun e he =>
    hslot.admitted e (hslot.envelope.trans (henvelope.symm.trans he))
  obtain ⟨write, hwrite, hafter⟩ := envelopeWrite_ok t hadmitted
  obtain ⟨hstates, hdeadlines⟩ := h.indexes_unindex hx
  have hslot' : Slot (some r) ((t.unindex (.narrow x)).written r write) r.branchId.id
      (r.branchId.id ∈ reused) :=
    slot_written hstates hdeadlines (hslot.children.trans hchildren.symm)
      (hchildren ▸ hslot.sorted x rfl) harenas
      (by rw [← hafter]; cases write <;> rfl) hadmitted
  refine ⟨_, writeRecord_ok hwrite _, h.change getElem?_install hslot' (fun i hi => ?_)
    (fun y hy => ?_) (h.below _ x hx) le_rfl (fun i => ?_) h.freeSorted ?_ ?_ ?_⟩
  · exact (Untouched.unindex (by rw [show (CoreRecord.narrow x).branchId.id = _ from hid]; exact hi)
      ).trans (untouched_written hi)
  · exact h.known_install (written_children ▸ hy)
  · rw [written_freeIds]
    exact h.free i
  · rw [written_states]
    exact h.size_rewrite hx
  · exact written_epoch.trans h.epoch
  · exact written_nextId.trans h.nextId

end

omit h in
lemma mono {reused' : List ℕ} (h : Sim c t reused) (hsub : reused ⊆ reused') : Sim c t reused' :=
  { h with slots := fun id => (h.slots id).mono fun hid => hsub hid }

/-- The record of a slot that is not used, or was reaped and is released. -/
lemma indexes_unused
    (hunused : ∀ y, c.records[id]? = some y → y.state = .reaped ∧ id ∈ reused) :
    (∀ s, id ∈ t.states s → s = .reaped ∧ id ∈ reused) ∧
    ∀ millis, (⟨millis, id⟩ : DeadlineKey) ∉ t.deadlines := by
  constructor
  · intro s hs
    by_contra hcon
    have hexact : s ≠ .reaped ∨ id ∉ reused := by tauto
    obtain ⟨y, hy, rfl⟩ := ((h.slots id).states s hexact).mp hs
    exact hcon (hunused y hy)
  · intro m hm
    obtain ⟨y, hy, hin, -⟩ := ((h.slots id).deadlines m).mp hm
    simp [inDeadlineIndex, (hunused y hy).1] at hin

lemma children_unused
    (hempty : ∀ y, c.records[id]? = some y → y.liveChildren = []) : t.children id = [] := by
  have hmap := (h.slots id).children
  cases hy : c.records[id]? with
  | none => simpa [hy] using hmap
  | some y => simpa [hy, hempty y hy] using hmap

section

variable (hunused : ∀ y, c.records[r.branchId.id]? = some y →
    y.state = .reaped ∧ r.branchId.id ∈ reused)
  (hempty : ∀ y, c.records[r.branchId.id]? = some y → y.liveChildren = [])
  (hlive : r.state = .live) (hbelow : r.branchId.id < c.nextId)
include hunused hempty hlive hbelow

/-- A live record in a slot that was not in use. -/
lemma occupy {t' : TableBranchCatalog}
    (hslot : Slot (some r) t' r.branchId.id (r.branchId.id ∈ reused))
    (hother : ∀ i, i ≠ r.branchId.id → Untouched t t' i)
    (hstates : t'.states = (t.putRecord r).states) (hchildren : t'.children = t.children)
    (hfree : t'.freeIds = t.freeIds) (hepoch : t'.epoch = t.epoch)
    (hnextId : t'.nextId = t.nextId) : Sim (c.install r) t' reused := by
  refine h.change getElem?_install hslot hother (fun y hy => ?_) hbelow le_rfl (fun i => ?_)
    h.freeSorted ?_ (hepoch.trans h.epoch) (hnextId.trans h.nextId)
  · rw [hchildren, h.children_unused hempty] at hy
    simp at hy
  · rw [hfree]
    exact h.free i
  · have hnotLive : r.branchId.id ∉ t.states .live := fun hin =>
      absurd ((h.indexes_unused hunused).1 _ hin).1 (by decide)
    have hwas : (c.records[r.branchId.id]?).any isLive = false := by
      cases hy : c.records[r.branchId.id]? with
      | none => rfl
      | some y => simp [isLive, (hunused y hy).1]
    rw [hstates, size_states_putRecord, if_pos ⟨hlive, hnotLive⟩, ← h.live]
    simp [install, hwas, isLive, hlive]

lemma occupy_released (harenas : r.arenas = []) (hchildren : r.liveChildren = [])
    (hadmitted : ∀ e, r.envelope = some e → admitEnvelope e = .ok ()) :
    ∃ t', t.writeRecord r none = .ok t' ∧ Sim (c.install r) t' reused ∧ t'.epoch = t.epoch := by
  obtain ⟨write, hwrite, hafter⟩ := envelopeWrite_ok t hadmitted
  obtain ⟨hstates, hdeadlines⟩ := h.indexes_unused hunused
  have hslot :=
    slot_written hstates hdeadlines (by rw [h.children_unused hempty, hchildren, List.map_nil])
      (by simp [hchildren]) (by simp [harenas]) hafter hadmitted
  exact ⟨_, writeRecord_ok hwrite none, h.occupy hunused hempty hlive hbelow hslot
    (fun i hi => untouched_written hi) written_states written_children written_freeIds
    written_epoch written_nextId, written_epoch⟩

end

lemma occupy_new (hnew : c.records[r.branchId.id]? = none)
    (hlive : r.state = .live) (hbelow : r.branchId.id < c.nextId) (harenas : r.arenas = [])
    (hchildren : r.liveChildren = [])
    (hadmitted : ∀ e, r.envelope = some e → admitEnvelope e = .ok ()) :
    ∃ t', t.writeRecordNew r = .ok t' ∧ Sim (c.install r) t' reused ∧ t'.epoch = t.epoch := by
  have hunused : ∀ y, c.records[r.branchId.id]? = some y →
      y.state = .reaped ∧ r.branchId.id ∈ reused := by simp [hnew]
  have hempty : ∀ y, c.records[r.branchId.id]? = some y → y.liveChildren = [] := by simp [hnew]
  obtain ⟨hstates, hdeadlines⟩ := h.indexes_unused hunused
  have hnone : t.envelopes[r.branchId.id]? = none := by
    rw [(h.slots r.branchId.id).envelope, hnew]
    rfl
  have hnoArenas : ∀ a, a ∉ t.arenas r.branchId.id := fun a ha => by
    obtain ⟨y, hy, -⟩ := ((h.slots r.branchId.id).arenas a).mp ha
    simp [hnew] at hy
  obtain ⟨write, hwrite, hafter⟩ : ∃ write : EnvelopeWrite,
      t.writeRecordNew r = .ok ((t.putRecord r).writeEnvelope r.branchId.id write) ∧
      ((t.writeEnvelope r.branchId.id write).envelopes)[r.branchId.id]? = r.envelope := by
    unfold writeRecordNew
    cases he : r.envelope with
    | none => exact ⟨.unchanged, rfl, hnone⟩
    | some e =>
      dsimp only
      rw [hadmitted e he]
      exact ⟨.put e, rfl, by simp [writeEnvelope, putEnvelope]⟩
  have hslot :=
    slot_written hstates hdeadlines (by rw [h.children_unused hempty, hchildren, List.map_nil])
      (by simp [hchildren]) (by simp [harenas]) hafter hadmitted
  -- No arenas were there, so leaving them alone is making them those of the record.
  have hsame : Untouched (t.written r write) ((t.putRecord r).writeEnvelope r.branchId.id write)
      r.branchId.id :=
    { Untouched.refl _ _ with
      arenas := fun a => by
        rw [written, mem_arenas_writeArenas, harenas]
        refine iff_of_false (fun ha => hnoArenas a ?_) (by simp)
        cases write <;> exact ha }
  refine ⟨_, hwrite, h.occupy hunused hempty hlive hbelow (hslot.congr hsame)
    (fun i hi => (Untouched.putRecord hi).trans (.writeEnvelope hi)) ?_ ?_ ?_ ?_ ?_, ?_⟩ <;>
    cases write <;> rfl

/-- Other counters and released slots, and nothing else. -/
lemma recount {ids : List ℕ} {released : TreeSet ℕ} {e e' n n' : ℕ}
    (hfree : ∀ i, i ∈ released ↔ i ∈ ids) (hfreeSorted : ids.Pairwise (· < ·)) (hepoch : e' = e)
    (hnextId : n' = n) (hle : c.nextId ≤ n) : Sim { c with freeIds := ids, epoch := e, nextId := n }
      { t with freeIds := released, epoch := e', nextId := n' } reused where
  slots i := (h.slots i).congr { Untouched.refl t i with }
  known := h.known
  free := hfree
  freeSorted := hfreeSorted
  live := h.live
  epoch := hepoch
  nextId := hnextId
  below i r hr := (h.below i r hr).trans_le hle

/-! ## Changing one family -/

section

variable (hx : c.records[x.branchId.id]? = some x)
include hx

/-- An envelope that was narrowed or charged. -/
lemma setEnvelope {e : CapabilityEnvelope} (he : admitEnvelope e = .ok ()) :
    Sim (c.install { x with envelope := some e }) (t.putEnvelope x.branchId.id e) reused := by
  have hslot := h.slot hx
  have hput : (t.putEnvelope x.branchId.id e).envelopes[x.branchId.id]? = some e := by
    simp [putEnvelope]
  have hlive : (c.install { x with envelope := some e }).live = c.live :=
    live_install_of_state hx rfl
  refine h.change getElem?_install ?_ (fun i hi => .putEnvelope hi)
    (fun y hy => h.known_install hy) (h.below _ x hx) le_rfl h.free h.freeSorted
    (hlive.trans h.live) h.epoch h.nextId
  refine hslot.recore rfl rfl rfl rfl (fun a => (hslot.arenas a).trans (by simp))
    (hslot.arenasSorted x rfl) hput (fun e' he' => ?_) hslot.children (hslot.sorted x rfl)
  rwa [← some.inj he']

/-- An arena above all that the branch has. -/
lemma pushArena (harena : ∀ a ∈ x.arenas, a < arena) :
    Sim (c.install { x with arenas := x.arenas ++ [arena] }) (t.putArena x.branchId.id arena)
      reused := by
  have hslot := h.slot hx
  have hlive : (c.install { x with arenas := x.arenas ++ [arena] }).live = c.live :=
    live_install_of_state hx rfl
  refine h.change getElem?_install ?_ (fun i hi => .putArena hi)
    (fun y hy => h.known_install hy) (h.below _ x hx) le_rfl h.free h.freeSorted
    (hlive.trans h.live) h.epoch h.nextId
  refine hslot.recore rfl rfl rfl rfl (fun a => ?_) ?_ hslot.envelope
    (fun e he => hslot.admitted e (hslot.envelope.trans he)) hslot.children (hslot.sorted x rfl)
  · simp only [putArena, update_self, mem_insert_iff, hslot.arenas, some.injEq,
      exists_eq_left', List.mem_append, List.mem_singleton]
    exact or_comm
  · refine List.pairwise_append.mpr ⟨hslot.arenasSorted x rfl, List.pairwise_singleton _ _,
      fun a ha b hb => ?_⟩
    rw [List.mem_singleton.mp hb]
    exact harena a ha

/-- An arena that the branch has already. -/
lemma sameArena
    (harena : arena ∈ x.arenas) : Sim c (t.putArena x.branchId.id arena) reused := by
  refine { h with slots := fun i => ?_ }
  by_cases hi : i = x.branchId.id
  · subst hi
    refine (h.slots _).congr { Untouched.refl _ _ with arenas := fun a => ?_ }
    have hin := (h.slots _).arenas arena |>.mpr ⟨x, hx, harena⟩
    simp only [putArena, update_self, mem_insert_iff, or_iff_right_iff_imp]
    rintro rfl
    exact hin
  · exact (h.slots i).congr (.putArena hi)

/-- Other children, each of which has a record. -/
lemma setChildren
    {epochs : List ℕ} {entries : List ChildEntry} (hmap : entries.map fst = epochs)
    (hsorted : epochs.Pairwise (· ≤ ·)) (hknown : ∀ y ∈ entries, ∃ z, c.records[y.2]? = some z) :
    Sim (c.store { x with liveChildren := epochs })
      { t with children := update t.children x.branchId.id entries } reused := by
  have hslot := h.slot hx
  have hset : update t.children x.branchId.id entries x.branchId.id = entries :=
    update_self ..
  refine h.change getElem?_store ?_ (fun i hi => .setChildren hi) (fun y hy => ?_)
    (h.below _ x hx) le_rfl h.free h.freeSorted h.live h.epoch h.nextId
  · exact hslot.recore rfl rfl rfl rfl (fun a => (hslot.arenas a).trans (by simp))
      (hslot.arenasSorted x rfl) hslot.envelope
      (fun e he => hslot.admitted e (hslot.envelope.trans he))
      ((congrArg (List.map fst) hset).trans hmap) hsorted
  · obtain ⟨z, hz⟩ := hknown y (hset ▸ hy)
    rw [getElem?_store]
    split_ifs
    · exact ⟨_, rfl⟩
    · exact ⟨z, hz⟩

end

end

end Sim

end FerroDb.Branch
