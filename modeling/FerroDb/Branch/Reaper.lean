import FerroDb.Branch.CatalogChildren

/-!
# Reaping branches

`TwoTierReaper` of `branch/reaper.rs`, as far as it changes the catalog: a branch is marked,
its pages are freed or parked, it is retired, taken out of its parent's list and its slot is
released. What the page store answers is given with the call. A slot comes back to the free ones
as long as branches are reaped after their descendants.

## Main definitions

* `TableBranchCatalog.reap`, `TableBranchCatalog.detachFromParent`: the reaper's walk.
* `BottomUp`: every branch is reaped when it has no live children any more.
* `Orderly`: what such a run keeps. `Lost`: what any other run leaves behind.
-/

namespace FerroDb.Branch

open List hiding mem_insert_iff
open Std (TreeSet)
open Except (ok)
open Function (update)

open Library Option Nat Function BranchRecord

variable {x : BranchRecord} {e p : ℕ} {xs : List ChildEntry} {c : CoreRecord} {ids : List ℕ}

/-- A record in another state. -/
def CoreRecord.moved (r : CoreRecord) (dest : BranchState) : CoreRecord :=
  if dest = .reaped then { r with state := .reaped, generation := (r.generation + 1) % 2 ^ 32 }
  else { r with state := dest }

namespace TableBranchCatalog

/-- Take a branch out of its parent's list, and after it every reaped ancestor that only it kept
there. The loop of the source has no bound; here it is `none` after `steps` rounds. -/
def detachFromParent (fuel : ℕ) :
    ℕ → TableBranchCatalog → CoreRecord → Option (Except FerroError Unit × TableBranchCatalog)
  | 0, _, _ => none
  | steps + 1, t, cur =>
    match t.hasLiveChildren fuel cur.branchId.id with
    | none => none
    | some (.error e) => some (.error e, t)
    | some (.ok true) => some (.ok (), t)
    | some (.ok false) =>
      match cur.parentId with
      | none => some (.ok (), t)
      | some parent =>
        let t := (t.detachChild parent.id cur.forkEpoch).catalog
        match t.core parent.id with
        | some p =>
          if p.state = .reaped then detachFromParent fuel steps t p else some (.ok (), t)
        | none => some (.ok (), t)

/-- The last part of a reap: the branch is retired, taken out of its parent's list and released. -/
def retire (t : TableBranchCatalog) (fuel : ℕ) (rec : CoreRecord) :
    Option (Except FerroError Unit × TableBranchCatalog) :=
  match t.setState rec.branchId .reaping .reaped with
  | ⟨.error e, t⟩ => some (.error e, t)
  | ⟨.ok _, t⟩ =>
    match t.detachFromParent fuel fuel rec with
    | some (.ok _, t) => (t.releaseId fuel rec.branchId.id).map fun o => (.ok (), o.catalog)
    | failed => failed

/-- A reap, with the answer of the page store that frees or parks the pages. -/
def reap (t : TableBranchCatalog) (fuel : ℕ) (branch : BranchId) (store : Except FerroError Unit) :
    Option (Except FerroError Unit × TableBranchCatalog) :=
  match t.core branch.id with
  | none => some (.error (BranchError.notFound ⟨branch.id, 0⟩).toError, t)
  | some rec =>
    if rec.generation ≠ branch.generation then
      some (.error (BranchError.reaped branch rec.generation).toError, t)
    else if rec.state = .reaped then some (.ok (), t)
    else if branch.id = 0 then some (.error (BranchError.notWritable branch).toError, t)
    else
      match t.setState branch rec.state .reaping with
      | ⟨.error e, t⟩ => some (.error e, t)
      | ⟨.ok _, t⟩ =>
        match t.tick.hasLiveChildren fuel rec.branchId.id with
        | none => none
        | some (.error e) => some (.error e, t.tick)
        | some (.ok _) =>
          match store with
          | .error e => some (.error e, t.tick)
          | .ok _ => t.tick.retire fuel rec

end TableBranchCatalog

inductive ReaperEvent where
  | fork (parent : BranchId) (lease : ℕ)
  | reap (branch : BranchId) (store : Except FerroError Unit)

namespace TableBranchCatalog

def event (t : TableBranchCatalog) (fuel : ℕ) : ReaperEvent → Option TableBranchCatalog
  | .fork parent lease => (t.fork fuel parent lease).map Outcome.catalog
  | .reap branch store => (t.reap fuel branch store).map Prod.snd

def events (t : TableBranchCatalog) (fuel : ℕ) (es : List ReaperEvent) :
    Option TableBranchCatalog :=
  es.foldlM (fun t e => t.event fuel e) t

/-! ## Trees without reaped branches inside -/

/-- What is known of a record: retired branches are free and childless. -/
structure Proper (t : TableBranchCatalog) (id : ℕ) (r : CoreRecord) : Prop where
  keyed : r.branchId.id = id
  current : r.state ≠ .reaped → r.generation = r.branchId.generation ∧ r.state ≠ .quarantined
  parented : id ≠ 0 → ∃ parent, r.parentId = some parent ∧ parent.id ≠ id
  epoch : r.forkEpoch ≤ t.epoch
  slot : id < t.nextId
  retired : r.state = .reaped → id ∈ t.freeIds ∧ t.children id = []

/-- Nothing is governed, every slot is taken, and the lists of children say who was forked from
whom and is not retired. -/
structure Orderly (t : TableBranchCatalog) : Prop where
  proper : ∀ id r, t.core id = some r → t.Proper id r
  filled : ∀ id < t.nextId, ∃ r, t.core id = some r
  trunk : 0 ∉ t.freeIds ∧ 0 < t.nextId
  free : ∀ id ∈ t.freeIds, ∃ r, t.core id = some r ∧ r.state = .reaped
  listed : ∀ p x, x ∈ t.children p ↔ ∃ r, t.core x.2 = some r ∧ r.state ≠ .reaped ∧
    r.parentId.map BranchId.id = some p ∧ r.forkEpoch = x.1
  distinct : ∀ p, (t.children p).Pairwise fun x y => x.1 < y.1
  ungoverned : ∀ id : ℕ, t.envelopes[id]? = none

/-- One record is written anew; the lists, the free slots and the counters stay. -/
structure Rewritten (t t' : TableBranchCatalog) (id : ℕ) (r : CoreRecord) : Prop where
  core : ∀ i, t'.core i = if i = id then some r else t.core i
  children : t'.children = t.children
  freeIds : t'.freeIds = t.freeIds
  nextId : t'.nextId = t.nextId
  epoch : t'.epoch = t.epoch
  ungoverned : ∀ i : ℕ, t'.envelopes[i]? = none

variable {t t' : TableBranchCatalog} {fuel : ℕ} {branch : BranchId} {r : CoreRecord}
  {es : List ReaperEvent} {answer : Except FerroError Unit} {id : ℕ} {parent : BranchId}

lemma core_written {write : EnvelopeWrite} (i : ℕ) :
    (t.written x write).core i = if i = x.branchId.id then some (.narrow x) else t.core i := by
  have hrecords : (t.written x write).records = t.records.insert x.branchId.id (.narrow x) := by
    cases write <;> rfl
  rw [core, hrecords]
  exact getElem?_insert_if

lemma rewritten_writeRecord (h : ∀ i : ℕ, t.envelopes[i]? = none)
    (hx : x.envelope = none) (old : Option CoreRecord) :
    ∃ t', t.writeRecord x old = .ok t' ∧ Rewritten t t' x.branchId.id (.narrow x) := by
  have hwrite : t.envelopeWrite x = .ok .remove := by rw [envelopeWrite, hx]
  refine ⟨_, writeRecord_ok hwrite old, ?_⟩
  have hcore (i : ℕ) : (old.elim t t.unindex).core i = t.core i := by cases old <;> rfl
  refine ⟨fun i => by rw [core_written, hcore], ?_, ?_, ?_, ?_, fun i => ?_⟩
  · rw [written_children]
    cases old <;> rfl
  · rw [written_freeIds]
    cases old <;> rfl
  · rw [written_nextId]
    cases old <;> rfl
  · rw [written_epoch]
    cases old <;> rfl
  · have henv : (old.elim t t.unindex).envelopes = t.envelopes := by cases old <;> rfl
    change ((old.elim t t.unindex).envelopes.erase x.branchId.id)[i]? = none
    rw [henv, getElem?_erase_if, h]
    split_ifs <;> rfl

lemma setState_eq (h : Orderly t) (hr : t.core branch.id = some r)
    (hgen : r.generation = branch.generation) (dest : BranchState) :
    ∃ t', t.setState branch r.state dest = ⟨.ok .unit, t'⟩ ∧
      Rewritten t t' branch.id (if r.state = dest then r else r.moved dest) := by
  unfold setState
  simp only [hr, ne_eq, not_true_eq_false, if_false]
  split_ifs with hsame hreaped
  · refine ⟨t, rfl, fun i => ?_, rfl, rfl, rfl, rfl, h.ungoverned⟩
    split_ifs with hi
    · rw [hi, hr]
    · rfl
  · obtain ⟨t', hwrite, hrew⟩ := rewritten_writeRecord h.ungoverned
      (x := (t.hydrate r).markReaped) (h.ungoverned _) (some r)
    refine ⟨t', by rw [hwrite], ?_⟩
    rw [← (h.proper _ r hr).keyed, CoreRecord.moved, if_pos hreaped]
    exact hrew
  · obtain ⟨t', hwrite, hrew⟩ := rewritten_writeRecord h.ungoverned
      (x := { t.hydrate r with state := dest }) (h.ungoverned _) (some r)
    refine ⟨t', by rw [hwrite], ?_⟩
    rw [← (h.proper _ r hr).keyed, CoreRecord.moved, if_neg hreaped]
    exact hrew

lemma Orderly.tick (h : Orderly t) (he : t.epoch + 1 < 2 ^ 64) : Orderly t.tick := by
  have hepoch : t.tick.epoch = t.epoch + 1 := mod_eq_of_lt he
  refine ⟨fun id r hr => ?_, h.filled, h.trunk, h.free, h.listed, h.distinct, h.ungoverned⟩
  have hp := h.proper id r hr
  exact { hp with epoch := by rw [hepoch]; exact hp.epoch.trans (le_succ _) }

/-- A branch moves between states in which it is not retired. -/
lemma Orderly.moved (h : Orderly t) {dest : BranchState} (hr : t.core id = some r)
    (hlive : r.state ≠ .reaped) (hdest : dest ≠ .reaped) (hq : dest ≠ .quarantined)
    (hrew : Rewritten t t' id { r with state := dest }) : Orderly t' := by
  obtain ⟨hcore, hchildren, hfree, hnext, hepoch, hung⟩ := hrew
  have hp := h.proper id r hr
  refine ⟨fun i x hx => ?_, fun i hi => ?_, ?_, fun i hi => ?_, fun p x => ?_, ?_, hung⟩
  · rw [hcore] at hx
    split_ifs at hx with hi
    · obtain rfl := some.inj hx
      exact ⟨by rw [hi, ← hp.keyed], fun _ => ⟨(hp.current hlive).1, hq⟩,
        by rw [hi]; exact hp.parented, hepoch ▸ hp.epoch, hi ▸ hnext ▸ hp.slot,
        fun hs => absurd hs hdest⟩
    · have hx' := h.proper i x hx
      exact ⟨hx'.keyed, hx'.current, hx'.parented, hepoch ▸ hx'.epoch, hnext ▸ hx'.slot,
        hfree ▸ hchildren ▸ hx'.retired⟩
  · rw [hcore]
    split_ifs
    · exact ⟨_, rfl⟩
    · exact h.filled i (hnext ▸ hi)
  · rw [hfree, hnext]
    exact h.trunk
  · obtain ⟨x, hx, hs⟩ := h.free i (hfree ▸ hi)
    have hne : i ≠ id := by
      rintro rfl
      rw [hr] at hx
      exact hlive (some.inj hx ▸ hs)
    exact ⟨x, by rw [hcore, if_neg hne, hx], hs⟩
  · rw [hchildren, h.listed, hcore]
    split_ifs with hx
    · simp [hx, hr, hlive, hdest]
    · rfl
  · rw [hchildren]
    exact h.distinct

/-! ### Retiring a branch -/

lemma mem_removeEntry (h : xs.Pairwise fun x y => x.1 < y.1)
    {x : ChildEntry} : x ∈ (removeEntry e xs).2 ↔ x ∈ xs ∧ x.1 ≠ e := by
  induction xs with
  | nil => simp [removeEntry]
  | cons y ys ih =>
    rw [pairwise_cons] at h
    rw [removeEntry]
    split_ifs with hy
    · grind
    · grind

lemma pairwise_removeEntry (h : xs.Pairwise fun x y => x.1 < y.1) :
    (removeEntry e xs).2.Pairwise fun x y => x.1 < y.1 := by
  induction xs with
  | nil => exact h
  | cons y ys ih =>
    rw [pairwise_cons] at h
    rw [removeEntry]
    split_ifs
    · exact h.2
    · exact pairwise_cons.mpr ⟨fun x hx => h.1 x (mem_of_mem_removeEntry hx), ih h.2⟩

lemma eq_of_epoch (h : xs.Pairwise fun x y => x.1 < y.1)
    {x y : ChildEntry} (hx : x ∈ xs) (hy : y ∈ xs) (he : x.1 = y.1) : x = y := by
  have key : xs.Pairwise fun x y => x.1 = y.1 → x = y := h.imp fun hlt heq => absurd heq hlt.ne
  have hflip : xs.Pairwise (flip fun x y => x.1 = y.1 → x = y) :=
    key.imp fun h he => (h he.symm).symm
  exact key.forall_of_forall_of_flip (fun _ _ _ => rfl) hflip hx hy he

/-- A childless branch is retired and taken out of its parent's list, and its slot is free. -/
lemma Orderly.retired (h : Orderly t) (hr : t.core id = some r)
    (hlive : r.state ≠ .reaped) (hid : id ≠ 0) (hleaf : t.children id = [])
    (hparent : r.parentId = some parent)
    (hcore : ∀ i, t'.core i = if i = id then some (r.moved .reaped) else t.core i)
    (hchildren : t'.children = update t.children parent.id
      (removeEntry r.forkEpoch (t.children parent.id)).2)
    (hfree : t'.freeIds = t.freeIds.insert id) (hnext : t'.nextId = t.nextId)
    (hepoch : t'.epoch = t.epoch) (hung : ∀ i : ℕ, t'.envelopes[i]? = none) : Orderly t' := by
  have hp := h.proper id r hr
  have hentry : (r.forkEpoch, id) ∈ t.children parent.id :=
    (h.listed _ _).mpr ⟨r, hr, hlive, by rw [hparent]; rfl, rfl⟩
  have hof (p : ℕ) (x : ChildEntry) (hx : x ∈ t.children p) (hxid : x.2 = id) :
      p = parent.id ∧ x.1 = r.forkEpoch := by
    obtain ⟨c, hc, -, hcp, hce⟩ := (h.listed p x).mp hx
    rw [hxid, hr] at hc
    obtain rfl := some.inj hc
    rw [hparent] at hcp
    exact ⟨(some.inj hcp).symm, hce.symm⟩
  have hkids (p : ℕ) (x : ChildEntry) : x ∈ t'.children p ↔ x ∈ t.children p ∧ x.2 ≠ id := by
    rw [hchildren, update_apply]
    split_ifs with hpp
    · rw [hpp, mem_removeEntry (h.distinct _)]
      refine and_congr_right fun hx => not_congr ⟨fun he => ?_, fun he => (hof _ x hx he).2⟩
      rw [eq_of_epoch (h.distinct _) hx hentry he]
    · exact (and_iff_left_of_imp fun hx he => hpp (hof p x hx he).1).symm
  refine ⟨fun i x hx => ?_, fun i hi => ?_, ?_, fun i hi => ?_, fun p x => ?_, fun p => ?_, hung⟩
  · rw [hcore] at hx
    split_ifs at hx with hi
    · obtain rfl := some.inj hx
      refine ⟨hi ▸ hp.keyed, fun hs => absurd rfl hs, hi ▸ hp.parented, hepoch ▸ hp.epoch,
        hi ▸ hnext ▸ hp.slot, fun _ => ⟨by rw [hfree, mem_insert_iff]; exact .inl hi, ?_⟩⟩
      exact eq_nil_iff_forall_not_mem.mpr fun y hy => by simp_all
    · have hx' := h.proper i x hx
      refine ⟨hx'.keyed, hx'.current, hx'.parented, hepoch ▸ hx'.epoch, hnext ▸ hx'.slot,
        fun hs => ⟨by rw [hfree, mem_insert_iff]; exact .inr (hx'.retired hs).1, ?_⟩⟩
      have hnil := (hx'.retired hs).2
      exact eq_nil_iff_forall_not_mem.mpr fun y hy => by simp_all
  · rw [hcore]
    split_ifs
    · exact ⟨_, rfl⟩
    · exact h.filled i (hnext ▸ hi)
  · rw [hfree, hnext, mem_insert_iff]
    exact ⟨fun h0 => h0.elim (fun h0 => hid h0.symm) h.trunk.1, h.trunk.2⟩
  · rw [hcore]
    split_ifs with hne
    · exact ⟨_, rfl, rfl⟩
    · rw [hfree, mem_insert_iff] at hi
      exact h.free i (hi.resolve_left hne)
  · rw [hkids, h.listed, hcore]
    split_ifs with hx
    · simp [hx, CoreRecord.moved]
    · exact and_iff_left hx
  · rw [hchildren, update_apply]
    split_ifs
    · exact pairwise_removeEntry (h.distinct _)
    · exact h.distinct p

/-- Whoever has an entry has a live child. -/
lemma hasLiveChildren_eq (h : ∀ x ∈ t.children p, t.Unreaped x.2) (hfuel : 0 < fuel) :
    t.hasLiveChildren fuel p = some (.ok (!(t.children p).isEmpty)) := by
  rcases eq_nil_or_concat (t.children p) with hnil | ⟨xs, x, hx⟩
  · rw [hasLiveChildren_empty hnil hfuel, hnil]
    rfl
  · obtain ⟨fuel, rfl⟩ : ∃ n, fuel = n + 1 := ⟨fuel - 1, by omega⟩
    obtain ⟨r, hr, hs⟩ := h x (by simp [hx])
    simp [hasLiveChildren, searchLive, childrenOf, hx, scanEntries, childLiveness, hr, hs]

lemma Orderly.hasLiveChildren (h : Orderly t) (hfuel : 0 < fuel) (p : ℕ) :
    t.hasLiveChildren fuel p = some (.ok (!(t.children p).isEmpty)) := by
  refine hasLiveChildren_eq (fun x hx => ?_) hfuel
  obtain ⟨c, hc, hs, -⟩ := (h.listed p x).mp hx
  exact ⟨c, hc, hs⟩

/-- A reap marks the branch, and goes on as the page store lets it. -/
lemma reap_eq (h : Orderly t) (hfuel : 0 < fuel) (he : t.epoch + 1 < 2 ^ 64)
    (hr : t.core branch.id = some r) (hgen : r.generation = branch.generation)
    (hlive : r.state ≠ .reaped) (h0 : branch.id ≠ 0) (store : Except FerroError Unit) :
    ∃ t₁, Orderly t₁ ∧ Rewritten t t₁ branch.id { r with state := .reaping } ∧
      t.reap fuel branch store = match store with
        | .error e => some (.error e, t₁.tick)
        | .ok _ => t₁.tick.retire fuel r := by
  obtain ⟨t₁, hset, hrew⟩ := setState_eq h hr hgen .reaping
  have hrec : (if r.state = .reaping then r else r.moved .reaping) =
      { r with state := .reaping } := by
    split_ifs with hs
    · rw [← hs]
    · rfl
  rw [hrec] at hrew
  have h₁ : Orderly t₁ := h.moved hr hlive (by simp) (by simp) hrew
  have htick := h₁.tick (hrew.epoch ▸ he)
  refine ⟨t₁, h₁, hrew, ?_⟩
  simp only [reap, hr, hgen, ne_eq, not_true_eq_false, if_false, hlive, h0, hset,
    htick.hasLiveChildren hfuel]

/-- The rest of a reap of a branch with no children frees the slot. With children it does not. -/
lemma retire_eq (h : Orderly t) (hfuel : 0 < fuel) (hid : id ≠ 0)
    (hr : t.core id = some { r with state := .reaping }) :
    ∃ t', t.retire fuel r = some (.ok (), t') ∧ t'.nextId = t.nextId ∧ t'.epoch = t.epoch ∧
      if t.children id = [] then Orderly t' else
        (∀ i, t'.core i = if i = id then some (r.moved .reaped) else t.core i) ∧
          t'.freeIds = t.freeIds := by
  have hp := h.proper id _ hr
  have hkey : r.branchId.id = id := hp.keyed
  obtain ⟨parent, hparent, hpne⟩ : ∃ parent, r.parentId = some parent ∧ parent.id ≠ id :=
    hp.parented hid
  have hr' : t.core r.branchId.id = some { r with state := .reaping } := hkey ▸ hr
  obtain ⟨t₂, hset, hrew⟩ := setState_eq h hr' (hp.current (by simp)).1 .reaped
  rw [hkey] at hrew
  obtain ⟨hcore, hchildren, hfree, hnext, hepoch, hung⟩ := hrew
  obtain ⟨steps, rfl⟩ : ∃ n, fuel = n + 1 := ⟨fuel - 1, by omega⟩
  have hkids : t₂.hasLiveChildren (steps + 1) id = some (.ok (!(t.children id).isEmpty)) := by
    rw [← hchildren]
    refine hasLiveChildren_eq (fun x hx => ?_) hfuel
    rw [hchildren] at hx
    obtain ⟨c, hc, hs, hcp, -⟩ := (h.listed id x).mp hx
    refine ⟨c, ?_, hs⟩
    rw [hcore, if_neg, hc]
    rintro hxid
    rw [hxid, hr] at hc
    obtain rfl := some.inj hc
    rw [hparent] at hcp
    exact hpne (some.inj hcp)
  have hset' : t.setState r.branchId .reaping .reaped = ⟨.ok .unit, t₂⟩ := hset
  by_cases hleaf : t.children id = []
  · have hup : ∀ p, t₂.core parent.id = some p → p.state ≠ .reaped := by
      intro p hp' hs
      rw [hcore, if_neg hpne] at hp'
      have hnil := ((h.proper _ p hp').retired hs).2
      have : (r.forkEpoch, id) ∈ t.children parent.id :=
        (h.listed _ _).mpr ⟨_, hr, by simp, by rw [hparent]; rfl, rfl⟩
      simp [hnil] at this
    set t₃ := (t₂.detachChild parent.id r.forkEpoch).catalog with ht₃
    have hdetach : t₂.detachFromParent (steps + 1) (steps + 1) r = some (.ok (), t₃) := by
      have hcore₃ : t₃.core parent.id = t₂.core parent.id := rfl
      rw [detachFromParent, hkey, hkids, hleaf]
      simp only [hparent, ← ht₃, hcore₃]
      cases hc : t₂.core parent.id with
      | none => rfl
      | some p => simp [if_neg (hup p hc)]
    have hkids₃ : t₃.children = update t.children parent.id
        (removeEntry r.forkEpoch (t.children parent.id)).2 := by
      rw [ht₃, detachChild, hchildren]
    have hleaf₃ : t₃.children id = [] := by
      rw [hkids₃, update_of_ne hpne.symm, hleaf]
    have hslot : t₃.reusableSlot (steps + 1) id = some (.ok (some (r.moved .reaped))) := by
      have hc : t₃.core id = some (r.moved .reaped) := (hcore id).trans (if_pos rfl)
      have hs : (r.moved .reaped).state = .reaped := rfl
      rw [reusableSlot, hc]
      simp only [hasLiveChildren_empty hleaf₃ hfuel]
      rfl
    refine ⟨{ t₃ with freeIds := t₃.freeIds.insert id }, ?_, hnext, hepoch, ?_⟩
    · rw [retire, hset']
      simp only [hdetach, hkey, releaseId, if_neg hid, hslot]
      rfl
    · rw [if_pos hleaf]
      exact h.retired hr (by simp) hid hleaf hparent hcore hkids₃
        (congrArg (TreeSet.insert · id) hfree) hnext hepoch hung
  · have hlive : t₂.hasLiveChildren (steps + 1) id = some (.ok true) := by
      rw [hkids]
      simp [hleaf]
    have hc : t₂.core id = some (r.moved .reaped) := (hcore id).trans (if_pos rfl)
    have hs : (r.moved .reaped).state = .reaped := rfl
    refine ⟨t₂, ?_, hnext, hepoch, ?_⟩
    · rw [retire, hset']
      simp only [detachFromParent, hkey, hlive, releaseId, if_neg hid, reusableSlot, hc]
      rfl
    · rw [if_neg hleaf]
      exact ⟨hcore, hfree⟩

/-! ### Forking a branch -/

lemma pairwise_insertEntry (h : xs.Pairwise fun x y => x.1 < y.1) (he : ∀ x ∈ xs, x.1 < e) :
    (insertEntry (e, id) xs).Pairwise fun x y => x.1 < y.1 := by
  induction xs with
  | nil => exact pairwise_singleton _ _
  | cons y ys ih =>
    rw [pairwise_cons] at h
    rw [forall_mem_cons] at he
    rw [insertEntry, if_pos he.1]
    refine pairwise_cons.mpr ⟨fun x hx => ?_, ih h.2 he.2⟩
    rcases mem_insertEntry.mp hx with rfl | hx
    · exact he.1
    · exact h.1 x hx

/-- A branch is forked into a free slot, or into one that was never used. -/
lemma Orderly.forked (h : Orderly t) {parent : CoreRecord} {b : BranchId}
    (hfresh : ∀ i x, t.core i = some x → x.forkEpoch < t.epoch)
    (hid : id ∈ t.freeIds ∨ id = t.nextId) (hp : t.core p = some parent)
    (hlive : parent.state ≠ .reaped) (hkey : c.branchId.id = id)
    (hgen : c.generation = c.branchId.generation) (hstate : c.state = .live)
    (hparent : c.parentId = some b) (hb : b.id = p) (hfork : c.forkEpoch = t.epoch)
    (hcore : ∀ i, t'.core i = if i = id then some c else t.core i)
    (hchildren : t'.children =
      update t.children p (insertEntry (t.epoch, id) (t.children p)))
    (hfree : ∀ i, i ∈ t'.freeIds ↔ i ∈ t.freeIds ∧ i ≠ id)
    (hnext : t'.nextId = max t.nextId (id + 1)) (hepoch : t'.epoch = t.epoch)
    (hung : ∀ i : ℕ, t'.envelopes[i]? = none) : Orderly t' := by
  have hdead : ∀ x, t.core id = some x → x.state = .reaped := by
    intro x hx
    rcases hid with hid | rfl
    · obtain ⟨y, hy, hs⟩ := h.free id hid
      rw [hx] at hy
      exact some.inj hy ▸ hs
    · exact absurd (h.proper _ x hx).slot (lt_irrefl _)
  have hpid : p ≠ id := by
    rintro rfl
    exact hlive (hdead parent hp)
  have hkids (q : ℕ) (x : ChildEntry) :
      x ∈ t'.children q ↔ q = p ∧ x = (t.epoch, id) ∨ x ∈ t.children q := by
    rw [hchildren, update_apply]
    split_ifs with hq
    · rw [hq, mem_insertEntry]
      simp
    · simp [hq]
  refine ⟨fun i x hx => ?_, fun i hi => ?_, ?_, fun i hi => ?_, fun q x => ?_, fun q => ?_, hung⟩
  · rw [hcore] at hx
    split_ifs at hx with hi
    · obtain rfl := some.inj hx
      refine ⟨hi ▸ hkey, fun _ => ⟨hgen, by simp [hstate]⟩, fun _ => ⟨b, hparent, ?_⟩, ?_, ?_, ?_⟩
      · rw [hb, hi]
        exact hpid
      · rw [hfork, hepoch]
      · omega
      · simp [hstate]
    · have hx' := h.proper i x hx
      refine ⟨hx'.keyed, hx'.current, hx'.parented, hepoch ▸ hx'.epoch, ?_, fun hs => ?_⟩
      · rw [hnext]
        exact hx'.slot.trans_le (le_max_left _ _)
      · obtain ⟨hin, hnil⟩ := hx'.retired hs
        have hip : i ≠ p := by
          rintro rfl
          rw [hp] at hx
          exact hlive (some.inj hx ▸ hs)
        refine ⟨(hfree i).mpr ⟨hin, hi⟩, ?_⟩
        rw [hchildren, update_of_ne hip, hnil]
  · rw [hcore]
    split_ifs with hii
    · exact ⟨c, rfl⟩
    · rcases hid with hid | rfl
      · obtain ⟨y, hy, -⟩ := h.free id hid
        have := (h.proper id y hy).slot
        exact h.filled i (by omega)
      · exact h.filled i (by omega)
  · rw [hfree]
    exact ⟨fun h0 => h.trunk.1 h0.1, by omega⟩
  · rw [hfree] at hi
    rw [hcore, if_neg hi.2]
    exact h.free i hi.1
  · rw [hkids, h.listed, hcore]
    split_ifs with hx
    · have hno : ¬∃ r, t.core x.2 = some r ∧ r.state ≠ .reaped ∧
          r.parentId.map BranchId.id = some q ∧ r.forkEpoch = x.1 := by
        rintro ⟨y, hy, hs, -⟩
        exact hs (hdead y (hx ▸ hy))
      rw [or_iff_left hno]
      simp only [some.injEq, exists_eq_left', hstate, hparent, map_some, hb, hfork,
        Prod.ext_iff, hx, and_true, ne_eq, reduceCtorEq, not_false_eq_true, true_and,
        eq_comm (b := p), eq_comm (a := t.epoch)]
    · refine or_iff_right ?_
      rintro ⟨-, rfl⟩
      exact hx rfl
  · rw [hchildren, update_apply]
    split_ifs
    · refine pairwise_insertEntry (h.distinct p) fun x hx => ?_
      obtain ⟨y, hy, -, -, he⟩ := (h.listed p x).mp hx
      exact he ▸ hfresh _ y hy
    · exact h.distinct q

/-- The first of the free slots may be taken. -/
lemma Orderly.firstReusable (h : Orderly t) (hfuel : 0 < fuel)
    (hids : ∀ i ∈ ids, i ∈ t.freeIds) : ids = [] ∧ t.firstReusable fuel ids = some (none, []) ∨
      ∃ id r, id ∈ t.freeIds ∧ t.firstReusable fuel ids = some (some (id, r), []) := by
  cases ids with
  | nil => exact .inl ⟨rfl, rfl⟩
  | cons id ids =>
    have hin := hids id mem_cons_self
    obtain ⟨r, hr, hs⟩ := h.free id hin
    have hkids := hasLiveChildren_empty ((h.proper id r hr).retired hs).2 hfuel
    refine .inr ⟨id, r, hin, ?_⟩
    simp [firstReusable, reusableSlot, hr, hs, hkids, Except.map]

lemma rewritten_putRecord (h : ∀ i : ℕ, t.envelopes[i]? = none) :
    Rewritten t (t.putRecord x) x.branchId.id (.narrow x) :=
  ⟨fun _ => getElem?_insert_if, rfl, rfl, rfl, rfl, h⟩

lemma checkReadable_ok (h : c.checkReadable branch = .ok ()) :
    c.state = .live ∨ c.state = .quarantined := by
  unfold CoreRecord.checkReadable checkReadable at h
  split_ifs at h
  cases hs : c.state <;> simp_all [CoreRecord.intoHydrated]

/-- The record of a new branch. -/
def child (c : CoreRecord) (id : BranchId) (epoch lease : ℕ) : BranchRecord where
  branchId := id
  generation := id.generation
  parentId := some c.branchId
  forkEpoch := epoch
  rootPageId := c.rootPageId
  leaseDeadline := lease
  state := .live
  arenas := []
  liveChildren := []
  depth := BranchRecord.below c.depth
  envelope := none

lemma forkChildFromCore_live (h : c.state = .live) (id : BranchId)
    (epoch lease : ℕ) : forkChildFromCore c none id epoch lease = .ok (child c id epoch lease) := by
  simp [forkChildFromCore, forkChild, CoreRecord.intoHydrated, h, child]

section ForkInto

variable {pc : CoreRecord} {parent : BranchId} (h : Orderly t)
  (hfresh : ∀ i x, t.core i = some x → x.forkEpoch < t.epoch)
  (hp : t.core parent.id = some pc) (hlive : pc.state = .live)
include h hfresh hp hlive

/-- A branch in a slot that was never used. -/
lemma Orderly.forkInto_new (hn : t.nextId + 1 < 2 ^ 64) (lease : ℕ) :
    ∃ o, t.forkInto parent lease pc none [] = o ∧ Orderly o.catalog ∧
      o.catalog.epoch = t.epoch ∧ o.catalog.nextId = t.nextId + 1 ∧
      o.catalog.freeIds = t.freeIds := by
  set base : TableBranchCatalog := { t with nextId := t.nextId + 1 } with hbase
  set c := child pc ⟨t.nextId, 0⟩ t.epoch lease with hc
  have hnone : t.envelopes[parent.id]? = none := h.ungoverned _
  have hrew : Rewritten base (base.putRecord c) t.nextId (.narrow c) :=
    rewritten_putRecord h.ungoverned
  have hnotFree : t.nextId ∉ t.freeIds := by
    intro hin
    obtain ⟨x, hx, -⟩ := h.free _ hin
    exact absurd (h.proper _ x hx).slot (lt_irrefl _)
  refine ⟨⟨.ok (.record c), (base.putRecord c).insertChild parent.id (t.epoch, t.nextId)⟩,
    ?_, ?_, rfl, rfl, rfl⟩
  · simp only [forkInto, takeId, hnone, forkChildFromCore_live hlive, mod_eq_of_lt hn]
    rfl
  · refine h.forked (c := .narrow c) hfresh (.inr rfl) hp (by simp [hlive]) rfl rfl rfl rfl
      (h.proper _ pc hp).keyed rfl hrew.core rfl (fun i => ?_) ?_ rfl h.ungoverned
    · exact (and_iff_left_of_imp fun hi (heq : i = t.nextId) => hnotFree (heq ▸ hi)).symm
    · exact (max_eq_right (le_succ _)).symm

/-- A branch in a slot that is free. -/
lemma Orderly.forkInto_free (hid : id ∈ t.freeIds) (lease : ℕ) :
    ∃ o, t.forkInto parent lease pc (some (id, r)) [] = o ∧ Orderly o.catalog ∧
      o.catalog.epoch = t.epoch ∧ o.catalog.nextId = t.nextId := by
  set c := child pc ⟨id, r.generation⟩ t.epoch lease with hc
  have hnone : t.envelopes[parent.id]? = none := h.ungoverned _
  obtain ⟨t', hwrite, hrew⟩ := rewritten_writeRecord (t := t.forgetFree [id]) (x := c)
    h.ungoverned rfl none
  have hslot : id < t.nextId := by
    obtain ⟨x, hx, -⟩ := h.free _ hid
    exact (h.proper _ x hx).slot
  refine ⟨⟨.ok (.record c), t'.insertChild parent.id (t'.epoch, id)⟩, ?_, ?_, hrew.epoch,
    hrew.nextId⟩
  · simp only [forkInto, takeId, hnone, forkChildFromCore_live hlive, isSome_some, if_true,
      forgetFree_nil, ← hc, hwrite]
  · refine h.forked (c := .narrow c) hfresh (.inl hid) hp (by simp [hlive]) rfl rfl rfl rfl
      (h.proper _ pc hp).keyed rfl hrew.core ?_ (fun i => ?_) ?_ hrew.epoch hrew.ungoverned
    · change update t'.children parent.id
        (insertEntry (t'.epoch, id) (t'.children parent.id)) = _
      rw [hrew.children, hrew.epoch]
      rfl
    · change i ∈ t'.freeIds ↔ _
      rw [hrew.freeIds]
      exact mem_erase_iff
    · change t'.nextId = _
      rw [hrew.nextId]
      exact (max_eq_left hslot).symm

end ForkInto

/-- A fork keeps the tree in order. It takes a slot that was never used only if no slot is
retired. -/
lemma Orderly.fork (h : Orderly t) (hfuel : 0 < fuel) (hn : t.nextId + 1 < 2 ^ 64)
    (he : t.epoch + 1 < 2 ^ 64) (parent : BranchId) (lease : ℕ) :
    ∃ o, t.fork fuel parent lease = some o ∧ Orderly o.catalog ∧
      o.catalog.epoch = t.epoch + 1 ∧ (o.catalog.nextId = t.nextId ∨
        o.catalog.nextId = t.nextId + 1 ∧ ∀ id < o.catalog.nextId, o.catalog.Unreaped id) := by
  have hu := h.tick he
  have hepoch : t.tick.epoch = t.epoch + 1 := mod_eq_of_lt he
  have hfresh (i : ℕ) (x : CoreRecord) (hx : t.tick.core i = some x) :
      x.forkEpoch < t.tick.epoch := by
    have := (h.proper i x hx).epoch
    omega
  rw [TableBranchCatalog.fork]
  cases hp : t.tick.core parent.id with
  | none => exact ⟨t.tick.refused _, rfl, hu, hepoch, .inl rfl⟩
  | some pc =>
    cases hread : pc.checkReadable parent with
    | error e => exact ⟨t.tick.refused e.toError, by simp only [hread], hu, hepoch, .inl rfl⟩
    | ok _ =>
      have hlive : pc.state = .live := by
        have := checkReadable_ok hread
        have := (hu.proper _ pc hp).current
        grind
      have hids : ∀ i ∈ t.tick.freeIds.toList.reverse, i ∈ t.tick.freeIds := fun i hi =>
        TreeSet.mem_toList.mp (mem_reverse.mp hi)
      rcases hu.firstReusable hfuel hids with ⟨hnil, hfirst⟩ | ⟨id, r, hin, hfirst⟩
      · obtain ⟨o, ho, hord, hoe, hon, hfree⟩ := hu.forkInto_new hfresh hp hlive hn lease
        refine ⟨o, by simp only [hread, hfirst, map_some, ho], hord, hoe.trans hepoch,
          .inr ⟨hon, fun i hi => ?_⟩⟩
        obtain ⟨x, hx⟩ := hord.filled i hi
        refine ⟨x, hx, fun hs => ?_⟩
        have hin := ((hord.proper i x hx).retired hs).1
        rw [hfree, ← TreeSet.mem_toList, ← mem_reverse, hnil] at hin
        simp at hin
      · obtain ⟨o, ho, hord, hoe, hon⟩ := hu.forkInto_free (r := r) hfresh hp hlive hin lease
        exact ⟨o, by simp only [hread, hfirst, map_some, ho], hord, hoe.trans hepoch,
          .inl hon⟩

/-! ## Slots that are lost -/

/-- Only one slot changes. -/
structure Within (t t' : TableBranchCatalog) (id : ℕ) : Prop where
  core : ∀ i ≠ id, t'.core i = t.core i
  keyed : ∀ r, t'.core id = some r → r.branchId.id = id
  free : ∀ i ≠ id, i ∈ t'.freeIds → i ∈ t.freeIds
  nextId : t'.nextId = t.nextId

/-- A slot is retired and not free. -/
structure Lost (t : TableBranchCatalog) (id : ℕ) : Prop where
  keyed : ∀ i r, t.core i = some r → r.branchId.id = i
  slot : 0 < id ∧ id < t.nextId
  retired : ∃ r, t.core id = some r ∧ r.state = .reaped
  lost : id ∉ t.freeIds

variable {id lost : ℕ}

lemma Lost.within (h : t.Lost lost) (hw : Within t t' id) (hne : lost ≠ id) : t'.Lost lost where
  keyed i r hr := by
    by_cases hi : i = id
    · exact hi ▸ hw.keyed r (hi ▸ hr)
    · exact h.keyed i r (hw.core i hi ▸ hr)
  slot := hw.nextId ▸ h.slot
  retired := hw.core lost hne ▸ h.retired
  lost hin := h.lost (hw.free lost hne hin)

lemma Within.trans {t'' : TableBranchCatalog} (h : Within t t' id) (h' : Within t' t'' id) :
    Within t t'' id where
  core i hi := (h'.core i hi).trans (h.core i hi)
  keyed := h'.keyed
  free i hi hin := h.free i hi (h'.free i hi hin)
  nextId := h'.nextId.trans h.nextId

lemma Within.of_core_eq (hkeyed : ∀ r, t.core id = some r → r.branchId.id = id)
    (hcore : t'.core = t.core) (hfree : ∀ i ≠ id, i ∈ t'.freeIds → i ∈ t.freeIds)
    (hnext : t'.nextId = t.nextId) : Within t t' id where
  core i _ := by rw [hcore]
  keyed := hcore ▸ hkeyed
  free := hfree
  nextId := hnext

lemma within_writeRecord {old : Option CoreRecord}
    (h : t.writeRecord x old = .ok t') : Within t t' x.branchId.id := by
  cases hw : t.envelopeWrite x with
  | error e => simp [writeRecord, hw, bind, Except.bind] at h
  | ok write =>
    rw [writeRecord_ok hw] at h
    obtain rfl := ok.inj h
    refine ⟨fun i hi => ?_, fun r hr => ?_, fun i _ => ?_, ?_⟩
    · rw [core_written, if_neg hi]
      cases old <;> rfl
    · rw [core_written, if_pos rfl] at hr
      exact some.inj hr ▸ rfl
    · rw [written_freeIds]
      cases old <;> exact id
    · rw [written_nextId]
      cases old <;> rfl

lemma within_writeRecordNew (h : t.writeRecordNew x = .ok t') : Within t t' x.branchId.id := by
  have hput : Within t (t.putRecord x) x.branchId.id := by
    refine ⟨fun i hi => getElem?_insert_if.trans (if_neg hi), fun r hr => ?_, fun _ _ => id, rfl⟩
    have hr' := getElem?_insert_if.symm.trans hr
    rw [if_pos rfl] at hr'
    exact some.inj hr' ▸ rfl
  unfold writeRecordNew at h
  split at h
  · exact ok.inj h ▸ hput
  · rename_i e _
    cases ha : admitEnvelope e with
    | error e => simp [ha, Except.map] at h
    | ok _ =>
      rw [ha] at h
      obtain rfl := ok.inj h
      exact ⟨hput.core, hput.keyed, hput.free, rfl⟩

lemma within_setState (hkeyed : ∀ r, t.core branch.id = some r → r.branchId.id = branch.id)
    (expect dest : BranchState) : Within t (t.setState branch expect dest).catalog branch.id := by
  have hsame : Within t t branch.id := .of_core_eq hkeyed rfl (fun _ _ => id) rfl
  unfold setState
  cases hr : t.core branch.id with
  | none => exact hsame
  | some r =>
    simp only
    split_ifs
    iterate 3 exact hsame
    all_goals
      split
      · exact hsame
      · next t' hwrite => exact (show _ = branch.id from hkeyed r hr) ▸ within_writeRecord hwrite

/-- The walk up from a branch only takes entries away. -/
lemma detachFromParent_core {steps : ℕ}
    (h : t.detachFromParent fuel steps r = some (answer, t')) :
    t'.core = t.core ∧ t'.freeIds = t.freeIds ∧ t'.nextId = t.nextId := by
  fun_induction detachFromParent fuel steps t r with
  | case6 steps t r hkids parent hparent t₁ p hp hs ih => exact ih h
  | case7 | case8 =>
    rw [some.injEq, Prod.mk.injEq] at h
    rw [← h.2]
    exact ⟨rfl, rfl, rfl⟩
  | _ => simp_all

lemma releaseId_catalog {o : Outcome} (h : t.releaseId fuel id = some o) :
    o.catalog = t ∨ o.catalog = { t with freeIds := t.freeIds.insert id } := by
  unfold releaseId at h
  split_ifs at h
  · exact .inl (some.inj h ▸ rfl)
  · obtain ⟨found, -, rfl⟩ := map_eq_some_iff.mp h
    split
    · exact .inr rfl
    · exact .inl rfl

lemma within_retire (hkeyed : ∀ i r, t.core i = some r → r.branchId.id = i)
    (h : t.retire fuel r = some (answer, t')) : Within t t' r.branchId.id := by
  have hset := within_setState (hkeyed r.branchId.id) .reaping .reaped
  unfold retire at h
  split at h
  · rename_i e t₁ h₁
    obtain ⟨-, rfl⟩ := Prod.mk.inj (some.inj h)
    rw [h₁] at hset
    exact hset
  · rename_i t₁ h₁
    rw [h₁] at hset
    have hdetached {t₂ : TableBranchCatalog} {answer : Except FerroError Unit}
        (h₂ : t₁.detachFromParent fuel fuel r = some (answer, t₂)) :
        Within t t₂ r.branchId.id := by
      obtain ⟨hcore, hfree, hnext⟩ := detachFromParent_core h₂
      exact hset.trans (.of_core_eq hset.keyed hcore (fun _ _ => hfree ▸ id) hnext)
    split at h
    · rename_i t₂ h₂
      obtain ⟨o, ho, heq⟩ := map_eq_some_iff.mp h
      obtain ⟨-, rfl⟩ := Prod.mk.inj heq
      have hw := hdetached h₂
      rcases releaseId_catalog ho with hsame | hinsert
      · exact hsame ▸ hw
      · rw [hinsert]
        refine hw.trans (.of_core_eq hw.keyed rfl (fun i hi hin => ?_) rfl)
        exact (mem_insert_iff.mp hin).resolve_left hi
    · exact hdetached h

lemma Lost.reap (h : t.Lost lost) {store : Except FerroError Unit}
    (hreap : t.reap fuel branch store = some (answer, t')) :
    t'.Lost lost ∧ t'.nextId = t.nextId := by
  unfold TableBranchCatalog.reap at hreap
  cases hr : t.core branch.id with
  | none =>
    simp only [hr, some.injEq, Prod.mk.injEq] at hreap
    exact hreap.2 ▸ ⟨h, rfl⟩
  | some r =>
    simp only [hr] at hreap
    split_ifs at hreap with hgen hs h0
    iterate 3
      obtain ⟨-, rfl⟩ := Prod.mk.inj (some.inj hreap)
      exact ⟨h, rfl⟩
    have hne : lost ≠ branch.id := by
      rintro rfl
      obtain ⟨x, hx, hs'⟩ := h.retired
      rw [hr] at hx
      exact hs (some.inj hx ▸ hs')
    have hset := within_setState (h.keyed branch.id) r.state .reaping
    have hkey := h.keyed _ r hr
    split at hreap
    · rename_i t₁ h₁
      obtain ⟨-, rfl⟩ := Prod.mk.inj (some.inj hreap)
      rw [h₁] at hset
      exact ⟨h.within hset hne, hset.nextId⟩
    · rename_i t₁ h₁
      rw [h₁] at hset
      have hw : Within t t₁.tick branch.id := ⟨hset.core, hset.keyed, hset.free, hset.nextId⟩
      have hlost := h.within hw hne
      split at hreap
      · simp at hreap
      · obtain ⟨-, rfl⟩ := Prod.mk.inj (some.inj hreap)
        exact ⟨hlost, hw.nextId⟩
      · split at hreap
        · obtain ⟨-, rfl⟩ := Prod.mk.inj (some.inj hreap)
          exact ⟨hlost, hw.nextId⟩
        · have hret := within_retire hlost.keyed hreap
          exact ⟨hlost.within hret (hkey ▸ hne), hret.nextId.trans hw.nextId⟩

lemma mem_of_firstReusable {stale : List ℕ}
    (h : t.firstReusable fuel ids = some (some (id, r), stale)) : id ∈ ids := by
  induction ids generalizing stale with
  | nil => simp [firstReusable] at h
  | cons i ids ih =>
    rw [firstReusable] at h
    split at h
    · simp at h
    · simp only [some.injEq, Prod.mk.injEq] at h
      exact h.1.1 ▸ mem_cons_self
    · obtain ⟨⟨found, rest⟩, hrest, heq⟩ := map_eq_some_iff.mp h
      obtain ⟨rfl, -⟩ := Prod.mk.inj heq
      exact mem_cons_of_mem _ (ih hrest)

lemma Lost.forgetFree (h : t.Lost lost) (ids : List ℕ) : (t.forgetFree ids).Lost lost where
  keyed := h.keyed
  slot := h.slot
  retired := h.retired
  lost hin := by
    have hsub (s : TreeSet ℕ) (hs : lost ∈ ids.foldl TreeSet.erase s) : lost ∈ s := by
      clear hin
      induction ids generalizing s with
      | nil => exact hs
      | cons i ids ih => exact (mem_erase_iff.mp (ih _ hs)).1
    exact h.lost (hsub _ hin)

lemma Lost.forkInto (h : t.Lost lost) (hn : t.nextId + 1 < 2 ^ 64)
    {pc : CoreRecord} {found : Option (ℕ × CoreRecord)}
    (hfound : ∀ x ∈ found, x.1 ≠ lost) (lease : ℕ) (stale : List ℕ) :
    (t.forkInto parent lease pc found stale).catalog.Lost lost ∧
      (t.forkInto parent lease pc found stale).catalog.nextId ≤ t.nextId + 1 := by
  obtain ⟨childId, base, htake, hbase, hnext, hne⟩ : ∃ childId base,
      t.takeId found = (childId, base) ∧ base.Lost lost ∧ base.nextId ≤ t.nextId + 1 ∧
        lost ≠ childId.id := by
    cases found with
    | none =>
      have hlt := h.slot.2
      refine ⟨_, _, rfl, ⟨h.keyed, ?_, h.retired, h.lost⟩, ?_, hlt.ne⟩
      · simp only [mod_eq_of_lt hn]
        exact ⟨h.slot.1, by omega⟩
      · exact (mod_eq_of_lt hn).le
    | some x => exact ⟨_, _, rfl, h, le_succ _, (hfound x rfl).symm⟩
  simp only [TableBranchCatalog.forkInto, htake]
  cases hchild : forkChildFromCore pc base.envelopes[parent.id]? childId base.epoch
      lease with
  | error e => exact ⟨hbase, hnext⟩
  | ok child =>
    have hid : child.branchId = childId := by
      simp only [forkChildFromCore, forkChild] at hchild
      split_ifs at hchild
      exact (ok.inj hchild) ▸ rfl
    simp only
    set cleared := if found.isSome then (base.forgetFree stale).forgetFree [childId.id]
      else base.forgetFree stale with hcleared
    have hlost : cleared.Lost lost ∧ cleared.nextId ≤ t.nextId + 1 := by
      rw [hcleared]
      split_ifs
      · exact ⟨(hbase.forgetFree _).forgetFree _, hnext⟩
      · exact ⟨hbase.forgetFree _, hnext⟩
    split
    · exact hlost
    · rename_i written hwritten
      have hw : Within cleared written childId.id := by
        rw [← hid]
        split_ifs at hwritten
        · exact within_writeRecord hwritten
        · exact within_writeRecordNew hwritten
      have hdone := hlost.1.within hw hne
      exact ⟨⟨hdone.keyed, hdone.slot, hdone.retired, hdone.lost⟩, hw.nextId.trans_le hlost.2⟩

lemma Lost.fork (h : t.Lost lost) (hn : t.nextId + 1 < 2 ^ 64) {lease : ℕ}
    {o : Outcome} (hfork : t.fork fuel parent lease = some o) :
    o.catalog.Lost lost ∧ o.catalog.nextId ≤ t.nextId + 1 := by
  have htick : t.tick.Lost lost := ⟨h.keyed, h.slot, h.retired, h.lost⟩
  rw [TableBranchCatalog.fork] at hfork
  split at hfork
  · exact some.inj hfork ▸ ⟨htick, le_succ _⟩
  · split at hfork
    · exact some.inj hfork ▸ ⟨htick, le_succ _⟩
    · obtain ⟨⟨found, stale⟩, hfirst, rfl⟩ := map_eq_some_iff.mp hfork
      refine htick.forkInto hn ?_ lease stale
      rintro ⟨id, r⟩ hx rfl
      rw [mem_def.mp hx] at hfirst
      exact htick.lost (TreeSet.mem_toList.mp
        (mem_reverse.mp (mem_of_firstReusable hfirst)))

lemma Lost.event (h : t.Lost lost) (hn : t.nextId + 1 < 2 ^ 64) {e : ReaperEvent}
    (he : t.event fuel e = some t') : t'.Lost lost ∧ t'.nextId ≤ t.nextId + 1 := by
  cases e with
  | fork parent lease =>
    obtain ⟨o, ho, rfl⟩ := map_eq_some_iff.mp he
    exact h.fork hn ho
  | reap branch store =>
    obtain ⟨⟨answer, t'⟩, ho, rfl⟩ := map_eq_some_iff.mp he
    obtain ⟨hlost, hnext⟩ := h.reap ho
    exact ⟨hlost, hnext.trans_le (le_succ _)⟩

/-- A slot that is lost stays lost. -/
lemma Lost.events (h : t.Lost lost)
    (hn : t.nextId + es.length < 2 ^ 64) (hes : t.events fuel es = some t') : t'.Lost lost := by
  induction es generalizing t with
  | nil => exact some.inj hes ▸ h
  | cons e es ih =>
    rw [length_cons] at hn
    obtain ⟨t₁, h₁, hrest⟩ := bind_eq_some_iff.mp hes
    obtain ⟨hlost, hnext⟩ := h.event (by omega) h₁
    exact ih hlost (by omega) hrest

/-! ## Whole runs -/

/-- A branch that the page store lets go has no live children. -/
def Ready (t : TableBranchCatalog) (fuel : ℕ) : ReaperEvent → Prop
  | .fork _ _ => True
  | .reap branch store => ∀ r, t.core branch.id = some r → r.generation = branch.generation →
      r.state ≠ .reaped → branch.id ≠ 0 → store = .ok () →
      t.hasLiveChildren fuel branch.id = some (.ok false)

/-- Every branch is reaped after its descendants. -/
def BottomUp (fuel : ℕ) : TableBranchCatalog → List ReaperEvent → Prop
  | _, [] => True
  | t, e :: es => t.Ready fuel e ∧ ∀ t', t.event fuel e = some t' → BottomUp fuel t' es

/-- Branches that are not there to be reaped are left alone. -/
lemma reap_idle (fuel : ℕ) (store : Except FerroError Unit)
    (h : ¬∃ r, t.core branch.id = some r ∧ r.generation = branch.generation ∧
      r.state ≠ .reaped ∧ branch.id ≠ 0) :
    ∃ answer, t.reap fuel branch store = some (answer, t) := by
  unfold reap
  cases hr : t.core branch.id with
  | none => exact ⟨_, rfl⟩
  | some r =>
    by_cases hgen : r.generation = branch.generation
    · by_cases hs : r.state = .reaped
      · exact ⟨.ok (), by simp [hgen, hs]⟩
      · have h0 : branch.id = 0 := by_contra fun h0 => h ⟨r, hr, hgen, hs, h0⟩
        exact ⟨.error (BranchError.notWritable branch).toError, by simp [hgen, hs, h0]⟩
    · exact ⟨.error (BranchError.reaped branch r.generation).toError, by simp [hgen]⟩

/-- A branch that is there is marked, and if the page store lets it go, its slot is free or lost. -/
lemma Orderly.reap (h : Orderly t) (hfuel : 0 < fuel) (he : t.epoch + 1 < 2 ^ 64)
    (hr : t.core branch.id = some r) (hgen : r.generation = branch.generation)
    (hlive : r.state ≠ .reaped) (h0 : branch.id ≠ 0) (store : Except FerroError Unit) :
    ∃ answer t', t.reap fuel branch store = some (answer, t') ∧ t'.nextId = t.nextId ∧
      t'.epoch = t.epoch + 1 ∧
      if store = .ok () → t.children branch.id = [] then Orderly t' else t'.Lost branch.id := by
  obtain ⟨t₁, h₁, hrew, heq⟩ := reap_eq h hfuel he hr hgen hlive h0 store
  have htick := h₁.tick (hrew.epoch ▸ he)
  have hepoch : t₁.tick.epoch = t.epoch + 1 := by
    change (t₁.epoch + 1) % 2 ^ 64 = _
    rw [hrew.epoch]
    exact mod_eq_of_lt he
  have hcore : t₁.tick.core branch.id = some { r with state := .reaping } :=
    (hrew.core _).trans (if_pos rfl)
  cases store with
  | error e => exact ⟨.error e, t₁.tick, heq, hrew.nextId, hepoch, by simpa using htick⟩
  | ok _ =>
    obtain ⟨t', hret, hnext, hepoch', hcase⟩ := retire_eq htick hfuel h0 hcore
    have hkids : t₁.tick.children branch.id = t.children branch.id := congrFun hrew.children _
    rw [hkids] at hcase
    refine ⟨.ok (), t', heq.trans hret, hnext.trans hrew.nextId, hepoch'.trans hepoch, ?_⟩
    simp only [forall_const]
    split_ifs at hcase ⊢ with hnil
    · exact hcase
    · obtain ⟨hcore', hfree⟩ := hcase
      refine ⟨fun i x hx => ?_, ⟨by omega, ?_⟩, ⟨_, (hcore' _).trans (if_pos rfl), rfl⟩,
        fun hin => ?_⟩
      · rw [hcore'] at hx
        split_ifs at hx with hi
        · obtain rfl := some.inj hx
          exact hi ▸ (htick.proper _ _ hcore).keyed
        · exact (htick.proper i x hx).keyed
      · rw [hnext]
        exact (htick.proper _ _ hcore).slot
      · obtain ⟨x, hx, hs⟩ := htick.free _ (hfree ▸ hin)
        rw [hcore] at hx
        exact absurd hs (some.inj hx ▸ by simp)

/-- One event keeps the tree in order, or a slot is lost. -/
lemma Orderly.event (h : Orderly t) (hfuel : 0 < fuel) (hn : t.nextId + 1 < 2 ^ 64)
    (he : t.epoch + 1 < 2 ^ 64) (e : ReaperEvent) :
    ∃ t', t.event fuel e = some t' ∧ t'.nextId ≤ t.nextId + 1 ∧ t'.epoch ≤ t.epoch + 1 ∧
      (t.Ready fuel e ∧ Orderly t' ∧
          (t'.nextId = t.nextId ∨ ∀ id < t'.nextId, t'.Unreaped id) ∨
        ¬t.Ready fuel e ∧ ∃ id, t'.Lost id) := by
  cases e with
  | fork parent lease =>
    obtain ⟨o, ho, hord, hepoch, hnext⟩ := h.fork hfuel hn he parent lease
    exact ⟨o.catalog, by simp [TableBranchCatalog.event, ho], by omega, hepoch.le,
      .inl ⟨trivial, hord, hnext.imp_right And.right⟩⟩
  | reap branch store =>
    by_cases hr : ∃ r, t.core branch.id = some r ∧ r.generation = branch.generation ∧
      r.state ≠ .reaped ∧ branch.id ≠ 0
    · obtain ⟨r, hr, hgen, hlive, h0⟩ := hr
      obtain ⟨answer, t', hreap, hnext, hepoch, hcase⟩ := h.reap hfuel he hr hgen hlive h0 store
      have hlc := h.hasLiveChildren hfuel branch.id
      have hready : t.Ready fuel (.reap branch store) ↔
          (store = .ok () → t.children branch.id = []) := by
        refine ⟨fun hready hs => ?_, fun hnil _ _ _ _ _ hs => by rw [hlc, hnil hs]; rfl⟩
        have := hready r hr hgen hlive h0 hs
        simp_all
      refine ⟨t', by simp [TableBranchCatalog.event, hreap], by omega, hepoch.le, ?_⟩
      rw [hready]
      split_ifs at hcase with hnil
      · exact .inl ⟨hnil, hcase, .inl hnext⟩
      · exact .inr ⟨hnil, branch.id, hcase⟩
    · obtain ⟨answer, hreap⟩ := reap_idle fuel store hr
      exact ⟨t, by simp [TableBranchCatalog.event, hreap], le_succ _, le_succ _,
        .inl ⟨fun r hr' hgen hlive h0 _ => absurd ⟨r, hr', hgen, hlive, h0⟩ hr, h, .inl rfl⟩⟩

/-- A run that goes from the bottom up keeps the tree in order, and at some time it had as many
branches at once as it ever used slots. -/
lemma Orderly.events (h : Orderly t) (hfuel : 0 < fuel)
    (hn : t.nextId + es.length < 2 ^ 64) (he : t.epoch + es.length < 2 ^ 64)
    (hes : BottomUp fuel t es) :
    ∃ t', t.events fuel es = some t' ∧ Orderly t' ∧ (t'.nextId = t.nextId ∨
      ∃ before, before <+: es ∧ ∃ peak, t.events fuel before = some peak ∧
        peak.nextId = t'.nextId ∧ ∀ id < t'.nextId, peak.Unreaped id) := by
  induction es generalizing t with
  | nil => exact ⟨t, rfl, h, .inl rfl⟩
  | cons e es ih =>
    rw [length_cons] at hn he
    obtain ⟨t₁, h₁, hnext, hepoch, ⟨-, hord, hpeak⟩ | ⟨hnot, -⟩⟩ :=
      h.event hfuel (by omega) (by omega) e
    · have hcons (es : List ReaperEvent) : t.events fuel (e :: es) = t₁.events fuel es := by
        simp [events, h₁]
      obtain ⟨t', hrun, hord', hcase⟩ := ih hord (by omega) (by omega) (hes.2 t₁ h₁)
      refine ⟨t', (hcons es).trans hrun, hord', ?_⟩
      rcases hcase with hsame | ⟨before, hpre, peak, hpeak', hnext', hall⟩
      · rcases hpeak with hpeak | hall
        · exact .inl (hsame.trans hpeak)
        · exact .inr ⟨[e], by simp, t₁, hcons [], hsame.symm, hsame ▸ hall⟩
      · exact .inr ⟨e :: before, cons_prefix_cons.mpr ⟨rfl, hpre⟩, peak,
          (hcons before).trans hpeak', hnext', hall⟩
    · exact absurd hes.1 hnot

/-- A run that does not go from the bottom up loses a slot. -/
lemma Orderly.loses (h : Orderly t) (hfuel : 0 < fuel)
    (hn : t.nextId + es.length < 2 ^ 64) (he : t.epoch + es.length < 2 ^ 64)
    (hes : ¬BottomUp fuel t es) (hrun : t.events fuel es = some t') : ∃ id, t'.Lost id := by
  induction es generalizing t with
  | nil => exact absurd trivial hes
  | cons e es ih =>
    rw [length_cons] at hn he
    obtain ⟨t₁, h₁, hnext, hepoch, hcase⟩ := h.event hfuel (by omega) (by omega) e
    have hrest : t₁.events fuel es = some t' := by
      simpa [TableBranchCatalog.events, h₁] using hrun
    rcases hcase with ⟨hready, hord, -⟩ | ⟨-, id, hlost⟩
    · refine ih hord (by omega) (by omega) (fun hall => hes ⟨hready, fun t₂ h₂ => ?_⟩) hrest
      rw [h₁] at h₂
      exact some.inj h₂ ▸ hall
    · exact ⟨id, hlost.events (by omega) hrest⟩

lemma orderly_create (root : ℕ) : Orderly (create root) := by
  have hcore (i : ℕ) : (create root).core i =
      if i = 0 then some (.narrow (.trunk root LogBranchCatalog.trunkLease)) else none :=
    getElem?_insert_if
  refine ⟨fun id r hr => ?_, fun id hid => ?_, ⟨by simp [create], one_pos⟩, by simp [create],
    fun p x => ?_, fun _ => Pairwise.nil, by simp [create]⟩
  · rw [hcore] at hr
    split_ifs at hr with hid
    obtain rfl := some.inj hr
    exact ⟨hid.symm, by simp [CoreRecord.narrow, BranchRecord.trunk, BranchId.trunk],
      fun h0 => absurd hid h0, le_refl 0, hid ▸ one_pos,
      by simp [CoreRecord.narrow, BranchRecord.trunk]⟩
  · rw [hcore, if_pos (lt_one_iff.mp hid)]
    exact ⟨_, rfl⟩
  · refine iff_of_false not_mem_nil ?_
    rintro ⟨r, hr, -, hp, -⟩
    rw [hcore] at hr
    split_ifs at hr
    obtain rfl := some.inj hr
    simp [CoreRecord.narrow, BranchRecord.trunk] at hp

/-- Whatever is forked and reaped from the bottom up, every slot that is retired is free, and there
were once as many branches as there are slots. And a run that ends with everything reaped leaves
every slot free just when it went from the bottom up. -/
theorem retired_slots_come_back (root fuel : ℕ) (es : List ReaperEvent) (hfuel : 0 < fuel)
    (hlen : es.length + 1 < 2 ^ 64) :
    (BottomUp fuel (create root) es →
      ∃ t, (create root).events fuel es = some t ∧
        (∀ id r, t.core id = some r → r.state = .reaped → id ∈ t.freeIds) ∧
        ∃ before, before <+: es ∧ ∃ peak, (create root).events fuel before = some peak ∧
          peak.nextId = t.nextId ∧ ∀ id < t.nextId, peak.Unreaped id) ∧
    ∀ t, (create root).events fuel es = some t →
      (∀ id, 0 < id → id < t.nextId → ¬t.Unreaped id) →
      ((∀ id, 0 < id → id < t.nextId → id ∈ t.freeIds) ↔ BottomUp fuel (create root) es) := by
  have h := orderly_create root
  have hn : (create root).nextId + es.length < 2 ^ 64 := by
    change 1 + es.length < _
    omega
  have he : (create root).epoch + es.length < 2 ^ 64 := by
    change 0 + es.length < _
    omega
  constructor
  · intro hes
    obtain ⟨t, hrun, hord, hcase⟩ := h.events hfuel hn he hes
    refine ⟨t, hrun, fun id r hr hs => ((hord.proper id r hr).retired hs).1, ?_⟩
    rcases hcase with hsame | hpeak
    · refine ⟨[], nil_prefix, create root, rfl, hsame.symm, fun id hid => ?_⟩
      obtain ⟨r, hr⟩ := h.filled id (hsame ▸ hid)
      refine ⟨r, hr, fun hs => ?_⟩
      have hin := ((h.proper id r hr).retired hs).1
      simp [create] at hin
    · exact hpeak
  · intro t hrun hall
    refine ⟨fun hfree => by_contra fun hes => ?_, fun hes id h0 hid => ?_⟩
    · obtain ⟨id, hlost⟩ := h.loses hfuel hn he hes hrun
      exact hlost.lost (hfree id hlost.slot.1 hlost.slot.2)
    · obtain ⟨t', hrun', hord, -⟩ := h.events hfuel hn he hes
      obtain rfl : t = t' := some.inj (hrun.symm.trans hrun')
      obtain ⟨r, hr⟩ := hord.filled id hid
      have hs : r.state = .reaped := by_contra fun hs => hall id h0 hid ⟨r, hr, hs⟩
      exact ((hord.proper id r hr).retired hs).1

/-- A branch is forked and reaped. -/
theorem retired_slots_come_back_leaf :
    0 < 4 ∧ [ReaperEvent.fork .trunk 5, .reap ⟨1, 0⟩ (.ok ())].length + 1 < 2 ^ 64 ∧
    ∃ t, (create 0).events 4 [.fork .trunk 5, .reap ⟨1, 0⟩ (.ok ())] = some t ∧
      ∀ id r, t.core id = some r → r.state = .reaped → id ∈ t.freeIds := by
  have hes : BottomUp 4 (create 0) [.fork .trunk 5, .reap ⟨1, 0⟩ (.ok ())] := by
    refine ⟨trivial, fun t ht => ⟨fun _ _ _ _ _ _ => ?_, fun _ _ => trivial⟩⟩
    obtain rfl := some.inj ht
    rfl
  obtain ⟨t, hrun, hfree, -⟩ :=
    (retired_slots_come_back 0 4 _ (by decide) (by decide)).1 hes
  exact ⟨by decide, by decide, t, hrun, hfree⟩

/-- A branch is forked, a branch is forked from that, and the first is reaped before the second.
Both are reaped in the end, and slot 1 is not among the free ones: when the first was reaped it had
a live child, and when that was reaped only its own slot was released. -/
theorem reaped_interior_not_released :
    let t := (create 0).events 4 [.fork .trunk 5, .fork ⟨1, 0⟩ 5, .reap ⟨1, 0⟩ (.ok ()),
      .reap ⟨2, 0⟩ (.ok ())]
    (t.map fun t => [1, 2].map fun id => (t.core id).map CoreRecord.state) =
        some [some .reaped, some .reaped] ∧
      (t.map fun t => [0, 1].map t.children) = some [[], []] ∧
      (t.map fun t => t.freeIds.toList) = some [2] := by
  decide +kernel

end TableBranchCatalog

end FerroDb.Branch
