import FerroDb.Branch.LogRecovery
import FerroDb.Branch.TableCatalog
import FerroDb.Library.OrderedSet

/-!
# Calls whose record cannot be appended

The calls of `LogBranchCatalog` once more, with a log that may refuse the record. What the catalog
holds at that moment depends on the call: some change the record in place and append it then, some
append a copy and put it in place afterwards, and a fork has taken a slot by then.

## Main definitions

* `Attempt`: how far a call comes before it appends.
* `LogBranchCatalog.attempt`: the calls; `finish` lets the append go through or fail.
* `SameAnswers`: no query tells one catalog from the other.
-/

namespace FerroDb.Branch

open Library Option Except Option Std

/-- How far a call comes by itself: it is over, or a record is to be appended. In the latter case
it is said what the catalog holds by then, and what it holds once the record is in the log. -/
inductive Attempt where
  | ended (reply : Except FerroError CatalogReply) (catalog : LogBranchCatalog)
  | append (record : BranchRecord) (held : LogBranchCatalog) (reply : CatalogReply)
      (done : LogBranchCatalog)

/-- The call with a log that takes the record, or fails with a message. -/
def Attempt.finish : Attempt → Option String → Except FerroError CatalogReply × LogBranchCatalog
  | ended reply catalog, _ => (reply, catalog)
  | append _ _ reply done, none => (.ok reply, done)
  | append _ held _ _, some msg => (.error (.io msg), held)

variable {parentId : ℕ} {lease : ℕ}

namespace LogBranchCatalog

variable (c : LogBranchCatalog)

/-- A record is changed where it is. -/
def putAt (id : ℕ) (r : BranchRecord) : LogBranchCatalog :=
  { c with records := c.records.insert id r }

def attemptFork (parent : BranchId) (lease : ℕ) : Attempt :=
  let c := c.tick
  match c.records[parent.id]? with
  | none => .ended (.error (BranchError.notFound parent).toError) c
  | some parentRec =>
    match parentRec.checkReadable parent with
    | .error e => .ended (.error e.toError) c
    | .ok _ =>
      let (childId, c) := c.takeId
      match parentRec.forkChild childId c.epoch lease with
      | .error e => .ended (.error e.toError) c
      | .ok child =>
        .append child c (.record child)
          ((c.install (parentRec.addLiveChild c.epoch)).install child)

/-- A copy of the record is changed, appended and then installed. -/
def attemptCopied (branch : BranchId)
    (f : BranchRecord → Except FerroError (BranchRecord × CatalogReply)) : Attempt :=
  match c.records[branch.id]? with
  | none => .ended (.error (BranchError.notFound branch).toError) c
  | some r =>
    match r.checkReadable branch with
    | .error e => .ended (.error e.toError) c
    | .ok _ =>
      match f r with
      | .error e => .ended (.error e) c
      | .ok (r, reply) => .append r c reply (c.install r)

/-- The record is changed in place and then appended; `none` if there is nothing to change. -/
def attemptInPlace (branch : BranchId)
    (f : BranchRecord → Option BranchRecord) : Attempt :=
  match c.records[branch.id]? with
  | none => .ended (.error (BranchError.notFound branch).toError) c
  | some r =>
    match r.checkReadable branch with
    | .error e => .ended (.error e.toError) c
    | .ok _ =>
      match f r with
      | none => .ended (.ok .unit) c
      | some r => .append r (c.putAt branch.id r) .unit (c.putAt branch.id r)

def attemptReparent (branch parent : BranchId) (forkEpoch root : ℕ) : Attempt :=
  c.attemptCopied branch fun r =>
    match c.records[parent.id]? with
    | none => .error (BranchError.notFound parent).toError
    | some p =>
      let r := { r with
        parentId := some parent
        forkEpoch := forkEpoch
        depth := BranchRecord.below p.depth
        rootPageId := root }
      .ok (r, .record r)

def attemptRestrictEnvelope (branch : BranchId) (envelope : CapabilityEnvelope) : Attempt :=
  c.attemptCopied branch fun r =>
    match r.restrict envelope with
    | .error e => .error e.toError
    | .ok r => .ok (r, .unit)

def attemptSetState (branch : BranchId) (expect dest : BranchState) : Attempt :=
  match c.records[branch.id]? with
  | none => .ended (.error (BranchError.notFound branch).toError) c
  | some r =>
    if r.generation ≠ branch.generation then
      .ended (.error (BranchError.reaped branch r.generation).toError) c
    else if r.state ≠ expect then
      .ended (.error (BranchError.unexpectedState branch expect r.state).toError) c
    else if expect = dest then .ended (.ok .unit) c
    else
      let r := if dest = .reaped then r.markReaped else { r with state := dest }
      .append r c .unit (c.install r)

def attemptSetRoot (branch : BranchId) (root : ℕ) : Attempt :=
  c.attemptInPlace branch fun r => some { r with rootPageId := root }

def attemptAttachChild (parentId forkEpoch : ℕ) : Attempt :=
  match c.records[parentId]? with
  | none => .ended (.error (BranchError.notFound ⟨parentId, 0⟩).toError) c
  | some p =>
    let p := p.addLiveChild forkEpoch
    .append p (c.putAt parentId p) .unit (c.putAt parentId p)

def attemptDetachChild (parentId forkEpoch : ℕ) : Attempt :=
  match c.records[parentId]? with
  | none => .ended (.ok (.removed false)) c
  | some p =>
    match p.removeLiveChild forkEpoch with
    | (true, p) => .append p (c.putAt parentId p) (.removed true) (c.putAt parentId p)
    | (false, _) => .ended (.ok (.removed false)) c

def attemptAddArena (branch : BranchId) (arena : ℕ) : Attempt :=
  c.attemptInPlace branch fun r =>
    if arena ∈ r.arenas then none else some { r with arenas := r.arenas ++ [arena] }

def attemptRenewLease (branch : BranchId) (lease : ℕ) : Attempt :=
  c.attemptInPlace branch fun r => some { r with leaseDeadline := lease }

def attemptChargeRowWrites (branch : BranchId) (n : ℕ) : Attempt :=
  c.attemptCopied branch fun r =>
    match r.envelope with
    | none => .error (.constraint (s!"cannot charge {n} row-write(s) to {branchName branch}: it " ++
        "has no capability envelope"))
    | some e =>
      match e.charge n with
      | .error e => .error e.toError
      | .ok e => .ok ({ r with envelope := some e }, .unit)

def attempt : CatalogOp → Attempt
  | .nextEpoch => .ended (.ok (.epoch c.tick.epoch)) c.tick
  | .fork parent lease => c.attemptFork parent lease
  | .reparent branch parent forkEpoch root => c.attemptReparent branch parent forkEpoch root
  | .restrictEnvelope branch envelope => c.attemptRestrictEnvelope branch envelope
  | .setState branch expect dest => c.attemptSetState branch expect dest
  | .setRoot branch root => c.attemptSetRoot branch root
  | .releaseId id => .ended (.ok .unit) (c.releaseId id).catalog
  | .attachChild parentId forkEpoch _ => c.attemptAttachChild parentId forkEpoch
  | .detachChild parentId forkEpoch => c.attemptDetachChild parentId forkEpoch
  | .addArena branch arena => c.attemptAddArena branch arena
  | .renewLease branch lease => c.attemptRenewLease branch lease
  | .chargeRowWrites branch n => c.attemptChargeRowWrites branch n

/-- A call, with a log that fails with this message if it is asked to take a record. -/
def call (op : CatalogOp) (fault : Option String) :
    Except FerroError CatalogReply × LogBranchCatalog :=
  (c.attempt op).finish fault

/-! ## Queries -/

def currentEpoch : ℕ := c.epoch

/-- All records, in the order of their slots. -/
def scan : List BranchRecord := c.records.toList.map Prod.snd

def envelopeOf (branch : BranchId) : Except FerroError (Option CapabilityEnvelope) :=
  (c.get branch).map BranchRecord.envelope

/-- The branch that the next fork would be. -/
def nextBranch : BranchId := c.takeId.1

/-- No query tells the catalogs apart, nor does the branch that the next fork makes. -/
structure SameAnswers (c d : LogBranchCatalog) : Prop where
  currentEpoch : c.currentEpoch = d.currentEpoch
  get : ∀ branch, c.get branch = d.get branch
  getRaw : ∀ id, c.getRaw id = d.getRaw id
  expiredBefore : ∀ now, c.expiredBefore now = d.expiredBefore now
  inState : ∀ state, c.inState state = d.inState state
  scan : c.scan = d.scan
  maxLiveChild : ∀ parent, c.maxLiveChild parent = d.maxLiveChild parent
  liveChildInEpochRange : ∀ parent lo hi,
    c.liveChildInEpochRange parent lo hi = d.liveChildInEpochRange parent lo hi
  hasLiveChildren : ∀ parent, c.hasLiveChildren parent = d.hasLiveChildren parent
  liveCount : c.liveCount = d.liveCount
  envelopeOf : ∀ branch, c.envelopeOf branch = d.envelopeOf branch
  nextBranch : c.nextBranch = d.nextBranch

/-! ## Failed calls -/

variable {c} {d : LogBranchCatalog} {branch : BranchId} {id : ℕ} {r : BranchRecord}
  {g : BranchRecord → Except FerroError (Option BranchRecord × CatalogReply)}
  {f : BranchRecord → Except FerroError (BranchRecord × CatalogReply)} {parentId forkEpoch : ℕ}
  {r' : BranchRecord}

/-- Catalogs that hold the same answer alike. -/
lemma Same.answers (h : c.Same d) : SameAnswers c d := by
  have hget (id : ℕ) : c.records[id]? = d.records[id]? := h.records.getElem?_eq
  have hlist : c.records.toList = d.records.toList := h.records.toList_eq
  have hchildren : c.liveChildren = d.liveChildren := funext fun parent => by
    rw [liveChildren, hget, liveChildren]
  have hbranch (branch : BranchId) : c.get branch = d.get branch := by
    rw [LogBranchCatalog.get, hget, LogBranchCatalog.get]
  exact {
    currentEpoch := h.epoch
    get := hbranch
    getRaw := by simp only [getRaw, hget, implies_true]
    expiredBefore := by simp only [expiredBefore, hlist, implies_true]
    inState := by simp only [inState, hlist, implies_true]
    scan := by simp only [LogBranchCatalog.scan, hlist]
    maxLiveChild := by simp only [maxLiveChild, hchildren, implies_true]
    liveChildInEpochRange := by
      simp [liveChildInEpochRange, hget]
    hasLiveChildren := by simp only [hasLiveChildren, hchildren, implies_true]
    liveCount := h.live
    envelopeOf := by simp only [envelopeOf, hbranch, implies_true]
    nextBranch := by
      rw [nextBranch, nextBranch, takeId, takeId, h.freeIds,
        h.nextId]
      cases d.freeIds.getLast? with
      | none => rfl
      | some id => simp only [hget] }

lemma SameAnswers.refl (c : LogBranchCatalog) : SameAnswers c c :=
  Same.answers ⟨.rfl, rfl, rfl, rfl, rfl⟩

/-- A record that is in its slot is put there again. -/
lemma sameAnswers_putAt (h : c.records[id]? = some r) : SameAnswers (c.putAt id r) c := by
  have hrecords : (c.putAt id r).records.Equiv c.records := by
    refine TreeMap.Equiv.of_forall_constGet?_eq fun i => ?_
    rw [putAt, getElem?_insert_if]
    split_ifs with hi
    · rw [hi, h]
    · rfl
  exact Same.answers ⟨hrecords, rfl, rfl, rfl, rfl⟩

lemma records_eq_of_sameAnswers (h : SameAnswers c d) (id : ℕ) :
    c.records[id]? = d.records[id]? := by
  have hraw := h.getRaw id
  unfold LogBranchCatalog.getRaw at hraw
  cases hc : c.records[id]? <;> cases hd : d.records[id]? <;> simp_all

lemma sameAnswers_putAt_iff (h : c.records[id]? = some r) :
    SameAnswers (c.putAt id r') c ↔ r' = r := by
  constructor
  · intro hsame
    have heq := records_eq_of_sameAnswers hsame id
    rw [h, putAt, TreeMap.getElem?_insert_self] at heq
    exact some.inj heq
  · rintro rfl
    exact sameAnswers_putAt h

variable {fault : Option String} {e : FerroError}

lemma attemptCopied_eq (c : LogBranchCatalog) (branch : BranchId)
    (f : BranchRecord → Except FerroError (BranchRecord × CatalogReply)) :
    c.attemptCopied branch f =
      match c.get branch with
      | .error e => .ended (.error e) c
      | .ok r =>
        match f r with
        | .error e => .ended (.error e) c
        | .ok (r, reply) => .append r c reply (c.install r) := by
  unfold attemptCopied LogBranchCatalog.get
  cases c.records[branch.id]? with
  | none => rfl
  | some r =>
    dsimp only
    cases r.checkReadable branch <;> rfl

lemma attemptInPlace_eq (c : LogBranchCatalog) (branch : BranchId)
    (f : BranchRecord → Option BranchRecord) : c.attemptInPlace branch f =
      match c.get branch with
      | .error e => .ended (.error e) c
      | .ok r =>
        match f r with
        | none => .ended (.ok .unit) c
        | some r => .append r (c.putAt branch.id r) .unit (c.putAt branch.id r) := by
  unfold attemptInPlace LogBranchCatalog.get
  cases c.records[branch.id]? with
  | none => rfl
  | some r =>
    dsimp only
    cases r.checkReadable branch <;> rfl

lemma getElem?_of_get (h : c.get branch = .ok r) : c.records[branch.id]? = some r := by
  unfold LogBranchCatalog.get at h
  cases hr : c.records[branch.id]? with
  | none => simp [hr] at h
  | some r' =>
    simp only [hr] at h
    cases hread : r'.checkReadable branch with
    | error e => simp [hread] at h
    | ok _ =>
      simp only [hread, ok.injEq] at h
      rw [h]

/-- A call that appends a copy has changed nothing when it fails. -/
lemma attemptCopied_failed (h : ((c.attemptCopied branch f).finish fault).1 = .error e) :
    ((c.attemptCopied branch f).finish fault).2 = c := by
  rw [attemptCopied_eq] at h ⊢
  cases hget : c.get branch with
  | error e => rfl
  | ok r =>
    simp only [hget] at h ⊢
    cases hf : f r with
    | error e => rfl
    | ok out =>
      cases fault with
      | none => simp [hf, Attempt.finish] at h
      | some msg => rfl

/-- A call that changes its record in place has changed it when it fails, unless it is refused. -/
lemma attemptInPlace_failed {f : BranchRecord → Option BranchRecord}
    (h : ((c.attemptInPlace branch f).finish fault).1 = .error e) :
    SameAnswers ((c.attemptInPlace branch f).finish fault).2 c ↔
      ∀ r, c.get branch = .ok r → f r = some r := by
  rw [attemptInPlace_eq] at h ⊢
  cases hget : c.get branch with
  | error e => exact iff_of_true (.refl c) (by simp)
  | ok r =>
    simp only [hget, ok.injEq, forall_eq'] at h ⊢
    cases hf : f r with
    | none => simp [hf, Attempt.finish] at h
    | some r' =>
      cases fault with
      | none => simp [hf, Attempt.finish] at h
      | some msg =>
        refine (sameAnswers_putAt_iff (getElem?_of_get hget)).trans ?_
        rw [some.injEq]

/-- A call that sets one field leaves the answers as they were only where it has the value. -/
lemma attemptSet_failed {f : BranchRecord → BranchRecord} {P : BranchRecord → Prop}
    (hf : ∀ r, f r = r ↔ P r)
    (h : ((c.attemptInPlace branch fun r => some (f r)).finish fault).1 = .error e) :
    SameAnswers ((c.attemptInPlace branch fun r => some (f r)).finish fault).2 c ↔
      ∀ r, c.get branch = .ok r → P r := by
  rw [attemptInPlace_failed h]
  simp [hf]

lemma attemptAddArena_failed {arena : ℕ}
    (h : ((c.attemptAddArena branch arena).finish fault).1 = .error e) :
    SameAnswers ((c.attemptAddArena branch arena).finish fault).2 c ↔
      ∀ r, c.get branch = .ok r → arena ∈ r.arenas := by
  unfold attemptAddArena at h ⊢
  -- An arena that the branch has already makes the call succeed.
  have hnew : ∀ r, c.get branch = .ok r → arena ∉ r.arenas := by
    intro r hr hmem
    rw [attemptInPlace_eq] at h
    simp [hr, hmem, Attempt.finish] at h
  rw [attemptInPlace_failed h]
  refine forall₂_congr fun r hr => iff_of_false (fun hsame => ?_) (hnew r hr)
  rw [if_neg (hnew r hr)] at hsame
  have hlen := congrArg (·.arenas.length) (some.inj hsame)
  simp at hlen

lemma attemptSetState_failed {expect dest : BranchState}
    (h : ((c.attemptSetState branch expect dest).finish fault).1 = .error e) :
    ((c.attemptSetState branch expect dest).finish fault).2 = c := by
  unfold attemptSetState at h ⊢
  cases hr : c.records[branch.id]? with
  | none => rfl
  | some r =>
    simp only [hr] at h ⊢
    split_ifs at h ⊢ <;> cases fault <;> first | rfl | simp [Attempt.finish] at h

lemma length_insertEpoch (epoch : ℕ) (es : List ℕ) :
    (BranchRecord.insertEpoch epoch es).length = es.length + 1 := by
  induction es with
  | nil => rfl
  | cons x es ih =>
    rw [BranchRecord.insertEpoch]
    split_ifs <;> simp [ih]

lemma attemptAttachChild_failed
    (h : ((c.attemptAttachChild parentId forkEpoch).finish fault).1 = .error e) :
    SameAnswers ((c.attemptAttachChild parentId forkEpoch).finish fault).2 c ↔
      c.records[parentId]? = none := by
  unfold attemptAttachChild at h ⊢
  cases hp : c.records[parentId]? with
  | none => exact iff_of_true (.refl c) rfl
  | some p =>
    simp only [hp] at h ⊢
    cases fault with
    | none => simp [Attempt.finish] at h
    | some msg =>
      refine iff_of_false (fun hsame => ?_) (by simp)
      have hlen := congrArg (·.liveChildren.length) ((sameAnswers_putAt_iff hp).mp hsame)
      simp [BranchRecord.addLiveChild, length_insertEpoch] at hlen

lemma length_removeLiveChild {p : BranchRecord} {epoch : ℕ}
    (h : (p.removeLiveChild epoch).1 = true) :
    (p.removeLiveChild epoch).2.liveChildren.length + 1 = p.liveChildren.length := by
  unfold BranchRecord.removeLiveChild at h ⊢
  dsimp only at h ⊢
  split_ifs at h ⊢ with hpos
  obtain ⟨hlt, -⟩ := List.getElem?_eq_some_iff.mp hpos
  have hlen := List.length_eraseIdx_of_lt hlt
  change (p.liveChildren.eraseIdx _).length + 1 = _
  omega

lemma attemptDetachChild_failed
    (h : ((c.attemptDetachChild parentId forkEpoch).finish fault).1 = .error e) :
    SameAnswers ((c.attemptDetachChild parentId forkEpoch).finish fault).2 c ↔
      ∀ p, c.records[parentId]? = some p → (p.removeLiveChild forkEpoch).1 = false := by
  unfold attemptDetachChild at h ⊢
  cases hp : c.records[parentId]? with
  | none => simp [hp, Attempt.finish] at h
  | some p =>
    simp only [hp, some.injEq, forall_eq'] at h ⊢
    have hlen : (p.removeLiveChild forkEpoch).1 = true →
        (p.removeLiveChild forkEpoch).2.liveChildren.length + 1 = p.liveChildren.length :=
      length_removeLiveChild
    generalize p.removeLiveChild forkEpoch = out at h hlen ⊢
    obtain ⟨_ | _, p'⟩ := out
    · simp [Attempt.finish] at h
    · cases fault with
      | none => simp [Attempt.finish] at h
      | some msg =>
        refine iff_of_false (fun hsame => ?_) (by simp)
        rw [(sameAnswers_putAt_iff hp).mp hsame] at hlen
        simp at hlen

lemma epoch_takeId (c : LogBranchCatalog) : c.takeId.2.epoch = c.epoch := by
  unfold takeId
  cases c.freeIds.getLast? <;> rfl

/-- The slot for a fork is gone once it is taken. -/
lemma takeId_ne (c : LogBranchCatalog) : c.takeId.2 ≠ c := by
  unfold takeId
  cases hlast : c.freeIds.getLast? with
  | none =>
    intro heq
    have hnext := congrArg nextId heq
    change (c.nextId + 1) % 2 ^ 64 = c.nextId at hnext
    omega
  | some id =>
    intro heq
    have hfree := congrArg (·.freeIds.length) heq
    have hpos := List.length_pos_of_mem (List.mem_of_getLast? hlast)
    rw [List.length_dropLast] at hfree
    omega

lemma attemptFork_eq (c : LogBranchCatalog) (parent : BranchId) (lease : ℕ) :
    c.attemptFork parent lease =
      match c.get parent with
      | .error e => .ended (.error e) c.tick
      | .ok p =>
        let taken := c.tick.takeId
        match p.forkChild taken.1 taken.2.epoch lease with
        | .error e => .ended (.error e.toError) taken.2
        | .ok child =>
          .append child taken.2 (.record child)
            ((taken.2.install (p.addLiveChild taken.2.epoch)).install child) := by
  have hrecords : c.tick.records = c.records := rfl
  unfold attemptFork LogBranchCatalog.get
  dsimp only
  rw [hrecords]
  cases c.records[parent.id]? with
  | none => rfl
  | some r =>
    dsimp only
    cases r.checkReadable parent <;> rfl

/-- A fork that fails has moved the clock, and taken a slot if it could read the parent. -/
lemma attemptFork_failed {parent : BranchId}
    (h : ((c.attemptFork parent lease).finish fault).1 = .error e) :
    ((c.attemptFork parent lease).finish fault).2 =
      match c.get parent with
      | .error _ => c.tick
      | .ok _ => c.tick.takeId.2 := by
  rw [attemptFork_eq] at h ⊢
  cases hget : c.get parent with
  | error e => rfl
  | ok p =>
    simp only [hget] at h ⊢
    cases hchild : p.forkChild c.tick.takeId.1 c.tick.takeId.2.epoch lease with
    | error e => rfl
    | ok child =>
      cases fault with
      | none => simp [hchild, Attempt.finish] at h
      | some msg => rfl

/-! ## A log that takes every record -/

/-- Installing a record of the same state changes no more than its slot. -/
lemma install_eq_putAt (h : c.records[id]? = some r)
    (hid : r'.branchId.id = id) (hstate : r'.state = r.state) : c.install r' = c.putAt id r' := by
  have hlive : isLive r' = isLive r := by simp [isLive, hstate]
  unfold install putAt
  rw [hid, h]
  cases hr : isLive r <;> simp [hlive]

/-- An attempt ends as the call whose log does not fail. -/
def Agrees (a : Attempt) (o : Outcome) : Prop := a.finish none = (o.reply, o.catalog)

lemma agrees_copied (c : LogBranchCatalog) (branch : BranchId)
    (hfg : ∀ r, g r = (f r).map fun out => (some out.1, out.2)) :
    Agrees (c.attemptCopied branch f) (c.withReadable branch g) := by
  rw [attemptCopied_eq]
  unfold withReadable LogBranchCatalog.get
  cases c.records[branch.id]? with
  | none => rfl
  | some r =>
    dsimp only
    cases r.checkReadable branch with
    | error e => rfl
    | ok _ =>
      dsimp only
      rw [hfg]
      cases f r <;> rfl

lemma agrees_fork (c : LogBranchCatalog) (parent : BranchId) (lease : ℕ) :
    Agrees (c.attemptFork parent lease) (c.fork parent lease) := by
  unfold Agrees attemptFork fork
  dsimp only
  cases c.tick.records[parent.id]? with
  | none => rfl
  | some p =>
    dsimp only
    cases p.checkReadable parent with
    | error e => rfl
    | ok _ =>
      cases p.forkChild c.tick.takeId.1 c.tick.takeId.2.epoch lease <;> rfl

lemma agrees_setState (c : LogBranchCatalog) (branch : BranchId) (expect dest : BranchState) :
    Agrees (c.attemptSetState branch expect dest) (c.setState branch expect dest) := by
  unfold Agrees attemptSetState setState
  cases c.records[branch.id]? with
  | none => rfl
  | some r =>
    dsimp only
    split_ifs <;> rfl

section

variable (hkeyed : ∀ (id : ℕ) (r : BranchRecord), c.records[id]? = some r → r.branchId.id = id)
include hkeyed

lemma agrees_inPlace (branch : BranchId) {f : BranchRecord → Option BranchRecord}
    (hf : ∀ r r', f r = some r' → r'.branchId = r.branchId ∧ r'.state = r.state)
    (hfg : ∀ r, g r = .ok (f r, .unit)) :
    Agrees (c.attemptInPlace branch f) (c.withReadable branch g) := by
  rw [attemptInPlace_eq]
  unfold withReadable LogBranchCatalog.get
  cases hr : c.records[branch.id]? with
  | none => rfl
  | some r =>
    dsimp only
    cases r.checkReadable branch with
    | error e => rfl
    | ok _ =>
      dsimp only
      rw [hfg]
      cases hfr : f r with
      | none => rfl
      | some r' =>
        obtain ⟨hid, hstate⟩ := hf r r' hfr
        have hslot : r'.branchId.id = branch.id := by rw [hid, hkeyed _ r hr]
        change (_, _) = (_, c.install r')
        rw [install_eq_putAt hr hslot hstate]

lemma agrees_attachChild (forkEpoch : ℕ) :
    Agrees (c.attemptAttachChild parentId forkEpoch) (c.attachChild parentId forkEpoch) := by
  unfold Agrees attemptAttachChild attachChild
  cases hp : c.records[parentId]? with
  | none => rfl
  | some p =>
    have hid : (p.addLiveChild forkEpoch).branchId.id = parentId := hkeyed _ p hp
    dsimp only [Attempt.finish, store, putAt]
    rw [hid]

lemma agrees_detachChild (forkEpoch : ℕ) :
    Agrees (c.attemptDetachChild parentId forkEpoch) (c.detachChild parentId forkEpoch) := by
  unfold Agrees attemptDetachChild detachChild
  cases hp : c.records[parentId]? with
  | none => rfl
  | some p =>
    have hid : (p.removeLiveChild forkEpoch).2.branchId.id = parentId := by
      rw [p.branchId_removeLiveChild, hkeyed _ p hp]
    dsimp only
    generalize p.removeLiveChild forkEpoch = out at hid ⊢
    obtain ⟨_ | _, p'⟩ := out
    · rfl
    · dsimp only [Attempt.finish, store, putAt]
      rw [hid]

/-- If the log takes the record, a call is the one of the catalog whose log does not fail. -/
lemma call_none (op : CatalogOp) :
    c.call op none = ((c.apply op).reply, (c.apply op).catalog) := by
  cases op with
  | nextEpoch => rfl
  | fork parent lease => exact agrees_fork c parent lease
  | reparent branch parent forkEpoch root =>
    refine agrees_copied c branch fun r => ?_
    cases c.records[parent.id]? <;> rfl
  | restrictEnvelope branch envelope =>
    refine agrees_copied c branch fun r => ?_
    cases r.restrict envelope <;> rfl
  | setState branch expect dest => exact agrees_setState c branch expect dest
  | setRoot branch root =>
    change Agrees (c.attemptSetRoot branch root) (c.setRoot branch root)
    refine agrees_inPlace hkeyed branch (fun r r' h => ?_) fun r => ?_
    · obtain rfl := some.inj h
      exact ⟨rfl, rfl⟩
    · rfl
  | releaseId id =>
    have hreply : (c.releaseId id).reply = .ok .unit := by
      unfold releaseId
      dsimp only
      split_ifs <;> rfl
    change (_, _) = ((c.releaseId id).reply, _)
    rw [hreply]
    rfl
  | attachChild parentId forkEpoch childId => exact agrees_attachChild hkeyed forkEpoch
  | detachChild parentId forkEpoch => exact agrees_detachChild hkeyed forkEpoch
  | addArena branch arena =>
    refine agrees_inPlace hkeyed branch (fun r r' h => ?_) fun r => ?_
    · split_ifs at h
      obtain rfl := some.inj h
      exact ⟨rfl, rfl⟩
    · split_ifs <;> rfl
  | renewLease branch lease =>
    change Agrees (c.attemptRenewLease branch lease) (c.renewLease branch lease)
    refine agrees_inPlace hkeyed branch (fun r r' h => ?_) fun r => ?_
    · obtain rfl := some.inj h
      exact ⟨rfl, rfl⟩
    · rfl
  | chargeRowWrites branch n =>
    refine agrees_copied c branch fun r => ?_
    cases r.envelope with
    | none => rfl
    | some e =>
      dsimp only
      cases e.charge n <;> rfl

end

/-! ## What failed calls leave behind -/

/-- Nothing is left behind by the call if it fails: it is no fork, and does not change a record
before it appends it. -/
def TracelessFailure (c : LogBranchCatalog) : CatalogOp → Prop
  | .fork _ _ => False
  | .setRoot branch root => ∀ r, c.get branch = .ok r → r.rootPageId = root
  | .renewLease branch lease => ∀ r, c.get branch = .ok r → r.leaseDeadline = lease
  | .addArena branch arena => ∀ r, c.get branch = .ok r → arena ∈ r.arenas
  | .attachChild parentId _ _ => c.records[parentId]? = none
  | .detachChild parentId forkEpoch =>
    ∀ p, c.records[parentId]? = some p → (p.removeLiveChild forkEpoch).1 = false
  | _ => True

/-- A call that fails, refused or because its record cannot be appended, leaves every answer as it
was unless it is a fork or has changed a record in place by then. A fork has moved the clock; the
rest is as it was just if the parent could not be read. -/
theorem failed_call_leaves_answers (c : LogBranchCatalog) (op : CatalogOp) (fault : Option String)
    (e : FerroError) (hfailed : (c.call op fault).1 = .error e) :
    (SameAnswers (c.call op fault).2 c ↔ c.TracelessFailure op) ∧
    ∀ parent lease, op = .fork parent lease →
      ((c.call op fault).2 = c.tick ↔ ∃ e, c.get parent = .error e) := by
  have hkept (h : (c.call op fault).2 = c) : SameAnswers (c.call op fault).2 c := by
    rw [h]
    exact .refl c
  cases op with
  | nextEpoch => exact absurd hfailed (by simp [call, attempt, Attempt.finish])
  | releaseId id => exact absurd hfailed (by simp [call, attempt, Attempt.finish])
  | fork parent lease =>
    have hheld : (c.call (.fork parent lease) fault).2 = _ := attemptFork_failed hfailed
    refine ⟨iff_of_false (fun hsame => ?_) id, ?_⟩
    · have hclock : (c.call (.fork parent lease) fault).2.epoch = (c.epoch + 1) % 2 ^ 64 := by
        rw [hheld]
        cases c.get parent with
        | error e => rfl
        | ok p => exact epoch_takeId c.tick
      have hsameClock : (c.call (.fork parent lease) fault).2.epoch = c.epoch := hsame.currentEpoch
      omega
    · intro parent' lease' hop
      obtain ⟨rfl, rfl⟩ := CatalogOp.fork.inj hop
      rw [hheld]
      cases hget : c.get parent with
      | error e => exact iff_of_true rfl ⟨e, rfl⟩
      | ok p => exact iff_of_false (takeId_ne c.tick) (by simp)
  | reparent branch parent forkEpoch root =>
    exact ⟨iff_of_true (hkept (attemptCopied_failed hfailed)) trivial, by simp⟩
  | restrictEnvelope branch envelope =>
    exact ⟨iff_of_true (hkept (attemptCopied_failed hfailed)) trivial, by simp⟩
  | setState branch expect dest =>
    exact ⟨iff_of_true (hkept (attemptSetState_failed hfailed)) trivial, by simp⟩
  | setRoot branch root =>
    exact ⟨attemptSet_failed (fun r => by cases r; simp [eq_comm]) hfailed, by simp⟩
  | attachChild parentId forkEpoch childId =>
    exact ⟨attemptAttachChild_failed hfailed, by simp⟩
  | detachChild parentId forkEpoch => exact ⟨attemptDetachChild_failed hfailed, by simp⟩
  | addArena branch arena => exact ⟨attemptAddArena_failed hfailed, by simp⟩
  | renewLease branch lease =>
    exact ⟨attemptSet_failed (fun r => by cases r; simp [eq_comm]) hfailed, by simp⟩
  | chargeRowWrites branch n =>
    exact ⟨iff_of_true (hkept (attemptCopied_failed hfailed)) trivial, by simp⟩

theorem failed_call_leaves_answers_setState :
    let c := inMemory 0
    (c.call (.setState .trunk .live .quarantined) (some "disk full")).1 = .error (.io "disk full") ∧
      SameAnswers (c.call (.setState .trunk .live .quarantined) (some "disk full")).2 c :=
  ⟨rfl, (failed_call_leaves_answers _ _ _ (.io "disk full") rfl).1.mpr trivial⟩

/-- A fork of a quarantined branch is refused, and the slot it took is gone: the next fork makes
branch 3, not 2. A root that could not be appended is the root of the branch all the same. -/
theorem failed_call_leaves_traces :
    let c := ((inMemory 0).run [.fork .trunk 5, .setState ⟨1, 0⟩ .live .quarantined]).2
    (c.call (.fork ⟨1, 0⟩ 6) none).1.toOption.isNone ∧
    c.nextBranch = ⟨2, 0⟩ ∧ (c.call (.fork ⟨1, 0⟩ 6) none).2.nextBranch = ⟨3, 0⟩ ∧
    (c.call (.setRoot .trunk 9) (some "disk full")).1.toOption.isNone ∧
    (c.get .trunk).toOption.map BranchRecord.rootPageId = some 0 ∧
    ((c.call (.setRoot .trunk 9) (some "disk full")).2.get .trunk).toOption.map
      BranchRecord.rootPageId = some 9 := by
  decide +kernel

end LogBranchCatalog

end FerroDb.Branch
