import FerroDb.Branch.Record

/-!
# The branch catalog kept in memory

`LogBranchCatalog` of `branch/catalog.rs`: a record for every slot, the slots that may be taken
again, and the operations of the catalog. Every operation says which record it appends to the log.
Rebuilding the catalog from the records of the log is here too. Appending does not fail.
-/

namespace FerroDb.Branch

open Std (TreeMap)

/-- The calls that change a catalog. -/
inductive CatalogOp where
  | nextEpoch
  | fork (parent : BranchId) (lease : ℕ)
  | reparent (branch parent : BranchId) (forkEpoch root : ℕ)
  | restrictEnvelope (branch : BranchId) (envelope : CapabilityEnvelope)
  | setState (branch : BranchId) (expect dest : BranchState)
  | setRoot (branch : BranchId) (root : ℕ)
  | releaseId (id : ℕ)
  | attachChild (parentId forkEpoch childId : ℕ)
  | detachChild (parentId forkEpoch : ℕ)
  | addArena (branch : BranchId) (arena : ℕ)
  | renewLease (branch : BranchId) (lease : ℕ)
  | chargeRowWrites (branch : BranchId) (n : ℕ)

/-- What a call returns. -/
inductive CatalogReply where
  | unit
  | epoch (e : ℕ)
  | record (r : BranchRecord)
  | removed (b : Bool)

structure LogBranchCatalog where
  records : TreeMap ℕ BranchRecord
  freeIds : List ℕ
  /-- How many records are live. -/
  live : ℕ
  epoch : ℕ
  nextId : ℕ

namespace LogBranchCatalog

/-- A call's reply, the catalog after it, and the record it appends to the log. -/
structure Outcome where
  reply : Except FerroError CatalogReply
  catalog : LogBranchCatalog
  appended : Option BranchRecord

def trunkLease : ℕ := 2 ^ 64 - 1

def isLive (r : BranchRecord) : Bool := r.state = .live

variable (c : LogBranchCatalog)

def install (r : BranchRecord) : LogBranchCatalog :=
  let wasLive := (c.records[r.branchId.id]?).any isLive
  { c with
    live :=
      if !wasLive && isLive r then c.live + 1
      else if wasLive && !isLive r then c.live - 1
      else c.live
    records := c.records.insert r.branchId.id r }

/-- Put back in place, with no change to the count. -/
def store (r : BranchRecord) : LogBranchCatalog :=
  { c with records := c.records.insert r.branchId.id r }

/-! ## Operations -/

def refused (e : FerroError) : Outcome := ⟨.error e, c, none⟩

def tick : LogBranchCatalog := { c with epoch := (c.epoch + 1) % 2 ^ 64 }

/-- The slot for a new branch, with its generation: one that was released, or a new one. -/
def takeId : BranchId × LogBranchCatalog :=
  match c.freeIds.getLast? with
  | some id =>
    (⟨id, ((c.records[id]?).map BranchRecord.generation).getD 0⟩,
      { c with freeIds := c.freeIds.dropLast })
  | none => (⟨c.nextId, 0⟩, { c with nextId := (c.nextId + 1) % 2 ^ 64 })

def fork (parent : BranchId) (lease : ℕ) : Outcome :=
  let c := c.tick
  match c.records[parent.id]? with
  | none => c.refused (BranchError.notFound parent).toError
  | some parentRec =>
    match parentRec.checkReadable parent with
    | .error e => c.refused e.toError
    | .ok _ =>
      let (childId, c) := c.takeId
      match parentRec.forkChild childId c.epoch lease with
      | .error e => c.refused e.toError
      | .ok child =>
        ⟨.ok (.record child), (c.install (parentRec.addLiveChild c.epoch)).install child,
          some child⟩

variable (branch : BranchId)

/-- What an operation on a branch does with its record: refuse, leave it, or replace it. -/
def withReadable
    (f : BranchRecord → Except FerroError (Option BranchRecord × CatalogReply)) : Outcome :=
  match c.records[branch.id]? with
  | none => c.refused (BranchError.notFound branch).toError
  | some r =>
    match r.checkReadable branch with
    | .error e => c.refused e.toError
    | .ok _ =>
      match f r with
      | .error e => c.refused e
      | .ok (none, reply) => ⟨.ok reply, c, none⟩
      | .ok (some r, reply) => ⟨.ok reply, c.install r, some r⟩

def reparent (branch parent : BranchId) (forkEpoch root : ℕ) : Outcome :=
  c.withReadable branch fun r =>
    match c.records[parent.id]? with
    | none => .error (BranchError.notFound parent).toError
    | some p =>
      let r := { r with
        parentId := some parent
        forkEpoch := forkEpoch
        depth := BranchRecord.below p.depth
        rootPageId := root }
      .ok (some r, .record r)

def restrictEnvelope (envelope : CapabilityEnvelope) :
    Outcome :=
  c.withReadable branch fun r =>
    match r.restrict envelope with
    | .error e => .error e.toError
    | .ok r => .ok (some r, .unit)

def setState (expect dest : BranchState) : Outcome :=
  match c.records[branch.id]? with
  | none => c.refused (BranchError.notFound branch).toError
  | some r =>
    if r.generation ≠ branch.generation then
      c.refused (BranchError.reaped branch r.generation).toError
    else if r.state ≠ expect then
      c.refused (BranchError.unexpectedState branch expect r.state).toError
    else if expect = dest then ⟨.ok .unit, c, none⟩
    else
      let r := if dest = .reaped then r.markReaped else { r with state := dest }
      ⟨.ok .unit, c.install r, some r⟩

def setRoot (root : ℕ) : Outcome :=
  c.withReadable branch fun r => .ok (some { r with rootPageId := root }, .unit)

def releaseId (id : ℕ) : Outcome :=
  let reusable := (c.records[id]?).any fun r => r.state = .reaped && r.liveChildren.isEmpty
  if id = 0 ∨ reusable = false ∨ id ∈ c.freeIds then ⟨.ok .unit, c, none⟩
  else ⟨.ok .unit, { c with freeIds := c.freeIds.orderedInsert (· ≤ ·) id }, none⟩

/-- Children are counted whatever the state of their parent. -/
def attachChild (parentId forkEpoch : ℕ) : Outcome :=
  match c.records[parentId]? with
  | none => c.refused (BranchError.notFound ⟨parentId, 0⟩).toError
  | some p =>
    let p := p.addLiveChild forkEpoch
    ⟨.ok .unit, c.store p, some p⟩

def detachChild (parentId forkEpoch : ℕ) : Outcome :=
  match c.records[parentId]? with
  | none => ⟨.ok (.removed false), c, none⟩
  | some p =>
    match p.removeLiveChild forkEpoch with
    | (true, p) => ⟨.ok (.removed true), c.store p, some p⟩
    | (false, _) => ⟨.ok (.removed false), c, none⟩

def addArena (arena : ℕ) : Outcome :=
  c.withReadable branch fun r =>
    if arena ∈ r.arenas then .ok (none, .unit)
    else .ok (some { r with arenas := r.arenas ++ [arena] }, .unit)

def renewLease (lease : ℕ) : Outcome :=
  c.withReadable branch fun r => .ok (some { r with leaseDeadline := lease }, .unit)

def chargeRowWrites (n : ℕ) : Outcome :=
  c.withReadable branch fun r =>
    match r.envelope with
    | none => .error (.constraint (s!"cannot charge {n} row-write(s) to {branchName branch}: it " ++
        "has no capability envelope"))
    | some e =>
      match e.charge n with
      | .error e => .error e.toError
      | .ok e => .ok (some { r with envelope := some e }, .unit)

def apply : CatalogOp → Outcome
  | .nextEpoch => ⟨.ok (.epoch c.tick.epoch), c.tick, none⟩
  | .fork parent lease => c.fork parent lease
  | .reparent branch parent forkEpoch root => c.reparent branch parent forkEpoch root
  | .restrictEnvelope branch envelope => c.restrictEnvelope branch envelope
  | .setState branch expect dest => c.setState branch expect dest
  | .setRoot branch root => c.setRoot branch root
  | .releaseId id => c.releaseId id
  | .attachChild parentId forkEpoch _ => c.attachChild parentId forkEpoch
  | .detachChild parentId forkEpoch => c.detachChild parentId forkEpoch
  | .addArena branch arena => c.addArena branch arena
  | .renewLease branch lease => c.renewLease branch lease
  | .chargeRowWrites branch n => c.chargeRowWrites branch n

end LogBranchCatalog

/-! ## Rebuilding the catalog -/

/-- What a record says of the shape of the tree of branches. -/
structure BranchNode where
  branchId : BranchId
  parentId : Option BranchId
  state : BranchState
  forkEpoch : ℕ
deriving DecidableEq

def BranchRecord.node (r : BranchRecord) : BranchNode :=
  ⟨r.branchId, r.parentId, r.state, r.forkEpoch⟩

def nodesOf (records : TreeMap ℕ BranchRecord) : TreeMap ℕ BranchNode :=
  records.map fun _ r => r.node

/-- Upwards through parents that were reaped themselves, to the first that is held already. -/
def climb (nodes : TreeMap ℕ BranchNode) : ℕ → Option BranchId → List ℕ → List ℕ
  | 0, _, holders => holders
  | _ + 1, none, holders => holders
  | fuel + 1, some want, holders =>
    match nodes[want.id]? with
    | some node =>
      if node.branchId = want ∧ node.state = .reaped ∧ want.id ∉ holders then
        climb nodes fuel node.parentId (want.id :: holders)
      else holders
    | none => holders

/-- The branches that count as children of their parents: those that were not reaped, and those of
whom one that was not reaped descends. -/
def parentEntryHolders (nodes : TreeMap ℕ BranchNode) : List ℕ :=
  nodes.toList.foldl (fun holders (id, node) =>
    if node.state = .reaped then holders
    else climb nodes (nodes.size + 1) node.parentId (holders.insert id)) []

/-- When the children of a slot were forked that count as such. -/
def derivedChildren (nodes : TreeMap ℕ BranchNode) (id : ℕ) : List ℕ :=
  let holders := parentEntryHolders nodes
  ((nodes.toList.filter fun (child, node) =>
    child ∈ holders ∧ node.parentId.map BranchId.id = some id).map (·.2.forkEpoch)).insertionSort
    (· ≤ ·)

def deriveLiveChildren (records : TreeMap ℕ BranchRecord) : TreeMap ℕ BranchRecord :=
  records.map fun id r => { r with liveChildren := derivedChildren (nodesOf records) id }

namespace LogBranchCatalog

/-- The last record of every slot, over the trunk that is always there. -/
def latest (trunkRoot : ℕ) (existing : List BranchRecord) : TreeMap ℕ BranchRecord :=
  existing.foldl (fun records r => records.insert r.branchId.id r)
    ((∅ : TreeMap ℕ BranchRecord).insert 0 (.trunk trunkRoot trunkLease))

/-- The catalog whose slots hold these records, as far as they say it. -/
def ofRecords (stored : TreeMap ℕ BranchRecord) : LogBranchCatalog :=
  let records := deriveLiveChildren stored
  let maxId := records.toList.foldl (fun m (id, _) => max m id) 0
  { records := records
    freeIds := (records.toList.filter fun (id, r) =>
      r.state = .reaped ∧ r.liveChildren = [] ∧ id ≠ 0).map Prod.fst
    live := (records.toList.filter fun (_, r) => isLive r).length
    epoch := records.toList.foldl
      (fun m (_, r) => max (max m r.forkEpoch) (r.liveChildren.getLast?.getD 0)) 0
    nextId := (maxId + 1) % 2 ^ 64 }

def index (trunkRoot : ℕ) (existing : List BranchRecord) : LogBranchCatalog :=
  ofRecords (latest trunkRoot existing)

end LogBranchCatalog

end FerroDb.Branch
