import FerroDb.Branch.Codec
import FerroDb.Branch.LogCatalog

/-!
# The branch catalog kept in a tree

`TableBranchCatalog` of `branch/table_catalog.rs`. Everything is an entry of one ordered tree, and
the first byte of a key says which family it is of (`branch/tree_keys.rs`): records, an index by
state and one by deadline, children by parent and epoch, released slots, envelopes and arenas. The
model keeps the families apart, each ordered as its keys are. The loop that looks for a live
descendant has no bound in the source; here it runs out of `fuel` and gives `none`.

The header of the tree is only read when it is opened, and is left out.
-/

namespace FerroDb.Branch

open Function (update)

/-! ## Core records -/

/-- A record without the fields that have families of their own. -/
structure CoreRecord where
  branchId : BranchId
  generation : ℕ
  parentId : Option BranchId
  forkEpoch : ℕ
  rootPageId : ℕ
  leaseDeadline : ℕ
  state : BranchState
  depth : ℕ

namespace CoreRecord

def narrow (r : BranchRecord) : CoreRecord where
  branchId := r.branchId
  generation := r.generation
  parentId := r.parentId
  forkEpoch := r.forkEpoch
  rootPageId := r.rootPageId
  leaseDeadline := r.leaseDeadline
  state := r.state
  depth := r.depth

/-- The children stay empty: nothing that reads a record from the tree looks at them. -/
def intoHydrated (core : CoreRecord) (arenas : List ℕ) (envelope : Option CapabilityEnvelope) :
    BranchRecord where
  branchId := core.branchId
  generation := core.generation
  parentId := core.parentId
  forkEpoch := core.forkEpoch
  rootPageId := core.rootPageId
  leaseDeadline := core.leaseDeadline
  state := core.state
  arenas := arenas
  liveChildren := []
  depth := core.depth
  envelope := envelope

def checkReadable (core : CoreRecord) (requested : BranchId) : Except BranchError Unit :=
  (core.intoHydrated [] none).checkReadable requested

end CoreRecord

def BranchRecord.forkChildFromCore (parent : CoreRecord) (envelope : Option CapabilityEnvelope)
    (childId : BranchId) (forkEpoch leaseDeadline : ℕ) : Except BranchError BranchRecord :=
  (parent.intoHydrated [] envelope).forkChild childId forkEpoch leaseDeadline

deriving instance DecidableEq for TableCapability
deriving instance DecidableEq for CapabilityEnvelope

/-! ## Entries -/

/-- `(PAGE_SIZE - LEAF_HEADER_SIZE) / 2`. -/
def maxEntryBytes : ℕ := (4096 - 27) / 2

/-- The key of an envelope: the family and the slot. -/
def envelopeKeyBytes : ℕ := 9

/-- A key and a value as they are stored, each behind its length. -/
def entryBytes (key value : ℕ) : ℕ := (4 + key) + (4 + value)

def admitEntry (key value : ℕ) : Except FerroError Unit :=
  if maxEntryBytes < entryBytes key value then
    .error (.constraint (s!"index entry too large: {entryBytes key value} bytes (key and value as " ++
      s!"stored) does not fit under the B+tree entry limit MAX_ENTRY_BYTES = {maxEntryBytes}, the " ++
      "largest size for which every leaf split can leave both halves under a 4096-byte page; " ++
      "shorten the indexed value"))
  else .ok ()

def admitEnvelope (e : CapabilityEnvelope) : Except FerroError Unit :=
  admitEntry envelopeKeyBytes e.serialize.length

structure DeadlineKey where
  millis : ℕ
  id : ℕ
deriving DecidableEq

namespace DeadlineKey

instance : Ord DeadlineKey := ⟨compareLex (compareOn millis) (compareOn id)⟩

instance : Std.TransOrd DeadlineKey :=
  inferInstanceAs (Std.TransCmp (compareLex (compareOn millis) (compareOn id)))

instance : Std.LawfulEqOrd DeadlineKey where
  eq_of_compare {a b} h := by
    have hc : (compare a.millis b.millis).then (compare a.id b.id) = .eq := h
    obtain ⟨hm, hi⟩ := Ordering.then_eq_eq.mp hc
    cases a
    cases b
    simp_all

end DeadlineKey

/-- A child of some parent: when it was forked, and its slot. -/
abbrev ChildEntry := ℕ × ℕ

/-- Put in by epoch. A parent lists an epoch once here. The tree keeps a second entry of one key
next to the first, and which of the two a removal finds depends on where its leaves were split;
no run that comes to a second entry is considered. -/
def insertEntry (entry : ChildEntry) : List ChildEntry → List ChildEntry
  | [] => [entry]
  | x :: xs => if x.1 < entry.1 then x :: insertEntry entry xs else entry :: x :: xs

/-- Whether there is an entry of an epoch, and the entries without it. -/
def removeEntry (epoch : ℕ) : List ChildEntry → Bool × List ChildEntry
  | [] => (false, [])
  | x :: xs =>
    if x.1 = epoch then (true, xs)
    else
      let (removed, xs) := removeEntry epoch xs
      (removed, x :: xs)

/-! ## The tree -/

structure TableBranchCatalog where
  records : Std.TreeMap ℕ CoreRecord
  states : BranchState → Std.TreeSet ℕ
  deadlines : Std.TreeSet DeadlineKey
  /-- The entries of a parent in ascending order of epochs. Their keys are in descending order. -/
  children : ℕ → List ChildEntry
  freeIds : Std.TreeSet ℕ
  envelopes : Std.TreeMap ℕ CapabilityEnvelope
  arenas : ℕ → Std.TreeSet ℕ
  nextId : ℕ
  epoch : ℕ

namespace TableBranchCatalog

/-- A call's reply, and the catalog after it. -/
structure Outcome where
  reply : Except FerroError CatalogReply
  catalog : TableBranchCatalog

def create (trunkRoot : ℕ) : TableBranchCatalog where
  records := (∅ : Std.TreeMap ℕ CoreRecord).insert 0
    (.narrow (.trunk trunkRoot LogBranchCatalog.trunkLease))
  states := update (fun _ => ∅) .live ((∅ : Std.TreeSet ℕ).insert 0)
  deadlines := ∅
  children := fun _ => []
  freeIds := ∅
  envelopes := ∅
  arenas := fun _ => ∅
  nextId := 1
  epoch := 0

variable (t : TableBranchCatalog)

def core (id : ℕ) : Option CoreRecord := t.records[id]?

/-- The record with the fields that have families of their own. -/
def hydrate (core : CoreRecord) : BranchRecord :=
  core.intoHydrated (t.arenas core.branchId.id).toList t.envelopes[core.branchId.id]?

def inDeadlineIndex (state : BranchState) (branchId : BranchId) : Bool :=
  state = .live && branchId.id ≠ 0

/-! ## Writing a record -/

inductive EnvelopeWrite where
  | unchanged
  | put (e : CapabilityEnvelope)
  | remove

variable (r : BranchRecord)

/-- An envelope that is stored already is not measured again. The source compares the bytes. -/
def envelopeWrite : Except FerroError EnvelopeWrite :=
  match r.envelope with
  | none => .ok .remove
  | some e =>
    if t.envelopes[r.branchId.id]? = some e then .ok .unchanged
    else (admitEnvelope e).map fun _ => .put e

/-- Take the entries of the indexes away that a record had. -/
def unindex (prev : CoreRecord) : TableBranchCatalog :=
  { t with
    states := update t.states prev.state ((t.states prev.state).erase prev.branchId.id)
    deadlines :=
      if inDeadlineIndex prev.state prev.branchId then
        t.deadlines.erase ⟨prev.leaseDeadline, prev.branchId.id⟩
      else t.deadlines }

/-- A record and its entries in the indexes. -/
def putRecord : TableBranchCatalog :=
  { t with
    records := t.records.insert r.branchId.id (.narrow r)
    states := update t.states r.state ((t.states r.state).insert r.branchId.id)
    deadlines :=
      if inDeadlineIndex r.state r.branchId then
        t.deadlines.insert ⟨r.leaseDeadline, r.branchId.id⟩
      else t.deadlines }

def putEnvelope (id : ℕ) (e : CapabilityEnvelope) : TableBranchCatalog :=
  { t with envelopes := t.envelopes.insert id e }

def writeEnvelope (id : ℕ) : EnvelopeWrite → TableBranchCatalog
  | .unchanged => t
  | .put e => t.putEnvelope id e
  | .remove => { t with envelopes := t.envelopes.erase id }

def putArena (id arena : ℕ) : TableBranchCatalog :=
  { t with arenas := update t.arenas id ((t.arenas id).insert arena) }

/-- Make the arenas of a slot those of the record. -/
def writeArenas (id : ℕ) (arenas : List ℕ) : TableBranchCatalog :=
  let kept := (t.arenas id).toList.foldl (fun s a => if a ∈ arenas then s else s.erase a)
    (t.arenas id)
  { t with arenas := update t.arenas id (arenas.foldl Std.TreeSet.insert kept) }

/-- A record in the place of `old`. -/
def writeRecord (old : Option CoreRecord) :
    Except FerroError TableBranchCatalog := do
  let write ← t.envelopeWrite r
  let t := old.elim t t.unindex
  return ((t.putRecord r).writeEnvelope r.branchId.id write).writeArenas r.branchId.id r.arenas

/-- The record of a slot that was never used. -/
def writeRecordNew :
    Except FerroError TableBranchCatalog :=
  match r.envelope with
  | none => .ok (t.putRecord r)
  | some e => (admitEnvelope e).map fun _ => (t.putRecord r).putEnvelope r.branchId.id e

/-! ## Live children -/

inductive ChildLiveness where
  | live
  | reapedWithSubtree (child : ℕ)

def danglingChild (parent epoch child : ℕ) : FerroError :=
  (BranchError.corrupt (s!"CHILD entry (parent {parent}, fork epoch {epoch}) names branch " ++
    s!"{child}, which has no record. Nothing ever deletes a record — retirement is a state flip " ++
    "to Reaped — and since D126 there is no rewrite window either: upsert replaces a value under " ++
    "one hold of the leaf latch, so an ordinary set_root/renew_lease/set_state no longer makes " ++
    "the key momentarily absent. What is left is a branch that was never published, or a corrupt " ++
    "entry. This refuses instead of resolving it to \"not a live child\", which would let the " ++
    "parent's pages be freed underneath a branch that may still be reading them. Refusing leaks " ++
    "at worst and is retryable; see D124/D126.")).toError

def childLiveness (parent : ℕ) (entry : ChildEntry) :
    Except FerroError ChildLiveness :=
  match t.core entry.2 with
  | some r => if r.state ≠ .reaped then .ok .live else .ok (.reapedWithSubtree entry.2)
  | none => .error (danglingChild parent entry.1 entry.2)

/-- The entries of a parent as they are scanned: the last epoch first. -/
def childrenOf (parent : ℕ) : List ChildEntry :=
  (t.children parent).reverse

/-- Look for a live one among some entries: `none` if there is, or else what is left to look at. -/
def scanEntries (t : TableBranchCatalog) (parent : ℕ) :
    List ChildEntry → List ℕ → Except FerroError (Option (List ℕ))
  | [], pending => .ok (some pending)
  | entry :: entries, pending =>
    match t.childLiveness parent entry with
    | .error e => .error e
    | .ok .live => .ok none
    | .ok (.reapedWithSubtree child) => scanEntries t parent entries (child :: pending)

def searchLive (t : TableBranchCatalog) : ℕ → List ℕ → Option (Except FerroError Bool)
  | _, [] => some (.ok false)
  | 0, _ :: _ => none
  | fuel + 1, id :: pending =>
    match t.scanEntries id (t.childrenOf id) pending with
    | .error e => some (.error e)
    | .ok none => some (.ok true)
    | .ok (some pending) => searchLive t fuel pending

def hasLiveChildren (fuel parent : ℕ) : Option (Except FerroError Bool) :=
  t.searchLive fuel [parent]

/-- Whether an entry counts: its branch was not reaped, or has live children. -/
def liveChildAt (fuel parent : ℕ) (entry : ChildEntry) :
    Option (Except FerroError Bool) :=
  match t.core entry.2 with
  | some r => if r.state ≠ .reaped then some (.ok true) else t.hasLiveChildren fuel entry.2
  | none => some (.error (danglingChild parent entry.1 entry.2))

/-- The first entry that counts. -/
def firstLive (t : TableBranchCatalog) (fuel parent : ℕ) :
    List ChildEntry → Option (Except FerroError (Option ℕ))
  | [] => some (.ok none)
  | entry :: entries =>
    match t.liveChildAt fuel parent entry with
    | none => none
    | some (.error e) => some (.error e)
    | some (.ok true) => some (.ok (some entry.1))
    | some (.ok false) => firstLive t fuel parent entries

/-! ## Queries -/

variable (branch : BranchId)

def get : Except FerroError BranchRecord :=
  match t.core branch.id with
  | none => .error (BranchError.notFound branch).toError
  | some r =>
    match r.checkReadable branch with
    | .error e => .error e.toError
    | .ok _ => .ok (t.hydrate r)

def getRaw (id : ℕ) : Except FerroError BranchRecord :=
  match t.core id with
  | none => .error (BranchError.notFound ⟨id, 0⟩).toError
  | some r => .ok (t.hydrate r)

/-- Every slot of the index, whatever the state of its record is by now. -/
def inState (state : BranchState) : List BranchRecord :=
  ((t.states state).toList.filterMap fun id => (t.core id).map t.hydrate).insertionSort
    fun a b => a.branchId.id ≤ b.branchId.id

def expiredBefore (now : ℕ) : List CoreRecord :=
  (((t.deadlines.toList.filter fun k => k.millis ≤ now).filterMap fun k => t.core k.id).filter
    fun r => inDeadlineIndex r.state r.branchId && r.leaseDeadline ≤ now).insertionSort
    fun a b => a.branchId.id ≤ b.branchId.id

def liveCount : ℕ := (t.states .live).size

def maxLiveChild (fuel parent : ℕ) :
    Option (Except FerroError (Option ℕ)) :=
  t.firstLive fuel parent (t.childrenOf parent)

def liveChildInEpochRange (fuel parent lo hi : ℕ) :
    Option (Except FerroError Bool) :=
  if hi ≤ lo then some (.ok false)
  else
    (t.firstLive fuel parent ((t.childrenOf parent).filter fun x => lo ≤ x.1 ∧ x.1 ≤ hi - 1)).map
      fun found => found.map Option.isSome

/-! ## Operations -/

def refused (e : FerroError) : Outcome := ⟨.error e, t⟩

def tick : TableBranchCatalog :=
  { t with epoch := (t.epoch + 1) % 2 ^ 64 }

/-- The record of a slot that may be taken again. -/
def reusableSlot (fuel id : ℕ) :
    Option (Except FerroError (Option CoreRecord)) :=
  match t.core id with
  | some r =>
    if r.state = .reaped then
      (t.hasLiveChildren fuel id).map fun found =>
        found.map fun live => if live then none else some r
    else some (.ok none)
  | none => some (.ok none)

/-- The first released slot that may be taken, and those before it that may not. -/
def firstReusable (t : TableBranchCatalog) (fuel : ℕ) :
    List ℕ → Option (Option (ℕ × CoreRecord) × List ℕ)
  | [] => some (none, [])
  | id :: ids =>
    match t.reusableSlot fuel id with
    | none => none
    | some (.ok (some r)) => some (some (id, r), [])
    | some _ => (firstReusable t fuel ids).map fun (found, stale) => (found, id :: stale)

def forgetFree (ids : List ℕ) : TableBranchCatalog :=
  { t with freeIds := ids.foldl Std.TreeSet.erase t.freeIds }

lemma forgetFree_nil : t.forgetFree [] = t := rfl

def insertChild (parent : ℕ) (entry : ChildEntry) : TableBranchCatalog :=
  { t with children := update t.children parent (insertEntry entry (t.children parent)) }

/-- The slot of a new branch with its generation, and the released slots that are not any more. -/
def takeId (found : Option (ℕ × CoreRecord)) :
    BranchId × TableBranchCatalog :=
  match found with
  | some (id, r) => (⟨id, r.generation⟩, t)
  | none => (⟨t.nextId, 0⟩, { t with nextId := (t.nextId + 1) % 2 ^ 64 })

def forkInto (parent : BranchId) (lease : ℕ) (parentCore : CoreRecord)
    (found : Option (ℕ × CoreRecord)) (stale : List ℕ) : Outcome :=
  let (childId, t) := t.takeId found
  match BranchRecord.forkChildFromCore parentCore t.envelopes[parent.id]? childId t.epoch lease with
  | .error e => t.refused e.toError
  | .ok child =>
    let t := t.forgetFree stale
    let t := if found.isSome then t.forgetFree [childId.id] else t
    match if found.isSome then t.writeRecord child none else t.writeRecordNew child with
    | .error e => t.refused e
    | .ok t => ⟨.ok (.record child), t.insertChild parent.id (t.epoch, childId.id)⟩

def fork (fuel : ℕ) (parent : BranchId) (lease : ℕ) : Option Outcome :=
  let t := t.tick
  match t.core parent.id with
  | none => some (t.refused (BranchError.notFound parent).toError)
  | some parentCore =>
    match parentCore.checkReadable parent with
    | .error e => some (t.refused e.toError)
    | .ok _ =>
      (t.firstReusable fuel t.freeIds.toList.reverse).map fun (found, stale) =>
        t.forkInto parent lease parentCore found stale

/-- What an operation on a branch does with its core record. -/
def withReadable
    (f : CoreRecord → Except FerroError (TableBranchCatalog × CatalogReply)) : Outcome :=
  match t.core branch.id with
  | none => t.refused (BranchError.notFound branch).toError
  | some r =>
    match r.checkReadable branch with
    | .error e => t.refused e.toError
    | .ok _ =>
      match f r with
      | .error e => t.refused e
      | .ok (t, reply) => ⟨.ok reply, t⟩

def reparent (branch parent : BranchId) (forkEpoch root : ℕ) : Outcome :=
  t.withReadable branch fun core =>
    match t.core parent.id with
    | none => .error (BranchError.notFound parent).toError
    | some p =>
      let r := { t.hydrate core with
        parentId := some parent
        forkEpoch := forkEpoch
        depth := BranchRecord.below p.depth
        rootPageId := root }
      (t.writeRecord r (some core)).map fun t => (t, .record r)

def restrictEnvelope (envelope : CapabilityEnvelope) : Outcome :=
  t.withReadable branch fun _ =>
    match restrict t.envelopes[branch.id]? envelope with
    | .error e => .error e.toError
    | .ok envelope =>
      (admitEnvelope envelope).map fun _ => (t.putEnvelope branch.id envelope, .unit)

def setState (expect dest : BranchState) : Outcome :=
  match t.core branch.id with
  | none => t.refused (BranchError.notFound branch).toError
  | some core =>
    if core.generation ≠ branch.generation then
      t.refused (BranchError.reaped branch core.generation).toError
    else if core.state ≠ expect then
      t.refused (BranchError.unexpectedState branch expect core.state).toError
    else if expect = dest then ⟨.ok .unit, t⟩
    else
      let r := t.hydrate core
      let r := if dest = .reaped then r.markReaped else { r with state := dest }
      match t.writeRecord r (some core) with
      | .error e => t.refused e
      | .ok t => ⟨.ok .unit, t⟩

def setRoot (root : ℕ) : Outcome :=
  t.withReadable branch fun core =>
    (t.writeRecord { t.hydrate core with rootPageId := root } (some core)).map (·, .unit)

def releaseId (fuel id : ℕ) : Option Outcome :=
  if id = 0 then some ⟨.ok .unit, t⟩
  else
    (t.reusableSlot fuel id).map fun
      | .ok (some _) => ⟨.ok .unit, { t with freeIds := t.freeIds.insert id }⟩
      | _ => ⟨.ok .unit, t⟩

/-- An entry of the same parent and epoch is replaced. -/
def attachChild (parentId forkEpoch childId : ℕ) : Outcome :=
  match t.core childId with
  | none => t.refused (BranchError.notFound ⟨childId, 0⟩).toError
  | some _ =>
    let others := (t.children parentId).filter fun x => x.1 ≠ forkEpoch
    ⟨.ok .unit, { t with
      children := update t.children parentId (insertEntry (forkEpoch, childId) others) }⟩

def detachChild (parentId forkEpoch : ℕ) : Outcome :=
  let (removed, others) := removeEntry forkEpoch (t.children parentId)
  ⟨.ok (.removed removed), { t with children := update t.children parentId others }⟩

def addArena (arena : ℕ) : Outcome :=
  t.withReadable branch fun _ => .ok (t.putArena branch.id arena, .unit)

def renewLease (lease : ℕ) : Outcome :=
  t.withReadable branch fun core =>
    (t.writeRecord { t.hydrate core with leaseDeadline := lease } (some core)).map (·, .unit)

def chargeRowWrites (n : ℕ) : Outcome :=
  t.withReadable branch fun _ =>
    match t.envelopes[branch.id]? with
    | none => .error (.branch (s!"{branchName branch} has no capability envelope; refusing to " ++
        s!"charge {n} row-writes against a policy that no longer exists"))
    | some e =>
      match e.charge n with
      | .error e => .error e.toError
      | .ok e => (admitEnvelope e).map fun _ => (t.putEnvelope branch.id e, .unit)

def apply (fuel : ℕ) : CatalogOp → Option Outcome
  | .nextEpoch => some ⟨.ok (.epoch t.tick.epoch), t.tick⟩
  | .fork parent lease => t.fork fuel parent lease
  | .reparent branch parent forkEpoch root => some (t.reparent branch parent forkEpoch root)
  | .restrictEnvelope branch envelope => some (t.restrictEnvelope branch envelope)
  | .setState branch expect dest => some (t.setState branch expect dest)
  | .setRoot branch root => some (t.setRoot branch root)
  | .releaseId id => t.releaseId fuel id
  | .attachChild parentId forkEpoch childId => some (t.attachChild parentId forkEpoch childId)
  | .detachChild parentId forkEpoch => some (t.detachChild parentId forkEpoch)
  | .addArena branch arena => some (t.addArena branch arena)
  | .renewLease branch lease => some (t.renewLease branch lease)
  | .chargeRowWrites branch n => some (t.chargeRowWrites branch n)

/-- The replies to some calls and the catalog after them. -/
def run (t : TableBranchCatalog) (fuel : ℕ) :
    List CatalogOp → Option (List (Except FerroError CatalogReply) × TableBranchCatalog)
  | [] => some ([], t)
  | op :: ops => do
    let o ← t.apply fuel op
    let (replies, t) ← o.catalog.run fuel ops
    return (o.reply :: replies, t)

end TableBranchCatalog

/-! ## The same queries of the catalog in memory -/

namespace LogBranchCatalog

def inMemory (trunkRoot : ℕ) : LogBranchCatalog where
  records := (∅ : Std.TreeMap ℕ BranchRecord).insert 0 (.trunk trunkRoot trunkLease)
  freeIds := []
  live := 1
  epoch := 0
  nextId := 1

variable (c : LogBranchCatalog)

def get (branch : BranchId) : Except FerroError BranchRecord :=
  match c.records[branch.id]? with
  | none => .error (BranchError.notFound branch).toError
  | some r =>
    match r.checkReadable branch with
    | .error e => .error e.toError
    | .ok _ => .ok r

def getRaw (id : ℕ) : Except FerroError BranchRecord :=
  match c.records[id]? with
  | none => .error (BranchError.notFound ⟨id, 0⟩).toError
  | some r => .ok r

def inState (state : BranchState) : List BranchRecord :=
  (c.records.toList.map Prod.snd).filter fun r => r.state = state

def expiredBefore (now : ℕ) : List CoreRecord :=
  ((c.records.toList.map Prod.snd).filter fun r =>
    r.state = .live && r.branchId.id ≠ 0 && r.leaseDeadline ≤ now).map CoreRecord.narrow

def liveCount : ℕ := c.live

def liveChildren (c : LogBranchCatalog) (parent : ℕ) : List ℕ :=
  (c.records[parent]?).elim [] BranchRecord.liveChildren

def maxLiveChild (parent : ℕ) : Option ℕ := (c.liveChildren parent).getLast?

def liveChildInEpochRange (parent lo hi : ℕ) : Bool :=
  (c.records[parent]?).any fun r => !reclaimable r.liveChildren lo hi

def hasLiveChildren (parent : ℕ) : Bool := !(c.liveChildren parent).isEmpty

/-- The replies to some calls and the catalog after them. -/
def run (c : LogBranchCatalog) :
    List CatalogOp → List (Except FerroError CatalogReply) × LogBranchCatalog
  | [] => ([], c)
  | op :: ops =>
    let o := c.apply op
    let (replies, c) := o.catalog.run ops
    (o.reply :: replies, c)

end LogBranchCatalog

end FerroDb.Branch
