import FerroDb.Cow.Store

/-!
# The copy-on-write tree

Lookup, insertion and deletion, as the code does them page by page. An operation descends to a
leaf, writes it in place or in a copy, and relinks the nodes above as far as the change reaches.
A leaf that does not end in a boundary any more takes over the entries of its right neighbour.
-/

namespace FerroDb.Cow.CowTree

open M

def maxDescent : ℕ := 64

/-- New right siblings of a node, each behind its separator. -/
abbrev Split := List (Key × PageId)

/-- The nodes passed on the way to a leaf, from the root on, with the slots taken. -/
abbrev DescentPath := List (PageId × Option ℕ)

def notANode (pid : PageId) (t : ForeignType) : FerroError :=
  .cow ("page " ++ toString pid ++ " is a " ++ t.name ++ ", not a btree node")

/-! ## Reading -/

def getLoop (key : Key) : ℕ → PageId → M (Option Value)
  | 0, _ => throw (.cow "btree descent exceeded the depth guard")
  | fuel + 1, pid => do
    match ← readPage pid with
    | .leaf es =>
      match search (keysOf es) key with
      | .found i => return (es.map (·.2))[i]?
      | .vacant _ => return none
    | .internal l es => getLoop key fuel (childAt l es (childSlotFor (keysOf es) key))
    | .foreign t => throw (notANode pid t)

variable (root : PageId)

variable (key : Key)

def get : M (Option Value) := getLoop key maxDescent root

def descendLoop (key : Key) : ℕ → PageId → M (DescentPath × PageId)
  | 0, _ => throw (.cow "btree descent exceeded the depth guard")
  | fuel + 1, pid => do
    match ← readPage pid with
    | .leaf _ => return ([], pid)
    | .internal l es =>
      let slot := childSlotFor (keysOf es) key
      let (path, leaf) ← descendLoop key fuel (childAt l es slot)
      return ((pid, slot) :: path, leaf)
    | .foreign t => throw (notANode pid t)

def descend : M (DescentPath × PageId) :=
  descendLoop key maxDescent root

def leftmostLeafLoop : ℕ → PageId → M PageId
  | 0, _ => throw (.cow "btree leftmost walk exceeded the depth guard")
  | fuel + 1, pid => do
    match ← readPage pid with
    | .leaf _ => return pid
    | p => leftmostLeafLoop fuel p.leftmost

def leftmostLeaf (pid : PageId) : M PageId := leftmostLeafLoop maxDescent pid

def rightNeighbourLoop : List (PageId × Option ℕ) → M (Option PageId)
  | [] => return none
  | (parent, slot) :: path => do
    let kids := (← readPage parent).allChildren
    match kids[childIndex slot + 1]? with
    | some kid => return some (← leftmostLeaf kid)
    | none => rightNeighbourLoop path

/-- The leaf after the one a path leads to. -/
def rightNeighbour (path : DescentPath) : M (Option PageId) := rightNeighbourLoop path.reverse

/-! ## Writing nodes -/

def create : M PageId := do
  arenaFor
  let id ← allocInArena (.leaf [])
  let _ ← readPage id
  write id (.leaf [])
  return id

/-- How many entries of the given sizes a page takes, one after another. -/
def fillCount (used : ℕ) : List ℕ → ℕ
  | [] => 0
  | s :: sizes => if used + s ≤ nodeCapacity then fillCount (used + s) sizes + 1 else 0

/-- Writes entries to a page one after another; those that no longer fit are an error. -/
def fillLeaf (id : PageId) (es : LeafEntries) : M Unit := do
  let n := fillCount 0 (es.map fun e => leafEntryBytes e.1 e.2)
  write id (.leaf (es.take n))
  if n < es.length then throw (.cow "leaf fill overflowed the page")

def fillInternal (id : PageId) (leftmost : PageId) (es : InternalEntries) : M Unit := do
  let n := fillCount 0 (es.map fun e => internalEntryBytes e.1)
  write id (.internal leftmost (es.take n))
  if n < es.length then throw (.cow "internal fill overflowed the page")

/-- Writes the entries from each cut to the next to a page of its own. -/
def writeRightLeaves (es : LeafEntries) : List ℕ → M Split
  | [] => return []
  | start :: cuts => do
    let id ← allocFor (.leaf [])
    let _ ← readPage id
    fillLeaf id (slice es start (cuts.headD es.length))
    let promoted ← writeRightLeaves es cuts
    return (successorOf ((keysOf es).getD (start - 1) []), id) :: promoted

variable (es : LeafEntries)

/-- The last entry is no boundary. -/
def unterminated : Bool :=
  match es.getLast? with
  | some (k, v) => !isBoundary k v
  | none => false

def leafCutsOf : List ℕ :=
  leafCuts (es.map cuttable) nodeCapacity

/-- Writes entries to a leaf and, where they have to be cut, to new leaves on its right. -/
def writeLeafChunked (h : PageId) (es : LeafEntries) : M (Split × Bool) := do
  match leafCutsOf es with
  | [] =>
    fillLeaf h es
    return ([], unterminated es)
  | cut :: cuts =>
    let promoted ← writeRightLeaves es (cut :: cuts)
    fillLeaf h (es.take cut)
    return (promoted, unterminated es)

/-- Whether a leaf page takes a value for a key: an old cell is not given up before the new one
is written. -/
def leafFits (key : Key) (value : Value) : Bool :=
  match search (keysOf es) key with
  | .found _ => leafBytes es + leafCellBytes key value ≤ nodeCapacity
  | .vacant _ => leafBytes es + leafEntryBytes key value ≤ nodeCapacity

/-- Putting the entry made a boundary stand before the end of the leaf. -/
def interiorBoundary (pos : ℕ) (key : Key) (value : Value) : Bool :=
  if pos == es.length - 1 then
    match es[es.length - 2]? with
    | some (k, v) => 2 ≤ es.length && isBoundary k v
    | none => false
  else isBoundary key value

/-- Puts a value for a key into a leaf. -/
def leafPut (h : PageId) (key : Key) (value : Value) : M (Split × Bool) := do
  let es := (← view h).leafEntries
  let put := putEntry es key value
  if leafFits es key value then
    write h (.leaf put)
    if interiorBoundary put (search (keysOf es) key).index key value then
      writeLeafChunked h put
    else return ([], unterminated put)
  else
    -- the refused cell has made the page compact itself
    write h (.leaf es)
    writeLeafChunked h put

/-- Places new children one after another as long as the page takes them. -/
def place (es : InternalEntries) (pos : ℕ) : Split → InternalEntries × Split
  | [] => (es, [])
  | p :: ps =>
    if internalBytes es + internalEntryBytes p.1 ≤ nodeCapacity then
      place (es.insertIdx pos p) (pos + 1) ps
    else (es, p :: ps)

/-- Places the remaining children without asking the page. -/
def placeRest (es : InternalEntries) (pos : ℕ) : Split → InternalEntries
  | [] => es
  | p :: ps => placeRest (es.insertIdx pos p) (pos + 1) ps

/-- Writes the children behind each cut to a node of its own, of which the cut is the leftmost. -/
def writeRightNodes (es : InternalEntries) : List ℕ → M Split
  | [] => return []
  | s :: cuts => do
    let id ← allocFor (.internal 0 [])
    let _ ← readPage id
    match es[s]? with
    | none => throw (.cow ("node slot " ++ toString s ++ " out of range"))
    | some (key, child) =>
      fillInternal id child (slice es (s + 1) (cuts.headD es.length))
      let promoted ← writeRightNodes es cuts
      return (key, id) :: promoted

/-- Points a slot of a node to a child and adds new children on its right, splitting the node if
it has to. -/
def internalRelink (h : PageId) (slot : Option ℕ) (child : PageId) (promoted : Split) :
    M Split := do
  let pos := childIndex slot
  if promoted.any fun p => decide (maxEntryBytes < internalEntryBytes p.1) then
    throw (.cow "separator key is too large for a 4KB page")
  let (leftmost, es) := (← view h).setChild child slot
  if promoted.isEmpty then
    write h (.internal leftmost es)
    return []
  match place es pos promoted with
  | (es, []) =>
    write h (.internal leftmost es)
    return []
  | (es, rest) =>
    write h (.internal leftmost es)
    let es := placeRest es (pos + (promoted.length - rest.length)) rest
    match balancedCuts nodeCapacity es.length (es.map fun e => internalEntryBytes e.1) 0 with
    | [] =>
      fillInternal h leftmost es
      return []
    | cut :: cuts =>
      let out ← writeRightNodes es (cut :: cuts)
      fillInternal h leftmost (es.take cut)
      return out

/-! ## Relinking and unlinking -/

/-- Carries a change of a child up a path, the nearest parent first. -/
def relinkLoop (root : PageId) :
    List (PageId × Option ℕ) → PageId → PageId → Split → M PageId
  | [], childOld, childNew, promoted => do
    if promoted.isEmpty then
      return if childNew == childOld then root else childNew
    arenaFor
    let newRoot ← allocInArena (.internal 0 [])
    let _ ← readPage newRoot
    fillInternal newRoot childNew promoted
    return newRoot
  | (parent, slot) :: path, childOld, childNew, promoted => do
    if childNew == childOld && promoted.isEmpty then return root
    let newParent ← shadow parent
    let promoted ← internalRelink newParent slot childNew promoted
    relinkLoop root path parent newParent promoted

def relinkUp (path : DescentPath) (childOld childNew : PageId) (promoted : Split) :
    M PageId :=
  relinkLoop root path.reverse childOld childNew promoted

/-- Takes a child out of its parent, and the parent out of its own if it is left without any. -/
def unlinkLoop (root : PageId) : List (PageId × Option ℕ) → PageId → M PageId
  | [], doomed => do
    retire doomed
    create
  | (parent, slot) :: path, doomed => do
    let newParent ← shadow parent
    let p ← view newParent
    match slot, p.internalEntries with
    | some i, es =>
      write newParent (.internal p.leftmost (es.eraseIdx i))
      retire doomed
      relinkLoop root path parent newParent []
    | none, (_, next) :: es =>
      write newParent (.internal next es)
      retire doomed
      relinkLoop root path parent newParent []
    | none, [] =>
      write newParent p
      retire doomed
      unlinkLoop root path newParent

def unlinkUp (path : DescentPath) (doomed : PageId) : M PageId :=
  unlinkLoop root path.reverse doomed

/-! ## The operations -/

/-- A key takes the slots of a path. -/
def takes (pages : PageId → Option Stored) (path : DescentPath) (key : Key) : Bool :=
  path.all fun step =>
    match (pages step.1).map Stored.page with
    | some (.internal _ es) => childSlotFor (keysOf es) key == step.2
    | _ => false

/-- Notes whether the tree leads to a leaf for the keys of entries that are about to be put
there. -/
def noteStray (path : DescentPath) (es : LeafEntries) : M Unit :=
  modify fun s => { s with strayed := s.strayed || !es.all fun e => takes s.pages path e.1 }

/-- Moves the entries of the right neighbour of a leaf into it. -/
def mergeRight (keyInLeft : Key) : M PageId := do
  let (pathL, _) ← descend root keyInLeft
  match ← rightNeighbour pathL with
  | none => return root
  | some r =>
    let rEntries := (← readPage r).leafEntries
    match rEntries.head? with
    | none => return root
    | some (rFirst, _) =>
      let (pathR, rLive) ← descend root rFirst
      let rShadow ← shadow rLive
      let root ← unlinkUp root pathR rShadow
      let (pathL, lLive) ← descend root keyInLeft
      noteStray pathL rEntries
      let lShadow ← shadow lLive
      let merged := (← view lShadow).leafEntries ++ rEntries
      let (promoted, _) ← writeLeafChunked lShadow merged
      relinkUp root pathL lLive lShadow promoted

def checkEntry (value : Value) : Except FerroError Unit :=
  if maxEntryBytes < leafEntryBytes key value then
    .error (.cow ("entry of " ++ toString (leafEntryBytes key value) ++ " bytes exceeds the " ++
      toString maxEntryBytes ++ "-byte limit for a 4KB page"))
  else if maxKeyBytes < key.length then
    .error (.cow ("key of " ++ toString key.length ++ " bytes exceeds the " ++
      toString maxKeyBytes ++ "-byte key limit: its separator would need " ++
      toString (separatorEntryBytes key) ++ " of the " ++ toString maxEntryBytes ++
      " bytes an internal entry may use"))
  else .ok ()

def insertWithin (value : Value) : M PageId := do
  checkEntry key value
  let (path, leaf) ← descend root key
  let newLeaf ← shadow leaf
  let (split, isOpen) ← leafPut newLeaf key value
  let root ← relinkUp root path leaf newLeaf split
  if isOpen then mergeRight root key
  else return root

def insert (value : Value) : M PageId :=
  finish (insertWithin root key value)

def deleteWithin : M PageId := do
  let (path, leaf) ← descend root key
  match search (keysOf (← readPage leaf).leafEntries) key with
  | .vacant _ => return root
  | .found _ =>
    let newLeaf ← shadow leaf
    let es := (← view newLeaf).leafEntries
    let es := match search (keysOf es) key with
      | .found i => es.eraseIdx i
      | .vacant _ => es
    write newLeaf (.leaf es)
    match es with
    | [] =>
      if path.isEmpty then relinkUp root path leaf newLeaf []
      else unlinkUp root path newLeaf
    | (firstKey, _) :: _ =>
      let root ← relinkUp root path leaf newLeaf []
      if unterminated es then mergeRight root firstKey
      else return root

def delete : M PageId := finish (deleteWithin root key)

end FerroDb.Cow.CowTree
