import FerroDb.Catalog
import FerroDb.Library.ByteMap
import Mathlib.Data.List.Sort

/-!
# The page allocator

Pages of the data file are handed out from a chain of bitmap pages that starts at page 0, after
`storage/disk_manager.rs`. The k-th bitmap page of the chain describes the k-th run of
`bitsPerBitmap` page ids, one bit for each. Reserved regions belong to other stores.

Reads and writes do not fail; a page beyond the end of the file cannot be read. A walk along a
chain that comes back to one of its pages never ends, and has no result here.
-/

namespace FerroDb.Storage

open Library Function

def pageSize : ℕ := 4096

def bitsPerBitmap : ℕ := (pageSize - 4) * 8

def u32Max : ℕ := 2 ^ 32 - 1

abbrev Page := ByteMap

/-- The data file. Pages that were never written are zero. -/
structure PageFile where
  len : ℕ
  page : ℕ → Page

namespace PageFile

def empty : PageFile := ⟨0, fun _ => ByteMap.zeros⟩

def read (f : PageFile) (pageId : ℕ) : Except FerroError Page :=
  if pageId < f.len then .ok (f.page pageId)
  else .error (.io "eof before finished reading")

def write (f : PageFile) (pageId : ℕ) (data : Page) : PageFile :=
  ⟨max f.len (pageId + 1), update f.page pageId data⟩

end PageFile

/-! ## Reserved regions -/

structure Region where
  name : String
  lo : ℕ
  hi : ℕ
deriving DecidableEq

namespace Region

def contains (r : Region) (page : ℕ) : Bool := r.lo ≤ page && page < r.hi

def overlaps (r : Region) (lo hi : ℕ) : Bool := lo < r.hi && r.lo < hi

/-- The region has a claim to `pos` or to the page after it. -/
def blocks (r : Region) (pos : ℕ) : Bool := r.contains pos || r.contains (min (pos + 1) u32Max)

end Region

def advancePastRegionsLoop (regions : List Region) : ℕ → ℕ → Except Region ℕ
  | 0, pos =>
    .error ((regions.find? (·.blocks pos)).getD ⟨"unknown", pos, min (pos + 1) u32Max⟩)
  | n + 1, pos =>
    match regions.find? (·.blocks pos) with
    | none => .ok pos
    | some r => if r.hi = u32Max then .error r else advancePastRegionsLoop regions n r.hi

/-- The first place from `pos` on where two pages in a row belong to no region. -/
def advancePastRegions (regions : List Region) (pos : ℕ) : Except Region ℕ :=
  advancePastRegionsLoop regions (regions.length + 1) pos

structure DiskManager where
  nextPageId : ℕ
  storage : PageFile
  regions : List Region

namespace DiskManager

def withStorage (f : PageFile) : DiskManager :=
  if f.len = 0 then ⟨1, f.write 0 (update ByteMap.zeros 4 1), []⟩
  else ⟨f.len % 2 ^ 32, f, []⟩

variable (d : DiskManager)

def reserveRegion (name : String) (lo hi : ℕ) :
    Except FerroError Unit × DiskManager :=
  if hi ≤ lo then
    (.error (.io s!"region '{name}' is empty or inverted: [{lo}, {hi})"), d)
  else if d.regions.any fun r => r.lo = lo ∧ r.hi = hi then (.ok (), d)
  else
    match d.regions.find? (·.overlaps lo hi) with
    | some clash =>
      (.error (.io (s!"page region [{clash.lo}, {clash.hi}) is already reserved by " ++
        s!"'{clash.name}'; the region '{name}' [{lo}, {hi}) overlaps it, and regions must be " ++
        "disjoint - moving an existing one would put pages it already owns back into " ++
        "circulation")), d)
    | none =>
      (.ok (), { d with regions :=
        (d.regions ++ [Region.mk name lo hi]).insertionSort fun a b => a.lo ≤ b.lo })

def regionContaining (page : ℕ) : Option Region :=
  d.regions.find? (·.contains page)

/-! ## Bitmap pages -/

variable (page : Page)

/-- The page after this one in the chain, or 0. -/
def nextBitmap : ℕ := page.u32

def slotSet (slot : ℕ) : Bool :=
  page (slot / 8 + 4) &&& ((1#8) <<< (slot % 8)) != 0

def setSlot (slot : ℕ) : Page := page.setBit (slot / 8 + 4) (slot % 8)

def clearSlot (slot : ℕ) : Page := page.clearBit (slot / 8 + 4) (slot % 8)

/-- The ids of the bitmap pages, in the order of the chain. -/
def bitmapPagesLoop (f : PageFile) : ℕ → ℕ → List ℕ
  | 0, _ => []
  | fuel + 1, current =>
    let next := nextBitmap (f.page current)
    current :: if next = 0 then [] else bitmapPagesLoop f fuel next

def bitmapPages : List ℕ := bitmapPagesLoop d.storage d.storage.len 0

def highestSlot : Option ℕ :=
  (List.range bitsPerBitmap).reverse.find? (slotSet page)

/-- The highest page marked so far, with this bitmap page looked at. -/
def noteHighest (offset : ℕ) (highest : Option ℕ) : Option ℕ :=
  match highestSlot page with
  | some slot => some ((offset + slot) % 2 ^ 32)
  | none => highest

def highWaterLoop (f : PageFile) :
    ℕ → ℕ → ℕ → Option ℕ → Option (Except FerroError (Option ℕ))
  | 0, _, _, _ => none
  | fuel + 1, current, offset, highest =>
    match f.read current with
    | .error e => some (.error e)
    | .ok page =>
      let highest := noteHighest page offset highest
      let next := nextBitmap page
      if next = 0 then some (.ok highest)
      else highWaterLoop f fuel next ((offset + bitsPerBitmap) % 2 ^ 32) highest

/-- One past the highest page any bitmap marks. -/
def scanBitmapHighWater : Option (Except FerroError ℕ) :=
  (highWaterLoop d.storage d.storage.len 0 0 none).map fun highest =>
    highest.map fun h => (h.map fun h => (h + 1) % 2 ^ 32).getD 0

/-! ## Handing out -/

def arenaFloorExhausted (what : String) (floor : ℕ) : FerroError :=
  .io (s!"{what} the reserved arena region at page {floor}. Ordinary tables occupy [0, {floor}) " ++
    s!"and the copy-on-write branch arena owns everything from {floor} up, so the table region " ++
    "is full even though the file can still grow.\n" ++
    "This floor was fixed when the database was created and is stored in the arena checkpoint: " ++
    "raising FERRODB_ARENA_HEADROOM now will NOT move it, because pages at or above " ++
    s!"{floor} are already owned by the arena and re-issuing them would corrupt live " ++
    "branches.\nTo get more table space, create a new database with a larger " ++
    "FERRODB_ARENA_HEADROOM and copy the data across.")

/-- What the scan makes of a slot of a bitmap page: a page to hand out, with the bitmap that marks
it, a reason to stop, or nothing. -/
def trySlot (regions : List Region) (page : Page) (offset slot : ℕ) :
    Option (Except FerroError (ℕ × Page)) :=
  if slotSet page slot then none
  else
    let candidate := (offset + slot) % 2 ^ 32
    match regions.find? (·.contains candidate) with
    | some r =>
      if r.hi = u32Max then some (.error (arenaFloorExhausted "no free page below" r.lo)) else none
    | none => some (.ok (candidate, setSlot page slot))

def scanBitmap (regions : List Region) (page : Page) (offset : ℕ) :
    Option (Except FerroError (ℕ × Page)) :=
  (List.range' 4 (pageSize - 4)).findSome? fun byteIndex =>
    if page byteIndex ≠ 0xFF then
      (List.range 8).findSome? fun bitIndex =>
        trySlot regions page offset ((byteIndex - 4) * 8 + bitIndex)
    else none

/-- Adds a bitmap page to the chain, behind `current`, and hands out the page after it. -/
def grow (d : DiskManager) (current : ℕ) (page : Page) :
    Option (Except FerroError ℕ × DiskManager) :=
  match d.scanBitmapHighWater with
  | none => none
  | some (.error e) => some (.error e, d)
  | some (.ok highWater) =>
    match advancePastRegions d.regions (max highWater d.nextPageId) with
    | .error r => some (.error (arenaFloorExhausted "cannot grow the bitmap past" r.lo), d)
    | .ok growBase =>
      let newBitmapId := growBase
      let pageId := (growBase + 1) % 2 ^ 32
      let newBitmap := setSlot (setSlot ByteMap.zeros (newBitmapId % bitsPerBitmap))
        (pageId % bitsPerBitmap)
      some (.ok pageId, { d with
        nextPageId := max d.nextPageId ((pageId + 1) % 2 ^ 32)
        storage := (d.storage.write current (page.putU32 newBitmapId)).write newBitmapId
          newBitmap })

def allocateLoop (d : DiskManager) : ℕ → ℕ → ℕ → Option (Except FerroError ℕ × DiskManager)
  | 0, _, _ => none
  | fuel + 1, current, offset =>
    match d.storage.read current with
    | .error e => some (.error e, d)
    | .ok page =>
      match scanBitmap d.regions page offset with
      | some (.error e) => some (.error e, d)
      | some (.ok (candidate, page)) =>
        some (.ok candidate, { d with storage := d.storage.write current page })
      | none =>
        let next := nextBitmap page
        if next ≠ 0 then allocateLoop d fuel next ((offset + bitsPerBitmap) % 2 ^ 32)
        else d.grow current page

/-- The id of a page for the caller, or an error; nothing if the bitmap chain has no end. -/
def allocate : Option (Except FerroError ℕ × DiskManager) :=
  d.allocateLoop d.storage.len 0 0

/-! ## Taking back -/

/-- Follows the chain for a number of bitmap pages. -/
def jump (f : PageFile) : ℕ → ℕ → Page → Except FerroError (ℕ × Page)
  | 0, current, page => .ok (current, page)
  | n + 1, _, page =>
    let next := nextBitmap page
    if next = 0 then .error (.io "can't deallocate an unmapped page")
    else
      match f.read next with
      | .error e => .error e
      | .ok page => jump f n next page

def notOurs (pageId : ℕ) (r : Region) : FerroError :=
  .io (s!"page {pageId} is inside the reserved '{r.name}' region [{r.lo}, {r.hi}) and is not " ++
    "this allocator's to free")

def deallocate (pageId : ℕ) : Except FerroError Unit × DiskManager :=
  match d.regionContaining pageId with
  | some r => (.error (notOurs pageId r), d)
  | none =>
    match d.storage.read 0 with
    | .error e => (.error e, d)
    | .ok page =>
      match jump d.storage (pageId / bitsPerBitmap) 0 page with
      | .error e => (.error e, d)
      | .ok (current, page) =>
        (.ok (), { d with
          storage := d.storage.write current (clearSlot page (pageId % bitsPerBitmap)) })

/-- The slots to clear, by the bitmap page they are in. -/
def groupByBitmap (pageIds : List ℕ) :
    Except FerroError (Std.TreeMap ℕ (List ℕ)) :=
  pageIds.foldlM (fun byBitmap pageId =>
    match d.regionContaining pageId with
    | some r => .error (notOurs pageId r)
    | none => .ok (byBitmap.insert (pageId / bitsPerBitmap)
        (byBitmap.getD (pageId / bitsPerBitmap) [] ++ [pageId % bitsPerBitmap]))) ∅

/-- The bitmap pages with the slots cleared, each with its id. -/
def clearedImages (f : PageFile) : ℕ → ℕ → Page → List (ℕ × List ℕ) →
    Except FerroError (List (ℕ × Page))
  | _, _, _, [] => .ok []
  | current, index, page, (bitmapIndex, slots) :: rest =>
    match jump f (bitmapIndex - index) current page with
    | .error e => .error e
    | .ok (current, page) =>
      match clearedImages f current (max index bitmapIndex) page rest with
      | .error e => .error e
      | .ok images => .ok ((current, slots.foldl clearSlot page) :: images)

def deallocateMany (pageIds : List ℕ) : Except FerroError Unit × DiskManager :=
  if pageIds = [] then (.ok (), d)
  else
    match d.groupByBitmap pageIds with
    | .error e => (.error e, d)
    | .ok byBitmap =>
      match d.storage.read 0 with
      | .error e => (.error e, d)
      | .ok page =>
        match clearedImages d.storage 0 0 page byBitmap.toList with
        | .error e => (.error e, d)
        | .ok images =>
          (.ok (), { d with
            storage := images.foldl (fun f image => f.write image.1 image.2) d.storage })

end DiskManager

/-! ## Histories -/

/-- What the callers of the allocator do. -/
inductive DiskEvent where
  | reserveRegion (name : String) (lo hi : UInt32)
  | allocate
  | deallocate (pageId : ℕ)
  | deallocateMany (pageIds : List ℕ)
  | write (pageId : ℕ) (data : Page)
  | reopen

/-- The allocator, and the pages that were handed out and not taken back. -/
structure DiskWorld where
  disk : DiskManager
  allocated : List ℕ

namespace DiskWorld

def start : DiskWorld := ⟨.withStorage .empty, []⟩

/-- Only pages that are allocated are written and given back. -/
def step (w : DiskWorld) : DiskEvent → DiskWorld
  | .reserveRegion name lo hi => { w with disk := (w.disk.reserveRegion name lo.toNat hi.toNat).2 }
  | .allocate =>
    match w.disk.allocate with
    | some (.ok p, disk) => ⟨disk, p :: w.allocated⟩
    | some (.error _, disk) => { w with disk := disk }
    | none => w
  | .deallocate p =>
    if p ∈ w.allocated then
      match w.disk.deallocate p with
      | (.ok _, disk) => ⟨disk, w.allocated.filter (· ≠ p)⟩
      | (.error _, disk) => { w with disk := disk }
    else w
  | .deallocateMany ps =>
    if ∀ p ∈ ps, p ∈ w.allocated then
      match w.disk.deallocateMany ps with
      | (.ok _, disk) => ⟨disk, w.allocated.filter (· ∉ ps)⟩
      | (.error _, disk) => { w with disk := disk }
    else w
  | .write p data =>
    if p ∈ w.allocated then
      { w with disk := { w.disk with storage := w.disk.storage.write p data } }
    else w
  | .reopen => { w with disk := .withStorage w.disk.storage }

def after (events : List DiskEvent) : DiskWorld := events.foldl step start

end DiskWorld

end FerroDb.Storage
