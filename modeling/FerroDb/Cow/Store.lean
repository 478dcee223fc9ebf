import FerroDb.Cow.Chunker

/-!
# The page store, as an operation on a tree sees it

An operation keeps a journal of what to undo and of what to release once it has succeeded. The
store answers each call: it may fail at any of them, hand a page back to be written in place or as
a copy, and take any page that is not in use for a new one.
-/

namespace FerroDb.Cow

open Function (update)

inductive FerroError where
  | cow (msg : String)
  /-- A failure of the store beneath. -/
  | store (cause : ℕ)
  deriving DecidableEq

/-- A page in the pool. Its image stands for the bytes that the decoded page does not show, and
every write through a handle makes a new one. -/
structure Stored where
  page : Page
  image : ℕ
  deriving DecidableEq

def Stored.write (f : Stored) (p : Page) : Stored := ⟨p, f.image + 1⟩

/-- The answer of the store to one call. -/
structure Answer where
  error : Option FerroError
  /-- The page is private to the writing branch at its epoch. -/
  isPrivate : PageId → Bool
  /-- The writing branch owns the arena the page is in. -/
  ownedByWriter : PageId → Bool
  /-- The page taken for a new one. -/
  fresh : PageId
  /-- The page can be taken again at once when it is freed. -/
  released : PageId → Bool

structure WriteJournal where
  undo : List (PageId × Stored)
  retired : List PageId

structure State where
  pages : PageId → Option Stored
  journal : WriteJournal
  /-- The pages that have been freed. -/
  freed : List PageId
  /-- How the store answers its calls, and how many were made. -/
  answers : ℕ → Answer
  calls : ℕ
  /-- A merge has put entries under a leaf to which the tree does not lead for their keys. No
  operation reads this. -/
  strayed : Bool

abbrev M := ExceptT FerroError (StateM State)

namespace M

/-- One call to the store. -/
def call : M Answer := do
  let s ← get
  set { s with calls := s.calls + 1 }
  let a := s.answers s.calls
  match a.error with
  | some e => throw e
  | none => return a

/-- The page behind a handle, which is pinned. -/
def view (id : PageId) : M Page := do
  match (← get).pages id with
  | some f => return f.page
  | none => throw (.store id)

/-- Writes through a handle. -/
def write (id : PageId) (p : Page) : M Unit :=
  modify fun s => { s with pages := update s.pages id ((s.pages id).map (·.write p)) }

end M

open M

variable (id : PageId)

def readPage : M Page := do
  let _ ← call
  view id

def arenaFor : M Unit := do
  let _ ← call

/-- Takes a page that is not in use and formats it. -/
def allocInArena (p : Page) : M PageId := do
  let a ← call
  let s ← get
  if (s.pages a.fresh).isSome then throw (.store a.fresh)
  set { s with pages := update s.pages a.fresh (some ⟨p, 0⟩) }
  return a.fresh

def allocFor (p : Page) : M PageId := do
  arenaFor
  allocInArena p

/-- What the store hands out for a page that is to be written. -/
structure CowPage where
  pageId : PageId
  previousPageId : PageId
  copied : Bool
  retirePrevious : Bool

def cowPage : M CowPage := do
  let a ← call
  let p ← view id
  if a.isPrivate id then return ⟨id, id, false, false⟩
  let s ← get
  if (s.pages a.fresh).isSome then throw (.store a.fresh)
  set { s with pages := update s.pages a.fresh (some ⟨p, 0⟩) }
  return ⟨a.fresh, id, true, a.ownedByWriter id⟩

def freePage : M Unit := do
  let a ← call
  modify fun s => { s with
    freed := id :: s.freed
    pages := if a.released id then update s.pages id none else s.pages }

/-! ## The journal -/

/-- Keeps what a page held before the operation, so that it can be put back. -/
def record (cp : CowPage) : M Unit := do
  let s ← get
  if cp.copied || s.journal.undo.any (·.1 == cp.pageId) then return
  let _ ← call
  modify fun s =>
    match s.pages cp.pageId with
    | some f => { s with journal.undo := s.journal.undo ++ [(cp.pageId, f)] }
    | none => s

def retire : M Unit :=
  modify fun s => { s with journal.retired := s.journal.retired ++ [id] }

/-- Puts every recorded page back. -/
def rollback (undo : List (PageId × Stored)) (pages : PageId → Option Stored) :
    PageId → Option Stored :=
  undo.foldl (fun pages u => update pages u.1 (some u.2)) pages

/-- A page that may be written in place of the given one. -/
def shadow : M PageId := do
  let cp ← cowPage id
  record cp
  if cp.retirePrevious then retire cp.previousPageId
  return cp.pageId

/-- Frees pages one after another; that one of them could not be freed is passed over. -/
def freeRetired : List PageId → State → State
  | [], s => s
  | id :: ids, s => freeRetired ids ((freePage id).run s).2

/-- Runs an operation with a journal of its own, and releases or undoes afterwards. -/
def finish (body : M PageId) : M PageId := fun s =>
  match body { s with journal := ⟨[], []⟩ } with
  | (.ok root, s) => (.ok root, freeRetired s.journal.retired s)
  | (.error e, s) => (.error e, { s with pages := rollback s.journal.undo s.pages })

end FerroDb.Cow
