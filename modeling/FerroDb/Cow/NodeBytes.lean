import FerroDb.Cluster.Digest
import FerroDb.Cow.Store
import FerroDb.Library.Fallible

/-!
# Reading the bytes of a node

The read accessors of a node over the bytes of its page, which may be any bytes at all, after the
first half of `cow/node.rs`. Indexing outside a slice panics, and a panic is told apart from an
error that is returned. How many slots there are is read from the page.

## Main definitions

* `Node.slot`, `Node.search` — the accessors everything else goes through.
* `Node.ReadsSafely` — no accessor panics, whatever its argument.
-/

namespace FerroDb.Cow

open Cluster (ofBeBytes)
open Library List Except

/-- How reading ends that does not give a value. -/
inductive Fault where
  | error (e : FerroError)
  | panic
  deriving DecidableEq

abbrev Checked := Except Fault

def refuse {α : Type} (msg : String) : Checked α := .error (.error (.cow msg))

/-- `&bytes[s..e]` -/
def indexed (bytes : List UInt8) (s e : ℕ) : Checked (List UInt8) :=
  if s ≤ e ∧ e ≤ bytes.length then .ok (slice bytes s e) else .error .panic

/-- A `u32` at a position. -/
def u32At (bytes : List UInt8) (i : ℕ) : Checked ℕ := (indexed bytes i (i + 4)).map ofBeBytes

def cellKey (cell : List UInt8) : Checked Key := do
  if cell.length < 4 then refuse "truncated node cell" else
  let klen ← u32At cell 0
  if 4 + klen ≤ cell.length then return slice cell 4 (4 + klen)
  else refuse "node cell key overruns cell"

def cellRest (cell : List UInt8) : Checked (List UInt8) := do
  if cell.length < 4 then refuse "truncated node cell" else
  let klen ← u32At cell 0
  if 4 + klen ≤ cell.length then return cell.drop (4 + klen)
  else refuse "node cell body overruns cell"

/-- A page of 4096 bytes behind its header. -/
structure Node where
  payload : List UInt8
  length_payload : payload.length = payloadLen

namespace Node

/-- `Node::new` -/
def ofPage (page : List UInt8) (h : page.length = pageSize) : Node :=
  ⟨page.drop pageHeaderSize, by simp [h, payloadLen]⟩

variable (n : Node)

/-! ## Accessors -/

def count : Checked ℕ := u32At n.payload 0

def leftmost : Checked PageId := u32At n.payload 8

/-- Where the cell of a slot begins, and its length. -/
def slot (i : ℕ) : Checked (ℕ × ℕ) := do
  if (← n.count) ≤ i then refuse s!"node slot {i} out of range" else
  let off ← u32At n.payload (slotBase + i * slotSize)
  let len ← u32At n.payload (slotBase + i * slotSize + 4)
  if payloadLen < off + len then refuse "node cell overruns the page" else return (off, len)

def cell (i : ℕ) : Checked (List UInt8) := do
  let (off, len) ← n.slot i
  indexed n.payload off (off + len)

def key (i : ℕ) : Checked Key := do cellKey (← n.cell i)

def value (i : ℕ) : Checked Value := do cellRest (← n.cell i)

def child (i : ℕ) : Checked PageId := do
  let rest ← cellRest (← n.cell i)
  if rest.length ≠ 4 then refuse "internal cell is not a child pointer" else return ofBeBytes rest

def searchBetween (key : Key) (lo hi : ℕ) : Checked Search :=
  if lo < hi then do
    match cmp (← n.key ((lo + hi) / 2)) key with
    | .lt => searchBetween key ((lo + hi) / 2 + 1) hi
    | .gt => searchBetween key lo ((lo + hi) / 2)
    | .eq => return .found ((lo + hi) / 2)
  else return .vacant lo
termination_by hi - lo

def search (key : Key) : Checked Search := do n.searchBetween key 0 (← n.count)

def childSlotFor (key : Key) : Checked (Option ℕ × PageId) := do
  match ← n.search key with
  | .found i => return (some i, ← n.child i)
  | .vacant 0 => return (none, ← n.leftmost)
  | .vacant (i + 1) => return (some i, ← n.child i)

def leafEntries : Checked LeafEntries := do
  (List.range (← n.count)).mapM fun i => do return (← n.key i, ← n.value i)

def internalEntries : Checked InternalEntries := do
  (List.range (← n.count)).mapM fun i => do return (← n.key i, ← n.child i)

def allChildren : Checked (List PageId) := do
  return (← n.leftmost) :: (← (List.range (← n.count)).mapM n.child)

end Node

/-! ## Panics -/

/-- Gives a value or returns an error. -/
def NoPanic {α : Type} (r : Checked α) : Prop := r ≠ .error .panic

variable {i : ℕ}

section NoPanic

variable {α β : Type} {r : Checked α} {bytes : List UInt8}

lemma noPanic_pure (a : α) : NoPanic (pure a : Checked α) := nofun

lemma noPanic_refuse (msg : String) : NoPanic (refuse msg : Checked α) := nofun

lemma NoPanic.bind {f : α → Checked β} (hr : NoPanic r) (hf : ∀ a, r = .ok a → NoPanic (f a)) :
    NoPanic (r >>= f) := by
  cases r with
  | error e => exact fun h => hr (congrArg error (error.inj h))
  | ok a => exact hf a rfl

lemma NoPanic.mapM {f : β → Checked α} {xs : List β} (h : ∀ x ∈ xs, NoPanic (f x)) :
    NoPanic (xs.mapM f) := by
  induction xs with
  | nil => exact noPanic_pure []
  | cons x xs ih =>
    rw [forall_mem_cons] at h
    rw [mapM_cons]
    exact h.1.bind fun _ _ => (ih h.2).bind fun _ _ => noPanic_pure _

lemma noPanic_indexed {s e : ℕ} (hs : s ≤ e) (he : e ≤ bytes.length) :
    NoPanic (indexed bytes s e) := by
  rw [indexed, if_pos ⟨hs, he⟩]
  nofun

lemma u32At_eq (h : i + 4 ≤ bytes.length) :
    u32At bytes i = .ok (ofBeBytes (slice bytes i (i + 4))) := by
  rw [u32At, indexed, if_pos ⟨by omega, h⟩]
  rfl

lemma u32At_panics (h : bytes.length < i + 4) : u32At bytes i = .error .panic := by
  rw [u32At, indexed, if_neg (by omega)]
  rfl

lemma noPanic_u32At (h : i + 4 ≤ bytes.length) : NoPanic (u32At bytes i) := by
  rw [u32At_eq h]
  nofun

lemma noPanic_cellKey (cell : List UInt8) : NoPanic (cellKey cell) := by
  unfold cellKey
  split
  · exact noPanic_refuse _
  · refine (noPanic_u32At (by omega)).bind fun klen _ => ?_
    split
    · exact noPanic_pure _
    · exact noPanic_refuse _

lemma noPanic_cellRest (cell : List UInt8) : NoPanic (cellRest cell) := by
  unfold cellRest
  split
  · exact noPanic_refuse _
  · refine (noPanic_u32At (by omega)).bind fun klen _ => ?_
    split
    · exact noPanic_pure _
    · exact noPanic_refuse _

end NoPanic

namespace Node

variable (n : Node)

/-- The slots a page has room for. -/
def maxSlots : ℕ := (payloadLen - slotBase) / slotSize

/-- As many slots as the page says it has. -/
def slots : ℕ := ofBeBytes (slice n.payload 0 4)

lemma count_eq : n.count = .ok n.slots := by
  have h := n.length_payload
  exact u32At_eq (by rw [h]; decide)

structure ReadsSafely : Prop where
  slot : ∀ i, NoPanic (n.slot i)
  cell : ∀ i, NoPanic (n.cell i)
  key : ∀ i, NoPanic (n.key i)
  value : ∀ i, NoPanic (n.value i)
  child : ∀ i, NoPanic (n.child i)
  search : ∀ key, NoPanic (n.search key)
  childSlotFor : ∀ key, NoPanic (n.childSlotFor key)
  leafEntries : NoPanic n.leafEntries
  internalEntries : NoPanic n.internalEntries
  allChildren : NoPanic n.allChildren

variable {n}

lemma noPanic_count : NoPanic n.count := by
  rw [count_eq]
  nofun

lemma noPanic_leftmost : NoPanic n.leftmost :=
  noPanic_u32At (by rw [n.length_payload]; decide)

section

variable (h : n.slots ≤ maxSlots)
include h

lemma noPanic_slot (i : ℕ) : NoPanic (n.slot i) := by
  have hlen := n.length_payload
  refine noPanic_count.bind fun c hc => ?_
  obtain rfl : n.slots = c := ok.inj (n.count_eq.symm.trans hc)
  split
  · exact noPanic_refuse _
  · next hi =>
    have hroom : slotBase + i * slotSize + 8 ≤ n.payload.length := by
      simp only [maxSlots, slotSize] at *
      omega
    refine (noPanic_u32At (by omega)).bind fun off _ => ?_
    refine (noPanic_u32At (by omega)).bind fun len _ => ?_
    split
    · exact noPanic_refuse _
    · exact noPanic_pure _

omit h in
/-- A slot that is given lies inside the page. -/
lemma slot_inside {off len : ℕ} (h : n.slot i = .ok (off, len)) : off + len ≤ payloadLen := by
  obtain ⟨c, -, h⟩ := bind_ok.mp h
  split at h
  · cases h
  · obtain ⟨off', -, h⟩ := bind_ok.mp h
    obtain ⟨len', -, h⟩ := bind_ok.mp h
    split at h
    · cases h
    · next hle =>
      cases h
      omega

lemma noPanic_cell (i : ℕ) : NoPanic (n.cell i) := by
  refine (noPanic_slot h i).bind fun ⟨off, len⟩ hslot => ?_
  exact noPanic_indexed (by omega) (n.length_payload ▸ slot_inside hslot)

lemma noPanic_key (i : ℕ) : NoPanic (n.key i) :=
  (noPanic_cell h i).bind fun _ _ => noPanic_cellKey _

lemma noPanic_child (i : ℕ) : NoPanic (n.child i) := by
  refine (noPanic_cell h i).bind fun _ _ => (noPanic_cellRest _).bind fun _ _ => ?_
  split
  · exact noPanic_refuse _
  · exact noPanic_pure _

lemma noPanic_searchBetween (key : Key) (lo hi : ℕ) : NoPanic (n.searchBetween key lo hi) := by
  fun_induction searchBetween n key lo hi with
  | case1 lo hi hlt ihl ihg =>
    refine (noPanic_key h _).bind fun k _ => ?_
    split
    · exact ihl
    · exact ihg
    · exact noPanic_pure _
  | case2 lo hi hge => exact noPanic_pure _

lemma noPanic_search (key : Key) : NoPanic (n.search key) :=
  noPanic_count.bind fun _ _ => noPanic_searchBetween h key _ _

lemma noPanic_childSlotFor (key : Key) : NoPanic (n.childSlotFor key) := by
  refine (noPanic_search h key).bind fun found _ => ?_
  split
  · exact (noPanic_child h _).bind fun _ _ => noPanic_pure _
  · exact noPanic_leftmost.bind fun _ _ => noPanic_pure _
  · exact (noPanic_child h _).bind fun _ _ => noPanic_pure _

lemma readsSafely_of_slots_le : n.ReadsSafely where
  slot := noPanic_slot h
  cell := noPanic_cell h
  key := noPanic_key h
  value i := (noPanic_cell h i).bind fun _ _ => noPanic_cellRest _
  child := noPanic_child h
  search := noPanic_search h
  childSlotFor := noPanic_childSlotFor h
  leafEntries := by
    refine noPanic_count.bind fun _ _ => NoPanic.mapM fun i _ => (noPanic_key h i).bind fun _ _ => ?_
    refine NoPanic.bind ?_ fun _ _ => noPanic_pure _
    exact (noPanic_cell h i).bind fun _ _ => noPanic_cellRest _
  internalEntries :=
    noPanic_count.bind fun _ _ => NoPanic.mapM fun i _ =>
      (noPanic_key h i).bind fun _ _ => (noPanic_child h i).bind fun _ _ => noPanic_pure _
  allChildren :=
    noPanic_leftmost.bind fun _ _ => noPanic_count.bind fun _ _ =>
      (NoPanic.mapM fun i _ => noPanic_child h i).bind fun _ _ => noPanic_pure _

end

/-- A slot that the page counts and has no room for is read all the same. -/
lemma slot_panics (h : maxSlots < n.slots) : n.slot maxSlots = .error .panic := by
  have hlen := n.length_payload
  have hfirst : slotBase + maxSlots * slotSize + 4 ≤ n.payload.length := by
    rw [hlen]
    decide
  have hsecond : n.payload.length < slotBase + maxSlots * slotSize + 4 + 4 := by
    rw [hlen]
    decide
  rw [slot, count_eq, ok_bind, if_neg (by omega), u32At_eq hfirst, u32At_panics hsecond]
  rfl

/-- No accessor panics on a page exactly if the page counts no more slots than it has room for. -/
theorem readsSafely_iff (page : List UInt8) (h : page.length = pageSize) :
    (ofPage page h).ReadsSafely ↔ (ofPage page h).slots ≤ maxSlots := by
  refine ⟨fun hsafe => ?_, readsSafely_of_slots_le⟩
  by_contra hlt
  exact hsafe.slot maxSlots (slot_panics (by omega))

/-- A page of two slots, of which the second says that its cell goes on behind the page. -/
def overrunPage : List UInt8 :=
  replicate pageHeaderSize 0 ++ [0, 0, 0, 2, 0, 0, 0, 0, 0, 0, 0, 9] ++
    [0, 0, 15, 226, 0, 0, 0, 6] ++ [0, 0, 15, 231, 0, 0, 0, 9] ++ replicate 4038 0 ++
    [0, 0, 0, 1, 5, 7]

lemma length_overrunPage : overrunPage.length = pageSize := by decide +kernel

theorem readsSafely_iff_overrun :
    let n := ofPage overrunPage length_overrunPage
    n.key 0 = .ok [5] ∧ n.value 0 = .ok [7] ∧ n.key 1 = refuse "node cell overruns the page" ∧
      n.ReadsSafely :=
  ⟨by decide +kernel, by decide +kernel, by decide +kernel,
    (readsSafely_iff _ length_overrunPage).mpr (by decide +kernel)⟩

/-- A page of ones: a search panics at its first turn. -/
theorem search_of_ones_panics :
    (ofPage (replicate pageSize 255) length_replicate).search [] = .error .panic := by
  rw [search, count_eq, ok_bind, searchBetween, if_pos (by decide +kernel)]
  decide +kernel

end Node

end FerroDb.Cow
