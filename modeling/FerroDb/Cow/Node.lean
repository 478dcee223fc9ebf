import FerroDb.Library.SepTree.Context
import Mathlib

/-!
# Nodes of the copy-on-write tree

A page of the tree, as its slotted body decodes: a leaf holds entries, an internal node a leftmost
child and further children behind their separators. A cell is refused exactly when the entries and
the cell together pass the capacity of the page, since a node compacts itself before it refuses;
how the cells lie in the page is not kept.
-/

namespace FerroDb.Cow

open List

instance instLinearOrderUInt8 : LinearOrder UInt8 where
  le_refl := UInt8.le_refl
  le_trans _ _ _ := UInt8.le_trans
  lt_iff_le_not_ge a b := by simp only [UInt8.lt_iff_toNat_lt, UInt8.le_iff_toNat_le]; omega
  le_antisymm _ _ := UInt8.le_antisymm
  le_total := UInt8.le_total
  toDecidableLE := inferInstance
  toDecidableEq := inferInstance
  toDecidableLT := inferInstance

abbrev Key := List UInt8
abbrev Value := List UInt8
abbrev PageId := ℕ

/-! ## Keys -/

/-- The least key above a key. -/
def successorOf (key : Key) : Key := key ++ [0]

lemma lt_successorOf (key : Key) : key < successorOf key := by
  induction key with
  | nil => exact nil_lt_cons 0 []
  | cons b key ih => exact cons_lt_cons_iff.mpr (.inr ⟨rfl, ih⟩)

lemma successorOf_le_of_lt {key k : Key} (h : key < k) : successorOf key ≤ k := by
  induction key generalizing k with
  | nil =>
    cases k with
    | nil => exact absurd h (lt_irrefl _)
    | cons b k =>
      rcases (UInt8.zero_le (a := b)).lt_or_eq with hb | rfl
      · exact (cons_lt_cons_iff.mpr (.inl hb)).le
      · exact cons_le_cons 0 (not_lt.mp (not_lt_nil k))
  | cons b key ih =>
    cases k with
    | nil => exact absurd h (not_lt_nil _)
    | cons b' k =>
      rcases cons_lt_cons_iff.mp h with hb | ⟨rfl, hk⟩
      · exact (cons_lt_cons_iff.mpr (.inl hb)).le
      · exact cons_le_cons b (ih hk)

instance : NoMaxOrder Key := ⟨fun k => ⟨successorOf k, lt_successorOf k⟩⟩

instance : SuccOrder Key :=
  .ofSuccLeIff successorOf fun {a _} =>
    ⟨fun h => (lt_successorOf a).trans_le h, successorOf_le_of_lt⟩

/-! ## Sizes -/

def pageSize : ℕ := 4096
def pageHeaderSize : ℕ := 24
def payloadLen : ℕ := pageSize - pageHeaderSize
def slotBase : ℕ := 12
def slotSize : ℕ := 8
def nodeCapacity : ℕ := payloadLen - slotBase
/-- The largest an entry may be: a quarter of a page. -/
def maxEntryBytes : ℕ := nodeCapacity / 4
def leafEntryBytes (key : Key) (value : Value) : ℕ := slotSize + 4 + key.length + value.length
def internalEntryOverhead : ℕ := slotSize + 4 + 4
def internalEntryBytes (key : Key) : ℕ := internalEntryOverhead + key.length
def separatorSuffixBytes : ℕ := 1
def separatorEntryBytes (key : Key) : ℕ := internalEntryBytes key + separatorSuffixBytes
def maxKeyBytes : ℕ := maxEntryBytes - internalEntryOverhead - separatorSuffixBytes
/-- The cell of a leaf entry, without its slot. -/
def leafCellBytes (key : Key) (value : Value) : ℕ := 4 + key.length + value.length

abbrev LeafEntries := List (Key × Value)
abbrev InternalEntries := List (Key × PageId)

def leafBytes (es : LeafEntries) : ℕ := (es.map fun e => leafEntryBytes e.1 e.2).sum
def internalBytes (es : InternalEntries) : ℕ := (es.map fun e => internalEntryBytes e.1).sum

/-! ## Pages -/

/-- The types of page that are no node of a tree. -/
inductive ForeignType where
  | metadata | heap | overflow | branchCatalog | freeLog | provenance | free
  deriving DecidableEq

def ForeignType.name : ForeignType → String
  | metadata => "Meta"
  | heap => "Heap"
  | overflow => "Overflow"
  | branchCatalog => "BranchCatalog"
  | freeLog => "FreeLog"
  | provenance => "Provenance"
  | free => "Free"

inductive Page where
  | leaf (entries : LeafEntries)
  | internal (leftmost : PageId) (entries : InternalEntries)
  | foreign (type : ForeignType)
  deriving DecidableEq

namespace Page

/-- The entries of a leaf; the callers have seen that the page is one. -/
def leafEntries : Page → LeafEntries
  | leaf es => es
  | _ => []

def leftmost : Page → PageId
  | internal l _ => l
  | _ => 0

def internalEntries : Page → InternalEntries
  | internal _ es => es
  | _ => []

def allChildren (p : Page) : List PageId := p.leftmost :: p.internalEntries.map (·.2)

/-- The children of a node with another one at a slot. -/
def setChild (p : Page) (child : PageId) : Option ℕ → PageId × InternalEntries
  | none => (child, p.internalEntries)
  | some i => (p.leftmost, p.internalEntries.modify i fun e => (e.1, child))

end Page

/-! ## Search -/

/-- Where a key stands among the keys of a node, or where it would have to be put. -/
inductive Search where
  | found (i : ℕ)
  | vacant (i : ℕ)
  deriving DecidableEq

def Search.index : Search → ℕ
  | .found i => i
  | .vacant i => i

variable {fuel lo hi i : ℕ}

section Search

variable {K : Type} [LinearOrder K]

def searchLoop (keys : List K) (key : K) : ℕ → ℕ → ℕ → Search
  | 0, lo, _ => .vacant lo
  | fuel + 1, lo, hi =>
    match keys[(lo + hi) / 2]? with
    | none => .vacant lo
    | some k =>
      if lo < hi then
        match cmp k key with
        | .lt => searchLoop keys key fuel ((lo + hi) / 2 + 1) hi
        | .gt => searchLoop keys key fuel lo ((lo + hi) / 2)
        | .eq => .found ((lo + hi) / 2)
      else .vacant lo

/-- The binary search of a node. The interval is halved at every turn, so it is empty before the
turns run out. -/
def search (keys : List K) (key : K) : Search := searchLoop keys key keys.length 0 keys.length

/-- The slot of the child to go to for a key, none for the leftmost child. -/
def childSlotFor (keys : List K) (key : K) : Option ℕ :=
  match search keys key with
  | .found i => some i
  | .vacant 0 => none
  | .vacant (i + 1) => some i

variable {keys : List K} {key : K}

lemma searchLoop_found (h : searchLoop keys key fuel lo hi = .found i) : keys[i]? = some key := by
  fun_induction searchLoop keys key fuel lo hi with
  | case3 fuel lo hi k hk hlt hcmp ih => exact ih h
  | case4 fuel lo hi k hk hlt hcmp ih => exact ih h
  | case5 fuel lo hi k hk hlt hcmp =>
    cases h
    rw [hk, (cmp_eq_eq_iff k key).mp hcmp]
  | _ => cases h

lemma searchLoop_vacant_le (hlo : lo ≤ keys.length)
    (h : searchLoop keys key fuel lo hi = .vacant i) : i ≤ keys.length := by
  fun_induction searchLoop keys key fuel lo hi with
  | case3 fuel lo hi k hk hlt hcmp ih => exact ih (List.getElem?_eq_some_iff.mp hk).1 h
  | case4 fuel lo hi k hk hlt hcmp ih => exact ih hlo h
  | case5 => cases h
  | _ =>
    cases h
    exact hlo

/-- In keys in order, all before the vacant place are less and all from it on greater. -/
lemma searchLoop_vacant (hsorted : keys.Pairwise (· < ·))
    (hfuel : hi ≤ lo + fuel) (hle : lo ≤ hi) (hhi : hi ≤ keys.length)
    (hbelow : ∀ j (hj : j < keys.length), j < lo → keys[j] < key)
    (habove : ∀ j (hj : j < keys.length), hi ≤ j → key < keys[j])
    (h : searchLoop keys key fuel lo hi = .vacant i) :
    (∀ j (hj : j < keys.length), j < i → keys[j] < key) ∧
      ∀ j (hj : j < keys.length), i ≤ j → key < keys[j] := by
  fun_induction searchLoop keys key fuel lo hi with
  | case1 lo hi =>
    cases h
    exact ⟨hbelow, fun j hj hij => habove j hj (by omega)⟩
  | case2 fuel lo hi hk =>
    cases h
    have hmid := getElem?_eq_none_iff.mp hk
    exact ⟨hbelow, fun j hj hij => habove j hj (by omega)⟩
  | case3 fuel lo hi k hk hlt hcmp ih =>
    obtain ⟨hmid, rfl⟩ := List.getElem?_eq_some_iff.mp hk
    rw [cmp_eq_lt_iff] at hcmp
    refine ih (by omega) (by omega) hhi (fun j hj hlt => ?_) habove h
    rcases Nat.lt_or_eq_of_le (Nat.le_of_lt_succ hlt) with hj' | rfl
    · exact (pairwise_iff_getElem.mp hsorted j _ hj hmid hj').trans hcmp
    · exact hcmp
  | case4 fuel lo hi k hk hlt hcmp ih =>
    obtain ⟨hmid, rfl⟩ := List.getElem?_eq_some_iff.mp hk
    rw [cmp_eq_gt_iff] at hcmp
    refine ih (by omega) (by omega) (by omega) hbelow (fun j hj hle => ?_) h
    rcases Nat.lt_or_eq_of_le hle with hj' | rfl
    · exact hcmp.trans (pairwise_iff_getElem.mp hsorted _ j hmid hj hj')
    · exact hcmp
  | case5 => cases h
  | case6 fuel lo hi k hk hle =>
    cases h
    exact ⟨hbelow, fun j hj hij => habove j hj (by omega)⟩

lemma search_found (h : search keys key = .found i) : keys[i]? = some key :=
  searchLoop_found h

lemma search_vacant_le (h : search keys key = .vacant i) : i ≤ keys.length :=
  searchLoop_vacant_le (Nat.zero_le _) h

lemma search_vacant (hsorted : keys.Pairwise (· < ·)) (h : search keys key = .vacant i) :
    (∀ k ∈ keys.take i, k < key) ∧ ∀ k ∈ keys.drop i, key < k := by
  obtain ⟨hlt, hgt⟩ := searchLoop_vacant hsorted (by omega) (Nat.zero_le _) le_rfl
    (fun j _ hj => absurd hj (Nat.not_lt_zero j)) (fun j hj hj' => absurd hj (by omega)) h
  constructor
  · intro k hk
    obtain ⟨j, hj, rfl⟩ := mem_take_iff_getElem.mp hk
    exact hlt j (by omega) (by omega)
  · intro k hk
    obtain ⟨j, hj, rfl⟩ := mem_drop_iff_getElem.mp hk
    exact hgt (i + j) (by omega) (by omega)

lemma childSlotFor_lt (h : childSlotFor keys key = some i) : i < keys.length := by
  rw [childSlotFor] at h
  split at h
  · next hs =>
    cases h
    exact (List.getElem?_eq_some_iff.mp (search_found hs)).1
  · cases h
  · next hs =>
    cases h
    exact search_vacant_le hs

/-- In separators in order, the key is below all if it is led to the leftmost child. -/
lemma childSlotFor_none (hsorted : keys.Pairwise (· < ·)) (h : childSlotFor keys key = none) :
    ∀ k ∈ keys, key < k := by
  rw [childSlotFor] at h
  split at h
  · cases h
  · next hs => simpa using (search_vacant hsorted hs).2
  · cases h

/-- Otherwise it is between the separator of the child and the next. -/
lemma childSlotFor_some (hsorted : keys.Pairwise (· < ·)) (h : childSlotFor keys key = some i) :
    (∃ k, keys[i]? = some k ∧ k ≤ key) ∧ ∀ k ∈ keys.drop (i + 1), key < k := by
  have hlt := childSlotFor_lt h
  rw [childSlotFor] at h
  split at h
  · next hs =>
    cases h
    have hi := search_found hs
    refine ⟨⟨key, hi, le_rfl⟩, fun k hk => ?_⟩
    obtain ⟨j, hj, rfl⟩ := mem_drop_iff_getElem.mp hk
    obtain ⟨_, rfl⟩ := List.getElem?_eq_some_iff.mp hi
    exact pairwise_iff_getElem.mp hsorted i (i + 1 + j) hlt (by omega) (by omega)
  · cases h
  · next n hs =>
    cases h
    obtain ⟨hbelow, habove⟩ := search_vacant hsorted hs
    refine ⟨⟨keys[i], getElem?_eq_getElem hlt, (hbelow _ ?_).le⟩, habove⟩
    exact mem_take_iff_getElem.mpr ⟨i, by omega, rfl⟩

end Search

/-- Where the child at a slot stands among all children. -/
def childIndex : Option ℕ → ℕ
  | none => 0
  | some i => i + 1

/-- The child at a slot. -/
def childAt (leftmost : PageId) (es : InternalEntries) : Option ℕ → PageId
  | none => leftmost
  | some i => (es.map (·.2)).getD i 0

/-- The keys of the entries of a node. -/
def keysOf {α : Type} (es : List (Key × α)) : List Key := es.map (·.1)

/-- The entries with a value put for a key, in its place or in a new one. -/
def putEntry (es : LeafEntries) (key : Key) (value : Value) : LeafEntries :=
  match search (keysOf es) key with
  | .found i => es.set i (key, value)
  | .vacant i => es.insertIdx i (key, value)

/-! ## Splitting -/

/-- The total of sizes, in a word. -/
def usizeSum (sizes : List ℕ) : ℕ := sizes.sum % 2 ^ 64

/-- Where to cut a list of sizes that its halves come out even. -/
def splitPointLoop (total n : ℕ) : List ℕ → ℕ → ℕ → ℕ
  | [], _, _ => max (n - 1) 1
  | s :: sizes, acc, i =>
    let acc := (acc + s) % 2 ^ 64
    if acc * 2 % 2 ^ 64 ≥ total ∧ i + 1 < n then i + 1
    else splitPointLoop total n sizes acc (i + 1)

def splitPoint (sizes : List ℕ) : ℕ := splitPointLoop (usizeSum sizes) sizes.length sizes 0 0

end FerroDb.Cow
