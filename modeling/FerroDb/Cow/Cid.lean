import FerroDb.Cow.Reader
import FerroDb.Cluster.Digest

/-!
# Content ids of leaves

The leaves of a tree are hashed one by one, from left to right, and their ids once more.
-/

namespace FerroDb.Cow

open Library SepTree Cluster

abbrev Cid := List UInt8

namespace Cid

def maxDescent : ℕ := 64

def tagLeaf : UInt64 := 0x6c65616600000001
def tagPartition : UInt64 := 0x7061727400000001

def laneABasis : UInt64 := 0xcbf29ce484222325
def laneAMult : UInt64 := 0x00000100000001b3
def laneBBasis : UInt64 := 0x9e3779b97f4a7c15
def laneBMult : UInt64 := 0xff51afd7ed558ccd

def mix64 (z : UInt64) : UInt64 :=
  let z := (z ^^^ (z >>> 30)) * 0xbf58476d1ce4e5b9
  let z := (z ^^^ (z >>> 27)) * 0x94d049bb133111eb
  z ^^^ (z >>> 31)

def rotateLeft (z : UInt64) (n : UInt64) : UInt64 := z <<< n ||| z >>> (64 - n)

end Cid

open Cid

structure Hasher128 where
  a : UInt64
  b : UInt64
  len : UInt64

namespace Hasher128

def new (tag : UInt64) : Hasher128 := ⟨laneABasis ^^^ tag, laneBBasis ^^^ mix64 tag, 0⟩

def absorb (h : Hasher128) (bytes : List UInt8) : Hasher128 where
  a := bytes.foldl (fun a x => (a ^^^ x.toUInt64) * laneAMult) h.a
  b := bytes.foldl (fun b x => rotateLeft (b ^^^ x.toUInt64) 23 * laneBMult) h.b
  len := h.len + UInt64.ofNat bytes.length

def number (h : Hasher128) (n : ℕ) : Hasher128 := h.absorb (beBytes 8 n)

def field (h : Hasher128) (bytes : List UInt8) : Hasher128 :=
  (h.number bytes.length).absorb bytes

def cid (h : Hasher128) (c : Cid) : Hasher128 := h.absorb c

def finish (h : Hasher128) : Cid :=
  let a := mix64 (h.a ^^^ h.len)
  let b := mix64 (h.b + h.len)
  let a := a ^^^ rotateLeft b 31
  let b := b ^^^ rotateLeft a 17
  beBytes 8 (mix64 a).toNat ++ beBytes 8 (mix64 b).toNat

end Hasher128

inductive NodeShape where
  | leaf (entries : LeafEntries)
  | internal (leftmost : PageId) (entries : InternalEntries)

def shapeOf (read : Reader) (page : PageId) : Except FerroError NodeShape := do
  match ← read page with
  | .leaf es => return .leaf es
  | .internal l es => return .internal l es
  | .foreign t =>
    throw (.cow ("page " ++ toString page ++ " is " ++ t.name ++ ", not a btree node"))

def leafCid (entries : LeafEntries) : Cid :=
  (entries.foldl (fun h e => (h.field e.1).field e.2)
    ((Hasher128.new tagLeaf).number entries.length)).finish

/-- Visits the leaves under a page from left to right, as deep as the fuel goes. -/
def forEachLeaf {σ : Type} (read : Reader) (visit : σ → LeafEntries → σ) :
    ℕ → PageId → σ → Except FerroError σ
  | 0, _, _ => throw (.cow "cid: leaf walk exceeded the depth guard")
  | fuel + 1, page, st => do
    match ← shapeOf read page with
    | .leaf es => return visit st es
    | .internal l es =>
      (l :: es.map (·.2)).foldlM (fun st child => forEachLeaf read visit fuel child st) st

def orderedLeafCids (read : Reader) (root : PageId) : Except FerroError (List Cid) :=
  forEachLeaf read (fun out es => out ++ [leafCid es]) (maxDescent + 1) root []

/-- The hash of a list of leaf ids. -/
def partitionCid (leaves : List Cid) : Cid :=
  (leaves.foldl Hasher128.cid ((Hasher128.new tagPartition).number leaves.length)).finish

def leafPartitionCid (read : Reader) (root : PageId) : Except FerroError Cid := do
  return partitionCid (← orderedLeafCids read root)

/-! ## What is hashed -/

variable {fuel : ℕ} {T : Tree}

section

variable {read : Reader} {σ : Type} {visit : σ → LeafEntries → σ}

lemma forEachLeaf_kids {ks : List (Key × Tree)}
    (h : ∀ kt ∈ ks, ∀ st, forEachLeaf read visit fuel kt.2.id st =
      .ok (kt.2.leaves.foldl visit st)) (st : σ) :
    ((heads ks).map (·.2)).foldlM (fun st child => forEachLeaf read visit fuel child st) st =
      .ok ((leavesOf ks).foldl visit st) := by
  induction ks generalizing st with
  | nil => rfl
  | cons kt ks ih =>
    obtain ⟨k, t⟩ := kt
    rw [heads_cons, List.map_cons, List.foldlM_cons, h (k, t) List.mem_cons_self, leavesOf_cons,
      List.foldl_append]
    exact ih (fun kt hkt => h kt (.tail _ hkt)) _

/-- All leaves of a tree that is not too high are visited. -/
lemma forEachLeaf_spec (h : Holds read T) (hfuel : T.height < fuel)
    (st : σ) : forEachLeaf read visit fuel T.id st = .ok (T.leaves.foldl visit st) := by
  induction T using induct generalizing fuel st with
  | leaf i es =>
    obtain ⟨fuel, rfl⟩ := Nat.exists_eq_succ_of_ne_zero (Nat.ne_zero_of_lt hfuel)
    rw [forEachLeaf, shapeOf, id_leaf, holds_leaf.mp h]
    rfl
  | node i l ks ihl ihk =>
    obtain ⟨fuel, rfl⟩ := Nat.exists_eq_succ_of_ne_zero (Nat.ne_zero_of_lt hfuel)
    obtain ⟨hi, hl, hk⟩ := holds_node.mp h
    rw [height_node, Nat.succ_lt_succ_iff, max_lt_iff] at hfuel
    have hkids := forEachLeaf_kids fun kt hkt =>
      ihk kt hkt (hk kt hkt) ((height_le_heightOf hkt).trans_lt hfuel.2)
    rw [forEachLeaf, shapeOf, id_node, hi, leaves_node, List.foldl_append]
    change (l.id :: (heads ks).map (·.2)).foldlM
      (fun st child => forEachLeaf read visit fuel child st) st = _
    rw [List.foldlM_cons, ihl hl hfuel.1]
    exact hkids _

lemma leafPartitionCid_spec (h : Holds read T) (hheight : T.height ≤ maxDescent) :
    leafPartitionCid read T.id = .ok (partitionCid (T.leaves.map leafCid)) := by
  have hfold : ∀ (ls : List LeafEntries) (out : List Cid),
      ls.foldl (fun out es => out ++ [leafCid es]) out = out ++ ls.map leafCid := by
    intro ls
    induction ls with
    | nil => simp
    | cons es ls ih => simp [ih]
  rw [leafPartitionCid, orderedLeafCids, forEachLeaf_spec h (Nat.lt_succ_of_le hheight), hfold]
  rfl

end

end FerroDb.Cow
