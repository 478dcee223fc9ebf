import FerroDb.Cluster.Wire

/-!
# The retained tail of a node's log

The entries above the snapshot floor, each with the digest of the log through it. Rounds are
contiguous: the entry at index `k` is the one for round `base + 1 + k`.
-/

namespace FerroDb.Cluster

structure LogTail where
  base : Round
  baseDigest : UInt64
  entries : List Entry
  digests : List UInt64
  /-- The last term in which this log replaced entries it already held. -/
  rewrittenInTerm : Term
deriving DecidableEq

namespace LogTail

@[simps base entries rewrittenInTerm]
def rebased (base : Round) (baseDigest : UInt64) : LogTail := ⟨base, baseDigest, [], [], 0⟩

variable (t : LogTail)

def lastRound : Round := t.base + t.entries.length

def entryAt (round : Round) : Option Entry :=
  if round ≤ t.base then none else t.entries[round - t.base - 1]?

def termAt (round : Round) : Option Term := (t.entryAt round).map Entry.term

def digestAt (round : Round) : Option UInt64 :=
  if round = t.base then some t.baseDigest
  else if round < t.base then none
  else t.digests[round - t.base - 1]?

/-- The loop of `slice_from`: entries while they fit, and always a first one. -/
def sliceLoop (maxBytes : ℕ) (taken : Bool) (bytes : ℕ) : List Entry → List Entry
  | [] => []
  | e :: es =>
    let len := Wire.entryWireLen e
    if taken && decide (maxBytes < satAdd64 bytes len) then []
    else e :: sliceLoop maxBytes true (satAdd64 bytes len) es

/-- At most `limit` entries from `round` on, and at most `maxBytes` of them beyond the first. -/
def sliceFrom (round : Round) (limit maxBytes : ℕ) : List Entry :=
  if round ≤ t.base then []
  else sliceLoop maxBytes false 0 ((t.entries.drop (round - t.base - 1)).take limit)

@[simps base entries rewrittenInTerm]
def push (e : Entry) : LogTail :=
  let prev := t.digests.getLast?.getD t.baseDigest
  { t with entries := t.entries ++ [e], digests := t.digests ++ [foldEntry prev e] }

@[simps base entries rewrittenInTerm]
def compactTo (base : Round) (baseDigest : UInt64) : LogTail :=
  { t with
    entries := t.entries.drop (base - t.base)
    digests := t.digests.drop (base - t.base)
    base := base
    baseDigest := baseDigest }

def truncateFrom (start : Round) : LogTail :=
  if start ≤ t.base then t
  else
    { t with
      entries := t.entries.take (start - t.base - 1)
      digests := t.digests.take (start - t.base - 1) }

@[simp] lemma truncateFrom_base (r : Round) : (t.truncateFrom r).base = t.base := by
  unfold truncateFrom
  split <;> rfl

lemma truncateFrom_entries {r : Round} (h : t.base < r) :
    (t.truncateFrom r).entries = t.entries.take (r - t.base - 1) := by
  simp [truncateFrom, Nat.not_le.mpr h]

/-- Pushing entries one after another appends them. -/
lemma foldl_push_entries (es : List Entry) : (es.foldl push t).entries = t.entries ++ es := by
  induction es generalizing t with
  | nil => simp
  | cons e es ih => simp [ih]

lemma foldl_push_base (es : List Entry) : (es.foldl push t).base = t.base := by
  induction es generalizing t with
  | nil => rfl
  | cons e es ih => simp [ih]

lemma foldl_push_rewritten (es : List Entry) :
    (es.foldl push t).rewrittenInTerm = t.rewrittenInTerm := by
  induction es generalizing t with
  | nil => rfl
  | cons e es ih => simp [ih]

lemma sliceLoop_isPrefix (maxBytes : ℕ) (taken : Bool) (bytes : ℕ) (es : List Entry) :
    sliceLoop maxBytes taken bytes es <+: es := by
  induction es generalizing taken bytes with
  | nil => exact List.prefix_refl _
  | cons e es ih =>
    simp only [sliceLoop]
    split
    · exact List.nil_prefix
    · exact List.cons_prefix_cons.mpr ⟨rfl, ih _ _⟩

/-- Whatever the byte budget, a slice is a first part of what follows. -/
lemma sliceFrom_eq_take {round : Round} (limit maxBytes : ℕ) (h : t.base < round) :
    ∃ n, t.sliceFrom round limit maxBytes = (t.entries.drop (round - t.base - 1)).take n := by
  have hpre := (sliceLoop_isPrefix maxBytes false 0
    ((t.entries.drop (round - t.base - 1)).take limit)).trans (List.take_prefix _ _)
  rw [sliceFrom, if_neg (Nat.not_le.mpr h)]
  exact ⟨_, List.prefix_iff_eq_take.mp hpre⟩

end LogTail

end FerroDb.Cluster
