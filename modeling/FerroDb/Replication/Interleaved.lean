import FerroDb.Wal.Log

/-!
# Interleaved transactions

The records of every transaction follow each other in the log as the transaction manager of
`wal/txn.rs` writes them, whatever stands between. A transaction writes rows, names its run right
before it commits, and is never both committed and aborted; one that only read ends without either.
Recovery rolls back every transaction without an end, the system's own among them.

## Main definitions

* `phaseOf` — how far a transaction is after some records.
* `Interleaved` — every record stands where its transaction may write it.
* `writerOf` — the run a transaction was bound to.
-/

namespace FerroDb.Replication

open Wal List Option

/-- How far a transaction is. Transaction 0 is the system's own. -/
inductive Phase where
  | system
  | idle
  | active (wrote : Bool)
  | identified
  | committed
  | aborted
  | ended
deriving DecidableEq

/-- What the transaction manager writes next. The run is named right before the commit. -/
def Phase.next : Phase → RecKind → Option Phase
  | .system, .ddl .. | .system, .checkpoint | .system, .runIdentity _ => some .system
  -- No record of transaction 0 ends it, so `recover` takes it for a loser.
  | .system, .abort | .system, .txnEnd => some .system
  | .idle, .begin => some (.active false)
  | .active _, .heapInsert .. | .active _, .heapDelete .. | .active _, .heapUpdate .. =>
    some (.active true)
  | .active _, .runIdentity _ => some .identified
  | .active _, .commit | .identified, .commit => some .committed
  | .committed, .txnEnd => some .committed
  | .active false, .txnEnd => some .ended
  | .active _, .abort | .identified, .abort | .aborted, .abort => some .aborted
  | .aborted, .clr .. | .aborted, .txnEnd => some .aborted
  | _, _ => none

def Phase.start (t : ℕ) : Phase := if t = 0 then .system else .idle

def phaseStep (t : ℕ) (p : Option Phase) (r : LogRecord) : Option Phase :=
  if r.txnId = t then p.bind (·.next r.kind) else p

/-- How far a transaction is after the records, if they are in order. -/
def phaseOf (t : ℕ) (rs : List LogRecord) : Option Phase :=
  rs.foldl (phaseStep t) (some (Phase.start t))

def Interleaved (rs : List LogRecord) : Prop := ∀ t, (phaseOf t rs).isSome

/-- The run a transaction was last bound to. -/
def writerStep (t : ℕ) (w : Option RunEntity) (r : LogRecord) : Option RunEntity :=
  match r.kind with
  | .runIdentity run => if r.txnId = t then some run else w
  | _ => w

def writerOf (rs : List LogRecord) (t : ℕ) : Option RunEntity := rs.foldl (writerStep t) none

section

variable {rs xs ys : List LogRecord} {r : LogRecord} {t : ℕ} {p q : Phase} {k : RecKind}

lemma phaseOf_concat : phaseOf t (rs ++ [r]) = phaseStep t (phaseOf t rs) r := by
  rw [phaseOf, foldl_concat]
  rfl

lemma writerOf_concat : writerOf (rs ++ [r]) t = writerStep t (writerOf rs t) r := by
  rw [writerOf, foldl_concat]
  rfl

lemma writerOf_eq_of_not_identity (hkind : ∀ run, r.kind ≠ .runIdentity run) :
    writerOf (xs ++ (ys ++ [r])) t = writerOf (xs ++ ys) t := by
  rw [← append_assoc, writerOf_concat, writerStep]
  split
  · exact absurd ‹_› (hkind _)
  · rfl

/-- A transaction without records has not begun. -/
lemma phaseOf_of_notMem (h : t ∉ rs.map LogRecord.txnId) :
    phaseOf t rs = some (Phase.start t) := by
  induction rs using reverseRecOn with
  | nil => rfl
  | append_singleton rs r ih =>
    simp only [map_append, map_cons, map_nil, mem_append, mem_singleton,
      not_or] at h
    rw [phaseOf_concat, phaseStep, if_neg (Ne.symm h.2), ih h.1]

instance : Decidable (Interleaved rs) :=
  decidable_of_iff (∀ t ∈ rs.map LogRecord.txnId, (phaseOf t rs).isSome) <| by
    refine ⟨fun h t => ?_, fun h t _ => h t⟩
    by_cases ht : t ∈ rs.map LogRecord.txnId
    · exact h t ht
    · rw [phaseOf_of_notMem ht]
      rfl

lemma Interleaved.of_concat (h : Interleaved (rs ++ [r])) : Interleaved rs := by
  intro t
  have ht := h t
  rw [phaseOf_concat, phaseStep] at ht
  split at ht
  · exact isSome_of_isSome_bind ht
  · exact ht

lemma Interleaved.of_append (h : Interleaved (xs ++ ys)) : Interleaved xs := by
  induction ys using reverseRecOn with
  | nil => simpa using h
  | append_singleton ys r ih =>
    rw [← append_assoc] at h
    exact ih h.of_concat

/-- A record stands where its transaction may write it. -/
lemma Interleaved.next (h : Interleaved (rs ++ [r])) :
    ∃ p p', phaseOf r.txnId rs = some p ∧ p.next r.kind = some p' ∧
      phaseOf r.txnId (rs ++ [r]) = some p' := by
  have ht := h r.txnId
  have heq : phaseOf r.txnId (rs ++ [r]) = (phaseOf r.txnId rs).bind (·.next r.kind) := by
    rw [phaseOf_concat, phaseStep, if_pos rfl]
  obtain ⟨p', hp'⟩ := isSome_iff_exists.mp ht
  obtain ⟨p, hp, hnext⟩ := bind_eq_some_iff.mp (heq ▸ hp')
  exact ⟨p, p', hp, hnext, hp'⟩

/-- The transaction has not been bound to a run. -/
def Phase.early (p : Phase) : Bool := p matches .idle | .active _

lemma Phase.next_early (h : q.next k = some p) (hp : p.early) :
    q.early ∧ ∀ run, k ≠ .runIdentity run := by
  unfold Phase.next at h
  split at h <;> cases h <;> simp [Phase.early] at hp ⊢

lemma Phase.next_system (h : q.next k = some p) : p = .system ↔ q = .system := by
  unfold Phase.next at h
  split at h <;> cases h <;> simp

lemma Phase.next_committed (h : q.next k = some p)
    (hq : q = .committed ∨ k = .commit) : p = .committed := by
  unfold Phase.next at h
  split at h <;> cases h <;> simp at hq ⊢

lemma Phase.next_aborted (h : q.next k = some p)
    (hq : (q = .aborted ∨ q = .system) ∨ k = .abort) : p = .aborted ∨ p = .system := by
  unfold Phase.next at h
  split at h <;> cases h <;> simp at hq ⊢

/-- A kind of record that changes rows. -/
def isHeap (k : RecKind) : Bool := k matches .heapInsert .. | .heapDelete .. | .heapUpdate ..

lemma Phase.next_heap (h : q.next k = some p) (hk : isHeap k) : ∃ wrote, q = .active wrote := by
  unfold Phase.next at h
  split at h <;> cases h <;> first | exact ⟨_, rfl⟩ | cases hk

lemma Phase.next_ddl {op : DdlOp} {table : String} {dirRoot timeTravelRoot : ℕ} {columns : List Column}
    (h : q.next (.ddl op table dirRoot timeTravelRoot columns) = some p) : q = .system := by
  cases q <;> first | rfl | cases h

/-- What a phase says about the records before: nobody is named before the end, and nothing is
both committed and aborted. -/
structure Phase.Says (p : Phase) (t : ℕ) (rs : List LogRecord) : Prop where
  writer : p.early → writerOf rs t = none
  system : p = .system ↔ t = 0
  committed : (∃ r ∈ rs, r.txnId = t ∧ r.kind = .commit) → p = .committed
  aborted : (∃ r ∈ rs, r.txnId = t ∧ r.kind = .abort) → p = .aborted ∨ p = .system

lemma exists_mem_concat (h : ∃ x ∈ rs ++ [r], x.txnId = t ∧ x.kind = k) :
    (∃ x ∈ rs, x.txnId = t ∧ x.kind = k) ∨ r.txnId = t ∧ r.kind = k := by
  obtain ⟨x, hx, hxt⟩ := h
  rcases mem_append.mp hx with hx | hx
  · exact .inl ⟨x, hx, hxt⟩
  · obtain rfl := mem_singleton.mp hx
    exact .inr hxt

lemma says_of_phaseOf (h : phaseOf t rs = some p) : p.Says t rs := by
  induction rs using reverseRecOn generalizing p with
  | nil =>
    obtain rfl := some.inj h
    refine ⟨fun _ => rfl, ?_, by simp, by simp⟩
    unfold Phase.start
    split <;> simp_all
  | append_singleton rs r ih =>
    rw [phaseOf_concat, phaseStep] at h
    by_cases ht : r.txnId = t
    · rw [if_pos ht] at h
      obtain ⟨q, hq, hnext⟩ := bind_eq_some_iff.mp h
      obtain ⟨hw, hs, hc, ha⟩ := ih hq
      refine ⟨fun hp => ?_, (Phase.next_system hnext).trans hs, fun h => ?_, fun h => ?_⟩
      · obtain ⟨hearly, hk⟩ := Phase.next_early hnext hp
        rw [writerOf_concat, writerStep]
        split
        · exact absurd ‹_› (hk _)
        · exact hw hearly
      · refine Phase.next_committed hnext ?_
        exact (exists_mem_concat h).imp hc And.right
      · refine Phase.next_aborted hnext ?_
        exact (exists_mem_concat h).imp ha And.right
    · rw [if_neg ht] at h
      obtain ⟨hw, hs, hc, ha⟩ := ih h
      have hold : ∀ {k : RecKind}, (∃ x ∈ rs ++ [r], x.txnId = t ∧ x.kind = k) →
          ∃ x ∈ rs, x.txnId = t ∧ x.kind = k := fun h =>
        (exists_mem_concat h).resolve_right fun h => ht h.1
      refine ⟨fun hp => ?_, hs, fun h => hc (hold h), fun h => ha (hold h)⟩
      rw [writerOf_concat, writerStep]
      split
      · rw [if_neg ht]
        exact hw hp
      · exact hw hp

end

end FerroDb.Replication
