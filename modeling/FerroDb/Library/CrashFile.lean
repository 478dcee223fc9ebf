import Mathlib.Data.List.Infix
import Mathlib.Tactic

/-!
# A file that a crash can tear

A file is what is durable and the operations issued since the last sync. A crash keeps every byte
that none of those operations touches; of the others it may keep the old bytes, the new ones, a
part of them, or anything else. Records carry a check, and the check is trusted to reveal a torn
record: what passes it after a crash stood there whole before it, either in the durable bytes or
in one of the writes.
-/

namespace FerroDb.Library

open List

inductive FileOp where
  | write (offset : ℕ) (bytes : List UInt8)
  | setLen (len : ℕ)

variable {c : List UInt8} {n : ℕ}

namespace FileOp

/-- The bytes after the operation. What lies between the end of a file and a write beyond it is
zero. -/
def apply (c : List UInt8) : FileOp → List UInt8
  | write off bs =>
    (c ++ replicate (off - c.length) 0).take off ++ bs ++ c.drop (off + bs.length)
  | setLen n => (c ++ replicate (n - c.length) 0).take n

/-- Whether the operation may change the byte at `p` of a file of length `len`. -/
def Touches (len p : ℕ) : FileOp → Prop
  | write off bs => p < off + bs.length ∧ (off ≤ p ∨ len ≤ p)
  | setLen n => n ≤ p ∨ len ≤ p

/-- The record `r` stands whole at `p` in what the operation writes. -/
def Carries (p : ℕ) (r : List UInt8) : FileOp → Prop
  | write off bs => off ≤ p ∧ r <+: bs.drop (p - off)
  | setLen _ => False

/-- A write that starts at or behind the end of the file. -/
lemma apply_write_beyond {off : ℕ} (h : c.length ≤ off) (bs : List UInt8) :
    apply c (write off bs) = c ++ replicate (off - c.length) 0 ++ bs := by
  have hdrop : c.drop (off + bs.length) = [] := drop_eq_nil_of_le (by omega)
  rw [apply, hdrop, append_nil, take_of_length_le (by simp; omega)]

/-- A write that starts inside the file and does not end inside it. -/
lemma apply_write_tail {a t bs : List UInt8} (h : t.length ≤ bs.length) :
    apply (a ++ t) (write a.length bs) = a ++ bs := by
  have hdrop := drop_eq_nil_of_le (by simpa using h)
  simp [apply, hdrop]

lemma apply_setLen_le (h : n ≤ c.length) : apply c (setLen n) = c.take n := by
  simp [apply, Nat.sub_eq_zero_of_le h]

end FileOp

structure File where
  durable : List UInt8
  /-- Issued since the last sync, in order. -/
  pending : List FileOp

namespace File

/-- A file as it is found on the disk. -/
def stored (c : List UInt8) : File := ⟨c, []⟩

/-- What a read sees. -/
def content (f : File) : List UInt8 := f.pending.foldl FileOp.apply f.durable

def issue (f : File) (op : FileOp) : File := { f with pending := f.pending ++ [op] }

def sync (f : File) : File := ⟨f.content, []⟩

@[simp] lemma content_stored (c : List UInt8) : (stored c).content = c := rfl

@[simp] lemma content_issue (f : File) (op : FileOp) :
    (f.issue op).content = op.apply f.content := by
  simp [content, issue]

@[simp] lemma content_sync (f : File) : f.sync.content = f.content := rfl
@[simp] lemma durable_sync (f : File) : f.sync.durable = f.content := rfl
@[simp] lemma pending_sync (f : File) : f.sync.pending = [] := rfl
@[simp] lemma durable_issue (f : File) (op : FileOp) : (f.issue op).durable = f.durable := rfl
@[simp] lemma pending_issue (f : File) (op : FileOp) :
    (f.issue op).pending = f.pending ++ [op] := rfl

def Touched (f : File) (p : ℕ) : Prop := ∃ op ∈ f.pending, op.Touches f.durable.length p

/-- The record `r` stood whole at `p`. -/
def Stands (f : File) (p : ℕ) (r : List UInt8) : Prop :=
  r <+: f.durable.drop p ∨ ∃ op ∈ f.pending, op.Carries p r

variable {Checks : List UInt8 → ℕ → List UInt8 → Prop} {f : File} {x : List UInt8}

/-- What a crash may leave of a file, where `Checks x p r` says that the record `r` passes its
check at `p`. -/
structure Crash (Checks : List UInt8 → ℕ → List UInt8 → Prop) (f : File) (x : List UInt8) :
    Prop where
  untouched : ∀ p, ¬ f.Touched p → x[p]? = f.durable[p]?
  revealed : ∀ p r, Checks x p r → f.Stands p r

/-- What lies below every operation survives. -/
lemma Crash.take_eq (h : Crash Checks f x) (hlow : ∀ p < n, ¬ f.Touched p) :
    x.take n = f.durable.take n := by
  refine ext_getElem? fun p => ?_
  rcases Nat.lt_or_ge p n with hp | hp
  · rw [getElem?_take_of_lt hp, getElem?_take_of_lt hp, h.untouched p (hlow p hp)]
  · rw [getElem?_eq_none (by simp; omega), getElem?_eq_none (by simp; omega)]

end File

end FerroDb.Library
