import FerroDb.Cluster.Types

/-!
# The rolling log digest

Every entry is folded into a 64-bit FNV-1a digest of the log before it, so that two logs of
the same digest at the same round hold the same bytes as far as the detector can tell. The
encoding folded here is the one `consensus/replicate.rs` writes out by hand, tag by tag.
-/

namespace FerroDb.Cluster

open List

/-- The `n` big-endian bytes of `v`. -/
def beBytes (n v : ℕ) : List UInt8 :=
  (List.range n).map fun k => UInt8.ofNat (v >>> (8 * (n - 1 - k)))

/-- The number big-endian bytes spell. -/
def ofBeBytes (bytes : List UInt8) : ℕ := bytes.foldl (fun v b => v * 256 + b.toNat) 0

@[simp] lemma length_beBytes (n v : ℕ) : (beBytes n v).length = n := by simp [beBytes]

lemma beBytes_succ (n v : ℕ) : beBytes (n + 1) v = UInt8.ofNat (v >>> (8 * n)) :: beBytes n v := by
  simp only [beBytes, range_succ_eq_map, map_cons, map_map]
  congr 1
  refine map_congr_left fun k _ => ?_
  simp only [Function.comp_apply]
  congr 3
  omega

lemma ofBeBytes_cons (b : UInt8) (bs : List UInt8) :
    ofBeBytes (b :: bs) = b.toNat * 256 ^ bs.length + ofBeBytes bs := by
  have aux (v : ℕ) (bs : List UInt8) :
      bs.foldl (fun v b => v * 256 + b.toNat) v = v * 256 ^ bs.length + ofBeBytes bs := by
    induction bs using reverseRecOn with
    | nil => simp [ofBeBytes]
    | append_singleton bs b ih =>
      simp only [ofBeBytes, foldl_append, foldl_cons, foldl_nil] at ih ⊢
      rw [ih, length_append, length_singleton]
      ring
  simpa [ofBeBytes] using aux b.toNat bs

/-- Big-endian bytes spell the number, if it fits. -/
lemma ofBeBytes_beBytes {n v : ℕ} (h : v < 256 ^ n) : ofBeBytes (beBytes n v) = v := by
  have aux (n v : ℕ) : ofBeBytes (beBytes n v) = v % 256 ^ n := by
    induction n with
    | zero => simp [beBytes, ofBeBytes, Nat.mod_one]
    | succ n ih =>
      have hpow : 2 ^ (8 * n) = 256 ^ n := by rw [pow_mul]; norm_num
      have hmod : v % 256 ^ (n + 1) = v / 256 ^ n % 256 * 256 ^ n + v % 256 ^ n := by
        rw [pow_succ, Nat.mod_mul]
        ring
      rw [beBytes_succ, ofBeBytes_cons, ih, length_beBytes, UInt8.toNat_ofNat',
        Nat.shiftRight_eq_div_pow, hpow, hmod]
  rw [aux, Nat.mod_eq_of_lt h]

lemma ofBeBytes_lt (bytes : List UInt8) : ofBeBytes bytes < 256 ^ bytes.length := by
  induction bytes with
  | nil => decide
  | cons b bytes ih =>
    have hb := b.toNat_lt
    have hmul : (b.toNat + 1) * 256 ^ bytes.length ≤ 256 * 256 ^ bytes.length :=
      Nat.mul_le_mul_right _ (by omega)
    rw [ofBeBytes_cons, length_cons]
    lia

/-- Bytes of one length that spell the same number are the same. -/
lemma ofBeBytes_inj {a b : List UInt8} (h : a.length = b.length)
    (heq : ofBeBytes a = ofBeBytes b) : a = b := by
  induction a generalizing b with
  | nil => exact (length_eq_zero_iff.mp h.symm).symm
  | cons x a ih =>
    obtain ⟨y, b, rfl⟩ := exists_of_length_succ b h.symm
    have hlen : a.length = b.length := Nat.succ.inj h
    have hdiv (z : UInt8) {c : List UInt8} (hc : c.length = b.length) :
        ofBeBytes (z :: c) / 256 ^ b.length = z.toNat := by
      have hlt := ofBeBytes_lt c
      rw [hc] at hlt
      rw [ofBeBytes_cons, hc, Nat.mul_comm, Nat.mul_add_div (by positivity), Nat.div_eq_of_lt hlt,
        Nat.add_zero]
    obtain rfl : x = y := UInt8.toNat_inj.mp (by rw [← hdiv x hlen, heq, hdiv y rfl])
    rw [ofBeBytes_cons, ofBeBytes_cons, hlen, Nat.add_left_cancel_iff] at heq
    rw [ih hlen heq]

lemma beBytes_ofBeBytes (bytes : List UInt8) : beBytes bytes.length (ofBeBytes bytes) = bytes :=
  ofBeBytes_inj (by simp) (ofBeBytes_beBytes (ofBeBytes_lt bytes))

def fnv64Update (h : UInt64) (bytes : List UInt8) : UInt64 :=
  bytes.foldl (fun h b => (h ^^^ b.toUInt64) * 0x00000100000001b3) h

def fnvOffset : UInt64 := 0xcbf29ce484222325

def strBytes (s : String) : List UInt8 := s.toUTF8.toList

def foldU64 (h : UInt64) (v : ℕ) : UInt64 := fnv64Update h (beBytes 8 v)

def foldTag (h : UInt64) (tag : UInt8) : UInt64 := fnv64Update h [tag]

/-- The length goes first, so that two adjacent fields cannot trade bytes. -/
def foldBytes (h : UInt64) (bytes : List UInt8) : UInt64 :=
  fnv64Update (foldU64 h bytes.length) bytes

def foldStr (h : UInt64) (s : String) : UInt64 := foldBytes h (strBytes s)

def foldDataType (h : UInt64) : DataType → UInt64
  | .integer => foldTag h 0
  | .float => foldTag h 1
  | .boolean => foldTag h 2
  | .varchar n => foldU64 (foldTag h 3) n
  | .bigInt => foldTag h 4
  | .decimal => foldTag h 5
  | .timestamp => foldTag h 6

def foldColumnAlteration (h : UInt64) : ColumnAlteration → UInt64
  | .add column => foldStr (foldTag h 0) column
  | .rename old new => foldStr (foldStr (foldTag h 1) old) new
  | .retype column old => foldDataType (foldStr (foldTag h 2) column) old

def foldDdlOp (h : UInt64) : DdlOp → UInt64
  | .createTable => foldTag h 0
  | .dropTable => foldTag h 1
  | .alterColumn alt => foldColumnAlteration (foldTag h 2) alt

def foldConfig (h : UInt64) (c : Config) : UInt64 :=
  let h := foldU64 (foldU64 h c.version) c.term
  let h := c.members.foldl foldU64 (foldU64 h c.members.length)
  c.learners.foldl foldU64 (foldU64 h c.learners.length)

def foldBranchOp (h : UInt64) : BranchOp → UInt64
  | .fork child parent forkEpoch leaseMillis =>
    foldU64 (foldU64 (foldU64 (foldU64 (foldTag h 0) child) parent) forkEpoch) leaseMillis
  | .merge branch baseRound => foldU64 (foldU64 (foldTag h 1) branch) baseRound
  | .abandon branch => foldU64 (foldTag h 2) branch
  | .reap branch generation => foldU64 (foldU64 (foldTag h 3) branch) generation

def foldCommand (h : UInt64) : Command → UInt64
  | .walBatch startLsn bytes => foldBytes (foldU64 (foldTag h 0) startLsn) bytes
  | .catalog op table columns =>
    let h := foldStr (foldDdlOp (foldTag h 1) op) table
    columns.foldl
      (fun h (name, ty, nullable) =>
        foldTag (foldDataType (foldStr h name) ty) (if nullable then 1 else 0))
      (foldU64 h columns.length)
  | .branch op => foldBranchOp (foldTag h 2) op
  | .arenaGrant node firstPage pageCount =>
    foldU64 (foldU64 (foldU64 (foldTag h 3) node) firstPage) pageCount
  | .txnIdRange node lo hi => foldU64 (foldU64 (foldU64 (foldTag h 4) node) lo) hi
  | .leaseTick unixMillis => foldU64 (foldTag h 5) unixMillis
  | .checkpoint => foldTag h 6
  | .membership config => foldConfig (foldTag h 7) config
  | .noOp => foldTag h 8

/-- Zero is how an acknowledgement says that it claims nothing. -/
def neverZero (h : UInt64) : UInt64 := if h = 0 then fnvOffset else h

def foldEntry (prev : UInt64) (e : Entry) : UInt64 :=
  neverZero (foldCommand (foldU64 (foldU64 prev e.term) e.round) e.command)

/-- A digest as `{:#018x}` prints it. -/
def showDigest (d : UInt64) : String :=
  let digits := Nat.toDigits 16 d.toNat
  "0x" ++ String.ofList (replicate (16 - digits.length) '0' ++ digits)

end FerroDb.Cluster
