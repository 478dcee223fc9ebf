import FerroDb.Cluster.Digest
import FerroDb.Cow.Node
import FerroDb.Library.BlockOrder

/-!
# Keys of the catalog that is kept in a tree

`branch/tree_keys.rs`: one tree holds the records of the catalog and its indexes. A key is a tag
for what it belongs to, and the numbers it is made of, big-endian, so that bytes compare as the
numbers do. What is to be read newest or highest first is written as its complement.

## Main definitions

* `CatalogKey`: the keys by what they are made of; `encode` gives their bytes.
* `expiredAtOrBefore`, `wholeState`, `childrenOf`, `childrenInEpochRange`, `arenasOf`: the spans of
  keys that queries read.
-/

namespace FerroDb.Branch.TreeKeys

open Library Cluster Cow List UInt64

/-! ## Keys -/

namespace Tag

def record : UInt8 := 0x00
def deadline : UInt8 := 0x01
def state : UInt8 := 0x02
def child : UInt8 := 0x03
def freeId : UInt8 := 0x04
def envelope : UInt8 := 0x05
def arena : UInt8 := 0x06
def header : UInt8 := 0x07

end Tag

def maxU64 : UInt64 := 0xFFFFFFFFFFFFFFFF

/-- `to_be_bytes` of a `u64`. -/
def be64 (v : UInt64) : Key := beBytes 8 v.toNat

/-- `to_be_bytes` of a `u32`. -/
def be32 (v : UInt32) : Key := beBytes 4 v.toNat

def record (id : UInt64) : Key := Tag.record :: be64 id

def deadline (deadlineMillis id : UInt64) : Key := Tag.deadline :: (be64 deadlineMillis ++ be64 id)

def state (stateTag : UInt8) (id : UInt64) : Key := Tag.state :: stateTag :: be64 id

def child (parentId forkEpoch : UInt64) : Key :=
  Tag.child :: (be64 parentId ++ be64 (maxU64 - forkEpoch))

def freeId (id : UInt64) : Key := Tag.freeId :: be64 (maxU64 - id)

def header : Key := [Tag.header]

def envelope (id : UInt64) : Key := Tag.envelope :: be64 id

def arena (branchId : UInt64) (arenaId : UInt32) : Key :=
  Tag.arena :: (be64 branchId ++ be32 arenaId)

/-! ## Spans -/

/-- `checked_add(1)`. -/
def checkedSucc (v : UInt64) : Option UInt64 := if v = maxU64 then none else some (v + 1)

def checkedSucc8 (v : UInt8) : Option UInt8 := if v = 0xFF then none else some (v + 1)

/-- A span of keys, from its first key on and below its end. -/
abbrev Span := Key × Key

def Span.Has (span : Span) (key : Key) : Prop := span.1 ≤ key ∧ key < span.2

/-- Below the keys of a group whose first number is not below `v` any more, or below the next
group if there are no such keys. -/
def above (tag : UInt8) (v : UInt64) : Key :=
  match checkedSucc v with
  | some next => tag :: be64 next
  | none => [tag + 1]

def expiredAtOrBefore (nowMillis : UInt64) : Span := ([Tag.deadline], above Tag.deadline nowMillis)

def wholeState (stateTag : UInt8) : Span :=
  ([Tag.state, stateTag],
    match checkedSucc8 stateTag with
    | some next => [Tag.state, next]
    | none => [Tag.state + 1])

def childrenOf (parentId : UInt64) : Span := (Tag.child :: be64 parentId, above Tag.child parentId)

/-- The first key and the last one: the end is in the span. -/
def childrenInEpochRange (parentId loEpoch hiEpoch : UInt64) : Option (Key × Key) :=
  if loEpoch ≥ hiEpoch then none
  else some (child parentId (hiEpoch - 1), child parentId loEpoch)

def arenasOf (branchId : UInt64) : Span := (Tag.arena :: be64 branchId, above Tag.arena branchId)

/-! ## What keys are made of -/

inductive CatalogKey where
  | record (id : UInt64)
  | deadline (millis id : UInt64)
  | state (stateTag : UInt8) (id : UInt64)
  | child (parentId forkEpoch : UInt64)
  | freeId (id : UInt64)
  | envelope (id : UInt64)
  | arena (branchId : UInt64) (arenaId : UInt32)
  | header
deriving DecidableEq

namespace CatalogKey

def encode : CatalogKey → Key
  | record id => TreeKeys.record id
  | deadline millis id => TreeKeys.deadline millis id
  | state stateTag id => TreeKeys.state stateTag id
  | child parentId forkEpoch => TreeKeys.child parentId forkEpoch
  | freeId id => TreeKeys.freeId id
  | envelope id => TreeKeys.envelope id
  | arena branchId arenaId => TreeKeys.arena branchId arenaId
  | header => TreeKeys.header

def tag : CatalogKey → UInt8
  | record .. => Tag.record
  | deadline .. => Tag.deadline
  | state .. => Tag.state
  | child .. => Tag.child
  | freeId .. => Tag.freeId
  | envelope .. => Tag.envelope
  | arena .. => Tag.arena
  | header => Tag.header

/-- The order in which the tree is meant to keep the keys: the groups by their tags, and in a group
by its numbers, children newest first and free slots highest first. -/
def Before : CatalogKey → CatalogKey → Prop
  | record id, record id' => id < id'
  | deadline millis id, deadline millis' id' => millis < millis' ∨ millis = millis' ∧ id < id'
  | state s id, state s' id' => s < s' ∨ s = s' ∧ id < id'
  | child parent epoch, child parent' epoch' => parent < parent' ∨ parent = parent' ∧ epoch' < epoch
  | freeId id, freeId id' => id' < id
  | envelope id, envelope id' => id < id'
  | arena branch a, arena branch' a' => branch < branch' ∨ branch = branch' ∧ a < a'
  | k, k' => k.tag < k'.tag

end CatalogKey

/-! ## Numbers and their bytes -/

/-- Bytes of one length compare as the numbers they spell. -/
lemma lt_iff_ofBeBytes_lt {a b : Key} (h : a.length = b.length) :
    a < b ↔ ofBeBytes a < ofBeBytes b := by
  induction a generalizing b with
  | nil =>
    obtain rfl := length_eq_zero_iff.mp h.symm
    simp
  | cons x a ih =>
    obtain ⟨y, b, rfl⟩ := exists_of_length_succ b h.symm
    have hlen : a.length = b.length := Nat.succ.inj h
    have ha := ofBeBytes_lt a
    have hb := ofBeBytes_lt b
    rw [cons_lt_cons_iff, ih hlen, ofBeBytes_cons, ofBeBytes_cons, ← UInt8.toNat_inj, hlen]
    rw [hlen] at ha
    generalize 256 ^ b.length = m at ha hb
    constructor
    · rintro (hxy | ⟨hxy, hlt⟩)
      · have hmul : (x.toNat + 1) * m ≤ y.toNat * m := Nat.mul_le_mul_right _ hxy
        lia
      · rw [hxy]
        omega
    · intro hlt
      rcases lt_trichotomy x.toNat y.toNat with hxy | hxy | hxy
      · exact .inl hxy
      · rw [hxy] at hlt
        exact .inr ⟨hxy, by omega⟩
      · have hmul : (y.toNat + 1) * m ≤ x.toNat * m := Nat.mul_le_mul_right _ hxy
        lia

lemma beBytes_lt_beBytes {n v w : ℕ} (hv : v < 256 ^ n) (hw : w < 256 ^ n) :
    beBytes n v < beBytes n w ↔ v < w := by
  rw [lt_iff_ofBeBytes_lt (by simp), ofBeBytes_beBytes hv, ofBeBytes_beBytes hw]

variable {v w : UInt64} {t t' : UInt8} {xs ys : Key} {k : CatalogKey}

@[simp] lemma length_be64 : (be64 v).length = 8 := length_beBytes 8 _

@[simp] lemma be64_lt_be64 : be64 v < be64 w ↔ v < w := by
  exact beBytes_lt_beBytes v.toNat_lt w.toNat_lt

@[simp] lemma be64_le_be64 : be64 v ≤ be64 w ↔ v ≤ w := by
  rw [← not_lt, be64_lt_be64, UInt64.not_lt]

@[simp] lemma be64_inj : be64 v = be64 w ↔ v = w := by
  rw [le_antisymm_iff, be64_le_be64, be64_le_be64, UInt64.le_antisymm_iff]

@[simp] lemma be32_inj {v w : UInt32} : be32 v = be32 w ↔ v = w := by
  refine ⟨fun h => UInt32.toNat_inj.mp ?_, fun h => by rw [h]⟩
  have heq := congrArg ofBeBytes h
  rwa [be32, be32, ofBeBytes_beBytes v.toNat_lt, ofBeBytes_beBytes w.toNat_lt] at heq

@[simp] lemma be32_lt_be32 {v w : UInt32} : be32 v < be32 w ↔ v < w := by
  exact beBytes_lt_beBytes v.toNat_lt w.toNat_lt

lemma toNat_complement (v : UInt64) : (maxU64 - v).toNat = 2 ^ 64 - 1 - v.toNat := by
  have hv := v.toNat_lt
  exact UInt64.toNat_sub_of_le _ _ (le_iff_toNat_le.mpr (by change _ ≤ 2 ^ 64 - 1; omega))

@[simp] lemma complement_lt_complement : maxU64 - v < maxU64 - w ↔ w < v := by
  have hv := v.toNat_lt
  rw [lt_iff_toNat_lt, lt_iff_toNat_lt, toNat_complement, toNat_complement]
  omega

@[simp] lemma block_eq_block : be64 v ++ xs = be64 w ++ ys ↔ v = w ∧ xs = ys := by
  refine ⟨fun h => ?_, fun ⟨hv, hx⟩ => by rw [hv, hx]⟩
  obtain ⟨hv, hx⟩ := append_inj h (by simp)
  exact ⟨be64_inj.mp hv, hx⟩

@[simp] lemma block_lt_block : be64 v ++ xs < be64 w ++ ys ↔ v < w ∨ v = w ∧ xs < ys := by
  rw [append_lt_append_iff (by simp), be64_lt_be64, be64_inj]

/-! ## The order of keys -/

namespace CatalogKey

/-- What follows the tag. -/
def body : CatalogKey → Key
  | record id | envelope id => be64 id
  | deadline millis id => be64 millis ++ be64 id
  | state stateTag id => stateTag :: be64 id
  | child parentId forkEpoch => be64 parentId ++ be64 (maxU64 - forkEpoch)
  | freeId id => be64 (maxU64 - id)
  | arena branchId arenaId => be64 branchId ++ be32 arenaId
  | header => []

lemma encode_eq (k : CatalogKey) : k.encode = k.tag :: k.body := by cases k <;> rfl

lemma encode_lt_encode (k k' : CatalogKey) : k.encode < k'.encode ↔ k.Before k' := by
  rw [encode_eq, encode_eq]
  cases k <;> cases k' <;> simp [tag, body, Before, cons_lt_cons_iff, Tag.record,
    Tag.deadline, Tag.state, Tag.child, Tag.freeId, Tag.envelope, Tag.arena, Tag.header]

lemma encode_inj {k' : CatalogKey} : k.encode = k'.encode ↔ k = k' := by
  rw [encode_eq, encode_eq]
  cases k <;> cases k' <;> simp [tag, body, Tag.record, Tag.deadline, Tag.state, Tag.child,
    Tag.freeId, Tag.envelope, Tag.arena, Tag.header]

end CatalogKey

/-! ## Spans -/

lemma toNat_succ (h : v ≠ maxU64) : (v + 1).toNat = v.toNat + 1 := by
  have hv := v.toNat_lt
  have hne : v.toNat ≠ 2 ^ 64 - 1 := fun heq => h (UInt64.toNat_inj.mp heq)
  change (v.toNat + 1) % 2 ^ 64 = _
  omega

lemma lt_tag_succ_iff (ht : t ≠ 0xFF) : t' < t + 1 ↔ t' ≤ t := by
  have hlt := t.toNat_lt
  have hne : t.toNat ≠ 255 := fun heq => ht (UInt8.toNat_inj.mp heq)
  rw [UInt8.le_iff_toNat_le]
  change t'.toNat < (t.toNat + 1) % 2 ^ 8 ↔ _
  omega

/-- A span that starts in a group and does not reach beyond the next group's tag holds keys of the
group only. -/
lemma tag_eq_of_has {stop : Key} (ht : t ≠ 0xFF) (hstop : stop ≤ [t + 1])
    (h : Span.Has (t :: xs, stop) k.encode) : k.tag = t := by
  obtain ⟨hlo, hhi⟩ := h
  rw [k.encode_eq] at hlo hhi
  have hle : k.tag ≤ t := (lt_tag_succ_iff ht).mp (cons_lt_singleton_iff.mp (hhi.trans_le hstop))
  rcases hle.lt_or_eq with hbelow | heq
  · exact absurd (cons_lt_cons_iff.mpr (.inl hbelow)) (not_lt.mpr hlo)
  · exact heq

lemma above_le (ht : t ≠ 0xFF) : above t v ≤ [t + 1] := by
  unfold above checkedSucc
  split_ifs
  · exact le_rfl
  · exact (cons_lt_singleton_iff.mpr ((lt_tag_succ_iff ht).mpr le_rfl)).le

lemma lt_above (ht : t ≠ 0xFF) : t :: (be64 w ++ xs) < above t v ↔ w ≤ v := by
  unfold above checkedSucc
  split_ifs with hmax
  · refine iff_of_true (cons_lt_singleton_iff.mpr ((lt_tag_succ_iff ht).mpr le_rfl)) ?_
    rw [hmax]
    change _ ≤ 2 ^ 64 - 1
    omega
  · have hblock : be64 w ++ xs < be64 (v + 1) ↔ w < v + 1 := by
      rw [append_lt_block_iff (by simp), be64_lt_be64]
    rw [cons_lt_cons_iff, hblock, lt_iff_toNat_lt, toNat_succ hmax,
      le_iff_toNat_le]
    simp only [lt_self_iff_false, true_and, false_or]
    omega

lemma block_le : t :: be64 v ≤ t :: (be64 w ++ ys) ↔ v ≤ w := by
  rw [← not_lt, cons_lt_cons_iff, append_lt_block_iff (by simp)]
  simp

/-- The keys of a group whose first number is `v`. -/
lemma has_block_iff (ht : t ≠ 0xFF) :
    Span.Has (t :: be64 v, above t v) (t :: (be64 w ++ xs)) ↔ w = v := by
  rw [Span.Has, block_le, lt_above ht, UInt64.le_antisymm_iff]
  exact And.comm

namespace CatalogKey

variable {k : CatalogKey}

lemma eq_deadline (h : k.tag = Tag.deadline) : ∃ millis id, k = deadline millis id := by
  cases k <;> first | exact ⟨_, _, rfl⟩ | exact absurd h (by rw [tag]; decide)

lemma eq_state (h : k.tag = Tag.state) : ∃ stateTag id, k = state stateTag id := by
  cases k <;> first | exact ⟨_, _, rfl⟩ | exact absurd h (by rw [tag]; decide)

lemma eq_child (h : k.tag = Tag.child) : ∃ parentId forkEpoch, k = child parentId forkEpoch := by
  cases k <;> first | exact ⟨_, _, rfl⟩ | exact absurd h (by rw [tag]; decide)

lemma eq_arena (h : k.tag = Tag.arena) : ∃ branchId arenaId, k = arena branchId arenaId := by
  cases k <;> first | exact ⟨_, _, rfl⟩ | exact absurd h (by rw [tag]; decide)

end CatalogKey

lemma has_expiredAtOrBefore (now : UInt64) (k : CatalogKey) :
    (expiredAtOrBefore now).Has k.encode ↔ ∃ millis id, k = .deadline millis id ∧ millis ≤ now := by
  constructor
  · intro h
    obtain ⟨millis, id, rfl⟩ :=
      CatalogKey.eq_deadline (tag_eq_of_has (by decide) (above_le (by decide)) h)
    exact ⟨millis, id, rfl, (lt_above (by decide)).mp h.2⟩
  · rintro ⟨millis, id, rfl, hle⟩
    refine ⟨?_, (lt_above (by decide)).mpr hle⟩
    exact cons_le_cons _ (not_lt.mp (not_lt_nil _))

lemma wholeState_le (stateTag : UInt8) : (wholeState stateTag).2 ≤ [Tag.state + 1] := by
  unfold wholeState checkedSucc8
  split_ifs
  · exact le_rfl
  · exact (cons_lt_singleton_iff.mpr (by decide)).le

lemma has_state_iff (stateTag s : UInt8) (id : UInt64) :
    (wholeState stateTag).Has (state s id) ↔ s = stateTag := by
  have hlo : [Tag.state, stateTag] ≤ state s id ↔ stateTag ≤ s := by
    rw [← not_lt, state, cons_lt_cons_iff, cons_lt_singleton_iff]
    simp
  have hhi : state s id < (wholeState stateTag).2 ↔ s ≤ stateTag := by
    unfold wholeState checkedSucc8
    split_ifs with hmax
    · refine iff_of_true (cons_lt_singleton_iff.mpr (by decide)) ?_
      have hs := s.toNat_lt
      rw [hmax, UInt8.le_iff_toNat_le]
      change _ ≤ 255
      omega
    · rw [state, cons_lt_cons_iff, cons_lt_singleton_iff, lt_tag_succ_iff hmax]
      simp
  rw [Span.Has, hhi, UInt8.le_antisymm_iff]
  exact (and_congr_left' hlo).trans And.comm

lemma has_wholeState (stateTag : UInt8) (k : CatalogKey) :
    (wholeState stateTag).Has k.encode ↔ ∃ id, k = .state stateTag id := by
  constructor
  · intro h
    obtain ⟨s, id, rfl⟩ := CatalogKey.eq_state (tag_eq_of_has (by decide) (wholeState_le _) h)
    obtain rfl := (has_state_iff stateTag s id).mp h
    exact ⟨id, rfl⟩
  · rintro ⟨id, rfl⟩
    exact (has_state_iff stateTag stateTag id).mpr rfl

lemma has_childrenOf (parentId : UInt64) (k : CatalogKey) :
    (childrenOf parentId).Has k.encode ↔ ∃ forkEpoch, k = .child parentId forkEpoch := by
  constructor
  · intro h
    obtain ⟨p, epoch, rfl⟩ :=
      CatalogKey.eq_child (tag_eq_of_has (by decide) (above_le (by decide)) h)
    obtain rfl := (has_block_iff (by decide)).mp h
    exact ⟨epoch, rfl⟩
  · rintro ⟨epoch, rfl⟩
    exact (has_block_iff (by decide)).mpr rfl

lemma has_arenasOf (branchId : UInt64) (k : CatalogKey) :
    (arenasOf branchId).Has k.encode ↔ ∃ arenaId, k = .arena branchId arenaId := by
  constructor
  · intro h
    obtain ⟨b, a, rfl⟩ := CatalogKey.eq_arena (tag_eq_of_has (by decide) (above_le (by decide)) h)
    obtain rfl := (has_block_iff (by decide)).mp h
    exact ⟨a, rfl⟩
  · rintro ⟨a, rfl⟩
    exact (has_block_iff (by decide)).mpr rfl

lemma tag_le_of_le (h : t :: xs ≤ t' :: ys) : t ≤ t' :=
  not_lt.mp fun hlt => absurd (cons_lt_cons_iff.mpr (.inl hlt)) (not_lt.mpr h)

/-- Newest first, the last epoch before `hi` comes first and `lo` comes last. -/
lemma between_child {parentId lo hi p epoch : UInt64} (h : ¬lo ≥ hi) :
    child parentId (hi - 1) ≤ child p epoch ∧ child p epoch ≤ child parentId lo ↔
      p = parentId ∧ lo ≤ epoch ∧ epoch < hi := by
  have hpred : (hi - 1).toNat = hi.toNat - 1 := by
    refine UInt64.toNat_sub_of_le _ _ (le_iff_toNat_le.mpr ?_)
    rw [ge_iff_le, le_iff_toNat_le] at h
    change 1 ≤ hi.toNat
    omega
  have hlt (a b c d : UInt64) : child a b < child c d ↔ a < c ∨ a = c ∧ d < b :=
    CatalogKey.encode_lt_encode (.child a b) (.child c d)
  rw [← not_lt, ← not_lt, hlt, hlt]
  simp only [lt_iff_toNat_lt, le_iff_toNat_le, ← UInt64.toNat_inj] at h ⊢
  omega

lemma mem_childrenInEpochRange (parentId lo hi : UInt64) (k : CatalogKey) :
    (∃ first last, childrenInEpochRange parentId lo hi = some (first, last) ∧
      first ≤ k.encode ∧ k.encode ≤ last) ↔
    ∃ forkEpoch, k = .child parentId forkEpoch ∧ lo ≤ forkEpoch ∧ forkEpoch < hi := by
  unfold childrenInEpochRange
  split_ifs with hempty
  · simp only [false_and, exists_false, false_iff]
    rintro ⟨epoch, -, hlo, hhi⟩
    exact absurd (UInt64.lt_of_le_of_lt hlo hhi) (UInt64.not_lt.mpr hempty)
  · simp only [Option.some.injEq, Prod.mk.injEq, ↓existsAndEq, true_and]
    constructor
    · rintro ⟨hfirst, hlast⟩
      have htag : k.tag = Tag.child :=
        le_antisymm (tag_le_of_le (k.encode_eq ▸ hlast)) (tag_le_of_le (k.encode_eq ▸ hfirst))
      obtain ⟨p, epoch, rfl⟩ := CatalogKey.eq_child htag
      obtain ⟨rfl, hlo, hhi⟩ := (between_child hempty).mp ⟨hfirst, hlast⟩
      exact ⟨epoch, rfl, hlo, hhi⟩
    · rintro ⟨epoch, rfl, hlo, hhi⟩
      exact (between_child hempty).mpr ⟨rfl, hlo, hhi⟩

/-- Keys are kept in the order that is meant, two keys have the same bytes only if they are the same
key, and every span holds the keys that its arguments describe: half open in bytes but for the
range of epochs, whose last key is in it and whose epochs are the half-open interval. -/
theorem spans_exact (k k' : CatalogKey) (nowMillis parentId loEpoch hiEpoch branchId : UInt64)
    (stateTag : UInt8) :
    (k.encode < k'.encode ↔ k.Before k') ∧ (k.encode = k'.encode ↔ k = k') ∧
    ((expiredAtOrBefore nowMillis).Has k.encode ↔
      ∃ millis id, k = .deadline millis id ∧ millis ≤ nowMillis) ∧
    ((wholeState stateTag).Has k.encode ↔ ∃ id, k = .state stateTag id) ∧
    ((childrenOf parentId).Has k.encode ↔ ∃ forkEpoch, k = .child parentId forkEpoch) ∧
    ((∃ first last, childrenInEpochRange parentId loEpoch hiEpoch = some (first, last) ∧
        first ≤ k.encode ∧ k.encode ≤ last) ↔
      ∃ forkEpoch, k = .child parentId forkEpoch ∧ loEpoch ≤ forkEpoch ∧ forkEpoch < hiEpoch) ∧
    ((arenasOf branchId).Has k.encode ↔ ∃ arenaId, k = .arena branchId arenaId) :=
  ⟨k.encode_lt_encode k', CatalogKey.encode_inj, has_expiredAtOrBefore nowMillis k,
    has_wholeState stateTag k, has_childrenOf parentId k,
    mem_childrenInEpochRange parentId loEpoch hiEpoch k, has_arenasOf branchId k⟩

end FerroDb.Branch.TreeKeys
