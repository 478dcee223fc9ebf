import FerroDb.Branch.Codec
import FerroDb.Branch.LogCatalog

/-!
# The log of the branch catalog

The file behind a `LogBranchCatalog`: every record that an operation changes is appended with its
length in front, and opening the catalog replays the file. Replay stops at a record that is cut
short, but nothing removes the piece that is left of it, and what is appended later lands behind
it. As long as nothing is appended behind such a piece, every reopening recovers the records of
the catalog at the crash.
-/

namespace FerroDb.Branch

open List Option Std

open Cluster (beBytes ofBeBytes ofBeBytes_beBytes length_beBytes)

/-! ## The file -/

def BranchRecord.frame (r : BranchRecord) : List UInt8 :=
  beBytes 4 r.serialize.length ++ r.serialize

/-- The records at the front of a log, and the bytes behind them that are no whole record. -/
def replayFrom : ℕ → List UInt8 → Except FerroError (List BranchRecord × List UInt8)
  | 0, bytes => .ok ([], bytes)
  | fuel + 1, bytes =>
    if bytes.length < 4 then .ok ([], bytes)
    else
      let len := ofBeBytes (bytes.take 4)
      let rest := bytes.drop 4
      if rest.length < len then .ok ([], bytes)
      else
        match BranchRecord.deserialize (rest.take len) with
        | .ok r => (replayFrom fuel (rest.drop len)).map fun (rs, torn) => (r :: rs, torn)
        | .error e => .error e.toError

/-- Every round of the loop moves on by four bytes at least. -/
def replay (file : List UInt8) : Except FerroError (List BranchRecord × List UInt8) :=
  replayFrom file.length file

/-- The file is opened for appending, and nothing is cut off it. -/
def LogBranchCatalog.openLog (trunkRoot : ℕ) (file : List UInt8) :
    Except FerroError LogBranchCatalog :=
  (replay file).map fun (existing, _) => index trunkRoot existing

/-- What an operation appends to the file. -/
def LogBranchCatalog.Outcome.bytes (o : LogBranchCatalog.Outcome) : List UInt8 :=
  o.appended.elim [] BranchRecord.frame

/-! ## Histories -/

/-- The arguments are of the widths the source gives them. -/
def CatalogOp.Fits : CatalogOp → Prop
  | .fork _ lease => lease < 2 ^ 64
  | .reparent _ parent forkEpoch root =>
    parent.id < 2 ^ 64 ∧ parent.generation < 2 ^ 32 ∧ forkEpoch < 2 ^ 64 ∧ root < 2 ^ 32
  | .restrictEnvelope _ envelope => envelope.Fits
  | .setRoot _ root => root < 2 ^ 32
  | .attachChild _ forkEpoch _ => forkEpoch < 2 ^ 64
  | .addArena _ arena => arena < 2 ^ 32
  | .renewLease _ lease => lease < 2 ^ 64
  | _ => True

structure CatalogCall where
  op : CatalogOp
  fits : op.Fits

inductive LogEvent where
  | call (c : CatalogCall)
  /-- The process dies in a call, when `n` bytes of what it appends are in the file, and the
  catalog is opened again. -/
  | crash (c : CatalogCall) (n : ℕ)

def LogEvent.made : LogEvent → CatalogCall
  | call c => c
  | crash c _ => c

structure LogWorld where
  file : List UInt8
  catalog : LogBranchCatalog

namespace LogWorld

/-- What the call of an event does. -/
def outcome (w : LogWorld) (c : CatalogCall) : LogBranchCatalog.Outcome := w.catalog.apply c.op

/-- The file a crash leaves. -/
def tornFile (w : LogWorld) (c : CatalogCall) (n : ℕ) : List UInt8 :=
  w.file ++ (w.outcome c).bytes.take n

def step (trunkRoot : ℕ) (w : LogWorld) : LogEvent → Except FerroError LogWorld
  | .call c => .ok ⟨w.file ++ (w.outcome c).bytes, (w.outcome c).catalog⟩
  | .crash c n =>
    (LogBranchCatalog.openLog trunkRoot (w.tornFile c n)).map fun catalog =>
      ⟨w.tornFile c n, catalog⟩

/-- A file that was just created. -/
def start (trunkRoot : ℕ) : LogWorld := ⟨[], .index trunkRoot []⟩

def after (trunkRoot : ℕ) (events : List LogEvent) : Except FerroError LogWorld :=
  events.foldlM (step trunkRoot) (start trunkRoot)

/-- What a call appends lands at the end of a whole record and has a length that four bytes hold. -/
def Appendable (w : LogWorld) (c : CatalogCall) : Prop :=
  ∀ r, (w.outcome c).appended = some r →
    (∃ rs, replay w.file = .ok (rs, [])) ∧ r.serialize.length < 2 ^ 32

instance (w : LogWorld) (c : CatalogCall) : Decidable (w.Appendable c) :=
  match h : (w.outcome c).appended with
  | none => isTrue fun r hr => by simp [h] at hr
  | some r =>
    match hw : replay w.file with
    | .ok (rs, []) =>
      decidable_of_iff (r.serialize.length < 2 ^ 32) (by simp [Appendable, h, hw])
    | .ok (_, _ :: _) => isFalse fun ha => by simpa [hw] using (ha r h).1
    | .error _ => isFalse fun ha => by simpa [hw] using (ha r h).1

end LogWorld

/-! ## Replaying whole records -/

/-- The front of a record that is cut short. -/
def Torn (bytes : List UInt8) : Prop :=
  bytes.length < 4 ∨ bytes.length - 4 < ofBeBytes (bytes.take 4)

lemma torn_nil : Torn [] := .inl (by decide)

namespace BranchRecord

variable {r : BranchRecord}

lemma take_frame (tail : List UInt8) (hsize : r.serialize.length < 2 ^ 32) :
    ofBeBytes ((r.frame ++ tail).take 4) = r.serialize.length := by
  exact ofBeBytes_beBytes (n := 4) hsize

lemma drop_frame (tail : List UInt8) : (r.frame ++ tail).drop 4 = r.serialize ++ tail := by
  rw [frame, append_assoc]
  exact drop_left' (length_beBytes 4 _)

lemma length_frame : r.frame.length = r.serialize.length + 4 := by
  rw [frame, length_append, length_beBytes]
  omega

lemma torn_take_frame (hsize : r.serialize.length < 2 ^ 32) {n : ℕ} (hn : n < r.frame.length) :
    Torn (r.frame.take n) := by
  rw [Torn, length_take, min_eq_left hn.le]
  rcases lt_or_ge n 4 with h | h
  · exact .inl h
  · have hlen := take_frame [] hsize
    rw [append_nil] at hlen
    rw [take_take, min_eq_left h]
    rw [length_frame] at hn
    omega

end BranchRecord

variable {torn : List UInt8} {a b : TreeMap ℕ BranchNode} {rs : List BranchRecord}
  {r r' : BranchRecord} {id : ℕ}

lemma replayFrom_torn (h : Torn torn) (fuel : ℕ) : replayFrom fuel torn = .ok ([], torn) := by
  cases fuel with
  | zero => rfl
  | succ fuel =>
    rw [replayFrom]
    rcases h with h | h
    · rw [if_pos h]
    · simp [if_pos h]

lemma replayFrom_frames (hrs : ∀ r ∈ rs, r.Fits ∧ r.serialize.length < 2 ^ 32) (ht : Torn torn) :
    ∀ fuel, rs.length ≤ fuel →
      replayFrom fuel (rs.flatMap BranchRecord.frame ++ torn) = .ok (rs, torn) := by
  induction rs with
  | nil => exact fun fuel _ => replayFrom_torn ht fuel
  | cons r rs ih =>
    rw [forall_mem_cons] at hrs
    intro fuel hfuel
    obtain ⟨fuel, rfl⟩ : ∃ n, fuel = n + 1 := ⟨fuel - 1, by simp at hfuel; omega⟩
    have hbytes : (r :: rs).flatMap BranchRecord.frame ++ torn =
        r.frame ++ (rs.flatMap BranchRecord.frame ++ torn) := by
      rw [flatMap_cons, append_assoc]
    rw [hbytes, replayFrom, if_neg (by rw [length_append, r.length_frame]; omega)]
    simp only [BranchRecord.take_frame _ hrs.1.2, BranchRecord.drop_frame, length_append,
      take_left', drop_left']
    rw [if_neg (by omega), BranchRecord.deserialize_serialize hrs.1.1 hrs.1.2]
    simp only [ih hrs.2 fuel (by simpa using hfuel)]
    rfl

/-- Replay finds the whole records of a log and leaves the piece behind them. -/
lemma replay_frames (hrs : ∀ r ∈ rs, r.Fits ∧ r.serialize.length < 2 ^ 32) (ht : Torn torn) :
    replay (rs.flatMap BranchRecord.frame ++ torn) = .ok (rs, torn) := by
  refine replayFrom_frames hrs ht _ ?_
  have hle : rs.length ≤ (rs.flatMap BranchRecord.frame).length :=
    length_le_flatMap fun r _ => by rw [r.length_frame]; omega
  rw [length_append]
  omega

/-! ## Records but for their children

The children of a branch are not read from its record: they are found from the parents that the
other records name. -/

/-- The same records, whatever they say of children. -/
def SameChildless (a b : TreeMap ℕ BranchRecord) : Prop :=
  ∀ id : ℕ, (a[id]?).map BranchRecord.childless = (b[id]?).map BranchRecord.childless

namespace SameChildless

variable {a b c : TreeMap ℕ BranchRecord}

lemma refl (a : TreeMap ℕ BranchRecord) : SameChildless a a := fun _ => rfl

lemma trans (h : SameChildless a b) (h' : SameChildless b c) : SameChildless a c :=
  fun id => (h id).trans (h' id)

lemma symm (h : SameChildless a b) : SameChildless b a := fun id => (h id).symm

lemma insert (h : SameChildless a b) (hr : r.childless = r'.childless) :
    SameChildless (a.insert id r) (b.insert id r') := by
  intro k
  rw [TreeMap.getElem?_insert, TreeMap.getElem?_insert]
  split_ifs
  · rw [map_some, map_some, hr]
  · exact h k

/-- Changing no more of a record than its children. -/
lemma insert_left (hr : a[id]? = some r)
    (hsame : r'.childless = r.childless) : SameChildless (a.insert id r') a := by
  intro k
  rw [TreeMap.getElem?_insert]
  split_ifs with h
  · obtain rfl : id = k := by simpa using h
    rw [hr, map_some, map_some, hsame]
  · rfl

/-- What does not look at the children is the same of both. -/
lemma map_eq {α : Type} {f : BranchRecord → α} (hf : ∀ r, f r = f r.childless)
    (h : SameChildless a b) (id : ℕ) : (a[id]?).map f = (b[id]?).map f := by
  have hsame (o : Option BranchRecord) : o.map f = (o.map BranchRecord.childless).map f := by
    rw [Option.map_map]
    exact congrArg (Option.map · o) (funext hf)
  rw [hsame, h id, ← hsame]

lemma nodesOf (h : SameChildless a b) : (nodesOf a).Equiv (nodesOf b) := by
  refine TreeMap.Equiv.of_forall_constGet?_eq fun id => ?_
  rw [Branch.nodesOf, Branch.nodesOf, TreeMap.getElem?_map, TreeMap.getElem?_map]
  exact h.map_eq (fun _ => rfl) id

end SameChildless

lemma climb_congr (h : a.Equiv b) (fuel : ℕ) :
    ∀ want holders, climb a fuel want holders = climb b fuel want holders := by
  induction fuel with
  | zero => exact fun want holders => rfl
  | succ fuel ih =>
    intro want holders
    cases want with
    | none => rfl
    | some want => simp [climb, h.getElem?_eq, ih]

lemma derivedChildren_congr (h : a.Equiv b) : derivedChildren a = derivedChildren b := by
  funext id
  have hholders : parentEntryHolders a = parentEntryHolders b := by
    simp [parentEntryHolders, h.toList_eq, h.size_eq, climb_congr h]
  simp [derivedChildren, hholders, h.toList_eq]

lemma getElem?_deriveLiveChildren (records : TreeMap ℕ BranchRecord) (id : ℕ) :
    (deriveLiveChildren records)[id]? = (records[id]?).map fun r =>
      { r with liveChildren := derivedChildren (nodesOf records) id } := by
  rw [deriveLiveChildren, TreeMap.getElem?_map]

/-- What is derived from the records does not depend on what they say of children. -/
lemma SameChildless.derive {a b : TreeMap ℕ BranchRecord} (h : SameChildless a b) :
    (deriveLiveChildren a).Equiv (deriveLiveChildren b) := by
  refine TreeMap.Equiv.of_forall_constGet?_eq fun id => ?_
  rw [getElem?_deriveLiveChildren, getElem?_deriveLiveChildren, derivedChildren_congr h.nodesOf]
  exact h.map_eq (fun _ => rfl) id

lemma sameChildless_derive (records : TreeMap ℕ BranchRecord) :
    SameChildless (deriveLiveChildren records) records := by
  intro id
  rw [getElem?_deriveLiveChildren, Option.map_map]
  rfl

end FerroDb.Branch
