import FerroDb.Branch.Envelope
import FerroDb.Branch.Types

/-!
# Branch records

What the catalog keeps of a branch, after `branch/types.rs` and `branch/record.rs`: which slot it
occupies and since which generation, where it was forked from, what it owns, and its state.
-/

namespace FerroDb.Branch

inductive BranchState where
  | live
  | quarantined
  | reaping
  | reaped
deriving DecidableEq

/-- The `Debug` of a state. -/
def BranchState.debug : BranchState → String
  | live => "Live"
  | quarantined => "Quarantined"
  | reaping => "Reaping"
  | reaped => "Reaped"

/-- The `Display` of a branch id. -/
def branchName (b : BranchId) : String := s!"b{b.id}@g{b.generation}"

inductive BranchError where
  | notFound (branch : BranchId)
  | reaped (requested : BranchId) (currentGeneration : ℕ)
  | reaping (branch : BranchId)
  | unexpectedState (branch : BranchId) (expected actual : BranchState)
  | notWritable (branch : BranchId)
  | corrupt (msg : String)
  | arena (msg : String)
deriving DecidableEq

def BranchError.toError (e : BranchError) : FerroError := .branch <|
  match e with
  | notFound b => s!"branch {branchName b} not found"
  | reaped requested current =>
    s!"branch {branchName requested} has been reaped (id slot is now at generation {current})"
  | reaping b => s!"branch {branchName b} is being reaped"
  | unexpectedState b expected actual =>
    s!"branch {branchName b} is {actual.debug}, not {expected.debug}: the state transition was " ++
      "computed against a record that has since moved"
  | notWritable b => s!"branch {branchName b} is not writable"
  | corrupt s => s!"corrupt branch metadata: {s}"
  | arena s => s!"arena error: {s}"

structure BranchRecord where
  /-- The slot, and the generation it had when the branch took it. -/
  branchId : BranchId
  generation : ℕ
  parentId : Option BranchId
  forkEpoch : ℕ
  rootPageId : ℕ
  leaseDeadline : ℕ
  state : BranchState
  arenas : List ℕ
  /-- When the children that still live were forked, in ascending order. -/
  liveChildren : List ℕ
  depth : ℕ
  envelope : Option CapabilityEnvelope

namespace BranchRecord

def trunk (rootPageId leaseDeadline : ℕ) : BranchRecord where
  branchId := .trunk
  generation := 0
  parentId := none
  forkEpoch := 0
  rootPageId := rootPageId
  leaseDeadline := leaseDeadline
  state := .live
  arenas := []
  liveChildren := []
  depth := 0
  envelope := none

/-- One level below, as far as a `u32` can tell. -/
def below (depth : ℕ) : ℕ := min (depth + 1) (2 ^ 32 - 1)

def forkChild (parent : BranchRecord) (childId : BranchId) (forkEpoch leaseDeadline : ℕ) :
    Except BranchError BranchRecord :=
  if parent.state ≠ .live then .error (.notWritable parent.branchId)
  else .ok {
    branchId := childId
    generation := childId.generation
    parentId := some parent.branchId
    forkEpoch := forkEpoch
    rootPageId := parent.rootPageId
    leaseDeadline := leaseDeadline
    state := .live
    arenas := []
    liveChildren := []
    depth := below parent.depth
    envelope := parent.envelope.map CapabilityEnvelope.inherited }

/-- Put in before the first epoch that is not smaller. -/
def insertEpoch (epoch : ℕ) : List ℕ → List ℕ
  | [] => [epoch]
  | e :: es => if e < epoch then e :: insertEpoch epoch es else epoch :: e :: es

variable (r : BranchRecord)

def addLiveChild (epoch : ℕ) : BranchRecord :=
  { r with liveChildren := insertEpoch epoch r.liveChildren }

/-- Whether there was such a child, and the record without it. -/
def removeLiveChild (epoch : ℕ) : Bool × BranchRecord :=
  let pos := (r.liveChildren.takeWhile (· < epoch)).length
  if r.liveChildren[pos]? = some epoch then
    (true, { r with liveChildren := r.liveChildren.eraseIdx pos })
  else (false, r)

/-- All of a record but its children. -/
def childless : BranchRecord := { r with liveChildren := [] }

def checkReadable (requested : BranchId) : Except BranchError Unit :=
  if requested.generation ≠ r.generation ∨ r.state = .reaped then
    .error (.reaped requested r.generation)
  else
    match r.state with
    | .live | .quarantined => .ok ()
    | .reaping => .error (.reaping r.branchId)
    | .reaped => .error (.reaped requested r.generation)

/-- Retired: the next one to take the slot is of another generation. -/
def markReaped : BranchRecord :=
  { r with state := .reaped, generation := (r.generation + 1) % 2 ^ 32, arenas := [] }

def restrict (r : BranchRecord) (next : CapabilityEnvelope) :
    Except CapabilityRefusal BranchRecord :=
  (Branch.restrict r.envelope next).map fun e => { r with envelope := some e }

end BranchRecord

/-- No child was forked between the birth of a page and its release. -/
def reclaimable (liveChildren : List ℕ) (birth freed : ℕ) : Bool :=
  if freed ≤ birth then true
  else (liveChildren.takeWhile (· < birth)).length = (liveChildren.takeWhile (· < freed)).length

variable {es : List ℕ}

lemma length_takeWhile_lt (h : es.Pairwise (· ≤ ·)) {lo hi : ℕ} (hle : lo ≤ hi) :
    (es.takeWhile (· < lo)).length = (es.takeWhile (· < hi)).length ↔
      ∀ e ∈ es, ¬(lo ≤ e ∧ e < hi) := by
  induction es with
  | nil => simp
  | cons e es ih =>
    rw [List.pairwise_cons] at h
    have hrest := ih h.2
    simp only [List.takeWhile_cons, List.forall_mem_cons]
    by_cases hlo : e < lo
    · have hhi : e < hi := by omega
      simp only [hlo, hhi, decide_true, if_true, List.length_cons, Nat.add_right_cancel_iff, hrest]
      exact ⟨fun hr => ⟨by omega, hr⟩, fun hr => hr.2⟩
    · by_cases hhi : e < hi
      · simp only [hlo, hhi, decide_true, decide_false, if_true, Bool.false_eq_true, if_false,
          List.length_nil, List.length_cons]
        exact iff_of_false (by omega) fun hr => hr.1 ⟨by omega, trivial⟩
      · simp only [hlo, hhi, decide_false, Bool.false_eq_true, if_false, true_iff, and_false,
          not_false_eq_true, true_and]
        intro x hx
        have := h.1 x hx
        omega

lemma reclaimable_iff (h : es.Pairwise (· ≤ ·)) {birth freed : ℕ} :
    reclaimable es birth freed ↔ ∀ e ∈ es, ¬(birth ≤ e ∧ e < freed) := by
  unfold reclaimable
  split_ifs with hle
  · simp only [true_iff]
    intro e _ hin
    omega
  · rw [decide_eq_true_iff]
    exact length_takeWhile_lt h (by omega)

end FerroDb.Branch
