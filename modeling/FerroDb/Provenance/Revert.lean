import FerroDb.Library.Search
import Mathlib.Data.List.Sort

/-!
# Plans for a causal revert

Reverting a transaction has to find the transactions that read what it wrote, and what was read
from those. A cascading plan undoes them by number, the highest first; that is their order of
dependence exactly when no transaction downstream was read by one of a lower number.

The runtime finds them without the graph: `CaptureSet::plan_revert` of `provenance/capture_set.rs`
asks an index of the retained reads for who could have read each retained write. What the walk
counts is left out.
-/

namespace FerroDb.Provenance

open Library List Relation
open Option (bind_eq_some_iff some.inj)

inductive RevertMode where
  | halt
  | cascade
deriving DecidableEq

/-- `fromTxn` wrote a version that `toTxn` read. -/
structure DependencyEdge where
  fromTxn : ℕ
  toTxn : ℕ
deriving DecidableEq

/-- Read-after-write edges between transactions. -/
structure DependencyGraph where
  edges : List DependencyEdge

structure RevertPlan where
  target : ℕ
  mode : RevertMode
  blockedBy : List ℕ
  cascade : List ℕ

/-- `sort` and `dedup`. -/
def sortDedup (l : List ℕ) : List ℕ := (l.insertionSort (· ≤ ·)).dedup

def RevertPlan.fromDownstream (target : ℕ) (mode : RevertMode) (downstream : List ℕ) : RevertPlan :=
  match mode with
  | .halt => ⟨target, mode, downstream, []⟩
  | .cascade => ⟨target, mode, [], downstream.insertionSort (· ≥ ·)⟩

namespace DependencyGraph

variable (g : DependencyGraph)

/-- The transactions that directly read something this one wrote. -/
def dependentsOf (txn : ℕ) : List ℕ :=
  sortDedup ((g.edges.filter (·.fromTxn = txn)).map (·.toTxn))

/-- Everything downstream of `txn`. What can be seen is `txn` and where an edge ends, so there are
turns enough. -/
def transitiveDependents (txn : ℕ) : List ℕ :=
  sortDedup ((search g.dependentsOf (g.edges.length + 1) ([txn], [txn])).filter (· ≠ txn))

def planRevert (target : ℕ) (mode : RevertMode) : RevertPlan :=
  .fromDownstream target mode (g.transitiveDependents target)

/-- What is undone before `target`, in order. -/
def cascadeOf (target : ℕ) : List ℕ := (g.planRevert target .cascade).cascade

/-- `reader` read from `writer`, directly or through others. -/
def ReadFrom (reader writer : ℕ) : Prop := TransGen (fun a b => ⟨a, b⟩ ∈ g.edges) writer reader

variable {g} {l : List ℕ} {a b t target txn : ℕ}

@[simp, grind =] lemma mem_sortDedup : a ∈ sortDedup l ↔ a ∈ l := by simp [sortDedup]

/-- The same numbers, sorted, are the same list. -/
lemma sortDedup_congr {l' : List ℕ} (h : ∀ a, a ∈ l ↔ a ∈ l') : sortDedup l = sortDedup l' := by
  have hsorted : ∀ l : List ℕ, (sortDedup l).Pairwise (· ≤ ·) := fun l =>
    (pairwise_insertionSort (· ≤ ·) l).sublist (dedup_sublist _)
  refine ((perm_ext_iff_of_nodup (nodup_dedup _) (nodup_dedup _)).mpr fun a => ?_).eq_of_pairwise'
    (hsorted l) (hsorted l')
  exact mem_sortDedup.trans ((h a).trans mem_sortDedup.symm)

@[simp, grind =] lemma mem_dependentsOf : b ∈ g.dependentsOf a ↔ ⟨a, b⟩ ∈ g.edges := by
  simp only [dependentsOf, mem_sortDedup, mem_map, mem_filter, decide_eq_true_eq]
  constructor
  · rintro ⟨⟨from', to'⟩, ⟨he, rfl⟩, rfl⟩
    exact he
  · intro he
    exact ⟨_, ⟨he, rfl⟩, rfl⟩

/-- A search along the edges sees what read from `txn`. -/
lemma mem_search_edges {next : ℕ → List ℕ} (hnext : ∀ a b, b ∈ next a ↔ ⟨a, b⟩ ∈ g.edges) :
    t ∈ search next (g.edges.length + 1) ([txn], [txn]) ↔ t = txn ∨ g.ReadFrom t txn := by
  have hall : ∀ u, next u ⊆ g.edges.map (·.toTxn) := by
    intro u d hd
    exact mem_map.mpr ⟨_, (hnext u d).mp hd, rfl⟩
  have hturns : turns (g.edges.map (·.toTxn)) ([txn], [txn]) ≤ g.edges.length + 1 := by
    have hcard := Finset.card_filter_le (g.edges.map (·.toTxn)).toFinset (· ∉ [txn])
    have hlen := toFinset_card_le (g.edges.map (·.toTxn))
    simp only [turns, length_map, length_singleton] at *
    omega
  rw [mem_search hall (Subset.refl _) (by grind) hturns]
  simp only [mem_singleton, exists_eq_left, hnext, reflTransGen_iff_eq_or_transGen]
  rfl

lemma mem_transitiveDependents :
    t ∈ g.transitiveDependents txn ↔ g.ReadFrom t txn ∧ t ≠ txn := by
  rw [transitiveDependents, mem_sortDedup, mem_filter, mem_search_edges fun _ _ => mem_dependentsOf]
  simp only [decide_eq_true_eq]
  tauto

/-- A cascade runs from the highest number to the lowest. -/
lemma cascade_descending : (g.cascadeOf target).Pairwise (· > ·) := by
  have hsorted := pairwise_insertionSort (· ≥ ·) (g.transitiveDependents target)
  have hnodup : ((g.transitiveDependents target).insertionSort (· ≥ ·)).Nodup :=
    (perm_insertionSort _ _).nodup_iff.mpr (nodup_dedup _)
  exact hsorted.imp₂ (fun _ _ hle hne => lt_of_le_of_ne hle hne.symm) hnodup

lemma mem_cascade : t ∈ g.cascadeOf target ↔ g.ReadFrom t target ∧ t ≠ target :=
  (perm_insertionSort _ _).mem_iff.trans mem_transitiveDependents

/-- In a cascade the order of two transactions is that of their numbers. -/
lemma sublist_cascade (ha : a ∈ g.cascadeOf target) (hb : b ∈ g.cascadeOf target) :
    [b, a] <+ g.cascadeOf target ↔ a < b := by
  constructor
  · exact fun h => pairwise_iff_forall_sublist.mp cascade_descending h
  · intro hlt
    have hpair : [b, a].Pairwise (· > ·) := by simpa using hlt
    refine sublist_of_subperm_of_pairwise (subperm_of_subset ?_ ?_) (hpair.imp le_of_lt)
      (cascade_descending.imp le_of_lt)
    · simpa using hlt.ne'
    · simp [ha, hb]

/-- Numbers grow along the reads downstream of a transaction if they do along each edge. -/
lemma lt_of_readFrom (h : ∀ e ∈ g.edges, g.ReadFrom e.fromTxn target → e.fromTxn < e.toTxn)
    (ha : g.ReadFrom a target) (hab : g.ReadFrom b a) : a < b := by
  induction hab with
  | single hedge => exact h _ hedge ha
  | tail hpath hedge ih => exact ih.trans (h _ hedge (TransGen.trans ha hpath))

/-- A cascade holds everything downstream of the target, dependents first, if and only if no
transaction downstream was read by one of a lower number. -/
theorem cascade_dependents_first_iff (g : DependencyGraph) (target : ℕ) :
    ((∀ t, t ∈ g.cascadeOf target ↔ g.ReadFrom t target) ∧
      ∀ reader ∈ g.cascadeOf target, ∀ writer ∈ g.cascadeOf target,
        g.ReadFrom reader writer → [reader, writer] <+ g.cascadeOf target) ↔
      ∀ e ∈ g.edges, g.ReadFrom e.fromTxn target → e.fromTxn < e.toTxn := by
  constructor
  · rintro ⟨hmem, horder⟩ e he hfrom
    have hto : g.ReadFrom e.toTxn target := TransGen.tail hfrom he
    rw [← hmem] at hfrom hto
    exact (sublist_cascade hfrom hto).mp (horder _ hto _ hfrom (.single he))
  · intro h
    have hmem : ∀ t, t ∈ g.cascadeOf target ↔ g.ReadFrom t target := by
      intro t
      rw [mem_cascade]
      refine and_iff_left_of_imp ?_
      rintro hread rfl
      exact (lt_of_readFrom h hread hread).false
    refine ⟨hmem, fun reader hreader writer hwriter hread => ?_⟩
    apply (sublist_cascade hwriter hreader).mpr
    exact lt_of_readFrom h ((hmem _).mp hwriter) hread

/-- Transaction 3 read from 1, and 2 from 3: there is no cycle, yet 3 is undone before 2. -/
theorem cascade_undoes_writer_first :
    let g : DependencyGraph := ⟨[⟨1, 3⟩, ⟨3, 2⟩]⟩
    (∀ t, ¬ g.ReadFrom t t) ∧ g.cascadeOf 1 = [3, 2] ∧ g.ReadFrom 2 3 ∧
      ¬ [2, 3] <+ g.cascadeOf 1 := by
  intro g
  have hlist : g.cascadeOf 1 = [3, 2] := by decide
  refine ⟨fun t ht => ?_, hlist, .single (by decide), by rw [hlist]; decide⟩
  -- Along the edges, 1 to 3 and 3 to 2, the rank grows.
  let rank : ℕ → ℕ := fun t => if t = 1 then 0 else if t = 3 then 1 else 2
  have hrank : ∀ a b, g.ReadFrom b a → rank a < rank b := by
    intro a b hab
    induction hab with
    | single hedge => grind
    | tail _ hedge ih => grind
  exact (hrank t t ht).false

end DependencyGraph

/-! ## The walk over retained reads and writes -/

structure VersionRef where
  tbl : ℕ
  row : ℕ
  rid : ℕ × ℕ
  beginTs : ℕ

inductive Bound (V : Type) where
  | unbounded
  | included (v : V)
  | excluded (v : V)

/-- A range of a column of a table, or of all of its columns. -/
structure PredicateSummary (V : Type) where
  tbl : ℕ
  col : Option ℕ
  lo : Bound V
  hi : Bound V

structure TimedPredicate (V : Type) where
  summary : PredicateSummary V
  observedAt : ℕ

structure WriteRecord (V : Type) where
  version : VersionRef
  col : Option ℕ
  value : Option V

structure TxnCapture (V : Type) where
  txn : ℕ
  predicates : List (TimedPredicate V)
  writes : List (WriteRecord V)

/-- Retained reads by what they read. A range is named by its reader and its place there. -/
structure ReadIndex (V : Type) where
  readers : VersionRef → List ℕ
  points : ℕ × ℕ → V → List (ℕ × ℕ)
  unbounded : ℕ × Option ℕ → List (ℕ × ℕ × ℕ)
  ranges : ℕ → List (ℕ × ℕ)

structure CaptureSet (V : Type) where
  captures : List (ℕ × TxnCapture V)
  index : ReadIndex V

section

variable {V : Type}

/-- Every range that could hold a value written at `beginTs`. -/
def ReadIndex.predicateCandidates (ix : ReadIndex V) (tbl : ℕ) (col : Option ℕ) (value : V)
    (beginTs : ℕ) : List (ℕ × ℕ) :=
  let after := fun line : List (ℕ × ℕ × ℕ) => (line.filter (beginTs < ·.1)).map (·.2)
  (match col with
    | some c => ix.points (tbl, c) value ++ after (ix.unbounded (tbl, some c))
    | none => []) ++
    after (ix.unbounded (tbl, none)) ++ ix.ranges tbl

variable [LinearOrder V]

def PredicateSummary.covers (s : PredicateSummary V) (tbl : ℕ) (col : Option ℕ) (v : V) : Bool :=
  s.tbl = tbl && !(s.col.isSome && s.col ≠ col) &&
    (match s.lo with
      | .unbounded => true
      | .included b => b ≤ v
      | .excluded b => b < v) &&
    match s.hi with
      | .unbounded => true
      | .included b => v ≤ b
      | .excluded b => v < b

namespace CaptureSet

variable (s : CaptureSet V)

/-- Whether the range at a place of the index saw the write. There has to be one. -/
def admitted (w : WriteRecord V) (value : V) (place : ℕ × ℕ) : Option Bool := do
  let p ← (← s.captures.lookup place.1).predicates[place.2]?
  return w.version.beginTs < p.observedAt && p.summary.covers w.version.tbl w.col value

def dependentsOfWrite (writer : ℕ) (w : WriteRecord V) : Option (List ℕ) := do
  let exact := (s.index.readers w.version).filter (· ≠ writer)
  match w.value with
  | none => return exact
  | some value =>
    let candidates :=
      s.index.predicateCandidates w.version.tbl w.col value w.version.beginTs
    let seen ← (candidates.filter (·.1 ≠ writer)).filterM (s.admitted w value)
    return exact ++ seen.map (·.1)

/-- The direct dependents of a transaction's writes. One that has no capture wrote nothing. -/
def dependentsOf (txn : ℕ) : Option (List ℕ) :=
  match s.captures.lookup txn with
  | none => some []
  | some cap => (cap.writes.mapM (s.dependentsOfWrite cap.txn)).map flatten

/-- What has been seen when the frontier is empty, unless the index names a read that is not
there. -/
def walk : ℕ → List ℕ × List ℕ → Option (List ℕ)
  | 0, (seen, _) | _ + 1, (seen, []) => some seen
  | fuel + 1, (seen, t :: frontier) => do
    walk fuel ((← s.dependentsOf t).foldl push (seen, frontier))

/-- The edges the index answers for. -/
def dependencyGraph : DependencyGraph :=
  ⟨s.captures.flatMap fun c => ((s.dependentsOf c.1).getD []).map (⟨c.1, ·⟩)⟩

def planRevert (target : ℕ) (mode : RevertMode) : Option RevertPlan := do
  let seen ← s.walk (s.dependencyGraph.edges.length + 1) ([target], [target])
  return .fromDownstream target mode (sortDedup (seen.filter (· ≠ target)))

variable {s} {fuel target : ℕ} {st : List ℕ × List ℕ} {seen : List ℕ}

lemma search_of_walk (h : s.walk fuel st = some seen) :
    search (fun t => (s.dependentsOf t).getD []) fuel st = seen := by
  fun_induction walk s fuel st with
  | case1 | case2 => exact some.inj h
  | case3 fuel seen t frontier ih =>
    obtain ⟨ds, hds, h⟩ := bind_eq_some_iff.mp h
    rw [search, hds]
    exact ih ds h

/-- Only a transaction with a capture has dependents. -/
lemma mem_dependencyGraph {a b : ℕ} :
    b ∈ (s.dependentsOf a).getD [] ↔ ⟨a, b⟩ ∈ s.dependencyGraph.edges := by
  simp only [dependencyGraph, mem_flatMap, mem_map, DependencyEdge.mk.injEq]
  constructor
  · intro hb
    cases hcap : s.captures.lookup a with
    | none => simp [dependentsOf, hcap] at hb
    | some cap =>
      obtain ⟨l₁, l₂, hsplit, -⟩ := lookup_eq_some_iff.mp hcap
      exact ⟨(a, cap), by simp [hsplit], b, hb, rfl, rfl⟩
  · rintro ⟨c, -, b, hb, rfl, rfl⟩
    exact hb

/-- Where the walk comes to its end, the plan is that of the graph. -/
theorem planRevert_eq_dependencyGraph {mode : RevertMode} {plan : RevertPlan}
    (h : s.planRevert target mode = some plan) :
    plan = s.dependencyGraph.planRevert target mode := by
  obtain ⟨seen, hseen, hplan⟩ := bind_eq_some_iff.mp h
  obtain rfl := some.inj hplan
  refine congrArg (RevertPlan.fromDownstream target mode) (DependencyGraph.sortDedup_congr fun t => ?_)
  rw [mem_filter, mem_filter, ← search_of_walk hseen]
  rw [DependencyGraph.mem_search_edges fun _ _ => mem_dependencyGraph,
    DependencyGraph.mem_search_edges fun _ _ => DependencyGraph.mem_dependentsOf]

end CaptureSet

end

end FerroDb.Provenance
