import FerroDb.Cluster.Node

/-!
# Schedules

A run of the cluster that can be computed: who is given what, with messages and sync reports
picked by their number. Whatever a schedule leads to is reachable.
-/

namespace FerroDb.Cluster

open Option Function

/-- What a node is given next. -/
inductive Pick where
  | tick
  /-- The `k`-th message ever sent. -/
  | recv (k : ℕ)
  /-- The `k`-th finished sync of the node. -/
  | report (k : ℕ)
  | propose (c : Command)

/-- A cluster whose messages are listed in the order they were sent. -/
structure Run where
  node : NodeId → Node
  sent : List Message

variable {r r' : Run} {i : NodeId} {p : Pick}

namespace Run

def init (cfg : Config) (seeds : NodeId → UInt64) : Run :=
  ⟨fun i => Node.fresh cfg i (seeds i), []⟩

def world (r : Run) : World := ⟨r.node, { m | m ∈ r.sent }⟩

def event (r : Run) (i : NodeId) : Pick → Option Event
  | .tick => some .tick
  | .recv k => (r.sent[k]?.filter (·.dst = i)).map .recv
  | .report k => (r.node i).pending[k]?.map fun p => .persisted p.1 p.2
  | .propose c => some (.propose c)

/-- Nothing if there is no such event, or if the cluster would leave the runs looked at. -/
def next (r : Run) (i : NodeId) (p : Pick) : Option Run :=
  if (r.node i).sm.pendingInstallRound = none then
    (r.event i p).bind fun ev =>
      match (r.node i).handle ev with
      | .error _ => none
      | .ok n =>
        if n.sm.hard.term < u64Max then
          some ⟨update r.node i { n with outbox := [] }, r.sent ++ n.outbox⟩
        else none
  else none

def follow (r : Run) : List (NodeId × Pick) → Option Run
  | [] => some r
  | (i, p) :: rest => (r.next i p).bind (follow · rest)

lemma deliverable {ev : Event} (h : r.event i p = some ev) : r.world.Deliverable i ev := by
  cases p with
  | tick => cases h; trivial
  | propose c => cases h; trivial
  | recv k =>
    obtain ⟨m, hm, rfl⟩ := map_eq_some_iff.mp h
    obtain ⟨hk, hdst⟩ := filter_eq_some_iff.mp hm
    exact ⟨List.mem_of_getElem? hk, by simpa using hdst⟩
  | report k =>
    obtain ⟨q, hq, rfl⟩ := map_eq_some_iff.mp h
    exact List.mem_of_getElem? hq

variable {cfg : Config} {snaps : Prop}

lemma next_reachable
    (hr : World.Reachable cfg snaps r.world) (h : r.next i p = some r') :
    World.Reachable cfg snaps r'.world := by
  unfold next at h
  split at h
  case isFalse => cases h
  case isTrue hp =>
    obtain ⟨ev, hev, h⟩ := bind_eq_some_iff.mp h
    cases hn : (r.node i).handle ev with
    | error e => simp [hn] at h
    | ok n =>
      simp only [hn] at h
      split at h
      case isFalse => cases h
      case isTrue hterm =>
        cases h
        have hstep : World.Step cfg snaps r.world (r.world.set i n) :=
          .event hp (deliverable hev) hn
        have hworld : (⟨update r.node i { n with outbox := [] }, r.sent ++ n.outbox⟩ :
            Run).world = r.world.set i n := by
          simp only [world, World.set, World.mk.injEq, true_and]
          ext m
          simp
        rw [hworld]
        refine hr.step hstep fun k => ?_
        by_cases hk : k = i
        · subst hk
          simpa [World.set] using hterm
        · simpa [World.set, hk] using hr.term_lt k

lemma follow_reachable {picks : List (NodeId × Pick)}
    (hr : World.Reachable cfg snaps r.world) (h : r.follow picks = some r') :
    World.Reachable cfg snaps r'.world := by
  induction picks generalizing r with
  | nil => cases h; exact hr
  | cons q rest ih =>
    obtain ⟨r₁, h₁, h⟩ := bind_eq_some_iff.mp h
    exact ih (next_reachable hr h₁) h

lemma init_reachable (seeds : NodeId → UInt64) :
    World.Reachable cfg snaps (init cfg seeds).world := by
  have : (init cfg seeds).world = World.init cfg seeds := by
    simp [init, world, World.init]
  rw [this]
  exact .init seeds

end Run

/-! ## A cluster of two voters -/

namespace Pair

def cfg : Config := .pair 0 0

/-- Node 1 times out, is elected, and both nodes apply the entry that opens its term. -/
def picks : List (NodeId × Pick) :=
  List.replicate 10 (1, .tick) ++
    [(2, .recv 0), (1, .recv 1), (2, .recv 2), (1, .recv 3), (1, .report 0), (2, .recv 4),
      (1, .recv 5), (2, .recv 6), (2, .report 0), (1, .recv 7), (2, .recv 8)]

def start : Run := .init cfg fun _ => 18

def final : Run := (start.follow picks).getD start

/-- The entry that opens term 1. -/
def opening : Entry := ⟨1, 1, .noOp⟩

lemma reachable (snaps : Prop) : World.Reachable cfg snaps final.world := by
  have h : (start.follow picks).isSome := by decide +kernel
  obtain ⟨r, hr⟩ := isSome_iff_exists.mp h
  have : final = r := by simp [final, hr]
  rw [this]
  exact Run.follow_reachable (Run.init_reachable _) hr

end Pair

end FerroDb.Cluster
