import Mathlib.Logic.Function.Basic
import Mathlib.Order.Nat

/-!
# A shared sync

Threads that wait for their work to be durable share a sync. One of them leads: it notes how many
tickets are out, syncs with the lock released, and moves the durable mark to what it noted. A run
is any sequence of the critical sections of any number of threads, and of syncs that begin and
return, well or not.
-/

namespace FerroDb.Branch.CommitGroup

open Function

structure GroupState where
  requested : ℕ
  durable : ℕ
  syncing : Bool

/-- Where a thread stands outside the lock. One that waits may go on at any time: it has the lock,
was woken, or has slept long enough. -/
inductive Thread where
  | idle
  | waiting (seq : ℕ)
  | leading (seq target : ℕ)
  /-- In a sync that began when so many tickets were out. -/
  | syncing (seq target out : ℕ)
  | synced (seq target : ℕ) (ok : Bool)
  | returned (seq : ℕ) (ok : Bool)

@[grind =]
def Thread.leads : Thread → Bool
  | leading .. | syncing .. | synced .. => true
  | _ => false

namespace GroupState

def ticket (st : GroupState) : GroupState := { st with requested := st.requested + 1 }

/-- A turn of the loop of `wait_durable`, from the lock to its release. -/
def turn (st : GroupState) (seq : ℕ) : Thread × GroupState :=
  if st.durable ≥ seq then (.returned seq true, st)
  else if st.syncing then (.waiting seq, st)
  else (.leading seq st.requested, { st with syncing := true })

/-- The leader has the lock again. -/
def finish (st : GroupState) (target : ℕ) (ok : Bool) : GroupState :=
  { st with
    syncing := false
    durable := if ok && target > st.durable then target else st.durable }

end GroupState

/-- The group and its threads. Of each sync that has returned well, `synced` has how many tickets
were out when it began: ticket `n` is the one that makes them `n`. -/
structure Sys (T : Type) where
  group : GroupState
  threads : T → Thread
  synced : List ℕ

inductive Action (T : Type) where
  | ticket
  | wait (t : T) (seq : ℕ)
  /-- A thread goes on. If it is in a sync, the sync returns so. -/
  | go (t : T) (ok : Bool)

variable {T : Type} [DecidableEq T]

namespace Sys

def init : Sys T := ⟨⟨0, 0, false⟩, fun _ => .idle, []⟩

def put (s : Sys T) (t : T) (th : Thread) : Sys T := { s with threads := update s.threads t th }

def turn (s : Sys T) (t : T) (seq : ℕ) : Sys T :=
  let (th, group) := s.group.turn seq
  { s with group }.put t th

def step (s : Sys T) : Action T → Sys T
  | .ticket => { s with group := s.group.ticket }
  | .wait t seq =>
    match s.threads t with
    | .idle | .returned .. => s.put t (.waiting seq)
    | _ => s
  | .go t ok =>
    match s.threads t with
    | .waiting seq => s.turn t seq
    | .leading seq target => s.put t (.syncing seq target s.group.requested)
    | .syncing seq target out =>
      { s with synced := if ok then out :: s.synced else s.synced }.put t (.synced seq target ok)
    | .synced seq target ok =>
      let s := { s with group := s.group.finish target ok }
      if ok then s.turn t seq else s.put t (.returned seq false)
    | .idle | .returned .. => s

end Sys

/-! ## What a run keeps -/

/-- A sync that began with so many tickets out has returned well. -/
@[grind =]
def Covered (synced : List ℕ) (n : ℕ) : Prop := 0 < n → ∃ out ∈ synced, n ≤ out

@[grind =]
def Thread.Fits (group : GroupState) (synced : List ℕ) : Thread → Prop
  | .leading _ target => target ≤ group.requested
  | .syncing _ target out => target ≤ out
  | .synced _ n ok | .returned n ok => ok → Covered synced n
  | _ => True

structure Inv (s : Sys T) : Prop where
  durable : Covered s.synced s.group.durable
  fits : ∀ t, (s.threads t).Fits s.group s.synced
  syncing : ∀ t, (s.threads t).leads → s.group.syncing
  single : ∀ t u, (s.threads t).leads → (s.threads u).leads → t = u

lemma Thread.Fits.mono {g g' : GroupState} {l l' : List ℕ} {th : Thread} (h : th.Fits g l)
    (hg : g.requested ≤ g'.requested) (hl : l ⊆ l') : th.Fits g' l' := by
  cases th <;> grind

variable {s : Sys T} {t : T} {th : Thread} {g : GroupState} {l : List ℕ}

/-- A thread moves. It leads then only if no other does. -/
lemma Inv.move (h : Inv s) (hg : s.group.requested ≤ g.requested) (hl : s.synced ⊆ l)
    (hdurable : Covered l g.durable) (hth : th.Fits g l) (hself : th.leads → g.syncing)
    (hother : ∀ u ≠ t, (s.threads u).leads → g.syncing ∧ ¬ th.leads) :
    Inv ⟨g, update s.threads t th, l⟩ where
  durable := hdurable
  fits u := by
    have := (h.fits u).mono hg hl
    grind
  syncing u := by grind
  single u v := by
    have := h.single u v
    grind

lemma Inv.turn (seq : ℕ) (h : Inv s) (hg : g.requested = s.group.requested)
    (hdurable : Covered s.synced g.durable) (hother : ∀ u ≠ t, (s.threads u).leads → g.syncing) :
    Inv ({ s with group := g }.turn t seq) := by
  simp only [Sys.turn, GroupState.turn]
  split_ifs with hdone hsync
  all_goals exact h.move hg.ge (fun _ => id) hdurable (by grind) (by grind) (by grind)

lemma Inv.step (h : Inv s) (a : Action T) : Inv (s.step a) := by
  have hsyncing := h.syncing
  cases a with
  | ticket =>
    exact ⟨h.durable, fun t => (h.fits t).mono (Nat.le_succ _) fun _ => id, hsyncing, h.single⟩
  | wait t seq =>
    simp only [Sys.step]
    split <;> first
      | exact h
      | exact h.move le_rfl (fun _ => id) h.durable trivial (by grind) (by grind)
  | go t ok =>
    have hfit := h.fits t
    -- While a thread leads no other does.
    have hother u (hne : u ≠ t) (ht : (s.threads t).leads) : ¬ (s.threads u).leads :=
      fun hu => hne (h.single u t hu ht)
    simp only [Sys.step]
    split
    next seq hth => exact h.turn seq rfl h.durable fun u _ => hsyncing u
    next seq target hth =>
      exact h.move le_rfl (fun _ => id) h.durable (by grind) (by grind) (by grind)
    next seq target out hth =>
      have hcovered : ok → Covered (if ok then out :: s.synced else s.synced) target := by
        intro hok _
        exact ⟨out, by simp [hok], by grind⟩
      exact h.move le_rfl (by grind) (by grind [h.durable]) hcovered (by grind) (by grind)
    next seq target ok hth =>
      have hdurable : Covered s.synced (s.group.finish target ok).durable := by
        grind [h.durable, GroupState.finish]
      split_ifs with hok
      · exact h.turn seq rfl hdurable (by grind)
      · exact h.move le_rfl (fun _ => id) hdurable (by grind) (by grind) (by grind)
    · exact h
    · exact h

/-- In every run, whoever was told that ticket `n` is durable was told so after a sync that began
with `n` tickets out had returned well; no two syncs run at a time; and what moves the durable mark
is a leader that comes back from a sync that returned well. -/
theorem acknowledged_after_sync (acts : List (Action T)) :
    let s := acts.foldl Sys.step (Sys.init : Sys T)
    (∀ t n, 0 < n → s.threads t = .returned n true → ∃ out ∈ s.synced, n ≤ out) ∧
    (∀ t u seq target out seq' target' out', s.threads t = .syncing seq target out →
      s.threads u = .syncing seq' target' out' → t = u) ∧
    ∀ a, (s.step a).group.durable ≠ s.group.durable →
      ∃ t ok seq target, a = .go t ok ∧ s.threads t = .synced seq target true := by
  intro s
  have hinit : Inv (Sys.init : Sys T) := by constructor <;> grind [Sys.init]
  have h : Inv s := List.foldlRecOn acts Sys.step hinit fun _ h a _ => h.step a
  refine ⟨?_, ?_, ?_⟩
  · intro t n hn ht
    have := h.fits t
    grind
  · intro t u seq target out seq' target' out' ht hu
    have := h.single t u
    grind
  · intro a ha
    have hturn (s : Sys T) t seq : (s.turn t seq).group.durable = s.group.durable := by
      simp only [Sys.turn, GroupState.turn]
      split_ifs <;> rfl
    clear_value s
    cases a with
    | ticket => exact absurd rfl ha
    | wait t seq => grind [Sys.step, Sys.put]
    | go t ok => grind [Sys.step, Sys.put, GroupState.finish]

end FerroDb.Branch.CommitGroup
