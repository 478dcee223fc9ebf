import FerroDb.Cluster.Types
import FerroDb.Library.NatRange

/-!
# Granted counters

Ids and pages are taken from ranges that a node was granted, by the leader of its cluster or, if it
stands alone, by itself, after `cluster/mod.rs`. A change of authority makes the node forget what
it held. What it has issued it never forgets.
-/

namespace FerroDb.Cluster

open Library List Option

inductive Authority where
  | standalone
  | member (node : NodeId)
deriving DecidableEq

inductive GrantError where
  | exhausted (counter : String) (node : NodeId) (need : ℕ)
  | wrongNode (counter : String) (grantedTo selfId : NodeId)
  | notClustered (counter : String)
  | emptyRange (counter : String) (lo hi : ℕ)
  | spaceExhausted (counter : String) (issuedThrough : ℕ)
deriving DecidableEq

inductive Applied where
  | accepted (usable : ℕ)
  | duplicate
deriving DecidableEq

/-- A range held, or what is left of it. -/
abbrev Held := NatRange

def saturatingAdd (a b : ℕ) : ℕ := min (a + b) (2 ^ 64 - 1)

structure Grants where
  counter : String
  held : List Held
  acceptedThrough : ℕ
  issued : ℕ
  chunk : ℕ+
  epoch : ℕ

namespace Grants

def new (counter : String) (start : ℕ) (chunk : ℕ+) : Grants := ⟨counter, [], start, start, chunk, 0⟩

variable (g : Grants)

def observeEpoch (nowEpoch : ℕ) : Grants :=
  if g.epoch ≠ nowEpoch then
    { g with epoch := nowEpoch, held := [], acceptedThrough := g.issued }
  else g

/-- Takes values from the first range that is wide enough; a range used up is removed. -/
def takeFirst (n : ℕ) : List Held → Option (ℕ × List Held)
  | [] => none
  | h :: held =>
    if n ≤ h.hi - h.lo then
      some (h.lo, if h.lo + n = h.hi then held else ⟨h.lo + n, h.hi⟩ :: held)
    else (takeFirst n held).map fun (v, held) => (v, h :: held)

def takeFromHeld (n : ℕ) : Option (ℕ × Grants) :=
  (takeFirst n g.held).map fun (v, held) =>
    (v, { g with held, issued := max g.issued (saturatingAdd v n) })

def pushRange (lo hi : ℕ) : Grants :=
  { g with
    held := if lo < hi then (g.held ++ [⟨lo, hi⟩] : List Held).insertionSort (·.lo ≤ ·.lo) else g.held
    acceptedThrough := max g.acceptedThrough hi }

/-- The range a node that stands alone grants itself. -/
def selfGrant (n : ℕ) : Held :=
  let lo := max g.acceptedThrough g.issued
  ⟨lo, saturatingAdd lo (max g.chunk n)⟩

def take (n : ℕ) (auth : Authority) (nowEpoch : ℕ) : Except GrantError ℕ × Grants :=
  let g := g.observeEpoch nowEpoch
  match g.takeFromHeld n with
  | some (v, g) => (.ok v, g)
  | none =>
    match auth with
    | .standalone =>
      let g := g.pushRange (g.selfGrant n).lo (g.selfGrant n).hi
      match g.takeFromHeld n with
      | some (v, g) => (.ok v, g)
      | none => (.error (.spaceExhausted g.counter g.issued), g)
    | .member node => (.error (.exhausted g.counter node n), g)

def applyGrant (dest : NodeId) (lo hi : ℕ) (auth : Authority) (nowEpoch : ℕ) :
    Except GrantError Applied × Grants :=
  match auth with
  | .standalone => (.error (.notClustered g.counter), g)
  | .member me =>
    if me ≠ dest then (.error (.wrongNode g.counter dest me), g)
    else if hi ≤ lo then (.error (.emptyRange g.counter lo hi), g)
    else
      let g := g.observeEpoch nowEpoch
      if hi ≤ g.acceptedThrough then (.ok .duplicate, g)
      else
        let lo := max (max lo g.acceptedThrough) g.issued
        (.ok (.accepted (hi - lo)), g.pushRange lo hi)

def raiseIssuedThrough (issued : ℕ) : Grants :=
  let w := max g.issued issued
  { g with
    issued := w
    acceptedThrough := max g.acceptedThrough w
    held := (g.held.map fun h => ⟨max h.lo w, h.hi⟩).filter fun h => h.lo < h.hi }

end Grants

/-! ## A counter in its process -/

structure ProcessState where
  authority : Authority
  epoch : ℕ

namespace ProcessState

def join (p : ProcessState) (node : NodeId) : ProcessState := ⟨.member node, (p.epoch + 1) % 2 ^ 64⟩

def leave (p : ProcessState) : ProcessState := ⟨.standalone, (p.epoch + 1) % 2 ^ 64⟩

end ProcessState

/-- A range granted to this node, and the authority epoch it was granted in. -/
structure Grant where
  epoch : ℕ
  range : NatRange

/-- A counter and the process it is in, with a record of the ranges granted since the process
started and of the ranges of values ever returned. -/
structure Issuer where
  process : ProcessState
  grants : Grants
  granted : List Grant
  taken : List NatRange

inductive CounterEvent where
  | take (n : UInt64)
  | applyGrant (dest : NodeId) (lo hi : UInt64)
  | raiseIssuedThrough (issued : UInt64)
  | join (node : NodeId)
  | leave
  /-- The process is started anew; of the counter only what it has issued is restored. -/
  | restart (start : UInt64)

namespace Issuer

def start (counter : String) (first : UInt64) (chunk : ℕ+) : Issuer :=
  ⟨⟨.standalone, 0⟩, .new counter first.toNat chunk, [], []⟩

def take (w : Issuer) (n : ℕ) : Except GrantError ℕ × Grants :=
  w.grants.take n w.process.authority w.process.epoch

/-- The range a take grants the node, if it stands alone and holds no range wide enough. -/
def selfGranted (w : Issuer) (n : ℕ) : List Grant :=
  let g := w.grants.observeEpoch w.process.epoch
  match g.takeFromHeld n, w.process.authority with
  | none, .standalone => [⟨w.process.epoch, g.selfGrant n⟩]
  | _, _ => []

def step (w : Issuer) : CounterEvent → Issuer
  | .take n => { w with
      grants := (w.take n.toNat).2
      granted := w.granted ++ w.selfGranted n.toNat
      taken :=
        match (w.take n.toNat).1 with
        | .ok v => w.taken ++ [⟨v, v + n.toNat⟩]
        | .error _ => w.taken }
  | .applyGrant dest lo hi => { w with
      grants := (w.grants.applyGrant dest lo.toNat hi.toNat w.process.authority w.process.epoch).2
      granted :=
        if w.process.authority = .member dest then
          w.granted ++ [⟨w.process.epoch, ⟨lo.toNat, hi.toNat⟩⟩]
        else w.granted }
  | .raiseIssuedThrough issued =>
    { w with grants := w.grants.raiseIssuedThrough issued.toNat }
  | .join node => { w with process := w.process.join node }
  | .leave => { w with process := w.process.leave }
  | .restart first => { w with
      process := ⟨.standalone, 0⟩
      grants := (Grants.new w.grants.counter first.toNat w.grants.chunk).raiseIssuedThrough
        w.grants.issued
      granted := [] }

def after (w : Issuer) (events : List CounterEvent) : Issuer := events.foldl step w

end Issuer

/-! ## What a counter holds is nobody's -/

variable {held held' : List Held} {lo hi : ℕ}

namespace Grants

/-- The ranges held are apart from each other and from all that was taken, and lie inside ranges
granted in the epoch the counter knows of. -/
structure Sound (g : Grants) (granted : List Grant) (taken : List NatRange) : Prop where
  range : ∀ h ∈ g.held, h.lo < h.hi ∧ h.hi ≤ g.acceptedThrough ∧ h.hi < 2 ^ 64
  apart : g.held.Pairwise NatRange.Apart
  fresh : ∀ h ∈ g.held, ∀ r ∈ taken, h.Apart r
  below : ∀ r ∈ taken, r.hi ≤ g.issued
  once : taken.Pairwise NatRange.Apart
  inside : ∀ h ∈ g.held, ∃ r ∈ granted,
    r.epoch = g.epoch ∧ r.range.lo ≤ h.lo ∧ h.hi ≤ r.range.hi

variable {g g' : Grants} {granted granted' : List Grant} {taken : List NatRange} {n v : ℕ}

section

variable (h : g.Sound granted taken)
include h

lemma Sound.mono (hsub : granted ⊆ granted') : g.Sound granted' taken :=
  ⟨h.range, h.apart, h.fresh, h.below, h.once, fun x hx => by
    obtain ⟨r, hr, hin⟩ := h.inside x hx
    exact ⟨r, hsub hr, hin⟩⟩

lemma Sound.observeEpoch (epoch : ℕ) : (g.observeEpoch epoch).Sound granted taken := by
  rw [Grants.observeEpoch]
  split
  · exact ⟨by simp, by simp, by simp, h.below, h.once, by simp⟩
  · exact h

omit h in
lemma observeEpoch_epoch (g : Grants) (epoch : ℕ) : (g.observeEpoch epoch).epoch = epoch := by
  rw [observeEpoch]
  split
  · rfl
  · next h => exact not_not.mp h

omit h in
lemma takeFirst_eq_some (h : takeFirst n held = some (v, held')) :
    ∃ pre x post, held = pre ++ x :: post ∧ n ≤ x.hi - x.lo ∧ v = x.lo ∧
      held' = pre ++ (if x.lo + n = x.hi then post else ⟨x.lo + n, x.hi⟩ :: post) := by
  induction held generalizing held' with
  | nil => cases h
  | cons x held ih =>
    rw [takeFirst] at h
    split at h
    · next hwide =>
      cases h
      exact ⟨[], x, held, rfl, hwide, rfl, rfl⟩
    · obtain ⟨⟨v', held''⟩, hrest, heq⟩ := map_eq_some_iff.mp h
      cases heq
      obtain ⟨pre, y, post, rfl, hwide, hv, rfl⟩ := ih hrest
      exact ⟨x :: pre, y, post, rfl, hwide, hv, rfl⟩

omit h in
/-- What is left of the ranges after a take are parts of them, apart from what was taken. -/
lemma takeFirst_rest (hrange : ∀ h ∈ held, h.lo < h.hi)
    (hapart : held.Pairwise NatRange.Apart) (h : takeFirst n held = some (v, held')) :
    (∃ x ∈ held, x.lo ≤ v ∧ v + n ≤ x.hi) ∧ held'.Pairwise NatRange.Apart ∧
      ∀ y ∈ held', y.lo < y.hi ∧ y.Apart ⟨v, v + n⟩ ∧ ∃ x ∈ held, x.lo ≤ y.lo ∧ y.hi = x.hi := by
  obtain ⟨pre, x, post, rfl, hwide, rfl, rfl⟩ := takeFirst_eq_some h
  have hx := hrange x (by simp)
  rw [pairwise_append, pairwise_cons] at hapart
  obtain ⟨hpre, ⟨hxpost, hpost⟩, hcross⟩ := hapart
  have htaken {y : Held} (hy : y.Apart x) : y.Apart ⟨x.lo, x.lo + n⟩ :=
    hy.mono_right le_rfl (by dsimp only; omega)
  refine ⟨⟨x, by simp, le_rfl, by omega⟩, ?_, fun y hy => ?_⟩
  · refine pairwise_append.mpr ⟨hpre, ?_, fun a ha b hb => ?_⟩
    · split
      · exact hpost
      · exact pairwise_cons.mpr ⟨fun b hb => (hxpost b hb).mono (by simp) le_rfl, hpost⟩
    · split at hb
      · exact hcross a ha b (.tail _ hb)
      · rcases mem_cons.mp hb with rfl | hb
        · exact (hcross a ha x mem_cons_self).mono_right (by simp) le_rfl
        · exact hcross a ha b (.tail _ hb)
  · rcases mem_append.mp hy with hy | hy
    · exact ⟨hrange y (by simp [hy]), htaken (hcross y hy x mem_cons_self), y, by simp [hy],
        le_rfl, rfl⟩
    · have hpostcase (hy : y ∈ post) : y.lo < y.hi ∧ y.Apart ⟨x.lo, x.lo + n⟩ ∧
          ∃ x' ∈ pre ++ x :: post, x'.lo ≤ y.lo ∧ y.hi = x'.hi :=
        ⟨hrange y (by simp [hy]), htaken (hxpost y hy).symm, y, by simp [hy], le_rfl, rfl⟩
      split at hy
      · exact hpostcase hy
      · next hne =>
        rcases mem_cons.mp hy with rfl | hy
        · refine ⟨by dsimp only; omega, (NatRange.apart_of_le le_rfl).symm, x, by simp, ?_, rfl⟩
          dsimp only
          omega
        · exact hpostcase hy

lemma Sound.takeFromHeld (htake : g.takeFromHeld n = some (v, g')) :
    g'.Sound granted (taken ++ [⟨v, v + n⟩]) ∧
      ∃ r ∈ granted, r.epoch = g.epoch ∧ r.range.lo ≤ v ∧ v + n ≤ r.range.hi := by
  obtain ⟨⟨v', held⟩, hfirst, heq⟩ := map_eq_some_iff.mp htake
  cases heq
  obtain ⟨⟨x, hx, hlo, hhi⟩, hapart, hrest⟩ :=
    takeFirst_rest (fun h' hh => (h.range h' hh).1) h.apart hfirst
  obtain ⟨-, -, hbound⟩ := h.range x hx
  have hsat : saturatingAdd v n = v + n := min_eq_left (by omega)
  have htaken : ∀ r ∈ taken, r.Apart ⟨v, v + n⟩ := fun r hr =>
    ((h.fresh x hx r hr).mono hlo hhi).symm
  refine ⟨⟨fun y hy => ?_, hapart, fun y hy r hr => ?_, fun r hr => ?_,
    NatRange.pairwise_concat h.once htaken, fun y hy => ?_⟩, ?_⟩
  · obtain ⟨hy, -, x', hx', -, hyhi⟩ := hrest y hy
    have hx'range := h.range x' hx'
    exact ⟨hy, by dsimp only; omega, by omega⟩
  · obtain ⟨-, hyapart, x', hx', hylo, hyhi⟩ := hrest y hy
    rcases mem_append.mp hr with hr | hr
    · exact (h.fresh x' hx' r hr).mono hylo hyhi.le
    · rwa [mem_singleton.mp hr]
  · rcases mem_append.mp hr with hr | hr
    · exact (h.below r hr).trans (le_max_left _ _)
    · rw [mem_singleton.mp hr]
      exact le_max_of_le_right hsat.ge
  · obtain ⟨-, -, x', hx', hylo, hyhi⟩ := hrest y hy
    obtain ⟨r, hr, hepoch, hrlo, hrhi⟩ := h.inside x' hx'
    exact ⟨r, hr, hepoch, hrlo.trans hylo, hyhi.le.trans hrhi⟩
  · obtain ⟨r, hr, hepoch, hrlo, hrhi⟩ := h.inside x hx
    exact ⟨r, hr, hepoch, hrlo.trans hlo, hhi.trans hrhi⟩

/-- A range above both watermarks can be added, if it was granted. -/
lemma Sound.pushRange (haccepted : g.acceptedThrough ≤ lo)
    (hissued : g.issued ≤ lo) (hhi : hi < 2 ^ 64)
    (hgranted : ∃ r ∈ granted, r.epoch = g.epoch ∧ r.range.lo ≤ lo ∧ hi ≤ r.range.hi) :
    (g.pushRange lo hi).Sound granted taken := by
  have hmem : ∀ y ∈ (g.pushRange lo hi).held, y ∈ g.held ∨ y = ⟨lo, hi⟩ ∧ lo < hi := by
    intro y hy
    rw [Grants.pushRange] at hy
    split at hy
    · next hlt =>
      rw [mem_insertionSort, mem_append, mem_singleton] at hy
      exact hy.imp_right fun heq => ⟨heq, hlt⟩
    · exact .inl hy
  refine ⟨fun y hy => ?_, ?_, fun y hy r hr => ?_, h.below, h.once, fun y hy => ?_⟩
  · rcases hmem y hy with hy | ⟨rfl, hlt⟩
    · obtain ⟨h₁, h₂, h₃⟩ := h.range y hy
      exact ⟨h₁, h₂.trans (le_max_left _ _), h₃⟩
    · exact ⟨hlt, le_max_right _ _, hhi⟩
  · rw [Grants.pushRange]
    split
    · refine NatRange.pairwise_insertionSort (NatRange.pairwise_concat h.apart fun b hb => ?_)
      exact NatRange.apart_of_le ((h.range b hb).2.1.trans haccepted)
    · exact h.apart
  · rcases hmem y hy with hy | ⟨rfl, -⟩
    · exact h.fresh y hy r hr
    · exact (NatRange.apart_of_le ((h.below r hr).trans hissued)).symm
  · rcases hmem y hy with hy | ⟨rfl, -⟩
    · exact h.inside y hy
    · exact hgranted

lemma Sound.raiseIssuedThrough (issued : ℕ) :
    (g.raiseIssuedThrough issued).Sound granted taken := by
  have hmem : ∀ y ∈ (g.raiseIssuedThrough issued).held, y.lo < y.hi ∧
      ∃ x ∈ g.held, x.lo ≤ y.lo ∧ y.hi = x.hi := by
    intro y hy
    obtain ⟨hy, hlt⟩ := mem_filter.mp hy
    obtain ⟨x, hx, rfl⟩ := mem_map.mp hy
    exact ⟨by simpa using hlt, x, hx, le_max_left _ _, rfl⟩
  refine ⟨fun y hy => ?_, ?_, fun y hy r hr => ?_, fun r hr => ?_, h.once, fun y hy => ?_⟩
  · obtain ⟨hlt, x, hx, -, hhi⟩ := hmem y hy
    obtain ⟨-, haccepted, hbound⟩ := h.range x hx
    exact ⟨hlt, hhi.le.trans (haccepted.trans (le_max_left _ _)), hhi.trans_lt hbound⟩
  · refine Pairwise.filter _ (pairwise_map.mpr (h.apart.imp fun {a b} hab => ?_))
    have hleft : NatRange.Apart ⟨max a.lo (max g.issued issued), a.hi⟩ b :=
      hab.mono (le_max_left _ _) le_rfl
    exact hleft.mono_right (le_max_left _ _) le_rfl
  · obtain ⟨-, x, hx, hlo, hhi⟩ := hmem y hy
    exact (h.fresh x hx r hr).mono hlo hhi.le
  · exact (h.below r hr).trans (le_max_left _ _)
  · obtain ⟨-, x, hx, hlo, hhi⟩ := hmem y hy
    obtain ⟨r, hr, hepoch, hrlo, hrhi⟩ := h.inside x hx
    exact ⟨r, hr, hepoch, hrlo.trans hlo, hhi.le.trans hrhi⟩

/-- A take, by a node in the given authority, with the range it grants itself if it has to. -/
lemma Sound.take (auth : Authority) (epoch : ℕ)
    (hgranted : (g.observeEpoch epoch).takeFromHeld n = none → auth = .standalone →
      ⟨epoch, (g.observeEpoch epoch).selfGrant n⟩ ∈ granted) : match g.take n auth epoch with
    | (.ok v, g') => g'.Sound granted (taken ++ [⟨v, v + n⟩]) ∧
        ∃ r ∈ granted, r.epoch = epoch ∧ r.range.lo ≤ v ∧ v + n ≤ r.range.hi
    | (.error _, g') => g'.Sound granted taken := by
  have hobserved := h.observeEpoch epoch
  have hepoch := observeEpoch_epoch g epoch
  unfold Grants.take
  generalize g.observeEpoch epoch = g₁ at hobserved hepoch hgranted ⊢
  dsimp only
  cases htake : g₁.takeFromHeld n with
  | some out => exact hepoch ▸ hobserved.takeFromHeld htake
  | none =>
    cases auth with
    | member node => exact hobserved
    | standalone =>
      have hself := hgranted htake rfl
      have hpushed := hobserved.pushRange (le_max_left _ _) (le_max_right _ _)
          ((min_le_right _ _).trans_lt (by norm_num)) ⟨_, hself, hepoch.symm, le_rfl, le_rfl⟩
      have hpushedEpoch : (g₁.pushRange (g₁.selfGrant n).lo (g₁.selfGrant n).hi).epoch = epoch :=
        hepoch
      cases htake' : (g₁.pushRange (g₁.selfGrant n).lo (g₁.selfGrant n).hi).takeFromHeld n with
      | some out => exact hpushedEpoch ▸ hpushed.takeFromHeld htake'
      | none => exact hpushed

lemma Sound.applyGrant {dest : NodeId} {auth : Authority} {epoch : ℕ} (hhi : hi < 2 ^ 64)
    (hgranted : auth = .member dest → ⟨epoch, ⟨lo, hi⟩⟩ ∈ granted) :
    (g.applyGrant dest lo hi auth epoch).2.Sound granted taken := by
  unfold Grants.applyGrant
  cases auth with
  | standalone => exact h
  | member me =>
    dsimp only
    split
    · exact h
    · next hme =>
      split
      · exact h
      · have hobserved := h.observeEpoch epoch
        have hepoch := observeEpoch_epoch g epoch
        split
        · exact hobserved
        · refine hobserved.pushRange ((le_max_right _ _).trans (le_max_left _ _)) (le_max_right _ _)
            hhi ⟨_, hgranted (by rw [not_not.mp hme]), hepoch.symm, ?_, le_rfl⟩
          exact (le_max_left _ _).trans (le_max_left _ _)

end

end Grants

/-! ## Whole runs -/

namespace Issuer

variable {w : Issuer}

def Sound (w : Issuer) : Prop := w.grants.Sound w.granted w.taken

/-- A take, with the range it grants the node on record. -/
lemma Sound.take (h : w.Sound) (n : ℕ) : match w.take n with
    | (.ok v, g') => g'.Sound (w.granted ++ w.selfGranted n) (w.taken ++ [⟨v, v + n⟩]) ∧
        ∃ r ∈ w.granted ++ w.selfGranted n,
          r.epoch = w.process.epoch ∧ r.range.lo ≤ v ∧ v + n ≤ r.range.hi
    | (.error _, g') => g'.Sound (w.granted ++ w.selfGranted n) w.taken := by
  refine Grants.Sound.take (h.mono (subset_append_left _ _)) _ _ fun hnone hauth => ?_
  exact mem_append_right _ (by simp [selfGranted, hnone, hauth])

lemma Sound.step (h : w.Sound) (event : CounterEvent) : (w.step event).Sound := by
  cases event with
  | take n =>
    have htake := h.take n.toNat
    rw [Issuer.step]
    generalize w.take n.toNat = out at htake ⊢
    rcases out with ⟨e | v, g'⟩
    · exact htake
    · exact htake.1
  | applyGrant dest lo hi =>
    rw [Issuer.step]
    split
    · exact (h.mono (subset_append_left _ _)).applyGrant hi.toNat_lt fun _ => by simp
    · next hauth => exact h.applyGrant hi.toNat_lt fun heq => absurd heq hauth
  | raiseIssuedThrough issued => exact h.raiseIssuedThrough _
  | join node => exact h
  | leave => exact h
  | restart first =>
    -- the counter holds nothing, and what was taken lies below what is restored
    refine Grants.Sound.mk (by simp [Issuer.step, Grants.new, Grants.raiseIssuedThrough])
      (by simp [Issuer.step, Grants.new, Grants.raiseIssuedThrough])
      (by simp [Issuer.step, Grants.new, Grants.raiseIssuedThrough]) (fun r hr => ?_) h.once
      (by simp [Issuer.step, Grants.new, Grants.raiseIssuedThrough])
    exact (h.below r hr).trans (le_max_right _ _)

lemma sound_after (counter : String) (first : UInt64) (chunk : ℕ+) (events : List CounterEvent) :
    ((start counter first chunk).after events).Sound := by
  induction events using reverseRecOn with
  | nil => exact ⟨by simp [after, start, Grants.new], by simp [after, start, Grants.new],
      by simp [after, start], by simp [after, start], by simp [after, start],
      by simp [after, start, Grants.new]⟩
  | append_singleton events event ih =>
    rw [after, foldl_append]
    exact ih.step event

/-- Whatever grants reach a counter, however the authority changes and however often the process
is restarted: no two takes return a common value, all values taken lie below the watermark that is
kept, and a take lies inside a range granted to the node in the current epoch. -/
theorem never_issues_twice (counter : String) (first : UInt64) (chunk : ℕ+)
    (events : List CounterEvent) :
    let w := (start counter first chunk).after events
    w.taken.Pairwise (fun a b => Disjoint (Set.Ico a.lo a.hi) (Set.Ico b.lo b.hi)) ∧
      (∀ r ∈ w.taken, r.hi ≤ w.grants.issued) ∧
      ∀ (n : UInt64) v, (w.take n.toNat).1 = .ok v → ∃ r ∈ (w.step (.take n)).granted,
        r.epoch = w.process.epoch ∧ r.range.lo ≤ v ∧ v + n.toNat ≤ r.range.hi := by
  intro w
  have h : w.Sound := sound_after counter first chunk events
  refine ⟨h.once.imp NatRange.apart_iff_disjoint.mp, h.below, fun n v hv => ?_⟩
  have htake := h.take n.toNat
  generalize w.take n.toNat = out at htake hv
  rcases out with ⟨e | v', g'⟩
  · cases hv
  · cases hv
    exact htake.2

end Issuer

end FerroDb.Cluster
