import FerroDb.Cow.Refine
import Mathlib.Logic.Relation

/-!
# Writes to a tree are all or nothing

Whatever calls to the store fail, an insertion or deletion that reports an error has left every
page that the old root reaches as it was, and one that succeeds has retired no page that the new
root reaches.
-/

namespace FerroDb.Cow

open Library SepTree M CowTree Multiset Function Option

/-- The operations that write a tree. -/
inductive Op where
  | insert (key : Key) (value : Value)
  | delete (key : Key)

def Op.within (root : PageId) : Op → M PageId
  | .insert key value => insertWithin root key value
  | .delete key => deleteWithin root key

def Op.run (root : PageId) : Op → M PageId
  | .insert key value => CowTree.insert root key value
  | .delete key => CowTree.delete root key

lemma Op.run_eq (op : Op) (root : PageId) : op.run root = finish (op.within root) := by
  cases op <;> rfl

/-- What an operation makes of a tree, and whether a merge goes astray in it. -/
def Op.Makes (strays : Bool) (T T' : Tree) : Op → Prop
  | .insert key value => Inserts key value strays T T'
  | .delete key => Deletes key strays T T'

/-! ## The pages a root reaches -/

def childrenOf : Page → List PageId
  | .internal l es => l :: es.map (·.2)
  | _ => []

/-- A page points to another. -/
def Points (pages : PageId → Option Stored) (p c : PageId) : Prop :=
  ∃ f, pages p = some f ∧ c ∈ childrenOf f.page

def Reaches (pages : PageId → Option Stored) : PageId → PageId → Prop :=
  Relation.ReflTransGen (Points pages)

/-- The tree stands in the store: its pages are distinct and hold its nodes. -/
structure Stands (s : State) (T : Tree) : Prop where
  held : ∀ c ∈ cells T, (s.pages c.1).map Stored.page = some c.2
  nodup : ((cells T).map (·.1)).Nodup

variable {T : Tree} {c : PageId × Page} {R : Set PageId} {r : Except FerroError PageId}
  {s s' : State}

lemma Stands.isSome (h : Stands s T) (hc : c ∈ cells T) : (s.pages c.1).isSome := by
  have hheld := h.held c hc
  cases hp : s.pages c.1 with
  | none => simp [hp] at hheld
  | some f => rfl

lemma mem_cellsOf {ks : List (Key × Tree)} : c ∈ cellsOf ks ↔ ∃ kt ∈ ks, c ∈ cells kt.2 := by
  induction ks with
  | nil => simp
  | cons kt ks ih =>
    obtain ⟨k, t⟩ := kt
    simp [ih]

/-- The pages of a tree point to pages of the tree. -/
lemma children_mem (hc : c ∈ cells T) {child : PageId}
    (hchild : child ∈ childrenOf c.2) : ∃ p, (child, p) ∈ cells T := by
  induction T using induct with
  | leaf i es =>
    rw [cells_leaf, mem_singleton] at hc
    simp [hc, childrenOf] at hchild
  | node i l ks ihl ihk =>
    rw [cells_node, mem_add, mem_add] at hc
    simp only [cells_node, mem_add]
    rcases hc with hc | hc | hc
    · rw [mem_singleton.mp hc] at hchild
      rcases List.mem_cons.mp hchild with rfl | hkid
      · obtain ⟨p, hp⟩ := mem_cells l
        exact ⟨p, .inr (.inl hp)⟩
      · obtain ⟨e, he, rfl⟩ := List.mem_map.mp hkid
        obtain ⟨kt, hkt, rfl⟩ := List.mem_map.mp he
        obtain ⟨p, hp⟩ := mem_cells kt.2
        exact ⟨p, .inr (.inr (mem_cellsOf.mpr ⟨kt, hkt, hp⟩))⟩
    · obtain ⟨p, hp⟩ := ihl hc
      exact ⟨p, .inr (.inl hp)⟩
    · obtain ⟨kt, hkt, hc⟩ := mem_cellsOf.mp hc
      obtain ⟨p, hp⟩ := ihk kt hkt hc
      exact ⟨p, .inr (.inr (mem_cellsOf.mpr ⟨kt, hkt, hp⟩))⟩

lemma Stands.mem_of_reaches (h : Stands s T) {q : PageId}
    (hq : Reaches s.pages T.id q) : ∃ p, (q, p) ∈ cells T := by
  induction hq with
  | refl => exact mem_cells T
  | tail _ hpoints ih =>
    obtain ⟨p, hp⟩ := ih
    obtain ⟨f, hf, hchild⟩ := hpoints
    have hheld := h.held _ hp
    rw [hf, map_some, some.injEq] at hheld
    exact children_mem hp (hheld ▸ hchild)

/-! ## Finishing -/

lemma rollback_apply {undo : List (PageId × Stored)} (h : (undo.map (·.1)).Nodup)
    (pages : PageId → Option Stored) (id : PageId) :
    rollback undo pages id = (undo.lookup id).or (pages id) := by
  induction undo generalizing pages with
  | nil => rfl
  | cons u undo ih =>
    rw [List.map_cons, List.nodup_cons] at h
    have hfold : rollback (u :: undo) pages =
        rollback undo (update pages u.1 (some u.2)) := rfl
    rw [hfold, ih h.2, List.lookup_cons]
    rcases eq_or_ne id u.1 with rfl | hne
    · have hnone : undo.lookup u.1 = none := by
        rw [List.lookup_eq_none_iff]
        intro v hv
        have hne : v.1 ≠ u.1 := fun heq => h.1 (List.mem_map.mpr ⟨v, hv, heq⟩)
        simpa using fun heq => hne heq.symm
      simp [hnone]
    · simp [update_of_ne hne, beq_false_of_ne hne]

/-- Freeing a page changes no other. -/
lemma freePage_state (id : PageId) (s : State) :
    (∀ q, (q = id → ¬s.Will Answer.released q) →
      ((freePage id).run s).2.pages q = s.pages q) ∧ Writes s ((freePage id).run s).2 ∧
      Later s ((freePage id).run s).2 := by
  refine wp_state (m := freePage id)
    (P := fun s' => (∀ q, (q = id → ¬s.Will Answer.released q) → s'.pages q = s.pages q) ∧
      Writes s s' ∧ Later s s') ?_
  simp only [freePage, call, wp_bind, wp_get, wp_set]
  split
  · exact wp_throw.mpr ⟨fun _ _ => rfl, ⟨rfl, rfl⟩, .call s⟩
  · refine wp_pure.mpr (wp_modify.mpr ⟨fun q hq => ?_, ⟨rfl, rfl⟩, ⟨rfl, Nat.le_succ _⟩⟩)
    split
    · next hreleased =>
      refine update_of_ne ?_ _ _
      rintro rfl
      exact hq rfl ⟨s.calls, le_rfl, hreleased⟩
    · rfl

lemma freeRetired_state (ids : List PageId) (s : State) :
    (∀ q, (q ∈ ids → ¬s.Will Answer.released q) → (freeRetired ids s).pages q = s.pages q) ∧
      Writes s (freeRetired ids s) ∧ Later s (freeRetired ids s) := by
  induction ids generalizing s with
  | nil => exact ⟨fun _ _ => rfl, .refl s, .refl s⟩
  | cons id ids ih =>
    obtain ⟨hpages, hwrites, hlater⟩ := freePage_state id s
    obtain ⟨hpages', hwrites', hlater'⟩ := ih ((freePage id).run s).2
    refine ⟨fun q hq => ?_, hwrites.trans hwrites', hlater.trans hlater'⟩
    rw [List.mem_cons] at hq
    exact (hpages' q fun hmem h => hq (.inr hmem) (hlater.will h)).trans
      (hpages q fun heq => hq (.inl heq))

/-- Each operation, from a tree that stands in the store. -/
lemma Op.within_spec (op : Op) {s₀ : State} (h : Holding s₀ R (cells T) s) : wp (op.within T.id)
      (fun r s' => ∃ T' strays, T'.id = r ∧ op.Makes strays T T' ∧ Holding s₀ R (cells T') s' ∧
        s'.strayed = (s.strayed || strays)) (Journaled s₀ R) s := by
  cases op with
  | insert key value => exact insertWithin_spec h
  | delete key => exact deleteWithin_spec h

/-- A tree that stands in the store is held by an operation that begins, and with it every other
page that is there can be put back. -/
lemma Stands.holding (h : Stands s T) (hR : ∀ q ∈ R, (s.pages q).isSome) :
    Holding { s with journal := ⟨[], []⟩ } R (cells T) { s with journal := ⟨[], []⟩ } :=
  ⟨⟨fun _ _ => rfl, List.nodup_nil, hR, fun _ hq => absurd hq List.not_mem_nil, rfl, .refl _,
    fun _ hu => absurd hu List.not_mem_nil, fun _ hq => absurd hq List.not_mem_nil⟩,
    ⟨h.held, h.nodup, fun _ _ => List.not_mem_nil⟩⟩

/-- A page that the writer shares: it is not private to it, and if it is its own, it is not taken
again when it is freed. -/
def Shared (s : State) (q : PageId) : Prop :=
  ¬s.Will Answer.isPrivate q ∧ ¬(s.Will Answer.ownedByWriter q ∧ s.Will Answer.released q)

lemma Later.shared (h : Later s s') {q : PageId} (hq : Shared s q) : Shared s' q :=
  ⟨fun hw => hq.1 (h.will hw), fun hw => hq.2 ⟨h.will hw.1, h.will hw.2⟩⟩

/-- How an operation ends: with the store rolled back, or with a new tree in it. Pages that are
shared are as they were. -/
lemma Op.run_framed (op : Op) (h : Stands s T) (hR : ∀ q ∈ R, (s.pages q).isSome)
    (hrun : (op.run T.id).run s = (r, s')) : match r with
    | .error _ => (∀ q ∈ R, s'.pages q = s.pages q) ∧ s'.freed = s.freed
    | .ok root => ∃ T' strays, T'.id = root ∧ op.Makes strays T T' ∧ Stands s' T' ∧
        (∀ c ∈ cells T', c.1 ∉ s'.journal.retired) ∧ s'.strayed = (s.strayed || strays) ∧
        Later s s' ∧ ∀ q ∈ R, Shared s q → s'.pages q = s.pages q := by
  have hwithin := op.within_spec (h.holding hR)
  have hfinish : finish (fun _ => (op.within T.id).run { s with journal := ⟨[], []⟩ }) s =
      (r, s') := by
    rw [← hrun, op.run_eq]
    rfl
  rw [wp] at hwithin
  generalize ((op.within T.id).run { s with journal := ⟨[], []⟩ } :
    Except FerroError PageId × State) = out at hwithin hfinish
  rcases out with ⟨e | root, s₁⟩
  · cases hfinish
    refine ⟨fun q hq => ?_, hwithin.freed⟩
    exact (rollback_apply hwithin.nodup _ _).trans (hwithin.restores q hq)
  · cases hfinish
    obtain ⟨T', strays, hid, hmakes, hholding, hstrayed⟩ := hwithin
    obtain ⟨hpages, hwrites, hlater⟩ := freeRetired_state s₁.journal.retired s₁
    have hlater₁ : Later s s₁ :=
      ⟨hholding.journaled.later.answers, hholding.journaled.later.calls⟩
    refine ⟨T', strays, hid, hmakes, ⟨fun c hc => ?_, hholding.owned.nodup⟩,
      fun c hc => ?_, hwrites.strayed.trans hstrayed, hlater₁.trans hlater, ?_⟩
    · rw [hpages c.1 fun hr => absurd hr (hholding.owned.live c hc)]
      exact hholding.owned.held c hc
    · rw [hwrites.journal]
      exact hholding.owned.live c hc
    · intro q hq hshared
      have hnone : s₁.journal.undo.lookup q = none := by
        rw [List.lookup_eq_none_iff]
        intro u hu
        have hne : q ≠ u.1 := fun heq => hshared.1 (heq ▸ hholding.journaled.inPlace u hu)
        simpa using hne
      have hrestores := hholding.journaled.restores q hq
      rw [hnone, none_or] at hrestores
      refine (hpages q fun hr hreleased => ?_).trans hrestores
      -- a page that was retired is private to the writer or its own
      rcases hholding.journaled.loose q hr hq with hw | hw
      · exact hshared.1 hw
      · exact hshared.2 ⟨hw, hlater₁.will hreleased⟩

lemma Op.run_cases (op : Op) (h : Stands s T)
    (hrun : (op.run T.id).run s = (r, s')) : match r with
    | .error _ => (∀ c ∈ cells T, s'.pages c.1 = s.pages c.1) ∧ s'.freed = s.freed
    | .ok root => ∃ T' strays, T'.id = root ∧ op.Makes strays T T' ∧ Stands s' T' ∧
        (∀ c ∈ cells T', c.1 ∉ s'.journal.retired) ∧ s'.strayed = (s.strayed || strays) := by
  have hframed := op.run_framed h (R := {q | ∃ p, (q, p) ∈ cells T})
    (fun q ⟨p, hp⟩ => h.isSome hp) hrun
  cases r with
  | error e => exact ⟨fun c hc => hframed.1 c.1 ⟨c.2, hc⟩, hframed.2⟩
  | ok root =>
    obtain ⟨T', strays, hid, hmakes, hstands, hlive, hstrayed, -⟩ := hframed
    exact ⟨T', strays, hid, hmakes, hstands, hlive, hstrayed⟩

/-- Whatever the store answers, an operation on a tree that fails leaves every page the root
reaches as it was, byte for byte, and frees nothing; one that succeeds has retired no page the new
root reaches. -/
theorem write_all_or_nothing (op : Op) (s : State) (T : Tree) (h : Stands s T) :
    match ((op.run T.id).run s : Except FerroError PageId × State) with
    | (.error _, s') =>
      (∀ q, Reaches s.pages T.id q → (s'.pages q).isSome ∧ s'.pages q = s.pages q) ∧
        s'.freed = s.freed
    | (.ok root, s') =>
      (∀ q ∈ s'.journal.retired, ¬ Reaches s'.pages root q) ∧
        ∀ q, Reaches s'.pages root q → q ∉ s'.journal.retired ∧ (s'.pages q).isSome := by
  cases hrun : ((op.run T.id).run s : Except FerroError PageId × State) with
  | mk r s' =>
    have hcases := op.run_cases h hrun
    cases r with
    | error e =>
      refine ⟨fun q hq => ?_, hcases.2⟩
      obtain ⟨p, hp⟩ := h.mem_of_reaches hq
      have hsame := hcases.1 _ hp
      exact ⟨by simpa [hsame] using h.isSome hp, hsame⟩
    | ok root =>
      obtain ⟨T', -, rfl, -, hstands, hlive, -⟩ := hcases
      refine ⟨fun q hr hq => ?_, fun q hq => ?_⟩
      · obtain ⟨p, hp⟩ := hstands.mem_of_reaches hq
        exact hlive _ hp hr
      · obtain ⟨p, hp⟩ := hstands.mem_of_reaches hq
        exact ⟨hlive _ hp, hstands.isSome hp⟩

/-- A store that holds a root with two leaves, all private, and fails at the fifth call. An
insertion into the second leaf has written it by then, and looks for its right neighbour. -/
def twoLeafStore : State where
  pages i :=
    match i with
    | 0 => some ⟨.internal 1 [([5], 2)], 0⟩
    | 1 => some ⟨.leaf [([1], [])], 0⟩
    | 2 => some ⟨.leaf [([7], [])], 0⟩
    | _ => none
  journal := ⟨[], []⟩
  freed := []
  answers n := ⟨if n = 4 then some (.store 7) else none, fun _ => true, fun _ => true, n + 3,
    fun _ => true⟩
  calls := 0
  strayed := false

theorem write_all_or_nothing_two_leaves :
    ∃ s', ((CowTree.insert 0 [6] []).run twoLeafStore : Except FerroError PageId × State) =
        (.error (.store 7), s') ∧ s'.journal.undo = [(2, ⟨.leaf [([7], [])], 0⟩)] ∧
      (∀ q, Reaches twoLeafStore.pages 0 q →
        (s'.pages q).isSome ∧ s'.pages q = twoLeafStore.pages q) ∧ s'.freed = [] := by
  have hstands : Stands twoLeafStore (.node 0 (.leaf 1 [([1], [])]) [([5], .leaf 2 [([7], [])])]) := by
    refine ⟨fun c hc => ?_, by simp [cells_node]⟩
    simp only [cells_node, cells_leaf, cellsOf_cons, cellsOf_nil, mem_add,
      mem_singleton, notMem_zero, or_false] at hc
    rcases hc with rfl | rfl | rfl <;> rfl
  exact ⟨_, rfl, rfl, write_all_or_nothing (.insert [6] []) twoLeafStore _ hstands⟩

end FerroDb.Cow
