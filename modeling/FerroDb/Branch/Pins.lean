import FerroDb.Branch.LogCatalog
import FerroDb.Library.MarkWalk

/-!
# Which branches hold an entry under their parent

`parent_entry_holders` of `branch/record.rs`. It reads a map of branches in the order of a hash
table and walks up from every branch that was not reaped. In whatever order it reads them, and
whatever the records say of their parents, it ends and finds the branches that were not reaped and
those above them that were.
-/

namespace FerroDb.Branch

open Library Option Std Prod

/-! ## What holds an entry -/

/-- `parent` is the slot of the branch that `child` was forked from, and that branch was reaped.
The slot has not been taken again: its record is of the branch that the child names. -/
def ReapedParent (nodes : TreeMap ℕ BranchNode) (child parent : ℕ) : Prop :=
  ∃ (c p : BranchNode) (want : BranchId), nodes[child]? = some c ∧ c.parentId = some want ∧
    want.id = parent ∧ nodes[parent]? = some p ∧ p.branchId = want ∧ p.state = .reaped

def NotReaped (nodes : TreeMap ℕ BranchNode) (id : ℕ) : Prop :=
  ∃ node, nodes[id]? = some node ∧ node.state ≠ .reaped

/-- A branch that was not reaped, or one that was and has a descendant that was not, with none
but reaped branches on the way up to it. -/
def HoldsEntry (nodes : TreeMap ℕ BranchNode) (id : ℕ) : Prop :=
  NotReaped nodes id ∨ ∃ below, NotReaped nodes below ∧
    Relation.TransGen (ReapedParent nodes) below id

/-! ## Reading the map in any order -/

/-- A walk as `climb` makes it, or `none` if it has not ended after `fuel` lookups. -/
def climbIn (nodes : TreeMap ℕ BranchNode) : ℕ → Option BranchId → List ℕ → Option (List ℕ)
  | _, none, holders => some holders
  | 0, some _, _ => none
  | fuel + 1, some want, holders =>
    match nodes[want.id]? with
    | some node =>
      if node.branchId = want ∧ node.state = .reaped ∧ want.id ∉ holders then
        climbIn nodes fuel node.parentId (want.id :: holders)
      else some holders
    | none => some holders

/-- The holders found by reading the map in this order, `none` if one of the walks has not ended
after `fuel` lookups. -/
def holdersIn (nodes : TreeMap ℕ BranchNode) (fuel : ℕ) :
    List (ℕ × BranchNode) → List ℕ → Option (List ℕ)
  | [], holders => some holders
  | (id, node) :: order, holders =>
    if node.state = .reaped then holdersIn nodes fuel order holders
    else
      match climbIn nodes fuel node.parentId (holders.insert id) with
      | some holders => holdersIn nodes fuel order holders
      | none => none

/-! ## Walks mark what lies above -/

/-- The slot of the reaped branch of this name. -/
def reapedAt (nodes : TreeMap ℕ BranchNode) (want : BranchId) : Option ℕ :=
  match nodes[want.id]? with
  | some node => if node.branchId = want ∧ node.state = .reaped then some want.id else none
  | none => none

def reapedParent (nodes : TreeMap ℕ BranchNode) (id : ℕ) : Option ℕ :=
  (nodes[id]?).bind fun node => node.parentId.bind (reapedAt nodes)

variable {nodes : TreeMap ℕ BranchNode} {fuel id : ℕ} {up : Option BranchId}
  {order : List (ℕ × BranchNode)} {holders result : List ℕ} {want : BranchId}

lemma reapedAt_eq_some : reapedAt nodes want = some id ↔
    want.id = id ∧ ∃ p, nodes[id]? = some p ∧ p.branchId = want ∧ p.state = .reaped := by
  unfold reapedAt
  cases hp : nodes[want.id]? with
  | none =>
    simp only [reduceCtorEq, false_iff]
    rintro ⟨rfl, p, hp', -⟩
    simp [hp] at hp'
  | some p =>
    simp only [ite_none_right_eq_some, some.injEq]
    constructor
    · rintro ⟨hmatch, rfl⟩
      exact ⟨rfl, p, hp, hmatch⟩
    · rintro ⟨rfl, p', hp', hmatch⟩
      obtain rfl := some.inj (hp.symm.trans hp')
      exact ⟨hmatch, rfl⟩

lemma reapedParent_eq_some {child : ℕ} :
    reapedParent nodes child = some id ↔ ReapedParent nodes child id := by
  simp only [reapedParent, bind_eq_some_iff, reapedAt_eq_some]
  constructor
  · rintro ⟨c, hc, want, hwant, hid, p, hp⟩
    exact ⟨c, p, want, hc, hwant, hid, hp⟩
  · rintro ⟨c, p, want, hc, hwant, hid, hp⟩
    exact ⟨c, hc, want, hwant, hid, p, hp⟩

lemma reapedParent_of_get {node : BranchNode} (h : nodes[id]? = some node) :
    reapedParent nodes id = node.parentId.bind (reapedAt nodes) := by
  rw [reapedParent, h, bind_some]

lemma climbIn_of_none (h : reapedAt nodes want = none) :
    climbIn nodes (fuel + 1) (some want) holders = some holders := by
  rw [climbIn]
  cases hnode : nodes[want.id]? with
  | none => rfl
  | some node =>
    have hno : ¬(node.branchId = want ∧ node.state = .reaped) := by simpa [reapedAt, hnode] using h
    exact if_neg fun hwalk => hno ⟨hwalk.1, hwalk.2.1⟩

/-- A walk marks what lies above; to see that it is over it looks one slot further. -/
lemma climbIn_eq (h : markAbove (reapedParent nodes) fuel (up.bind (reapedAt nodes)) holders =
    some result) : climbIn nodes (fuel + 1) up holders = some result := by
  induction fuel generalizing up holders with
  | zero =>
    cases up with
    | none => simpa [markAbove, climbIn] using h
    | some want =>
      have hat : reapedAt nodes want = none := by
        cases hat : reapedAt nodes want with
        | none => rfl
        | some id => simp [hat, markAbove] at h
      rw [bind_some, hat, markAbove] at h
      rw [climbIn_of_none hat, h]
  | succ fuel ih =>
    cases up with
    | none => simpa [markAbove, climbIn] using h
    | some want =>
      rw [bind_some] at h
      cases hat : reapedAt nodes want with
      | none =>
        rw [hat, markAbove] at h
        rw [climbIn_of_none hat, h]
      | some id =>
        obtain ⟨rfl, node, hnode, hmatch, hstate⟩ := reapedAt_eq_some.mp hat
        rw [hat, markAbove, reapedParent_of_get hnode] at h
        rw [climbIn, hnode]
        dsimp only
        split_ifs at h with hheld
        · rw [if_neg fun hwalk => hwalk.2.2 hheld, h]
        · rw [if_pos ⟨hmatch, hstate, hheld⟩]
          exact ih h

/-- A walk that has ended is the one `climb` makes. -/
lemma climb_eq (h : climbIn nodes fuel up holders = some result) :
    climb nodes fuel up holders = result := by
  fun_induction climbIn nodes fuel up holders with
  | case1 fuel holders =>
    obtain rfl := some.inj h
    cases fuel <;> rfl
  | case2 => simp at h
  | case3 fuel want holders node hnode hwalk ih => simpa [climb, hnode, hwalk] using ih h
  | case4 fuel want holders node hnode hwalk => simpa [climb, hnode, hwalk] using h
  | case5 fuel want holders hnode => simpa [climb, hnode] using h

/-- The branches from which the walks start. -/
def seedsOf (order : List (ℕ × BranchNode)) : List ℕ :=
  (order.filter fun p => p.2.state ≠ .reaped).map fst

lemma holdersIn_eq (horder : ∀ p ∈ order, nodes[p.1]? = some p.2)
    (h : markAll (reapedParent nodes) fuel (seedsOf order) holders = some result) :
    holdersIn nodes (fuel + 1) order holders = some result := by
  induction order generalizing holders with
  | nil => exact h
  | cons p order ih =>
    obtain ⟨id, node⟩ := p
    obtain ⟨hget, hrest⟩ := List.forall_mem_cons.mp horder
    rw [holdersIn]
    split_ifs with hreaped
    · have hseeds : seedsOf ((id, node) :: order) = seedsOf order := by simp [seedsOf, hreaped]
      exact ih hrest (hseeds ▸ h)
    · have hseeds : seedsOf ((id, node) :: order) = id :: seedsOf order := by
        simp [seedsOf, hreaped]
      rw [hseeds, markAll, reapedParent_of_get hget] at h
      cases hwalk : markAbove (reapedParent nodes) fuel (node.parentId.bind (reapedAt nodes))
          (holders.insert id) with
      | none => simp [hwalk] at h
      | some marked =>
        simp only [hwalk] at h
        rw [climbIn_eq hwalk]
        exact ih hrest h

/-- With as many steps as it is given, `parentEntryHolders` has read the map to the end. -/
lemma parentEntryHolders_eq (h : holdersIn nodes (nodes.size + 1) nodes.toList [] = some result) :
    parentEntryHolders nodes = result := by
  have hfold (order : List (ℕ × BranchNode)) (holders : List ℕ)
      (h : holdersIn nodes (nodes.size + 1) order holders = some result) :
      order.foldl (fun holders p =>
        if p.2.state = .reaped then holders
        else climb nodes (nodes.size + 1) p.2.parentId (holders.insert p.1)) holders = result := by
    induction order generalizing holders with
    | nil => exact some.inj h
    | cons p order ih =>
      obtain ⟨id, node⟩ := p
      rw [holdersIn] at h
      rw [List.foldl_cons]
      split_ifs at h ⊢ with hreaped
      · exact ih holders h
      · cases hwalk : climbIn nodes (nodes.size + 1) node.parentId (holders.insert id) with
        | none => simp [hwalk] at h
        | some marked =>
          simp only [hwalk] at h
          rw [climb_eq hwalk]
          exact ih marked h
  exact hfold nodes.toList [] h

/-! ## The walks end, and find the holders -/

lemma mem_seedsOf (horder : order.Perm nodes.toList) :
    id ∈ seedsOf order ↔ NotReaped nodes id := by
  simp only [seedsOf, List.mem_map, List.mem_filter, horder.mem_iff, Prod.exists,
    TreeMap.mem_toList_iff_getElem?_eq_some, decide_eq_true_eq]
  constructor
  · rintro ⟨id, node, ⟨hnode, hstate⟩, rfl⟩
    exact ⟨node, hnode, hstate⟩
  · rintro ⟨node, hnode, hstate⟩
    exact ⟨id, node, ⟨hnode, hstate⟩, rfl⟩

lemma holdsEntry_iff :
    HoldsEntry nodes id ↔ ∃ s, NotReaped nodes s ∧ Above (reapedParent nodes) s id := by
  have hrel : (fun x y => reapedParent nodes x = some y) = ReapedParent nodes := by
    ext x y
    rw [reapedParent_eq_some]
  unfold HoldsEntry Above
  rw [hrel]
  constructor
  · rintro (hid | ⟨s, hs, hpath⟩)
    · exact ⟨id, hid, .refl⟩
    · exact ⟨s, hs, hpath.to_reflTransGen⟩
  · rintro ⟨s, hs, hpath⟩
    rcases Relation.reflTransGen_iff_eq_or_transGen.mp hpath with rfl | hpath
    · exact .inl hs
    · exact .inr ⟨s, hs, hpath⟩

/-- Walks go through branches that were reaped, and start at one that was not. -/
lemma markAll_seedsOf_ends (horder : order.Perm nodes.toList) :
    ∃ result, markAll (reapedParent nodes) nodes.size (seedsOf order) [] = some result := by
  by_cases hseeds : seedsOf order = []
  · exact ⟨[], by rw [hseeds]; rfl⟩
  · obtain ⟨s, hs⟩ := List.exists_mem_of_ne_nil _ hseeds
    obtain ⟨node, hnode, hstate⟩ := (mem_seedsOf horder).mp hs
    let reaped := (nodes.toList.filter fun p => p.2.state = .reaped).map fst
    have hless : reaped.length < nodes.size := by
      rw [List.length_map, ← TreeMap.length_toList]
      refine List.length_filter_lt_length_iff_exists.mpr ⟨(s, node), ?_, by simpa using hstate⟩
      exact TreeMap.mem_toList_iff_getElem?_eq_some.mpr hnode
    have hnext : ∀ x y, reapedParent nodes x = some y → y ∈ reaped := fun x y hxy => by
      obtain ⟨c, p, want, -, -, -, hp, -, hreaped⟩ := reapedParent_eq_some.mp hxy
      refine List.mem_map.mpr ⟨(y, p), List.mem_filter.mpr ⟨?_, by simpa using hreaped⟩, rfl⟩
      exact TreeMap.mem_toList_iff_getElem?_eq_some.mpr hp
    exact markAll_ends hnext hless

lemma mem_parentEntryHolders : id ∈ parentEntryHolders nodes ↔ HoldsEntry nodes id := by
  have horder : nodes.toList.Perm nodes.toList := .refl _
  obtain ⟨result, hresult⟩ := markAll_seedsOf_ends horder
  have hall := holdersIn_eq (fun p hp => TreeMap.mem_toList_iff_getElem?_eq_some.mp hp) hresult
  rw [parentEntryHolders_eq hall, mem_markAll hresult, holdsEntry_iff]
  simp [mem_seedsOf horder]

/-- In whatever order the map of branches is read, with whatever links to parents, the pass ends
and the holders are the branches that were not reaped and those that are reaped above one; and a
page can be reclaimed if no child was forked while it was in use. -/
theorem parentEntryHolders_exact (nodes : TreeMap ℕ BranchNode)
    (order : List (ℕ × BranchNode)) (horder : order.Perm nodes.toList) (epochs : List ℕ)
    (hsorted : epochs.Pairwise (· ≤ ·)) (birth freed : ℕ) :
    (∃ holders, (∀ fuel > nodes.size, holdersIn nodes fuel order [] = some holders) ∧
      ∀ id, id ∈ holders ↔ HoldsEntry nodes id) ∧
    (∀ id, id ∈ parentEntryHolders nodes ↔ HoldsEntry nodes id) ∧
    (reclaimable epochs birth freed ↔ ∀ e ∈ epochs, ¬(birth ≤ e ∧ e < freed)) := by
  refine ⟨?_, fun id => mem_parentEntryHolders, reclaimable_iff hsorted⟩
  obtain ⟨result, hresult⟩ := markAll_seedsOf_ends horder
  refine ⟨result, fun fuel hfuel => ?_, fun id => ?_⟩
  · obtain ⟨fuel, rfl⟩ : ∃ n, fuel = n + 1 := ⟨fuel - 1, by omega⟩
    refine holdersIn_eq (fun p hp => ?_) (markAll_mono hresult (by omega))
    exact TreeMap.mem_toList_iff_getElem?_eq_some.mp (horder.mem_iff.mp hp)
  · rw [mem_markAll hresult, holdsEntry_iff]
    simp only [mem_seedsOf horder]

/-- Two reaped branches that name each other as parents, and a live one below them: the walk goes
round once. -/
theorem parentEntryHolders_exact_cycle :
    let entries : List (ℕ × BranchNode) :=
      [(1, ⟨⟨1, 0⟩, some ⟨2, 0⟩, .live, 7⟩), (2, ⟨⟨2, 0⟩, some ⟨3, 0⟩, .reaped, 5⟩),
        (3, ⟨⟨3, 0⟩, some ⟨2, 0⟩, .reaped, 6⟩), (4, ⟨⟨4, 1⟩, some ⟨3, 0⟩, .reaped, 8⟩)]
    let nodes : TreeMap ℕ BranchNode := .ofList entries
    parentEntryHolders nodes = [3, 2, 1] ∧
      (∀ id, id ∈ parentEntryHolders nodes ↔ HoldsEntry nodes id) ∧
      (reclaimable [5, 6] 3 5 ↔ ∀ e ∈ [5, 6], ¬(3 ≤ e ∧ e < 5)) := by
  refine ⟨by decide +kernel, ?_⟩
  exact (parentEntryHolders_exact _ _ (List.reverse_perm _) [5, 6] (by decide) 3 5).2

end FerroDb.Branch
