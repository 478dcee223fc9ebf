import FerroDb.Cow.Contents
import FerroDb.Cow.Reader

/-!
# Scans

`ScanCursor` of `cow/btree.rs`: a walk from leaf to leaf by a stack of levels, each the children
that are left to visit, which passes over the children whose separators keep them out of the range.
A scan is the cursor asked until it gives nothing more. One turn here is one turn of the loop in
`next` or of the one in `advance_leaf`, which have no bound in the source.
-/

namespace FerroDb.Cow

open Library SepTree CowTree List

/-! ## The cursor -/

structure ScanCursor where
  /-- For every level the children that are left, the lowest level first. -/
  stack : List (List PageId)
  /-- What is left of the leaf that was read last. -/
  leaf : LeafEntries

namespace ScanCursor

variable (lo hi : Option Key)

/-- Neither does the child end before the range nor does it begin behind it. -/
def keeps (lower upper : Option Key) : Bool :=
  !(upper.any fun u => lo.any (u ≤ ·)) && !(lower.any fun l => hi.any (· ≤ l))

def childrenInRange (lower : Option Key) (child : PageId) : InternalEntries → List PageId
  | [] => if keeps lo hi lower none then [child] else []
  | (k, next) :: es =>
    (if keeps lo hi lower (some k) then [child] else []) ++ childrenInRange (some k) next es

/-- The entries of a leaf from the first that is not before the range. -/
def fromSlot (es : LeafEntries) : LeafEntries :=
  match lo with
  | some l => es.drop (search (keysOf es) l).index
  | none => es

/-- What the cursor gives until it is done, and the leaves it reads on the way. -/
def run (read : Reader) : ℕ → ScanCursor → Except FerroError (LeafEntries × List PageId)
  | 0, _ => .error (.cow "no turns left")
  | turns + 1, ⟨stack, e :: es⟩ =>
    if hi.any (· ≤ e.1) then .ok ([], [])
    else (run read turns ⟨stack, es⟩).map fun out => (e :: out.1, out.2)
  | turns + 1, ⟨stack, []⟩ =>
    if maxDescent + 1 < stack.length then .error (.cow "btree scan exceeded the depth guard")
    else
      match stack with
      | [] => .ok ([], [])
      | [] :: levels => run read turns ⟨levels, []⟩
      | (pid :: children) :: levels =>
        match read pid with
        | .error e => .error e
        | .ok (.leaf es) =>
          (run read turns ⟨children :: levels, fromSlot lo es⟩).map fun out => (out.1, pid :: out.2)
        | .ok (.internal l es) =>
          run read turns ⟨childrenInRange lo hi none l es :: children :: levels, []⟩
        | .ok (.foreign t) => .error (notANode pid t)

def rangeScan (read : Reader) (root : PageId) (turns : ℕ) :
    Except FerroError (LeafEntries × List PageId) :=
  run lo hi read turns ⟨[[root]], []⟩

/-! ## The range -/

/-- `lo <= key < hi` -/
def within (key : Key) : Bool := lo.all (· ≤ key) && hi.all (key < ·)

def inside (es : LeafEntries) : LeafEntries := es.filter fun e => within lo hi e.1

@[simp] lemma inside_append (es es' : LeafEntries) :
    inside lo hi (es ++ es') = inside lo hi es ++ inside lo hi es' :=
  List.filter_append ..

/-- An interval of keys neither ends before the range nor begins behind it. -/
def Meets (a : WithBot Key) (b : WithTop Key) : Prop :=
  (∀ h ∈ hi, a < (h : WithBot Key)) ∧ ∀ l ∈ lo, (l : WithTop Key) < b

variable {lo hi} {a : WithBot Key} {b : WithTop Key} {read : Reader} {t T : Tree}
  {ks : List (Key × Tree)} {lower : Option Key} {cur cur' : ScanCursor} {es rest : LeafEntries}
  {children : List PageId} {levels : List (List PageId)} {c : Context}

lemma inside_eq_nil (h : ∀ e ∈ es, within lo hi e.1 = false) : inside lo hi es = [] :=
  List.filter_eq_nil_iff.mpr fun e he => by simp [h e he]

lemma meets_of_within {k : Key} (hk : InRange a b k) (h : within lo hi k = true) :
    Meets lo hi a b := by
  simp only [within, Bool.and_eq_true, Option.all_eq_true, decide_eq_true_eq] at h
  exact ⟨fun x hx => hk.1.trans_lt (WithBot.coe_lt_coe.mpr (h.2 x hx)),
    fun x hx => (WithTop.coe_le_coe.mpr (h.1 x hx)).trans_lt hk.2⟩

lemma inside_of_not_meets (ht : WF a b t) (h : ¬Meets lo hi a b) : inside lo hi t.entries = [] :=
  inside_eq_nil fun e he =>
    Bool.eq_false_iff.mpr fun hin => h (meets_of_within (ht.ordered.2 e he) hin)

/-- The lower bound of a child, or that of its node where the child is the first. -/
def Lower (hi lower : Option Key) (a : WithBot Key) : Prop :=
  lower = none ∧ (∀ h ∈ hi, a < (h : WithBot Key)) ∨ ∃ k : Key, lower = some k ∧ a = k

/-- The separators around a child tell whether it meets the range, where the bounds of the node
itself do. -/
lemma keeps_iff (hlower : Lower hi lower a)
    (hb : ∀ l ∈ lo, (l : WithTop Key) < b) (ks : List (Key × Tree)) :
    keeps lo hi lower ((keysOf (heads ks)).head?) = true ↔ Meets lo hi a (upper b ks) := by
  have hleft : (lower.any fun l => hi.any (· ≤ l)) = false ↔ ∀ h ∈ hi, a < (h : WithBot Key) := by
    rcases hlower with ⟨rfl, ha⟩ | ⟨k, rfl, rfl⟩
    · simpa using ha
    · cases hi <;> simp
  have hright : ((keysOf (heads ks)).head?.any fun u => lo.any (u ≤ ·)) = false ↔
      ∀ l ∈ lo, (l : WithTop Key) < upper b ks := by
    cases ks with
    | nil => simpa [keysOf] using hb
    | cons kt ks => cases lo <;> simp [upper, keysOf, heads]
  rw [keeps, Bool.and_eq_true, Bool.not_eq_true', Bool.not_eq_true', hleft, hright, Meets, and_comm]

/-- What the search passes over in a leaf is before the range, and the rest is not. -/
lemma fromSlot_spec (lo hi : Option Key) (h : Ascending es) :
    ∃ below, es = below ++ fromSlot lo es ∧ (∀ e ∈ below, within lo hi e.1 = false) ∧
      ∀ e ∈ fromSlot lo es, lo.all (· ≤ e.1) = true := by
  cases lo with
  | none => exact ⟨[], rfl, by simp, by simp⟩
  | some l =>
    have hes := take_append_drop (search (keysOf es) l).index es
    refine ⟨es.take (search (keysOf es) l).index, hes.symm, ?_⟩
    cases hs : search (keysOf es) l with
    | found i =>
      obtain ⟨v, hrows, hbelow, habove⟩ := split_found h hs
      have hdrop : es.drop i = (l, v) :: es.drop (i + 1) := by
        rw [append_assoc] at hrows
        exact append_cancel_left ((take_append_drop i es).trans hrows)
      refine ⟨fun e he => by simp [within, hbelow e he], fun e he => ?_⟩
      simp only [fromSlot, hs, Search.index, hdrop] at he
      rcases mem_cons.mp he with rfl | he
      · simp
      · simpa using (habove e he).le
    | vacant i =>
      obtain ⟨hbelow, habove⟩ := split_vacant h hs
      refine ⟨fun e he => by simp [within, hbelow e he], fun e he => ?_⟩
      simp only [fromSlot, hs] at he
      simpa using (habove e he).le

/-! ## What a cursor gives -/

/-- A leaf of the tree whose interval meets the range. -/
def Due (lo hi : Option Key) (T : Tree) (pid : PageId) : Prop :=
  ∃ c es, T = plug c (SepTree.leaf pid es) ∧ Meets lo hi (SepTree.lo c) (SepTree.hi c)

/-- With enough turns the cursor gives those of the entries that are in the range, and reads no leaf
that the range does not ask for. -/
def Delivers (lo hi : Option Key) (read : Reader) (T : Tree) (cur : ScanCursor)
    (es : LeafEntries) : Prop :=
  ∃ turns leaves, (∀ pid ∈ leaves, Due lo hi T pid) ∧
    ∀ n, run lo hi read (n + turns) cur = .ok (inside lo hi es, leaves)

lemma Delivers.append_left (h : Delivers lo hi read T cur rest) (hes : inside lo hi es = []) :
    Delivers lo hi read T cur (es ++ rest) := by
  rw [Delivers, inside_append, hes]
  exact h

/-- A turn that gives some entries and reads some leaves. -/
lemma Delivers.step (given : LeafEntries) (seen : List PageId)
    (h : Delivers lo hi read T cur' rest) (hseen : ∀ pid ∈ seen, Due lo hi T pid)
    (hgiven : inside lo hi given = given) (hstep : ∀ n, run lo hi read (n + 1) cur =
      (run lo hi read n cur').map fun out => (given ++ out.1, seen ++ out.2)) :
    Delivers lo hi read T cur (given ++ rest) := by
  obtain ⟨turns, leaves, hleaves, hrun⟩ := h
  refine ⟨turns + 1, seen ++ leaves, ?_, fun n => ?_⟩
  · intro pid hpid
    exact (mem_append.mp hpid).elim (hseen pid) (hleaves pid)
  · rw [← Nat.add_assoc, hstep, hrun, inside_append, hgiven]
    rfl

/-- A turn that only moves the cursor. -/
lemma Delivers.move (h : Delivers lo hi read T cur' rest)
    (hstep : ∀ n, run lo hi read (n + 1) cur = run lo hi read n cur') :
    Delivers lo hi read T cur rest := by
  refine h.step [] [] (by simp) rfl fun n => ?_
  rw [hstep]
  cases run lo hi read n cur' <;> rfl

/-- What is left of a leaf comes first, and nothing after a key behind the range. -/
lemma Delivers.leaf (h : Delivers lo hi read T ⟨levels, []⟩ rest)
    (hlo : ∀ e ∈ es, lo.all (· ≤ e.1) = true) (hes : Ascending (es ++ rest)) :
    Delivers lo hi read T ⟨levels, es⟩ (es ++ rest) := by
  induction es with
  | nil => exact h
  | cons e es ih =>
    rw [forall_mem_cons] at hlo
    obtain ⟨hlt, hes⟩ := pairwise_cons.mp hes
    by_cases hpast : hi.any (· ≤ e.1) = true
    · have hout : inside lo hi (e :: (es ++ rest)) = [] := by
        obtain ⟨x, hx, hle⟩ := (Option.any_eq_true _ _).mp hpast
        rw [decide_eq_true_eq] at hle
        refine inside_eq_nil fun e' he' => ?_
        have hge : x ≤ e'.1 := by
          rcases mem_cons.mp he' with rfl | he'
          · exact hle
          · exact hle.trans (hlt e' he').le
        simp [within, hx, hge]
      refine ⟨1, [], by simp, fun n => ?_⟩
      rw [run, if_pos hpast, cons_append, hout]
    · have hin : within lo hi e.1 = true := by
        cases hi <;> simp_all [within]
      refine (ih hlo.2 hes).step [e] [] (by simp) (by simp [inside, hin]) fun n => ?_
      rw [run, if_neg hpast]
      rfl

/-- Whatever is left to visit on its level and on those above, a tree comes before it. -/
def Visits (lo hi : Option Key) (read : Reader) (T : Tree) (levels : List (List PageId))
    (t : Tree) : Prop :=
  ∀ children rest, Delivers lo hi read T ⟨children :: levels, []⟩ rest →
    Ascending (t.entries ++ rest) →
    Delivers lo hi read T ⟨(t.id :: children) :: levels, []⟩ (t.entries ++ rest)

lemma visits_leaf {i : PageId} (hT : T = plug c (SepTree.leaf i es))
    (hm : Meets lo hi (SepTree.lo c) (SepTree.hi c)) (hread : read i = .ok (.leaf es))
    (hroom : levels.length ≤ maxDescent) : Visits lo hi read T levels (SepTree.leaf i es) := by
  intro children rest h hes
  rw [entries_leaf] at hes ⊢
  have hasc : Ascending es := (pairwise_append.mp hes).1
  obtain ⟨below, heq, hbelow, hfrom⟩ := fromSlot_spec lo hi hasc
  have hleft : es ++ rest = below ++ (fromSlot lo es ++ rest) := by
    rw [← append_assoc, ← heq]
  rw [hleft] at hes ⊢
  have hmore := h.leaf hfrom (pairwise_append.mp hes).2.1
  refine Delivers.append_left (hmore.step [] [i] ?_ rfl fun n => ?_) (inside_eq_nil hbelow)
  · rw [forall_mem_singleton]
    exact ⟨c, es, hT, hm⟩
  · have hguard : ¬maxDescent + 1 < ((i :: children) :: levels).length := by
      rw [length_cons]
      omega
    rw [id_leaf, run, if_neg hguard]
    simp only [hread]
    rfl

section

variable (h : Chain a b t ks) (hlower : Lower hi lower a) (hb : ∀ l ∈ lo, (l : WithTop Key) < b)
  (ht : Meets lo hi a (upper b ks) → Visits lo hi read T levels t)
include h hlower hb ht

/-- A child that is passed over has nothing in the range. -/
lemma visits_child (hrest : Delivers lo hi read T ⟨children :: levels, []⟩ rest)
    (hes : Ascending (t.entries ++ rest)) :
    Delivers lo hi read T ⟨((if keeps lo hi lower (keysOf (heads ks)).head? then [t.id] else []) ++
      children) :: levels, []⟩ (t.entries ++ rest) := by
  have hkeeps := keeps_iff hlower hb ks
  split_ifs with hk
  · exact ht (hkeeps.mp hk) children rest hrest hes
  · exact hrest.append_left (inside_of_not_meets h.1 (mt hkeeps.mpr hk))

/-- The children of a node that are kept are visited one after the other. -/
lemma visits_chain
    (hks : ∀ (pre : List (Key × Tree)) (k : Key) (u : Tree) (post : List (Key × Tree)),
      ks = pre ++ (k, u) :: post → Meets lo hi k (upper b post) → Visits lo hi read T levels u)
    (hrest : Delivers lo hi read T ⟨children :: levels, []⟩ rest)
    (hes : Ascending (t.entries ++ ((leavesOf ks).flatten ++ rest))) :
    Delivers lo hi read T ⟨(childrenInRange lo hi lower t.id (heads ks) ++ children) :: levels, []⟩
      (t.entries ++ ((leavesOf ks).flatten ++ rest)) := by
  induction ks generalizing a t lower with
  | nil => exact visits_child h hlower hb ht hrest hes
  | cons kt ks ih =>
    obtain ⟨k, u⟩ := kt
    obtain ⟨-, -, -, hchain⟩ := chain_cons.mp h
    rw [leavesOf_cons, flatten_append, append_assoc] at hes ⊢
    have hmore := ih hchain (.inr ⟨k, rfl, rfl⟩) (fun hm => hks [] k u ks rfl hm)
      (fun pre k' u' post hpost => hks ((k, u) :: pre) k' u' post (by rw [hpost]; rfl))
      (pairwise_append.mp hes).2.1
    rw [heads_cons, childrenInRange, append_assoc]
    exact visits_child h hlower hb ht hmore hes

end

lemma visits_tree (hT : WF ⊥ ⊤ T) (ht : T = plug c t)
    (hread : Holds read t) (hm : Meets lo hi (SepTree.lo c) (SepTree.hi c))
    (hroom : levels.length + t.height ≤ maxDescent) : Visits lo hi read T levels t := by
  induction t using induct generalizing c levels with
  | leaf i es => exact visits_leaf ht hm (holds_leaf.mp hread) (by simpa using hroom)
  | node i l ks ihl ihk =>
    intro children rest h hes
    obtain ⟨hpage, hl, hkids⟩ := holds_node.mp hread
    have hchain : Chain (SepTree.lo c) (SepTree.hi c) l ks := wf_node.mp (wf_plug.mp (ht ▸ hT)).2
    rw [height_node] at hroom
    have hpop : Delivers lo hi read T ⟨[] :: children :: levels, []⟩ rest := by
      refine h.move fun n => ?_
      rw [run, if_neg (by simp only [length_cons]; omega)]
    rw [entries, leaves_node, flatten_append, append_assoc] at hes ⊢
    have hall := visits_chain hchain (.inl ⟨rfl, hm.1⟩) hm.2 ?_ ?_ hpop hes
    · refine hall.move fun n => ?_
      rw [run, if_neg (by simp only [length_cons]; omega)]
      simp [hpage]
    · intro hmeets
      exact ihl (c := .left i ks :: c) ht hl hmeets (by rw [length_cons]; omega)
    · rintro pre k u post rfl hmeets
      have hmem : (k, u) ∈ pre ++ (k, u) :: post := by simp
      have hheight := height_le_heightOf hmem
      exact ihk (k, u) hmem (c := .mid i l pre k post :: c) ht (hkids (k, u) hmem) hmeets
        (by rw [length_cons]; omega)

/-! ## Whole scans -/

/-- A scan gives the entries of the range in order, and reads only leaves that neither end before
the range nor begin behind it. -/
theorem rangeScan_exact (lo hi : Option Key) (hT : WF ⊥ ⊤ T) (hread : Holds read T)
    (hheight : T.height ≤ maxDescent) :
    ∃ turns out leaves, (∀ n, rangeScan lo hi read T.id (n + turns) = .ok (out, leaves)) ∧
      out = inside lo hi T.entries ∧ Ascending out ∧
      ∀ pid ∈ leaves, Due lo hi T pid := by
  have hasc : Ascending (T.entries ++ []) := by
    rw [List.append_nil]
    exact hT.ordered.1
  have hdone : Delivers lo hi read T ⟨[[]], []⟩ [] :=
    ⟨2, [], by simp, fun n => rfl⟩
  have hroom : ([] : List (List PageId)).length + T.height ≤ maxDescent := by
    rwa [List.length_nil, Nat.zero_add]
  have hmeets : Meets lo hi (SepTree.lo ([] : Context)) (SepTree.hi ([] : Context)) := by
    simp [Meets, SepTree.lo, SepTree.hi]
  obtain ⟨turns, leaves, hdue, hrun⟩ :=
    visits_tree (c := []) hT rfl hread hmeets hroom [] [] hdone hasc
  rw [List.append_nil] at hrun hasc
  exact ⟨turns, _, leaves, hrun, rfl, hasc.filter _, hdue⟩

/-- Two leaves under one separator. -/
def twoLeaves : Tree := node 1 (SepTree.leaf 2 [([1], [])]) [([5], SepTree.leaf 3 [([5], [])])]

def readTwoLeaves : Reader
  | 1 => .ok (.internal 2 [([5], 3)])
  | 2 => .ok (.leaf [([1], [])])
  | _ => .ok (.leaf [([5], [])])

theorem rangeScan_exact_twoLeaves : ∃ turns out leaves,
    (∀ n, rangeScan (some [5]) none readTwoLeaves 1 (n + turns) = .ok (out, leaves)) ∧
      out = inside (some [5]) none twoLeaves.entries ∧ Ascending out ∧
      ∀ pid ∈ leaves, Due (some [5]) none twoLeaves pid :=
  rangeScan_exact (some [5]) none (T := twoLeaves)
    (by simp [twoLeaves, wf_node, SepTree.chain_cons, Ascending, InRange]; decide)
    (by simp [twoLeaves, holds_node, heads, readTwoLeaves]) (by simp [twoLeaves, maxDescent])

/-- A leaf is read though no key at all is in the range. -/
theorem empty_range_reads_leaf : WF ⊥ ⊤ (SepTree.leaf 0 [] : Tree) ∧
    Holds (fun _ => .ok (.leaf [])) (SepTree.leaf 0 []) ∧
      (∀ key, within (some [1]) (some [1]) key = false) ∧
      rangeScan (some [1]) (some [1]) (fun _ => .ok (.leaf [])) 0 4 = .ok ([], [0]) :=
  ⟨by simp [Ascending], by simp, fun key => by simp [within], rfl⟩

end ScanCursor

end FerroDb.Cow
