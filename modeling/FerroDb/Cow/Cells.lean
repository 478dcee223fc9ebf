import FerroDb.Cow.Owned

/-!
# Trees on pages

The pages of a tree whose labels are page ids, and what reading them comes to: a descent finds a
leaf together with the context it stands in, and a leaf is cut into leaves side by side.
-/

namespace FerroDb.Cow

open Library SepTree M CowTree Multiset

abbrev Tree := SepTree PageId Key Value
abbrev Context := List (Frame PageId Key Value)

/-- The separators and pages of children. -/
def heads (ks : List (Key × Tree)) : InternalEntries := ks.map fun kt => (kt.1, kt.2.id)

@[simp] lemma heads_nil : heads [] = [] := rfl
@[simp] lemma heads_cons (k : Key) (t : Tree) (ks : List (Key × Tree)) :
    heads ((k, t) :: ks) = (k, t.id) :: heads ks := rfl
@[simp] lemma heads_append (ks ks' : List (Key × Tree)) :
    heads (ks ++ ks') = heads ks ++ heads ks' := List.map_append
@[simp] lemma length_heads (ks : List (Key × Tree)) : (heads ks).length = ks.length :=
  List.length_map _
lemma heads_slice (ks : List (Key × Tree)) (s e : ℕ) :
    heads (slice ks s e) = slice (heads ks) s e := by
  simp [heads, slice]
@[simp] lemma keysOf_heads (ks : List (Key × Tree)) : keysOf (heads ks) = ks.map (·.1) := by
  simp [keysOf, heads]

mutual

/-- The pages of a tree. -/
def cells : Tree → Multiset (PageId × Page)
  | .leaf i es => {(i, .leaf es)}
  | .node i l ks => {(i, .internal l.id (heads ks))} + (cells l + cellsOf ks)

def cellsOf : List (Key × Tree) → Multiset (PageId × Page)
  | [] => 0
  | (_, t) :: ks => cells t + cellsOf ks

end

@[simp] lemma cells_leaf (i : PageId) (es : LeafEntries) :
    cells (.leaf i es) = {(i, .leaf es)} := by simp [cells]
lemma cells_node (i : PageId) (l : Tree) (ks : List (Key × Tree)) :
    cells (.node i l ks) = {(i, .internal l.id (heads ks))} + (cells l + cellsOf ks) := by
  simp [cells]
@[simp] lemma cellsOf_nil : cellsOf [] = 0 := by simp [cellsOf]
@[simp] lemma cellsOf_cons (k : Key) (t : Tree) (ks : List (Key × Tree)) :
    cellsOf ((k, t) :: ks) = cells t + cellsOf ks := by simp [cellsOf]
@[simp] lemma cellsOf_append (ks ks' : List (Key × Tree)) :
    cellsOf (ks ++ ks') = cellsOf ks + cellsOf ks' := by
  induction ks with
  | nil => simp
  | cons kt ks ih =>
    obtain ⟨k, t⟩ := kt
    simp [ih, add_assoc]

/-! ## Contexts -/

/-- The page of a node with a hole, when the hole holds the given page. -/
def framePage : Frame PageId Key Value → PageId → Page
  | .left _ kids, h => .internal h (heads kids)
  | .mid _ l pre k post, h => .internal l.id (heads pre ++ (k, h) :: heads post)

def frameSlot : Frame PageId Key Value → Option ℕ
  | .left _ _ => none
  | .mid _ _ pre _ _ => some pre.length

def frameKeys : Frame PageId Key Value → List Key
  | .left _ kids => kids.map (·.1)
  | .mid _ _ pre k post => pre.map (·.1) ++ k :: post.map (·.1)

/-- The pages below a node but for those in the hole. -/
def siblings : Frame PageId Key Value → Multiset (PageId × Page)
  | .left _ kids => cellsOf kids
  | .mid _ l pre _ post => cells l + cellsOf pre + cellsOf post

/-- The pages of a context around the given page. -/
def contextCells : Context → PageId → Multiset (PageId × Page)
  | [], _ => 0
  | f :: c, h => {(f.id, framePage f h)} + siblings f + contextCells c f.id

/-- The root of a tree from the page in the hole. -/
def rootId : Context → PageId → PageId
  | [], h => h
  | f :: c, _ => rootId c f.id

/-- The path to a hole, the nearest node first. -/
def steps (c : Context) : List (PageId × Option ℕ) := c.map fun f => (f.id, frameSlot f)

/-- The key is led along the context. -/
def Routed (key : Key) (c : Context) : Prop :=
  ∀ f ∈ c, childSlotFor (frameKeys f) key = frameSlot f

lemma cells_close (f : Frame PageId Key Value) (t : Tree) :
    cells (f.close t) = {(f.id, framePage f t.id)} + siblings f + cells t := by
  cases f with
  | left i kids =>
    simp only [Frame.close, Frame.first, Frame.rest, cells_node, framePage, List.nil_append]
    abel
  | mid i l pre k post =>
    simp only [Frame.close, Frame.first, Frame.rest, cells_node, framePage, siblings,
      List.nil_append, heads_append, heads_cons, cellsOf_append, cellsOf_cons]
    abel

lemma cells_plug (c : Context) (t : Tree) : cells (plug c t) = cells t + contextCells c t.id := by
  induction c generalizing t with
  | nil => simp [plug, contextCells]
  | cons f c ih =>
    rw [plug, ih, cells_close, contextCells]
    abel

lemma id_plug (c : Context) (t : Tree) : (plug c t).id = rootId c t.id := by
  induction c generalizing t with
  | nil => rfl
  | cons f c ih => rw [plug, ih, rootId, Frame.close, id_node]

lemma mem_cells (t : Tree) : ∃ p, (t.id, p) ∈ cells t := by
  cases t with
  | leaf i es => exact ⟨.leaf es, by simp⟩
  | node i l ks => exact ⟨.internal l.id (heads ks), by simp [cells_node]⟩

/-- A node is its child at a slot in the frame of that slot. -/
lemma exists_frame (i : PageId) (l : Tree) {ks : List (Key × Tree)} {slot : Option ℕ}
    (h : ∀ n, slot = some n → n < ks.length) :
    ∃ f t, f.id = i ∧ node i l ks = f.close t ∧ frameSlot f = slot ∧
      frameKeys f = ks.map (·.1) ∧ childAt l.id (heads ks) slot = t.id := by
  cases slot with
  | none => exact ⟨.left i ks, l, rfl, rfl, rfl, rfl, rfl⟩
  | some n =>
    have hn := h n rfl
    have hsplit : ks = ks.take n ++ (ks[n].1, ks[n].2) :: ks.drop (n + 1) := by
      rw [← List.drop_eq_getElem_cons hn, List.take_append_drop]
    refine ⟨.mid i l (ks.take n) ks[n].1 (ks.drop (n + 1)), ks[n].2, rfl, ?_, ?_, ?_, ?_⟩
    · exact congrArg (node i l) hsplit
    · simp [frameSlot, hn.le]
    · conv_rhs => rw [hsplit]
      rw [List.map_append]
      rfl
    · simp [childAt, heads, hn]

variable {fuel : ℕ} {t : Tree} {c : Context}

section

variable {s₀ s s' : State} {R : Set PageId} {C : Multiset (PageId × Page)} {key : Key}

/-! ## Reading -/

lemma descendLoop_spec (h : Holding s₀ R C s)
    (ht : cells t ≤ C) (hc : Routed key c) : wp (descendLoop key fuel t.id)
      (fun r s' => Reads s s' ∧ ∃ c' es, plug c t = plug (c' ++ c) (leaf r.2 es) ∧
        r.1.reverse = steps c' ∧ Routed key (c' ++ c)) (Journaled s₀ R) s := by
  induction fuel generalizing t c s with
  | zero => exact wp_throw.mpr h.journaled
  | succ fuel ih =>
    cases t with
    | leaf i es =>
      have hmem : (i, Page.leaf es) ∈ C := mem_of_le ht (by simp)
      refine (readPage_spec h hmem).bind ?_
      rintro _ s₁ ⟨rfl, hs⟩
      exact wp_pure.mpr ⟨hs, [], es, rfl, rfl, hc⟩
    | node i l ks =>
      have hmem : (i, Page.internal l.id (heads ks)) ∈ C :=
        mem_of_le ht (by simp [cells_node])
      refine (readPage_spec h hmem).bind ?_
      rintro _ s₁ ⟨rfl, hs⟩
      dsimp only
      have hbound : ∀ n, childSlotFor (keysOf (heads ks)) key = some n → n < ks.length :=
        fun n hn => by simpa using childSlotFor_lt hn
      obtain ⟨f, t', hid, hclose, hslot, hkeys, hchild⟩ := exists_frame i l hbound
      rw [hchild]
      have hc' : Routed key (f :: c) := by
        rintro g (_ | ⟨_, hg⟩)
        · rw [hkeys, hslot, keysOf_heads]
        · exact hc g hg
      have ht' : cells t' ≤ C := by
        refine le_trans ?_ ht
        rw [hclose, cells_close]
        exact le_add_left _ _
      refine (ih (h.reads hs) ht' hc').bind ?_
      rintro ⟨path, leafId⟩ s₂ ⟨hs', c', es, hplug, hpath, hrouted⟩
      refine wp_pure.mpr ⟨hs.trans hs', c' ++ [f], es, ?_, ?_, ?_⟩
      · rw [hclose]
        simpa [plug] using hplug
      · rw [List.reverse_cons, hpath, steps, steps, List.map_append, ← hslot, ← hid]
        rfl
      · simpa using hrouted

lemma descend_spec (h : Holding s₀ R C s) (ht : cells t ≤ C) : wp (descend t.id key)
      (fun r s' => Reads s s' ∧ ∃ c es, t = plug c (leaf r.2 es) ∧ r.1.reverse = steps c ∧
        Routed key c) (Journaled s₀ R) s := by
  refine (descendLoop_spec h ht (c := []) (by simp [Routed])).mono ?_
  rintro r s' ⟨hs, c, es, hplug, hpath, hrouted⟩
  rw [List.append_nil] at hplug hrouted
  exact ⟨hs, c, es, hplug, hpath, hrouted⟩

lemma leftmostLeafLoop_spec (h : Holding s₀ R C s) (ht : cells t ≤ C) :
    wp (leftmostLeafLoop fuel t.id)
      (fun r s' => Reads s s' ∧ ∃ es rest, t.leaves = es :: rest ∧ (r, Page.leaf es) ∈ C)
      (Journaled s₀ R) s := by
  induction fuel generalizing t s with
  | zero => exact wp_throw.mpr h.journaled
  | succ fuel ih =>
    cases t with
    | leaf i es =>
      have hmem : (i, Page.leaf es) ∈ C := mem_of_le ht (by simp)
      refine (readPage_spec h hmem).bind ?_
      rintro _ s₁ ⟨rfl, hs⟩
      exact wp_pure.mpr ⟨hs, es, [], by simp, hmem⟩
    | node i l ks =>
      have hmem : (i, Page.internal l.id (heads ks)) ∈ C :=
        mem_of_le ht (by simp [cells_node])
      have hl : cells l ≤ C := by
        refine le_trans ?_ ht
        exact (le_add_right _ _).trans (le_add_left _ _)
      refine (readPage_spec h hmem).bind ?_
      rintro _ s₁ ⟨rfl, hs⟩
      refine (ih (h.reads hs) hl).mono ?_
      rintro r s₂ ⟨hs', es, rest, hleaves, hr⟩
      exact ⟨hs.trans hs', es, rest ++ leavesOf ks, by simp [hleaves], hr⟩

/-- The children on the right of the hole of a frame. -/
def rightOf : Frame PageId Key Value → List (Key × Tree)
  | .left _ kids => kids
  | .mid _ _ _ _ post => post

lemma after_eq (f : Frame PageId Key Value) : f.after = leavesOf (rightOf f) := by
  cases f <;> rfl

lemma next_child (f : Frame PageId Key Value) (h : PageId) :
    (framePage f h).allChildren[childIndex (frameSlot f) + 1]? =
      (rightOf f).head?.map (·.2.id) := by
  cases f with
  | left i kids => cases kids <;> simp [framePage, frameSlot, rightOf, Page.allChildren,
    Page.internalEntries, heads, childIndex]
  | mid i l pre k post => cases post <;> simp [framePage, frameSlot, rightOf, Page.allChildren,
    Page.internalEntries, heads, childIndex]

lemma rightNeighbourLoop_spec {hole : PageId} (h : Holding s₀ R C s)
    (hc : contextCells c hole ≤ C) : wp (rightNeighbourLoop (steps c))
      (fun r s' => Reads s s' ∧
        match r with
        | none => after c = []
        | some r => ∃ es rest, after c = es :: rest ∧ (r, Page.leaf es) ∈ C)
      (Journaled s₀ R) s := by
  induction c generalizing hole s with
  | nil => exact wp_pure.mpr ⟨.refl s, rfl⟩
  | cons f c ih =>
    rw [contextCells] at hc
    have hmem : (f.id, framePage f hole) ∈ C := mem_of_le hc (by simp)
    have hrest : contextCells c f.id ≤ C := (le_add_left _ _).trans hc
    have hright : cellsOf (rightOf f) ≤ C := by
      refine le_trans (le_trans ?_ (le_add_left _ _))
        ((le_add_right _ _).trans hc)
      cases f with
      | left i kids => exact le_rfl
      | mid i l pre k post => exact le_add_left _ _
    refine (readPage_spec h hmem).bind ?_
    rintro _ s₁ ⟨rfl, hs⟩
    dsimp only
    rw [next_child]
    cases hf : rightOf f with
    | nil =>
      refine (ih (h.reads hs) hrest).mono fun r s₂ hr => ⟨hs.trans hr.1, ?_⟩
      rw [after, after_eq, hf]
      simpa using hr.2
    | cons kt kids =>
      obtain ⟨k, t⟩ := kt
      rw [hf] at hright
      refine (leftmostLeafLoop_spec (h.reads hs)
        ((le_add_right _ _).trans hright)).bind ?_
      rintro r s₂ ⟨hs', es, rest, hleaves, hr⟩
      refine wp_pure.mpr ⟨hs.trans hs', es, rest ++ leavesOf kids ++ after c, ?_, hr⟩
      rw [after, after_eq, hf]
      simp [hleaves]

end

end FerroDb.Cow
