import FerroDb.Cow.Cells

/-!
# The operations rebuild trees

What each writing function does to the pages it holds, as a step from tree to tree: leaves are cut
into pieces, nodes are rebuilt around them by `Relinks` and taken out by `Unlinks`. Nothing is
assumed of the order of the keys.
-/

namespace FerroDb.Cow

open Library SepTree M CowTree List Bool

variable {s₀ s s' : State} {R : Set PageId} {C : Multiset (PageId × Page)} {key : Key}
  {value : Value} {i : PageId} {p : Page}
variable {es : LeafEntries} {t T l : Tree} {ks more : List (Key × Tree)} {hole root : PageId}
  {c : Context} {path : DescentPath} {cuts : List ℕ} {doomed : PageId} {old : PageId} {n : ℕ}
  {α : Type}

/-! ## Filling pages -/

lemma fillLeaf_spec (h : Holding s₀ R ({(i, p)} + C) s) (hw : Writable R s i) :
    wp (fillLeaf i es) (fun _ s' => Holding s₀ R ({(i, .leaf es)} + C) s' ∧ Writes s s')
      (Journaled s₀ R) s := by
  refine (write_spec h hw).bind ?_
  rintro _ s₁ ⟨h₁, hs⟩
  split
  · exact wp_throw.mpr h₁.journaled
  · next hlen =>
    rw [take_of_length_le (not_lt.mp hlen)] at h₁
    exact wp_pure.mpr ⟨h₁, hs⟩

lemma fillInternal_spec {l : PageId} {es : InternalEntries}
    (h : Holding s₀ R ({(i, p)} + C) s) (hw : Writable R s i) : wp (fillInternal i l es)
      (fun _ s' => Holding s₀ R ({(i, .internal l es)} + C) s' ∧ Writes s s')
      (Journaled s₀ R) s := by
  refine (write_spec h hw).bind ?_
  rintro _ s₁ ⟨h₁, hs⟩
  split
  · exact wp_throw.mpr h₁.journaled
  · next hlen =>
    rw [take_of_length_le (not_lt.mp hlen)] at h₁
    exact wp_pure.mpr ⟨h₁, hs⟩

lemma create_spec (h : Holding s₀ R C s) :
    wp create (fun i s' => Holding s₀ R ({(i, .leaf [])} + C) s' ∧ Writes s s')
      (Journaled s₀ R) s := by
  refine (arenaFor_spec h.journaled).bind fun _ s₁ hs => ?_
  refine (allocInArena_spec (h.reads hs)).bind ?_
  rintro i s₂ ⟨h₂, hs', hi⟩
  refine (readPage_spec (p := .leaf []) h₂ (by simp)).bind ?_
  rintro _ s₃ ⟨-, hs''⟩
  refine (write_spec (h₂.reads hs'') (.inl hi)).bind ?_
  rintro _ s₄ ⟨h₄, hs₄⟩
  exact wp_pure.mpr ⟨h₄, hs.writes.trans (hs'.trans (hs''.writes.trans hs₄))⟩

/-! ## Leaves -/

/-- The leaves that entries are cut into. -/
def pieces (es : LeafEntries) (cuts : List ℕ) : List LeafEntries :=
  (spans cuts es.length).map fun run => slice es run.1 run.2

lemma pieces_cons (es : LeafEntries) (c : ℕ) (cs : List ℕ) :
    pieces es (c :: cs) = slice es c (cs.headD es.length) :: pieces es cs := by
  rw [pieces, spans_cons, map_cons, pieces]

/-- The separator in front of the entries from a position on. -/
def separatorAt (es : LeafEntries) (n : ℕ) : Key := successorOf ((keysOf es).getD (n - 1) [])

lemma pieces_cut (hpos : 0 < n) (hlt : n < es.length)
    (h : Pieces successorOf (es.drop n) t more) :
    Pieces successorOf es (leaf i (es.take n)) ((separatorAt es n, t) :: more) := by
  have hn : n - 1 < es.length := by omega
  have hn1 : n - 1 + 1 = n := by omega
  have htake : es.take n = es.take (n - 1) ++ [es[n - 1]] := by
    rw [take_append_getElem hn, hn1]
  have hes : es = es.take (n - 1) ++ es[n - 1] :: es.drop n := by
    conv_lhs => rw [← take_append_drop n es, htake]
    rw [append_assoc, singleton_append]
  have hsep : separatorAt es n = successorOf es[n - 1].1 := by
    simp [separatorAt, keysOf, hn]
  have hne : es.drop n ≠ [] := by
    rw [ne_eq, drop_eq_nil_iff]
    omega
  rw [htake, hsep]
  conv => arg 2; rw [hes]
  exact .cut i _ _ _ _ _ hne h

/-- The trees that entries are cut into from the first cut on. -/
def CutInto (es : LeafEntries) : List ℕ → List (Key × Tree) → Prop
  | [], more => more = []
  | c :: _, more =>
    ∃ t more', more = (separatorAt es c, t) :: more' ∧ Pieces successorOf (es.drop c) t more'

lemma writeRightLeaves_spec
    (hcuts : Within 0 es.length cuts) (h : Holding s₀ R C s) : wp (writeRightLeaves es cuts)
      (fun promoted s' => ∃ more, promoted = heads more ∧ CutInto es cuts more ∧
        leavesOf more = pieces es cuts ∧ Holding s₀ R (cellsOf more + C) s' ∧ Writes s s')
      (Journaled s₀ R) s := by
  induction cuts generalizing C s with
  | nil => exact wp_pure.mpr ⟨[], rfl, rfl, by simp [pieces, spans], by simpa using h, .refl s⟩
  | cons c cuts ih =>
    obtain ⟨hsorted, hrange⟩ := hcuts
    rw [pairwise_cons] at hsorted
    have hrest : Within 0 es.length cuts :=
      ⟨hsorted.2, fun c' hc' => hrange c' (.tail _ hc')⟩
    refine (allocFor_spec h).bind ?_
    rintro j s₁ ⟨h₁, hs₁, hj⟩
    refine (readPage_spec (p := .leaf []) h₁ (by simp)).bind ?_
    rintro _ s₂ ⟨-, hs₂⟩
    refine (fillLeaf_spec (h₁.reads hs₂) (.inl hj)).bind ?_
    rintro _ s₃ ⟨h₃, hs₃⟩
    refine (ih hrest h₃).bind ?_
    rintro _ s₄ ⟨more, rfl, hcut, hleaves, h₄, hs₄⟩
    refine wp_pure.mpr ⟨(separatorAt es c, leaf j (slice es c (cuts.headD es.length))) :: more,
      rfl, ⟨_, more, rfl, ?_⟩, ?_, ?_, hs₁.trans (hs₂.writes.trans (hs₃.trans hs₄))⟩
    · cases cuts with
      | nil =>
        obtain rfl : more = [] := hcut
        rw [headD_nil, slice, take_length]
        exact .last j _
      | cons c' cuts =>
        obtain ⟨t, more', rfl, hpieces⟩ := hcut
        have hcc' : c < c' := hsorted.1 c' mem_cons_self
        have hc'n := (hrange c' (by simp)).2
        have hdrop : es.drop c' = (es.drop c).drop (c' - c) := by
          rw [drop_drop, Nat.add_sub_cancel' hcc'.le]
        have hsep : separatorAt es c' = separatorAt (es.drop c) (c' - c) := by
          have hidx : c + (c' - c - 1) = c' - 1 := by omega
          simp [separatorAt, keysOf, hidx]
        rw [headD_cons, slice_eq, hsep]
        rw [hdrop] at hpieces
        exact pieces_cut (by omega) (by rw [length_drop]; omega) hpieces
    · rw [leavesOf_cons, hleaves, pieces_cons]
      simp
    · rwa [← add_assoc, add_comm (cellsOf more)] at h₄

/-- Entries written to a leaf and to new leaves on its right. -/
lemma writeLeafChunked_spec (h : Holding s₀ R ({(i, p)} + C) s) (hw : Writable R s i) :
    wp (writeLeafChunked i es)
      (fun r s' => ∃ t more, t.id = i ∧ r = (heads more, unterminated es) ∧
        Pieces successorOf es t more ∧
        t.leaves ++ leavesOf more = pieces es (0 :: leafCutsOf es) ∧
        Holding s₀ R (cells t + cellsOf more + C) s' ∧ Writes s s') (Journaled s₀ R) s := by
  have hwithin : Within 0 es.length (leafCutsOf es) := by
    simpa [leafCutsOf] using leafCuts_within (es.map cuttable) nodeCapacity
  rw [writeLeafChunked]
  cases hcuts : leafCutsOf es with
  | nil =>
    refine (fillLeaf_spec h hw).bind ?_
    rintro _ s₁ ⟨h₁, hs⟩
    refine wp_pure.mpr ⟨leaf i es, [], rfl, rfl, .last i es, ?_, by simpa using h₁, hs⟩
    simp [pieces, spans, slice]
  | cons c cuts =>
    rw [hcuts] at hwithin
    obtain ⟨hpos, hlt⟩ := hwithin.2 c mem_cons_self
    rw [add_comm] at h
    refine (writeRightLeaves_spec hwithin h).bind ?_
    rintro _ s₁ ⟨more, rfl, hcut, hleaves, h₁, hs₁⟩
    rw [add_comm C, ← add_assoc, add_comm (cellsOf more), add_assoc] at h₁
    refine (fillLeaf_spec h₁ (hw.writes hs₁)).bind ?_
    rintro _ s₂ ⟨h₂, hs₂⟩
    obtain ⟨t, more', rfl, hpieces⟩ := hcut
    refine wp_pure.mpr ⟨leaf i (es.take c), _, rfl, rfl, pieces_cut hpos hlt hpieces, ?_, ?_,
      hs₁.trans hs₂⟩
    · rw [hleaves, pieces_cons es 0]
      simp [slice]
    · rwa [add_assoc]

lemma leafPut_spec (h : Holding s₀ R ({(i, .leaf es)} + C) s) (hw : Writable R s i) :
    wp (leafPut i key value)
      (fun r s' => ∃ t more, t.id = i ∧ r = (heads more, unterminated (putEntry es key value)) ∧
        Pieces successorOf (putEntry es key value) t more ∧
        (t.leaves ++ leavesOf more =
            pieces (putEntry es key value) (0 :: leafCutsOf (putEntry es key value)) ∨
          interiorBoundary (putEntry es key value) (search (keysOf es) key).index key value = false ∧
            t.leaves ++ leavesOf more = [putEntry es key value]) ∧
        Holding s₀ R (cells t + cellsOf more + C) s' ∧ Writes s s') (Journaled s₀ R) s := by
  refine (view_spec (p := .leaf es) h.owned (by simp)).bind ?_
  rintro _ s₁ ⟨rfl, rfl⟩
  dsimp only [Page.leafEntries]
  split
  · refine (write_spec h hw).bind ?_
    rintro _ s₂ ⟨h₂, hs₂⟩
    split
    · refine (writeLeafChunked_spec h₂ (hw.writes hs₂)).mono ?_
      rintro r s₃ ⟨t, more, hid, hr, hpieces, hleaves, h₃, hs₃⟩
      exact ⟨t, more, hid, hr, hpieces, .inl hleaves, h₃, hs₂.trans hs₃⟩
    · next hb =>
      exact wp_pure.mpr ⟨leaf i (putEntry es key value), [], rfl, rfl, .last i _,
        .inr ⟨by simpa using hb, by simp⟩, by simpa using h₂, hs₂⟩
  · refine (write_spec h hw).bind ?_
    rintro _ s₂ ⟨h₂, hs₂⟩
    refine (writeLeafChunked_spec h₂ (hw.writes hs₂)).mono ?_
    rintro r s₃ ⟨t, more, hid, hr, hpieces, hleaves, h₃, hs₃⟩
    exact ⟨t, more, hid, hr, hpieces, .inl hleaves, h₃, hs₂.trans hs₃⟩

/-! ## Nodes -/

/-- The page of the root of a tree. -/
def topOf : Tree → Multiset (PageId × Page)
  | .leaf i es => {(i, .leaf es)}
  | .node i l ks => {(i, .internal l.id (heads ks))}

def topsOf : List (Key × Tree) → Multiset (PageId × Page)
  | [] => 0
  | (_, t) :: ks => topOf t + topsOf ks

lemma cells_groups (h : Groups l ks t more) :
    cells t + cellsOf more = topOf t + topsOf more + (cells l + cellsOf ks) := by
  induction h with
  | last i l ks => simp [cells_node, topOf, topsOf]
  | cut i l c t k pre post more _ ih =>
    rw [cellsOf_cons, ih, cells_node, cellsOf_append, cellsOf_cons, topsOf, topOf]
    abel

lemma insertIdx_append (pre post : List α) (a : α) :
    (pre ++ post).insertIdx pre.length a = pre ++ a :: post := by
  induction pre with
  | nil => rfl
  | cons b pre ih => simp [ih]

lemma modify_append (pre post : List α) (a : α) (f : α → α) :
    (pre ++ a :: post).modify pre.length f = pre ++ f a :: post := by
  induction pre with
  | nil => rfl
  | cons b pre ih => simp [ih]

lemma place_eq {pre post es : InternalEntries} {ps rest : Split}
    (h : place (pre ++ post) pre.length ps = (es, rest)) :
    ∃ placed, ps = placed ++ rest ∧ es = pre ++ placed ++ post := by
  induction ps generalizing pre with
  | nil =>
    cases h
    exact ⟨[], rfl, by simp⟩
  | cons p ps ih =>
    rw [place] at h
    split at h
    · have hmoved : pre ++ p :: post = (pre ++ [p]) ++ post := by simp
      have hlen : pre.length + 1 = (pre ++ [p]).length := by simp
      rw [insertIdx_append, hmoved, hlen] at h
      obtain ⟨placed, rfl, rfl⟩ := ih h
      exact ⟨p :: placed, rfl, by simp⟩
    · cases h
      exact ⟨[], rfl, by simp⟩

lemma placeRest_eq (pre post : InternalEntries) (ps : Split) :
    placeRest (pre ++ post) pre.length ps = pre ++ ps ++ post := by
  induction ps generalizing pre with
  | nil => simp [placeRest]
  | cons p ps ih =>
    have hmoved : pre ++ p :: post = (pre ++ [p]) ++ post := by simp
    have hrest := ih (pre ++ [p])
    rw [length_append, length_singleton] at hrest
    rw [placeRest, insertIdx_append, hmoved, hrest]
    simp

/-- The trees that children are grouped into from the first cut on. -/
def GroupInto (ks : List (Key × Tree)) : List ℕ → List (Key × Tree) → Prop
  | [], more => more = []
  | c :: _, more =>
    ∃ k child t more', ks[c]? = some (k, child) ∧ more = (k, t) :: more' ∧
      Groups child (ks.drop (c + 1)) t more'

lemma groups_cut {child : Tree} {k : Key}
    (hn : ks[n]? = some (k, child)) (h : Groups child (ks.drop (n + 1)) t more) :
    Groups l ks (node i l (ks.take n)) ((k, t) :: more) := by
  obtain ⟨hlt, hget⟩ := List.getElem?_eq_some_iff.mp hn
  have hks : ks = ks.take n ++ (k, child) :: ks.drop (n + 1) := by
    rw [← hget, ← drop_eq_getElem_cons hlt, take_append_drop]
  conv => arg 2; rw [hks]
  exact .cut i l child t k _ _ more h

lemma writeRightNodes_spec
    (hcuts : Within 0 ks.length cuts) (h : Holding s₀ R C s) : wp (writeRightNodes (heads ks) cuts)
      (fun out s' => ∃ more, out = heads more ∧ GroupInto ks cuts more ∧
        Holding s₀ R (topsOf more + C) s' ∧ Writes s s') (Journaled s₀ R) s := by
  induction cuts generalizing C s with
  | nil => exact wp_pure.mpr ⟨[], rfl, rfl, by simpa [topsOf] using h, .refl s⟩
  | cons c cuts ih =>
    obtain ⟨hsorted, hrange⟩ := hcuts
    rw [pairwise_cons] at hsorted
    have hrest : Within 0 ks.length cuts :=
      ⟨hsorted.2, fun c' hc' => hrange c' (.tail _ hc')⟩
    have hc : c < ks.length := (hrange c mem_cons_self).2
    obtain ⟨⟨k, child⟩, hkc⟩ : ∃ kt, ks[c]? = some kt := ⟨_, getElem?_eq_getElem hc⟩
    have hhead : (heads ks)[c]? = some (k, child.id) := by simp [heads, hkc]
    refine (allocFor_spec h).bind ?_
    rintro j s₁ ⟨h₁, hs₁, hj⟩
    refine (readPage_spec (p := .internal 0 []) h₁ (by simp)).bind ?_
    rintro _ s₂ ⟨-, hs₂⟩
    rw [hhead]
    refine (fillInternal_spec (h₁.reads hs₂) (.inl hj)).bind ?_
    rintro _ s₃ ⟨h₃, hs₃⟩
    refine (ih hrest h₃).bind ?_
    rintro _ s₄ ⟨more, rfl, hgroup, h₄, hs₄⟩
    rw [length_heads, ← heads_slice] at h₄
    refine wp_pure.mpr ⟨(k, node j child (slice ks (c + 1) (cuts.headD ks.length))) :: more, rfl,
      ⟨k, child, _, more, hkc, rfl, ?_⟩, ?_, hs₁.trans (hs₂.writes.trans (hs₃.trans hs₄))⟩
    · cases cuts with
      | nil =>
        obtain rfl : more = [] := hgroup
        rw [headD_nil, slice, take_length]
        exact .last j child _
      | cons c' cuts =>
        obtain ⟨k', child', t, more', hk', rfl, hg⟩ := hgroup
        have hcc' : c < c' := hsorted.1 c' mem_cons_self
        have hidx : c + 1 + (c' - (c + 1)) = c' := by omega
        have hk'' : (ks.drop (c + 1))[c' - (c + 1)]? = some (k', child') := by
          rw [getElem?_drop, hidx, hk']
        have hdrop : ks.drop (c' + 1) = (ks.drop (c + 1)).drop (c' - (c + 1) + 1) := by
          rw [drop_drop]
          congr 1
          omega
        rw [slice_eq]
        rw [hdrop] at hg
        exact groups_cut hk'' hg
    · rwa [← add_assoc, add_comm (topsOf more)] at h₄

variable (f : Frame PageId Key Value)

/-- A node whose hole is filled, with the place for new children on the right of the hole. -/
lemma frame_split (t : Tree) (more : List (Key × Tree)) :
    ∃ pre post, pre.length = childIndex (frameSlot f) ∧ heads (f.rest t []) = pre ++ post ∧
      heads (f.rest t more) = pre ++ heads more ++ post := by
  cases f with
  | left j kids => exact ⟨[], heads kids, rfl, rfl, by simp [Frame.rest]⟩
  | mid j l pre k post =>
    exact ⟨heads pre ++ [(k, t.id)], heads post, by simp [childIndex, frameSlot],
      by simp [Frame.rest], by simp [Frame.rest]⟩

lemma setChild_framePage (hole : PageId) (t : Tree) :
    (framePage f hole).setChild t.id (frameSlot f) =
      ((f.first t).id, heads (f.rest t [])) := by
  cases f with
  | left j kids => rfl
  | mid j l pre k post =>
    have hmodify := modify_append (heads pre) (heads post) (k, hole) fun e => (e.1, t.id)
    simpa [frameSlot, framePage, Page.setChild, Page.leftmost, Page.internalEntries, Frame.first,
      Frame.rest] using hmodify

/-- What a node comes to be when its hole is filled with trees side by side. -/
lemma internalRelink_spec {f : Frame PageId Key Value}
    (h : Holding s₀ R ({(i, framePage f hole)} + C) s) (hw : Writable R s i) :
    wp (internalRelink i (frameSlot f) t.id (heads more))
      (fun out s' => ∃ t' more', t'.id = i ∧ out = heads more' ∧
        Groups (f.first t) (f.rest t more) t' more' ∧
        Holding s₀ R (topOf t' + topsOf more' + C) s' ∧ Writes s s') (Journaled s₀ R) s := by
  obtain ⟨pre, post, hpos, hclosed, hfilled⟩ := frame_split f t more
  -- a page that holds all the children is the only node
  have hwhole : ∀ s', Holding s₀ R ({(i, .internal (f.first t).id (heads (f.rest t more)))} + C)
      s' → Writes s s' → ∃ t' more', t'.id = i ∧ ([] : Split) = heads more' ∧
        Groups (f.first t) (f.rest t more) t' more' ∧
        Holding s₀ R (topOf t' + topsOf more' + C) s' ∧ Writes s s' := fun s' h' hs' =>
    ⟨node i (f.first t) (f.rest t more), [], rfl, rfl, .last i _ _,
      by simpa [topOf, topsOf] using h', hs'⟩
  rw [internalRelink]
  split
  · exact wp_throw.mpr h.journaled
  · refine (view_spec (p := framePage f hole) h.owned (by simp)).bind ?_
    rintro _ s₁ ⟨rfl, rfl⟩
    simp only [setChild_framePage]
    split
    · next hempty =>
      obtain rfl : more = [] := by simpa [heads] using hempty
      refine (write_spec h hw).bind ?_
      rintro _ s₂ ⟨h₂, hs₂⟩
      exact wp_pure.mpr (hwhole s₂ h₂ hs₂)
    · rw [hclosed, ← hpos]
      split
      · next es hplace =>
        obtain ⟨placed, hmore, rfl⟩ := place_eq hplace
        rw [append_nil] at hmore
        rw [← hmore, ← hfilled]
        refine (write_spec h hw).bind ?_
        rintro _ s₂ ⟨h₂, hs₂⟩
        exact wp_pure.mpr (hwhole s₂ h₂ hs₂)
      · next es rest _ hplace =>
        obtain ⟨placed, hmore, rfl⟩ := place_eq hplace
        refine (write_spec h hw).bind ?_
        rintro _ s₂ ⟨h₂, hs₂⟩
        have hplaced : pre.length + ((heads more).length - rest.length) =
            (pre ++ placed).length := by
          rw [hmore, length_append, length_append, Nat.add_sub_cancel]
        have hall : placeRest (pre ++ placed ++ post) (pre.length +
            ((heads more).length - rest.length)) rest = heads (f.rest t more) := by
          rw [hplaced, placeRest_eq, hfilled, hmore]
          simp
        rw [hall, length_heads]
        split
        · refine (fillInternal_spec h₂ (hw.writes hs₂)).bind ?_
          rintro _ s₃ ⟨h₃, hs₃⟩
          exact wp_pure.mpr (hwhole s₃ h₃ (hs₂.trans hs₃))
        · next cut cuts hcuts =>
          have hwithin : Within 0 (f.rest t more).length (cut :: cuts) := by
            have hbalanced := balancedCuts_within nodeCapacity (f.rest t more).length
              ((heads (f.rest t more)).map fun e => internalEntryBytes e.1) 0
            rw [hcuts] at hbalanced
            simpa using hbalanced
          rw [add_comm] at h₂
          refine (writeRightNodes_spec hwithin h₂).bind ?_
          rintro _ s₃ ⟨more', rfl, hgroup, h₃, hs₃⟩
          rw [add_comm C, ← add_assoc, add_comm (topsOf more'), add_assoc] at h₃
          refine wp_bind.mpr
            ((fillInternal_spec h₃ ((hw.writes hs₂).writes hs₃)).mono ?_)
          rintro _ s₄ ⟨h₄, hs₄⟩
          obtain ⟨k, child, t', more'', hk, rfl, hg⟩ := hgroup
          have htake : (heads (f.rest t more)).take cut = heads ((f.rest t more).take cut) := by
            simp [heads]
          refine wp_pure.mpr ⟨node i (f.first t) ((f.rest t more).take cut), _, rfl, rfl,
            groups_cut hk hg, ?_, hs₂.trans (hs₃.trans hs₄)⟩
          rw [htake] at h₄
          rwa [add_assoc]

/-! ## Relinking and unlinking -/

lemma cells_fill (t : Tree) (more : List (Key × Tree)) :
    cells (f.first t) + cellsOf (f.rest t more) = siblings f + cells t + cellsOf more := by
  cases f with
  | left j kids =>
    simp only [Frame.first, Frame.rest, cellsOf_append]
    abel
  | mid j l pre k post =>
    simp only [Frame.first, Frame.rest, siblings, cellsOf_append, cellsOf_cons]
    abel

lemma relinkLoop_spec (hroot : root = rootId c old)
    (h : Holding s₀ R (cells t + cellsOf more + contextCells c old) s) :
    wp (relinkLoop root (steps c) old t.id (heads more))
      (fun r s' => ∃ t', t'.id = r ∧ Relinks c t more t' ∧ Holding s₀ R (cells t') s' ∧
        s'.strayed = s.strayed) (Journaled s₀ R) s := by
  induction c generalizing t more old s with
  | nil =>
    rw [steps, map_nil, relinkLoop]
    simp only [contextCells, add_zero] at h
    split
    · next hempty =>
      obtain rfl : more = [] := by simpa [heads] using hempty
      refine wp_pure.mpr ⟨t, ?_, .same [] t, by simpa using h, rfl⟩
      split
      · next heq => rw [hroot, rootId, ← eq_of_beq heq]
      · rfl
    · refine (arenaFor_spec h.journaled).bind fun _ s₁ hs₁ => ?_
      refine (allocInArena_spec (h.reads hs₁)).bind ?_
      rintro j s₂ ⟨h₂, hs₂, hj⟩
      refine (readPage_spec (p := .internal 0 []) h₂ (by simp)).bind ?_
      rintro _ s₃ ⟨-, hs₃⟩
      refine (fillInternal_spec (h₂.reads hs₃) (.inl hj)).bind ?_
      rintro _ s₄ ⟨h₄, hs₄⟩
      exact wp_pure.mpr ⟨node j t more, rfl, .grow j t more, by rwa [cells_node],
        (hs₁.writes.trans (hs₂.trans (hs₃.writes.trans hs₄))).strayed⟩
  | cons f c ih =>
    have hsteps : steps (f :: c) = (f.id, frameSlot f) :: steps c := rfl
    rw [hsteps, relinkLoop]
    split
    · next hsame =>
      rw [and_eq_true, beq_iff_eq] at hsame
      obtain rfl : more = [] := by simpa [heads] using hsame.2
      refine wp_pure.mpr ⟨plug (f :: c) t, ?_, .same _ t, ?_, rfl⟩
      · rw [id_plug, hroot, hsame.1]
      · rw [cells_plug, hsame.1]
        simpa using h
    · have hparent : cells t + cellsOf more + contextCells (f :: c) old =
          {(f.id, framePage f old)} +
            (siblings f + cells t + cellsOf more + contextCells c f.id) := by
        rw [contextCells]
        abel
      rw [hparent] at h
      refine (shadow_spec h).bind ?_
      rintro j s₁ ⟨h₁, hst₁, hw₁⟩
      refine (internalRelink_spec h₁ hw₁).bind ?_
      rintro _ s₂ ⟨t', more', rfl, rfl, hgroups, h₂, hs₂⟩
      have hrebuilt : topOf t' + topsOf more' +
          (siblings f + cells t + cellsOf more + contextCells c f.id) =
          cells t' + cellsOf more' + contextCells c f.id := by
        rw [cells_groups hgroups, cells_fill]
        abel
      rw [hrebuilt] at h₂
      refine (ih hroot h₂).mono ?_
      rintro r s₃ ⟨t'', hid, hrelinks, h₃, hst₃⟩
      exact ⟨t'', hid, .step f c t t' t'' more more' hgroups hrelinks, h₃,
        hst₃.trans (hs₂.strayed.trans hst₁)⟩

lemma relinkUp_spec (hpath : path.reverse = steps c) (hroot : root = rootId c old)
    (h : Holding s₀ R (cells t + cellsOf more + contextCells c old) s) :
    wp (relinkUp root path old t.id (heads more))
      (fun r s' => ∃ t', t'.id = r ∧ Relinks c t more t' ∧ Holding s₀ R (cells t') s' ∧
        s'.strayed = s.strayed) (Journaled s₀ R) s := by
  rw [relinkUp, hpath]
  exact relinkLoop_spec hroot h

lemma unlinkLoop_spec (hroot : root = rootId c hole)
    (h : Holding s₀ R ({(doomed, p)} + contextCells c hole) s) (hdoomed : Loose s₀ R doomed) :
    wp (unlinkLoop root (steps c) doomed)
      (fun r s' => ∃ t', t'.id = r ∧ Unlinks c t' ∧ Holding s₀ R (cells t') s' ∧
        s'.strayed = s.strayed) (Journaled s₀ R) s := by
  induction c generalizing doomed hole p s with
  | nil =>
    refine (retire_spec h hdoomed).bind ?_
    rintro _ s₁ ⟨h₁, hst₁⟩
    refine (create_spec h₁).mono ?_
    rintro i s₂ ⟨h₂, hs₂⟩
    exact ⟨leaf i [], rfl, .empty i, by simpa [contextCells] using h₂,
      hs₂.strayed.trans hst₁⟩
  | cons f c ih =>
    have hsteps : steps (f :: c) = (f.id, frameSlot f) :: steps c := rfl
    have hparent : {(doomed, p)} + contextCells (f :: c) hole =
        {(f.id, framePage f hole)} + ({(doomed, p)} + (siblings f + contextCells c f.id)) := by
      rw [contextCells]
      abel
    rw [hparent] at h
    rw [hsteps, unlinkLoop]
    refine (shadow_spec h).bind ?_
    rintro j s₁ ⟨h₁, hst₁, hw₁⟩
    refine (view_spec (p := framePage f hole) h₁.owned (by simp)).bind ?_
    rintro _ s₁ ⟨rfl, rfl⟩
    -- once the parent is written without the child, the child is retired
    have hretire : ∀ q : Page, wp (do write j q; retire doomed)
        (fun _ s' => Holding s₀ R ({(j, q)} + (siblings f + contextCells c f.id)) s' ∧
          s'.strayed = s.strayed) (Journaled s₀ R) s₁ := by
      intro q
      refine (write_spec h₁ hw₁).bind ?_
      rintro _ s₂ ⟨h₂, hs₂⟩
      rw [add_left_comm] at h₂
      refine (retire_spec h₂ hdoomed).mono ?_
      rintro _ s₃ ⟨h₃, hst₃⟩
      exact ⟨h₃, hst₃.trans (hs₂.strayed.trans hst₁)⟩
    have hroot : root = rootId c f.id := hroot
    cases f with
    | mid i l pre k post =>
      have herase : (heads pre ++ (k, hole) :: heads post).eraseIdx pre.length =
          heads (pre ++ post) := by
        rw [eraseIdx_append_of_length_le (by simp)]
        simp
      simp only [frameSlot, framePage, Page.internalEntries, herase]
      rw [← bind_assoc]
      refine (hretire (.internal l.id (heads (pre ++ post)))).bind ?_
      rintro _ s₂ ⟨h₂, hst₂⟩
      have hnode : {(j, Page.internal l.id (heads (pre ++ post)))} +
          (siblings (.mid i l pre k post) + contextCells c i) =
          cells (node j l (pre ++ post)) + cellsOf [] + contextCells c i := by
        rw [siblings, cells_node, cellsOf_append]
        abel
      rw [Frame.id, hnode] at h₂
      refine (relinkLoop_spec hroot h₂).mono ?_
      rintro r s₃ ⟨t', hid, hrelinks, h₃, hst₃⟩
      exact ⟨t', hid, .drop i j l pre k post c t' hrelinks, h₃, hst₃.trans hst₂⟩
    | left i kids =>
      cases kids with
      | nil =>
        rw [← bind_assoc]
        refine (hretire (.internal hole [])).bind ?_
        rintro _ s₂ ⟨h₂, hst₂⟩
        rw [siblings, cellsOf_nil, zero_add] at h₂
        refine (ih hroot h₂ (h₁.journaled.loose_of_writable hw₁)).mono ?_
        rintro r s₃ ⟨t', hid, hunlinks, h₃, hst₃⟩
        exact ⟨t', hid, .childless i c t' hunlinks, h₃, hst₃.trans hst₂⟩
      | cons kt ks =>
        obtain ⟨k, l⟩ := kt
        simp only [frameSlot, framePage, Page.internalEntries, heads_cons]
        rw [← bind_assoc]
        refine (hretire (.internal l.id (heads ks))).bind ?_
        rintro _ s₂ ⟨h₂, hst₂⟩
        have hnode : {(j, Page.internal l.id (heads ks))} +
            (siblings (.left i ((k, l) :: ks)) + contextCells c i) =
            cells (node j l ks) + cellsOf [] + contextCells c i := by
          rw [siblings, cells_node, cellsOf_cons]
          abel
        rw [Frame.id, hnode] at h₂
        refine (relinkLoop_spec hroot h₂).mono ?_
        rintro r s₃ ⟨t', hid, hrelinks, h₃, hst₃⟩
        exact ⟨t', hid, .promote i j k l ks c t' hrelinks, h₃, hst₃.trans hst₂⟩

lemma unlinkUp_spec (hpath : path.reverse = steps c) (hroot : root = rootId c hole)
    (h : Holding s₀ R ({(doomed, p)} + contextCells c hole) s) (hdoomed : Loose s₀ R doomed) :
    wp (unlinkUp root path doomed)
      (fun r s' => ∃ t', t'.id = r ∧ Unlinks c t' ∧ Holding s₀ R (cells t') s' ∧
        s'.strayed = s.strayed) (Journaled s₀ R) s := by
  rw [unlinkUp, hpath]
  exact unlinkLoop_spec hroot h hdoomed

/-! ## Merging -/

/-- A tree does not lead to this place for the keys of all the entries. -/
def Misplaced (c : Context) (es : LeafEntries) : Prop := ∃ e ∈ es, ¬Routed e.1 c

/-- What moving the entries of the right neighbour into the leaf that a key leads to makes of a
tree. The merge goes astray if the tree does not lead to this leaf for the keys of the entries. -/
inductive MergesRight (key : Key) (strays : Bool) (T : Tree) : Tree → Prop
  /-- The leaf is the last. -/
  | last (c : Context) (i : PageId) (es : LeafEntries) :
      T = plug c (leaf i es) → Routed key c → after c = [] → strays = false →
      MergesRight key strays T T
  | bare (c : Context) (i : PageId) (es : LeafEntries) (rest : List LeafEntries) :
      T = plug c (leaf i es) → Routed key c → after c = [] :: rest → strays = false →
      MergesRight key strays T T
  | absorb (c cR cL : Context) (i j l : PageId) (es rs esR esL : LeafEntries) (e : Key × Value)
      (rest : List LeafEntries) (t T' : Tree) (more : List (Key × Tree)) :
      T = plug c (leaf i es) → Routed key c → after c = (e :: rs) :: rest →
      T = plug cR (leaf j esR) → Routed e.1 cR →
      Unlinks cR (plug cL (leaf l esL)) → Routed key cL →
      (strays = true ↔ Misplaced cL (e :: rs)) →
      Pieces successorOf (esL ++ e :: rs) t more →
      t.leaves ++ leavesOf more = pieces (esL ++ e :: rs) (0 :: leafCutsOf (esL ++ e :: rs)) →
      Relinks cL t more T' → MergesRight key strays T T'

lemma mem_contextCells {f : Frame PageId Key Value} (hf : f ∈ c)
    (hole : PageId) : ∃ h, (f.id, framePage f h) ∈ contextCells c hole := by
  induction c generalizing hole with
  | nil => cases hf
  | cons g c ih =>
    rcases mem_cons.mp hf with rfl | hf
    · exact ⟨hole, by simp [contextCells]⟩
    · obtain ⟨h, hmem⟩ := ih hf g.id
      exact ⟨h, by simp [contextCells, hmem]⟩

lemma framePage_eq (h : PageId) :
    ∃ l es, framePage f h = .internal l es ∧ keysOf es = frameKeys f := by
  cases f with
  | left j kids => exact ⟨h, heads kids, rfl, keysOf_heads kids⟩
  | mid j l pre k post =>
    refine ⟨l.id, _, rfl, ?_⟩
    rw [keysOf, map_append, map_cons, ← keysOf, ← keysOf, keysOf_heads, keysOf_heads]
    rfl

/-- A key takes the slots of a path if it is led along the context. -/
lemma takes_iff (hpath : path.reverse = steps c) (h : Owned C s) (hc : contextCells c hole ≤ C) :
    takes s.pages path key = true ↔ Routed key c := by
  have hall : takes s.pages path key = path.all fun step => takes s.pages [step] key := by
    simp [takes]
  have hslot : ∀ f ∈ c, takes s.pages [(f.id, frameSlot f)] key = true ↔
      childSlotFor (frameKeys f) key = frameSlot f := by
    intro f hf
    obtain ⟨h', hmem⟩ := mem_contextCells hf hole
    have hheld := h.held _ (Multiset.mem_of_le hc hmem)
    obtain ⟨l, es, hpage, hkeys⟩ := framePage_eq f h'
    rw [hpage] at hheld
    simp only [takes, all_cons, all_nil, Bool.and_true, hheld, hkeys, beq_iff_eq]
  rw [hall, ← reverse_reverse path, hpath, all_reverse, steps, all_map, all_eq_true]
  exact forall₂_congr hslot

/-- What a merge notes of the entries it is about to put somewhere. -/
lemma stray_iff (hpath : path.reverse = steps c) (h : Owned C s) (hc : contextCells c hole ≤ C)
    (es : LeafEntries) :
    (!es.all fun e => takes s.pages path e.1) = true ↔ Misplaced c es := by
  simp only [Bool.not_eq_true', all_eq_false, Misplaced, takes_iff hpath h hc]

lemma Holding.stray (h : Holding s₀ R C s) (b : Bool) : Holding s₀ R C { s with strayed := b } :=
  ⟨⟨h.journaled.restores, h.journaled.nodup, h.journaled.kept, h.journaled.retired,
    h.journaled.freed, ⟨h.journaled.later.answers, h.journaled.later.calls⟩, h.journaled.inPlace,
    h.journaled.loose⟩, ⟨h.owned.held, h.owned.nodup, h.owned.live⟩⟩

lemma mergeRight_spec (h : Holding s₀ R (cells T) s) : wp (mergeRight T.id key)
      (fun r s' => ∃ T' strays, T'.id = r ∧ MergesRight key strays T T' ∧
        Holding s₀ R (cells T') s' ∧ s'.strayed = (s.strayed || strays)) (Journaled s₀ R) s := by
  refine (descend_spec h le_rfl).bind ?_
  rintro ⟨pathL, i⟩ s₁ ⟨hs₁, c, es, hT, hpath, hrouted⟩
  dsimp only at hT hpath ⊢
  have h₁ := h.reads hs₁
  have hcells : contextCells c i ≤ cells T := by
    rw [hT, cells_plug]
    exact Multiset.le_add_left _ _
  rw [rightNeighbour, hpath]
  refine (rightNeighbourLoop_spec h₁ hcells).bind ?_
  rintro r s₂ ⟨hs₂, hr⟩
  have h₂ := h₁.reads hs₂
  have hstrayed₂ := hs₂.strayed.trans hs₁.strayed
  cases r with
  | none =>
    exact wp_pure.mpr ⟨T, false, rfl, .last c _ es hT hrouted hr rfl, h₂, by simp [hstrayed₂]⟩
  | some r =>
    obtain ⟨rs, rest, hafter, hmem⟩ := hr
    refine (readPage_spec h₂ hmem).bind ?_
    rintro _ s₃ ⟨rfl, hs₃⟩
    have h₃ := h₂.reads hs₃
    have hstrayed₃ := hs₃.strayed.trans hstrayed₂
    cases rs with
    | nil =>
      exact wp_pure.mpr ⟨T, false, rfl, .bare c _ es rest hT hrouted hafter rfl, h₃,
        by simp [hstrayed₃]⟩
    | cons e rs =>
      refine (descend_spec h₃ le_rfl).bind ?_
      rintro ⟨pathR, rLive⟩ s₄ ⟨hs₄, cR, esR, hTR, hpathR, hroutedR⟩
      have h₄ := h₃.reads hs₄
      have hrootR : T.id = rootId cR rLive := by rw [hTR, id_plug, id_leaf]
      rw [hTR, cells_plug] at h₄
      refine (shadow_spec h₄).bind ?_
      rintro rShadow s₅ ⟨h₅, hst₅, hw₅⟩
      refine (unlinkUp_spec hpathR hrootR h₅ (h₅.journaled.loose_of_writable hw₅)).bind ?_
      rintro _ s₆ ⟨T₁, rfl, hunlinks, h₆, hst₆⟩
      refine (descend_spec h₆ le_rfl).bind ?_
      rintro ⟨pathL', lLive⟩ s₇ ⟨hs₇, cL, esL, hT₁, hpathL, hroutedL⟩
      have h₇ := h₆.reads hs₇
      have hrootL : T₁.id = rootId cL lLive := by rw [hT₁, id_plug, id_leaf]
      rw [hT₁, cells_plug] at h₇
      have hkept : s₇.strayed = s.strayed := hs₇.strayed.trans
        (hst₆.trans (hst₅.trans (hs₄.strayed.trans hstrayed₃)))
      have hstray := stray_iff hpathL h₇.owned (Multiset.le_add_left _ _) (e :: rs)
      refine (shadow_spec (h₇.stray _)).bind ?_
      rintro lShadow s₈ ⟨h₈, hst₈, hw₈⟩
      refine (view_spec (p := .leaf esL) h₈.owned (by simp)).bind ?_
      rintro _ s₉ ⟨rfl, rfl⟩
      refine (writeLeafChunked_spec h₈ hw₈).bind ?_
      rintro _ s₁₀ ⟨t, more, rfl, rfl, hpieces, hleaves, h₁₀, hs₁₀⟩
      refine (relinkUp_spec hpathL hrootL h₁₀).mono ?_
      rintro r s₁₁ ⟨T', hid, hrelinks, h₁₁, hst₁₁⟩
      have hfinal := hst₁₁.trans (hs₁₀.strayed.trans hst₈)
      rw [hT₁] at hunlinks
      refine ⟨T', _, hid, .absorb c cR cL _ _ _ es rs esR esL e rest t T' more hT hrouted hafter
        hTR hroutedR hunlinks hroutedL hstray hpieces hleaves hrelinks, h₁₁, ?_⟩
      rw [hfinal, ← hkept]
      rfl

/-! ## Insertion and deletion -/

/-- What putting a value for a key makes of a tree. -/
inductive Inserts (key : Key) (value : Value) (strays : Bool) (T : Tree) : Tree → Prop
  | put (c : Context) (i : PageId) (es : LeafEntries) (t T₁ T' : Tree)
      (more : List (Key × Tree)) :
      T = plug c (leaf i es) → Routed key c →
      Pieces successorOf (putEntry es key value) t more →
      (t.leaves ++ leavesOf more =
          pieces (putEntry es key value) (0 :: leafCutsOf (putEntry es key value)) ∨
        interiorBoundary (putEntry es key value) (search (keysOf es) key).index key value = false ∧
          t.leaves ++ leavesOf more = [putEntry es key value]) →
      Relinks c t more T₁ →
      (if unterminated (putEntry es key value) then MergesRight key strays T₁ T'
        else strays = false ∧ T' = T₁) →
      Inserts key value strays T T'

/-- What taking out a key makes of a tree. -/
inductive Deletes (key : Key) (strays : Bool) (T : Tree) : Tree → Prop
  | absent (c : Context) (i : PageId) (es : LeafEntries) (n : ℕ) :
      T = plug c (leaf i es) → Routed key c → search (keysOf es) key = .vacant n →
      strays = false → Deletes key strays T T
  | lone (i j : PageId) (es : LeafEntries) (n : ℕ) (T' : Tree) :
      T = leaf i es → search (keysOf es) key = .found n → es.eraseIdx n = [] →
      Relinks [] (leaf j []) [] T' → strays = false → Deletes key strays T T'
  | emptied (c : Context) (i : PageId) (es : LeafEntries) (n : ℕ) (T' : Tree) :
      T = plug c (leaf i es) → Routed key c → c ≠ [] → search (keysOf es) key = .found n →
      es.eraseIdx n = [] → Unlinks c T' → strays = false → Deletes key strays T T'
  | shrunk (c : Context) (i j : PageId) (es rs : LeafEntries) (e : Key × Value) (n : ℕ)
      (T₁ T' : Tree) :
      T = plug c (leaf i es) → Routed key c → search (keysOf es) key = .found n →
      es.eraseIdx n = e :: rs → Relinks c (leaf j (e :: rs)) [] T₁ →
      (if unterminated (e :: rs) then MergesRight e.1 strays T₁ T'
        else strays = false ∧ T' = T₁) →
      Deletes key strays T T'

lemma insertWithin_spec (h : Holding s₀ R (cells T) s) : wp (insertWithin T.id key value)
      (fun r s' => ∃ T' strays, T'.id = r ∧ Inserts key value strays T T' ∧
        Holding s₀ R (cells T') s' ∧ s'.strayed = (s.strayed || strays)) (Journaled s₀ R) s := by
  refine wp_bind.mpr (wp_liftExcept.mpr ?_)
  cases checkEntry key value with
  | error e => exact h.journaled
  | ok _ =>
    refine (descend_spec h le_rfl).bind ?_
    rintro ⟨path, i⟩ s₁ ⟨hs₁, c, es, hT, hpath, hrouted⟩
    have h₁ := h.reads hs₁
    have hroot : T.id = rootId c i := by rw [hT, id_plug, id_leaf]
    rw [hT, cells_plug] at h₁
    refine (shadow_spec h₁).bind ?_
    rintro j s₂ ⟨h₂, hst₂, hw₂⟩
    refine (leafPut_spec h₂ hw₂).bind ?_
    rintro _ s₃ ⟨t, more, rfl, rfl, hpieces, hleaves, h₃, hs₃⟩
    refine (relinkUp_spec hpath hroot h₃).bind ?_
    rintro _ s₄ ⟨T₁, rfl, hrelinks, h₄, hst₄⟩
    have hkept : s₄.strayed = s.strayed :=
      hst₄.trans (hs₃.strayed.trans (hst₂.trans hs₁.strayed))
    split
    · next hopen =>
      refine (mergeRight_spec h₄).mono ?_
      rintro r s₅ ⟨T', strays, hid, hmerges, h₅, hst₅⟩
      exact ⟨T', strays, hid, .put c i es t T₁ T' more hT hrouted hpieces hleaves hrelinks
        (by rwa [if_pos hopen]), h₅, hkept ▸ hst₅⟩
    · next hclosed =>
      exact wp_pure.mpr ⟨T₁, false, rfl, .put c i es t T₁ T₁ more hT hrouted hpieces hleaves
        hrelinks (by rw [if_neg hclosed]; exact ⟨rfl, rfl⟩), h₄, by simp [hkept]⟩

lemma deleteWithin_spec (h : Holding s₀ R (cells T) s) : wp (deleteWithin T.id key)
      (fun r s' => ∃ T' strays, T'.id = r ∧ Deletes key strays T T' ∧
        Holding s₀ R (cells T') s' ∧ s'.strayed = (s.strayed || strays)) (Journaled s₀ R) s := by
  refine (descend_spec h le_rfl).bind ?_
  rintro ⟨path, i⟩ s₁ ⟨hs₁, c, es, hT, hpath, hrouted⟩
  have h₁ := h.reads hs₁
  have hroot : T.id = rootId c i := by rw [hT, id_plug, id_leaf]
  have hmem : (i, Page.leaf es) ∈ cells T := by simp [hT, cells_plug]
  refine (readPage_spec h₁ hmem).bind ?_
  rintro _ s₂ ⟨rfl, hs₂⟩
  have h₂ := h₁.reads hs₂
  simp only [Page.leafEntries]
  cases hsearch : search (keysOf es) key with
  | vacant n =>
    exact wp_pure.mpr ⟨T, false, rfl, .absent c i es n hT hrouted hsearch rfl, h₂,
      by simp [hs₂.strayed, hs₁.strayed]⟩
  | found n =>
    rw [hT, cells_plug, id_leaf] at h₂
    refine (shadow_spec h₂).bind ?_
    rintro j s₃ ⟨h₃, hst₃, hw₃⟩
    refine (view_spec (p := .leaf es) h₃.owned (by simp)).bind ?_
    rintro _ s₃ ⟨rfl, rfl⟩
    simp only [hsearch]
    refine (write_spec h₃ hw₃).bind ?_
    rintro _ s₄ ⟨h₄, hs₄⟩
    have hkept : s₄.strayed = s.strayed :=
      hs₄.strayed.trans (hst₃.trans (hs₂.strayed.trans hs₁.strayed))
    have hleaf : ∀ es', ({(j, Page.leaf es')} : Multiset (PageId × Page)) + contextCells c i =
        cells (leaf j es' : Tree) + cellsOf [] + contextCells c i := by simp
    cases herase : es.eraseIdx n with
    | nil =>
      rw [herase] at h₄
      dsimp only
      have hempty : path.isEmpty = true ↔ c = [] := by
        rw [List.isEmpty_iff, ← reverse_eq_nil_iff, hpath, steps, map_eq_nil_iff]
      split
      · next hp =>
        obtain rfl := hempty.mp hp
        rw [hleaf] at h₄
        refine (relinkUp_spec (t := leaf j []) hpath hroot h₄).mono ?_
        rintro r s₅ ⟨T', hid, hrelinks, h₅, hst₅⟩
        exact ⟨T', false, hid, .lone i j es n T' hT hsearch herase hrelinks rfl, h₅,
          by simp [hst₅, hkept]⟩
      · next hp =>
        refine (unlinkUp_spec hpath hroot h₄ (h₃.journaled.loose_of_writable hw₃)).mono ?_
        rintro r s₅ ⟨T', hid, hunlinks, h₅, hst₅⟩
        exact ⟨T', false, hid, .emptied c i es n T' hT hrouted (fun hc => hp (hempty.mpr hc))
          hsearch herase hunlinks rfl, h₅, by simp [hst₅, hkept]⟩
    | cons e rs =>
      rw [herase, hleaf] at h₄
      refine (relinkUp_spec (t := leaf j (e :: rs)) hpath hroot h₄).bind ?_
      rintro _ s₅ ⟨T₁, rfl, hrelinks, h₅, hst₅⟩
      split
      · next hopen =>
        refine (mergeRight_spec h₅).mono ?_
        rintro r s₆ ⟨T', strays, hid, hmerges, h₆, hst₆⟩
        exact ⟨T', strays, hid, .shrunk c i j es rs e n T₁ T' hT hrouted hsearch herase hrelinks
          (by rwa [if_pos hopen]), h₆, hst₅.trans hkept ▸ hst₆⟩
      · next hclosed =>
        exact wp_pure.mpr ⟨T₁, false, rfl, .shrunk c i j es rs e n T₁ T₁ hT hrouted hsearch
          herase hrelinks (by rw [if_neg hclosed]; exact ⟨rfl, rfl⟩), h₅, by simp [hst₅, hkept]⟩

end FerroDb.Cow
