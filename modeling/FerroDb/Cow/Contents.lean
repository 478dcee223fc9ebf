import FerroDb.Cow.Atomic

/-!
# What the operations do to the rows of a tree

In a tree whose separators bound what stands below them, a key is led to the leaf that holds it.
An insertion or deletion then changes the rows as it should and keeps the separators right, as
long as no merge goes astray.
-/

namespace FerroDb.Cow

open List hiding after

open Library SepTree M CowTree

variable {e : Key × Value} {c : Context} {T T' : Tree} {key : Key} {i : ℕ}

/-! ## Rows -/

abbrev Rows := List (Key × Value)

/-- Rows in order with a value put for a key. -/
def putRow (key : Key) (value : Value) (rows : Rows) : Rows :=
  rows.filter (·.1 < key) ++ (key, value) :: rows.filter (key < ·.1)

/-- Rows without a key. -/
def dropRow (key : Key) (rows : Rows) : Rows := rows.filter (·.1 ≠ key)

/-- What an operation is meant to do to the rows. -/
def Op.apply (rows : Rows) : Op → Rows
  | .insert key value => putRow key value rows
  | .delete key => dropRow key rows

section Rows

variable {key : Key} {value : Value} {b mid a rows : Rows} {lo : WithBot Key} {hi : WithTop Key}

lemma mem_putRow : e ∈ putRow key value rows ↔ e = (key, value) ∨ e ∈ rows ∧ e.1 ≠ key := by
  simp only [putRow, mem_append, mem_filter, mem_cons, decide_eq_true_eq,
    ne_iff_lt_or_gt]
  tauto

lemma mem_dropRow : e ∈ dropRow key rows ↔ e ∈ rows ∧ e.1 ≠ key := by
  simp [dropRow]

/-- Rows around those in the middle are not touched. -/
lemma putRow_middle (hb : ∀ e ∈ b, e.1 < key) (ha : ∀ e ∈ a, key < e.1) :
    putRow key value (b ++ mid ++ a) = b ++ putRow key value mid ++ a := by
  have hb₁ : b.filter (·.1 < key) = b := filter_eq_self.mpr (by simpa using hb)
  have hb₂ : b.filter (key < ·.1) = [] :=
    filter_eq_nil_iff.mpr fun e he => by simpa using (hb e he).le
  have ha₁ : a.filter (·.1 < key) = [] :=
    filter_eq_nil_iff.mpr fun e he => by simpa using (ha e he).le
  have ha₂ : a.filter (key < ·.1) = a := filter_eq_self.mpr (by simpa using ha)
  simp [putRow, hb₁, hb₂, ha₁, ha₂]

lemma dropRow_middle (hb : ∀ e ∈ b, e.1 < key) (ha : ∀ e ∈ a, key < e.1) :
    dropRow key (b ++ mid ++ a) = b ++ dropRow key mid ++ a := by
  have hb' : b.filter (·.1 ≠ key) = b :=
    filter_eq_self.mpr fun e he => by simpa using (hb e he).ne
  have ha' : a.filter (·.1 ≠ key) = a :=
    filter_eq_self.mpr fun e he => by simpa using (ha e he).ne'
  rw [dropRow, filter_append, filter_append, hb', ha', dropRow]

lemma ordered_putRow (h : Ordered lo hi rows) (hk : InRange lo hi key) :
    Ordered lo hi (putRow key value rows) := by
  refine ⟨pairwise_append.mpr ⟨h.1.filter _, pairwise_cons.mpr ⟨fun e he => ?_,
    h.1.filter _⟩, fun e he e' he' => ?_⟩, fun e he => ?_⟩
  · simpa using (mem_filter.mp he).2
  · have hlt : e.1 < key := by simpa using (mem_filter.mp he).2
    rcases mem_cons.mp he' with rfl | he'
    · exact hlt
    · exact hlt.trans (by simpa using (mem_filter.mp he').2)
  · rcases mem_putRow.mp he with rfl | ⟨he, -⟩
    · exact hk
    · exact h.2 e he

lemma ordered_dropRow (h : Ordered lo hi rows) : Ordered lo hi (dropRow key rows) :=
  ⟨h.1.filter _, fun e he => h.2 e (mem_dropRow.mp he).1⟩

/-! ## Entries of a leaf -/

lemma sorted_keysOf (h : Ascending rows) : (keysOf rows).Pairwise (· < ·) :=
  pairwise_map.mpr h

/-- The entries around the place that a search found. -/
lemma split_found (h : Ascending rows) (hs : search (keysOf rows) key = .found i) :
    ∃ v, rows = rows.take i ++ [(key, v)] ++ rows.drop (i + 1) ∧
      (∀ e ∈ rows.take i, e.1 < key) ∧ (∀ e ∈ rows.drop (i + 1), key < e.1) := by
  have hi := search_found hs
  rw [keysOf, getElem?_map, Option.map_eq_some_iff] at hi
  obtain ⟨⟨k, v⟩, hget, rfl⟩ := hi
  obtain ⟨hlt, hget⟩ := List.getElem?_eq_some_iff.mp hget
  have hrows : rows = rows.take i ++ [(k, v)] ++ rows.drop (i + 1) := by
    rw [append_assoc, singleton_append, ← hget, ← drop_eq_getElem_cons hlt,
      take_append_drop]
  have hsorted := h
  rw [Ascending, hrows, append_assoc, pairwise_append, singleton_append,
    pairwise_cons] at hsorted
  exact ⟨v, hrows, fun e he => hsorted.2.2 e he (k, v) mem_cons_self, hsorted.2.1.1⟩

lemma split_vacant (h : Ascending rows) (hs : search (keysOf rows) key = .vacant i) :
    (∀ e ∈ rows.take i, e.1 < key) ∧ (∀ e ∈ rows.drop i, key < e.1) := by
  obtain ⟨hbelow, habove⟩ := search_vacant (sorted_keysOf h) hs
  rw [keysOf, ← map_take] at hbelow
  rw [keysOf, ← map_drop] at habove
  exact ⟨fun e he => hbelow e.1 (mem_map_of_mem he),
    fun e he => habove e.1 (mem_map_of_mem he)⟩

lemma putEntry_eq (h : Ascending rows) : putEntry rows key value = putRow key value rows := by
  rw [putEntry]
  split
  · next i hs =>
    obtain ⟨v, hrows, hbelow, habove⟩ := split_found h hs
    have hlt : i < rows.length := by
      have := (List.getElem?_eq_some_iff.mp (search_found hs)).1
      simpa [keysOf] using this
    conv_rhs => rw [hrows, putRow_middle hbelow habove]
    rw [set_eq_take_append_cons_drop, if_pos hlt]
    simp [putRow]
  · next i hs =>
    obtain ⟨hbelow, habove⟩ := split_vacant h hs
    have hle : i ≤ rows.length := by simpa [keysOf] using search_vacant_le hs
    have hins := insertIdx_append (rows.take i) (rows.drop i) (key, value)
    rw [take_append_drop, length_take, min_eq_left hle] at hins
    have hmid : putRow key value (rows.take i ++ [] ++ rows.drop i) = _ :=
      putRow_middle hbelow habove
    rw [append_nil, take_append_drop] at hmid
    rw [hins, hmid]
    simp [putRow]

lemma eraseIdx_eq (h : Ascending rows) (hs : search (keysOf rows) key = .found i) :
    rows.eraseIdx i = dropRow key rows := by
  obtain ⟨v, hrows, hbelow, habove⟩ := split_found h hs
  conv_rhs => rw [hrows, dropRow_middle hbelow habove]
  rw [eraseIdx_eq_take_drop_succ]
  simp [dropRow]

/-- A key that a search does not find is not there. -/
lemma dropRow_of_vacant (h : Ascending rows)
    (hs : search (keysOf rows) key = .vacant i) : dropRow key rows = rows := by
  obtain ⟨hbelow, habove⟩ := split_vacant h hs
  have hmid : dropRow key (rows.take i ++ [] ++ rows.drop i) = _ := dropRow_middle hbelow habove
  rw [append_nil, take_append_drop] at hmid
  rw [hmid]
  simp [dropRow]

end Rows

/-! ## Where a key is led -/

lemma frame_inRange {f : Frame PageId Key Value} {lo : WithBot Key} {hi : WithTop Key}
    (hf : f.WF lo hi) (hk : InRange lo hi key)
    (hslot : childSlotFor (frameKeys f) key = frameSlot f) : InRange (f.lo lo) (f.hi hi) key := by
  cases f with
  | left i kids =>
    obtain ⟨hsorted, -⟩ := hf.keys
    have hlt := childSlotFor_none hsorted hslot
    refine ⟨hk.1, ?_⟩
    cases kids with
    | nil => exact hk.2
    | cons kt kids => exact WithTop.coe_lt_coe.mpr (hlt kt.1 mem_cons_self)
  | mid i l pre k post =>
    obtain ⟨hpre, hlo, hhi, hpost⟩ := hf
    obtain ⟨hsorted₁, hrange₁⟩ := hpre.2.keys
    obtain ⟨hsorted₂, hrange₂⟩ := hpost.keys
    have hsorted : (frameKeys (.mid i l pre k post)).Pairwise (· < ·) := by
      refine pairwise_append.mpr ⟨hsorted₁, pairwise_cons.mpr ⟨fun k' hk' =>
        WithBot.coe_lt_coe.mp (hrange₂ k' hk').1, hsorted₂⟩, fun k₁ hk₁ k₂ hk₂ => ?_⟩
      have hk₁k : k₁ < k := WithTop.coe_lt_coe.mp (hrange₁ k₁ hk₁).2
      rcases mem_cons.mp hk₂ with rfl | hk₂
      · exact hk₁k
      · exact hk₁k.trans (WithBot.coe_lt_coe.mp (hrange₂ k₂ hk₂).1)
    obtain ⟨⟨k', hget, hle⟩, hlt⟩ := childSlotFor_some hsorted hslot
    have hk' : k' = k := by
      rw [frameKeys] at hget
      simpa using hget.symm
    rw [frameKeys, drop_append] at hlt
    refine ⟨WithBot.coe_le_coe.mpr (hk' ▸ hle), ?_⟩
    cases post with
    | nil => exact hk.2
    | cons kt post => exact WithTop.coe_lt_coe.mpr (hlt kt.1 (by simp))

/-- A key that is led along a context lies within its bounds. -/
lemma Routed.inRange (h : Routed key c) (hc : WFContext c) : InRange (lo c) (hi c) key := by
  induction c with
  | nil => exact inRange_bot_top key
  | cons f c ih =>
    have hrest := ih (fun g hg => h g (.tail _ hg)) hc.2
    exact frame_inRange hc.1 hrest (h f mem_cons_self)

lemma entries_plug (c : Context) (i : PageId) (es : LeafEntries) :
    (plug c (leaf i es)).entries = (before c).flatten ++ es ++ (after c).flatten := by
  rw [entries, leaves_plug]
  simp

lemma entries_relinks {t : Tree} {more : List (Key × Tree)} (h : Relinks c t more T) : T.entries =
      (before c).flatten ++ (t.leaves ++ leavesOf more).flatten ++ (after c).flatten := by
  rw [entries, h.leaves]
  simp

/-- The leaf that a key of the tree is led to holds it. -/
lemma mem_routed {i : PageId} {es : LeafEntries}
    (h : WF ⊥ ⊤ (plug c (leaf i es))) (hr : Routed e.1 c)
    (he : e ∈ (plug c (leaf i es)).entries) : e ∈ es := by
  have hc := (wf_plug.mp h).1
  obtain ⟨hlt, hgt⟩ := hc.outside (hr.inRange hc)
  rw [entries_plug, mem_append, mem_append] at he
  rcases he with (he | he) | he
  · exact absurd rfl (hlt e he).ne
  · exact he
  · exact absurd rfl (hgt e he).ne

/-! ## Merging -/

/-- A merge that has not gone astray keeps the rows, and only the leaf of the given row and the one
after it change. -/
structure Merged (e : Key × Value) (T T' : Tree) : Prop where
  wf : WF ⊥ ⊤ T'
  entries : T'.entries = T.entries
  leaves : ∀ A es B, T.leaves = A ++ es :: B → e ∈ es →
    T'.leaves = T.leaves ∧ (B = [] ∨ ∃ rest, B = [] :: rest) ∨
      ∃ r rest, B = r :: rest ∧
        T'.leaves = A ++ pieces (es ++ r) (0 :: leafCutsOf (es ++ r)) ++ rest

lemma MergesRight.merged (h : MergesRight e.1 false T T')
    (hT : WF ⊥ ⊤ T) (he : e ∈ T.entries) : Merged e T T' := by
  have hunique : ∀ {c : Context} {i : PageId} {es₀ : LeafEntries}, T = plug c (leaf i es₀) →
      Routed e.1 c → ∀ A es B, T.leaves = A ++ es :: B → e ∈ es →
        before c = A ∧ es₀ = es ∧ after c = B := by
    rintro c i es₀ rfl hr A es B hleaves hes
    exact unique_leaf hT (hr.inRange (wf_plug.mp hT).1) hleaves hes
  cases h with
  | last c i es hplug hr hafter =>
    refine ⟨hT, rfl, fun A es B hleaves hes => .inl ⟨rfl, .inl ?_⟩⟩
    rw [← (hunique hplug hr A es B hleaves hes).2.2, hafter]
  | bare c i es rest hplug hr hafter =>
    refine ⟨hT, rfl, fun A es B hleaves hes => .inl ⟨rfl, .inr ⟨rest, ?_⟩⟩⟩
    rw [← (hunique hplug hr A es B hleaves hes).2.2, hafter]
  | absorb c cR cL i j l es rs esR esL d rest t _ more hplug hr hafter hplugR hrR hunlinks hrL
      hstray hpieces hleaves hrelinks =>
    have hes : e ∈ es := by
      rw [hplug] at hT he
      exact mem_routed hT hr he
    have hTleaves : T.leaves = before c ++ es :: (d :: rs) :: rest := by
      rw [hplug, leaves_plug, hafter]
      simp
    -- the neighbour is found again by its first key
    have hTR : WF ⊥ ⊤ (plug cR (leaf j esR)) := hplugR ▸ hT
    have hleavesR : (plug cR (leaf j esR)).leaves = (before c ++ [es]) ++ (d :: rs) :: rest := by
      rw [← hplugR, hTleaves]
      simp
    obtain ⟨hbR, -, haR⟩ := unique_leaf hTR (hrR.inRange (wf_plug.mp hTR).1) hleavesR
      mem_cons_self
    -- and the leaf by a key that it holds, once the neighbour is out
    have hT₁ := hunlinks.wf (wf_plug.mp hTR).1
    have hleavesL : (plug cL (leaf l esL)).leaves = before c ++ es :: rest := by
      rw [hunlinks.leaves, hbR, haR, orEmpty_of_ne_nil (by simp)]
      simp
    obtain ⟨hbL, rfl, haL⟩ := unique_leaf hT₁ (hrL.inRange (wf_plug.mp hT₁).1) hleavesL hes
    obtain ⟨hcL, hleafL⟩ := wf_plug.mp hT₁
    have hsorted : Ascending (esL ++ d :: rs) := by
      have hall := hT.ordered.1
      rw [entries, hTleaves, Ascending, flatten_append, pairwise_append,
        flatten_cons, flatten_cons, ← append_assoc, pairwise_append] at hall
      exact hall.2.1.1
    have hplaced : ∀ x ∈ d :: rs, Routed x.1 cL := by
      intro x hx
      by_contra hr
      exact absurd (hstray.mpr ⟨x, hx, hr⟩) Bool.false_ne_true
    have hordered : Ordered (lo cL) (hi cL) (esL ++ d :: rs) := by
      refine ⟨hsorted, fun x hx => ?_⟩
      rcases mem_append.mp hx with hx | hx
      · exact (wf_leaf.mp hleafL).2 x hx
      · exact (hplaced x hx).inRange hcL
    refine ⟨hrelinks.wf hcL (hpieces.chain hordered), ?_, fun A es B hAB hes' =>
      .inr ⟨d :: rs, rest, ?_, ?_⟩⟩
    · rw [entries_relinks hrelinks, hpieces.entries, hbL, haL, entries, hTleaves]
      simp
    · rw [← (hunique hplug hr A es B hAB hes').2.2, hafter]
    · obtain ⟨rfl, rfl, -⟩ := hunique hplug hr A es B hAB hes'
      rw [hrelinks.leaves, hleaves, hbL, haL]

/-! ## Operations -/

section

variable {key : Key} {value : Value} {c : Context} {i j : PageId} {es rs : LeafEntries} {n : ℕ}
  {t T₁ : Tree} {more : List (Key × Tree)}

/-- The leaf that a key leads to, with the key put into it. -/
lemma relinks_put (hrelinks : Relinks c t more T₁) (hT : WF ⊥ ⊤ T)
    (hplug : T = plug c (leaf i es)) (hr : Routed key c)
    (hpieces : Pieces successorOf (putEntry es key value) t more) :
    WF ⊥ ⊤ T₁ ∧ T₁.entries = putRow key value T.entries := by
  rw [hplug] at hT
  obtain ⟨hc, hleaf⟩ := wf_plug.mp hT
  have hes := wf_leaf.mp hleaf
  have hk := hr.inRange hc
  obtain ⟨hlt, hgt⟩ := hc.outside hk
  rw [putEntry_eq hes.1] at hpieces
  refine ⟨hrelinks.wf hc (hpieces.chain (ordered_putRow hes hk)), ?_⟩
  rw [entries_relinks hrelinks, hpieces.entries, hplug, entries_plug, putRow_middle hlt hgt]

/-- The leaf that a key leads to, with the key taken out of it. -/
lemma relinks_drop (hrelinks : Relinks c (leaf j (e :: rs)) [] T₁) (hT : WF ⊥ ⊤ T)
    (hplug : T = plug c (leaf i es)) (hr : Routed key c) (hs : search (keysOf es) key = .found n)
    (herase : es.eraseIdx n = e :: rs) :
    WF ⊥ ⊤ T₁ ∧ T₁.entries = dropRow key T.entries ∧ e ∈ T₁.entries := by
  rw [hplug] at hT
  obtain ⟨hc, hleaf⟩ := wf_plug.mp hT
  have hes := wf_leaf.mp hleaf
  obtain ⟨hlt, hgt⟩ := hc.outside (hr.inRange hc)
  rw [eraseIdx_eq hes.1 hs] at herase
  have hshrunk : Ordered (lo c) (hi c) (e :: rs) := herase ▸ ordered_dropRow hes
  refine ⟨hrelinks.wf hc (chain_nil.mpr (wf_leaf.mpr hshrunk)), ?_, ?_⟩
  · rw [entries_relinks hrelinks, hplug, entries_plug, dropRow_middle hlt hgt, herase]
    simp
  · rw [entries_relinks hrelinks]
    simp

end

lemma Inserts.correct {value : Value} (h : Inserts key value false T T') (hT : WF ⊥ ⊤ T) :
    WF ⊥ ⊤ T' ∧ T'.entries = putRow key value T.entries := by
  obtain ⟨c, i, es, t, T₁, _, more, hplug, hr, hpieces, -, hrelinks, hmerge⟩ := h
  obtain ⟨hT₁, hentries⟩ := relinks_put hrelinks hT hplug hr hpieces
  split at hmerge
  · have hmem : (key, value) ∈ T₁.entries := by
      rw [hentries]
      exact mem_putRow.mpr (.inl rfl)
    have hmerged := hmerge.merged hT₁ hmem
    exact ⟨hmerged.wf, hmerged.entries.trans hentries⟩
  · rw [hmerge.2]
    exact ⟨hT₁, hentries⟩

lemma Deletes.correct (h : Deletes key false T T')
    (hT : WF ⊥ ⊤ T) : WF ⊥ ⊤ T' ∧ T'.entries = dropRow key T.entries := by
  cases h with
  | absent c i es n hplug hr hs =>
    refine ⟨hT, ?_⟩
    rw [hplug] at hT ⊢
    obtain ⟨hc, hleaf⟩ := wf_plug.mp hT
    obtain ⟨hlt, hgt⟩ := hc.outside (hr.inRange hc)
    rw [entries_plug, dropRow_middle hlt hgt, dropRow_of_vacant (wf_leaf.mp hleaf).1 hs]
  | lone i j es n _ hplug hs herase hrelinks =>
    rw [hplug] at hT ⊢
    rw [eraseIdx_eq (wf_leaf.mp hT).1 hs] at herase
    refine ⟨hrelinks.wf trivial (chain_nil.mpr (by simp [Ascending])), ?_⟩
    rw [entries_relinks hrelinks, entries_leaf, herase]
    simp [before, after]
  | emptied c i es n _ hplug hr hne hs herase hunlinks =>
    rw [hplug] at hT ⊢
    obtain ⟨hc, hleaf⟩ := wf_plug.mp hT
    obtain ⟨hlt, hgt⟩ := hc.outside (hr.inRange hc)
    rw [eraseIdx_eq (wf_leaf.mp hleaf).1 hs] at herase
    refine ⟨hunlinks.wf hc, ?_⟩
    rw [entries_plug, dropRow_middle hlt hgt, herase, entries, hunlinks.leaves]
    simp
  | shrunk c i j es rs e n T₁ _ hplug hr hs herase hrelinks hmerge =>
    obtain ⟨hT₁, hentries, hmem⟩ := relinks_drop hrelinks hT hplug hr hs herase
    split at hmerge
    · have hmerged : Merged e T₁ T' := hmerge.merged hT₁ hmem
      exact ⟨hmerged.wf, hmerged.entries.trans hentries⟩
    · rw [hmerge.2]
      exact ⟨hT₁, hentries⟩

/-- An operation that has not gone astray does to the rows what it is meant to. -/
lemma Op.Makes.correct {op : Op} (h : op.Makes false T T') (hT : WF ⊥ ⊤ T) :
    WF ⊥ ⊤ T' ∧ T'.entries = op.apply T.entries := by
  cases op with
  | insert key value => exact Inserts.correct h hT
  | delete key => exact Deletes.correct h hT

end FerroDb.Cow
