import FerroDb.Cow.Btree
import FerroDb.Library.Wp
import Mathlib.Algebra.Order.Group.Multiset

/-!
# Pages an operation holds

While an operation runs, the journal can put back every page that the old root reaches, and the
operation holds a number of pages that no two parts of its work share. Each call to the store is
described by what it does to the pages held. What is not mentioned stays as it is.
-/

namespace FerroDb.Cow

open Library M Multiset Function Option

/-- The store says this of a page at one of the calls to come. -/
def State.Will (s : State) (tells : Answer → PageId → Bool) (id : PageId) : Prop :=
  ∃ n ≥ s.calls, tells (s.answers n) id = true

/-- Calls to the store may have been made. -/
structure Later (s s' : State) : Prop where
  answers : s'.answers = s.answers
  calls : s.calls ≤ s'.calls

/-- If the page is one of these, it is private to the writer or owned by it. -/
def Loose (s₀ : State) (R : Set PageId) (id : PageId) : Prop :=
  id ∈ R → s₀.Will Answer.isPrivate id ∨ s₀.Will Answer.ownedByWriter id

/-- What the journal of an operation guarantees: the pages the operation started from are all
there and can be put back as they were, and none was freed. Those recorded are private to the
writer, and those retired are private to it or owned by it. -/
structure Journaled (s₀ : State) (R : Set PageId) (s : State) : Prop where
  restores : ∀ id ∈ R, (s.journal.undo.lookup id).or (s.pages id) = s₀.pages id
  nodup : (s.journal.undo.map (·.1)).Nodup
  kept : ∀ id ∈ R, (s.pages id).isSome
  retired : ∀ id ∈ s.journal.retired, (s.pages id).isSome
  freed : s.freed = s₀.freed
  later : Later s₀ s
  inPlace : ∀ u ∈ s.journal.undo, s₀.Will Answer.isPrivate u.1
  loose : ∀ id ∈ s.journal.retired, Loose s₀ R id

/-- The pages hold what is said of them, are distinct and not retired. -/
structure Owned (C : Multiset (PageId × Page)) (s : State) : Prop where
  held : ∀ c ∈ C, (s.pages c.1).map Stored.page = some c.2
  nodup : (C.map (·.1)).Nodup
  live : ∀ c ∈ C, c.1 ∉ s.journal.retired

/-- The page may be written: it is new, or it has been recorded. -/
def Writable (R : Set PageId) (s : State) (id : PageId) : Prop :=
  id ∉ R ∨ id ∈ s.journal.undo.map (·.1)

structure Holding (s₀ : State) (R : Set PageId) (C : Multiset (PageId × Page)) (s : State) :
    Prop where
  journaled : Journaled s₀ R s
  owned : Owned C s

/-- The states differ in the number of calls at most. -/
structure Reads (s s' : State) : Prop where
  pages : s'.pages = s.pages
  journal : s'.journal = s.journal
  freed : s'.freed = s.freed
  strayed : s'.strayed = s.strayed
  later : Later s s'

/-- Pages may have changed, but nothing was recorded or retired. -/
structure Writes (s s' : State) : Prop where
  journal : s'.journal = s.journal
  strayed : s'.strayed = s.strayed

variable {E : State → Prop}

section

variable {s₀ s s' s'' : State} {R : Set PageId} {C D : Multiset (PageId × Page)} {id : PageId}
  {p p' : Page}

lemma Later.refl (s : State) : Later s s := ⟨rfl, le_rfl⟩

lemma Later.trans (h : Later s s') (h' : Later s' s'') : Later s s'' :=
  ⟨h'.answers.trans h.answers, h.calls.trans h'.calls⟩

lemma Later.will {tells : Answer → PageId → Bool} (h : Later s s') (hid : s'.Will tells id) :
    s.Will tells id := by
  obtain ⟨n, hn, htells⟩ := hid
  exact ⟨n, h.calls.trans hn, h.answers ▸ htells⟩

lemma Later.call (s : State) : Later s { s with calls := s.calls + 1 } := ⟨rfl, Nat.le_succ _⟩

lemma Reads.refl (s : State) : Reads s s := ⟨rfl, rfl, rfl, rfl, .refl s⟩

lemma Reads.trans (h : Reads s s') (h' : Reads s' s'') : Reads s s'' :=
  ⟨h'.pages.trans h.pages, h'.journal.trans h.journal, h'.freed.trans h.freed,
    h'.strayed.trans h.strayed, h.later.trans h'.later⟩

lemma Reads.writes (h : Reads s s') : Writes s s' := ⟨h.journal, h.strayed⟩

lemma Writes.refl (s : State) : Writes s s := ⟨rfl, rfl⟩

lemma Writes.trans (h : Writes s s') (h' : Writes s' s'') : Writes s s'' :=
  ⟨h'.journal.trans h.journal, h'.strayed.trans h.strayed⟩

lemma Journaled.reads (h : Journaled s₀ R s) (hs : Reads s s') : Journaled s₀ R s' where
  restores := hs.pages ▸ hs.journal ▸ h.restores
  nodup := hs.journal ▸ h.nodup
  kept := hs.pages ▸ h.kept
  retired := hs.pages ▸ hs.journal ▸ h.retired
  freed := hs.freed ▸ h.freed
  later := h.later.trans hs.later
  inPlace := hs.journal ▸ h.inPlace
  loose := hs.journal ▸ h.loose

lemma Owned.reads (h : Owned C s) (hs : Reads s s') : Owned C s' where
  held := hs.pages ▸ h.held
  nodup := h.nodup
  live := hs.journal ▸ h.live

lemma Holding.reads (h : Holding s₀ R C s) (hs : Reads s s') : Holding s₀ R C s' :=
  ⟨h.journaled.reads hs, h.owned.reads hs⟩

lemma Writable.writes (h : Writable R s id) (hs : Writes s s') : Writable R s' id := by
  rwa [Writable, hs.journal]

lemma Owned.mono (h : Owned C s) (hD : D ≤ C) : Owned D s where
  held c hc := h.held c (mem_of_le hD hc)
  nodup := nodup_of_le (map_le_map hD) h.nodup
  live c hc := h.live c (mem_of_le hD hc)

lemma Holding.mono (h : Holding s₀ R C s) (hD : D ≤ C) : Holding s₀ R D s :=
  ⟨h.journaled, h.owned.mono hD⟩

lemma Owned.isSome (h : Owned C s) {c : PageId × Page} (hc : c ∈ C) : (s.pages c.1).isSome := by
  have hheld := h.held c hc
  cases hp : s.pages c.1 with
  | none => simp [hp] at hheld
  | some f => rfl

lemma Owned.nodup_cons (h : Owned ({(id, p)} + C) s) :
    id ∉ C.map (·.1) ∧ (C.map (·.1)).Nodup := by
  have hnodup := h.nodup
  rwa [singleton_add, map_cons, Multiset.nodup_cons] at hnodup

/-! ## Calls -/

lemma call_answers (h : Journaled s₀ R s) :
    wp call (fun a s' => Reads s s' ∧ a = s.answers s.calls) (Journaled s₀ R) s := by
  have hreads : Reads s { s with calls := s.calls + 1 } := ⟨rfl, rfl, rfl, rfl, .call s⟩
  simp only [call, wp_bind, wp_get, wp_set]
  split
  · exact wp_throw.mpr (h.reads hreads)
  · exact wp_pure.mpr ⟨hreads, rfl⟩

lemma call_spec (h : Journaled s₀ R s) : wp call (fun _ s' => Reads s s') (Journaled s₀ R) s :=
  (call_answers h).mono fun _ _ hs => hs.1

lemma view_spec (h : Owned C s) (hc : (id, p) ∈ C) :
    wp (view id) (fun p' s' => p' = p ∧ s' = s) E s := by
  have hheld := h.held _ hc
  simp only [view, wp_bind, wp_get]
  cases hp : s.pages id with
  | none => simp [hp] at hheld
  | some f => exact ⟨by simpa [hp] using hheld, rfl⟩

lemma readPage_spec (h : Holding s₀ R C s) (hc : (id, p) ∈ C) :
    wp (readPage id) (fun p' s' => p' = p ∧ Reads s s') (Journaled s₀ R) s := by
  refine (call_spec h.journaled).bind fun _ s' hs => ?_
  refine (view_spec (h.owned.reads hs) hc).mono ?_
  rintro p' s'' ⟨rfl, rfl⟩
  exact ⟨rfl, hs⟩

lemma arenaFor_spec (h : Journaled s₀ R s) :
    wp arenaFor (fun _ s' => Reads s s') (Journaled s₀ R) s :=
  (call_spec h).bind fun _ _ hs => wp_pure.mpr hs

/-! ## New pages and writes -/

/-- A page that is not in use can be taken. -/
lemma Holding.take (h : Holding s₀ R C s) (hid : s.pages id = none) {f : Stored}
    (hp : s'.pages = update s.pages id (some f)) (hj : s'.journal = s.journal)
    (hf : s'.freed = s.freed) (hl : Later s s') : Holding s₀ R ({(id, f.page)} + C) s' := by
  have hne : ∀ id', (s.pages id').isSome → id' ≠ id := by
    rintro id' hsome rfl
    simp [hid] at hsome
  have hupdate : ∀ id', (s.pages id').isSome → s'.pages id' = s.pages id' := fun id' hsome => by
    rw [hp, update_of_ne (hne id' hsome)]
  refine ⟨⟨fun id' hR => ?_, hj ▸ h.journaled.nodup, fun id' hR => ?_, fun id' hr => ?_,
    hf ▸ h.journaled.freed, h.journaled.later.trans hl, hj ▸ h.journaled.inPlace,
    hj ▸ h.journaled.loose⟩, ⟨fun c hc => ?_, ?_, fun c hc => ?_⟩⟩
  · rw [hupdate id' (h.journaled.kept id' hR), hj]
    exact h.journaled.restores id' hR
  · rw [hupdate id' (h.journaled.kept id' hR)]
    exact h.journaled.kept id' hR
  · rw [hj] at hr
    rw [hupdate id' (h.journaled.retired id' hr)]
    exact h.journaled.retired id' hr
  · rcases mem_add.mp hc with hc | hc
    · rw [mem_singleton.mp hc, hp]
      simp
    · rw [hupdate c.1 (h.owned.isSome hc)]
      exact h.owned.held c hc
  · rw [singleton_add, map_cons, nodup_cons]
    refine ⟨fun hmem => ?_, h.owned.nodup⟩
    obtain ⟨c, hc, hcid⟩ := mem_map.mp hmem
    exact hne c.1 (h.owned.isSome hc) hcid
  · rw [hj]
    rcases mem_add.mp hc with hc | hc
    · rw [mem_singleton.mp hc]
      exact fun hr => hne id (h.journaled.retired id hr) rfl
    · exact h.owned.live c hc

lemma Journaled.notMem (h : Journaled s₀ R s) (hid : s.pages id = none) : id ∉ R := fun hR => by
  simpa [hid] using h.kept id hR

lemma allocInArena_spec (h : Holding s₀ R C s) :
    wp (allocInArena p) (fun id s' => Holding s₀ R ({(id, p)} + C) s' ∧ Writes s s' ∧ id ∉ R)
      (Journaled s₀ R) s := by
  refine (call_spec h.journaled).bind fun a s' hs => ?_
  have h' := h.reads hs
  simp only [wp_bind, wp_get]
  split
  · exact wp_throw.mpr h'.journaled
  · next hnone =>
    have hid : s'.pages a.fresh = none := by simpa using hnone
    refine wp_bind.mpr (wp_set.mpr (wp_pure.mpr ⟨?_, ⟨hs.journal, hs.strayed⟩,
      h'.journaled.notMem hid⟩))
    exact h'.take hid (f := ⟨p, 0⟩) rfl rfl rfl ⟨rfl, le_rfl⟩

lemma allocFor_spec (h : Holding s₀ R C s) :
    wp (allocFor p) (fun id s' => Holding s₀ R ({(id, p)} + C) s' ∧ Writes s s' ∧ id ∉ R)
      (Journaled s₀ R) s := by
  refine (arenaFor_spec h.journaled).bind fun _ s' hs => ?_
  refine (allocInArena_spec (h.reads hs)).mono ?_
  rintro id s'' ⟨h', hw, hid⟩
  exact ⟨h', hs.writes.trans hw, hid⟩

lemma lookup_isSome {l : List (PageId × Stored)} (h : id ∈ l.map (·.1)) :
    (l.lookup id).isSome := by
  induction l with
  | nil => cases h
  | cons u l ih =>
    rw [List.lookup_cons]
    split
    · rfl
    · next hne =>
      rcases List.mem_cons.mp h with rfl | h
      · simp at hne
      · exact ih h

/-- A page that may be written comes to hold something else. -/
lemma Holding.put (h : Holding s₀ R ({(id, p)} + C) s) (hid : Writable R s id)
    (hp : s'.pages = update s.pages id ((s.pages id).map (·.write p')))
    (hj : s'.journal = s.journal) (hf : s'.freed = s.freed) (hl : Later s s') :
    Holding s₀ R ({(id, p')} + C) s' := by
  have hmem : (id, p) ∈ {(id, p)} + C := by simp
  obtain ⟨f, hstored⟩ := isSome_iff_exists.mp (h.owned.isSome hmem)
  obtain ⟨hnotMem, hnodup⟩ := h.owned.nodup_cons
  have hother : ∀ id', id' ≠ id → s'.pages id' = s.pages id' := fun id' hne => by
    rw [hp, update_of_ne hne]
  have hself : s'.pages id = some (f.write p') := by rw [hp, update_self, hstored]; rfl
  have hsome : ∀ id', (s.pages id').isSome → (s'.pages id').isSome := by
    intro id' hid'
    rcases eq_or_ne id' id with rfl | hne
    · rw [hself]
      rfl
    · rwa [hother id' hne]
  have hne : ∀ c ∈ C, c.1 ≠ id := fun c hc heq =>
    hnotMem (mem_map.mpr ⟨c, hc, heq⟩)
  refine ⟨⟨fun id' hR => ?_, hj ▸ h.journaled.nodup, fun id' hR => ?_, fun id' hr => ?_,
    hf ▸ h.journaled.freed, h.journaled.later.trans hl, hj ▸ h.journaled.inPlace,
    hj ▸ h.journaled.loose⟩, ⟨fun c hc => ?_, ?_, fun c hc => ?_⟩⟩
  · have hrestores := h.journaled.restores id' hR
    rw [hj]
    rcases eq_or_ne id' id with rfl | hne
    · obtain ⟨u, hu⟩ := isSome_iff_exists.mp
        (lookup_isSome (hid.resolve_left (not_not_intro hR)))
      simpa [hu] using hrestores
    · rwa [hother id' hne]
  · exact hsome id' (h.journaled.kept id' hR)
  · exact hsome id' (h.journaled.retired id' (hj ▸ hr))
  · rcases mem_add.mp hc with hc | hc
    · rw [mem_singleton.mp hc, hself]
      rfl
    · rw [hother c.1 (hne c hc)]
      exact h.owned.held c (mem_add.mpr (.inr hc))
  · rw [singleton_add, map_cons, nodup_cons]
    exact ⟨hnotMem, hnodup⟩
  · rw [hj]
    rcases mem_add.mp hc with hc | hc
    · rw [mem_singleton.mp hc]
      exact h.owned.live (id, p) hmem
    · exact h.owned.live c (mem_add.mpr (.inr hc))

lemma write_spec (h : Holding s₀ R ({(id, p)} + C) s) (hid : Writable R s id) :
    wp (write id p') (fun _ s' => Holding s₀ R ({(id, p')} + C) s' ∧ Writes s s') E s :=
  wp_modify.mpr ⟨h.put hid rfl rfl rfl ⟨rfl, le_rfl⟩, ⟨rfl, rfl⟩⟩

/-! ## The journal -/

/-- A page that may be written may also be retired. -/
lemma Journaled.loose_of_writable (h : Journaled s₀ R s) (hw : Writable R s id) :
    Loose s₀ R id := by
  intro hR
  obtain ⟨u, hu, rfl⟩ := List.mem_map.mp (hw.resolve_left (not_not_intro hR))
  exact .inl (h.inPlace u hu)

lemma retire_spec (h : Holding s₀ R ({(id, p)} + C) s) (hid : Loose s₀ R id) :
    wp (retire id) (fun _ s' => Holding s₀ R C s' ∧ s'.strayed = s.strayed) E s := by
  have hmem : (id, p) ∈ {(id, p)} + C := by simp
  obtain ⟨hnotMem, hnodup⟩ := h.owned.nodup_cons
  refine wp_modify.mpr ⟨⟨⟨h.journaled.restores, h.journaled.nodup, h.journaled.kept,
    fun id' hr => ?_, h.journaled.freed, ⟨h.journaled.later.answers, h.journaled.later.calls⟩,
    h.journaled.inPlace, fun id' hr => ?_⟩, ⟨fun c hc => ?_, hnodup, fun c hc hr => ?_⟩⟩, rfl⟩
  · rcases List.mem_append.mp hr with hr | hr
    · exact h.journaled.retired id' hr
    · rw [List.mem_singleton.mp hr]
      exact h.owned.isSome hmem
  · rcases List.mem_append.mp hr with hr | hr
    · exact h.journaled.loose id' hr
    · rwa [List.mem_singleton.mp hr]
  · exact h.owned.held c (mem_add.mpr (.inr hc))
  · rcases List.mem_append.mp hr with hr | hr
    · exact h.owned.live c (mem_add.mpr (.inr hc)) hr
    · exact hnotMem (mem_map.mpr ⟨c, hc, List.mem_singleton.mp hr⟩)

/-- A page that was handed out to be written in place is recorded. -/
lemma record_spec {cp : CowPage} (h : Holding s₀ R ({(cp.pageId, p)} + C) s)
    (hcopied : cp.copied → cp.pageId ∉ R)
    (hprivate : cp.copied = false → s₀.Will Answer.isPrivate cp.pageId) : wp (record cp)
      (fun _ s' => Holding s₀ R ({(cp.pageId, p)} + C) s' ∧ s'.strayed = s.strayed ∧
        Writable R s' cp.pageId) (Journaled s₀ R) s := by
  have hmem : (cp.pageId, p) ∈ {(cp.pageId, p)} + C := by simp
  simp only [record, wp_bind, wp_get]
  split
  · next hdone =>
    refine wp_pure.mpr ⟨h, rfl, ?_⟩
    rcases Bool.or_eq_true_iff.mp hdone with hc | hu
    · exact .inl (hcopied hc)
    · obtain ⟨u, hu, heq⟩ := List.any_eq_true.mp hu
      exact .inr (List.mem_map.mpr ⟨u, hu, by simpa using heq⟩)
  · next hnot =>
    have hfresh : cp.pageId ∉ s.journal.undo.map (·.1) := by
      intro hin
      obtain ⟨u, hu, heq⟩ := List.mem_map.mp hin
      simp only [Bool.or_eq_true, List.any_eq_true, not_or, not_exists, not_and] at hnot
      exact hnot.2 u hu (by simpa using heq)
    refine (call_spec h.journaled).bind fun _ s' hs => wp_modify.mpr ?_
    have h' := h.reads hs
    obtain ⟨f, hf⟩ := isSome_iff_exists.mp (h'.owned.isSome hmem)
    rw [← hs.journal] at hfresh
    simp only [hf]
    refine ⟨⟨⟨fun id hR => ?_, ?_, h'.journaled.kept, h'.journaled.retired, h'.journaled.freed,
      ⟨h'.journaled.later.answers, h'.journaled.later.calls⟩, fun u hu => ?_, h'.journaled.loose⟩,
      ⟨h'.owned.held, h'.owned.nodup, h'.owned.live⟩⟩, hs.strayed, .inr (by simp)⟩
    · have hrestores := h'.journaled.restores id hR
      rw [List.lookup_append]
      rcases eq_or_ne id cp.pageId with rfl | hne
      · simpa [hf] using hrestores
      · have hlast : [(cp.pageId, f)].lookup id = none := by
          rw [List.lookup_cons, beq_false_of_ne hne, List.lookup_nil]
        rwa [hlast, or_none]
    · rw [List.map_append, List.nodup_append]
      refine ⟨h'.journaled.nodup, by simp, ?_⟩
      rintro a ha b hb rfl
      exact hfresh (by simpa [List.mem_singleton.mp hb] using ha)
    · rcases List.mem_append.mp hu with hu | hu
      · exact h'.journaled.inPlace u hu
      · rw [List.mem_singleton.mp hu]
        rw [Bool.or_eq_true, not_or] at hnot
        exact hprivate (Bool.eq_false_iff.mpr hnot.1)

lemma cowPage_spec (h : Holding s₀ R ({(id, p)} + C) s) : wp (cowPage id)
      (fun cp s' => Reads s s' ∧ cp = ⟨id, id, false, false⟩ ∧ s₀.Will Answer.isPrivate id ∨
        cp.previousPageId = id ∧ cp.copied ∧ cp.pageId ∉ R ∧ Writes s s' ∧
          (cp.retirePrevious = true → s₀.Will Answer.ownedByWriter id) ∧
          Holding s₀ R ({(cp.pageId, p)} + ({(id, p)} + C)) s') (Journaled s₀ R) s := by
  refine (call_answers h.journaled).bind ?_
  rintro a s' ⟨hs, rfl⟩
  have h' := h.reads hs
  have hwill {tells : Answer → PageId → Bool} (htells : tells (s.answers s.calls) id = true) :
      s₀.Will tells id := h.journaled.later.will ⟨s.calls, le_rfl, htells⟩
  refine (view_spec (p := p) h'.owned (by simp)).bind ?_
  rintro p' s₁ ⟨rfl, rfl⟩
  split
  · next hprivate => exact wp_pure.mpr (.inl ⟨hs, rfl, hwill hprivate⟩)
  · simp only [wp_bind, wp_get]
    split
    · exact wp_throw.mpr h'.journaled
    · next hnone =>
      have hid : s₁.pages (s.answers s.calls).fresh = none := by simpa using hnone
      refine wp_bind.mpr (wp_set.mpr (wp_pure.mpr (.inr ⟨rfl, rfl, h'.journaled.notMem hid,
        ⟨hs.journal, hs.strayed⟩, fun howned => hwill howned, ?_⟩)))
      exact h'.take hid (f := ⟨p', 0⟩) rfl rfl rfl ⟨rfl, le_rfl⟩

/-- A page handed out to be written holds what the page it stands for held. -/
lemma shadow_spec (h : Holding s₀ R ({(id, p)} + C) s) : wp (shadow id)
      (fun id' s' => Holding s₀ R ({(id', p)} + C) s' ∧ s'.strayed = s.strayed ∧
        Writable R s' id') (Journaled s₀ R) s := by
  refine (cowPage_spec h).bind ?_
  rintro cp s' (⟨hs, rfl, hprivate⟩ | ⟨hprev, hcopied, hnotMem, hs, howned, h'⟩)
  · refine (record_spec (h.reads hs) (by simp) fun _ => hprivate).bind ?_
    rintro _ s'' ⟨h'', hst, hw⟩
    exact wp_pure.mpr ⟨h'', hst.trans hs.strayed, hw⟩
  · have hcomm : ∀ c d : PageId × Page, {c} + ({d} + C) = {d} + ({c} + C) := fun c d =>
      add_left_comm _ _ _
    refine (record_spec h' (fun _ => hnotMem) (by simp [hcopied])).bind ?_
    rintro _ s'' ⟨h'', hst, hw⟩
    rw [hcomm] at h''
    split
    · next hretire =>
      rw [hprev]
      refine (retire_spec h'' fun _ => .inr (howned hretire)).bind ?_
      rintro _ s₃ ⟨h₃, hst'⟩
      exact wp_pure.mpr ⟨h₃, (hst'.trans hst).trans hs.strayed, .inl hnotMem⟩
    · exact wp_pure.mpr ⟨h''.mono (le_add_left _ _), hst.trans hs.strayed, hw⟩

end

end FerroDb.Cow
