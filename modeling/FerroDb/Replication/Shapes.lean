import FerroDb.Library.OrderedSet
import FerroDb.Replication.Logical

/-!
# The mapping is a property of the log

A decoder keeps the shapes it has met, without repeats, and fills in what it has not read. Its
history is therefore the schema records of the log up to a point, less some that changed nothing
where they stand, and the mapping it starts a range with is the one in force there.

## Main definitions

* `shapesIn` — the shapes the schema records of a list put into force.
* `Thins` — a list of shapes less some that change nothing.
* `Covers` — the history of a decoder agrees with the log up to what it covers.
-/

namespace FerroDb.Replication

open Library Wal List Function Mapping Except

/-- The shape a record puts into force. -/
def shapeOf (r : LogRecord) : Option ShapeAt :=
  match r.kind with
  | .ddl op table dirRoot timeTravelRoot columns =>
    (shapeOfDdl r.lsn op table dirRoot timeTravelRoot columns).toOption
  | _ => none

def shapesIn (rs : List LogRecord) : List ShapeAt := rs.filterMap shapeOf

/-- The mapping after the shapes, and after the records. -/
def Mapping.afterShapes (m : Mapping) (shapes : List ShapeAt) : Mapping :=
  shapes.foldl applyShape m

def Mapping.after (m : Mapping) (rs : List LogRecord) : Mapping := m.afterShapes (shapesIn rs)

section

variable {r : LogRecord} {rs xs ys : List LogRecord} {s : ShapeAt} {shapes found : List ShapeAt}
  {m : Mapping} {start stop : ℕ}

lemma shapeOfDdl_lsn {op : DdlOp} {table : String} {lsn dirRoot timeTravelRoot : ℕ}
    {columns : List Column}
    (h : shapeOfDdl lsn op table dirRoot timeTravelRoot columns = .ok s) : s.lsn = lsn := by
  unfold shapeOfDdl at h
  cases op with
  | createTable | dropTable =>
    obtain rfl := ok.inj h
    rfl
  | alterColumn alt =>
    dsimp only at h
    split at h
    · obtain rfl := ok.inj h
      rfl
    · cases h

lemma shapeOf_lsn (h : shapeOf r = some s) : s.lsn = r.lsn := by
  unfold shapeOf at h
  split at h
  · rename_i op table dirRoot timeTravelRoot columns hkind
    cases hd : shapeOfDdl r.lsn op table dirRoot timeTravelRoot columns with
    | error e =>
      rw [hd] at h
      cases h
    | ok s' =>
      rw [hd] at h
      obtain rfl := Option.some.inj h
      exact shapeOfDdl_lsn hd
  · cases h

@[simp] lemma shapesIn_append : shapesIn (xs ++ ys) = shapesIn xs ++ shapesIn ys :=
  filterMap_append

lemma Mapping.after_append : m.after (xs ++ ys) = (m.after xs).after ys := by
  rw [Mapping.after, shapesIn_append, afterShapes, foldl_append]
  rfl

lemma mem_shapesIn : s ∈ shapesIn rs ↔ ∃ r ∈ rs, shapeOf r = some s := mem_filterMap

lemma shapesIn_filter {P : ℕ → Bool} :
    shapesIn (rs.filter fun r => P r.lsn) = (shapesIn rs).filter fun s => P s.lsn := by
  induction rs with
  | nil => rfl
  | cons r rs ih =>
    rw [shapesIn] at ih
    cases hs : shapeOf r with
    | none => cases hP : P r.lsn <;> simp [shapesIn, hs, hP, ih]
    | some s =>
      have hlsn := shapeOf_lsn hs
      cases hP : P r.lsn <;> simp [shapesIn, hs, hP, hlsn, ih]

lemma shapesIn_ascending (h : Framed start rs stop) : (shapesIn rs).Pairwise (·.lsn < ·.lsn) := by
  rw [shapesIn, pairwise_filterMap]
  refine h.ascending.imp fun {a b} hab s hs s' hs' => ?_
  rw [shapeOf_lsn hs, shapeOf_lsn hs']
  exact hab

/-- Scanning records collects the shapes they put into force. -/
lemma scan_eq (h : rs.foldlM (fun shapes r => scanRecord r.lsn r shapes) shapes = .ok found) :
    found = shapes ++ shapesIn rs := by
  induction rs generalizing shapes with
  | nil =>
    obtain rfl := ok.inj h
    simp [shapesIn]
  | cons r rs ih =>
    rw [foldlM_cons] at h
    obtain ⟨mid, hmid, h⟩ := bind_ok.mp h
    have hstep : mid = shapes ++ shapesIn [r] := by
      unfold scanRecord at hmid
      split at hmid
      · rename_i hkind
        obtain ⟨s, hs, hmid⟩ := bind_ok.mp hmid
        obtain rfl := Except.ok.inj hmid
        simp [shapesIn, shapeOf, hkind, hs, Except.toOption]
      · rename_i hkind
        obtain rfl := Except.ok.inj hmid
        have : shapeOf r = none := by
          unfold shapeOf
          split
          · rename_i hk
            exact absurd hk (hkind _ _ _ _ _)
          · rfl
        simp [shapesIn, this]
    rw [ih h, hstep, append_assoc, ← shapesIn_append]
    rfl

end

/-! ## Leaving out repeats -/

/-- The second list is the first one less some shapes that change nothing where they stand. -/
inductive Thins : Mapping → List ShapeAt → List ShapeAt → Prop
  | nil (m : Mapping) : Thins m [] []
  | keep {m : Mapping} {s : ShapeAt} {l k : List ShapeAt} (h : Thins (m.applyShape s) l k) :
    Thins m (s :: l) (s :: k)
  | drop {m : Mapping} {s : ShapeAt} {l k : List ShapeAt} (hs : m.applyShape s = m)
    (h : Thins m l k) : Thins m (s :: l) k

namespace Thins

variable {m : Mapping} {l k l' k' j : List ShapeAt} {q : ℕ}

lemma refl (m : Mapping) (l : List ShapeAt) : Thins m l l := by
  induction l generalizing m with
  | nil => exact .nil m
  | cons s l ih => exact .keep (ih _)

lemma afterShapes_eq (h : Thins m l k) : m.afterShapes k = m.afterShapes l := by
  induction h with
  | nil => rfl
  | keep h ih => exact ih
  | drop hs h ih =>
    rw [ih]
    simp [afterShapes, hs]

lemma sublist (h : Thins m l k) : k.Sublist l := by
  induction h with
  | nil => exact Sublist.slnil
  | keep h ih => exact ih.cons_cons _
  | drop hs h ih => exact ih.cons _

lemma trans (h : Thins m l k) (h' : Thins m k j) : Thins m l j := by
  induction h generalizing j with
  | nil => exact h'
  | keep h ih =>
    cases h' with
    | keep h' => exact .keep (ih h')
    | drop hs h' =>
      refine .drop hs ?_
      rw [hs] at ih
      exact ih h'
  | drop hs h ih => exact .drop hs (ih h')

lemma append (h : Thins m l k) (h' : Thins (m.afterShapes l) l' k') :
    Thins m (l ++ l') (k ++ k') := by
  induction h with
  | nil => exact h'
  | keep h ih => exact .keep (ih h')
  | drop hs h ih =>
    refine .drop hs (ih ?_)
    simpa [afterShapes, hs] using h'

/-- Up to a point of the log. -/
lemma filter_lt (h : Thins m l k) (hl : l.Pairwise (·.lsn < ·.lsn)) :
    Thins m (l.filter (·.lsn < q)) (k.filter (·.lsn < q)) := by
  induction h with
  | nil => exact .nil _
  | @keep m s l k h ih =>
    obtain ⟨hs, hl⟩ := pairwise_cons.mp hl
    by_cases hq : s.lsn < q
    · simpa [hq] using Thins.keep (ih hl)
    · have hnil : ∀ {j : List ShapeAt}, j ⊆ l → j.filter (·.lsn < q) = [] := fun hj =>
        filter_eq_nil_iff.mpr fun x hx => by
          have := hs x (hj hx)
          simp only [decide_eq_true_eq]
          omega
      rw [filter_cons_of_neg (by simpa using hq), filter_cons_of_neg (by simpa using hq),
        hnil (Subset.refl l), hnil h.sublist.subset]
      exact .nil _
  | @drop m s l k hs h ih =>
    obtain ⟨-, hl⟩ := pairwise_cons.mp hl
    by_cases hq : s.lsn < q
    · simpa [hq] using Thins.drop hs (ih hl)
    · simpa [hq] using ih hl

/-- Shapes that were left out may come back. -/
lemma add (h : Thins m l k) (hl : l.Nodup) (P : ShapeAt → Bool) :
    Thins m l (l.filter fun s => decide (s ∈ k) || P s) := by
  induction h with
  | nil => exact .nil _
  | @keep m s l k h ih =>
    obtain ⟨hs, hl⟩ := nodup_cons.mp hl
    have hsame : l.filter (fun x => decide (x ∈ s :: k) || P x) =
        l.filter fun x => decide (x ∈ k) || P x := by
      refine filter_congr fun x hx => ?_
      have hne : x ≠ s := fun h => hs (h ▸ hx)
      simp [hne]
    rw [filter_cons_of_pos (by simp), hsame]
    exact .keep (ih hl)
  | @drop m s l k hs h ih =>
    obtain ⟨-, hl⟩ := nodup_cons.mp hl
    by_cases hkeep : s ∈ k ∨ P s
    · rw [filter_cons_of_pos (by simpa using hkeep)]
      refine .keep ?_
      rw [hs]
      exact ih hl
    · rw [filter_cons_of_neg (by simpa using hkeep)]
      exact .drop hs (ih hl)

end Thins

lemma Mapping.ext {m m' : Mapping} (ht : m.tables = m'.tables)
    (htt : m.timeTravel = m'.timeTravel) : m = m' := by
  cases m
  cases ht
  cases htt
  rfl

variable {m : Mapping} {newest : ℕ → Option ShapeAt} {s : ShapeAt} {l : List ShapeAt}

/-- A shape that repeats the one in force changes nothing. -/
lemma Mapping.applyShape_eq_self (ht : m.tables s.dirRoot = s.entry)
    (htt : ∀ root, s.timeTravelRoot = some root → m.timeTravel root = true) :
    m.applyShape s = m := by
  refine Mapping.ext ?_ ?_
  · rw [applyShape, ← ht, update_eq_self]
  · unfold applyShape
    cases hroot : s.timeTravelRoot with
    | none => rfl
    | some root =>
      dsimp only
      rw [← htt root hroot, update_eq_self]

lemma Mapping.timeTravel_applyShape {root : ℕ}
    (h : m.timeTravel root = true) : (m.applyShape s).timeTravel root = true := by
  unfold applyShape
  cases s.timeTravelRoot with
  | none => exact h
  | some r => simp [update_apply, h]

/-- The newest shapes are the ones in force. -/
def InForce (m : Mapping) (newest : ℕ → Option ShapeAt) : Prop :=
  ∀ dirRoot p, newest dirRoot = some p →
    m.tables dirRoot = p.entry ∧ ∀ root, p.timeTravelRoot = some root → m.timeTravel root = true

lemma InForce.apply (h : InForce m newest)
    (s : ShapeAt) : InForce (m.applyShape s) (Function.update newest s.dirRoot (some s)) := by
  intro dirRoot p hp
  by_cases hroot : dirRoot = s.dirRoot
  · subst hroot
    rw [update_self] at hp
    obtain rfl := Option.some.inj hp
    refine ⟨by simp [applyShape], fun root hr => ?_⟩
    simp [applyShape, hr]
  · rw [update_of_ne hroot] at hp
    obtain ⟨ht, htt⟩ := h dirRoot p hp
    refine ⟨?_, fun root hr => timeTravel_applyShape (htt root hr)⟩
    exact (update_of_ne hroot _ _).trans ht

lemma thins_collapseFrom (h : InForce m newest) : Thins m l (collapseFrom newest l) := by
  fun_induction collapseFrom newest l generalizing m with
  | case1 newest => exact .nil m
  | case2 newest s l hsame ih =>
    cases hp : newest s.dirRoot with
    | none => simp [hp] at hsame
    | some p =>
      obtain ⟨ht, htt⟩ := h _ _ hp
      have hsame : p.entry = s.entry ∧ p.timeTravelRoot = s.timeTravelRoot := by
        simpa [hp, ShapeAt.sameAs] using hsame
      refine .drop (applyShape_eq_self (ht.trans hsame.1) fun root hr => ?_) (ih h)
      exact htt root (hsame.2.trans hr)
  | case3 newest s l hsame ih => exact .keep (ih (h.apply s))

lemma thins_collapseRepeats : Thins m l (collapseRepeats l) :=
  thins_collapseFrom fun _ _ h => by cases h

/-! ## Merging what was learned -/

section

variable {all shapes incoming : List ShapeAt} {shape : ShapeAt}

section

variable (hall : all.Pairwise (·.lsn < ·.lsn))
include hall

/-- Shapes of one log are told apart by their LSN. -/
lemma lsn_inj {s' : ShapeAt} (hs : s ∈ all) (hs' : s' ∈ all) (h : s.lsn = s'.lsn) : s = s' :=
  inj_on_of_nodup_map ((pairwise_map.mpr hall).imp fun h => h.ne) hs hs' h

lemma replaceShape_eq (hshapes : shapes ⊆ all) (hshape : shape ∈ all) :
    replaceShape shape shapes = if shape ∈ shapes then shapes else shapes ++ [shape] := by
  fun_induction replaceShape shape shapes with
  | case1 => rfl
  | case2 s shapes h =>
    have hs : s = shape := lsn_inj hall (hshapes mem_cons_self) hshape h.1
    simp [hs]
  | case3 s shapes h ih =>
    have hne : shape ≠ s := by
      rintro rfl
      exact h ⟨rfl, rfl⟩
    rw [ih fun x hx => hshapes (.tail _ hx)]
    by_cases hmem : shape ∈ shapes <;> simp [hmem, hne]

lemma foldl_replaceShape (hshapes : shapes ⊆ all)
    (hdist : shapes.Pairwise (·.lsn ≠ ·.lsn)) (hin : incoming ⊆ all) :
    (incoming.foldl (fun shapes shape => replaceShape shape shapes) shapes).Pairwise
        (·.lsn ≠ ·.lsn) ∧
      ∀ s, s ∈ incoming.foldl (fun shapes shape => replaceShape shape shapes) shapes ↔
        s ∈ shapes ∨ s ∈ incoming := by
  induction incoming generalizing shapes with
  | nil => exact ⟨hdist, fun s => by simp⟩
  | cons shape incoming ih =>
    have hshape := hin mem_cons_self
    rw [foldl_cons, replaceShape_eq hall hshapes hshape]
    have hin : incoming ⊆ all := fun x hx => hin (.tail _ hx)
    by_cases hmem : shape ∈ shapes
    · rw [if_pos hmem]
      obtain ⟨h₁, h₂⟩ := ih hshapes hdist hin
      refine ⟨h₁, fun s => ?_⟩
      rw [h₂, mem_cons]
      constructor
      · rintro (h | h)
        · exact .inl h
        · exact .inr (.inr h)
      · rintro (h | rfl | h)
        · exact .inl h
        · exact .inl hmem
        · exact .inr h
    · rw [if_neg hmem]
      have hdist' : (shapes ++ [shape]).Pairwise (·.lsn ≠ ·.lsn) := by
        refine pairwise_append.mpr ⟨hdist, pairwise_singleton _ _, ?_⟩
        rintro a ha b hb heq
        obtain rfl := mem_singleton.mp hb
        exact hmem (lsn_inj hall (hshapes ha) hshape heq ▸ ha)
      obtain ⟨h₁, h₂⟩ := ih (append_subset.mpr ⟨hshapes, by simpa using hshape⟩) hdist' hin
      refine ⟨h₁, fun s => ?_⟩
      rw [h₂, mem_append, mem_singleton, mem_cons, or_assoc]

/-- Before the repeats go, merging puts together what both know. -/
lemma merged_eq (hshapes : shapes ⊆ all)
    (hdist : shapes.Pairwise (·.lsn ≠ ·.lsn)) (hin : incoming ⊆ all) :
    (incoming.foldl (fun shapes shape => replaceShape shape shapes) shapes).insertionSort
        (fun a b => a.lsn ≤ b.lsn) =
      all.filter fun s => decide (s ∈ shapes) || decide (s ∈ incoming) := by
  obtain ⟨h₁, h₂⟩ := foldl_replaceShape hall hshapes hdist hin
  refine eq_of_sortedBy (f := ShapeAt.lsn) (sortedBy_insertionSort h₁)
    (hall.sublist filter_sublist) fun s => ?_
  rw [(perm_insertionSort _ _).mem_iff, h₂, mem_filter]
  constructor
  · rintro (h | h)
    · exact ⟨hshapes h, by simp [h]⟩
    · exact ⟨hin h, by simp [h]⟩
  · rintro ⟨-, h⟩
    simpa using h

end

end

/-! ## The history of a decoder -/

/-- The history holds the log's shapes below `covered`, less some that change nothing. -/
def Covers (m : Mapping) (all shapes : List ShapeAt) (covered : ℕ) : Prop :=
  Thins m (all.filter (·.lsn < covered)) shapes

namespace Covers

variable {m : Mapping} {all shapes incoming : List ShapeAt} {covered fromLsn toLsn : ℕ}

lemma sublist (h : Covers m all shapes covered) : shapes.Sublist all :=
  (Thins.sublist h).trans filter_sublist

/-- What the history says of a point it covers is what the log says. -/
lemma seed_eq (h : Covers m all shapes covered) (hall : all.Pairwise (·.lsn < ·.lsn))
    (hle : fromLsn ≤ covered) : m.afterShapes (shapes.filter (·.lsn < fromLsn)) =
      m.afterShapes (all.filter (·.lsn < fromLsn)) := by
  have hsame : (all.filter (·.lsn < covered)).filter (·.lsn < fromLsn) =
      all.filter (·.lsn < fromLsn) := by
    rw [filter_filter]
    refine filter_congr fun s _ => ?_
    by_cases hs : s.lsn < fromLsn
    · simp [hs.trans_le hle]
    · simp [hs]
  rw [← hsame]
  exact (h.filter_lt (hall.sublist filter_sublist)).afterShapes_eq

/-- The log's shapes below the later of two points: those below the first, and the others. -/
lemma filter_lt_max (hall : all.Pairwise (·.lsn < ·.lsn)) :
    all.filter (·.lsn < max covered toLsn) = all.filter (·.lsn < covered) ++
      all.filter fun s => decide (covered ≤ s.lsn) && decide (s.lsn < toLsn) := by
  refine eq_of_sortedBy (f := ShapeAt.lsn) (hall.sublist filter_sublist) ?_ fun s => ?_
  · refine pairwise_append.mpr ⟨hall.sublist filter_sublist,
      hall.sublist filter_sublist, fun a ha b hb => ?_⟩
    have h₁ : a.lsn < covered := by simpa using (mem_filter.mp ha).2
    have h₂ : covered ≤ b.lsn ∧ b.lsn < toLsn := by simpa using (mem_filter.mp hb).2
    omega
  · simp only [mem_append, mem_filter, decide_eq_true_eq, Bool.and_eq_true, lt_max_iff]
    constructor
    · rintro ⟨hs, hlt⟩
      by_cases hc : s.lsn < covered
      · exact .inl ⟨hs, hc⟩
      · exact .inr ⟨hs, by omega, by omega⟩
    · rintro (⟨hs, hlt⟩ | ⟨hs, -, hlt⟩)
      · exact ⟨hs, .inl hlt⟩
      · exact ⟨hs, .inr hlt⟩

/-- A range that was walked from a covered point on adds to the history. -/
lemma merge (h : Covers m all shapes covered) (hall : all.Pairwise (·.lsn < ·.lsn))
    (hle : fromLsn ≤ covered)
    (hin : incoming = all.filter fun s => decide (fromLsn ≤ s.lsn) && decide (s.lsn < toLsn)) :
    Covers m all (mergeShapes shapes incoming) (max covered toLsn) := by
  have hmem : ∀ s, s ∈ incoming ↔ s ∈ all ∧ fromLsn ≤ s.lsn ∧ s.lsn < toLsn := by
    intro s
    simp [hin]
  have hold : ∀ s ∈ shapes, s.lsn < covered := fun s hs => by
    simpa using (mem_filter.mp ((Thins.sublist h).subset hs)).2
  rw [Covers, filter_lt_max hall]
  set later := all.filter fun s => decide (covered ≤ s.lsn) && decide (s.lsn < toLsn) with hlater
  have hnew : ∀ s ∈ later, s ∈ incoming := by
    intro s hs
    simp only [hlater, mem_filter, decide_eq_true_eq, Bool.and_eq_true] at hs
    exact (hmem s).mpr ⟨hs.1, hle.trans hs.2.1, hs.2.2⟩
  unfold mergeShapes
  by_cases hempty : incoming.isEmpty
  · have hnil : later = [] := by
      refine eq_nil_iff_forall_not_mem.mpr fun s hs => ?_
      have := hnew s hs
      rw [isEmpty_iff.mp hempty] at this
      exact absurd this not_mem_nil
    rw [if_pos hempty, hnil, append_nil]
    exact h
  · have hdist := (hall.imp fun h => h.ne).sublist h.sublist
    have hsub : incoming ⊆ all := fun s hs => ((hmem s).mp hs).1
    rw [if_neg hempty]
    dsimp only
    rw [merged_eq hall h.sublist.subset hdist hsub]
    refine Thins.trans ?_ thins_collapseRepeats
    -- Both lists, cut at what was covered before.
    have hknown : (all.filter fun s => decide (s ∈ shapes) || decide (s ∈ incoming)) =
        (all.filter (·.lsn < covered)).filter
          (fun s => decide (s ∈ shapes) || decide (s ∈ incoming)) ++ later := by
      have hself : later.filter (fun s => decide (s ∈ shapes) || decide (s ∈ incoming)) = later :=
        filter_eq_self.mpr fun s hs => by simp [hnew s hs]
      rw [← hself, ← filter_append, ← filter_lt_max hall, filter_filter]
      refine filter_congr fun s hs => ?_
      by_cases hshapes : s ∈ shapes
      · simp [hold s hshapes]
      · by_cases hi : s ∈ incoming
        · simp [((hmem s).mp hi).2.2]
        · simp [hshapes, hi]
    rw [hknown]
    exact (Thins.add h ((nodup_of_sortedBy hall).filter _) _).append (Thins.refl _ _)

/-- Later records do not disturb the history. -/
lemma grow {later : List ShapeAt} (h : Covers m all shapes covered)
    (hlater : ∀ s ∈ later, covered ≤ s.lsn) : Covers m (all ++ later) shapes covered := by
  have hnil : later.filter (·.lsn < covered) = [] :=
    filter_eq_nil_iff.mpr fun s hs => by simpa using hlater s hs
  rw [Covers, filter_append, hnil, append_nil]
  exact h

end Covers

variable {m : Mapping} {wal : WalManager} {h h' : Learned} {fromLsn toLsn : ℕ} {xs ys : List LogRecord}

lemma covers_new (m : Mapping) (all : List ShapeAt) : Covers m all [] 0 := by
  have : all.filter (·.lsn < 0) = [] := filter_eq_nil_iff.mpr fun s _ => by simp
  rw [Covers, this]
  exact .nil m

/-- The shapes of a range are those of the records of the range. -/
lemma shapesIn_range (hsound : wal.Sound) (hrec : wal.records = xs ++ ys)
    (hxs : Framed initialLsn xs fromLsn) : shapesIn (ys.filter (·.lsn < toLsn)) =
      (shapesIn wal.records).filter fun s => decide (fromLsn ≤ s.lsn) && decide (s.lsn < toLsn) := by
  have hframed := hsound.framed
  rw [hrec] at hframed
  obtain ⟨mid, hxs', hys⟩ := framed_append.mp hframed
  obtain rfl := hxs.stop_unique hxs'
  have hrange : ys.filter (·.lsn < toLsn) =
      wal.records.filter fun r => decide (fromLsn ≤ r.lsn) && decide (r.lsn < toLsn) := by
    have hnone : (xs.filter fun r => decide (fromLsn ≤ r.lsn) && decide (r.lsn < toLsn)) = [] :=
      filter_eq_nil_iff.mpr fun r hr => by
        have := hxs.lsn_lt hr
        simp only [Bool.and_eq_true, decide_eq_true_eq]
        omega
    rw [hrec, filter_append, hnone]
    refine filter_congr fun r hr => ?_
    simp [(hys.mem_bounds hr).1]
  rw [hrange]
  exact shapesIn_filter (P := fun l => decide (fromLsn ≤ l) && decide (l < toLsn))

/-- Nothing is forgotten of a log that was not cut. -/
lemma forgetTruncated_eq {shapes : List ShapeAt} {base : ℕ} (h : ∀ s ∈ shapes, base ≤ s.lsn) :
    forgetTruncated shapes base = shapes :=
  filter_eq_self.mpr fun s hs => by simp [(h s hs).not_gt]

lemma initialLsn_le_of_mem (hsound : wal.Sound)
    (hs : s ∈ shapesIn wal.records) : initialLsn ≤ s.lsn := by
  obtain ⟨r, hr, hshape⟩ := mem_shapesIn.mp hs
  rw [shapeOf_lsn hshape]
  exact (hsound.framed.mem_bounds hr).1

/-- Catching up keeps the agreement with the log, and reaches the point asked for. -/
lemma Learned.catchUp_covers (hsound : wal.Sound)
    (hcov : Covers m (shapesIn wal.records) h.shapes h.coveredThrough)
    (hfrom : fromLsn ≤ wal.nextLsn) {res : Except FerroError Unit}
    (heq : h.catchUp wal fromLsn = (res, h')) :
    Covers m (shapesIn wal.records) h'.shapes h'.coveredThrough ∧
      (res = .ok () → fromLsn ≤ h'.coveredThrough) ∧
      h'.coveredThrough ≤ max (max h.coveredThrough wal.baseLsn) fromLsn := by
  have hall := shapesIn_ascending hsound.framed
  have hbase : Covers m (shapesIn wal.records) h.shapes (max h.coveredThrough wal.baseLsn) := by
    have hnone : (shapesIn wal.records).filter (fun s =>
        decide (h.coveredThrough ≤ s.lsn) && decide (s.lsn < wal.baseLsn)) = [] :=
      filter_eq_nil_iff.mpr fun s hs => by
        have := initialLsn_le_of_mem hsound hs
        simp [WalManager.baseLsn, this.not_gt]
    rw [Covers, Covers.filter_lt_max hall, hnone, append_nil]
    exact hcov
  have hforget : forgetTruncated h.shapes wal.baseLsn = h.shapes :=
    forgetTruncated_eq fun s hs => initialLsn_le_of_mem hsound (hcov.sublist.subset hs)
  unfold Learned.catchUp at heq
  rw [hforget] at heq
  set covered := max h.coveredThrough wal.baseLsn
  by_cases hlt : covered < fromLsn
  · rw [if_pos hlt] at heq
    cases hscan : scanDdl wal covered fromLsn with
    | error e =>
      rw [hscan] at heq
      obtain ⟨rfl, rfl⟩ := Prod.mk.inj heq
      exact ⟨hbase, (fun h => by cases h), le_max_left _ _⟩
    | ok found =>
      rw [hscan] at heq
      obtain ⟨rfl, rfl⟩ := Prod.mk.inj heq
      refine ⟨?_, fun _ => le_rfl, le_max_right _ _⟩
      -- A scan that succeeds started where a record does.
      obtain ⟨r, hr, hlsn⟩ := WalManager.forRecords_starts hlt le_rfl hscan
      obtain ⟨before, after, hrec, hbefore, -⟩ := hsound.framed.split_at hr
      rw [hlsn] at hbefore
      rw [scanDdl, hsound.forRecords_eq hrec hbefore hfrom le_rfl] at hscan
      have hfound := scan_eq hscan
      rw [shapesIn_range hsound hrec hbefore] at hfound
      have := hbase.merge hall le_rfl hfound
      rwa [max_eq_right hlt.le] at this
  · rw [if_neg hlt] at heq
    obtain ⟨rfl, rfl⟩ := Prod.mk.inj heq
    exact ⟨hbase, fun _ => not_lt.mp hlt, le_max_left _ _⟩

/-- The mapping a range starts with is the one in force there. -/
lemma Learned.seed_eq (hsound : wal.Sound)
    (hcov : Covers m (shapesIn wal.records) h.shapes h.coveredThrough)
    (hle : fromLsn ≤ h.coveredThrough) (hrec : wal.records = xs ++ ys)
    (hxs : Framed initialLsn xs fromLsn) : h.seed m fromLsn = m.after xs := by
  have hframed := hsound.framed
  rw [hrec] at hframed
  obtain ⟨mid, hxs', hys⟩ := framed_append.mp hframed
  obtain rfl := hxs.stop_unique hxs'
  have := hcov.seed_eq (shapesIn_ascending hsound.framed) hle
  rw [Learned.seed, ← afterShapes, this, Mapping.after,
    ← shapesIn_filter (P := fun l => decide (l < fromLsn)), hrec, hxs.filter_lt hys]

end FerroDb.Replication
