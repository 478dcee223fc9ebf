import FerroDb.Cow.Contents

/-!
# The leaves follow from the rows

Rows are cut into runs after every boundary. As long as every run fits in a page, the leaves of a
tree are the runs of its rows, in whatever order the rows came and went, provided that no merge
goes astray.
-/

namespace FerroDb.Cow

open List hiding after

open Library SepTree M CowTree

variable {es rows r : Rows} {ls B : List Rows} {e : Key × Value} {T T' : Tree} {key : Key}
  {value : Value} {rs : List Rows} {A : List Rows} {xs ys : Rows}

/-! ## Runs -/

/-- Rows cut after every boundary but the last row. -/
def runs : Rows → List Rows
  | [] => [[]]
  | [e] => [[e]]
  | e :: e' :: es =>
    if isBoundary e.1 e.2 then [e] :: runs (e' :: es)
    else
      match runs (e' :: es) with
      | [] => [[e]]
      | r :: rs => (e :: r) :: rs

/-- Every run of the rows fits in a page. -/
def Fit (rows : Rows) : Prop := ∀ r ∈ runs rows, leafBytes r ≤ nodeCapacity

instance (rows : Rows) : Decidable (Fit rows) := inferInstanceAs (Decidable (∀ r ∈ _, _))

/-- Rows of which only the last may be a boundary. -/
structure IsRun (es : Rows) : Prop where
  ne_nil : es ≠ []
  inner : ∀ e ∈ es.dropLast, isBoundary e.1 e.2 = false

/-- The last row is a boundary. -/
def Ended (es : Rows) : Prop := ∃ e, es.getLast? = some e ∧ isBoundary e.1 e.2 = true

/-- Leaves that are the runs of their rows: all but the last have ended. -/
structure Cut (ls : List Rows) : Prop where
  run : ∀ es ∈ ls, IsRun es
  ended : ∀ es ∈ ls.dropLast, Ended es

lemma unterminated_iff (hne : es ≠ []) : unterminated es = false ↔ Ended es := by
  obtain ⟨e, he⟩ := Option.isSome_iff_exists.mp (getLast?_isSome.mpr hne)
  simp [unterminated, Ended, he]

lemma runs_run (h : IsRun es) : runs es = [es] := by
  induction es with
  | nil => exact absurd rfl h.ne_nil
  | cons e es ih =>
    cases es with
    | nil => rfl
    | cons e' es =>
      have hrest : IsRun (e' :: es) := ⟨by simp, fun x hx => h.inner x (by simp [hx])⟩
      rw [runs, h.inner e (by simp), ih hrest]
      rfl

lemma runs_append (h : IsRun xs) (he : Ended xs) (hy : ys ≠ []) :
    runs (xs ++ ys) = xs :: runs ys := by
  induction xs with
  | nil => exact absurd rfl h.ne_nil
  | cons x xs ih =>
    cases xs with
    | nil =>
      obtain ⟨e, hlast, hb⟩ := he
      obtain ⟨y, ys, rfl⟩ := exists_cons_of_ne_nil hy
      obtain rfl : x = e := by simpa using hlast
      rw [singleton_append, runs, if_pos hb]
    | cons x' xs =>
      have hrest : IsRun (x' :: xs) := ⟨by simp, fun e he => h.inner e (by simp [he])⟩
      have hended : Ended (x' :: xs) := by simpa [Ended] using he
      have hih := ih hrest hended
      rw [cons_append] at hih
      rw [cons_append, cons_append, runs, h.inner x (by simp), hih]
      rfl

/-- Leaves cut at the boundaries are the runs of their rows. -/
lemma Cut.eq_runs (h : Cut ls) (hne : ls ≠ []) : ls = runs ls.flatten := by
  induction ls with
  | nil => exact absurd rfl hne
  | cons es ls ih =>
    cases ls with
    | nil =>
      rw [flatten_cons, flatten_nil, append_nil,
        runs_run (h.run es mem_cons_self)]
    | cons es' ls =>
      have hrest : Cut (es' :: ls) :=
        ⟨fun x hx => h.run x (mem_cons_of_mem es hx), fun x hx => h.ended x (by simp [hx])⟩
      have hflat : (es' :: ls).flatten ≠ [] := by
        have := (h.run es' (by simp)).ne_nil
        simp [this]
      rw [flatten_cons, runs_append (h.run es mem_cons_self) (h.ended es (by simp)) hflat,
        ← ih hrest (by simp)]

lemma runs_ne_nil (rows : Rows) : runs rows ≠ [] := by
  fun_cases runs rows <;> simp

lemma runs_cons_of_not (hne : rows ≠ [])
    (hb : isBoundary e.1 e.2 = false) (hr : runs rows = r :: rs) :
    runs (e :: rows) = (e :: r) :: rs := by
  obtain ⟨e', es, rfl⟩ := exists_cons_of_ne_nil hne
  rw [runs, hb, hr]
  rfl

lemma runs_cons_of_boundary (hne : rows ≠ [])
    (hb : isBoundary e.1 e.2 = true) : runs (e :: rows) = [e] :: runs rows := by
  obtain ⟨e', es, rfl⟩ := exists_cons_of_ne_nil hne
  rw [runs, if_pos hb]

lemma flatten_runs (rows : Rows) : (runs rows).flatten = rows := by
  induction rows with
  | nil => rfl
  | cons e rows ih =>
    by_cases hne : rows = []
    · rw [hne]
      rfl
    · cases hb : isBoundary e.1 e.2 with
      | true => rw [runs_cons_of_boundary hne hb, flatten_cons, ih, singleton_append]
      | false =>
        obtain ⟨r, rs, hr⟩ := exists_cons_of_ne_nil (runs_ne_nil rows)
        rw [hr] at ih
        rw [runs_cons_of_not hne hb hr, flatten_cons, cons_append, ← flatten_cons, ih]

lemma Cut.cons (hrun : IsRun es) (hended : Ended es) (h : Cut ls) : Cut (es :: ls) := by
  refine ⟨fun x hx => ?_, fun x hx => ?_⟩
  · rcases mem_cons.mp hx with rfl | hx
    · exact hrun
    · exact h.run x hx
  · cases ls with
    | nil => simp at hx
    | cons es' ls =>
      rcases mem_cons.mp hx with rfl | hx
      · exact hended
      · exact h.ended x hx

lemma cut_singleton (h : IsRun es) : Cut [es] :=
  ⟨fun x hx => mem_singleton.mp hx ▸ h, fun x hx => by simp at hx⟩

lemma Cut.tail (h : Cut (es :: ls)) : Cut ls := by
  refine ⟨fun x hx => h.run x (mem_cons_of_mem es hx), fun x hx => ?_⟩
  cases ls with
  | nil => simp at hx
  | cons es' ls => exact h.ended x (by rw [dropLast_cons_cons]; exact mem_cons_of_mem es hx)

lemma Ended.cons (h : Ended r) : Ended (e :: r) := by
  obtain ⟨x, hx, hb⟩ := h
  refine ⟨x, ?_, hb⟩
  rw [getLast?_cons, hx]
  rfl

lemma cut_runs (hne : rows ≠ []) : Cut (runs rows) := by
  induction rows with
  | nil => exact absurd rfl hne
  | cons e rows ih =>
    by_cases hrows : rows = []
    · rw [hrows]
      exact cut_singleton ⟨by simp, by simp⟩
    · have hrest := ih hrows
      cases hb : isBoundary e.1 e.2 with
      | true =>
        rw [runs_cons_of_boundary hrows hb]
        exact hrest.cons ⟨by simp, by simp⟩ ⟨e, rfl, hb⟩
      | false =>
        obtain ⟨r, rs, hr⟩ := exists_cons_of_ne_nil (runs_ne_nil rows)
        rw [hr] at hrest
        have hrun := hrest.run r mem_cons_self
        have hcons : IsRun (e :: r) := by
          refine ⟨by simp, fun x hx => ?_⟩
          rw [dropLast_cons_of_ne_nil hrun.ne_nil] at hx
          rcases mem_cons.mp hx with rfl | hx
          · exact hb
          · exact hrun.inner x hx
        rw [runs_cons_of_not hrows hb hr]
        cases rs with
        | nil => exact cut_singleton hcons
        | cons r' rs => exact hrest.tail.cons hcons (hrest.ended r (by simp)).cons

/-! ## Runs that fit -/

/-- More rows at the end make the runs before no shorter. -/
lemma runs_extend (xs ys : Rows) (h : runs xs = r :: rs) :
    ∃ r' rs', runs (xs ++ ys) = r' :: rs' ∧ r <+: r' ∧ ∀ x ∈ rs, ∃ x' ∈ rs', x <+: x' := by
  induction xs generalizing r rs with
  | nil =>
    obtain ⟨r', rs', hr'⟩ := exists_cons_of_ne_nil (runs_ne_nil ys)
    cases h
    exact ⟨r', rs', hr', nil_prefix, by simp⟩
  | cons e xs ih =>
    by_cases hxs : xs = []
    · subst hxs
      cases h
      by_cases hys : ys = []
      · subst hys
        exact ⟨[e], [], rfl, prefix_rfl, by simp⟩
      · cases hb : isBoundary e.1 e.2 with
        | true => exact ⟨[e], runs ys, runs_cons_of_boundary hys hb, prefix_rfl, by simp⟩
        | false =>
          obtain ⟨r', rs', hr'⟩ := exists_cons_of_ne_nil (runs_ne_nil ys)
          exact ⟨e :: r', rs', runs_cons_of_not hys hb hr', by simp, by simp⟩
    · have happend : xs ++ ys ≠ [] := by simp [hxs]
      obtain ⟨r₀, rs₀, hr₀⟩ := exists_cons_of_ne_nil (runs_ne_nil xs)
      obtain ⟨r', rs', hr', hhead, htail⟩ := ih hr₀
      cases hb : isBoundary e.1 e.2 with
      | true =>
        rw [runs_cons_of_boundary hxs hb, hr₀] at h
        cases h
        refine ⟨[e], r' :: rs', ?_, prefix_rfl, fun x hx => ?_⟩
        · rw [cons_append, runs_cons_of_boundary happend hb, hr']
        · rcases mem_cons.mp hx with rfl | hx
          · exact ⟨r', mem_cons_self, hhead⟩
          · obtain ⟨x', hx', hext⟩ := htail x hx
            exact ⟨x', mem_cons_of_mem r' hx', hext⟩
      | false =>
        rw [runs_cons_of_not hxs hb hr₀] at h
        cases h
        exact ⟨e :: r', rs', runs_cons_of_not happend hb hr',
          cons_prefix_cons.mpr ⟨rfl, hhead⟩, htail⟩

lemma leafBytes_mono {r' : Rows} (h : r <+: r') : leafBytes r ≤ leafBytes r' := by
  obtain ⟨t, rfl⟩ := h
  simp [leafBytes]

lemma Fit.left (h : Fit (xs ++ ys)) : Fit xs := by
  obtain ⟨r, rs, hr⟩ := exists_cons_of_ne_nil (runs_ne_nil xs)
  obtain ⟨r', rs', hr', hhead, htail⟩ := runs_extend xs ys hr
  intro x hx
  rw [hr] at hx
  rw [Fit, hr'] at h
  rcases mem_cons.mp hx with rfl | hx
  · exact (leafBytes_mono hhead).trans (h r' mem_cons_self)
  · obtain ⟨x', hx', hext⟩ := htail x hx
    exact (leafBytes_mono hext).trans (h x' (.tail _ hx'))

lemma runs_flatten_append (hB : ∀ es ∈ B, IsRun es ∧ Ended es)
    (hxs : xs ≠ []) : runs (B.flatten ++ xs) = B ++ runs xs := by
  induction B with
  | nil => rfl
  | cons es B ih =>
    obtain ⟨hrun, hended⟩ := hB es mem_cons_self
    rw [flatten_cons, append_assoc, runs_append hrun hended (by simp [hxs]),
      ih fun x hx => hB x (mem_cons_of_mem es hx), cons_append]

lemma Fit.right (hB : ∀ es ∈ B, IsRun es ∧ Ended es)
    (hxs : xs ≠ []) (h : Fit (B.flatten ++ xs)) : Fit xs := by
  rw [Fit, runs_flatten_append hB hxs] at h
  exact fun r hr => h r (mem_append_right B hr)

/-! ## Where the code cuts -/

lemma flatten_pieces (es : Rows) {s : ℕ} {ps : List ℕ} (hs : s ≤ es.length)
    (hps : Within s es.length ps) : (pieces es (s :: ps)).flatten = es.drop s :=
  flatten_slices es hs hps

/-- The positions after the boundaries of rows, but not after the last row. -/
def boundaries (es : Rows) : List ℕ :=
  (starts targetChunkBytes (es.map cuttable)).tail

lemma within_boundaries (es : Rows) : Within 0 es.length (boundaries es) := by
  simpa [boundaries] using starts_within targetChunkBytes (es.map cuttable)

lemma mem_boundaries {j : ℕ} (hj : j + 1 < es.length) (hlt : j < es.length) :
    j + 1 ∈ boundaries es ↔ isBoundary es[j].1 es[j].2 = true := by
  have hrange : j < es.length - 1 := by omega
  simp [boundaries, starts, isBoundary, hlt, hrange, Cuttable.ends, cuttable]

lemma cut_pieces (hne : es ≠ []) : Cut (pieces es (0 :: boundaries es)) := by
  have hpos : 0 < es.length := length_pos_of_ne_nil hne
  obtain ⟨hspans, hends⟩ := spans_spec hpos (within_boundaries es)
  refine ⟨fun r hr => ?_, fun r hr => ?_⟩
  · obtain ⟨⟨s, e⟩, hrun, rfl⟩ := mem_map.mp hr
    obtain ⟨-, hlt, hle, hinside⟩ := hspans _ hrun
    have hlen : (slice es s e).length = e - s := length_slice hle
    refine ⟨fun hnil => ?_, fun x hx => ?_⟩
    · rw [hnil, length_nil] at hlen
      omega
    · rw [dropLast_eq_take, hlen, slice_eq] at hx
      obtain ⟨j, hj, rfl⟩ := mem_take_iff_getElem.mp hx
      by_contra hb
      have hmem : s + j + 1 ∈ boundaries es :=
        (mem_boundaries (by omega) (by omega)).mpr (by simpa using hb)
      exact hinside _ hmem ⟨by omega, by omega⟩
  · rw [pieces, ← map_dropLast] at hr
    obtain ⟨⟨s, e⟩, hrun, rfl⟩ := mem_map.mp hr
    obtain ⟨-, hlt, hle, -⟩ := hspans _ (mem_of_mem_dropLast hrun)
    have hmem : e ∈ boundaries es := hends _ hrun
    have hen := (within_boundaries es).2 e hmem
    have he1 : e - 1 + 1 = e := by omega
    rw [← he1] at hmem
    refine ⟨es[e - 1], ?_, (mem_boundaries (by omega) (by omega)).mp hmem⟩
    rw [getLast?_eq_getElem?, length_slice hle, slice_eq, getElem?_take,
      getElem?_drop]
    have hidx : s + (e - s - 1) = e - 1 := by omega
    rw [if_pos (by omega), hidx, getElem?_eq_getElem]

lemma pieces_boundaries (es : Rows) : pieces es (0 :: boundaries es) = runs es := by
  by_cases hne : es = []
  · subst hne
    rfl
  · have hcut := (cut_pieces hne).eq_runs (by simp [pieces_cons])
    rwa [flatten_pieces es (Nat.zero_le _) (within_boundaries es)] at hcut

lemma map_fst_spans (ps : List ℕ) (n : ℕ) : (spans ps n).map (·.1) = ps := by
  induction ps with
  | nil => rfl
  | cons p ps ih => rw [spans_cons, map_cons, ih]

lemma cutRuns_nil {cutRun : ℕ × ℕ → List ℕ} {n : ℕ} (s : ℕ) (ps : List ℕ)
    (h : ∀ run ∈ spans (s :: ps) n, cutRun run = []) :
    cutRuns cutRun 0 (spans (s :: ps) n) = ps := by
  rw [spans_cons] at h ⊢
  have hrest : (spans ps n).flatMap (fun run => (0 + run.1) :: cutRun run) =
      (spans ps n).flatMap fun run => [run.1] :=
    flatMap_congr fun run hrun => by rw [h run (.tail _ hrun), Nat.zero_add]
  rw [cutRuns, h _ mem_cons_self, hrest, nil_append, ← map_eq_flatMap,
    map_fst_spans]

/-- Where every run fits, the code cuts rows into their runs. -/
lemma pieces_leafCutsOf (h : Fit es) : pieces es (0 :: leafCutsOf es) = runs es := by
  have hfuel : targetChunkBytes = 506 + 1 := rfl
  rw [leafCutsOf, leafCuts]
  conv_lhs => rw [hfuel]
  rw [cutAtTarget, ← hfuel]
  split
  · next hlen =>
    rcases es with _ | ⟨e, _ | ⟨e', es⟩⟩
    · rfl
    · rfl
    · simp at hlen
  · have hstarts : starts targetChunkBytes (es.map cuttable) = 0 :: boundaries es := rfl
    rw [hstarts, cutRuns_nil, pieces_boundaries]
    intro run hrun
    have hmem : slice es run.1 run.2 ∈ runs es := by
      rw [← pieces_boundaries]
      exact mem_map.mpr ⟨run, by simpa using hrun, rfl⟩
    have hbytes : ((slice (es.map cuttable) run.1 run.2).map (·.size)).sum =
        leafBytes (slice es run.1 run.2) := by
      simp only [slice, leafBytes, map_drop, map_take, map_map]
      rfl
    exact if_pos ((Nat.mod_le _ _).trans (hbytes ▸ h _ hmem))

/-! ## The leaves of a tree -/

/-- The leaves of the tree are the runs of its rows, or it is empty. -/
def Parted (T : Tree) : Prop := T.leaves = [[]] ∨ Cut T.leaves

lemma Parted.eq_runs (h : Parted T) : T.leaves = runs T.entries := by
  rcases h with h | h
  · rw [entries, h]
    rfl
  · exact h.eq_runs (leaves_ne_nil T)

lemma cut_append (hB : B ≠ []) : Cut (A ++ B) ↔ (∀ es ∈ A, IsRun es ∧ Ended es) ∧ Cut B := by
  constructor
  · rintro ⟨hrun, hended⟩
    rw [dropLast_append_of_ne_nil hB] at hended
    exact ⟨fun es hes => ⟨hrun es (mem_append_left B hes),
      hended es (mem_append_left _ hes)⟩,
      ⟨fun es hes => hrun es (mem_append_right A hes),
        fun es hes => hended es (mem_append_right A hes)⟩⟩
  · rintro ⟨hA, hcut⟩
    refine ⟨fun es hes => ?_, fun es hes => ?_⟩
    · exact (mem_append.mp hes).elim (fun h => (hA es h).1) (hcut.run es)
    · rw [dropLast_append_of_ne_nil hB] at hes
      exact (mem_append.mp hes).elim (fun h => (hA es h).2) (hcut.ended es)

/-- What is known of the leaves around one of them. -/
structure Around (A : List Rows) (es : Rows) (B : List Rows) : Prop where
  left : ∀ x ∈ A, IsRun x ∧ Ended x
  inner : ∀ e ∈ es.dropLast, isBoundary e.1 e.2 = false
  ended : B ≠ [] → Ended es
  right : B ≠ [] → Cut B

lemma Parted.around (h : Parted T) {c : Context} {i : PageId}
    (hplug : T = plug c (leaf i es)) : Around (before c) es (after c) := by
  have hleaves : T.leaves = before c ++ es :: after c := by
    rw [hplug, leaves_plug]
    simp
  generalize before c = A, after c = B at hleaves ⊢
  rcases h with h | h
  · rw [hleaves] at h
    have hlen := congrArg length h
    simp only [length_append, length_cons, length_nil] at hlen
    obtain rfl : A = [] := eq_nil_of_length_eq_zero (by omega)
    obtain rfl : B = [] := eq_nil_of_length_eq_zero (by omega)
    obtain rfl : es = [] := by simpa using h
    exact ⟨by simp, by simp, fun h => absurd rfl h, fun h => absurd rfl h⟩
  · rw [hleaves, cut_append (by simp)] at h
    refine ⟨h.1, (h.2.run es mem_cons_self).inner, fun hB => ?_, fun _ => h.2.tail⟩
    obtain ⟨b, B, rfl⟩ := exists_cons_of_ne_nil hB
    exact h.2.ended es (by simp)

/-- A leaf that is a run of its own between leaves cut at the boundaries. -/
lemma cut_around (hA : ∀ x ∈ A, IsRun x ∧ Ended x)
    (hes : IsRun es) (hended : B ≠ [] → Ended es) (hB : B ≠ [] → Cut B) : Cut (A ++ es :: B) := by
  refine (cut_append (by simp)).mpr ⟨hA, ?_⟩
  by_cases hnil : B = []
  · rw [hnil]
    exact cut_singleton hes
  · exact (hB hnil).cons hes (hended hnil)

/-- A run that has not ended goes on with the next. -/
lemma IsRun.append (hes : IsRun es) (hnot : ¬ Ended es) (hr : IsRun r) : IsRun (es ++ r) := by
  refine ⟨by simp [hes.ne_nil], fun x hx => ?_⟩
  rw [dropLast_append_of_ne_nil hr.ne_nil] at hx
  rcases mem_append.mp hx with hx | hx
  · rw [← dropLast_append_getLast hes.ne_nil, mem_append, mem_singleton] at hx
    rcases hx with hx | rfl
    · exact hes.inner x hx
    · by_contra hb
      exact hnot ⟨_, getLast?_eq_getLast_of_ne_nil hes.ne_nil, by simpa using hb⟩
  · exact hr.inner x hx

lemma Ended.append (h : Ended r) : Ended (es ++ r) := by
  obtain ⟨x, hx, hb⟩ := h
  refine ⟨x, ?_, hb⟩
  rw [getLast?_append, hx]
  rfl

/-- After a merge the leaves are the runs of the rows. -/
lemma Merged.parted (h : Merged e T T') (hleaves : T.leaves = A ++ es :: B) (he : e ∈ es)
    (hA : ∀ x ∈ A, IsRun x ∧ Ended x) (hes : IsRun es) (hB : B ≠ [] → Cut B)
    (hfit : Fit T.entries) : Parted T' := by
  right
  rcases h.leaves A es B hleaves he with ⟨hsame, rfl | ⟨rest, rfl⟩⟩ | ⟨r, rest, rfl, hmerged⟩
  · rw [hsame, hleaves]
    exact cut_around hA hes (fun h => absurd rfl h) (fun h => absurd rfl h)
  · exact absurd rfl ((hB (by simp)).run [] mem_cons_self).ne_nil
  · have hcut := hB (by simp)
    have hr := hcut.run r mem_cons_self
    have hended : rest ≠ [] → Ended r := by
      intro hrest
      obtain ⟨x, rest, rfl⟩ := exists_cons_of_ne_nil hrest
      exact hcut.ended r (by simp)
    have hrows : T.entries = A.flatten ++ (es ++ r) ++ rest.flatten := by
      rw [SepTree.entries, hleaves]
      simp
    rw [hrows] at hfit
    have hfit' : Fit (es ++ r) := hfit.left.right hA (by simp [hes.ne_nil])
    rw [hmerged, pieces_leafCutsOf hfit']
    by_cases hes' : Ended es
    · rw [runs_append hes hes' hr.ne_nil, runs_run hr, append_assoc]
      exact cut_around hA hes (fun _ => hes') fun _ => hcut
    · rw [runs_run (hes.append hes' hr), append_assoc]
      exact cut_around hA (hes.append hes' hr) (fun hrest => (hended hrest).append)
        fun _ => hcut.tail

/-- The place of a key among rows in order. -/
lemma put_split (key : Key) (value : Value) (h : Ascending es) :
    ∃ pre mid post, es = pre ++ mid ++ post ∧ mid.length ≤ 1 ∧
      putEntry es key value = pre ++ (key, value) :: post ∧
      (search (keysOf es) key).index = pre.length := by
  cases hs : search (keysOf es) key with
  | found n =>
    obtain ⟨v, hes, hbelow, habove⟩ := split_found h hs
    have hlt : n < es.length := by
      have := (List.getElem?_eq_some_iff.mp (search_found hs)).1
      simpa [keysOf] using this
    refine ⟨es.take n, [(key, v)], es.drop (n + 1), hes, le_rfl, ?_, ?_⟩
    · simp only [putEntry, hs]
      rw [set_eq_take_append_cons_drop, if_pos hlt]
    · rw [Search.index, length_take, min_eq_left hlt.le]
  | vacant n =>
    have hle : n ≤ es.length := by simpa [keysOf] using search_vacant_le hs
    have hins := insertIdx_append (es.take n) (es.drop n) (key, value)
    rw [take_append_drop, length_take, min_eq_left hle] at hins
    refine ⟨es.take n, [], es.drop n, by simp, by simp, ?_, ?_⟩
    · simp only [putEntry, hs]
      exact hins
    · rw [Search.index, length_take, min_eq_left hle]

lemma interiorBoundary_last {pre : Rows}
    (h : interiorBoundary (pre ++ [e]) pre.length key value = false) {x : Key × Value}
    (hx : pre.getLast? = some x) : isBoundary x.1 x.2 = false := by
  have hne : pre ≠ [] := by
    rintro rfl
    cases hx
  have hpos : 0 < pre.length := length_pos_of_ne_nil hne
  have hget : (pre ++ [e])[pre.length + 1 - 2]? = some x := by
    rw [getElem?_append_left (by omega), ← hx, getLast?_eq_getElem?]
    congr 1
  have htwo : 2 ≤ pre.length + 1 := by omega
  rw [interiorBoundary, length_append, length_singleton, Nat.add_sub_cancel, if_pos
    (beq_self_eq_true _), hget] at h
  simpa only [htwo, decide_true, Bool.true_and] using h

/-- A leaf into which a row was put is a run unless the code says that it is not. -/
lemma isRun_put (h : Ascending es) (hinner : ∀ e ∈ es.dropLast, isBoundary e.1 e.2 = false)
    (hb : interiorBoundary (putEntry es key value) (search (keysOf es) key).index key value =
      false) : IsRun (putEntry es key value) := by
  obtain ⟨pre, mid, post, hes, hmid, hput, hindex⟩ := put_split key value h
  rw [hput, hindex] at hb
  rw [hput]
  rw [hes] at hinner
  refine ⟨by simp, fun x hx => ?_⟩
  rw [dropLast_append_of_ne_nil (by simp), mem_append] at hx
  by_cases hpost : post = []
  · subst hpost
    have hx : x ∈ pre := by simpa using hx
    obtain ⟨y, hy⟩ := Option.isSome_iff_exists.mp
      (getLast?_isSome.mpr (ne_nil_of_mem hx))
    rw [← dropLast_append_getLast? y hy, mem_append, mem_singleton] at hx
    rcases hx with hx | rfl
    · refine hinner x ?_
      rw [append_nil]
      by_cases hm : mid = []
      · simpa [hm] using hx
      · rw [dropLast_append_of_ne_nil hm]
        exact mem_append_left _ (mem_of_mem_dropLast hx)
    · exact interiorBoundary_last hb hy
  · rw [dropLast_append_of_ne_nil hpost] at hinner
    rw [dropLast_cons_of_ne_nil hpost, mem_cons] at hx
    rcases hx with hx | rfl | hx
    · exact hinner x (by simp [hx])
    · have hne : (pre.length == (pre ++ (key, value) :: post).length - 1) = false := by
        have := length_pos_of_ne_nil hpost
        simp only [length_append, length_cons, beq_eq_false_iff_ne]
        omega
      rw [interiorBoundary, hne] at hb
      simpa using hb
    · exact hinner x (by simp [hx])

/-- A row that is put into a leaf that has ended, and leaves it open, is the last. -/
lemma put_last (h : Ascending es) (hended : Ended es)
    (hopen : unterminated (putEntry es key value) = true) :
    (putEntry es key value).getLast? = some (key, value) := by
  obtain ⟨pre, mid, post, hes, hmid, hput, -⟩ := put_split key value h
  rw [hput] at hopen ⊢
  by_cases hpost : post = []
  · simp [hpost]
  · obtain ⟨x, hx, hb⟩ := hended
    have hlast : post.getLast? = some x := by
      rw [hes] at hx
      cases hp : post.getLast? with
      | none => exact absurd (getLast?_eq_none_iff.mp hp) hpost
      | some y => simpa [hp] using hx
    have hput_last : (pre ++ (key, value) :: post).getLast? = some x := by
      rw [getLast?_append, getLast?_cons, hlast]
      rfl
    rw [unterminated, hput_last] at hopen
    simp [hb] at hopen

/-- The last run of rows ends as the rows do. -/
lemma runs_last (hne : rows ≠ []) :
    ∃ ls r, runs rows = ls ++ [r] ∧ (∀ x ∈ ls, IsRun x ∧ Ended x) ∧ IsRun r ∧
      r.getLast? = rows.getLast? := by
  have hsplit := dropLast_append_getLast (runs_ne_nil rows)
  have hcut := cut_runs hne
  rw [← hsplit, cut_append (by simp)] at hcut
  have hr := hcut.2.run _ mem_cons_self
  refine ⟨_, _, hsplit.symm, hcut.1, hr, ?_⟩
  have hrows := flatten_runs rows
  rw [← hsplit, flatten_append, flatten_singleton] at hrows
  obtain ⟨x, hx⟩ := Option.isSome_iff_exists.mp (getLast?_isSome.mpr hr.ne_nil)
  conv_rhs => rw [← hrows, getLast?_append]
  rw [hx]
  rfl

lemma Inserts.parted (h : Inserts key value false T T') (hT : WF ⊥ ⊤ T) (hparted : Parted T)
    (hfit : Fit T'.entries) : Parted T' := by
  rw [(h.correct hT).2] at hfit
  obtain ⟨c, i, es, t, T₁, _, more, hplug, hr, hpieces, hleaves, hrelinks, hmerge⟩ := h
  have haround := hparted.around hplug
  obtain ⟨hT₁, hentries⟩ := relinks_put hrelinks hT hplug hr hpieces
  rw [hplug] at hT
  have hes := wf_leaf.mp (wf_plug.mp hT).2
  have hput : putEntry es key value = putRow key value es := putEntry_eq hes.1
  have hmem : (key, value) ∈ putEntry es key value := by
    rw [hput]
    exact mem_putRow.mpr (.inl rfl)
  have hne := ne_nil_of_mem hmem
  rw [← hentries] at hfit
  -- the leaf is cut into its runs
  have hruns : t.leaves ++ leavesOf more = runs (putEntry es key value) := by
    rcases hleaves with hleaves | ⟨hb, hleaves⟩
    · rw [entries_relinks hrelinks, hpieces.entries] at hfit
      rw [hleaves, pieces_leafCutsOf (hfit.left.right haround.left hne)]
    · rw [hleaves, runs_run (isRun_put hes.1 haround.inner hb)]
  have hT₁leaves : T₁.leaves = before c ++ runs (putEntry es key value) ++ after c := by
    rw [hrelinks.leaves, hruns]
  obtain ⟨ls, r, hlast, hls, hrun, hend⟩ := runs_last hne
  have hleft : ∀ ls', (∀ x ∈ ls', IsRun x ∧ Ended x) → ∀ x ∈ before c ++ ls', IsRun x ∧ Ended x :=
    fun ls' h x hx => (mem_append.mp hx).elim (haround.left x) (h x)
  split at hmerge
  · next hopen =>
    have hmerged : Merged (key, value) T₁ T' :=
      hmerge.merged hT₁ (hentries ▸ mem_putRow.mpr (.inl rfl))
    by_cases hafter : after c = []
    · -- the last leaf may stay open, wherever in it the row was put
      rw [← flatten_runs (putEntry es key value)] at hmem
      obtain ⟨r', hr', hmem'⟩ := mem_flatten.mp hmem
      obtain ⟨Y, Z, hYZ⟩ := append_of_mem hr'
      have hcut := cut_runs hne
      rw [hYZ, cut_append (by simp)] at hcut
      refine hmerged.parted (A := before c ++ Y) (B := Z) ?_ hmem' (hleft Y hcut.1)
        (hcut.2.run r' mem_cons_self) (fun _ => hcut.2.tail) hfit
      rw [hT₁leaves, hafter, hYZ]
      simp
    · -- otherwise the row has come to stand at the end
      have hmem' : (key, value) ∈ r := by
        rw [put_last hes.1 (haround.ended hafter) hopen] at hend
        exact mem_of_getLast? hend
      refine hmerged.parted (A := before c ++ ls) (B := after c) ?_ hmem' (hleft ls hls) hrun
        haround.right hfit
      rw [hT₁leaves, hlast]
      simp
  · next hclosed =>
    rw [hmerge.2]
    right
    have hended : Ended r := by
      obtain ⟨x, hx, hb⟩ := (unterminated_iff hne).mp (by simpa using hclosed)
      exact ⟨x, hend.trans hx, hb⟩
    have hshape : T₁.leaves = (before c ++ ls) ++ r :: after c := by
      rw [hT₁leaves, hlast]
      simp
    rw [hshape]
    exact cut_around (hleft ls hls) hrun (fun _ => hended) haround.right

lemma Deletes.parted (h : Deletes key false T T') (hT : WF ⊥ ⊤ T)
    (hparted : Parted T) (hfit : Fit T'.entries) : Parted T' := by
  rw [(h.correct hT).2] at hfit
  cases h with
  | absent => exact hparted
  | lone i j es n _ hplug hs herase hrelinks =>
    left
    rw [hrelinks.leaves]
    simp [before, after]
  | emptied c i es n _ hplug hr hne hs herase hunlinks =>
    have haround := hparted.around hplug
    rw [Parted, hunlinks.leaves]
    by_cases hafter : after c = []
    · rw [hafter, append_nil]
      by_cases hbefore : before c = []
      · left
        rw [hbefore]
        rfl
      · right
        rw [orEmpty_of_ne_nil hbefore]
        exact ⟨fun x hx => (haround.left x hx).1,
          fun x hx => (haround.left x (mem_of_mem_dropLast hx)).2⟩
    · right
      rw [orEmpty_of_ne_nil (by simp [hafter])]
      exact (cut_append hafter).mpr ⟨haround.left, haround.right hafter⟩
  | shrunk c i j es rs e n T₁ _ hplug hr hs herase hrelinks hmerge =>
    have haround := hparted.around hplug
    obtain ⟨hT₁, hentries, hmem⟩ := relinks_drop hrelinks hT hplug hr hs herase
    have hT₁leaves : T₁.leaves = before c ++ (e :: rs) :: after c := by
      rw [hrelinks.leaves]
      simp
    have hrun : IsRun (e :: rs) := by
      refine ⟨by simp, fun x hx => haround.inner x ?_⟩
      have hsub := (herase ▸ eraseIdx_sublist es n).reverse.tail
      rw [tail_reverse, tail_reverse, reverse_sublist] at hsub
      exact hsub.subset hx
    split at hmerge
    · have hmerged : Merged e T₁ T' := hmerge.merged hT₁ hmem
      exact hmerged.parted hT₁leaves mem_cons_self haround.left hrun haround.right
        (hentries ▸ hfit)
    · next hclosed =>
      rw [hmerge.2]
      right
      rw [hT₁leaves]
      have hended : Ended (e :: rs) := (unterminated_iff (by simp)).mp (by simpa using hclosed)
      exact cut_around haround.left hrun (fun _ => hended) haround.right

/-- An operation that has not gone astray leaves the leaves the runs of the rows. -/
lemma Op.Makes.parted {op : Op} (h : op.Makes false T T') (hT : WF ⊥ ⊤ T)
    (hparted : Parted T) (hfit : Fit T'.entries) : Parted T' := by
  cases op with
  | insert key value => exact Inserts.parted h hT hparted hfit
  | delete key => exact Deletes.parted h hT hparted hfit

end FerroDb.Cow
