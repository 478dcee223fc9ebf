import FerroDb.Cow.Chunker

/-!
# The laws of cutting

What the code cuts a list of sizes into fits the capacity, whatever the hashes, and a boundary at
the target parts the list: on either side of it the cuts are those of that side alone.
-/

namespace FerroDb.Cow

open List Function

variable {capacity fuel target base s e : ℕ} {all sizes : List ℕ} {es : List Cuttable} {α : Type}
  {f g : ℕ × ℕ → List ℕ} {runs : List (ℕ × ℕ)} {a b : ℕ}

/-! ## Runs side by side -/

lemma spans_append (a : ℕ) (xs : List ℕ) (m : ℕ) (ys : List ℕ) (b : ℕ) :
    spans (a :: (xs ++ m :: ys)) b = spans (a :: xs) m ++ spans (m :: ys) b := by
  induction xs generalizing a with
  | nil => rfl
  | cons x xs ih =>
    have hcons (zs : List ℕ) (n : ℕ) : spans (a :: x :: zs) n = (a, x) :: spans (x :: zs) n := rfl
    rw [cons_append, hcons, hcons, ih, cons_append]

lemma spans_add (d n : ℕ) (ss : List ℕ) :
    spans (ss.map (d + ·)) (d + n) = (spans ss n).map fun run => (d + run.1, d + run.2) := by
  induction ss with
  | nil => rfl
  | cons s ss ih =>
    have hhead : (ss.map (d + ·)).headD (d + n) = d + ss.headD n := by cases ss <;> rfl
    rw [map_cons, spans_cons, spans_cons, map_cons, ih, hhead]

lemma cutRuns_append (f : ℕ × ℕ → List ℕ) (s : ℕ) (ps : List ℕ) (m : ℕ) (qs : List ℕ) (n : ℕ) :
    cutRuns f base (spans (s :: (ps ++ m :: qs)) n) =
      cutRuns f base (spans (s :: ps) m) ++ (base + m) :: cutRuns f base (spans (m :: qs) n) := by
  rw [spans_append, spans_cons s ps, spans_cons m qs]
  simp [cutRuns]

lemma cutRuns_congr
    (h : ∀ run ∈ runs, f run = g run) : cutRuns f base runs = cutRuns g base runs := by
  cases runs with
  | nil => rfl
  | cons run runs =>
    rw [forall_mem_cons] at h
    rw [cutRuns, cutRuns, h.1, flatMap_congr fun r hr => by rw [h.2 r hr]]

lemma cutRuns_add (d : ℕ) (h : ∀ run, f run = (g run).map (d + ·)) :
    cutRuns f (d + base) runs = (cutRuns g base runs).map (d + ·) := by
  cases runs with
  | nil => rfl
  | cons run runs => simp [cutRuns, h, map_flatMap, Nat.add_assoc]

/-! ## One level of cutting -/

/-- The cuts inside a run between two boundaries. -/
def runCuts (capacity fuel target : ℕ) (es : List Cuttable) (base : ℕ) (run : ℕ × ℕ) : List ℕ :=
  let es := slice es run.1 run.2
  if usizeSum (es.map (·.size)) ≤ capacity then []
  else if 1 < target then cutAtTarget capacity fuel (target / 2) es (base + run.1)
  else balancedCuts capacity es.length (es.map (·.size)) (base + run.1)

lemma balancedCuts_short (h : sizes.length < 2) : balancedCuts capacity fuel sizes base = [] := by
  cases fuel with
  | zero => rfl
  | succ fuel => rw [balancedCuts, if_pos h]

lemma cutAtTarget_short (h : es.length < 2) : cutAtTarget capacity fuel target es base = [] := by
  cases fuel with
  | zero => rfl
  | succ fuel => rw [cutAtTarget, if_pos h]

lemma cutAtTarget_succ (capacity fuel target : ℕ) (es : List Cuttable) (base : ℕ) :
    cutAtTarget capacity (fuel + 1) target es base =
      cutRuns (runCuts capacity fuel target es base) base
        (spans (starts target es) es.length) := by
  by_cases h : es.length < 2
  · -- A list of one entry is one run, in which there is nothing to cut.
    have hpred : es.length - 1 = 0 := by omega
    have hshort : (slice es 0 es.length).length < 2 := by rwa [length_slice le_rfl]
    have hsizes : ((slice es 0 es.length).map (·.size)).length < 2 := by rwa [length_map]
    rw [cutAtTarget_short h, starts, hpred]
    simp [spans, cutRuns, runCuts, cutAtTarget_short hshort, balancedCuts_short hsizes]
  · rw [cutAtTarget, if_neg h]
    rfl

/-! ## Locality -/

lemma balancedCuts_add (d : ℕ) (sizes : List ℕ) (base : ℕ) :
    balancedCuts capacity fuel sizes (d + base) =
      (balancedCuts capacity fuel sizes base).map (d + ·) := by
  induction fuel generalizing sizes base with
  | zero => rfl
  | succ fuel ih =>
    rw [balancedCuts, balancedCuts]
    split_ifs
    · rfl
    · rfl
    · rw [ih, Nat.add_assoc, ih, map_append, map_cons]

lemma cutAtTarget_add (d : ℕ) (target : ℕ) (es : List Cuttable) (base : ℕ) :
    cutAtTarget capacity fuel target es (d + base) =
      (cutAtTarget capacity fuel target es base).map (d + ·) := by
  induction fuel generalizing target es base with
  | zero => rfl
  | succ fuel ih =>
    rw [cutAtTarget_succ, cutAtTarget_succ]
    refine cutRuns_add d fun run => ?_
    dsimp only [runCuts]
    split_ifs
    · rfl
    · rw [Nat.add_assoc, ih]
    · rw [Nat.add_assoc, balancedCuts_add]

lemma slice_append_left (l r : List α) (h : e ≤ l.length) : slice (l ++ r) s e = slice l s e := by
  rw [slice, slice, take_append_of_le_length h]

lemma slice_append_right (l r : List α) (s e : ℕ) :
    slice (l ++ r) (l.length + s) (l.length + e) = slice r s e := by
  rw [slice, slice, take_length_add_append, drop_append,
    drop_of_length_le (Nat.le_add_right _ _), Nat.add_sub_cancel_left, nil_append]

section Split

variable {xs ys : List Cuttable} {x : Cuttable}

lemma starts_append (hlast : xs.getLast? = some x) (hys : ys ≠ []) (hb : x.ends target = true) :
    starts target (xs ++ ys) =
      starts target xs ++ xs.length :: (starts target ys).tail.map (xs.length + ·) := by
  obtain ⟨xs, rfl⟩ := getLast?_eq_some_iff.mp hlast
  obtain ⟨m, hm⟩ : ∃ m, ys.length = m + 1 := Nat.exists_eq_succ_of_ne_zero (by simpa using hys)
  have hrange : range ((xs ++ [x] ++ ys).length - 1) =
      range xs.length ++ xs.length :: (range m).map (xs.length + 1 + ·) := by
    have hsum : (xs ++ [x] ++ ys).length - 1 = xs.length + 1 + m := by
      simp only [length_append, length_singleton]
      omega
    rw [hsum, range_add, range_succ, append_assoc, singleton_append]
  have hleft : ∀ i ∈ range xs.length, (xs ++ [x] ++ ys)[i]? = (xs ++ [x])[i]? := by
    intro i hi
    rw [mem_range] at hi
    exact getElem?_append_left (by simp; omega)
  have hat : (xs ++ [x] ++ ys)[xs.length]? = some x := by simp
  have hright (i : ℕ) : (xs ++ [x] ++ ys)[xs.length + 1 + i]? = ys[i]? := by
    rw [getElem?_append_right (by simp)]
    simp
  have hfst : (range xs.length).filter (fun i => (xs ++ [x] ++ ys)[i]?.any (·.ends target)) =
      (range xs.length).filter fun i => (xs ++ [x])[i]?.any (·.ends target) :=
    filter_congr fun i hi => by rw [hleft i hi]
  have hsnd : (range m).filter ((fun i => (xs ++ [x] ++ ys)[i]?.any (·.ends target)) ∘
        (xs.length + 1 + ·)) = (range m).filter fun i => ys[i]?.any (·.ends target) :=
    filter_congr fun i _ => by rw [comp_apply, hright]
  rw [starts, hrange, filter_append, filter_cons, filter_map, hfst, hsnd, hat, Option.any_some,
    if_pos hb]
  simp only [starts, hm, length_append, length_singleton, Nat.add_sub_cancel, map_append, map_cons,
    map_map, cons_append, tail_cons]
  congr 3

/-- A boundary at the target parts the cuts. -/
lemma cutAtTarget_append (hlast : xs.getLast? = some x) (hys : ys ≠ [])
    (hb : x.ends target = true) :
    cutAtTarget capacity (fuel + 1) target (xs ++ ys) 0 =
      cutAtTarget capacity (fuel + 1) target xs 0 ++ xs.length ::
        (cutAtTarget capacity (fuel + 1) target ys 0).map (xs.length + ·) := by
  have hpos : 0 < xs.length := length_pos_of_mem (mem_of_getLast? hlast)
  rw [cutAtTarget_succ, starts_append hlast hys hb, length_append]
  have hcons : starts target xs = 0 :: (starts target xs).tail := rfl
  rw [hcons, cons_append, cutRuns_append, Nat.zero_add]
  congr 1
  · rw [cutAtTarget_succ]
    refine cutRuns_congr fun run hrun => ?_
    obtain ⟨-, -, hle, -⟩ := (spans_spec hpos (starts_within target xs)).1 run hrun
    rw [runCuts, runCuts, slice_append_left _ _ hle]
  · have hshift : xs.length :: (starts target ys).tail.map (xs.length + ·) =
        (starts target ys).map (xs.length + ·) := by simp [starts]
    have hruns (runs : List (ℕ × ℕ)) (f : ℕ × ℕ → List ℕ) :
        cutRuns f 0 (runs.map fun run => (xs.length + run.1, xs.length + run.2)) =
          cutRuns (fun run => f (xs.length + run.1, xs.length + run.2)) (xs.length + 0) runs := by
      cases runs <;> simp [cutRuns, flatMap_map]
    rw [hshift, spans_add, hruns, cutAtTarget_succ]
    congr 1
    refine cutRuns_add _ fun run => ?_
    simp only [runCuts, slice_append_right, Nat.zero_add]
    split_ifs
    · rfl
    · exact cutAtTarget_add _ _ _ _
    · exact balancedCuts_add _ _ _

end Split

/-! ## Fit -/

lemma sum_le_of_short (hall : ∀ x ∈ sizes, x ≤ capacity) (h : sizes.length < 2) :
    sizes.sum ≤ capacity := by
  match sizes, h with
  | [], _ => simp
  | [x], _ => simpa using hall x

lemma slice_slice (l : List α) (he : a + e ≤ b) :
    slice (slice l a b) s e = slice l (a + s) (a + e) := by
  rw [slice_eq, slice_eq, slice_eq, drop_take, take_take, drop_drop]
  congr 1
  omega

lemma forall_mem_slice {P : α → Prop} {l : List α} (h : ∀ x ∈ l, P x) (a b : ℕ) :
    ∀ x ∈ slice l a b, P x :=
  fun x hx => h x (mem_of_mem_take (mem_of_mem_drop hx))

/-- The total of sizes that do not overflow a word, nor does that of any part of them. -/
lemma usizeSum_slice (htotal : all.sum < 2 ^ 64) (a b : ℕ) :
    usizeSum (slice all a b) = (slice all a b).sum := by
  have hle : (slice all a b).sum ≤ all.sum :=
    ((drop_sublist _ _).trans (take_sublist _ _)).sum_le_sum fun _ _ => Nat.zero_le _
  exact Nat.mod_eq_of_lt (hle.trans_lt htotal)

/-- What lies between the cuts fits. -/
def Fits (capacity : ℕ) (all : List ℕ) (a b : ℕ) (cuts : List ℕ) : Prop :=
  ∀ run ∈ spans (a :: cuts) b, (slice all run.1 run.2).sum ≤ capacity

lemma fits_nil (h : (slice all a b).sum ≤ capacity) : Fits capacity all a b [] := by
  simpa [Fits, spans] using h

lemma Fits.append {m : ℕ} {xs ys : List ℕ} (hx : Fits capacity all a m xs)
    (hy : Fits capacity all m b ys) : Fits capacity all a b (xs ++ m :: ys) := by
  intro run hrun
  rw [spans_append] at hrun
  rcases mem_append.mp hrun with hrun | hrun
  · exact hx run hrun
  · exact hy run hrun

lemma balancedCuts_fits (hall : ∀ x ∈ all, x ≤ capacity) (htotal : all.sum < 2 ^ 64)
    (hb : b ≤ all.length) (hab : a ≤ b) (hfuel : b - a ≤ fuel) :
    Fits capacity all a b (balancedCuts capacity fuel (slice all a b) a) := by
  induction fuel generalizing a b with
  | zero => exact fits_nil (sum_le_of_short (forall_mem_slice hall a b) (by rw [length_slice hb]; omega))
  | succ fuel ih =>
    rw [balancedCuts, usizeSum_slice htotal]
    split_ifs with hlen hsum
    · exact fits_nil (sum_le_of_short (forall_mem_slice hall a b) hlen)
    · exact fits_nil hsum
    · obtain ⟨hpos, hlt⟩ := splitPoint_between (not_lt.mp hlen)
      rw [length_slice hb] at hlt
      set p := splitPoint (slice all a b)
      have hleft : (slice all a b).take p = slice all a (a + p) := by
        have hsub := slice_slice all (s := 0) (show a + p ≤ b by omega)
        simpa [slice] using hsub
      have hright : (slice all a b).drop p = slice all (a + p) b := by
        rw [slice, slice, drop_drop]
      rw [hleft, hright]
      exact (ih (by omega) (by omega) (by omega)).append (ih hb (by omega) (by omega))

lemma map_slice {β : Type} (f : α → β) (l : List α) (a b : ℕ) :
    (slice l a b).map f = slice (l.map f) a b := by
  rw [slice, slice, map_drop, map_take]

lemma cutAtTarget_fits (hall : ∀ x ∈ es.map (·.size), x ≤ capacity)
    (htotal : (es.map (·.size)).sum < 2 ^ 64) (hb : b ≤ es.length) (hab : a ≤ b)
    (htarget : 1 ≤ target) (hfuel : target < 2 ^ fuel) :
    Fits capacity (es.map (·.size)) a b (cutAtTarget capacity fuel target (slice es a b) a) := by
  induction fuel generalizing target a b with
  | zero => omega
  | succ fuel ih =>
    have hlen : (slice es a b).length = b - a := length_slice hb
    have hb' : b ≤ (es.map (·.size)).length := by rwa [length_map]
    by_cases hshort : (slice es a b).length < 2
    · rw [cutAtTarget_short hshort]
      refine fits_nil (sum_le_of_short (forall_mem_slice hall a b) ?_)
      rwa [length_slice hb', ← hlen]
    rw [cutAtTarget_succ]
    have hend : b = a + (slice es a b).length := by omega
    conv => arg 4; rw [hend]
    refine cutRuns_rule (Q := Fits capacity (es.map (·.size))) (s := 0)
      (fun hx hy _ _ => hx.append hy) (fun s e hse he => ?_) (by omega)
      (starts_within target (slice es a b))
    have hrun : slice (slice es a b) s e = slice es (a + s) (a + e) :=
      slice_slice es (by omega)
    simp only [runCuts, hrun, map_slice, usizeSum_slice htotal]
    split_ifs with hsum hhalf
    · exact fits_nil hsum
    · exact ih (by omega) (by omega) (by omega) (by rw [pow_succ] at hfuel; omega)
    · refine balancedCuts_fits hall htotal (by omega) (by omega) ?_
      rw [length_slice (by omega)]

/-! ## The laws -/

/-- Cuts in order that part a list into pieces that fit. -/
structure Lawful (capacity : ℕ) (sizes cuts : List ℕ) : Prop where
  increasing : Within 0 sizes.length cuts
  nonempty : sizes ≠ [] → ∀ run ∈ spans (0 :: cuts) sizes.length, slice sizes run.1 run.2 ≠ []
  fits : ∀ run ∈ spans (0 :: cuts) sizes.length, (slice sizes run.1 run.2).sum ≤ capacity
  covers : ((spans (0 :: cuts) sizes.length).map fun run => slice sizes run.1 run.2).flatten = sizes

lemma lawful {cuts : List ℕ} (hin : Within 0 sizes.length cuts)
    (hfits : Fits capacity sizes 0 sizes.length cuts) : Lawful capacity sizes cuts where
  increasing := hin
  nonempty hne run hrun hnil := by
    have hpos : 0 < sizes.length := length_pos_of_ne_nil hne
    obtain ⟨-, hlt, hle, -⟩ := (spans_spec hpos hin).1 run hrun
    have hlen := congrArg length hnil
    rw [length_slice hle, length_nil] at hlen
    omega
  fits := hfits
  covers := flatten_slices sizes (Nat.zero_le _) hin

lemma slice_all (l : List α) : slice l 0 l.length = l := by simp [slice]

lemma mem_leafCuts {i : ℕ} {x : Cuttable} (hi : i + 1 < es.length) (hx : es[i]? = some x)
    (hb : x.ends targetChunkBytes = true) : i + 1 ∈ leafCuts es capacity := by
  have hmem : i + 1 ∈ (starts targetChunkBytes es).tail := by
    rw [starts, tail_cons, mem_map]
    refine ⟨i, mem_filter.mpr ⟨mem_range.mpr (by omega), ?_⟩, rfl⟩
    rwa [hx]
  obtain ⟨ps, qs, hsplit⟩ := append_of_mem hmem
  have hstarts : starts targetChunkBytes es = 0 :: (ps ++ (i + 1) :: qs) := by
    rw [← hsplit]
    rfl
  have hcuts : leafCuts es capacity = _ := cutAtTarget_succ capacity 506 targetChunkBytes es 0
  rw [hcuts, hstarts, cutRuns_append, Nat.zero_add]
  exact mem_append_right _ mem_cons_self

/-- Both ways of cutting are lawful for entries that fit a page and whose sizes do not overflow a
word together. The cuts of a leaf are at every boundary of the target, and each such boundary parts
them. -/
theorem leaf_chunking_sound_and_local (capacity : ℕ) (es : List Cuttable)
    (hsizes : ∀ e ∈ es, 1 ≤ e.size ∧ e.size ≤ capacity)
    (htotal : (es.map (·.size)).sum < 2 ^ 64) :
    Lawful capacity (es.map (·.size)) (leafCuts es capacity) ∧
      Lawful capacity (es.map (·.size)) (balancedCuts capacity es.length (es.map (·.size)) 0) ∧
      (∀ i x, i + 1 < es.length → es[i]? = some x →
        boundaryFrom x.hash x.size targetChunkBytes = true → i + 1 ∈ leafCuts es capacity) ∧
      ∀ xs x ys, es = xs ++ ys → xs.getLast? = some x → ys ≠ [] →
        boundaryFrom x.hash x.size targetChunkBytes = true →
        leafCuts es capacity = leafCuts xs capacity ++
          xs.length :: (leafCuts ys capacity).map (xs.length + ·) := by
  have hall : ∀ x ∈ es.map (·.size), x ≤ capacity := by
    intro x hx
    obtain ⟨e, he, rfl⟩ := mem_map.mp hx
    exact (hsizes e he).2
  have hleaf := cutAtTarget_fits hall htotal le_rfl (Nat.zero_le _) (by decide)
    (Nat.lt_two_pow_self (n := targetChunkBytes))
  have hbalanced := balancedCuts_fits hall htotal le_rfl (Nat.zero_le _) (Nat.sub_le _ 0)
  have hin := leafCuts_within es capacity
  rw [slice_all] at hleaf hbalanced
  have hlength : es.length = (es.map (·.size)).length := length_map _ |>.symm
  rw [hlength] at hleaf hin
  refine ⟨lawful hin hleaf, ?_, fun i x => mem_leafCuts, ?_⟩
  · rw [length_map] at hbalanced
    refine lawful ?_ (by rwa [length_map])
    simpa using balancedCuts_within capacity es.length (es.map (·.size)) 0
  · rintro xs x ys rfl hlast hys hb
    exact cutAtTarget_append hlast hys hb

theorem leaf_chunking_sound_and_local_two :
    leafCuts [⟨3, 1⟩, ⟨4, 1⟩] 5 = [1] ∧ Lawful 5 [3, 4] (leafCuts [⟨3, 1⟩, ⟨4, 1⟩] 5) :=
  ⟨by decide, (leaf_chunking_sound_and_local 5 [⟨3, 1⟩, ⟨4, 1⟩] (by decide) (by decide)).1⟩

end FerroDb.Cow
