import FerroDb.Cow.Node

/-!
# Where a leaf is cut

A leaf ends after an entry whose key hashes low enough for its size, so that where the entries of
a tree are cut follows from the entries alone. A run of entries between two such boundaries that
passes the capacity of a page is cut again with a finer rule, and by halves in the end.
-/

namespace FerroDb.Cow

open List

/-! ## The hash of a key -/

def chunkShift : ℕ := 3

/-- The number of bytes a leaf is meant to have. -/
def targetChunkBytes : ℕ := nodeCapacity >>> chunkShift

/-- The word that a byte stands for in the hash: the outputs of a generator of 64-bit words, of
which the upper half is taken. -/
def table (b : ℕ) : ℕ :=
  let z := (b + 2) * 0x9E3779B97F4A7C15 % 2 ^ 64
  let z := (z ^^^ (z >>> 30)) * 0xBF58476D1CE4E5B9 % 2 ^ 64
  let z := (z ^^^ (z >>> 27)) * 0x94D049BB133111EB % 2 ^ 64
  (z ^^^ (z >>> 31)) >>> 32

def rotateLeft32 (h : ℕ) : ℕ := h <<< 1 % 2 ^ 32 ||| h >>> 31

namespace Buzhash

def push (h : ℕ) (b : UInt8) : ℕ := rotateLeft32 h ^^^ table b.toNat

end Buzhash

def keyHash (key : Key) : ℕ := key.foldl Buzhash.push 0

/-! ## Boundaries -/

def boundaryFrom (hash size target : ℕ) : Bool :=
  hash * max target 1 % 2 ^ 64 ≤ size <<< 32 % 2 ^ 64

/-- The entry ends its leaf. -/
def isBoundary (key : Key) (value : Value) : Bool :=
  boundaryFrom (keyHash key) (leafEntryBytes key value) targetChunkBytes

/-! ## Cuts -/

/-- The part of a list from a position up to another. -/
def slice {α : Type} (l : List α) (s e : ℕ) : List α := (l.take e).drop s

/-- The intervals between positions and an end. -/
def spans : List ℕ → ℕ → List (ℕ × ℕ)
  | [], _ => []
  | [s], n => [(s, n)]
  | s :: s' :: ss, n => (s, s') :: spans (s' :: ss) n

lemma spans_cons (s : ℕ) (ss : List ℕ) (n : ℕ) :
    spans (s :: ss) n = (s, ss.headD n) :: spans ss n := by
  cases ss <;> rfl

/-- The positions that halve a list of sizes until every part fits. -/
def balancedCuts (capacity : ℕ) : ℕ → List ℕ → ℕ → List ℕ
  | 0, _, _ => []
  | fuel + 1, sizes, base =>
    if sizes.length < 2 then []
    else if usizeSum sizes ≤ capacity then []
    else
      balancedCuts capacity fuel (sizes.take (splitPoint sizes)) base ++
        (base + splitPoint sizes) ::
          balancedCuts capacity fuel (sizes.drop (splitPoint sizes)) (base + splitPoint sizes)

/-- What the cuts of entries depend on. The code has the sizes and the hashes in two slices of one
length. -/
structure Cuttable where
  size : ℕ
  /-- The hash of the key. -/
  hash : ℕ
deriving DecidableEq

def cuttable (e : Key × Value) : Cuttable := ⟨leafEntryBytes e.1 e.2, keyHash e.1⟩

/-- The entry ends a run. -/
def Cuttable.ends (target : ℕ) (e : Cuttable) : Bool := boundaryFrom e.hash e.size target

/-- The positions after the boundaries, but not after the last entry. -/
def starts (target : ℕ) (es : List Cuttable) : List ℕ :=
  0 :: ((List.range (es.length - 1)).filter fun i => es[i]?.any (·.ends target)).map (· + 1)

/-- The cuts inside runs side by side and, but for the first, where each begins. -/
def cutRuns (cutRun : ℕ × ℕ → List ℕ) (base : ℕ) : List (ℕ × ℕ) → List ℕ
  | [] => []
  | run :: runs => cutRun run ++ runs.flatMap fun run => (base + run.1) :: cutRun run

/-- The positions to cut at. A run between two boundaries that does not fit is cut with half the
target, so that it has more boundaries, and by halves once the target is one. -/
def cutAtTarget (capacity : ℕ) : ℕ → ℕ → List Cuttable → ℕ → List ℕ
  | 0, _, _, _ => []
  | fuel + 1, target, es, base =>
    if es.length < 2 then []
    else
      let cutRun (run : ℕ × ℕ) : List ℕ :=
        let es := slice es run.1 run.2
        if usizeSum (es.map (·.size)) ≤ capacity then []
        else if 1 < target then cutAtTarget capacity fuel (target / 2) es (base + run.1)
        else balancedCuts capacity es.length (es.map (·.size)) (base + run.1)
      cutRuns cutRun base (spans (starts target es) es.length)

def leafCuts (es : List Cuttable) (capacity : ℕ) : List ℕ :=
  cutAtTarget capacity targetChunkBytes targetChunkBytes es 0

/-! ## Cuts are in order and inside -/

/-- Positions in ascending order strictly between two. -/
def Within (a b : ℕ) (cuts : List ℕ) : Prop := cuts.Pairwise (· < ·) ∧ ∀ c ∈ cuts, a < c ∧ c < b

lemma within_nil (a b : ℕ) : Within a b [] := ⟨.nil, by simp⟩

lemma Within.append {a m b : ℕ} {xs ys : List ℕ} (hx : Within a m xs) (hy : Within m b ys)
    (ham : a < m) (hmb : m < b) : Within a b (xs ++ m :: ys) := by
  refine ⟨pairwise_append.mpr ⟨hx.1, pairwise_cons.mpr ⟨fun y h => (hy.2 y h).1, hy.1⟩,
    fun x hxm y hym => ?_⟩, fun c hc => ?_⟩
  · have hxm' := (hx.2 x hxm).2
    rcases mem_cons.mp hym with rfl | hym
    · exact hxm'
    · exact hxm'.trans (hy.2 y hym).1
  · rcases mem_append.mp hc with hc | hc
    · exact ⟨(hx.2 c hc).1, (hx.2 c hc).2.trans hmb⟩
    · rcases mem_cons.mp hc with rfl | hc
      · exact ⟨ham, hmb⟩
      · exact ⟨ham.trans (hy.2 c hc).1, (hy.2 c hc).2⟩

variable {n s : ℕ}

lemma splitPointLoop_between {total : ℕ} (hn : 2 ≤ n) (sizes : List ℕ) (acc i : ℕ) :
    0 < splitPointLoop total n sizes acc i ∧ splitPointLoop total n sizes acc i < n := by
  induction sizes generalizing acc i with
  | nil =>
    rw [splitPointLoop]
    omega
  | cons s sizes ih =>
    rw [splitPointLoop]
    split
    · next h => exact ⟨by omega, h.2⟩
    · exact ih _ _

lemma splitPoint_between {sizes : List ℕ} (h : 2 ≤ sizes.length) :
    0 < splitPoint sizes ∧ splitPoint sizes < sizes.length :=
  splitPointLoop_between h _ _ _

lemma balancedCuts_within (capacity fuel : ℕ) (sizes : List ℕ) (base : ℕ) :
    Within base (base + sizes.length) (balancedCuts capacity fuel sizes base) := by
  induction fuel generalizing sizes base with
  | zero => exact within_nil _ _
  | succ fuel ih =>
    rw [balancedCuts]
    split
    · exact within_nil _ _
    · next hlen =>
      split
      · exact within_nil _ _
      · obtain ⟨hpos, hlt⟩ := splitPoint_between (not_lt.mp hlen)
        have hleft := ih (sizes.take (splitPoint sizes)) base
        have hright := ih (sizes.drop (splitPoint sizes)) (base + splitPoint sizes)
        rw [length_take, min_eq_left hlt.le] at hleft
        rw [length_drop, Nat.add_assoc, Nat.add_sub_cancel' hlt.le] at hright
        exact hleft.append hright (by omega) (by omega)

/-- What holds of the cuts inside every run, and of two neighbouring parts together with the cut
between them, holds of the cuts of all runs. -/
lemma cutRuns_rule {Q : ℕ → ℕ → List ℕ → Prop}
    (hjoin : ∀ {a m b xs ys}, Q a m xs → Q m b ys → a < m → m < b → Q a b (xs ++ m :: ys))
    {cutRun : ℕ × ℕ → List ℕ} {base : ℕ}
    (hcut : ∀ s e, s < e → e ≤ n → Q (base + s) (base + e) (cutRun (s, e)))
    {ss : List ℕ} (hs : s < n) (hss : Within s n ss) :
    Q (base + s) (base + n) (cutRuns cutRun base (spans (s :: ss) n)) := by
  induction ss generalizing s with
  | nil => simpa [spans, cutRuns] using hcut s n hs le_rfl
  | cons s' ss ih =>
    obtain ⟨hsorted, hrange⟩ := hss
    rw [pairwise_cons] at hsorted
    obtain ⟨hs', hs'n⟩ := hrange s' mem_cons_self
    have hrest := ih hs'n ⟨hsorted.2, fun c hc =>
      ⟨hsorted.1 c hc, (hrange c (.tail _ hc)).2⟩⟩
    have heq : cutRuns cutRun base (spans (s :: s' :: ss) n) =
        cutRun (s, s') ++ (base + s') :: cutRuns cutRun base (spans (s' :: ss) n) := by
      cases ss <;> simp [spans, cutRuns]
    rw [heq]
    exact hjoin (hcut s s' hs' hs'n.le) hrest (by omega) (by omega)

variable {α : Type} {ps : List ℕ}

lemma slice_eq (l : List α) (s e : ℕ) : slice l s e = (l.drop s).take (e - s) :=
  drop_take

lemma length_slice {l : List α} {e : ℕ} (h : e ≤ l.length) : (slice l s e).length = e - s := by
  rw [slice, length_drop, length_take, min_eq_left h]

lemma starts_within (target : ℕ) (es : List Cuttable) :
    Within 0 es.length (starts target es).tail := by
  refine ⟨?_, fun c hc => ?_⟩
  · rw [starts, tail_cons, pairwise_map]
    exact (pairwise_lt_range.filter _).imp fun h => by omega
  · rw [starts, tail_cons, mem_map] at hc
    obtain ⟨i, hi, rfl⟩ := hc
    have := mem_range.mp (mem_filter.mp hi).1
    omega

lemma cutAtTarget_within (capacity fuel target : ℕ) (es : List Cuttable) (base : ℕ) :
    Within base (base + es.length) (cutAtTarget capacity fuel target es base) := by
  induction fuel generalizing target es base with
  | zero => exact within_nil _ _
  | succ fuel ih =>
    rw [cutAtTarget]
    split
    · exact within_nil _ _
    · next hlen =>
      refine cutRuns_rule (s := 0) Within.append (fun s e hse he => ?_) (by omega)
        (starts_within target es)
      have hrun : base + e = base + s + (slice es s e).length := by
        rw [length_slice he]
        omega
      rw [hrun]
      dsimp only
      split
      · exact within_nil _ _
      · split
        · exact ih _ _ _
        · simpa using balancedCuts_within capacity (slice es s e).length
            ((slice es s e).map (·.size)) (base + s)

lemma leafCuts_within (es : List Cuttable) (capacity : ℕ) :
    Within 0 es.length (leafCuts es capacity) := by
  simpa [leafCuts] using cutAtTarget_within capacity _ _ es 0

/-! ## Between the cuts -/

/-- What is between neighbouring positions has none of them inside, and all but the last end at
one. -/
lemma spans_spec (hs : s < n) (hps : Within s n ps) :
    (∀ run ∈ spans (s :: ps) n, s ≤ run.1 ∧ run.1 < run.2 ∧ run.2 ≤ n ∧
      ∀ p ∈ ps, ¬(run.1 < p ∧ p < run.2)) ∧
      ∀ run ∈ (spans (s :: ps) n).dropLast, run.2 ∈ ps := by
  induction ps generalizing s with
  | nil => simp [spans, hs]
  | cons p ps ih =>
    obtain ⟨hsorted, hrange⟩ := hps
    rw [pairwise_cons] at hsorted
    obtain ⟨hsp, hpn⟩ := hrange p mem_cons_self
    obtain ⟨hall, hlast⟩ := ih hpn ⟨hsorted.2, fun q hq =>
      ⟨hsorted.1 q hq, (hrange q (.tail _ hq)).2⟩⟩
    have hcons : spans (s :: p :: ps) n = (s, p) :: spans (p :: ps) n := rfl
    have hne : spans (p :: ps) n ≠ [] := by simp [spans_cons]
    rw [hcons]
    constructor
    · rintro run (_ | ⟨_, hrun⟩)
      · refine ⟨le_rfl, hsp, hpn.le, fun q hq hlt => ?_⟩
        rcases mem_cons.mp hq with rfl | hq
        · exact lt_irrefl _ hlt.2
        · exact absurd (hsorted.1 q hq) (not_lt.mpr hlt.2.le)
      · obtain ⟨hle, hlt, hn, hinside⟩ := hall run hrun
        refine ⟨hsp.le.trans hle, hlt, hn, fun q hq hq' => ?_⟩
        rcases mem_cons.mp hq with rfl | hq
        · exact absurd hq'.1 (not_lt.mpr hle)
        · exact hinside q hq hq'
    · intro run hrun
      rw [dropLast_cons_of_ne_nil hne] at hrun
      rcases mem_cons.mp hrun with rfl | hrun
      · exact mem_cons_self
      · exact mem_cons_of_mem p (hlast run hrun)

/-- Nothing is lost between the cuts. -/
lemma flatten_slices (l : List α) (hs : s ≤ l.length) (hps : Within s l.length ps) :
    ((spans (s :: ps) l.length).map fun run => slice l run.1 run.2).flatten = l.drop s := by
  induction ps generalizing s with
  | nil => simp [spans, slice]
  | cons p ps ih =>
    obtain ⟨hsorted, hrange⟩ := hps
    rw [pairwise_cons] at hsorted
    obtain ⟨hsp, hpn⟩ := hrange p mem_cons_self
    rw [spans_cons, map_cons, flatten_cons, ih hpn.le ⟨hsorted.2, fun q hq =>
      ⟨hsorted.1 q hq, (hrange q (.tail _ hq)).2⟩⟩, headD_cons, slice_eq]
    have hdrop : l.drop p = (l.drop s).drop (p - s) := by
      rw [drop_drop, Nat.add_sub_cancel' hsp.le]
    rw [hdrop, take_append_drop]

end FerroDb.Cow
