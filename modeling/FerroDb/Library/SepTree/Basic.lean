import Mathlib.Data.List.Sort
import Mathlib.Order.WithBot
import Mathlib.Tactic

/-!
# Trees routed by separators

A leaf holds entries and a node holds a first child and further children, each behind the
separator that is its lower bound. Every tree carries a label at its root; the labels play no part
in what a tree holds. A tree is well formed between two bounds if the entries of every child lie
between the separators around it.
-/

namespace FerroDb.Library

open List

inductive SepTree (ι K V : Type) where
  | leaf (id : ι) (entries : List (K × V))
  | node (id : ι) (left : SepTree ι K V) (kids : List (K × SepTree ι K V))

namespace SepTree

variable {ι K V : Type} {ks : List (K × SepTree ι K V)} {k : K} {t : SepTree ι K V}
  {c : SepTree ι K V}

/-- To prove something of all trees, prove it of a node from its children. -/
@[induction_eliminator]
lemma induct {P : SepTree ι K V → Prop} (leaf : ∀ id es, P (leaf id es))
    (node : ∀ id l ks, P l → (∀ kt ∈ ks, P kt.2) → P (node id l ks)) (t : SepTree ι K V) : P t :=
  @SepTree.rec ι K V P (fun ks => ∀ kt ∈ ks, P kt.2) (fun kt => P kt.2)
    leaf node (by simp) (by simp +contextual) (fun _ _ h => h) t

def id : SepTree ι K V → ι
  | leaf id _ => id
  | node id _ _ => id

@[simp] lemma id_leaf (i : ι) (es : List (K × V)) : (leaf i es).id = i := rfl
@[simp] lemma id_node (i : ι) (l : SepTree ι K V) (ks : List (K × SepTree ι K V)) :
    (node i l ks).id = i := rfl

mutual

/-- What the leaves hold, from left to right. -/
def leaves : SepTree ι K V → List (List (K × V))
  | leaf _ es => [es]
  | node _ l ks => l.leaves ++ leavesOf ks

def leavesOf : List (K × SepTree ι K V) → List (List (K × V))
  | [] => []
  | (_, t) :: ks => t.leaves ++ leavesOf ks

end

/-- Everything the tree holds. -/
def entries (t : SepTree ι K V) : List (K × V) := t.leaves.flatten

mutual

/-- How many nodes lie above the lowest leaf. -/
def height : SepTree ι K V → ℕ
  | leaf _ _ => 0
  | node _ l ks => max l.height (heightOf ks) + 1

def heightOf : List (K × SepTree ι K V) → ℕ
  | [] => 0
  | (_, t) :: ks => max t.height (heightOf ks)

end

@[simp] lemma leaves_leaf (i : ι) (es : List (K × V)) : (leaf i es).leaves = [es] := by
  simp [leaves]
@[simp] lemma leaves_node (i : ι) (l : SepTree ι K V) (ks : List (K × SepTree ι K V)) :
    (node i l ks).leaves = l.leaves ++ leavesOf ks := by simp [leaves]
@[simp] lemma leavesOf_nil : leavesOf ([] : List (K × SepTree ι K V)) = [] := by simp [leavesOf]
@[simp] lemma leavesOf_cons (k : K) (t : SepTree ι K V) (ks : List (K × SepTree ι K V)) :
    leavesOf ((k, t) :: ks) = t.leaves ++ leavesOf ks := by simp [leavesOf]
@[simp] lemma leavesOf_append (ks ks' : List (K × SepTree ι K V)) :
    leavesOf (ks ++ ks') = leavesOf ks ++ leavesOf ks' := by
  induction ks with
  | nil => simp
  | cons kt ks ih =>
    obtain ⟨k, t⟩ := kt
    simp [ih]

@[simp] lemma height_leaf (i : ι) (es : List (K × V)) : (leaf i es).height = 0 := by
  simp [height]
@[simp] lemma height_node (i : ι) (l : SepTree ι K V) (ks : List (K × SepTree ι K V)) :
    (node i l ks).height = max l.height (heightOf ks) + 1 := by simp [height]
@[simp] lemma heightOf_nil : heightOf ([] : List (K × SepTree ι K V)) = 0 := by simp [heightOf]
@[simp] lemma heightOf_cons (k : K) (t : SepTree ι K V) (ks : List (K × SepTree ι K V)) :
    heightOf ((k, t) :: ks) = max t.height (heightOf ks) := by simp [heightOf]
lemma height_le_heightOf {kt : K × SepTree ι K V} (h : kt ∈ ks) : kt.2.height ≤ heightOf ks := by
  induction ks with
  | nil => cases h
  | cons kt' ks ih =>
    rcases mem_cons.mp h with rfl | h
    · exact le_max_left _ _
    · exact (ih h).trans (le_max_right _ _)

@[simp] lemma entries_leaf (i : ι) (es : List (K × V)) : (leaf i es).entries = es := by
  simp [entries]

/-! ## Bounds -/

/-- The upper bound of what stands before the children: the first separator, if there is one. -/
def upper (hi : WithTop K) : List (K × SepTree ι K V) → WithTop K
  | [] => hi
  | (k, _) :: _ => k

@[simp] lemma upper_nil (hi : WithTop K) : upper hi ([] : List (K × SepTree ι K V)) = hi := rfl
@[simp] lemma upper_cons (hi : WithTop K) (k : K) (t : SepTree ι K V)
    (ks : List (K × SepTree ι K V)) : upper hi ((k, t) :: ks) = k := rfl

section Order

variable [LinearOrder K]

/-- A key between a lower bound, which it may meet, and an upper bound, which it may not. -/
def InRange (lo : WithBot K) (hi : WithTop K) (k : K) : Prop := lo ≤ k ∧ (k : WithTop K) < hi

lemma InRange.mono {lo lo' : WithBot K} {hi hi' : WithTop K} (hlo : lo' ≤ lo) (hhi : hi ≤ hi')
    {k : K} (h : InRange lo hi k) : InRange lo' hi' k :=
  ⟨hlo.trans h.1, h.2.trans_le hhi⟩

@[simp] lemma inRange_bot_top (k : K) : InRange ⊥ ⊤ k := ⟨bot_le, WithTop.coe_lt_top k⟩

/-- Entries in strictly ascending order of their keys. -/
def Ascending (es : List (K × V)) : Prop := es.Pairwise (·.1 < ·.1)

mutual

/-- The tree is well formed between two bounds. -/
def WF : WithBot K → WithTop K → SepTree ι K V → Prop
  | lo, hi, leaf _ es => Ascending es ∧ ∀ e ∈ es, InRange lo hi e.1
  | lo, hi, node _ l ks => WF lo (upper hi ks) l ∧ WFKids lo hi ks

/-- Children behind ascending separators, each well formed from its separator to the next. -/
def WFKids : WithBot K → WithTop K → List (K × SepTree ι K V) → Prop
  | _, _, [] => True
  | lo, hi, (k, t) :: ks => lo < k ∧ (k : WithTop K) < hi ∧ WF k (upper hi ks) t ∧ WFKids k hi ks

end

variable {lo lo' : WithBot K} {hi hi' : WithTop K}

@[simp] lemma wf_leaf {i : ι} {es : List (K × V)} :
    WF lo hi (leaf i es) ↔ Ascending es ∧ ∀ e ∈ es, InRange lo hi e.1 := by simp [WF]
@[simp] lemma wfKids_nil : WFKids lo hi ([] : List (K × SepTree ι K V)) := by simp [WFKids]
lemma wfKids_cons : WFKids lo hi ((k, t) :: ks) ↔
      lo < k ∧ (k : WithTop K) < hi ∧ WF k (upper hi ks) t ∧ WFKids k hi ks := by
  simp [WFKids]

/-- A first tree and further ones behind their separators, side by side between two bounds. -/
def Chain (lo : WithBot K) (hi : WithTop K) (t : SepTree ι K V) (ks : List (K × SepTree ι K V)) :
    Prop :=
  WF lo (upper hi ks) t ∧ WFKids lo hi ks

lemma wf_node {i : ι} {l : SepTree ι K V} :
    WF lo hi (node i l ks) ↔ Chain lo hi l ks := by simp [WF, Chain]

@[simp] lemma chain_nil : Chain lo hi t [] ↔ WF lo hi t := by
  simp [Chain]

lemma chain_cons : Chain lo hi t ((k, c) :: ks) ↔
      WF lo (k : WithTop K) t ∧ lo < k ∧ (k : WithTop K) < hi ∧ Chain k hi c ks := by
  simp [Chain, wfKids_cons]

lemma chain_append {pre post : List (K × SepTree ι K V)} : Chain lo hi t (pre ++ (k, c) :: post) ↔
      Chain lo k t pre ∧ lo < k ∧ (k : WithTop K) < hi ∧ Chain k hi c post := by
  induction pre generalizing lo t with
  | nil => simp [chain_cons]
  | cons kt pre ih =>
    rw [cons_append, chain_cons, ih]
    constructor
    · rintro ⟨ht, hlo, -, hpre, hk, hhi, hpost⟩
      exact ⟨⟨ht, hlo, WithTop.coe_lt_coe.mpr (WithBot.coe_lt_coe.mp hk), hpre⟩, hlo.trans hk, hhi,
        hpost⟩
    · rintro ⟨⟨ht, hlo, hk, hpre⟩, -, hhi, hpost⟩
      exact ⟨ht, hlo, hk.trans hhi, hpre, WithBot.coe_lt_coe.mpr (WithTop.coe_lt_coe.mp hk), hhi,
        hpost⟩

lemma upper_mono (h : hi ≤ hi') (ks : List (K × SepTree ι K V)) : upper hi ks ≤ upper hi' ks := by
  cases ks with
  | nil => exact h
  | cons kt ks => exact le_rfl

lemma WFKids.mono
    (ih : ∀ kt ∈ ks, ∀ {lo lo' : WithBot K} {hi hi' : WithTop K}, lo' ≤ lo → hi ≤ hi' →
      WF lo hi kt.2 → WF lo' hi' kt.2)
    (hlo : lo' ≤ lo) (hhi : hi ≤ hi') (h : WFKids lo hi ks) : WFKids lo' hi' ks := by
  induction ks generalizing lo lo' with
  | nil => simp
  | cons kt ks ihk =>
    obtain ⟨k, t⟩ := kt
    exact ⟨hlo.trans_lt h.1, h.2.1.trans_le hhi,
      ih (k, t) mem_cons_self le_rfl (upper_mono hhi ks) h.2.2.1,
      ihk (fun kt hkt => ih kt (.tail _ hkt)) le_rfl h.2.2.2⟩

/-- A tree stays well formed between wider bounds. -/
lemma WF.mono (hlo : lo' ≤ lo) (hhi : hi ≤ hi') (h : WF lo hi t) : WF lo' hi' t := by
  induction t generalizing lo lo' hi hi' with
  | leaf i es =>
    exact ⟨h.1, fun e he => (h.2 e he).mono hlo hhi⟩
  | node i l ks ihl ihk =>
    exact ⟨ihl hlo (upper_mono hhi ks) h.1,
      h.2.mono (fun kt hkt {_ _ _ _} => ihk kt hkt) hlo hhi⟩

lemma Chain.mono (hlo : lo' ≤ lo) (hhi : hi ≤ hi') (h : Chain lo hi t ks) : Chain lo' hi' t ks :=
  ⟨h.1.mono hlo (upper_mono hhi ks),
    h.2.mono (fun _ _ {_ _ _ _} => WF.mono) hlo hhi⟩

/-- Separators are in ascending order and inside the bounds. -/
lemma WFKids.keys (h : WFKids lo hi ks) : (ks.map (·.1)).Pairwise (· < ·) ∧
      ∀ k : K, k ∈ ks.map (·.1) → lo < k ∧ (k : WithTop K) < hi := by
  induction ks generalizing lo with
  | nil => simp
  | cons kt ks ih =>
    obtain ⟨hlo, hhi, -, hks⟩ := wfKids_cons.mp h
    obtain ⟨hsorted, hrange⟩ := ih hks
    refine ⟨pairwise_cons.mpr ⟨fun k' hk' => ?_, hsorted⟩, fun k' hk' => ?_⟩
    · exact WithBot.coe_lt_coe.mp (hrange k' hk').1
    · rcases mem_cons.mp hk' with rfl | hk'
      · exact ⟨hlo, hhi⟩
      · exact ⟨hlo.trans (hrange k' hk').1, (hrange k' hk').2⟩

/-! ## A well-formed tree is in order -/

/-- Entries in order and between two bounds. -/
def Ordered (lo : WithBot K) (hi : WithTop K) (es : List (K × V)) : Prop :=
  Ascending es ∧ ∀ e ∈ es, InRange lo hi e.1

lemma Ordered.append {es es' : List (K × V)} (h : Ordered lo k es)
    (h' : Ordered k hi es') (hlo : lo ≤ k) (hhi : (k : WithTop K) ≤ hi) :
    Ordered lo hi (es ++ es') := by
  refine ⟨pairwise_append.mpr ⟨h.1, h'.1, fun a ha b hb => ?_⟩, fun e he => ?_⟩
  · have hak : a.1 < k := WithTop.coe_lt_coe.mp (h.2 a ha).2
    exact hak.trans_le (WithBot.coe_le_coe.mp (h'.2 b hb).1)
  · rcases mem_append.mp he with he | he
    · exact (h.2 e he).mono le_rfl hhi
    · exact (h'.2 e he).mono hlo le_rfl

lemma Chain.ordered_of
    (iht : ∀ {lo : WithBot K} {hi : WithTop K}, WF lo hi t → Ordered lo hi t.entries)
    (ihk : ∀ kt ∈ ks, ∀ {lo : WithBot K} {hi : WithTop K}, WF lo hi kt.2 →
      Ordered lo hi kt.2.entries)
    (h : Chain lo hi t ks) : Ordered lo hi (t.entries ++ (leavesOf ks).flatten) := by
  induction ks generalizing lo t with
  | nil => simpa using iht (chain_nil.mp h)
  | cons kt ks ih =>
    obtain ⟨k, c⟩ := kt
    rw [leavesOf_cons, flatten_append]
    exact (iht h.1).append
      (ih (fun h' => ihk (k, c) (by simp) h')
        (fun kt hkt {_ _} => ihk kt (.tail _ hkt)) h.2.2.2)
      h.2.1.le h.2.2.1.le

lemma WF.ordered (h : WF lo hi t) : Ordered lo hi t.entries := by
  induction t generalizing lo hi with
  | leaf i es => simpa [Ordered] using h
  | node i l ks ihl ihk =>
    rw [entries, leaves_node, flatten_append]
    exact (wf_node.mp h).ordered_of (fun h => ihl h) (fun kt hkt {_ _} => ihk kt hkt)

lemma Chain.ordered (h : Chain lo hi t ks) : Ordered lo hi (t.entries ++ (leavesOf ks).flatten) :=
  h.ordered_of WF.ordered (fun _ _ {_ _} => WF.ordered)

end Order

end SepTree

end FerroDb.Library
