import FerroDb.Library.SepTree.Basic
import Mathlib.Order.SuccPred.Basic

/-!
# A place in a tree, and trees rebuilt from there up

A context is the list of the nodes above a place, the nearest first, each with a hole where the
path goes on. `Relinks` relates a context and what has come to stand at its place, which may be
several trees side by side, to the trees that arise when every node above is rebuilt and split as
its writer likes. `Unlinks` does the same for a place that has been taken out.
-/

namespace FerroDb.Library.SepTree

open List

variable {ι K V : Type}

/-- A node with a hole for one of its children. -/
inductive Frame (ι K V : Type) where
  | left (id : ι) (kids : List (K × SepTree ι K V))
  | mid (id : ι) (left : SepTree ι K V) (pre : List (K × SepTree ι K V)) (key : K)
      (post : List (K × SepTree ι K V))

variable {l t : SepTree ι K V} {ks more : List (K × SepTree ι K V)} {c : List (Frame ι K V)}
  {f : Frame ι K V} {k : K} {t' : SepTree ι K V} {es : List (K × V)} {e : K × V}

namespace Frame

def id : Frame ι K V → ι
  | left id _ => id
  | mid id _ _ _ _ => id

/-- The first child once the hole is filled. -/
def first : Frame ι K V → SepTree ι K V → SepTree ι K V
  | left _ _, t => t
  | mid _ l _ _ _, _ => l

/-- The other children once the hole is filled with trees side by side. -/
def rest : Frame ι K V → SepTree ι K V → List (K × SepTree ι K V) → List (K × SepTree ι K V)
  | left _ kids, _, more => more ++ kids
  | mid _ _ pre k post, t, more => pre ++ (k, t) :: (more ++ post)

def close (f : Frame ι K V) (t : SepTree ι K V) : SepTree ι K V :=
  node f.id (f.first t) (f.rest t [])

def before : Frame ι K V → List (List (K × V))
  | left _ _ => []
  | mid _ l pre _ _ => l.leaves ++ leavesOf pre

def after : Frame ι K V → List (List (K × V))
  | left _ kids => leavesOf kids
  | mid _ _ _ _ post => leavesOf post

lemma leaves_fill (f : Frame ι K V) (t : SepTree ι K V) (more : List (K × SepTree ι K V)) :
    (f.first t).leaves ++ leavesOf (f.rest t more) =
      f.before ++ (t.leaves ++ leavesOf more) ++ f.after := by
  cases f <;> simp [first, rest, before, after]

lemma leaves_close (f : Frame ι K V) (t : SepTree ι K V) :
    (f.close t).leaves = f.before ++ t.leaves ++ f.after := by
  rw [close, leaves_node, leaves_fill]
  simp

end Frame

/-- Puts a tree into the hole of a context. -/
def plug : List (Frame ι K V) → SepTree ι K V → SepTree ι K V
  | [], t => t
  | f :: c, t => plug c (f.close t)

/-- The leaves on the left of the hole. -/
def before : List (Frame ι K V) → List (List (K × V))
  | [] => []
  | f :: c => before c ++ f.before

/-- The leaves on the right of the hole. -/
def after : List (Frame ι K V) → List (List (K × V))
  | [] => []
  | f :: c => f.after ++ after c

lemma leaves_plug (c : List (Frame ι K V)) (t : SepTree ι K V) :
    (plug c t).leaves = before c ++ t.leaves ++ after c := by
  induction c generalizing t with
  | nil => simp [plug, before, after]
  | cons f c ih => simp [plug, before, after, ih, f.leaves_close]

lemma leaves_ne_nil (t : SepTree ι K V) : t.leaves ≠ [] := by
  induction t with
  | leaf i es => simp
  | node i l ks ihl _ => simp [ihl]

/-! ## Rebuilding -/

/-- A first child and further ones, grouped into nodes side by side. -/
inductive Groups : SepTree ι K V → List (K × SepTree ι K V) → SepTree ι K V →
    List (K × SepTree ι K V) → Prop
  | last (i : ι) (l : SepTree ι K V) (ks : List (K × SepTree ι K V)) : Groups l ks (node i l ks) []
  | cut (i : ι) (l c t : SepTree ι K V) (k : K) (pre post more : List (K × SepTree ι K V)) :
      Groups c post t more → Groups l (pre ++ (k, c) :: post) (node i l pre) ((k, t) :: more)

/-- Entries cut into leaves side by side, each behind the successor of the key that ends the leaf
before it. -/
inductive Pieces (succ : K → K) : List (K × V) → SepTree ι K V → List (K × SepTree ι K V) → Prop
  | last (i : ι) (es : List (K × V)) : Pieces succ es (leaf i es) []
  | cut (i : ι) (pre : List (K × V)) (e : K × V) (post : List (K × V)) (t : SepTree ι K V)
      (more : List (K × SepTree ι K V)) :
      post ≠ [] → Pieces succ post t more →
        Pieces succ (pre ++ e :: post) (leaf i (pre ++ [e])) ((succ e.1, t) :: more)

/-- What may become of a tree when the place under a context comes to hold the given trees. -/
inductive Relinks : List (Frame ι K V) → SepTree ι K V → List (K × SepTree ι K V) →
    SepTree ι K V → Prop
  | same (c : List (Frame ι K V)) (t : SepTree ι K V) : Relinks c t [] (plug c t)
  | grow (i : ι) (t : SepTree ι K V) (more : List (K × SepTree ι K V)) :
      Relinks [] t more (node i t more)
  | step (f : Frame ι K V) (c : List (Frame ι K V)) (t t' t'' : SepTree ι K V)
      (more more' : List (K × SepTree ι K V)) :
      Groups (f.first t) (f.rest t more) t' more' → Relinks c t' more' t'' →
        Relinks (f :: c) t more t''

/-- What may become of a tree when the place under a context is taken out. -/
inductive Unlinks : List (Frame ι K V) → SepTree ι K V → Prop
  | empty (i : ι) : Unlinks [] (leaf i [])
  | drop (i j : ι) (l : SepTree ι K V) (pre : List (K × SepTree ι K V)) (k : K)
      (post : List (K × SepTree ι K V)) (c : List (Frame ι K V)) (t : SepTree ι K V) :
      Relinks c (node j l (pre ++ post)) [] t → Unlinks (.mid i l pre k post :: c) t
  | promote (i j : ι) (k : K) (l : SepTree ι K V) (ks : List (K × SepTree ι K V))
      (c : List (Frame ι K V)) (t : SepTree ι K V) :
      Relinks c (node j l ks) [] t → Unlinks (.left i ((k, l) :: ks) :: c) t
  | childless (i : ι) (c : List (Frame ι K V)) (t : SepTree ι K V) :
      Unlinks c t → Unlinks (.left i [] :: c) t

lemma Groups.leaves
    (h : Groups l ks t more) : t.leaves ++ leavesOf more = l.leaves ++ leavesOf ks := by
  induction h with
  | last i l ks => simp
  | cut i l c t k pre post more _ ih => simp [ih]

lemma Pieces.entries {succ : K → K} (h : Pieces succ es t more) :
    (t.leaves ++ leavesOf more).flatten = es := by
  induction h with
  | last i es => simp
  | cut i pre e post t more _ _ ih =>
    rw [leavesOf_cons, flatten_append, ih]
    simp

lemma Relinks.leaves (h : Relinks c t more t') :
    t'.leaves = before c ++ (t.leaves ++ leavesOf more) ++ after c := by
  induction h with
  | same c t => simp [leaves_plug]
  | grow i t more => simp [before, after]
  | step f c t t' t'' more more' hg _ ih =>
    rw [ih, hg.leaves, f.leaves_fill]
    simp [before, after]

/-- The leaves of a tree that was left with these, which may be none. -/
def orEmpty : List (List (K × V)) → List (List (K × V))
  | [] => [[]]
  | es :: ls => es :: ls

lemma orEmpty_of_ne_nil {ls : List (List (K × V))} (h : ls ≠ []) : orEmpty ls = ls := by
  cases ls with
  | nil => exact absurd rfl h
  | cons es ls => rfl

@[simp] lemma flatten_orEmpty (ls : List (List (K × V))) : (orEmpty ls).flatten = ls.flatten := by
  cases ls <;> simp [orEmpty]

lemma Unlinks.leaves (h : Unlinks c t) : t.leaves = orEmpty (before c ++ after c) := by
  induction h with
  | empty i => simp [before, after, orEmpty]
  | drop i j l pre k post c t h =>
    rw [orEmpty_of_ne_nil (by simp [before, Frame.before, leaves_ne_nil]), h.leaves]
    simp [before, after, Frame.before, Frame.after]
  | promote i j k l ks c t h =>
    rw [orEmpty_of_ne_nil (by simp [after, Frame.after, leaves_ne_nil]), h.leaves]
    simp [before, after, Frame.before, Frame.after]
  | childless i c t _ ih => simpa [before, after, Frame.before, Frame.after] using ih

/-! ## Bounds -/

section Order

variable [LinearOrder K]

namespace Frame

/-- The lower bound of the hole, from that of the node. -/
def lo : Frame ι K V → WithBot K → WithBot K
  | left _ _, b => b
  | mid _ _ _ k _, _ => k

/-- The upper bound of the hole, from that of the node. -/
def hi : Frame ι K V → WithTop K → WithTop K
  | left _ kids, b => upper b kids
  | mid _ _ _ _ post, b => upper b post

def WF (lo : WithBot K) (hi : WithTop K) : Frame ι K V → Prop
  | left _ kids => WFKids lo hi kids
  | mid _ l pre k post => Chain lo k l pre ∧ lo < k ∧ (k : WithTop K) < hi ∧ WFKids k hi post

end Frame

/-- Taking out a child between two separators widens the one before it. -/
lemma Chain.join {lo : WithBot K} {hi : WithTop K} {pre post : List (K × SepTree ι K V)}
    (hpre : Chain lo k l pre) (hk : (k : WithTop K) ≤ hi)
    (hlo : lo ≤ k) (hpost : WFKids k hi post) : Chain lo hi l (pre ++ post) := by
  cases post with
  | nil => simpa using hpre.mono le_rfl hk
  | cons kt post =>
    obtain ⟨k', c⟩ := kt
    have hkk' : k ≤ k' := WithBot.coe_le_coe.mp hpost.1.le
    exact chain_append.mpr ⟨hpre.mono le_rfl (WithTop.coe_le_coe.mpr hkk'), hlo.trans_lt hpost.1,
      hpost.2.1, hpost.2.2.1, hpost.2.2.2⟩

/-- The bounds of the hole of a context. -/
def lo : List (Frame ι K V) → WithBot K
  | [] => ⊥
  | f :: c => f.lo (lo c)

def hi : List (Frame ι K V) → WithTop K
  | [] => ⊤
  | f :: c => f.hi (hi c)

def WFContext : List (Frame ι K V) → Prop
  | [] => True
  | f :: c => f.WF (lo c) (hi c) ∧ WFContext c

lemma Frame.chain_fill {lo : WithBot K} {hi : WithTop K} (hf : f.WF lo hi)
    (h : Chain (f.lo lo) (f.hi hi) t more) : Chain lo hi (f.first t) (f.rest t more) := by
  cases f with
  | left i kids =>
    cases more with
    | nil => exact ⟨chain_nil.mp h, hf⟩
    | cons kt more =>
      cases kids with
      | nil => simpa [Frame.first, Frame.rest, Frame.lo, Frame.hi] using h
      | cons kc kids =>
        exact chain_append.mpr ⟨h, hf.1, hf.2.1, hf.2.2.1, hf.2.2.2⟩
  | mid i l pre k post =>
    obtain ⟨hpre, hlo, hhi, hpost⟩ := hf
    refine chain_append.mpr ⟨hpre, hlo, hhi, ?_⟩
    cases post with
    | nil => simpa [Frame.lo, Frame.hi] using h
    | cons kc post =>
      exact chain_append.mpr ⟨h, hpost.1, hpost.2.1, hpost.2.2.1, hpost.2.2.2⟩

lemma Frame.wf_close {lo : WithBot K} {hi : WithTop K} :
    SepTree.WF lo hi (f.close t) ↔ f.WF lo hi ∧ SepTree.WF (f.lo lo) (f.hi hi) t := by
  cases f with
  | left i kids =>
    exact ⟨fun h => ⟨h.2, h.1⟩, fun h => ⟨h.2, h.1⟩⟩
  | mid i l pre k post =>
    have hrest : Chain lo hi l (pre ++ (k, t) :: ([] ++ post)) ↔ _ := chain_append
    refine hrest.trans ⟨?_, ?_⟩
    · rintro ⟨hpre, hlo, hhi, ht, hpost⟩
      exact ⟨⟨hpre, hlo, hhi, hpost⟩, ht⟩
    · rintro ⟨⟨hpre, hlo, hhi, hpost⟩, ht⟩
      exact ⟨hpre, hlo, hhi, ht, hpost⟩

lemma wf_plug : WF ⊥ ⊤ (plug c t) ↔ WFContext c ∧ WF (lo c) (hi c) t := by
  induction c generalizing t with
  | nil => simp [plug, WFContext, lo, hi]
  | cons f c ih =>
    rw [plug, ih, Frame.wf_close, WFContext]
    tauto

lemma Groups.chain {lo : WithBot K} {hi : WithTop K}
    (h : Groups l ks t more) (hl : Chain lo hi l ks) : Chain lo hi t more := by
  induction h generalizing lo with
  | last i l ks => exact chain_nil.mpr (wf_node.mpr hl)
  | cut i l c t k pre post more _ ih =>
    obtain ⟨hpre, hlo, hhi, hpost⟩ := chain_append.mp hl
    exact chain_cons.mpr ⟨wf_node.mpr hpre, hlo, hhi, ih hpost⟩

/-- Nodes rebuilt around well-formed trees are well formed. -/
lemma Relinks.wf (h : Relinks c t more t') (hc : WFContext c)
    (ht : Chain (lo c) (hi c) t more) : WF ⊥ ⊤ t' := by
  induction h with
  | same c t => exact wf_plug.mpr ⟨hc, chain_nil.mp ht⟩
  | grow i t more => exact wf_node.mpr ht
  | step f c t t' t'' more more' hg _ ih => exact ih hc.2 (hg.chain (Frame.chain_fill hc.1 ht))

lemma Unlinks.wf (h : Unlinks c t) (hc : WFContext c) : WF ⊥ ⊤ t := by
  induction h with
  | empty i => simp [Ascending]
  | drop i j l pre k post c t h =>
    obtain ⟨⟨hpre, hlo, hhi, hpost⟩, hc⟩ := hc
    exact h.wf hc (chain_nil.mpr (wf_node.mpr (hpre.join hhi.le hlo.le hpost)))
  | promote i j k l ks c t h =>
    obtain ⟨hf, hc⟩ := hc
    have hl : Chain (k : WithBot K) (hi c) l ks := ⟨hf.2.2.1, hf.2.2.2⟩
    exact h.wf hc (chain_nil.mpr (wf_node.mpr (hl.mono hf.1.le le_rfl)))
  | childless i c t _ ih => exact ih hc.2

lemma Pieces.chain [SuccOrder K] [NoMaxOrder K] {lo : WithBot K} {hi : WithTop K}
    (h : Pieces Order.succ es t more) (hes : Ordered lo hi es) : Chain lo hi t more := by
  induction h generalizing lo with
  | last i es => exact chain_nil.mpr (wf_leaf.mpr hes)
  | cut i pre e post t more hne _ ih =>
    obtain ⟨hsorted, hrange⟩ := hes
    have hsplit : pre ++ e :: post = (pre ++ [e]) ++ post := by simp
    rw [hsplit] at hsorted hrange
    obtain ⟨hpre, hpost, hlt⟩ := pairwise_append.mp hsorted
    have hpost_ge : ∀ x ∈ post, Order.succ e.1 ≤ x.1 := fun x hx =>
      Order.succ_le_of_lt (hlt e (by simp) x hx)
    have hpre_lt : ∀ x ∈ pre ++ [e], x.1 < Order.succ e.1 := by
      intro x hx
      rcases mem_append.mp hx with hx' | hx'
      · have hxe : x.1 < e.1 := (pairwise_append.mp hpre).2.2 x hx' e (by simp)
        exact hxe.trans (Order.lt_succ e.1)
      · rw [mem_singleton.mp hx']
        exact Order.lt_succ e.1
    obtain ⟨y, hy⟩ := exists_mem_of_ne_nil post hne
    have he : InRange lo hi e.1 := hrange e (by simp)
    refine chain_cons.mpr ⟨wf_leaf.mpr ⟨hpre, fun x hx => ?_⟩, ?_, ?_, ih ⟨hpost, fun x hx => ?_⟩⟩
    · exact ⟨(hrange x (mem_append_left _ hx)).1, WithTop.coe_lt_coe.mpr (hpre_lt x hx)⟩
    · exact he.1.trans_lt (WithBot.coe_lt_coe.mpr (Order.lt_succ e.1))
    · exact (WithTop.coe_le_coe.mpr (hpost_ge y hy)).trans_lt
        (hrange y (mem_append_right _ hy)).2
    · exact ⟨WithBot.coe_le_coe.mpr (hpost_ge x hx), (hrange x (mem_append_right _ hx)).2⟩

/-! ## The leaf a key leads to -/

lemma WFKids.upper_le {lo : WithBot K} {hi : WithTop K}
    (h : WFKids lo hi ks) : upper hi ks ≤ hi := by
  cases ks with
  | nil => exact le_rfl
  | cons kt ks =>
    exact (wfKids_cons.mp h).2.1.le

/-- What stands behind the separators is not below the first of them. -/
lemma WFKids.lt_of_mem {lo : WithBot K} {hi : WithTop K}
    (h : WFKids lo hi ks) (hk : (k : WithTop K) < upper hi ks)
    (he : e ∈ (leavesOf ks).flatten) : k < e.1 := by
  cases ks with
  | nil => simp at he
  | cons kt ks =>
    obtain ⟨k', c⟩ := kt
    obtain ⟨-, -, hc, hks⟩ := wfKids_cons.mp h
    have hchain : Chain (k' : WithBot K) hi c ks := ⟨hc, hks⟩
    have hrange := hchain.ordered.2 e (by simpa [entries] using he)
    exact (WithTop.coe_lt_coe.mp hk).trans_le (WithBot.coe_le_coe.mp hrange.1)

lemma Frame.WF.inRange {lo : WithBot K} {hi : WithTop K} (h : f.WF lo hi)
    (hk : InRange (f.lo lo) (f.hi hi) k) : InRange lo hi k := by
  cases f with
  | left i kids => exact hk.mono le_rfl h.upper_le
  | mid i l pre k' post => exact hk.mono h.2.1.le h.2.2.2.upper_le

lemma Frame.WF.outside {lo : WithBot K} {hi : WithTop K} (h : f.WF lo hi)
    (hk : InRange (f.lo lo) (f.hi hi) k) :
    (∀ e ∈ f.before.flatten, e.1 < k) ∧ ∀ e ∈ f.after.flatten, k < e.1 := by
  cases f with
  | left i kids => exact ⟨by simp [Frame.before], fun e he => h.lt_of_mem hk.2 he⟩
  | mid i l pre k' post =>
    refine ⟨fun e he => ?_, fun e he => h.2.2.2.lt_of_mem hk.2 he⟩
    have hrange := h.1.ordered.2 e (by simpa [Frame.before, entries] using he)
    exact (WithTop.coe_lt_coe.mp hrange.2).trans_le (WithBot.coe_le_coe.mp hk.1)

/-- The entries around a hole are outside its bounds. -/
lemma WFContext.outside (h : WFContext c) (hk : InRange (lo c) (hi c) k) :
    (∀ e ∈ (before c).flatten, e.1 < k) ∧ ∀ e ∈ (after c).flatten, k < e.1 := by
  induction c with
  | nil => simp [before, after]
  | cons f c ih =>
    obtain ⟨hf, hc⟩ := h
    obtain ⟨hlt, hgt⟩ := ih hc (hf.inRange hk)
    obtain ⟨hlt', hgt'⟩ := hf.outside hk
    rw [before, after, flatten_append, flatten_append]
    exact ⟨fun e he => (mem_append.mp he).elim (hlt e) (hlt' e),
      fun e he => (mem_append.mp he).elim (hgt' e) (hgt e)⟩

/-- A leaf that holds a key is the one under every context whose bounds the key lies in. -/
lemma unique_leaf {i : ι} {es' : List (K × V)} {A B : List (List (K × V))}
    (h : WF ⊥ ⊤ (plug c (leaf i es')))
    (hk : InRange (lo c) (hi c) e.1) (hleaves : (plug c (leaf i es')).leaves = A ++ es :: B)
    (he : e ∈ es) : before c = A ∧ es' = es ∧ after c = B := by
  obtain ⟨hlt, hgt⟩ := (wf_plug.mp h).1.outside hk
  rw [leaves_plug, append_assoc] at hleaves
  have hnot : ∀ ls : List (List (K × V)), (∀ x ∈ ls.flatten, x.1 ≠ e.1) → es ∉ ls := by
    intro ls hls hes
    exact hls e (mem_flatten.mpr ⟨es, hes, he⟩) rfl
  exact (append_cons_inj_of_notMem (hnot _ fun x hx => (hlt x hx).ne)
    (hnot _ fun x hx => (hgt x hx).ne')).mp hleaves

end Order

end FerroDb.Library.SepTree
