import FerroDb.Cow.History
import FerroDb.Library.BinarySearch

/-!
# Buffered writes

`WriteBuffer` of `cow/mod.rs` and its use by the tree: writes are kept in order of their keys, are
read before the tree is, and are flushed by one operation on the tree after another. A flush that
fails has completed the operations before the one that failed, and these may have written or freed
pages under the root the caller still has.

## Main definitions

* `WriteBuffer.put`, `WriteBuffer.probe`; `CowTree.flushWriteBuffer`, `CowTree.getBuffered`.
* `Unseen`: the caller shares the tree, or nothing is written before the operation that fails.
-/

namespace FerroDb.Cow

open Library SepTree M CowTree List Option Prod

inductive WriteBufferEntry where
  | put (value : Value)
  | delete

structure WriteBuffer where
  capacityBytes : ℕ
  usedBytes : ℕ
  entries : List (Key × WriteBufferEntry)

namespace WriteBuffer

def writeBufferBytes : ℕ := 2 ^ 20

def new : WriteBuffer := ⟨writeBufferBytes, 0, []⟩

def probe (b : WriteBuffer) (key : Key) : Option WriteBufferEntry :=
  (match BinarySearch.search fst b.entries key with
    | .ok i => b.entries[i]?
    | .error _ => none).map snd

def entryBytes (e : Key × WriteBufferEntry) : ℕ :=
  e.1.length +
    match e.2 with
    | .put value => value.length
    | .delete => 0

def put (b : WriteBuffer) (key : Key) (entry : WriteBufferEntry) : WriteBuffer :=
  match BinarySearch.search fst b.entries key with
  | .ok i =>
    let removed := (b.entries[i]?).elim 0 entryBytes
    { b with
      usedBytes := b.usedBytes + entryBytes (key, entry) - removed
      entries := b.entries.modify i fun old => (old.1, entry) }
  | .error i =>
    { b with
      usedBytes := b.usedBytes + entryBytes (key, entry)
      entries := b.entries.insertIdx i (key, entry) }

def clear (b : WriteBuffer) : WriteBuffer := { b with usedBytes := 0, entries := [] }

/-- The keys ascend, and the bytes of the entries are counted. -/
structure Tidy (b : WriteBuffer) : Prop where
  sorted : b.entries.Pairwise fun x y => x.1 < y.1
  counted : b.usedBytes = (b.entries.map entryBytes).sum

variable {b : WriteBuffer}

lemma Tidy.put (h : b.Tidy) (key : Key) (entry : WriteBufferEntry) : (b.put key entry).Tidy := by
  have hsorted := h.sorted
  have hcounted := h.counted
  obtain ⟨before, after, hlt, hgt, ⟨⟨k, old⟩, hk, hentries, hsearch⟩ | ⟨hentries, hsearch⟩⟩ :=
    BinarySearch.search_spec h.sorted key
  · obtain rfl : k = key := hk
    have hput : (b.put k entry).entries = before ++ (k, entry) :: after := by
      simp only [WriteBuffer.put, hsearch]
      rw [hentries, modify_append]
    have hused : (b.put k entry).usedBytes =
        b.usedBytes + entryBytes (k, entry) - entryBytes (k, old) := by
      simp only [WriteBuffer.put, hsearch]
      simp [hentries]
    rw [hentries] at hsorted hcounted
    refine ⟨?_, ?_⟩
    · rw [hput]
      simpa [pairwise_append] using hsorted
    · rw [hput, hused, hcounted]
      simp only [map_append, map_cons, sum_append, sum_cons]
      omega
  · have hput : (b.put key entry).entries = before ++ (key, entry) :: after := by
      simp only [WriteBuffer.put, hsearch]
      rw [hentries, BinarySearch.insertIdx_length]
    have hused : (b.put key entry).usedBytes = b.usedBytes + entryBytes (key, entry) := by
      simp [WriteBuffer.put, hsearch]
    rw [hentries] at hsorted hcounted
    rw [pairwise_append] at hsorted
    refine ⟨?_, ?_⟩
    · rw [hput]
      refine pairwise_append.mpr ⟨hsorted.1, pairwise_cons.mpr ⟨hgt, hsorted.2.1⟩, ?_⟩
      intro x hx y hy
      rcases mem_cons.mp hy with rfl | hy
      · exact hlt x hx
      · exact hsorted.2.2 x hx y hy
    · rw [hput, hused, hcounted]
      simp only [map_append, map_cons, sum_append, sum_cons]
      omega

/-- The buffer after some puts and deletes. -/
def ofWrites (writes : List (Key × WriteBufferEntry)) : WriteBuffer :=
  writes.foldl (fun b w => b.put w.1 w.2) new

lemma tidy_ofWrites (writes : List (Key × WriteBufferEntry)) : (ofWrites writes).Tidy := by
  induction writes using reverseRecOn with
  | nil => exact ⟨Pairwise.nil, rfl⟩
  | append_singleton writes w ih =>
    rw [ofWrites, foldl_append]
    exact ih.put w.1 w.2

lemma Tidy.probe_eq (h : b.Tidy) (key : Key) :
    b.probe key = (b.entries.find? fun e => e.1 = key).map snd := by
  have hfind := BinarySearch.search_eq_find? h.sorted key
  exact (congrArg (Option.map snd) hfind).trans (by congr!)

end WriteBuffer

def Op.ofEntry : Key × WriteBufferEntry → Op
  | (key, .put value) => .insert key value
  | (key, .delete) => .delete key

namespace CowTree

def flushWriteBuffer (root : PageId) (b : WriteBuffer) : M (PageId × WriteBuffer) := do
  let current ← runAll (b.entries.map Op.ofEntry) root
  return (current, b.clear)

def getBuffered (root : PageId) (b : WriteBuffer) (key : Key) : M (Option Value) :=
  match b.probe key with
  | some (.put value) => return some value
  | some .delete => return none
  | none => get root key

end CowTree

/-! ## The rows that are read -/

/-- The value of a key among some rows. -/
def rowOf (key : Key) (rows : Rows) : Option Value :=
  (rows.find? fun e => e.1 = key).map snd

section Rows

variable {key k : Key} {entry : WriteBufferEntry} {rows : Rows}

/-- What a buffered write leaves for its key. -/
def WriteBufferEntry.value : WriteBufferEntry → Option Value
  | put value => some value
  | delete => none

/-- Rows picked by their keys. -/
lemma rowOf_filter (p : Key → Bool) :
    rowOf key (rows.filter fun e => p e.1) = if p key then rowOf key rows else none := by
  induction rows with
  | nil => simp [rowOf]
  | cons e rows ih =>
    simp only [rowOf] at ih
    simp only [rowOf]
    by_cases he : e.1 = key
    · subst he
      by_cases hp : p e.1
      · simp [hp]
      · simpa [hp] using ih
    · by_cases hp : p e.1
      · simpa [hp, he] using ih
      · simpa [hp, he] using ih

lemma rowOf_ofEntry : rowOf key ((Op.ofEntry (k, entry)).apply rows) =
    if key = k then entry.value else rowOf key rows := by
  cases entry with
  | put value =>
    have happend : rowOf key (putRow k value rows) = (rowOf key (rows.filter fun e => e.1 < k)).or
        (if key = k then some value else rowOf key (rows.filter fun e => k < e.1)) := by
      simp only [rowOf, putRow, find?_append, map_or]
      by_cases h : key = k
      · simp [h]
      · simp [h, Ne.symm h]
    rw [Op.ofEntry, Op.apply, happend, rowOf_filter fun a => a < k, rowOf_filter fun a => k < a]
    rcases lt_trichotomy key k with h | h | h
    · simp [h, h.ne, h.not_gt]
    · simp [h, WriteBufferEntry.value]
    · simp [h, h.ne', h.not_gt]
  | delete =>
    rw [Op.ofEntry, Op.apply, dropRow, rowOf_filter fun a => a ≠ k]
    simp [WriteBufferEntry.value]

lemma rowOf_foldl {entries : List (Key × WriteBufferEntry)}
    (h : entries.Pairwise fun x y => x.1 < y.1) :
    rowOf key ((entries.map Op.ofEntry).foldl Op.apply rows) =
      match entries.find? fun e => e.1 = key with
      | some (_, entry) => entry.value
      | none => rowOf key rows := by
  induction entries generalizing rows with
  | nil => rfl
  | cons e entries ih =>
    obtain ⟨k, entry⟩ := e
    rw [pairwise_cons] at h
    rw [map_cons, foldl_cons, ih h.2, rowOf_ofEntry]
    by_cases hk : key = k
    · subst hk
      have hnone : entries.find? (fun e => e.1 = key) = none := by
        simpa using fun a e he => (h.1 (a, e) he).ne'
      simp [hnone]
    · simp [hk, Ne.symm hk]

end Rows

/-! ## Lookups in a tree -/

/-- The store fails none of the calls to come. -/
def Answering (s : State) : Prop := ∀ n ≥ s.calls, (s.answers n).error = none

/-- A computation answers with a value, unless the store fails or the tree is too deep. -/
def Gives (m : M (Option Value)) (s : State) (T : Tree) (v : Option Value) : Prop :=
  wp m (fun out _ => out = v) (fun _ => ¬(Answering s ∧ T.height < maxDescent)) s

variable {T : Tree} {s : State}

section Lookup

variable {s : State} {key : Key}

lemma readPage_held {i : PageId} {p : Page} (hp : (s.pages i).map Stored.page = some p)
    {Q : Page → State → Prop} {E : State → Prop}
    (hok : (s.answers s.calls).error = none → Q p { s with calls := s.calls + 1 })
    (herror : (s.answers s.calls).error ≠ none → E { s with calls := s.calls + 1 }) :
    wp (readPage i) Q E s := by
  obtain ⟨f, hf, rfl⟩ := map_eq_some_iff.mp hp
  simp only [readPage, call, view, wp_bind, wp_get, wp_set]
  split
  · next e he => exact wp_throw.mpr (herror (by simp [he]))
  · next he =>
    simp only [wp_pure, hf]
    exact hok he

lemma search_rowOf {es : LeafEntries} (h : Ascending es) : (match search (keysOf es) key with
      | .found i => (es.map (·.2))[i]?
      | .vacant _ => none) = rowOf key es := by
  cases hs : search (keysOf es) key with
  | found i =>
    obtain ⟨v, hrows, hbelow, -⟩ := split_found h hs
    have hlen : (es.take i).length = i := by
      have hlt := (List.getElem?_eq_some_iff.mp (search_found hs)).1
      rw [keysOf, length_map] at hlt
      simp [hlt.le]
    have hget : es[i]? = some (key, v) := by
      conv_lhs => rw [hrows]
      simp [hlen]
    have hnone : (es.take i).find? (fun e => e.1 = key) = none := by
      simpa using fun a b h => (hbelow (a, b) h).ne
    have hrow : rowOf key es = some v := by
      rw [rowOf]
      conv_lhs => rw [hrows]
      simp [hnone]
    simp [hget, hrow]
  | vacant i =>
    obtain ⟨hbelow, habove⟩ := split_vacant h hs
    have hnone : es.find? (fun e => e.1 = key) = none := by
      rw [find?_eq_none, ← take_append_drop i es]
      intro e he
      rcases mem_append.mp he with he | he
      · simpa using (hbelow e he).ne
      · simpa using (habove e he).ne'
    simp [rowOf, hnone]

lemma height_lt_close (f : Frame PageId Key Value) (t : Tree) :
    t.height < (f.close t).height := by
  cases f with
  | left i kids =>
    simp only [Frame.close, Frame.first, height_node]
    omega
  | mid i l pre k post =>
    have hle : t.height ≤ heightOf (pre ++ (k, t) :: post) :=
      height_le_heightOf (show (k, t) ∈ pre ++ (k, t) :: post by simp)
    simp only [Frame.close, Frame.rest, height_node, nil_append]
    omega

lemma getLoop_spec {fuel : ℕ} {t : Tree} {c : Context}
    (ht : ∀ x ∈ cells t, (s.pages x.1).map Stored.page = some x.2) (hc : Routed key c) :
    wp (getLoop key fuel t.id)
      (fun out _ => ∃ c' i es, plug c t = plug (c' ++ c) (leaf i es) ∧ Routed key (c' ++ c) ∧
        out = match search (keysOf es) key with
          | .found i => (es.map (·.2))[i]?
          | .vacant _ => none)
      (fun _ => ¬(Answering s ∧ t.height < fuel)) s := by
  induction fuel generalizing t c s with
  | zero => exact wp_throw.mpr (by simp)
  | succ fuel ih =>
    have hfails (he : (s.answers s.calls).error ≠ none) : ¬(Answering s ∧ t.height < fuel + 1) :=
      fun h => he (h.1 _ le_rfl)
    cases t with
    | leaf i es =>
      refine wp_bind.mpr (readPage_held (ht (i, .leaf es) (by simp)) (fun _ => ?_) hfails)
      dsimp only
      split
      · exact wp_pure.mpr ⟨[], i, es, rfl, hc, by simp [*]⟩
      · exact wp_pure.mpr ⟨[], i, es, rfl, hc, by simp [*]⟩
    | node i l ks =>
      refine wp_bind.mpr (readPage_held (ht (i, .internal l.id (heads ks)) (by simp [cells_node]))
        (fun hok => ?_) hfails)
      dsimp only
      have hbound : ∀ n, childSlotFor (keysOf (heads ks)) key = some n → n < ks.length :=
        fun n hn => by simpa using childSlotFor_lt hn
      obtain ⟨f, t', hid, hclose, hslot, hkeys, hchild⟩ := exists_frame i l hbound
      rw [hchild]
      have hc' : Routed key (f :: c) := by
        rintro g (_ | ⟨_, hg⟩)
        · rw [hkeys, hslot, keysOf_heads]
        · exact hc g hg
      have ht' : ∀ x ∈ cells t', (s.pages x.1).map Stored.page = some x.2 := fun x hx =>
        ht x (by rw [hclose, cells_close]; exact Multiset.mem_add.mpr (.inr hx))
      have hheight : t'.height < (node i l ks).height := hclose ▸ height_lt_close f t'
      refine ((ih (s := { s with calls := s.calls + 1 }) ht' hc').mono ?_).mono_error ?_
      · rintro out s' ⟨c', j, es, hplug, hrouted, rfl⟩
        refine ⟨c' ++ [f], j, es, ?_, by simpa using hrouted, rfl⟩
        rw [hclose]
        simpa [plug] using hplug
      · rintro s' h ⟨hanswering, hlt⟩
        exact h ⟨fun n hn => hanswering n (Nat.le_of_succ_le hn), by omega⟩

lemma get_spec (hs : Stands s T) (hT : WF ⊥ ⊤ T) :
    Gives (get T.id key) s T (rowOf key T.entries) := by
  refine (getLoop_spec hs.held (c := []) (by simp [Routed])).mono ?_
  rintro out s' ⟨c, i, es, hplug, hrouted, rfl⟩
  rw [append_nil] at hplug hrouted
  obtain rfl : T = plug c (leaf i es) := hplug
  obtain ⟨hc, hleaf⟩ := wf_plug.mp hT
  have hes := wf_leaf.mp hleaf
  obtain ⟨hlt, hgt⟩ := hc.outside (hrouted.inRange hc)
  have hbefore : (before c).flatten.find? (fun e => e.1 = key) = none := by
    exact find?_eq_none.mpr fun e he => by simpa using (hlt e he).ne
  have hafter : (after c).flatten.find? (fun e => e.1 = key) = none := by
    exact find?_eq_none.mpr fun e he => by simpa using (hgt e he).ne'
  rw [search_rowOf hes.1, rowOf, rowOf, entries_plug, find?_append, find?_append, hbefore,
    hafter, none_or, or_none]

end Lookup

/-- A lookup in a tree that a history has made without going astray gives what the operations make
of no rows, unless the store fails or the tree is too deep. -/
theorem build_lookup (ops : List Op) (s s' : State) (r : PageId)
    (hrun : ((build ops).run s : Except FerroError PageId × State) = (.ok r, s'))
    (hstray : s'.strayed = false) :
    ∃ T, T.id = r ∧ Stands s' T ∧ WF ⊥ ⊤ T ∧
      ∀ key, Gives (get r key) s' T (rowOf key (rowsAfter ops)) := by
  obtain ⟨T, rfl, hs, hT, hrows⟩ := build_induct
    (P := fun ops T => WF ⊥ ⊤ T ∧ T.entries = rowsAfter ops) hrun hstray
    (fun i => ⟨by simp [Ascending], by simp [rowsAfter]⟩) fun pre op T T' _ ⟨hT, hrows⟩ hmakes => by
      rw [rowsAfter_concat, ← hrows]
      exact hmakes.correct hT
  refine ⟨T, rfl, hs, hT, fun key => ?_⟩
  rw [← hrows]
  exact get_spec hs hT

theorem build_lookup_two : ∃ s' T, Stands s' T ∧ ∀ key,
    Gives (get 2 key) s' T (rowOf key (rowsAfter [.insert [2] [], .insert [1] []])) := by
  have h := build_lookup [.insert [2] [], .insert [1] []] freshStore _ 2
    (run_eq_ok (by decide +kernel)) (by decide +kernel)
  generalize (((build _).run freshStore : Except FerroError PageId × State)).2 = s' at h
  obtain ⟨T, -, hs, -, hget⟩ := h
  exact ⟨s', T, hs, hget⟩

/-! ## Flushes -/

/-- The operation deletes a key that is not there. -/
def Op.Idle (rows : Rows) : Op → Prop
  | insert _ _ => False
  | delete key => ∀ e ∈ rows, e.1 ≠ key

section Failed

variable {ops rest : List Op} {op : Op} {s' : State} {T' : Tree} {e : FerroError} {R : Set PageId}

lemma Stands.same (h : Stands s T) (hsame : ∀ c ∈ cells T, s'.pages c.1 = s.pages c.1) :
    Stands s' T := by
  refine ⟨fun c hc => ?_, h.nodup⟩
  rw [hsame c hc]
  exact h.held c hc

/-- An idle operation that completes has only read. -/
lemma Op.Idle.run_same {r : PageId} (hop : op.Idle T.entries) (hs : Stands s T)
    (hrun : ((op.run T.id).run s : Except FerroError PageId × State) = (.ok r, s')) :
    r = T.id ∧ s'.pages = s.pages := by
  cases op with
  | insert key value => exact hop.elim
  | delete key =>
    have hwithin : wp (deleteWithin T.id key)
        (fun r s' => r = T.id ∧ Reads { s with journal := ⟨[], []⟩ } s') (fun _ => True)
        { s with journal := ⟨[], []⟩ } := by
      have h := hs.holding (R := ∅) (by simp)
      refine ((descend_spec h le_rfl).mono_error fun _ _ => trivial).bind ?_
      rintro ⟨path, i⟩ s₁ ⟨hs₁, c, es, hT, hpath, hrouted⟩
      have hmem : (i, Page.leaf es) ∈ cells T := by simp [hT, cells_plug]
      refine ((readPage_spec (h.reads hs₁) hmem).mono_error fun _ _ => trivial).bind ?_
      rintro _ s₂ ⟨rfl, hs₂⟩
      simp only [Page.leafEntries]
      cases hsearch : search (keysOf es) key with
      | vacant n => exact wp_pure.mpr ⟨rfl, hs₁.trans hs₂⟩
      | found n =>
        -- the tree would hold the key
        obtain ⟨x, hx, hkey⟩ := mem_map.mp (mem_of_getElem? (search_found hsearch))
        refine absurd hkey (hop x ?_)
        rw [hT, entries_plug]
        exact mem_append_left _ (mem_append_right _ hx)
    have hfinish : finish (fun _ => (deleteWithin T.id key).run { s with journal := ⟨[], []⟩ }) s =
        (.ok r, s') := hrun
    rw [wp] at hwithin
    generalize ((deleteWithin T.id key).run { s with journal := ⟨[], []⟩ } :
      Except FerroError PageId × State) = out at hwithin hfinish
    obtain ⟨_ | root, s₁⟩ := out
    · cases hfinish
    · obtain ⟨rfl, hreads⟩ := hwithin
      rw [finish] at hfinish
      simp only [hreads.journal, freeRetired] at hfinish
      cases hfinish
      exact ⟨rfl, hreads.pages⟩

/-- A run that fails keeps the pages that were shared when it began. -/
lemma runAll_failed (hs : Stands s T') (hR : ∀ q ∈ R, (s.pages q).isSome ∧ Shared s q)
    (hrun : ((runAll ops T'.id).run s : Except FerroError PageId × State) = (.error e, s')) :
    ∀ q ∈ R, s'.pages q = s.pages q := by
  induction ops generalizing s T' with
  | nil => cases hrun
  | cons op ops ih =>
    rw [runAll, run_bind] at hrun
    cases hop : ((op.run T'.id).run s : Except FerroError PageId × State) with
    | mk r s₁ =>
      have hframed := op.run_framed hs (fun q hq => (hR q hq).1) hop
      rw [hop] at hrun
      cases r with
      | error e' =>
        cases hrun
        exact hframed.1
      | ok root =>
        obtain ⟨T₁, -, rfl, -, hs₁, -, -, hlater, hkept⟩ := hframed
        have hsame : ∀ q ∈ R, s₁.pages q = s.pages q := fun q hq => hkept q hq (hR q hq).2
        intro q hq
        refine (ih hs₁ (fun q hq => ?_) hrun q hq).trans (hsame q hq)
        exact ⟨hsame q hq ▸ (hR q hq).1, hlater.shared (hR q hq).2⟩

/-- A run that fails at the first operation that is not idle has only read. -/
lemma runAll_idle (hs : Stands s T) (hops : ∀ op ∈ ops, op.Idle T.entries)
    (hrun : ((runAll (ops ++ [op]) T.id).run s : Except FerroError PageId × State) =
      (.error e, s')) : ∀ c ∈ cells T, s'.pages c.1 = s.pages c.1 := by
  induction ops generalizing s with
  | nil =>
    rw [nil_append, runAll, run_bind] at hrun
    cases hop : ((op.run T.id).run s : Except FerroError PageId × State) with
    | mk r s₁ =>
      have hcases := op.run_cases hs hop
      rw [hop] at hrun
      cases r with
      | error e' =>
        cases hrun
        exact hcases.1
      | ok root => cases hrun
  | cons first ops ih =>
    rw [cons_append, runAll, run_bind] at hrun
    cases hop : ((first.run T.id).run s : Except FerroError PageId × State) with
    | mk r s₁ =>
      have hcases := first.run_cases hs hop
      rw [hop] at hrun
      cases r with
      | error e' =>
        cases hrun
        exact hcases.1
      | ok root =>
        obtain ⟨rfl, hpages⟩ := (hops first mem_cons_self).run_same hs hop
        have hs₁ : Stands s₁ T := hs.same fun c _ => congrFun hpages c.1
        intro c hc
        exact (ih hs₁ (fun op h => hops op (mem_cons_of_mem _ h)) hrun c hc).trans
          (congrFun hpages c.1)

/-- What comes after a failure is not run. -/
lemma runAll_append_error {root : PageId} (rest : List Op)
    (hrun : ((runAll ops root).run s : Except FerroError PageId × State) = (.error e, s')) :
    ((runAll (ops ++ rest) root).run s : Except FerroError PageId × State) = (.error e, s') := by
  induction ops generalizing s root with
  | nil => cases hrun
  | cons op ops ih =>
    rw [runAll, run_bind] at hrun
    rw [cons_append, runAll, run_bind]
    cases hop : ((op.run root).run s : Except FerroError PageId × State) with
    | mk r s₁ =>
      rw [hop] at hrun
      cases r with
      | error e' => exact hrun
      | ok root' => exact ih hrun

end Failed

/-- No write of a failing run can be seen under the old root: either the caller shares every page
of the tree, or the first operation that is not idle is the one that fails. -/
def Unseen (s : State) (T : Tree) (ops : List Op) : Prop :=
  (∀ c ∈ cells T, Shared s c.1) ∨
    ∃ idle op rest e s', ops = idle ++ op :: rest ∧ (∀ x ∈ idle, x.Idle T.entries) ∧
      ((runAll (idle ++ [op]) T.id).run s : Except FerroError PageId × State) = (.error e, s')

lemma runAll_unseen {ops : List Op} {s' : State} {e : FerroError} (hs : Stands s T)
    (hunseen : Unseen s T ops)
    (hrun : ((runAll ops T.id).run s : Except FerroError PageId × State) = (.error e, s')) :
    ∀ c ∈ cells T, s'.pages c.1 = s.pages c.1 := by
  rcases hunseen with hshared | ⟨idle, op, rest, e', s₁, rfl, hidle, hfirst⟩
  · have hR : ∀ q ∈ {q | ∃ p, (q, p) ∈ cells T}, (s.pages q).isSome ∧ Shared s q :=
      fun q ⟨p, hp⟩ => ⟨hs.isSome hp, hshared _ hp⟩
    exact fun c hc => runAll_failed hs hR hrun c.1 ⟨c.2, hc⟩
  · have hwhole := runAll_append_error rest hfirst
    rw [append_assoc, singleton_append, hrun] at hwhole
    cases hwhole
    exact runAll_idle hs hidle hfirst

/-- A buffered lookup gives what a lookup gives after the writes have been done to the rows. -/
lemma getBuffered_spec {b : WriteBuffer} (hb : b.Tidy) (hs : Stands s T)
    (hT : WF ⊥ ⊤ T) (key : Key) : Gives (getBuffered T.id b key) s T
      (rowOf key ((b.entries.map Op.ofEntry).foldl Op.apply T.entries)) := by
  rw [rowOf_foldl hb.sorted, getBuffered, hb.probe_eq]
  cases b.entries.find? fun e => e.1 = key with
  | none => exact get_spec hs hT
  | some e =>
    obtain ⟨k, _ | _⟩ := e
    · exact wp_pure.mpr rfl
    · exact wp_pure.mpr rfl

/-- A tree that holds what operations make of some rows. -/
def Wrote (rows : Rows) (ops : List Op) (T : Tree) : Prop :=
  WF ⊥ ⊤ T ∧ T.entries = ops.foldl Op.apply rows

lemma runAll_wrote {ops : List Op} {s' : State} {r : PageId} (hs : Stands s T) (hT : WF ⊥ ⊤ T)
    (hrun : ((runAll ops T.id).run s : Except FerroError PageId × State) = (.ok r, s'))
    (hstray : s'.strayed = false) : ∃ T', T'.id = r ∧ Stands s' T' ∧ Wrote T.entries ops T' := by
  have hstart : Wrote T.entries [] T := ⟨hT, rfl⟩
  refine runAll_induct hs hrun hstray hstart ?_
  rintro pre op T₁ T₂ - ⟨hT₁, hrows₁⟩ hmakes
  obtain ⟨hT₂, hrows₂⟩ := hmakes.correct hT₁
  exact ⟨hT₂, by rw [hrows₂, hrows₁, foldl_append]; rfl⟩

/-- A buffer is in order and counts its bytes whatever is put into it. A flush that succeeds and
has not gone astray makes a tree in which a lookup gives what a buffered lookup gave before. A
flush that fails unseen leaves every page that the old root reaches as it was. One that fails
after operations that gave the old root back leaves what they have written to be read there. -/
theorem buffered_writes (writes : List (Key × WriteBufferEntry)) (s : State) (T : Tree)
    (hs : Stands s T) (hT : WF ⊥ ⊤ T) :
    let b := WriteBuffer.ofWrites writes
    let ops := b.entries.map Op.ofEntry
    b.Tidy ∧
      match ((flushWriteBuffer T.id b).run s :
        Except FerroError (PageId × WriteBuffer) × State) with
      | (.ok (root, _), s') => s'.strayed = false →
        ∃ T', T'.id = root ∧ Stands s' T' ∧
          ∀ key, ∃ v, Gives (getBuffered T.id b key) s T v ∧ Gives (get root key) s' T' v
      | (.error _, s') =>
        (Unseen s T ops →
          ∀ q, Reaches s.pages T.id q → (s'.pages q).isSome ∧ s'.pages q = s.pages q) ∧
        ∀ done op rest s₁ e, ops = done ++ op :: rest →
          ((runAll done T.id).run s : Except FerroError PageId × State) = (.ok T.id, s₁) →
          ((op.run T.id).run s₁ : Except FerroError PageId × State) = (.error e, s') →
          s₁.strayed = false →
          ∃ T', T'.id = T.id ∧ Stands s' T' ∧
            ∀ key, Gives (get T.id key) s' T' (rowOf key (done.foldl Op.apply T.entries)) := by
  intro b ops
  have hb : b.Tidy := WriteBuffer.tidy_ofWrites writes
  refine ⟨hb, ?_⟩
  rw [flushWriteBuffer, run_bind]
  cases hrun : ((runAll (b.entries.map Op.ofEntry) T.id).run s :
      Except FerroError PageId × State) with
  | mk r s' =>
    cases r with
    | error e =>
      refine ⟨fun hunseen q hq => ?_, ?_⟩
      · obtain ⟨p, hp⟩ := hs.mem_of_reaches hq
        have hsame := runAll_unseen hs hunseen hrun (q, p) hp
        exact ⟨hsame ▸ hs.isSome hp, hsame⟩
      · intro done op rest s₁ e' _ hdone hfails hstray
        obtain ⟨T', hid, hs₁, hT', hrows⟩ := runAll_wrote hs hT hdone hstray
        rw [← hid] at hfails ⊢
        have hs' : Stands s' T' := hs₁.same (op.run_cases hs₁ hfails).1
        refine ⟨T', rfl, hs', fun key => ?_⟩
        rw [← hrows]
        exact get_spec hs' hT'
    | ok root =>
      intro hstray
      obtain ⟨T', rfl, hs', hT', hrows⟩ := runAll_wrote hs hT hrun hstray
      refine ⟨T', rfl, hs', fun key => ⟨_, getBuffered_spec hb hs hT key, ?_⟩⟩
      rw [← hrows]
      exact get_spec hs' hT'

/-- A store that holds one leaf, which is private to the writing branch. -/
def oneLeafStore : State :=
  { freshStore with pages := Function.update (fun _ => none) 1 (some ⟨.leaf [([1], [])], 0⟩) }

/-- The same leaf with a child of the branch that reads it. -/
def sharedLeafStore : State :=
  { oneLeafStore with answers n := ⟨none, fun _ => false, fun _ => true, n + 2, fun _ => false⟩ }

theorem buffered_writes_shared_leaf :
    let b := WriteBuffer.ofWrites [([1], .put [9]), ([2], .put (replicate 4096 0))]
    ∃ e s', ((flushWriteBuffer 1 b).run sharedLeafStore :
        Except FerroError (PageId × WriteBuffer) × State) = (.error e, s') ∧
      ∀ q, Reaches sharedLeafStore.pages 1 q →
        (s'.pages q).isSome ∧ s'.pages q = sharedLeafStore.pages q := by
  have hs : Stands sharedLeafStore (.leaf 1 [([1], [])]) := by
    refine ⟨fun c hc => ?_, by simp⟩
    rw [cells_leaf, Multiset.mem_singleton] at hc
    rw [hc]
    rfl
  have hT : WF ⊥ ⊤ (.leaf 1 [([1], [])] : Tree) := by simp [Ascending]
  have hshared (q : PageId) : Shared sharedLeafStore q := by
    constructor
    · rintro ⟨_, _, h⟩
      exact Bool.false_ne_true h
    · rintro ⟨_, _, _, h⟩
      exact Bool.false_ne_true h
  intro b
  have h := (buffered_writes [([1], .put [9]), ([2], .put (replicate 4096 0))] sharedLeafStore _
    hs hT).2
  have hfails : ((flushWriteBuffer 1 b).run sharedLeafStore :
      Except FerroError (PageId × WriteBuffer) × State).1.toOption.isNone = true := by
    decide +kernel
  revert h hfails
  rw [id_leaf]
  rcases ((flushWriteBuffer 1 b).run sharedLeafStore :
    Except FerroError (PageId × WriteBuffer) × State) with ⟨e | _, s'⟩
  · exact fun h _ => ⟨e, s', rfl, h.1 (.inl fun c _ => hshared c.1)⟩
  · exact fun _ hfails => absurd hfails Bool.false_ne_true

/-- Two writes of which the second is too large. The flush fails, and the first write can be read
under the root from before. -/
theorem failed_flush_changes_old_root :
    let b := WriteBuffer.ofWrites [([1], .put [9]), ([2], .put (replicate 4096 0))]
    let flushed : Except FerroError (PageId × WriteBuffer) × State :=
      (flushWriteBuffer 1 b).run oneLeafStore
    flushed.1.toOption.isNone = true ∧
      ((get 1 [1]).run oneLeafStore : Except FerroError (Option Value) × State).1.toOption =
        some (some []) ∧
      ((get 1 [1]).run flushed.2 : Except FerroError (Option Value) × State).1.toOption =
        some (some [9]) := by
  decide +kernel

end FerroDb.Cow
