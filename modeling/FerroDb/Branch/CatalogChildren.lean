import FerroDb.Branch.CatalogSteps
import FerroDb.Branch.LogRecovery

/-!
# The children of a branch in the two catalogs

The catalog in memory lists the epochs of children. The catalog in a tree has an entry for each,
and counts it if its branch was not reaped or has live children in turn. The two agree on a branch
where every entry counts.
-/

namespace FerroDb.Branch

open Library TableBranchCatalog List BranchRecord Prod

variable {epoch : ℕ} {xs : List ChildEntry} {p : ℕ} {x y : ChildEntry}

/-! ## Lists of children -/

lemma insertEpoch_sorted {es : List ℕ} (h : es.Pairwise (· ≤ ·)) :
    (insertEpoch epoch es).Pairwise (· ≤ ·) := by
  induction es with
  | nil => exact pairwise_singleton _ _
  | cons e es ih =>
    rw [pairwise_cons] at h
    rw [insertEpoch]
    split_ifs with he
    · refine pairwise_cons.mpr ⟨fun x hx => ?_, ih h.2⟩
      rcases mem_insertEpoch.mp hx with rfl | hx
      · exact he.le
      · exact h.1 x hx
    · have hle := not_lt.mp he
      refine pairwise_cons.mpr ⟨fun x hx => ?_, pairwise_cons.mpr h⟩
      rcases mem_cons.mp hx with rfl | hx
      · exact hle
      · exact hle.trans (h.1 x hx)

lemma map_insertEntry (x : ChildEntry) (xs : List ChildEntry) :
    (insertEntry x xs).map fst = insertEpoch x.1 (xs.map fst) := by
  induction xs with
  | nil => rfl
  | cons y ys ih =>
    rw [insertEntry, map_cons, insertEpoch]
    split_ifs
    · rw [map_cons, ih]
    · rw [map_cons, map_cons]

lemma mem_insertEntry : y ∈ insertEntry x xs ↔ y = x ∨ y ∈ xs := by
  induction xs with
  | nil => simp [insertEntry]
  | cons z zs ih =>
    rw [insertEntry]
    split_ifs
    · rw [mem_cons, ih, mem_cons]
      exact or_left_comm
    · exact mem_cons

lemma removeEntry_of_notMem (h : epoch ∉ xs.map fst) :
    removeEntry epoch xs = (false, xs) := by
  induction xs with
  | nil => rfl
  | cons x xs ih =>
    rw [map_cons, mem_cons, not_or] at h
    rw [removeEntry, if_neg fun heq => h.1 heq.symm, ih h.2]

/-- Taking an entry away takes its epoch away. -/
lemma removeEntry_of_mem (h : epoch ∈ xs.map fst) : (removeEntry epoch xs).1 = true ∧
      (removeEntry epoch xs).2.map fst = (xs.map fst).erase epoch := by
  induction xs with
  | nil => simp at h
  | cons x xs ih =>
    rw [removeEntry, map_cons]
    by_cases hx : x.1 = epoch
    · simp [hx]
    · rw [map_cons, mem_cons] at h
      obtain ⟨hremoved, hmap⟩ := ih (h.resolve_left fun heq => hx heq.symm)
      rw [if_neg hx, erase_cons_tail (by simpa using hx), ← hmap]
      exact ⟨hremoved, rfl⟩

/-- The place of an epoch in a list of children is where it stands, if it does. -/
lemma removeLiveChild_eq {r : BranchRecord} (h : r.liveChildren.Pairwise (· ≤ ·)) (epoch : ℕ) :
    r.removeLiveChild epoch =
      if epoch ∈ r.liveChildren then
        (true, { r with liveChildren := r.liveChildren.erase epoch })
      else (false, r) := by
  have key : ∀ es : List ℕ, es.Pairwise (· ≤ ·) →
      let pos := (es.takeWhile (· < epoch)).length
      (es[pos]? = some epoch ↔ epoch ∈ es) ∧ (epoch ∈ es → es.eraseIdx pos = es.erase epoch) := by
    intro es hes
    induction es with
    | nil => simp
    | cons e es ih =>
      rw [pairwise_cons] at hes
      obtain ⟨hmem, herase⟩ := ih hes.2
      rcases lt_trichotomy e epoch with hlt | heq | hgt
      · have hne : epoch ≠ e := hlt.ne'
        simp only [takeWhile_cons, hlt, decide_true, if_true, length_cons,
          getElem?_cons_succ, hmem, mem_cons, hne, false_or, eraseIdx_cons_succ,
          true_and]
        intro hin
        rw [herase hin, erase_cons_tail (by simpa using hlt.ne)]
      · simp [heq]
      · have hnone : epoch ∉ es := fun hin => absurd (hes.1 epoch hin) (not_le.mpr hgt)
        have hne : ¬e = epoch := hgt.ne'
        simp [hgt.le, hnone, hne, Ne.symm hne]
  obtain ⟨hmem, herase⟩ := key r.liveChildren h
  simp only [removeLiveChild, hmem]
  split_ifs with hin
  · rw [herase hin]
  · rfl

lemma mem_of_mem_removeEntry (h : y ∈ (removeEntry epoch xs).2) : y ∈ xs := by
  induction xs with
  | nil => simp [removeEntry] at h
  | cons x xs ih =>
    rw [removeEntry] at h
    split_ifs at h
    · exact mem_cons_of_mem _ h
    · rcases mem_cons.mp h with rfl | h
      · exact mem_cons_self
      · exact mem_cons_of_mem _ (ih h)

/-! ## Entries that count -/

namespace TableBranchCatalog

variable {t : TableBranchCatalog}

def Unreaped (t : TableBranchCatalog) (id : ℕ) : Prop :=
  ∃ r, t.core id = some r ∧ r.state ≠ .reaped

/-- Every child that is listed was not reaped, or is kept because of children of its own that are
listed, and so on down. -/
inductive Settled (t : TableBranchCatalog) : ℕ → Prop
  | intro (p : ℕ)
      (kept : ∀ x ∈ t.children p, ¬t.Unreaped x.2 → t.children x.2 ≠ [])
      (below : ∀ x ∈ t.children p, ¬t.Unreaped x.2 → Settled t x.2) : Settled t p

/-- Every child that is listed has a record. -/
def Known (t : TableBranchCatalog) : Prop :=
  ∀ (p : ℕ) (x : ChildEntry), x ∈ t.children p → ∃ r, t.core x.2 = some r

lemma childLiveness_ok (hk : t.Known) (hx : x ∈ t.children p) :
    t.Unreaped x.2 ∧ t.childLiveness p x = .ok .live ∨
      ¬t.Unreaped x.2 ∧ t.childLiveness p x = .ok (.reapedWithSubtree x.2) := by
  obtain ⟨r, hr⟩ := hk p x hx
  by_cases hs : r.state = .reaped
  · refine .inr ⟨?_, by simp [childLiveness, hr, hs]⟩
    rintro ⟨r', hr', hs'⟩
    rw [hr, Option.some.injEq] at hr'
    exact hs' (hr' ▸ hs)
  · exact .inl ⟨⟨r, hr, hs⟩, by simp [childLiveness, hr, hs]⟩

/-- A scan finds a child that was not reaped, or leaves all of them to be looked into. -/
lemma scanEntries_spec (hk : t.Known) (entries : List ChildEntry) :
    (∀ x ∈ entries, x ∈ t.children p) → ∀ pending,
      t.scanEntries p entries pending = .ok none ∨
      (∀ x ∈ entries, ¬t.Unreaped x.2) ∧
        t.scanEntries p entries pending = .ok (some ((entries.map snd).reverse ++ pending)) := by
  induction entries with
  | nil => exact fun _ pending => .inr ⟨by simp, rfl⟩
  | cons x entries ih =>
    intro hsub pending
    rw [forall_mem_cons] at hsub
    rcases childLiveness_ok hk hsub.1 with ⟨-, hx⟩ | ⟨hreaped, hx⟩
    · exact .inl (by rw [scanEntries, hx])
    · rw [scanEntries, hx]
      rcases ih hsub.2 (x.2 :: pending) with hnone | ⟨hall, hsome⟩
      · exact .inl hnone
      · exact .inr ⟨forall_mem_cons.mpr ⟨hreaped, hall⟩, by simp [hsome]⟩

/-- Below a branch where every entry counts there is something that was not reaped. -/
lemma searchLive_of_settled (hk : t.Known) (hp : t.Settled p) :
    t.children p ≠ [] → ∀ pending, ∃ n, ∀ fuel ≥ n,
      t.searchLive fuel (p :: pending) = some (.ok true) := by
  induction hp with
  | intro p kept _ ih =>
    intro hne pending
    rcases scanEntries_spec hk (t.childrenOf p) (p := p)
      (fun x hx => mem_reverse.mp hx) pending with hlive | ⟨hall, hscan⟩
    · refine ⟨1, fun fuel hfuel => ?_⟩
      obtain ⟨fuel, rfl⟩ : ∃ n, fuel = n + 1 := ⟨fuel - 1, by omega⟩
      rw [searchLive, hlive]
    · -- The entry of the lowest epoch was put on top.
      obtain ⟨x, xs, hx⟩ := exists_cons_of_ne_nil hne
      have hmem : x ∈ t.children p := by simp [hx]
      have hreaped := hall x (mem_reverse.mpr hmem)
      obtain ⟨n, hn⟩ := ih x hmem hreaped (kept x hmem hreaped) (xs.map snd ++ pending)
      refine ⟨n + 1, fun fuel hfuel => ?_⟩
      obtain ⟨fuel, rfl⟩ : ∃ n, fuel = n + 1 := ⟨fuel - 1, by omega⟩
      rw [searchLive, hscan]
      simpa [childrenOf, hx] using hn fuel (by omega)

lemma hasLiveChildren_empty (h : t.children p = []) {fuel : ℕ} (hfuel : 0 < fuel) :
    t.hasLiveChildren fuel p = some (.ok false) := by
  obtain ⟨fuel, rfl⟩ : ∃ n, fuel = n + 1 := ⟨fuel - 1, by omega⟩
  simp [hasLiveChildren, searchLive, childrenOf, h, scanEntries]

lemma hasLiveChildren_settled (hk : t.Known) (hp : t.Settled p) :
    ∃ n, ∀ fuel ≥ n, t.hasLiveChildren fuel p = some (.ok (!(t.children p).isEmpty)) := by
  by_cases hne : t.children p = []
  · exact ⟨1, fun fuel hfuel => by rw [hasLiveChildren_empty hne hfuel, hne]; rfl⟩
  · obtain ⟨n, hn⟩ := searchLive_of_settled hk hp hne []
    refine ⟨n, fun fuel hfuel => ?_⟩
    rw [hasLiveChildren, hn fuel hfuel]
    simp [hne]

lemma liveChildAt_settled (hk : t.Known) (hp : t.Settled p)
    (hx : x ∈ t.children p) : ∃ n, ∀ fuel ≥ n, t.liveChildAt fuel p x = some (.ok true) := by
  obtain ⟨r, hr⟩ := hk p x hx
  obtain ⟨_, kept, below⟩ := hp
  by_cases hs : r.state = .reaped
  · have hreaped : ¬t.Unreaped x.2 := by
      rintro ⟨r', hr', hs'⟩
      rw [hr, Option.some.injEq] at hr'
      exact hs' (hr' ▸ hs)
    obtain ⟨n, hn⟩ := hasLiveChildren_settled hk (below x hx hreaped)
    refine ⟨n, fun fuel hfuel => ?_⟩
    simp [liveChildAt, hr, hn fuel hfuel, kept x hx hreaped]
  · exact ⟨0, fun fuel _ => by simp [liveChildAt, hr, hs]⟩

/-- The first of some entries of a branch where every one counts. -/
lemma firstLive_settled (hk : t.Known) (hp : t.Settled p) (entries : List ChildEntry)
    (hsub : ∀ x ∈ entries, x ∈ t.children p) :
    ∃ n, ∀ fuel ≥ n, t.firstLive fuel p entries = some (.ok (entries.head?.map fst)) := by
  cases entries with
  | nil => exact ⟨0, fun fuel _ => rfl⟩
  | cons x entries =>
    obtain ⟨n, hn⟩ := liveChildAt_settled hk hp (hsub x mem_cons_self)
    exact ⟨n, fun fuel hfuel => by simp [firstLive, hn fuel hfuel]⟩

end TableBranchCatalog

/-! ## The same answers -/

namespace Sim

variable {c : LogBranchCatalog} {t : TableBranchCatalog} {reused : List ℕ}

lemma known_core (h : Sim c t reused) : t.Known := fun p x hx => by
  obtain ⟨r, hr⟩ := h.known p x hx
  exact ⟨_, by rw [h.core_eq, hr, Option.map_some]⟩

lemma map_children (h : Sim c t reused) (p : ℕ) :
    (t.children p).map fst = c.liveChildren p := by
  rw [(h.slots p).children]
  cases hr : c.records[p]? <;> simp [LogBranchCatalog.liveChildren, hr]

lemma sorted_children (h : Sim c t reused) (p : ℕ) : (c.liveChildren p).Pairwise (· ≤ ·) := by
  unfold LogBranchCatalog.liveChildren
  cases hr : c.records[p]? with
  | none => exact Pairwise.nil
  | some r => exact (h.slot hr).sorted r rfl

lemma liveChildInEpochRange_eq (h : Sim c t reused) (p lo hi : ℕ) :
    c.liveChildInEpochRange p lo hi = (decide (lo < hi) &&
      (c.liveChildren p).any fun e => lo ≤ e ∧ e < hi) := by
  have hsorted := h.sorted_children p
  unfold LogBranchCatalog.liveChildInEpochRange LogBranchCatalog.liveChildren at *
  cases hr : c.records[p]? with
  | none => simp
  | some r =>
    simp only [hr, Option.elim_some, Option.any_some] at *
    rw [Bool.eq_iff_iff, Bool.not_eq_true', ← Bool.not_eq_true, reclaimable_iff hsorted]
    simp only [Bool.and_eq_true, any_eq_true, decide_eq_true_eq]
    push Not
    exact ⟨fun ⟨e, he, hin⟩ => ⟨by omega, e, he, hin⟩, fun h => h.2⟩

/-- Where every entry counts, the catalogs answer alike what is asked about children. -/
lemma children_agree (h : Sim c t reused) (hp : t.Settled p) : ∃ n, ∀ fuel ≥ n,
      t.maxLiveChild fuel p = some (.ok (c.maxLiveChild p)) ∧
      t.hasLiveChildren fuel p = some (.ok (c.hasLiveChildren p)) := by
  obtain ⟨n₁, h₁⟩ := firstLive_settled h.known_core hp (t.childrenOf p)
    fun x hx => mem_reverse.mp hx
  obtain ⟨n₂, h₂⟩ := hasLiveChildren_settled h.known_core hp
  refine ⟨max n₁ n₂, fun fuel hfuel => ⟨?_, ?_⟩⟩
  · rw [maxLiveChild, h₁ fuel (by omega), LogBranchCatalog.maxLiveChild, ← h.map_children]
    simp [childrenOf]
  · rw [h₂ fuel (by omega), LogBranchCatalog.hasLiveChildren, ← h.map_children]
    simp

lemma range_agree (h : Sim c t reused) (hp : t.Settled p) (lo hi : ℕ) : ∃ n, ∀ fuel ≥ n,
      t.liveChildInEpochRange fuel p lo hi = some (.ok (c.liveChildInEpochRange p lo hi)) := by
  rw [h.liveChildInEpochRange_eq, ← h.map_children]
  by_cases hlt : lo < hi
  · obtain ⟨n, hn⟩ := firstLive_settled h.known_core hp
      ((t.childrenOf p).filter fun x => lo ≤ x.1 ∧ x.1 ≤ hi - 1)
      fun x hx => mem_reverse.mp (mem_of_mem_filter hx)
    refine ⟨n, fun fuel hfuel => ?_⟩
    rw [liveChildInEpochRange, if_neg (not_le.mpr hlt), hn fuel hfuel]
    simp only [Option.map_some, Except.map, Option.isSome_map, hlt, decide_true, Bool.true_and,
      any_map, Option.some.injEq, Except.ok.injEq]
    rw [Bool.eq_iff_iff, Option.isSome_iff_ne_none, ne_eq, head?_eq_none_iff,
      filter_eq_nil_iff, any_eq_true]
    push Not
    refine exists_congr fun x => ?_
    simp only [childrenOf, mem_reverse, decide_eq_true_eq, Function.comp_apply]
    refine and_congr_right fun _ => and_congr_right fun _ => ?_
    omega
  · exact ⟨0, fun fuel _ => by simp [liveChildInEpochRange, hlt]⟩

end Sim

end FerroDb.Branch
