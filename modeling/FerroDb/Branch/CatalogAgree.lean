import FerroDb.Branch.CatalogCalls

/-!
# The two catalogs agree

For calls that both catalogs understand alike, the catalog in a tree accepts and refuses what the
catalog in memory does, and answers every query in the same way.
-/

namespace FerroDb.Branch

open List hiding mem_map
open Std (LawfulEqCmp TreeMap TreeSet)

open Library TableBranchCatalog Option LogBranchCatalog

/-! ## Runs -/

/-- Every call of a run is one that the catalogs understand alike when it is made. -/
def AdmissibleRun (c : LogBranchCatalog) (t : TableBranchCatalog) : List CatalogOp → Prop
  | [] => True
  | op :: ops => Admissible c t op ∧
    ∀ fuel o, t.apply fuel op = some o → AdmissibleRun (c.apply op).catalog o.catalog ops

/-- The slots that forks took from the released ones. -/
def LogBranchCatalog.reusedBy (c : LogBranchCatalog) : List CatalogOp → List ℕ
  | [] => []
  | op :: ops => c.reuses op ++ (c.apply op).catalog.reusedBy ops

namespace Sim

open LogBranchCatalog

variable {c : LogBranchCatalog} {t : TableBranchCatalog} {reused : List ℕ}

lemma run (h : Sim c t reused) {ops : List CatalogOp} (hrun : AdmissibleRun c t ops) :
    ∃ n replies t', (∀ fuel ≥ n, t.run fuel ops = some (replies, t')) ∧
      List.Forall₂ SameReply (c.run ops).1 replies ∧
      Sim (c.run ops).2 t' (c.reusedBy ops ++ reused) := by
  induction ops generalizing c t reused with
  | nil => exact ⟨0, [], t, fun _ _ => rfl, .nil, h⟩
  | cons op ops ih =>
    obtain ⟨hop, hrest⟩ := hrun
    obtain ⟨n, o, ho, hfollows⟩ := h.follows_apply hop
    obtain ⟨m, replies, t', hrun', hreplies, hsim⟩ :=
      ih hfollows.sim (hrest n o (ho n le_rfl))
    refine ⟨max n m, o.reply :: replies, t', fun fuel hfuel => ?_, .cons hfollows.reply hreplies,
      hsim.mono fun id hid => ?_⟩
    · rw [TableBranchCatalog.run, ho fuel (by omega)]
      simp only [bind_eq_bind, bind_some, hrun' fuel (by omega)]
      rfl
    · simp only [reusedBy, mem_append] at hid ⊢
      tauto

lemma start (trunkRoot : ℕ) : Sim (.inMemory trunkRoot) (.create trunkRoot) [] := by
  have hlookup (id : ℕ) : (inMemory trunkRoot).records[id]? =
      if id = 0 then some (.trunk trunkRoot trunkLease) else none := by
    rw [inMemory, getElem?_insert_if]
    simp
  have hcore (id : ℕ) : (create trunkRoot).records[id]? =
      if id = 0 then some (.narrow (.trunk trunkRoot trunkLease)) else none := by
    rw [create, getElem?_insert_if]
    simp
  refine
    { slots := fun id => ?_
      known := by simp [create]
      free := by simp [create, inMemory]
      freeSorted := Pairwise.nil
      live := by simp [create, inMemory,
        TreeSet.size_insert]
      epoch := rfl
      nextId := rfl
      below := fun id r hr => ?_ }
  · rw [hlookup]
    by_cases hid : id = 0
    · subst hid
      refine
        { keyed := by simp [BranchRecord.trunk, BranchId.trunk]
          record := by rw [hcore]; rfl
          arenas := by simp [create, BranchRecord.trunk]
          arenasSorted := by simp [BranchRecord.trunk]
          envelope := by simp [create, BranchRecord.trunk]
          admitted := by simp [create]
          states := fun s _ => ?_
          reaped := by simp [BranchRecord.trunk]
          deadlines := by
            simp [create, BranchRecord.trunk, inDeadlineIndex, BranchId.trunk]
          children := by simp [create, BranchRecord.trunk]
          sorted := by simp [BranchRecord.trunk] }
      cases s <;> simp [create, BranchRecord.trunk]
    · rw [if_neg hid]
      refine
        { keyed := by simp
          record := by rw [hcore, if_neg hid]; rfl
          arenas := by simp [create]
          arenasSorted := by simp
          envelope := by simp [create]
          admitted := by simp [create]
          states := fun s _ => ?_
          reaped := by simp
          deadlines := by simp [create]
          children := by simp [create]
          sorted := by simp }
      cases s <;> simp [create, Ne.symm hid]
  · rw [hlookup] at hr
    split_ifs at hr with hid
    rw [hid]
    exact Nat.one_pos

/-! ## Queries -/

lemma get_eq (h : Sim c t reused) (b : BranchId) :
    t.get b = (c.get b).map BranchRecord.childless := by
  unfold TableBranchCatalog.get LogBranchCatalog.get
  rw [h.core_eq]
  cases hx : c.records[b.id]? with
  | none => rfl
  | some x =>
    dsimp only [map_some]
    rw [checkReadable_narrow, (h.slot hx).hydrate]
    cases x.checkReadable b <;> rfl

lemma getRaw_eq (h : Sim c t reused) (id : ℕ) :
    t.getRaw id = (c.getRaw id).map BranchRecord.childless := by
  unfold TableBranchCatalog.getRaw LogBranchCatalog.getRaw
  rw [h.core_eq]
  cases hx : c.records[id]? with
  | none => rfl
  | some x =>
    dsimp only [map_some]
    rw [(h.slot hx).hydrate]
    rfl

/-- The records in memory, in the order of their slots. -/
lemma sorted_records (h : Sim c t reused) :
    (c.records.toList.map Prod.snd).Pairwise fun a b => a.branchId.id < b.branchId.id := by
  rw [pairwise_map]
  refine TreeMap.ordered_keys_toList.imp_of_mem fun {a b} ha hb hab => ?_
  have hid (p : ℕ × BranchRecord) (hp : p ∈ c.records.toList) : p.2.branchId.id = p.1 :=
    (h.slot (TreeMap.mem_toList_iff_getElem?_eq_some.mp hp)).keyed p.2 rfl
  rw [hid a ha, hid b hb]
  exact Nat.compare_eq_lt.mp hab

lemma mem_records (h : Sim c t reused) {x : BranchRecord} :
    x ∈ c.records.toList.map Prod.snd ↔ c.records[x.branchId.id]? = some x := by
  rw [List.mem_map]
  constructor
  · rintro ⟨⟨id, x⟩, hp, rfl⟩
    have hx := TreeMap.mem_toList_iff_getElem?_eq_some.mp hp
    rwa [(h.slot hx).keyed x rfl]
  · exact fun hx => ⟨(_, x), TreeMap.mem_toList_iff_getElem?_eq_some.mpr hx, rfl⟩

/-- The slots of a state are found, and no others, if no entry of the index is left over. -/
lemma inState_eq (h : Sim c t reused) {s : BranchState}
    (hs : s = .reaped → ∀ id ∈ reused, ∀ r, c.records[id]? = some r → r.state = .reaped) :
    t.inState s = (c.inState s).map BranchRecord.childless := by
  -- An entry of the index names a slot with a record of that state.
  have hindex (id : ℕ) (x : BranchRecord) (hx : c.records[id]? = some x) :
      id ∈ t.states s ↔ x.state = s := by
    have hslot := h.slot hx
    by_cases hexact : s ≠ .reaped ∨ id ∉ reused
    · rw [hslot.states s hexact]
      simp
    · push Not at hexact
      obtain ⟨rfl, hreused⟩ := hexact
      have hreaped := hs rfl id hreused x hx
      exact ⟨fun _ => hreaped, fun _ => hslot.reaped x rfl hreaped⟩
  let found := (t.states s).toList.filterMap fun id => (t.core id).map t.hydrate
  have hread (id : ℕ) (y : BranchRecord) (hy : (t.core id).map t.hydrate = some y) :
      ∃ x, c.records[id]? = some x ∧ y = x.childless ∧ x.branchId.id = id := by
    rw [h.core_eq] at hy
    cases hx : c.records[id]? with
    | none => simp [hx] at hy
    | some x =>
      rw [hx, map_some, map_some, some.injEq, (h.slot hx).hydrate] at hy
      exact ⟨x, rfl, hy.symm, (h.slot hx).keyed x rfl⟩
  have hfound : found.Pairwise fun a b => a.branchId.id < b.branchId.id := by
    refine pairwise_filterMap.mpr ((toList_sorted _).imp fun {i j} hij a ha b hb => ?_)
    obtain ⟨x, -, rfl, hxi⟩ := hread i a ha
    obtain ⟨y, -, rfl, hyj⟩ := hread j b hb
    change x.branchId.id < y.branchId.id
    rwa [hxi, hyj]
  change found.insertionSort _ = _
  rw [insertionSort_of_sortedBy (f := fun r : BranchRecord => r.branchId.id) hfound]
  refine eq_of_sortedBy (f := fun r : BranchRecord => r.branchId.id) hfound ?_ fun y => ?_
  · exact pairwise_map.mpr (h.sorted_records.filter _)
  · simp only [found, mem_filterMap, TreeSet.mem_toList, List.mem_map,
      LogBranchCatalog.inState, mem_filter, h.mem_records, decide_eq_true_eq]
    constructor
    · rintro ⟨id, hid, hy⟩
      obtain ⟨x, hx, rfl, hxid⟩ := hread id y hy
      exact ⟨x, ⟨hxid ▸ hx, (hindex id x hx).mp hid⟩, rfl⟩
    · rintro ⟨x, ⟨hx, hstate⟩, rfl⟩
      refine ⟨_, (hindex _ x hx).mpr hstate, ?_⟩
      rw [h.core_eq, hx, map_some, map_some, (h.slot hx).hydrate]

lemma expiredBefore_eq (h : Sim c t reused) (now : ℕ) :
    t.expiredBefore now = c.expiredBefore now := by
  let keys := t.deadlines.toList.filter fun k => k.millis ≤ now
  let found := (keys.filterMap fun k => t.core k.id).filter fun r =>
    inDeadlineIndex r.state r.branchId && r.leaseDeadline ≤ now
  have hread (k : DeadlineKey) (hk : k ∈ keys) (y : CoreRecord) (hy : t.core k.id = some y) :
      y.branchId.id = k.id ∧ y.leaseDeadline = k.millis := by
    have hk' := TreeSet.mem_toList.mp (mem_of_mem_filter hk)
    obtain ⟨x, hx, -, hlease⟩ := ((h.slots k.id).deadlines k.millis).mp hk'
    rw [h.core_eq, hx, map_some, some.injEq] at hy
    subst hy
    exact ⟨(h.slot hx).keyed x rfl, hlease⟩
  have hdistinct : found.Pairwise fun a b => a.branchId.id ≠ b.branchId.id := by
    refine Pairwise.filter _ (pairwise_filterMap.mpr ?_)
    have hkeys : keys.Pairwise (· ≠ ·) := by
      refine ((TreeSet.distinct_toList (t := t.deadlines)).imp fun {a b} hne heq => ?_).filter _
      exact hne (LawfulEqCmp.compare_eq_iff_eq.mpr heq)
    refine hkeys.imp_of_mem fun {i j} hi hj hne a ha b hb heq => hne ?_
    obtain ⟨hai, hal⟩ := hread i hi a ha
    obtain ⟨hbj, hbl⟩ := hread j hj b hb
    have hid : i.id = j.id := by rw [← hai, ← hbj, heq]
    rw [hid] at ha
    rw [ha, some.injEq] at hb
    subst hb
    cases i
    simp_all
  change found.insertionSort _ = _
  refine eq_of_sortedBy (f := fun r : CoreRecord => r.branchId.id)
    (sortedBy_insertionSort hdistinct) (pairwise_map.mpr (h.sorted_records.filter _))
    fun y => ?_
  simp only [mem_insertionSort, found, keys, mem_filter, mem_filterMap,
    TreeSet.mem_toList, LogBranchCatalog.expiredBefore, List.mem_map, h.mem_records,
    Bool.and_eq_true, decide_eq_true_eq]
  constructor
  · rintro ⟨⟨k, ⟨hk, -⟩, hy⟩, hin, hle⟩
    obtain ⟨x, hx, -, -⟩ := ((h.slots k.id).deadlines k.millis).mp hk
    rw [h.core_eq, hx, map_some, some.injEq] at hy
    subst hy
    have hid := (h.slot hx).keyed x rfl
    simp only [inDeadlineIndex, Bool.and_eq_true, decide_eq_true_eq] at hin
    exact ⟨x, ⟨hid ▸ hx, hin, hle⟩, rfl⟩
  · rintro ⟨x, ⟨hx, hin, hle⟩, rfl⟩
    have hindex : inDeadlineIndex x.state x.branchId := by
      simpa [inDeadlineIndex] using hin
    refine ⟨⟨⟨x.leaseDeadline, x.branchId.id⟩, ⟨?_, hle⟩, ?_⟩, hindex, hle⟩
    · exact ((h.slots _).deadlines _).mpr ⟨x, hx, hindex, rfl⟩
    · rw [h.core_eq, hx, map_some]

end Sim

/-! ## Interchangeable -/

/-- After any calls that both understand alike, the two catalogs have accepted and refused the
same ones with the same replies, and answer every query alike: about records all but their
children, which the tree never fills in; about reaped branches if no slot that was taken again is
in use; about the children of a branch if they are settled. -/
theorem catalogs_interchangeable (trunkRoot : ℕ) (ops : List CatalogOp)
    (hrun : AdmissibleRun (.inMemory trunkRoot) (.create trunkRoot) ops) :
    ∃ n replies t,
      (∀ fuel ≥ n, (TableBranchCatalog.create trunkRoot).run fuel ops = some (replies, t)) ∧
      List.Forall₂ SameReply ((inMemory trunkRoot).run ops).1 replies ∧
      let c := ((inMemory trunkRoot).run ops).2
      (∀ b, t.get b = (c.get b).map BranchRecord.childless) ∧
      (∀ id, t.getRaw id = (c.getRaw id).map BranchRecord.childless) ∧
      (∀ s, (s = .reaped → ∀ id ∈ (inMemory trunkRoot).reusedBy ops,
          ∀ r, c.records[id]? = some r → r.state = .reaped) →
        t.inState s = (c.inState s).map BranchRecord.childless) ∧
      (∀ now, t.expiredBefore now = c.expiredBefore now) ∧
      t.liveCount = c.liveCount ∧
      ∀ p, t.Settled p → ∀ lo hi, ∃ n, ∀ fuel ≥ n,
        t.maxLiveChild fuel p = some (.ok (c.maxLiveChild p)) ∧
        t.liveChildInEpochRange fuel p lo hi = some (.ok (c.liveChildInEpochRange p lo hi)) ∧
        t.hasLiveChildren fuel p = some (.ok (c.hasLiveChildren p)) := by
  obtain ⟨n, replies, t, ht, hreplies, hsim⟩ := (Sim.start trunkRoot).run hrun
  rw [append_nil] at hsim
  refine ⟨n, replies, t, ht, hreplies, hsim.get_eq, hsim.getRaw_eq, fun s hs => hsim.inState_eq hs,
    hsim.expiredBefore_eq, hsim.live.symm, fun p hp lo hi => ?_⟩
  obtain ⟨n₁, h₁⟩ := hsim.children_agree hp
  obtain ⟨n₂, h₂⟩ := hsim.range_agree hp lo hi
  exact ⟨max n₁ n₂, fun fuel hfuel =>
    ⟨(h₁ fuel (by omega)).1, h₂ fuel (by omega), (h₁ fuel (by omega)).2⟩⟩

theorem catalogs_interchangeable_fork :
    AdmissibleRun (.inMemory 0) (.create 0) [.fork .trunk 5, .setRoot ⟨1, 0⟩ 7] ∧
    ∃ n replies t, ∀ fuel ≥ n,
      (TableBranchCatalog.create 0).run fuel [.fork .trunk 5, .setRoot ⟨1, 0⟩ 7] =
        some (replies, t) ∧
      List.Forall₂ SameReply
        ((inMemory 0).run [.fork .trunk 5, .setRoot ⟨1, 0⟩ 7]).1 replies := by
  have hrun : AdmissibleRun (.inMemory 0) (.create 0) [.fork .trunk 5, .setRoot ⟨1, 0⟩ 7] := by
    refine ⟨⟨by decide, by simp [inMemory], by simp [inMemory], by decide +kernel⟩,
      fun fuel o _ => ⟨trivial, fun _ _ _ => trivial⟩⟩
  obtain ⟨n, replies, t, ht, hreplies, -⟩ := catalogs_interchangeable 0 _ hrun
  exact ⟨hrun, n, replies, t, fun fuel hfuel => ⟨ht fuel hfuel, hreplies⟩⟩

/-- A branch is forked, reaped, detached and its slot released, and the next fork takes the slot.
The catalog in a tree lists the new branch, which is live, among those that were reaped: the entry
of the index by state for the old one was never taken away. -/
theorem inState_lists_live_branch :
    let ops := [.fork .trunk 5, .setState ⟨1, 0⟩ .live .reaped, .detachChild 0 1, .releaseId 1,
      .fork .trunk 6]
    let c := (inMemory 0).run ops
    c.1.map (fun reply => reply.toOption.isSome) = [true, true, true, true, true] ∧
    (c.2.inState .reaped).map BranchRecord.branchId = [] ∧
    (((TableBranchCatalog.create 0).run 2 ops).map fun t =>
      (t.1.map fun reply => reply.toOption.isSome,
        (t.2.inState .reaped).map fun r => (r.branchId, r.state))) =
      some ([true, true, true, true, true], [(⟨1, 1⟩, .live)]) := by
  decide +kernel

end FerroDb.Branch
