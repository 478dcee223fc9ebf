import FerroDb.Library.Fallible
import FerroDb.Storage.DiskManager

/-!
# No page is handed out twice

As long as every bitmap page lies in the run of page ids it describes, the chain of bitmap pages
marks all pages in use, its own among them, and what `allocate` returns is a page no one has.
A bitmap page behind a long reserved region lies outside its run, and is handed out itself.
-/

namespace FerroDb.Storage

open Library List Nat Option Except
open Std (TreeMap)

variable {regions : List Region} {offset c base last : ℕ} {out : Except FerroError (ℕ × Page)}
  {d' : DiskManager} {q : Page}

namespace DiskManager

variable {f f' : PageFile} {ids freed : List ℕ} {d d' : DiskManager} {page : Page}
  {k b p s t n : ℕ}

/-! ## Slots of a bitmap page -/

lemma slotSet_eq : slotSet page s = page.bit (s / 8 + 4) (s % 8) := by
  have h := ByteMap.and_one_shiftLeft_eq_zero (p := page) (i := s / 8 + 4)
    (mod_lt s (by decide : 8 > 0))
  unfold slotSet
  cases hbit : page.bit (s / 8 + 4) (s % 8) <;> simp_all

lemma slotSet_setSlot : slotSet (setSlot page s) t = (decide (t = s) || slotSet page t) := by
  rw [slotSet_eq, slotSet_eq, setSlot, ByteMap.bit_setBit (mod_lt s (by decide))]
  have hiff : t / 8 + 4 = s / 8 + 4 ∧ t % 8 = s % 8 ↔ t = s := by omega
  simp only [hiff]

lemma slotSet_clearSlot : slotSet (clearSlot page s) t = (slotSet page t && !decide (t = s)) := by
  rw [slotSet_eq, slotSet_eq, clearSlot, ByteMap.bit_clearBit (mod_lt t (by decide))
    (mod_lt s (by decide))]
  have hiff : t / 8 + 4 = s / 8 + 4 ∧ t % 8 = s % 8 ↔ t = s := by omega
  simp only [hiff]

@[simp] lemma slotSet_zeros : slotSet ByteMap.zeros s = false := by simp [slotSet_eq]

lemma slotSet_putU32 : slotSet (page.putU32 n) s = slotSet page s := by
  rw [slotSet_eq, slotSet_eq, ByteMap.bit_putU32 (by omega)]

@[simp] lemma nextBitmap_setSlot : nextBitmap (setSlot page s) = nextBitmap page :=
  ByteMap.u32_setBit (by omega)

@[simp] lemma nextBitmap_clearSlot : nextBitmap (clearSlot page s) = nextBitmap page :=
  ByteMap.u32_clearBit (by omega)

lemma highestSlot_some (h : highestSlot page = some s) :
    s < bitsPerBitmap ∧ ∀ t < bitsPerBitmap, slotSet page t → t ≤ s := by
  obtain ⟨hset, above, below, hlist, habove⟩ := find?_eq_some_iff_append.mp h
  have hmem : s ∈ (range bitsPerBitmap).reverse := by simp [hlist]
  have hsorted : (range bitsPerBitmap).reverse.Pairwise (· > ·) :=
    pairwise_reverse.mpr pairwise_lt_range
  refine ⟨by simpa using hmem, fun t ht hslot => ?_⟩
  have htmem : t ∈ above ++ s :: below := by
    rw [← hlist]
    simpa using ht
  rw [hlist, pairwise_append, pairwise_cons] at hsorted
  rcases mem_append.mp htmem with ht | ht
  · exact absurd hslot (by simpa using habove t ht)
  · rcases mem_cons.mp ht with rfl | ht
    · exact le_rfl
    · exact (hsorted.2.1.1 t ht).le

lemma highestSlot_none (h : highestSlot page = none) (ht : t < bitsPerBitmap) :
    slotSet page t = false := by
  have hnone := find?_eq_none.mp h t (by simpa using ht)
  simpa using hnone

/-! ## The chain -/

lemma lt_length (h : ids[k]? = some b) : k < ids.length :=
  (List.getElem?_eq_some_iff.mp h).1

/-- The bitmap pages are `ids`, each linked to the next one. -/
structure Mapped (f : PageFile) (ids : List ℕ) : Prop where
  first : ids[0]? = some 0
  link : ∀ k b, ids[k]? = some b → nextBitmap (f.page b) = (ids[k + 1]?).getD 0
  nodup : ids.Nodup
  stored : ∀ b ∈ ids, b < f.len

/-- The chain marks page `p` as used. -/
def Marked (f : PageFile) (ids : List ℕ) (p : ℕ) : Prop :=
  ∃ b, ids[p / bitsPerBitmap]? = some b ∧ slotSet (f.page b) (p % bitsPerBitmap) = true

namespace Mapped

section

variable (h : Mapped f ids)
include h

lemma length_pos : 0 < ids.length :=
  lt_length h.first

lemma length_le : ids.length ≤ f.len := by
  have hsub : ids ⊆ List.range f.len := fun b hb => mem_range.mpr (h.stored b hb)
  simpa using (subperm_of_subset h.nodup hsub).length_le

lemma next_ne_zero (hk : ids[k + 1]? = some b) : b ≠ 0 := by
  rintro rfl
  have hlt := lt_length hk
  have heq := (getElem?_inj hlt h.nodup).mp (hk.trans h.first.symm)
  omega

/-- The link of a bitmap page, and whether the walk ends there. -/
lemma next (hk : ids[k]? = some b) : (ids[k + 1]? = none ∧ nextBitmap (f.page b) = 0) ∨
      ∃ c, ids[k + 1]? = some c ∧ nextBitmap (f.page b) = c ∧ c ≠ 0 := by
  rw [h.link k b hk]
  cases hn : ids[k + 1]? with
  | none => simp
  | some c => exact .inr ⟨c, rfl, rfl, h.next_ne_zero hn⟩

lemma read (hk : ids[k]? = some b) : f.read b = .ok (f.page b) := by
  simp [PageFile.read, h.stored b (mem_of_getElem? hk)]

lemma bitmapPagesLoop : ∀ fuel k b, ids[k]? = some b → ids.length - k ≤ fuel →
      bitmapPagesLoop f fuel b = ids.drop k := by
  intro fuel
  induction fuel with
  | zero =>
    intro k b hk hfuel
    have := lt_length hk
    omega
  | succ fuel ih =>
    intro k b hk hfuel
    obtain ⟨hlt, rfl⟩ := List.getElem?_eq_some_iff.mp hk
    rw [DiskManager.bitmapPagesLoop, drop_eq_getElem_cons hlt]
    rcases h.next hk with ⟨hnone, hzero⟩ | ⟨c, hc, hnext, hne⟩
    · have hend := drop_eq_nil_of_le (by simpa using hnone)
      simp [hzero, hend]
    · simp only [hnext, hne, if_false]
      rw [ih (k + 1) c hc (by omega)]

end

end Mapped

lemma bitmapPages_eq (h : Mapped d.storage ids) : d.bitmapPages = ids := by
  have hloop := h.bitmapPagesLoop d.storage.len 0 0 h.first (by have := h.length_le; omega)
  simpa [bitmapPages] using hloop

/-- One past the highest page marked. -/
def above (highest : Option ℕ) : ℕ := (highest.map (· + 1)).getD 0

@[simp] lemma above_none : above none = 0 := rfl

@[simp] lemma above_some : above (some p) = p + 1 := rfl

lemma noteHighest_spec {highest : Option ℕ} (hk : ids[k]? = some b)
    (hr : (k + 1) * bitsPerBitmap ≤ 2 ^ 32) (hbelow : above highest ≤ k * bitsPerBitmap) :
    above highest ≤ above (noteHighest (f.page b) (k * bitsPerBitmap) highest) ∧
      above (noteHighest (f.page b) (k * bitsPerBitmap) highest) ≤ (k + 1) * bitsPerBitmap ∧
      ∀ p, p / bitsPerBitmap = k → Marked f ids p →
        p < above (noteHighest (f.page b) (k * bitsPerBitmap) highest) := by
  rw [succ_mul] at hr ⊢
  unfold noteHighest
  cases hs : highestSlot (f.page b) with
  | none =>
    refine ⟨le_rfl, by dsimp only; omega, ?_⟩
    rintro p rfl ⟨c, hc, hset⟩
    obtain rfl : b = c := some.inj (hk.symm.trans hc)
    rw [highestSlot_none hs (mod_lt p (by decide))] at hset
    exact absurd hset (by decide)
  | some slot =>
    obtain ⟨hslot, htop⟩ := highestSlot_some hs
    have hmod : (k * bitsPerBitmap + slot) % 2 ^ 32 = k * bitsPerBitmap + slot :=
      mod_eq_of_lt (by omega)
    simp only [above_some]
    refine ⟨by omega, by omega, ?_⟩
    rintro p rfl ⟨c, hc, hset⟩
    obtain rfl : b = c := some.inj (hk.symm.trans hc)
    have hle := htop _ (mod_lt p (by decide)) hset
    have hdiv := div_add_mod p bitsPerBitmap
    rw [mul_comm] at hdiv
    omega

/-- The page ids of the runs before the last one are small. -/
lemma offset_mod (hr : ids.length * bitsPerBitmap ≤ 2 ^ 32) (hk : k + 1 < ids.length) :
    (k * bitsPerBitmap + bitsPerBitmap) % 2 ^ 32 = (k + 1) * bitsPerBitmap := by
  have hpos : 0 < bitsPerBitmap := by decide
  have hrun : (k + 1 + 1) * bitsPerBitmap ≤ ids.length * bitsPerBitmap :=
    mul_le_mul_right _ hk
  rw [succ_mul, succ_mul] at hrun
  rw [succ_mul]
  exact mod_eq_of_lt (by omega)

/-- What the bitmap pages mark lies below the high-water mark. -/
lemma highWaterLoop_spec (h : Mapped f ids) (hr : ids.length * bitsPerBitmap ≤ 2 ^ 32) :
    ∀ fuel k b highest, ids[k]? = some b → ids.length - k ≤ fuel →
      above highest ≤ k * bitsPerBitmap →
      ∃ top, highWaterLoop f fuel b (k * bitsPerBitmap) highest = some (.ok top) ∧
        above highest ≤ above top ∧ above top ≤ ids.length * bitsPerBitmap ∧
        ∀ p, k ≤ p / bitsPerBitmap → Marked f ids p → p < above top := by
  intro fuel
  induction fuel with
  | zero =>
    intro k b highest hk hfuel
    have := lt_length hk
    omega
  | succ fuel ih =>
    intro k b highest hk hfuel hbelow
    have hlt := lt_length hk
    have hrun : (k + 1) * bitsPerBitmap ≤ ids.length * bitsPerBitmap :=
      mul_le_mul_right _ hlt
    obtain ⟨hmono, hup, hall⟩ := noteHighest_spec (f := f) hk (hrun.trans hr) hbelow
    rw [highWaterLoop, h.read hk]
    dsimp only
    rcases h.next hk with ⟨hnone, hzero⟩ | ⟨c, hc, hnext, hne⟩
    · rw [if_pos hzero]
      refine ⟨_, rfl, hmono, hup.trans hrun, fun p hp hmark => ?_⟩
      obtain ⟨c, hc, -⟩ := id hmark
      have hplt := lt_length hc
      have hlen : ids.length ≤ k + 1 := by simpa using hnone
      exact hall p (by omega) hmark
    · have hclt := lt_length hc
      obtain ⟨top, htop, hge, hle, hmarks⟩ := ih (k + 1) c _ hc (by omega) hup
      rw [if_neg (hnext ▸ hne), hnext, offset_mod hr hclt]
      refine ⟨top, htop, hmono.trans hge, hle, fun p hp hmark => ?_⟩
      rcases eq_or_lt_of_le hp with heq | hlt'
      · exact (hall p heq.symm hmark).trans_le hge
      · exact hmarks p hlt' hmark

lemma scanBitmapHighWater_spec (h : Mapped d.storage ids)
    (hr : ids.length * bitsPerBitmap ≤ 2 ^ 32) :
    ∃ top < 2 ^ 32, d.scanBitmapHighWater = some (.ok top) ∧
      top ≤ ids.length * bitsPerBitmap ∧ ∀ p, Marked d.storage ids p → p < top := by
  obtain ⟨top, htop, -, hle, hmarks⟩ := highWaterLoop_spec h hr d.storage.len 0 0 none h.first
    (by have := h.length_le; omega) (by simp)
  have hlt : above top < 2 ^ 32 := by
    change above top ≤ ids.length * 32736 at hle
    change ids.length * 32736 ≤ 2 ^ 32 at hr
    omega
  refine ⟨above top, hlt, ?_, hle, fun p => hmarks p (zero_le _)⟩
  have hmod : (top.map fun h => (h + 1) % 2 ^ 32).getD 0 = above top := by
    cases top with
    | none => rfl
    | some t => exact mod_eq_of_lt hlt
  simp only [zero_mul] at htop
  simp only [scanBitmapHighWater, htop, map_some, Except.map, hmod]

/-! ## What `allocate` does -/

lemma scanBitmap_some (h : scanBitmap regions page offset = some out) :
    ∃ s < bitsPerBitmap, trySlot regions page offset s = some out := by
  obtain ⟨byteIndex, hbyte, h⟩ := exists_of_findSome?_eq_some h
  split at h
  · obtain ⟨bitIndex, hbit, h⟩ := exists_of_findSome?_eq_some h
    have hrange : 4 ≤ byteIndex ∧ byteIndex < 4096 := by
      simpa [pageSize] using hbyte
    rw [mem_range] at hbit
    refine ⟨_, ?_, h⟩
    change _ < 32736
    omega
  · cases h

lemma scanBitmap_ok (h : scanBitmap regions page offset = some (.ok (c, q))) :
    ∃ s < bitsPerBitmap, slotSet page s = false ∧ c = (offset + s) % 2 ^ 32 ∧
      (∀ r ∈ regions, r.contains c = false) ∧ q = setSlot page s := by
  obtain ⟨s, hs, h⟩ := scanBitmap_some h
  refine ⟨s, hs, ?_⟩
  unfold trySlot at h
  split at h
  · cases h
  · next hslot =>
    dsimp only at h
    split at h
    · split at h <;> simp at h
    · next hfind =>
      obtain ⟨rfl, rfl⟩ := h
      refine ⟨by simpa using hslot, rfl, fun r hr => ?_, rfl⟩
      simpa using find?_eq_none.mp hfind r hr

lemma advancePastRegionsLoop_ok
    (hreg : ∀ r ∈ regions, r.hi ≤ u32Max) {pos : ℕ} (hpos : pos ≤ u32Max)
    (h : advancePastRegionsLoop regions n pos = .ok base) :
    pos ≤ base ∧ base ≤ u32Max ∧ ∀ r ∈ regions, r.blocks base = false := by
  induction n generalizing pos with
  | zero => exact absurd h (by simp [advancePastRegionsLoop])
  | succ n ih =>
    rw [advancePastRegionsLoop] at h
    split at h
    · next hfind =>
      simp only [ok.injEq] at h
      subst h
      exact ⟨le_rfl, hpos, fun r hr => by simpa using find?_eq_none.mp hfind r hr⟩
    · next r hfind =>
      split at h
      · exact absurd h (by simp)
      · have hmem := mem_of_find?_eq_some hfind
        have hblocks : r.blocks pos = true := by
          simpa using find?_some (p := fun r : Region => r.blocks pos) hfind
        have hlt : pos < r.hi := by
          simp only [Region.blocks, Region.contains, Bool.or_eq_true, Bool.and_eq_true,
            decide_eq_true_eq] at hblocks
          omega
        obtain ⟨hle, hrest⟩ := ih (hreg r hmem) h
        exact ⟨hlt.le.trans hle, hrest⟩

/-- The file with one more bitmap page. -/
def grownFile (f : PageFile) (last base : ℕ) : PageFile :=
  (f.write last ((f.page last).putU32 base)).write base
    (setSlot (setSlot ByteMap.zeros (base % bitsPerBitmap)) ((base + 1) % 2 ^ 32 % bitsPerBitmap))

/-- No bitmap page has anything to offer, and this is where the next one would go. -/
def GrowsAt (d : DiskManager) (base : ℕ) : Prop :=
  (∀ k b, d.bitmapPages[k]? = some b →
    scanBitmap d.regions (d.storage.page b) (k * bitsPerBitmap) = none) ∧
  ∃ top, d.scanBitmapHighWater = some (.ok top) ∧
    advancePastRegions d.regions (max top d.nextPageId) = .ok base

/-- How an allocation ends: refused, with a slot of a bitmap page, or with a new bitmap page behind
everything that is marked. -/
inductive Allocates (d : DiskManager) (ids : List ℕ) : Except FerroError ℕ → DiskManager → Prop
  | refused (e : FerroError) : Allocates d ids (.error e) d
  | found {k b s : ℕ} (hk : ids[k]? = some b) (hs : s < bitsPerBitmap)
      (hfree : slotSet (d.storage.page b) s = false)
      (hregions : ∀ r ∈ d.regions, r.contains (k * bitsPerBitmap + s) = false) :
      Allocates d ids (.ok (k * bitsPerBitmap + s))
        { d with storage := d.storage.write b (setSlot (d.storage.page b) s) }
  | grown {last base next : ℕ} (hlast : ids[ids.length - 1]? = some last)
      (hmarks : ∀ p, Marked d.storage ids p → p < base) (hbase : base < 2 ^ 32)
      (hregions : ∀ r ∈ d.regions, r.blocks base = false) (hnext : next < 2 ^ 32)
      (hgrows : d.GrowsAt base) :
      Allocates d ids (.ok ((base + 1) % 2 ^ 32)) { d with
        nextPageId := next
        storage := grownFile d.storage last base }

lemma grow_spec (h : Mapped d.storage ids) (hr : ids.length * bitsPerBitmap ≤ 2 ^ 32)
    (hnext : d.nextPageId < 2 ^ 32) (hreg : ∀ r ∈ d.regions, r.hi ≤ u32Max)
    (hlast : ids[ids.length - 1]? = some b) (hnone : ∀ j c, ids[j]? = some c →
      scanBitmap d.regions (d.storage.page c) (j * bitsPerBitmap) = none) :
    ∃ r d', d.grow b (d.storage.page b) = some (r, d') ∧ Allocates d ids r d' := by
  obtain ⟨top, htop, hscan, -, hmarks⟩ := scanBitmapHighWater_spec h hr
  rw [grow, hscan]
  dsimp only
  cases hadv : advancePastRegions d.regions (max top d.nextPageId) with
  | error r => exact ⟨_, _, rfl, .refused _⟩
  | ok base =>
    have hmax : max top d.nextPageId ≤ u32Max := by
      unfold u32Max
      omega
    obtain ⟨hle, hbase, hblocks⟩ := advancePastRegionsLoop_ok hreg hmax hadv
    have hlt : base < 2 ^ 32 := by
      unfold u32Max at hbase
      omega
    refine ⟨_, _, rfl, .grown hlast (fun p hp => ?_) hlt hblocks ?_ ⟨?_, top, hscan, hadv⟩⟩
    · have := hmarks p hp
      omega
    · omega
    · rwa [bitmapPages_eq h]

section

variable (h : Mapped d.storage ids) (hr : ids.length * bitsPerBitmap ≤ 2 ^ 32)
include h hr

/-- The search passes over bitmap pages that have nothing to offer. -/
lemma allocateLoop_skip : ∀ k b, ids[k]? = some b →
      (∀ j c, j < k → ids[j]? = some c →
        scanBitmap d.regions (d.storage.page c) (j * bitsPerBitmap) = none) →
      d.allocate = d.allocateLoop (d.storage.len - k - 1 + 1) b (k * bitsPerBitmap) := by
  have hlen := h.length_le
  intro k
  induction k with
  | zero =>
    intro b hb _
    obtain rfl : b = 0 := some.inj (hb.symm.trans h.first)
    have := h.length_pos
    rw [allocate]
    congr 1
    omega
  | succ k ih =>
    intro b hb hnone
    have hlt := lt_length hb
    have hc : ids[k]? = some (ids.get ⟨k, by omega⟩) := getElem?_eq_getElem (by omega)
    rw [ih _ hc fun j c hj => hnone j c (by omega), allocateLoop, h.read hc]
    dsimp only
    rw [hnone k _ (by omega) hc]
    rcases h.next hc with ⟨hend, -⟩ | ⟨next, hnext, heq, hne⟩
    · rw [hend] at hb
      exact absurd hb (by simp)
    · obtain rfl : b = next := some.inj (hb.symm.trans hnext)
      simp only [heq, ne_eq, hne, not_false_eq_true, if_true, offset_mod hr hlt]
      congr 1
      omega

lemma allocate_eq_grow (hlast : ids[ids.length - 1]? = some last)
    (hnone : ∀ j c, ids[j]? = some c →
      scanBitmap d.regions (d.storage.page c) (j * bitsPerBitmap) = none) :
    d.allocate = d.grow last (d.storage.page last) := by
  have hend : nextBitmap (d.storage.page last) = 0 := by
    rw [h.link _ _ hlast, Nat.sub_add_cancel h.length_pos, getElem?_eq_none le_rfl]
    rfl
  rw [allocateLoop_skip h hr _ _ hlast fun j c _ => hnone j c, allocateLoop, h.read hlast]
  simp [hnone _ _ hlast, hend]

lemma allocate_spec (hnext : d.nextPageId < 2 ^ 32) (hreg : ∀ r ∈ d.regions, r.hi ≤ u32Max) :
    ∃ r d', d.allocate = some (r, d') ∧ Allocates d ids r d' := by
  classical
  by_cases hex : ∃ k b out, ids[k]? = some b ∧
      scanBitmap d.regions (d.storage.page b) (k * bitsPerBitmap) = some out
  · -- the first bitmap page with an answer
    obtain ⟨b, out, hb, hscan⟩ := Nat.find_spec hex
    rw [allocateLoop_skip h hr _ b hb fun j c hj hc => eq_none_iff_forall_ne_some.mpr
      fun out hout => Nat.find_min hex hj ⟨c, out, hc, hout⟩, allocateLoop, h.read hb]
    dsimp only
    rw [hscan]
    rcases out with e | ⟨c, q⟩
    · exact ⟨_, _, rfl, .refused _⟩
    · obtain ⟨s, hs, hfree, hc, hregions, rfl⟩ := scanBitmap_ok hscan
      have hrun := mul_le_mul_right bitsPerBitmap (lt_length hb)
      rw [succ_mul] at hrun
      rw [mod_eq_of_lt (by omega)] at hc
      subst hc
      exact ⟨_, _, rfl, .found hb hs hfree hregions⟩
  · have hlast : ids[ids.length - 1]? = some (ids.get ⟨_, sub_one_lt h.length_pos.ne'⟩) :=
      getElem?_eq_getElem _
    have hnone : ∀ j c, ids[j]? = some c →
        scanBitmap d.regions (d.storage.page c) (j * bitsPerBitmap) = none := fun j c hc =>
      eq_none_iff_forall_ne_some.mpr fun out hout => hex ⟨j, c, out, hc, hout⟩
    rw [allocate_eq_grow h hr hlast hnone]
    exact grow_spec h hr hnext hreg hlast hnone

end

/-! ## Changes that keep what is marked -/

/-- The page `q` marks what bitmap page `b`, the `k`-th of the chain, marks, but for freed pages. -/
def Image (f : PageFile) (freed : List ℕ) (k b : ℕ) (q : Page) : Prop :=
  nextBitmap q = nextBitmap (f.page b) ∧
    ∀ s, slotSet (f.page b) s = true → k * bitsPerBitmap + s ∉ freed → slotSet q s = true

/-- The file `f'` has the chain of `f`, with no slot cleared but those of freed pages. -/
structure Keeps (f f' : PageFile) (ids freed : List ℕ) : Prop where
  len : f.len ≤ f'.len
  image : ∀ k b, ids[k]? = some b → Image f freed k b (f'.page b)

lemma Image.refl : Image f freed k b (f.page b) := ⟨rfl, fun _ h _ => h⟩

lemma Keeps.mapped (hk : Keeps f f' ids freed) (h : Mapped f ids) : Mapped f' ids where
  first := h.first
  link k b hb := by rw [(hk.image k b hb).1, h.link k b hb]
  nodup := h.nodup
  stored b hb := (h.stored b hb).trans_le hk.len

lemma Keeps.marked (hk : Keeps f f' ids freed) (hm : Marked f ids p) (hp : p ∉ freed) :
    Marked f' ids p := by
  obtain ⟨b, hb, hset⟩ := hm
  refine ⟨b, hb, (hk.image _ b hb).2 _ hset ?_⟩
  rwa [mul_comm, div_add_mod]

lemma foldl_write_len (images : List (ℕ × Page)) :
    f.len ≤ (images.foldl (fun f image => f.write image.1 image.2) f).len := by
  induction images generalizing f with
  | nil => exact le_rfl
  | cons image images ih =>
    exact (le_max_left f.len _).trans (@ih (f.write image.1 image.2))

lemma foldl_write_page (images : List (ℕ × Page)) (b : ℕ) :
    (images.foldl (fun f image => f.write image.1 image.2) f).page b = f.page b ∨
      (b, (images.foldl (fun f image => f.write image.1 image.2) f).page b) ∈ images := by
  induction images generalizing f with
  | nil => exact .inl rfl
  | cons image images ih =>
    rcases @ih (f.write image.1 image.2) with heq | hmem
    · by_cases hb : b = image.1
      · rw [foldl_cons, heq, hb]
        simp [PageFile.write]
      · rw [foldl_cons, heq]
        simp [PageFile.write, hb]
    · exact .inr (.tail _ hmem)

lemma keeps_of_images (images : List (ℕ × Page)) (hnd : ids.Nodup)
    (h : ∀ image ∈ images, ∃ k, ids[k]? = some image.1 ∧ Image f freed k image.1 image.2) :
    Keeps f (images.foldl (fun f image => f.write image.1 image.2) f) ids freed := by
  refine ⟨foldl_write_len images, fun k b hb => ?_⟩
  rcases foldl_write_page images b with heq | hmem
  · rw [heq]
    exact .refl
  · obtain ⟨j, hj, himage⟩ := h _ hmem
    have hlt := lt_length hb
    obtain rfl : k = j := (getElem?_inj hlt hnd).mp (hb.trans hj.symm)
    exact himage

/-- Writing a page that is not a bitmap page. -/
lemma keeps_write_of_notMem (hp : p ∉ ids) : Keeps f (f.write p page) ids [] := by
  refine ⟨le_max_left _ _, fun k b hb => ?_⟩
  have hne : b ≠ p := fun heq => hp (heq ▸ mem_of_getElem? hb)
  have hpage : (f.write p page).page b = f.page b := by simp [PageFile.write, hne]
  rw [hpage]
  exact .refl

lemma keeps_setSlot (hnd : ids.Nodup) (hk : ids[k]? = some b) :
    Keeps f (f.write b (setSlot (f.page b) s)) ids [] := by
  refine keeps_of_images [(b, setSlot (f.page b) s)] hnd fun image himage => ?_
  rw [mem_singleton.mp himage]
  exact ⟨k, hk, nextBitmap_setSlot, fun t ht _ => by simp [slotSet_setSlot, ht]⟩

lemma jump_ok (h : Mapped f ids) (hk : ids[k]? = some b)
    (hj : jump f n b (f.page b) = .ok (c, q)) : ids[k + n]? = some c ∧ q = f.page c := by
  induction n generalizing k b with
  | zero =>
    obtain ⟨rfl, rfl⟩ := hj
    exact ⟨hk, rfl⟩
  | succ n ih =>
    rw [jump] at hj
    rcases h.next hk with ⟨-, hzero⟩ | ⟨next, hnext, heq, hne⟩
    · exact absurd hj (by simp [hzero])
    · simp only [heq, hne, h.read hnext] at hj
      have hrest := ih hnext hj
      rwa [add_right_comm] at hrest

lemma image_clearSlots (slots : List ℕ) (h : ∀ s ∈ slots, k * bitsPerBitmap + s ∈ freed) :
    Image f freed k b (slots.foldl clearSlot (f.page b)) := by
  suffices hsuff : ∀ q, Image f freed k b q → Image f freed k b (slots.foldl clearSlot q) from
    hsuff _ .refl
  induction slots with
  | nil => exact fun q hq => hq
  | cons s slots ih =>
    intro q hq
    refine ih (fun t ht => h t (.tail _ ht)) _ ⟨by simp [hq.1], fun t ht hfree => ?_⟩
    have hne : t ≠ s := by
      rintro rfl
      exact hfree (h t mem_cons_self)
    simp [slotSet_clearSlot, hq.2 t ht hfree, hne]

lemma deallocate_ok (h : Mapped d.storage ids) (hd : d.deallocate p = (.ok (), d')) :
    ∃ f', d' = { d with storage := f' } ∧ Keeps d.storage f' ids [p] := by
  unfold deallocate at hd
  split at hd
  · exact absurd hd (by simp)
  · rw [h.read h.first] at hd
    dsimp only at hd
    split at hd
    · exact absurd hd (by simp)
    · next c q hj =>
      obtain ⟨hc, rfl⟩ := jump_ok h h.first hj
      rw [zero_add] at hc
      simp only [Prod.mk.injEq, true_and] at hd
      refine ⟨_, hd.symm, ?_⟩
      refine keeps_of_images [(c, clearSlot _ _)] h.nodup fun image himage => ?_
      rw [mem_singleton.mp himage]
      refine ⟨_, hc, image_clearSlots [p % bitsPerBitmap] fun s hs => ?_⟩
      rw [mem_singleton.mp hs, mul_comm, div_add_mod]
      exact mem_singleton_self p

lemma groupByBitmap_ok {byBitmap : TreeMap ℕ (List ℕ)}
    (h : d.groupByBitmap freed = .ok byBitmap) {slots : List ℕ} (hk : byBitmap[k]? = some slots)
    (hs : s ∈ slots) : k * bitsPerBitmap + s ∈ freed := by
  rw [groupByBitmap] at h
  refine foldlM_ok (P := fun groups : TreeMap ℕ (List ℕ) => ∀ (k : ℕ) slots,
    groups[k]? = some slots → ∀ s ∈ slots, k * bitsPerBitmap + s ∈ freed)
    (fun groups pageId out hmem hgroups hout => ?_) ?_ h k slots hk s hs
  · split at hout
    · cases hout
    cases hout
    intro j slots hj t ht
    rw [TreeMap.getElem?_insert] at hj
    split at hj
    · next heq =>
      obtain rfl : pageId / bitsPerBitmap = j := by simpa using heq
      simp only [some.injEq] at hj
      subst hj
      rcases mem_append.mp ht with ht | ht
      · rw [TreeMap.getD_eq_getD_getElem?] at ht
        cases hold : groups[pageId / bitsPerBitmap]? with
        | none => simp [hold] at ht
        | some old =>
          rw [hold] at ht
          exact hgroups _ old hold t ht
      · rw [mem_singleton.mp ht, mul_comm, div_add_mod]
        exact hmem
    · exact hgroups j slots hj t ht
  · simp

lemma clearedImages_ok (h : Mapped f ids) {groups : List (ℕ × List ℕ)}
    (hgroups : ∀ g ∈ groups, ∀ s ∈ g.2, g.1 * bitsPerBitmap + s ∈ freed) :
    ∀ {images}, (∀ g ∈ groups, k ≤ g.1) → groups.Pairwise (·.1 < ·.1) → ids[k]? = some b →
      clearedImages f b k (f.page b) groups = .ok images →
      ∀ image ∈ images, ∃ k, ids[k]? = some image.1 ∧ Image f freed k image.1 image.2 := by
  induction groups generalizing k b with
  | nil =>
    intro images _ _ _ hok
    simp only [clearedImages, ok.injEq] at hok
    simp [← hok]
  | cons g groups ih =>
    obtain ⟨index, slots⟩ := g
    intro images hle hsorted hb hok
    rw [clearedImages] at hok
    split at hok
    · exact absurd hok (by simp)
    · next c q hj =>
      have hkle : k ≤ index := hle _ mem_cons_self
      obtain ⟨hc, rfl⟩ := jump_ok h hb hj
      rw [Nat.add_sub_cancel' hkle] at hc
      rw [max_eq_right hkle] at hok
      split at hok
      · exact absurd hok (by simp)
      · next rest hrest =>
        simp only [ok.injEq] at hok
        subst hok
        rintro image (_ | ⟨_, himage⟩)
        · exact ⟨index, hc, image_clearSlots _ (hgroups _ mem_cons_self)⟩
        · rw [pairwise_cons] at hsorted
          exact ih (fun g hg => hgroups g (.tail _ hg))
            (fun g hg => (hsorted.1 g hg).le) hsorted.2 hc hrest image himage

lemma deallocateMany_ok (h : Mapped d.storage ids) (hd : d.deallocateMany freed = (.ok (), d')) :
    ∃ f', d' = { d with storage := f' } ∧ Keeps d.storage f' ids freed := by
  unfold deallocateMany at hd
  split at hd
  · simp only [Prod.mk.injEq, true_and] at hd
    exact ⟨d.storage, hd.symm, le_rfl, fun _ _ _ => .refl⟩
  · split at hd
    · exact absurd hd (by simp)
    · next byBitmap hgroup =>
      rw [h.read h.first] at hd
      dsimp only at hd
      split at hd
      · exact absurd hd (by simp)
      · next images himages =>
        simp only [Prod.mk.injEq, true_and] at hd
        refine ⟨_, hd.symm, keeps_of_images _ h.nodup ?_⟩
        refine clearedImages_ok h (fun g hg s hs => ?_) (fun _ _ => zero_le _) ?_ h.first himages
        · exact groupByBitmap_ok hgroup
            (TreeMap.mem_toList_iff_getElem?_eq_some.mp (show (g.1, g.2) ∈ _ from hg)) hs
        · exact TreeMap.ordered_keys_toList.imp fun hlt => by
            simpa [compare_lt_iff_lt] using hlt

/-! ## A new bitmap page -/

lemma notMem_of_marked (hbitmaps : ∀ b ∈ ids, Marked f ids b)
    (hmarks : ∀ p, Marked f ids p → p < n) : n ∉ ids :=
  fun hn => (hmarks n (hbitmaps n hn)).ne rfl

variable {last base : ℕ}

lemma grownFile_page (hb : b ≠ base) : (grownFile f last base).page b =
      if b = last then (f.page last).putU32 base else f.page b := by
  by_cases heq : b = last
  · subst heq
    simp [grownFile, PageFile.write, hb]
  · simp [grownFile, PageFile.write, hb, heq]

lemma slotSet_grownFile (hb : b ≠ base) :
    slotSet ((grownFile f last base).page b) s = slotSet (f.page b) s := by
  rw [grownFile_page hb]
  split
  · next heq => rw [slotSet_putU32, heq]
  · rfl

lemma slotSet_grownFile_base : slotSet ((grownFile f last base).page base) s =
      (decide (s = (base + 1) % 2 ^ 32 % bitsPerBitmap) || decide (s = base % bitsPerBitmap)) := by
  simp [grownFile, PageFile.write, slotSet_setSlot]

lemma mapped_grownFile (h : Mapped f ids) (hlast : ids[ids.length - 1]? = some last)
    (hnew : base ∉ ids) (hbase : base < 2 ^ 32) :
    Mapped (grownFile f last base) (ids ++ [base]) where
  first := by rw [List.getElem?_append_left h.length_pos, h.first]
  link k b hb := by
    have hlt := lt_length hb
    rw [length_append] at hlt
    rcases Nat.lt_succ_iff_lt_or_eq.mp hlt with hk | rfl
    · rw [getElem?_append_left hk] at hb
      have hne : b ≠ base := fun heq => hnew (heq ▸ mem_of_getElem? hb)
      rw [grownFile_page hne]
      split
      · -- the page that was the last one
        next heq =>
        subst heq
        have heq : k = ids.length - 1 := (getElem?_inj hk h.nodup).mp (hb.trans hlast.symm)
        have hend : k + 1 = ids.length := by omega
        rw [hend, getElem?_concat_length]
        exact ByteMap.u32_putU32 hbase
      · next hnot =>
        have hk' : k + 1 < ids.length := by
          refine lt_of_le_of_ne hk fun hend => hnot ?_
          have : k = ids.length - 1 := by omega
          rw [this] at hb
          exact some.inj (hb.symm.trans hlast)
        rw [h.link k b hb, getElem?_append_left hk']
    · rw [getElem?_concat_length, some.injEq] at hb
      subst hb
      simp [grownFile, PageFile.write, nextBitmap, setSlot, ByteMap.u32_setBit]
  nodup := h.nodup.concat hnew |> fun hnd => by simpa using hnd
  stored b hb := by
    have hmax : (grownFile f last base).len = max (max f.len (last + 1)) (base + 1) := rfl
    rcases mem_append.mp hb with hb | hb
    · have := h.stored b hb
      omega
    · rw [mem_singleton.mp hb]
      omega

lemma marked_grownFile (hnew : base ∉ ids) (hm : Marked f ids p) :
    Marked (grownFile f last base) (ids ++ [base]) p := by
  obtain ⟨b, hb, hset⟩ := hm
  have hne : b ≠ base := fun heq => hnew (heq ▸ mem_of_getElem? hb)
  have hlt := lt_length hb
  exact ⟨b, by rw [getElem?_append_left hlt, hb], by rw [slotSet_grownFile hne, hset]⟩

end DiskManager

/-! ## Histories -/

/-- Every bitmap page lies, together with the page after it, in the run of page ids it describes,
and these runs do not reach past the last page id. -/
def Covering (d : DiskManager) : Prop :=
  ∀ k b, d.bitmapPages[k]? = some b →
    b / bitsPerBitmap = k ∧ (b + 1) / bitsPerBitmap = k ∧ (k + 1) * bitsPerBitmap ≤ 2 ^ 32

namespace DiskWorld

open DiskManager

/-- The chain marks all pages in use, and no page is both a bitmap page and allocated. -/
structure Sound (w : DiskWorld) (ids : List ℕ) : Prop where
  mapped : Mapped w.disk.storage ids
  bitmaps : ∀ b ∈ ids, Marked w.disk.storage ids b
  pages : ∀ p ∈ w.allocated, Marked w.disk.storage ids p ∧ p ∉ ids
  next : w.disk.nextPageId < 2 ^ 32
  regions : ∀ r ∈ w.disk.regions, r.hi ≤ u32Max

variable {w : DiskWorld} {ids freed : List ℕ} {d' : DiskManager}

lemma Sound.length_le (h : w.Sound ids) (hc : Covering w.disk) :
    ids.length * bitsPerBitmap ≤ 2 ^ 32 := by
  have hpos := h.mapped.length_pos
  have hlast : w.disk.bitmapPages[ids.length - 1]? = some (ids.get ⟨ids.length - 1, by omega⟩) := by
    rw [bitmapPages_eq h.mapped]
    exact getElem?_eq_getElem (by omega)
  have hle := (hc _ _ hlast).2.2
  rwa [Nat.sub_add_cancel hpos] at hle

/-- A change of the file that clears only slots of freed pages. -/
lemma Sound.keeps (h : w.Sound ids) {f' : PageFile} (hk : Keeps w.disk.storage f' ids freed)
    (hfreed : ∀ p ∈ freed, p ∉ ids) {allocated : List ℕ}
    (hsub : ∀ p ∈ allocated, p ∈ w.allocated ∧ p ∉ freed) :
    Sound ⟨{ w.disk with storage := f' }, allocated⟩ ids where
  mapped := hk.mapped h.mapped
  bitmaps b hb := hk.marked (h.bitmaps b hb) fun hf => hfreed b hf hb
  pages p hp := by
    obtain ⟨hold, hnot⟩ := hsub p hp
    exact ⟨hk.marked (h.pages p hold).1 hnot, (h.pages p hold).2⟩
  next := h.next
  regions := h.regions

lemma sound_start : start.Sound [0] := by
  have hpage : start.disk.storage.page 0 = Function.update ByteMap.zeros 4 1 := by
    simp [start, withStorage, PageFile.empty, PageFile.write]
  have hmapped : Mapped start.disk.storage [0] := by
    refine ⟨rfl, fun k b hb => ?_, by simp, fun b hb => ?_⟩
    · obtain ⟨rfl, rfl⟩ : k = 0 ∧ b = 0 := by grind
      rfl
    · rw [mem_singleton.mp hb]
      simp [start, withStorage, PageFile.empty, PageFile.write]
  refine ⟨hmapped, fun b hb => ?_, by simp [start], by simp [start, withStorage, PageFile.empty],
    by simp [start, withStorage, PageFile.empty]⟩
  rw [mem_singleton.mp hb]
  exact ⟨0, rfl, by rw [hpage]; rfl⟩

lemma reserveRegion_cases (d : DiskManager) (name : String) (lo hi : ℕ) :
    (d.reserveRegion name lo hi).2 = d ∨ (d.reserveRegion name lo hi).2 = { d with
      regions := (d.regions ++ [Region.mk name lo hi]).insertionSort (·.lo ≤ ·.lo) } := by
  unfold reserveRegion
  split
  · exact .inl rfl
  · split
    · exact .inl rfl
    · split
      · exact .inl rfl
      · exact .inr rfl

lemma Sound.reserveRegion (h : w.Sound ids) (name : String) (lo hi : UInt32) :
    (w.step (.reserveRegion name lo hi)).Sound ids := by
  rw [step]
  rcases reserveRegion_cases w.disk name lo.toNat hi.toNat with heq | heq
  · rw [heq]
    exact h
  · rw [heq]
    refine { h with regions := fun r hr => ?_ }
    simp only [mem_insertionSort, mem_append, mem_singleton] at hr
    rcases hr with hr | rfl
    · exact h.regions r hr
    · have := hi.toNat_lt
      unfold u32Max
      dsimp only
      omega

/-- A page that was free is handed out, and the chain marks it. -/
lemma Sound.found (h : w.Sound ids) {k b s : ℕ} (hk : ids[k]? = some b)
    (hs : s < bitsPerBitmap) (hfree : slotSet (w.disk.storage.page b) s = false) :
    let f' := w.disk.storage.write b (setSlot (w.disk.storage.page b) s)
    ¬ Marked w.disk.storage ids (k * bitsPerBitmap + s) ∧
      Sound ⟨{ w.disk with storage := f' }, (k * bitsPerBitmap + s) :: w.allocated⟩ ids := by
  intro f'
  have hdiv : (k * bitsPerBitmap + s) / bitsPerBitmap = k := by
    rw [mul_comm, mul_add_div (by decide), div_eq_of_lt hs, add_zero]
  have hmod : (k * bitsPerBitmap + s) % bitsPerBitmap = s := by
    rw [mul_comm, mul_add_mod, mod_eq_of_lt hs]
  have hun : ¬ Marked w.disk.storage ids (k * bitsPerBitmap + s) := by
    rintro ⟨c, hc, hset⟩
    rw [hdiv, hk, some.injEq] at hc
    rw [hmod, ← hc, hfree] at hset
    exact absurd hset (by decide)
  have hkeeps := keeps_setSlot (f := w.disk.storage) (s := s) h.mapped.nodup hk
  have hold := h.keeps hkeeps (by simp) fun p hp => ⟨hp, by simp⟩
  refine ⟨hun, hold.mapped, hold.bitmaps, fun p hp => ?_, hold.next, hold.regions⟩
  rcases mem_cons.mp hp with rfl | hp
  · refine ⟨⟨b, by rw [hdiv, hk], ?_⟩, fun hmem => hun (h.bitmaps _ hmem)⟩
    rw [hmod]
    change slotSet ((w.disk.storage.write b (setSlot (w.disk.storage.page b) s)).page b) s = true
    simp [PageFile.write, slotSet_setSlot]
  · exact hold.pages p hp

/-- The chain grows by a bitmap page in its run. -/
lemma Sound.grown (h : w.Sound ids) {next : ℕ} (hlast : ids[ids.length - 1]? = some last)
    (hmarks : ∀ p, Marked w.disk.storage ids p → p < base)
    (hbase : base / bitsPerBitmap = ids.length) (hpage : (base + 1) / bitsPerBitmap = ids.length)
    (hlt : base + 1 < 2 ^ 32) (hnext : next < 2 ^ 32) :
    Sound ⟨⟨next, grownFile w.disk.storage last base, w.disk.regions⟩,
      (base + 1) :: w.allocated⟩ (ids ++ [base]) := by
  have hnew : base ∉ ids := notMem_of_marked h.bitmaps hmarks
  have hmod := mod_eq_of_lt hlt
  have hmarkBase : Marked (grownFile w.disk.storage last base) (ids ++ [base]) base :=
    ⟨base, by rw [hbase, getElem?_concat_length], by simp [slotSet_grownFile_base]⟩
  refine ⟨mapped_grownFile h.mapped hlast hnew (by omega), fun b hb => ?_, fun p hp => ?_, hnext,
    h.regions⟩
  · rcases mem_append.mp hb with hb | hb
    · exact marked_grownFile hnew (h.bitmaps b hb)
    · rw [mem_singleton.mp hb]
      exact hmarkBase
  · rcases mem_cons.mp hp with rfl | hp
    · refine ⟨⟨base, by rw [hpage, getElem?_concat_length], ?_⟩, fun hmem => ?_⟩
      · rw [slotSet_grownFile_base, hmod]
        simp
      · rcases mem_append.mp hmem with hmem | hmem
        · have := hmarks _ (h.bitmaps _ hmem)
          omega
        · have := mem_singleton.mp hmem
          omega
    · obtain ⟨hmark, hnot⟩ := h.pages p hp
      refine ⟨marked_grownFile hnew hmark, fun hmem => ?_⟩
      rcases mem_append.mp hmem with hmem | hmem
      · exact hnot hmem
      · have := hmarks p hmark
        have := mem_singleton.mp hmem
        omega

lemma step_allocate_ok {p : ℕ} (h : w.disk.allocate = some (.ok p, d')) :
    w.step .allocate = ⟨d', p :: w.allocated⟩ := by
  simp [step, h]

lemma step_allocate_error {e : FerroError} (h : w.disk.allocate = some (.error e, d')) :
    w.step .allocate = { w with disk := d' } := by
  simp [step, h]

/-- An allocation from a sound state hands out an unused page, if the page behind a new bitmap page
has an id. -/
lemma Sound.allocate_unused (h : w.Sound ids) (hc : Covering w.disk)
    (hroom : ∀ base, w.disk.GrowsAt base → base + 1 < 2 ^ 32) :
    ∃ result disk, w.disk.allocate = some (result, disk) ∧ ∀ p, result = .ok p →
      (∀ r ∈ w.disk.regions, r.contains p = false) ∧ p ∉ disk.bitmapPages ∧ p ∉ w.allocated := by
  obtain ⟨result, disk, hallocate, hcases⟩ :=
    allocate_spec h.mapped (h.length_le hc) h.next h.regions
  refine ⟨result, disk, hallocate, ?_⟩
  cases hcases with
  | refused e => simp
  | found hk hs hfree hregions =>
    obtain ⟨hun, hsound⟩ := h.found hk hs hfree
    rintro p ⟨⟩
    rw [bitmapPages_eq hsound.mapped]
    exact ⟨hregions, fun hmem => hun (h.bitmaps _ hmem), fun hmem => hun (h.pages _ hmem).1⟩
  | @grown last base next hlast hmarks hbase hregions hnext hgrows =>
    have hlt := hroom base hgrows
    rw [mod_eq_of_lt hlt]
    rintro p ⟨⟩
    have hnew : base ∉ ids := notMem_of_marked h.bitmaps hmarks
    refine ⟨fun r hr => ?_, ?_, fun hmem => ?_⟩
    · have hblocks := hregions r hr
      rw [Region.blocks, Bool.or_eq_false_iff] at hblocks
      rw [← hblocks.2, Nat.min_eq_left (by unfold u32Max; omega)]
    · rw [bitmapPages_eq (mapped_grownFile h.mapped hlast hnew hbase), mem_append, mem_singleton]
      rintro (hmem | heq)
      · have := hmarks _ (h.bitmaps _ hmem)
        omega
      · omega
    · have := hmarks _ (h.pages _ hmem).1
      omega

/-- An allocation from a sound state after which the bitmap pages still cover themselves. -/
lemma Sound.allocate (h : w.Sound ids) (hc : Covering w.disk)
    (hc' : Covering (w.step .allocate).disk) : ∃ ids, (w.step .allocate).Sound ids := by
  obtain ⟨result, disk, hallocate, hcases⟩ :=
    allocate_spec h.mapped (h.length_le hc) h.next h.regions
  cases hcases with
  | refused e =>
    rw [step_allocate_error hallocate]
    exact ⟨ids, h⟩
  | found hk hs hfree _ =>
    rw [step_allocate_ok hallocate]
    exact ⟨ids, (h.found hk hs hfree).2⟩
  | @grown last base next hlast hmarks hbase _ hnext _ =>
    have hnew : base ∉ ids := notMem_of_marked h.bitmaps hmarks
    have hpages : bitmapPages { w.disk with
        nextPageId := next
        storage := grownFile w.disk.storage last base } = ids ++ [base] :=
      bitmapPages_eq (mapped_grownFile h.mapped hlast hnew hbase)
    -- the new page is the last one of the chain, so it is covered
    obtain ⟨hrun, hrun', hrange⟩ := hc' ids.length base (by
      rw [step_allocate_ok hallocate, hpages, getElem?_concat_length])
    have hlt : base + 1 < 2 ^ 32 := by
      have := lt_mul_of_div_lt (lt_succ_of_le hrun'.le) (by decide : 0 < bitsPerBitmap)
      exact this.trans_le hrange
    rw [step_allocate_ok hallocate, mod_eq_of_lt hlt]
    exact ⟨ids ++ [base], h.grown hlast hmarks hrun hrun' hlt hnext⟩

lemma Sound.step (h : w.Sound ids) (hc : Covering w.disk) (e : DiskEvent)
    (hc' : Covering (w.step e).disk) : ∃ ids, (w.step e).Sound ids := by
  cases e with
  | reserveRegion name lo hi => exact ⟨ids, h.reserveRegion name lo hi⟩
  | allocate => exact h.allocate hc hc'
  | deallocate p =>
    simp only [DiskWorld.step]
    split_ifs with hp
    · rcases hd : w.disk.deallocate p with ⟨e | u, disk⟩
      · have hsame : disk = w.disk := by
          unfold deallocate at hd
          grind
        exact ⟨ids, by rw [hsame]; exact h⟩
      · obtain ⟨f', rfl, hk⟩ := deallocate_ok h.mapped hd
        refine ⟨ids, h.keeps hk (fun q hq => ?_) fun q hq => ?_⟩
        · rw [mem_singleton.mp hq]
          exact (h.pages p hp).2
        · simpa using hq
    · exact ⟨ids, h⟩
  | deallocateMany ps =>
    simp only [DiskWorld.step]
    split_ifs with hp
    · rcases hd : w.disk.deallocateMany ps with ⟨e | u, disk⟩
      · have hsame : disk = w.disk := by
          unfold deallocateMany at hd
          grind
        exact ⟨ids, by rw [hsame]; exact h⟩
      · obtain ⟨f', rfl, hk⟩ := deallocateMany_ok h.mapped hd
        exact ⟨ids, h.keeps hk (fun q hq => (h.pages q (hp q hq)).2) fun q hq => by simpa using hq⟩
    · exact ⟨ids, h⟩
  | write p data =>
    simp only [DiskWorld.step]
    split_ifs with hp
    · exact ⟨ids, h.keeps (keeps_write_of_notMem (h.pages p hp).2) (by simp) fun q hq =>
        ⟨hq, by simp⟩⟩
    · exact ⟨ids, h⟩
  | reopen =>
    have hlen : w.disk.storage.len ≠ 0 := by
      have := h.mapped.stored 0 (mem_of_getElem? h.mapped.first)
      omega
    simp only [DiskWorld.step, withStorage, hlen]
    exact ⟨ids, h.mapped, h.bitmaps, h.pages, mod_lt _ (by decide), by simp⟩

lemma after_concat (events : List DiskEvent) (e : DiskEvent) :
    after (events ++ [e]) = (after events).step e := by
  simp [after]

lemma sound_after (events : List DiskEvent)
    (h : ∀ pre, pre <+: events → Covering (after pre).disk) : ∃ ids, (after events).Sound ids := by
  induction events using reverseRecOn with
  | nil => exact ⟨[0], sound_start⟩
  | append_singleton events e ih =>
    obtain ⟨ids, hsound⟩ := ih fun pre hpre => h pre (hpre.trans (prefix_append _ _))
    rw [after_concat]
    refine hsound.step (h events (prefix_append _ _)) e ?_
    rw [← after_concat]
    exact h _ (prefix_refl _)

/-- After any calls of the allocator's callers, before each of which the bitmap pages lay in the
runs they describe: `allocate` comes to an end, and a page it returns lies in no reserved region, is
no bitmap page and is not allocated, unless the ids run out at this call. -/
theorem allocates_unused_page (events : List DiskEvent)
    (h : ∀ pre, pre <+: events → Covering (after pre).disk)
    (hroom : ∀ base, (after events).disk.GrowsAt base → base + 1 < 2 ^ 32) :
    ∃ result disk, (after events).disk.allocate = some (result, disk) ∧ ∀ p, result = .ok p →
      (∀ r ∈ (after events).disk.regions, r.contains p = false) ∧ p ∉ disk.bitmapPages ∧
        p ∉ (after events).allocated := by
  obtain ⟨ids, hsound⟩ := sound_after events h
  exact hsound.allocate_unused (h events (prefix_refl _)) hroom

lemma covering_of_eq {d : DiskManager} (h : d.bitmapPages = [0]) : Covering d := by
  intro k b hb
  obtain ⟨rfl, rfl⟩ : k = 0 ∧ b = 0 := by grind
  decide

end DiskWorld

/-! ## Growing past a region -/

namespace DiskManager

variable {d : DiskManager} {ids : List ℕ} {last : ℕ}

lemma scanBitmap_first {page : Page} (h : page 4 ≠ 0xFF)
    (hslot : trySlot regions page offset 0 = some out) :
    scanBitmap regions page offset = some out := by
  have hbytes : range' 4 (pageSize - 4) = 4 :: range' 5 4091 := range'_succ
  have hbits : range 8 = 0 :: range' 1 7 := rfl
  rw [scanBitmap, hbytes, findSome?_cons, if_pos h, hbits]
  simp [hslot]

lemma allocate_grown (base : ℕ) (h : Mapped d.storage ids)
    (hr : ids.length * bitsPerBitmap ≤ 2 ^ 32) (hlast : ids[ids.length - 1]? = some last)
    (hnone : ∀ j c, ids[j]? = some c →
      scanBitmap d.regions (d.storage.page c) (j * bitsPerBitmap) = none)
    (hadv : ∀ top ≤ ids.length * bitsPerBitmap,
      advancePastRegions d.regions (max top d.nextPageId) = .ok base) :
    d.allocate = some (.ok ((base + 1) % 2 ^ 32), { d with
      nextPageId := max d.nextPageId (((base + 1) % 2 ^ 32 + 1) % 2 ^ 32)
      storage := grownFile d.storage last base }) := by
  obtain ⟨top, -, htop, hle, -⟩ := scanBitmapHighWater_spec h hr
  rw [allocate_eq_grow h hr hlast hnone]
  simp only [grow, htop, hadv top hle]
  rfl

end DiskManager

namespace DiskWorld

open DiskManager

/-- A region over all of the first runs of pages but page 0. -/
def firstRuns (n : ℕ) : Region := ⟨"catalog", 1, n * bitsPerBitmap⟩

/-- The bitmap pages of these runs have nothing to offer. -/
lemma runs_full {f : PageFile} {ids : List ℕ} {n : ℕ} (hn : n ≤ 2) (h : Mapped f ids)
    (hset : slotSet (f.page 0) 0 = true) {j : ℕ} (hj : j < n) (hc : ids[j]? = some c) :
    scanBitmap [firstRuns n] (f.page c) (j * bitsPerBitmap) = none := by
  refine eq_none_iff_forall_ne_some.mpr fun out hout => ?_
  obtain ⟨s, hs, hslot⟩ := scanBitmap_some hout
  have hbounded : (firstRuns n).hi ≠ u32Max := by
    change n * 32736 ≠ 2 ^ 32 - 1
    omega
  change s < 32736 at hs
  change trySlot [firstRuns n] _ (j * 32736) s = _ at hslot
  rcases Nat.eq_zero_or_pos (j * 32736 + s) with hzero | hpos
  · obtain ⟨rfl, rfl⟩ : j = 0 ∧ s = 0 := by omega
    obtain rfl : c = 0 := some.inj (hc.symm.trans h.first)
    simp [trySlot, hset] at hslot
  · have hmod : (j * 32736 + s) % 2 ^ 32 = j * 32736 + s := mod_eq_of_lt (by omega)
    have hhi : j * 32736 + s < n * bitsPerBitmap := by
      change _ < n * 32736
      omega
    have hcontains : (firstRuns n).contains (j * 32736 + s) = true := by
      simp [Region.contains, firstRuns, succ_le_of_lt hpos, hhi]
    simp only [trySlot, hmod, find?_cons, hcontains, hbounded, if_false, ite_self,
      reduceCtorEq] at hslot

/-- A new bitmap page goes behind the region. -/
lemma advance_firstRuns {n pos : ℕ} (hn : n ≤ 2) (hpos : 0 < pos)
    (hle : pos ≤ n * bitsPerBitmap) :
    advancePastRegions [firstRuns n] pos = .ok (n * bitsPerBitmap) := by
  change pos ≤ n * 32736 at hle
  change advancePastRegionsLoop [⟨"catalog", 1, n * 32736⟩] 2 pos = .ok (n * 32736)
  have hbounded : n * 32736 ≠ u32Max := by unfold u32Max; omega
  have hend : Region.blocks ⟨"catalog", 1, n * 32736⟩ (n * 32736) = false := by
    simp [Region.blocks, Region.contains, u32Max]
    omega
  rcases hle.eq_or_lt with rfl | hlt
  · simp [advancePastRegionsLoop, hend]
  · have hblocks : Region.blocks ⟨"catalog", 1, n * 32736⟩ pos = true := by
      simp [Region.blocks, Region.contains, hlt, succ_le_of_lt hpos]
    simp [advancePastRegionsLoop, hblocks, hbounded, hend]

/-- A file of which only page 0 is in use. -/
def fresh : PageFile := start.disk.storage

lemma mapped_fresh : Mapped fresh [0] := sound_start.mapped

lemma slot_fresh : slotSet (fresh.page 0) 0 = true := by decide +kernel

lemma allocate_first {n : ℕ} (hn : 0 < n) (hn2 : n ≤ 2) :
    (DiskManager.mk 1 fresh [firstRuns n]).allocate = some (.ok (n * bitsPerBitmap + 1),
      ⟨n * bitsPerBitmap + 2, grownFile fresh 0 (n * bitsPerBitmap), [firstRuns n]⟩) := by
  have hsmall : n * bitsPerBitmap + 2 < 2 ^ 32 := by
    change n * 32736 + 2 < 2 ^ 32
    omega
  have hrun : 1 * bitsPerBitmap ≤ n * bitsPerBitmap := Nat.mul_le_mul_right _ hn
  have hone : 1 ≤ 1 * bitsPerBitmap := by decide
  have hgrown := allocate_grown (d := ⟨1, fresh, [firstRuns n]⟩) (n * bitsPerBitmap) mapped_fresh
    (by decide) rfl
    (fun j c hj => runs_full hn2 mapped_fresh slot_fresh ((lt_length hj).trans_le hn) hj)
    fun top htop => advance_firstRuns hn2 (by simp)
      (max_le (le_trans htop hrun) (hone.trans hrun))
  rwa [mod_eq_of_lt (by omega), mod_eq_of_lt (by omega), Nat.max_eq_right (by dsimp only; omega)]
    at hgrown

/-- A region takes up the first run, and the chain grows behind it. -/
theorem allocates_unused_page_grown :
    let w := after [.reserveRegion "catalog" 1 32736]
    ∃ disk, w.disk.allocate = some (.ok 32737, disk) ∧ disk.bitmapPages = [0, 32736] ∧
      (∀ r ∈ w.disk.regions, r.contains 32737 = false) ∧ 32737 ∉ disk.bitmapPages ∧
      32737 ∉ w.allocated := by
  intro w
  have hfirst : w.disk.allocate =
      some (.ok 32737, ⟨32738, grownFile fresh 0 32736, [firstRuns 1]⟩) :=
    allocate_first one_pos one_le_two
  have hcovering : ∀ pre, pre <+: [.reserveRegion "catalog" 1 32736] →
      Covering (after pre).disk := by
    intro pre hpre
    rcases prefix_cons_iff.mp hpre with rfl | ⟨rest, rfl, hrest⟩
    · exact covering_of_eq (bitmapPages_eq mapped_fresh)
    · rw [prefix_nil.mp hrest]
      exact covering_of_eq (bitmapPages_eq mapped_fresh)
  have hroom : ∀ base, w.disk.GrowsAt base → base + 1 < 2 ^ 32 := by
    rintro base ⟨-, top, htop, hadvance⟩
    obtain ⟨top', -, htop', hle, -⟩ :=
      scanBitmapHighWater_spec (d := w.disk) mapped_fresh (by decide)
    obtain rfl : top' = top := ok.inj (some.inj (htop'.symm.trans htop))
    have hend := advance_firstRuns one_le_two (by simp) (max_le hle (by decide : 1 ≤ _))
    cases hend.symm.trans hadvance
    decide
  obtain ⟨result, disk, hallocate, hunused⟩ := allocates_unused_page _ hcovering hroom
  cases hfirst.symm.trans hallocate
  exact ⟨_, hfirst, bitmapPages_eq (mapped_grownFile mapped_fresh rfl (by decide) (by decide)),
    hunused 32737 rfl⟩

/-! ## A bitmap page outside its run -/

/-- The file after one and two allocations behind a region over two runs. -/
def oneMore : PageFile := grownFile fresh 0 65472

def twoMore : PageFile := grownFile oneMore 65472 65474

lemma mapped_oneMore : Mapped oneMore [0, 65472] :=
  mapped_grownFile mapped_fresh rfl (by decide) (by decide)

lemma mapped_twoMore : Mapped twoMore [0, 65472, 65474] :=
  mapped_grownFile mapped_oneMore rfl (by decide) (by decide)

lemma slot_oneMore : slotSet (oneMore.page 0) 0 = true := by
  rw [oneMore, slotSet_grownFile (by decide), slot_fresh]

lemma slot_twoMore : slotSet (twoMore.page 0) 0 = true := by
  rw [twoMore, slotSet_grownFile (by decide), slot_oneMore]

lemma allocate_second : (DiskManager.mk 65474 oneMore [firstRuns 2]).allocate =
    some (.ok 65475, ⟨65476, twoMore, [firstRuns 2]⟩) := by
  refine allocate_grown 65474 mapped_oneMore (by decide) rfl (fun j c hj => ?_) fun top htop => ?_
  · exact runs_full le_rfl mapped_oneMore slot_oneMore (lt_length hj) hj
  · change top ≤ 2 * 32736 at htop
    rw [Nat.max_eq_right (by dsimp only; omega)]
    decide

/-- The third page handed out is the bitmap page that the first allocation added. -/
lemma allocate_third :
    ∃ disk, (DiskManager.mk 65476 twoMore [firstRuns 2]).allocate = some (.ok 65472, disk) := by
  have hscan : scanBitmap [firstRuns 2] (twoMore.page 65474) (2 * bitsPerBitmap) =
      some (.ok (65472, setSlot (twoMore.page 65474) 0)) := by
    refine scanBitmap_first (by decide) ?_
    rw [trySlot, twoMore, slotSet_grownFile_base]
    rfl
  have hskip := allocateLoop_skip (d := ⟨65476, twoMore, [firstRuns 2]⟩) mapped_twoMore (by decide) 2
    65474 rfl fun j c hj hc => runs_full le_rfl mapped_twoMore slot_twoMore hj hc
  rw [hskip, allocateLoop, mapped_twoMore.read (k := 2) rfl]
  dsimp only
  rw [hscan]
  exact ⟨_, rfl⟩

/-- With pages 1 to 65471 reserved, the bitmap page added by the first allocation lies beyond the
run it describes: nothing marks it, and the third allocation returns it. -/
theorem allocate_returns_bitmap_page :
    let w := after [.reserveRegion "catalog" 1 65472, .allocate, .allocate]
    w.allocated = [65475, 65473] ∧ w.disk.bitmapPages = [0, 65472, 65474] ∧
      ∃ disk, w.disk.allocate = some (.ok 65472, disk) := by
  have hreserve : start.step (.reserveRegion "catalog" 1 65472) =
      ⟨⟨1, fresh, [firstRuns 2]⟩, []⟩ := rfl
  have hafter : ∀ a b c, after [a, b, c] = ((start.step a).step b).step c := fun _ _ _ => rfl
  specialize hafter (.reserveRegion "catalog" 1 65472) .allocate .allocate
  have hfirst : (DiskManager.mk 1 fresh [firstRuns 2]).allocate =
      some (.ok 65473, ⟨65474, oneMore, [firstRuns 2]⟩) := allocate_first two_pos le_rfl
  rw [hreserve, step_allocate_ok (w := ⟨⟨1, fresh, [firstRuns 2]⟩, []⟩) hfirst,
    step_allocate_ok (w := ⟨⟨65474, oneMore, [firstRuns 2]⟩, [65473]⟩) allocate_second] at hafter
  intro w
  rw [show w = _ from hafter]
  exact ⟨rfl, bitmapPages_eq mapped_twoMore, allocate_third⟩

end DiskWorld

end FerroDb.Storage
