import FerroDb.Agent.Op
import FerroDb.Branch.Types
import FerroDb.Library.Fallible
import FerroDb.Library.MapTotal

/-!
# Escrow

Partitioning the slack of a bounded cell between branches, after `agent_sql/escrow.rs`. Amounts
are 64-bit integers and wrap around, as they do in a release build.
-/

namespace FerroDb.Agent

open Library Std List Function Option

/-- One bounded cell: which table, row and column the resource lives in. -/
structure Cell where
  tbl : TableId
  row : RowId
  col : ColId
deriving DecidableEq

namespace Cell

instance : Ord Cell := ⟨compareLex (compareOn tbl) (compareLex (compareOn row) (compareOn col))⟩

instance : TransOrd Cell :=
  inferInstanceAs (TransCmp (compareLex (compareOn tbl) (compareLex (compareOn row) (compareOn col))))

instance : LawfulEqOrd Cell where
  eq_of_compare {a b} h := by
    have hc : (compare a.tbl b.tbl).then ((compare a.row b.row).then (compare a.col b.col)) = .eq :=
      h
    obtain ⟨ht, hrest⟩ := Ordering.then_eq_eq.mp hc
    obtain ⟨hr, hcol⟩ := Ordering.then_eq_eq.mp hrest
    obtain ⟨at', ar, ac⟩ := a
    obtain ⟨bt, br, bc⟩ := b
    simp_all

def debug (c : Cell) : String := s!"(TableId({c.tbl}), RowId({c.row}), ColId({c.col}))"

end Cell

/-- Amounts by branch. -/
abbrev Amounts := TreeMap BranchId Int64

namespace Amounts

def amountOf (m : Amounts) (branch : BranchId) : Int64 := m[branch]?.getD 0

def credit (m : Amounts) (branch : BranchId) (amount : Int64) : Amounts :=
  m.insert branch (m.amountOf branch + amount)

end Amounts

/-- The slack of a cell and who is holding it. -/
structure Pool where
  slack : Int64
  claimed : Amounts
  spent : Amounts

namespace Pool

def outstanding (p : Pool) : Int64 := p.claimed.foldl (fun sum _ amount => sum + amount) 0

def unclaimed (p : Pool) : Int64 := p.slack - p.outstanding

end Pool

structure EscrowLedger where
  pools : TreeMap Cell Pool

namespace EscrowLedger

def new : EscrowLedger := ⟨∅⟩

def setPool (l : EscrowLedger) (cell : Cell) (pool : Pool) : EscrowLedger :=
  ⟨l.pools.insert cell pool⟩

def openPool (cell : Cell) (slack : Int64) (l : EscrowLedger) :
    Except FerroError Unit × EscrowLedger :=
  if slack < 0 then
    (.error (.bind s!"escrow slack must not be negative, got {slack}"), l)
  else if l.pools.contains cell then
    (.error (.bind (s!"escrow pool for {cell.debug} is already open; resizing it under live " ++
      "claims could let outstanding reservations exceed the resource")), l)
  else (.ok (), l.setPool cell ⟨slack, ∅, ∅⟩)

def claim (branch : BranchId) (cell : Cell) (amount : Int64) (l : EscrowLedger) :
    Except FerroError Unit × EscrowLedger :=
  if amount ≤ 0 then
    (.error (.bind s!"an escrow claim must be positive, got {amount}"), l)
  else
    match l.pools[cell]? with
    | none => (.error (.bind s!"{cell.debug} is not a bounded resource; nothing to claim"), l)
    | some pool =>
      if pool.unclaimed < amount then
        (.error (.constraint (s!"escrow claim of {amount} exceeds the {pool.unclaimed} unit(s) " ++
          s!"still unclaimed on {cell.debug}")), l)
      else (.ok (), l.setPool cell { pool with claimed := pool.claimed.credit branch amount })

def overdraw (cell : Cell) (amount claimed spent : Int64) : FerroError :=
  .constraint (s!"write of {amount} exceeds this branch's remaining escrow of " ++
    s!"{claimed - spent} on {cell.debug} (claimed {claimed}, already spent {spent}); " ++
    "claim more before writing")

/-- What a batch asks of each cell. -/
def wanted (spends : List (Cell × Int64)) : TreeMap Cell Int64 :=
  spends.foldl (fun w s => if s.2 ≤ 0 then w else w.insert s.1 (w[s.1]?.getD 0 + s.2)) ∅

variable (branch : BranchId)

def checkAll (spends : List (Cell × Int64)) (l : EscrowLedger) :
    Except FerroError Unit :=
  (wanted spends).toList.forM fun (cell, amount) =>
    match l.pools[cell]? with
    | none => .ok ()
    | some pool =>
      let claimed := pool.claimed.amountOf branch
      let spent := pool.spent.amountOf branch
      if claimed - spent < amount then .error (overdraw cell amount claimed spent) else .ok ()

def spend (cell : Cell) (amount : Int64) (l : EscrowLedger) :
    Except FerroError Unit × EscrowLedger :=
  match l.pools[cell]? with
  | none => (.ok (), l)
  | some pool =>
    if amount ≤ 0 then (.ok (), l)
    else
      let claimed := pool.claimed.amountOf branch
      let spent := pool.spent.amountOf branch
      if claimed - spent < amount then (.error (overdraw cell amount claimed spent), l)
      else (.ok (), l.setPool cell { pool with spent := pool.spent.credit branch amount })

/-- Charges one spend of a batch that has been checked. -/
def charge (l : EscrowLedger) (s : Cell × Int64) : EscrowLedger :=
  if s.2 ≤ 0 then l
  else
    match l.pools[s.1]? with
    | none => l
    | some pool => l.setPool s.1 { pool with spent := pool.spent.credit branch s.2 }

def spendAll (spends : List (Cell × Int64)) (l : EscrowLedger) :
    Except FerroError Unit × EscrowLedger :=
  match checkAll branch spends l with
  | .error e => (.error e, l)
  | .ok () => (.ok (), spends.foldl (charge branch) l)

/-- Gives back one spend of a batch, as far as something is left to give back. -/
def refund (l : EscrowLedger) (s : Cell × Int64) : EscrowLedger :=
  if s.2 ≤ 0 then l
  else
    match l.pools[s.1]? with
    | none => l
    | some pool =>
      match pool.spent[branch]? with
      | none => l
      | some spent =>
        l.setPool s.1 { pool with spent := pool.spent.insert branch (spent - min s.2 spent) }

def refundAll (spends : List (Cell × Int64)) (l : EscrowLedger) :
    EscrowLedger :=
  spends.foldl (refund branch) l

def release (l : EscrowLedger) : EscrowLedger :=
  ⟨l.pools.map fun _ pool =>
    { pool with claimed := pool.claimed.erase branch, spent := pool.spent.erase branch }⟩

/-- Takes what a branch has spent off the slack of a pool and drops the branch. -/
def settlePool (pool : Pool) : Pool :=
  ⟨pool.slack - pool.spent.amountOf branch, pool.claimed.erase branch, pool.spent.erase branch⟩

def settleAll (l : EscrowLedger) : EscrowLedger :=
  ⟨l.pools.map fun _ pool => settlePool branch pool⟩

def settle (cell : Cell) (l : EscrowLedger) : EscrowLedger :=
  match l.pools[cell]? with
  | none => l
  | some pool => l.setPool cell (settlePool branch pool)

/-! ## Runs -/

/-- The calls that change a ledger. -/
inductive Call where
  | openPool (cell : Cell) (slack : Int64)
  | claim (branch : BranchId) (cell : Cell) (amount : Int64)
  | spend (branch : BranchId) (cell : Cell) (amount : Int64)
  | spendAll (branch : BranchId) (spends : List (Cell × Int64))
  | refundAll (branch : BranchId) (spends : List (Cell × Int64))
  | release (branch : BranchId)
  | settle (branch : BranchId) (cell : Cell)
  | settleAll (branch : BranchId)

def Call.run : Call → EscrowLedger → Except FerroError Unit × EscrowLedger
  | .openPool cell slack, l => EscrowLedger.openPool cell slack l
  | .claim branch cell amount, l => EscrowLedger.claim branch cell amount l
  | .spend branch cell amount, l => EscrowLedger.spend branch cell amount l
  | .spendAll branch spends, l => EscrowLedger.spendAll branch spends l
  | .refundAll branch spends, l => (.ok (), EscrowLedger.refundAll branch spends l)
  | .release branch, l => (.ok (), EscrowLedger.release branch l)
  | .settle branch cell, l => (.ok (), EscrowLedger.settle branch cell l)
  | .settleAll branch, l => (.ok (), EscrowLedger.settleAll branch l)

def spentOf (l : EscrowLedger) (branch : BranchId) (cell : Cell) : ℤ :=
  l.pools[cell]?.elim 0 fun pool => (pool.spent.amountOf branch).toInt

/-- What a call settles on a cell. -/
def Call.settles : Call → EscrowLedger → Cell → ℤ
  | .settle branch cell, l, c => if c = cell then l.spentOf branch c else 0
  | .settleAll branch, l, c => l.spentOf branch c
  | _, _, _ => 0

/-- A ledger together with what each pool was opened with and what has been settled on it. -/
structure Books where
  ledger : EscrowLedger
  opened : Cell → ℤ
  settled : Cell → ℤ

namespace Books

def start : Books := ⟨new, fun _ => 0, fun _ => 0⟩

def step (b : Books) (call : Call) : Books where
  ledger := (call.run b.ledger).2
  opened :=
    match call, (call.run b.ledger).1 with
    | .openPool cell slack, .ok () => update b.opened cell slack.toInt
    | _, _ => b.opened
  settled c := b.settled c + call.settles b.ledger c

def after (b : Books) (calls : List Call) : Books := calls.foldl step b

end Books

end EscrowLedger

/-! ## Amounts -/

namespace Amounts

variable {m m' : Amounts} {b b' : BranchId} {v : Int64}

/-- The amounts of all branches together. -/
def sum (m : Amounts) : ℤ := total Int64.toInt m

lemma measureAt_toInt (m : Amounts) (b : BranchId) :
    measureAt Int64.toInt m b = (m.amountOf b).toInt := by
  cases h : m[b]? <;> simp [measureAt, amountOf, h]

@[simp] lemma amountOf_insert_self : amountOf (m.insert b v) b = v := by
  simp [amountOf]

lemma amountOf_insert_of_ne (h : b' ≠ b) : amountOf (m.insert b v) b' = m.amountOf b' := by
  simp [amountOf, TreeMap.getElem?_insert, h.symm]

@[simp] lemma amountOf_erase_self : amountOf (m.erase b) b = 0 := by
  simp [amountOf]

lemma amountOf_erase_of_ne (h : b' ≠ b) : amountOf (m.erase b) b' = m.amountOf b' := by
  simp [amountOf, TreeMap.getElem?_erase, h.symm]

lemma sum_insert : sum (m.insert b v) = m.sum - (m.amountOf b).toInt + v.toInt := by
  have hagree : ∀ b', b' ≠ b → (m.insert b v)[b']? = m[b']? := fun b' h => by
    simp [TreeMap.getElem?_insert, h.symm]
  rw [sum, total_of_agree hagree, measureAt_toInt, measureAt_toInt, amountOf_insert_self]
  rfl

lemma sum_erase : sum (m.erase b) = m.sum - (m.amountOf b).toInt := by
  have hagree : ∀ b', b' ≠ b → (m.erase b)[b']? = m[b']? := fun b' h => by
    simp [TreeMap.getElem?_erase, h.symm]
  rw [sum, total_of_agree hagree, measureAt_toInt, measureAt_toInt]
  simp [sum]

lemma sum_mono (h : ∀ b, (m.amountOf b).toInt ≤ (m'.amountOf b).toInt) : m.sum ≤ m'.sum :=
  total_mono fun b => by simpa [measureAt_toInt] using h b

lemma amountOf_le_sum (h : ∀ b, 0 ≤ (m.amountOf b).toInt) (b : BranchId) :
    (m.amountOf b).toInt ≤ m.sum := by
  rw [← measureAt_toInt]
  exact measureAt_le_total (fun b => by simpa [measureAt_toInt] using h b) b

end Amounts

variable {x y : Int64}

/-- A sum that stays in range does not wrap. -/
lemma toInt_add_of_range (hlo : -2 ^ 63 ≤ x.toInt + y.toInt)
    (hhi : x.toInt + y.toInt < 2 ^ 63) : (x + y).toInt = x.toInt + y.toInt := by
  rw [Int64.toInt_add, Int.bmod_eq_of_le (by omega) (by omega)]

lemma toInt_sub_of_range (hlo : -2 ^ 63 ≤ x.toInt - y.toInt)
    (hhi : x.toInt - y.toInt < 2 ^ 63) : (x - y).toInt = x.toInt - y.toInt := by
  rw [Int64.toInt_sub, Int.bmod_eq_of_le (by omega) (by omega)]

lemma foldl_add_toInt (l : List (BranchId × Int64)) (a : Int64) :
    (l.foldl (fun sum e => sum + e.2) a).toInt =
      (a.toInt + (l.map fun e => e.2.toInt).sum).bmod (2 ^ 64) := by
  induction l generalizing a with
  | nil => simp
  | cons e l ih =>
    rw [foldl_cons, ih, Int64.toInt_add, map_cons, sum_cons, Int.bmod_add_bmod,
      add_assoc]

lemma Pool.outstanding_toInt {p : Pool} (hlo : 0 ≤ p.claimed.sum)
    (hhi : p.claimed.sum < 2 ^ 63) : p.outstanding.toInt = p.claimed.sum := by
  rw [outstanding, TreeMap.foldl_eq_foldl_toList, foldl_add_toInt, Int64.toInt_zero, zero_add]
  exact Int.bmod_eq_of_le (by rw [← total, ← Amounts.sum]; omega) (by rw [← total, ← Amounts.sum]; omega)

/-! ## One pool -/

/-- The bounds of a pool: what a branch has spent lies within its claim, the claims within the
slack that remains, and what was settled and what is spent within what there was at first. -/
structure Pool.Bounded (opened settled : ℤ) (p : Pool) : Prop where
  spent : ∀ b, 0 ≤ (p.spent.amountOf b).toInt ∧
    (p.spent.amountOf b).toInt ≤ (p.claimed.amountOf b).toInt
  claims : p.claimed.sum ≤ p.slack.toInt
  resource : settled + p.spent.sum ≤ opened

/-- What every call keeps of a pool. -/
structure Pool.Sound (opened settled : ℤ) (p : Pool) : Prop where
  spent : ∀ b, 0 ≤ (p.spent.amountOf b).toInt ∧
    (p.spent.amountOf b).toInt ≤ (p.claimed.amountOf b).toInt
  claims : p.claimed.sum ≤ p.slack.toInt
  slack : p.slack.toInt = opened - settled

namespace Pool

variable {opened settled : ℤ} {p : Pool} {b : BranchId}

section

variable (h : Sound opened settled p)
include h

lemma Sound.bounded : Bounded opened settled p := by
  refine ⟨h.spent, h.claims, ?_⟩
  have hsum := Amounts.sum_mono fun b => (h.spent b).2
  have hclaims := h.claims
  have hslack := h.slack
  omega

lemma Sound.claimed_nonneg (b : BranchId) : 0 ≤ (p.claimed.amountOf b).toInt :=
  (h.spent b).1.trans (h.spent b).2

lemma Sound.claimed_le (b : BranchId) : (p.claimed.amountOf b).toInt ≤ p.claimed.sum :=
  Amounts.amountOf_le_sum h.claimed_nonneg b

/-- What is left of a claim is computed without wrapping. -/
lemma Sound.left (b : BranchId) : (p.claimed.amountOf b - p.spent.amountOf b).toInt =
      (p.claimed.amountOf b).toInt - (p.spent.amountOf b).toInt := by
  have hb := h.spent b
  have hlt := (p.claimed.amountOf b).toInt_lt
  exact toInt_sub_of_range (by omega) (by omega)

lemma Sound.claim {amount : Int64} (hpos : ¬ amount ≤ 0) (hfree : ¬ p.unclaimed < amount) :
    Sound opened settled { p with claimed := p.claimed.credit b amount } := by
  have hb := h.claimed_nonneg b
  have hle := h.claimed_le b
  have hclaims := h.claims
  have hslack := p.slack.toInt_lt
  rw [Int64.le_iff_toInt_le, Int64.toInt_zero] at hpos
  have hsum : p.outstanding.toInt = p.claimed.sum := outstanding_toInt (by omega) (by omega)
  have hun : p.unclaimed.toInt = p.slack.toInt - p.claimed.sum := by
    rw [unclaimed, toInt_sub_of_range (by omega) (by omega), hsum]
  rw [Int64.lt_iff_toInt_lt] at hfree
  have hadd : (p.claimed.amountOf b + amount).toInt = (p.claimed.amountOf b).toInt + amount.toInt :=
    toInt_add_of_range (by omega) (by omega)
  refine ⟨fun b' => ?_, ?_, h.slack⟩
  · have hb' := h.spent b'
    by_cases hne : b' = b
    · subst hne
      simp only [Amounts.credit, Amounts.amountOf_insert_self]
      omega
    · simpa only [Amounts.credit, Amounts.amountOf_insert_of_ne hne] using hb'
  · simp only [Amounts.credit, Amounts.sum_insert]
    omega

/-- Only what the branch has spent has changed, and it is within the claim. -/
lemma Sound.respend {spent : Amounts}
    (hother : ∀ b', b' ≠ b → spent.amountOf b' = p.spent.amountOf b')
    (hspent : 0 ≤ (spent.amountOf b).toInt ∧
      (spent.amountOf b).toInt ≤ (p.claimed.amountOf b).toInt) :
    Sound opened settled { p with spent } := by
  refine ⟨fun b' => ?_, h.claims, h.slack⟩
  by_cases hne : b' = b
  · exact hne ▸ hspent
  · simpa only [hother b' hne] using h.spent b'

lemma Sound.drop (b' : BranchId) : 0 ≤ (Amounts.amountOf (p.spent.erase b) b').toInt ∧
      (Amounts.amountOf (p.spent.erase b) b').toInt ≤
        (Amounts.amountOf (p.claimed.erase b) b').toInt := by
  by_cases hne : b' = b
  · subst hne
    simp
  · simpa only [Amounts.amountOf_erase_of_ne hne] using h.spent b'

lemma Sound.release : Sound opened settled { p with
      claimed := p.claimed.erase b
      spent := p.spent.erase b } := by
  refine ⟨h.drop, ?_, h.slack⟩
  have hb := h.claimed_nonneg b
  have hclaims := h.claims
  simp only [Amounts.sum_erase]
  omega

lemma Sound.settle :
    Sound opened (settled + (p.spent.amountOf b).toInt) (EscrowLedger.settlePool b p) := by
  have hb := h.spent b
  have hle := h.claimed_le b
  have hclaims := h.claims
  have hslack := h.slack
  have hlt := p.slack.toInt_lt
  have hsub : (p.slack - p.spent.amountOf b).toInt = p.slack.toInt - (p.spent.amountOf b).toInt :=
    toInt_sub_of_range (by omega) (by omega)
  refine ⟨h.drop, ?_, ?_⟩
  · simp only [EscrowLedger.settlePool, Amounts.sum_erase]
    omega
  · simp only [EscrowLedger.settlePool]
    omega

end

end Pool

/-! ## Batches -/

variable {spends : List (Cell × Int64)} {pool : Pool} {l' : EscrowLedger} {cell : Cell}
  {settled : Cell → ℤ}

namespace EscrowLedger

/-- The sum, as it is computed, of what a batch takes from a cell. -/
def batchAmount (cell : Cell) : List (Cell × Int64) → Int64
  | [] => 0
  | s :: spends => (if s.1 = cell ∧ ¬ s.2 ≤ 0 then s.2 else 0) + batchAmount cell spends

lemma wanted_getD (cell : Cell) (spends : List (Cell × Int64)) :
    (wanted spends)[cell]?.getD 0 = batchAmount cell spends := by
  have hfold (w : TreeMap Cell Int64) :
      (spends.foldl (fun w s => if s.2 ≤ 0 then w else w.insert s.1 (w[s.1]?.getD 0 + s.2)) w)[cell]?.getD
        0 = w[cell]?.getD 0 + batchAmount cell spends := by
    induction spends generalizing w with
    | nil => simp [batchAmount]
    | cons s spends ih =>
      rw [foldl_cons, ih, batchAmount]
      by_cases hpos : s.2 ≤ 0
      · simp [hpos]
      · by_cases hcell : s.1 = cell
        · subst hcell
          simp [hpos, Int64.add_assoc]
        · simp [hpos, hcell, TreeMap.getElem?_insert]
  simpa [wanted] using hfold ∅

/-- A batch that passes the check takes no more of a cell than is left, as far as the sum computed
tells. -/
lemma batchAmount_le {branch : BranchId} {l : EscrowLedger} {opened settled : ℤ}
    (hcheck : checkAll branch spends l = .ok ()) (hpool : l.pools[cell]? = some pool)
    (hsound : pool.Sound opened settled) : (batchAmount cell spends).toInt ≤
      (pool.claimed.amountOf branch).toInt - (pool.spent.amountOf branch).toInt := by
  rw [← wanted_getD]
  cases hwanted : (wanted spends)[cell]? with
  | none =>
    have hspent := hsound.spent branch
    simp only [getD_none, Int64.toInt_zero]
    omega
  | some amount =>
    have hmem := TreeMap.mem_toList_iff_getElem?_eq_some.mpr hwanted
    have hentry := forM_ok.mp hcheck _ hmem
    simp only [hpool] at hentry
    split at hentry
    · cases hentry
    · next hle =>
      rw [Int64.lt_iff_toInt_lt, hsound.left] at hle
      simpa using hle

/-- Only what one branch has spent has changed, by a function of what it had. -/
def Respends (branch : BranchId) (g : Cell → Int64 → Int64) (l l' : EscrowLedger) : Prop :=
  ∀ c, l.pools[c]? = none ∧ l'.pools[c]? = none ∨
    ∃ pool spent, l.pools[c]? = some pool ∧ l'.pools[c]? = some { pool with spent } ∧
      (∀ b, b ≠ branch → spent.amountOf b = pool.spent.amountOf b) ∧
      spent.amountOf branch = g c (pool.spent.amountOf branch)

section

variable {branch : BranchId} {g g' : Cell → Int64 → Int64} {l l' l'' : EscrowLedger} {cell c : Cell}
  {pool : Pool}

@[simp] lemma pools_setPool_self : (l.setPool cell pool).pools[cell]? = some pool := by
  simp [setPool]

lemma pools_setPool_of_ne (h : c ≠ cell) : (l.setPool cell pool).pools[c]? = l.pools[c]? := by
  simp [setPool, TreeMap.getElem?_insert, h.symm]

lemma respends_same (h : ∀ (c : Cell) (pool : Pool), l.pools[c]? = some pool →
      g c (pool.spent.amountOf branch) = pool.spent.amountOf branch) : Respends branch g l l := by
  intro c
  cases hc : l.pools[c]? with
  | none => exact .inl ⟨rfl, rfl⟩
  | some pool => exact .inr ⟨pool, pool.spent, rfl, rfl, fun _ _ => rfl, (h c pool hc).symm⟩

lemma Respends.trans (h : Respends branch g l l') (h' : Respends branch g' l' l'') :
    Respends branch (fun c x => g' c (g c x)) l l'' := by
  intro c
  rcases h c with ⟨hl, hl'⟩ | ⟨pool, spent, hl, hl', hother, hspent⟩
  · rcases h' c with ⟨-, hl''⟩ | ⟨pool', _, hpool', -⟩
    · exact .inl ⟨hl, hl''⟩
    · rw [hl'] at hpool'
      cases hpool'
  · rcases h' c with ⟨hnone, -⟩ | ⟨pool', spent', hpool', hl'', hother', hspent'⟩
    · rw [hl'] at hnone
      cases hnone
    · rw [hl'] at hpool'
      cases hpool'
      exact .inr ⟨pool, spent', hl, hl'', fun b hb => (hother' b hb).trans (hother b hb),
        hspent'.trans (congrArg (g' c) hspent)⟩

lemma Respends.congr (h : Respends branch g l l') (heq : ∀ c x, g c x = g' c x) :
    Respends branch g' l l' :=
  (funext fun c => funext (heq c) : g = g') ▸ h

/-- Setting what a branch has spent on one cell. -/
lemma respends_setPool {v : Int64} (hpool : l.pools[cell]? = some pool)
    (hv : v = g cell (pool.spent.amountOf branch)) (hg : ∀ c, c ≠ cell → ∀ x, g c x = x) :
    Respends branch g l (l.setPool cell { pool with spent := pool.spent.insert branch v }) := by
  intro c
  by_cases hc : c = cell
  · subst hc
    exact .inr ⟨pool, _, hpool, pools_setPool_self,
      fun b hb => Amounts.amountOf_insert_of_ne hb, by rw [Amounts.amountOf_insert_self, hv]⟩
  · rw [pools_setPool_of_ne hc]
    cases h : l.pools[c]? with
    | none => exact .inl ⟨rfl, rfl⟩
    | some pool => exact .inr ⟨pool, pool.spent, rfl, rfl, fun _ _ => rfl, (hg c hc _).symm⟩

lemma respends_charge (branch : BranchId) (l : EscrowLedger) (s : Cell × Int64) :
    Respends branch (fun c x => x + if s.1 = c ∧ ¬ s.2 ≤ 0 then s.2 else 0) l (charge branch l s) := by
  rw [charge]
  split
  · next hpos => exact respends_same fun c pool _ => by simp [hpos]
  · next hpos =>
    split
    · next hnone =>
      refine respends_same fun c pool hl => ?_
      have hc : s.1 ≠ c := by
        rintro rfl
        simp [hnone] at hl
      simp [hc]
    · next pool hpool =>
      exact respends_setPool hpool (by simp [hpos]) fun c hc x => by simp [hc.symm]

lemma respends_chargeAll (branch : BranchId) (l : EscrowLedger) (spends : List (Cell × Int64)) :
    Respends branch (fun c x => x + batchAmount c spends) l (spends.foldl (charge branch) l) := by
  induction spends generalizing l with
  | nil => exact respends_same fun c pool _ => by simp [batchAmount]
  | cons s spends ih =>
    refine ((respends_charge branch l s).trans (ih _)).congr fun c x => ?_
    rw [batchAmount, Int64.add_assoc]

/-- How a batch is given back. -/
def refundAmount (c : Cell) : List (Cell × Int64) → Int64 → Int64
  | [], x => x
  | s :: spends, x =>
    refundAmount c spends (if s.1 = c ∧ ¬ s.2 ≤ 0 then x - min s.2 x else x)

lemma respends_refund (branch : BranchId) (l : EscrowLedger) (s : Cell × Int64) :
    Respends branch (fun c x => if s.1 = c ∧ ¬ s.2 ≤ 0 then x - min s.2 x else x) l
      (refund branch l s) := by
  -- where there is nothing to give back, nothing changes
  have hsame (h : ∀ pool, l.pools[s.1]? = some pool → pool.spent.amountOf branch = 0) :
      Respends branch (fun c x => if s.1 = c ∧ ¬ s.2 ≤ 0 then x - min s.2 x else x) l l := by
    refine respends_same fun c pool hl => ?_
    split
    · next hs =>
      obtain ⟨rfl, hpos⟩ := hs
      rw [h pool hl, show min s.2 0 = 0 from if_neg hpos]
      rfl
    · rfl
  rw [refund]
  split
  · next hpos => exact respends_same fun c pool _ => by simp [hpos]
  · next hpos =>
    split
    · next hnone => exact hsame fun pool hpool => by simp [hnone] at hpool
    · next pool hpool =>
      split
      · next hnone =>
        refine hsame fun pool' hpool' => ?_
        obtain rfl : pool = pool' := by simpa [hpool] using hpool'
        simp [Amounts.amountOf, hnone]
      · next spent hspent =>
        refine respends_setPool hpool ?_ fun c hc x => by simp [hc.symm]
        simp [hpos, Amounts.amountOf, hspent]

lemma respends_refundAll (branch : BranchId) (l : EscrowLedger) (spends : List (Cell × Int64)) :
    Respends branch (fun c x => refundAmount c spends x) l (refundAll branch spends l) := by
  induction spends generalizing l with
  | nil => exact respends_same fun _ _ _ => rfl
  | cons s spends ih => exact (respends_refund branch l s).trans (ih _)

/-- A refund never takes what is spent below zero or raises it. -/
lemma refundAmount_range (c : Cell) (spends : List (Cell × Int64)) (hx : 0 ≤ x.toInt) :
    0 ≤ (refundAmount c spends x).toInt ∧ (refundAmount c spends x).toInt ≤ x.toInt := by
  induction spends generalizing x with
  | nil => exact ⟨hx, le_rfl⟩
  | cons s spends ih =>
    rw [refundAmount]
    split
    · next hs =>
      have hpos := hs.2
      rw [Int64.le_iff_toInt_le, Int64.toInt_zero] at hpos
      have hmin : 0 ≤ (min s.2 x).toInt ∧ (min s.2 x).toInt ≤ x.toInt := by
        by_cases hle : s.2 ≤ x
        · rw [show min s.2 x = s.2 from if_pos hle]
          rw [Int64.le_iff_toInt_le] at hle
          omega
        · rw [show min s.2 x = x from if_neg hle]
          omega
      have hlt := x.toInt_lt
      have hsub : (x - min s.2 x).toInt = x.toInt - (min s.2 x).toInt :=
        toInt_sub_of_range (by omega) (by omega)
      obtain ⟨hlo, hhi⟩ := ih (x := x - min s.2 x) (by omega)
      omega
    · exact ih hx

end

/-! ## Whole runs -/

/-- The bounds of all pools. -/
def Books.Bounded (b : Books) : Prop :=
  ∀ (c : Cell) (pool : Pool), b.ledger.pools[c]? = some pool → pool.Bounded (b.opened c) (b.settled c)

/-- What every call keeps of the pools; nothing is settled on a cell without one. -/
structure Books.Sound (b : Books) : Prop where
  pools : ∀ (c : Cell) (pool : Pool), b.ledger.pools[c]? = some pool → pool.Sound (b.opened c) (b.settled c)
  absent : ∀ c : Cell, b.ledger.pools[c]? = none → b.settled c = 0

/-- The sums that a batch is checked by have not wrapped around so far that less than nothing would
be spent after it. -/
def Call.InRange : Call → EscrowLedger → Prop
  | .spendAll branch spends, l =>
    checkAll branch spends l = .ok () → ∀ (c : Cell) (pool : Pool), l.pools[c]? = some pool →
      0 ≤ (pool.spent.amountOf branch).toInt + (batchAmount c spends).toInt
  | _, _ => True

namespace Books

variable {b : Books} {call : Call}

section

variable (h : b.Sound)
include h

lemma Sound.bounded : b.Bounded := fun c pool hpool => (h.pools c pool hpool).bounded

omit h in
lemma sound_start : start.Sound :=
  ⟨fun c pool h => by simp [start, new] at h, fun _ _ => rfl⟩

/-- Calls that only change what one branch has spent. -/
lemma Sound.respend {branch : BranchId} {g : Cell → Int64 → Int64}
    (hres : Respends branch g b.ledger l')
    (hg : ∀ (c : Cell) (pool : Pool), b.ledger.pools[c]? = some pool →
      0 ≤ (g c (pool.spent.amountOf branch)).toInt ∧
        (g c (pool.spent.amountOf branch)).toInt ≤ (pool.claimed.amountOf branch).toInt) :
    Sound ⟨l', b.opened, b.settled⟩ := by
  refine ⟨fun c pool hpool => ?_, fun c hnone => ?_⟩
  · rcases hres c with ⟨-, hnone⟩ | ⟨pool', spent, hold, hnew, hother, hspent⟩
    · rw [hnone] at hpool
      cases hpool
    · rw [hnew] at hpool
      cases hpool
      exact (h.pools c pool' hold).respend hother (hspent ▸ hg c pool' hold)
  · rcases hres c with ⟨hold, -⟩ | ⟨_, _, -, hnew, -⟩
    · exact h.absent c hold
    · rw [hnew] at hnone
      cases hnone

/-- Calls that change one pool, or open it. -/
lemma Sound.setPool {opened : Cell → ℤ} (hopened : ∀ c, c ≠ cell → opened c = b.opened c)
    (hsettled : ∀ c, c ≠ cell → settled c = b.settled c)
    (hpool : pool.Sound (opened cell) (settled cell)) :
    Sound ⟨b.ledger.setPool cell pool, opened, settled⟩ := by
  refine ⟨fun c p hp => ?_, fun c hnone => ?_⟩
  · by_cases hc : c = cell
    · subst hc
      rw [pools_setPool_self] at hp
      cases hp
      exact hpool
    · dsimp only at hp ⊢
      rw [pools_setPool_of_ne hc] at hp
      rw [hopened c hc, hsettled c hc]
      exact h.pools c p hp
  · by_cases hc : c = cell
    · subst hc
      rw [pools_setPool_self] at hnone
      cases hnone
    · dsimp only at hnone ⊢
      rw [pools_setPool_of_ne hc] at hnone
      rw [hsettled c hc]
      exact h.absent c hnone

omit h in
/-- Calls that change every pool. -/
lemma sound_map {f : Pool → Pool}
    (hf : ∀ (c : Cell) (pool : Pool), b.ledger.pools[c]? = some pool → (f pool).Sound (b.opened c) (settled c))
    (habsent : ∀ c : Cell, b.ledger.pools[c]? = none → settled c = 0) :
    Sound ⟨⟨b.ledger.pools.map fun _ => f⟩, b.opened, settled⟩ := by
  refine ⟨fun c p hp => ?_, fun c hnone => ?_⟩
  · rw [TreeMap.getElem?_map] at hp
    obtain ⟨pool, hpool, rfl⟩ := map_eq_some_iff.mp hp
    exact hf c pool hpool
  · rw [TreeMap.getElem?_map, map_eq_none_iff] at hnone
    exact habsent c hnone

omit h in
/-- A call that settles nothing and opens nothing leaves the ghost state as it is. -/
lemma sound_step (hrun : (call.run b.ledger).2 = l')
    (hopen : (b.step call).opened = b.opened) (hsettles : ∀ c, call.settles b.ledger c = 0)
    (h : Sound ⟨l', b.opened, b.settled⟩) : (b.step call).Sound := by
  have hsettled : (b.step call).settled = b.settled := by
    simp [step, hsettles]
  have hstep : b.step call = ⟨l', b.opened, b.settled⟩ := by
    rw [← hrun, ← hopen, ← hsettled]
    rfl
  rwa [hstep]

lemma Sound.step_openPool (cell : Cell) (slack : Int64) :
    (b.step (.openPool cell slack)).Sound := by
  have hrefused : b.step (.openPool cell slack) = b ∨
      ¬ slack < 0 ∧ b.ledger.pools[cell]? = none ∧
        b.step (.openPool cell slack) = ⟨b.ledger.setPool cell ⟨slack, ∅, ∅⟩,
          update b.opened cell slack.toInt, b.settled⟩ := by
    by_cases hneg : slack < 0
    · simp [step, Call.run, openPool, hneg, Call.settles]
    · by_cases hcontains : b.ledger.pools.contains cell
      · simp [step, Call.run, openPool, hneg, hcontains, Call.settles]
      · right
        refine ⟨hneg, by simpa using hcontains, ?_⟩
        simp [step, Call.run, openPool, hneg, hcontains, Call.settles]
  rcases hrefused with heq | ⟨hneg, hnone, heq⟩
  · rwa [heq]
  rw [heq]
  have hzero := h.absent cell hnone
  rw [Int64.lt_iff_toInt_lt] at hneg
  refine h.setPool (fun c hne => update_of_ne hne _ _) (fun _ _ => rfl)
    ⟨fun branch => by simp [Amounts.amountOf], ?_, ?_⟩
  · simpa [Amounts.sum] using hneg
  · simp [hzero]

variable (branch : BranchId)

lemma Sound.step_claim (cell : Cell) (amount : Int64) :
    (b.step (.claim branch cell amount)).Sound := by
  refine sound_step rfl rfl (fun _ => rfl) ?_
  rw [Call.run, EscrowLedger.claim]
  split
  · exact h
  · next hpos =>
    split
    · exact h
    · next pool hpool =>
      split
      · exact h
      · next hfree =>
        exact h.setPool (fun _ _ => rfl) (fun _ _ => rfl)
          ((h.pools cell pool hpool).claim hpos hfree)

lemma Sound.step_spend (cell : Cell) (amount : Int64) :
    (b.step (.spend branch cell amount)).Sound := by
  refine sound_step rfl rfl (fun _ => rfl) ?_
  rw [Call.run, EscrowLedger.spend]
  split
  · exact h
  · next pool hpool =>
    split
    · exact h
    · next hpos =>
      dsimp only
      split
      · exact h
      · next hleft =>
        have hsound := h.pools cell pool hpool
        have hspent := hsound.spent branch
        have hlt := (pool.claimed.amountOf branch).toInt_lt
        rw [Int64.le_iff_toInt_le, Int64.toInt_zero] at hpos
        rw [Int64.lt_iff_toInt_lt, hsound.left] at hleft
        have hadd : (pool.spent.amountOf branch + amount).toInt =
            (pool.spent.amountOf branch).toInt + amount.toInt :=
          toInt_add_of_range (by omega) (by omega)
        refine h.setPool (fun _ _ => rfl) (fun _ _ => rfl) (hsound.respend (b := branch)
          (fun b' hb' => Amounts.amountOf_insert_of_ne hb') ?_)
        rw [Amounts.credit, Amounts.amountOf_insert_self]
        omega

/-- What a branch has spent after a batch that passed the check. -/
lemma Sound.batch {branch : BranchId}
    (hcheck : checkAll branch spends b.ledger = .ok ()) {c : Cell}
    (hpool : b.ledger.pools[c]? = some pool) :
    (pool.spent.amountOf branch + batchAmount c spends).toInt =
        (pool.spent.amountOf branch).toInt + (batchAmount c spends).toInt ∧
      (pool.spent.amountOf branch).toInt + (batchAmount c spends).toInt ≤
        (pool.claimed.amountOf branch).toInt := by
  have hsound := h.pools c pool hpool
  have hspent := hsound.spent branch
  have hle := batchAmount_le hcheck hpool hsound
  have hlt := (pool.claimed.amountOf branch).toInt_lt
  have hge := (batchAmount c spends).le_toInt
  exact ⟨toInt_add_of_range (by omega) (by omega), by omega⟩

lemma Sound.step_spendAll {branch : BranchId}
    (hrange : (Call.spendAll branch spends).InRange b.ledger) :
    (b.step (.spendAll branch spends)).Sound := by
  refine sound_step rfl rfl (fun _ => rfl) ?_
  rw [Call.run, spendAll]
  split
  · exact h
  · next hcheck =>
    refine h.respend (respends_chargeAll branch b.ledger spends) fun c pool hpool => ?_
    obtain ⟨hadd, hle⟩ := h.batch hcheck hpool
    rw [hadd]
    exact ⟨hrange hcheck c pool hpool, hle⟩

lemma Sound.step_refundAll (spends : List (Cell × Int64)) :
    (b.step (.refundAll branch spends)).Sound := by
  refine sound_step rfl rfl (fun _ => rfl)
    (h.respend (respends_refundAll branch b.ledger spends) fun c pool hpool => ?_)
  have hspent := (h.pools c pool hpool).spent branch
  obtain ⟨hlo, hhi⟩ := refundAmount_range c spends hspent.1
  exact ⟨hlo, hhi.trans hspent.2⟩

lemma Sound.step_release : (b.step (.release branch)).Sound :=
  sound_step rfl rfl (fun _ => rfl)
    (sound_map (fun c pool hpool => (h.pools c pool hpool).release) h.absent)

lemma Sound.step_settleAll : (b.step (.settleAll branch)).Sound := by
  refine sound_map (fun c pool hpool => ?_) fun c hnone => ?_
  · simp only [Call.settles, spentOf, hpool]
    exact (h.pools c pool hpool).settle
  · simp [Call.settles, spentOf, hnone, h.absent c hnone]

lemma Sound.step_settle (cell : Cell) : (b.step (.settle branch cell)).Sound := by
  have hother : ∀ c, c ≠ cell → (b.step (.settle branch cell)).settled c = b.settled c := by
    intro c hc
    simp [step, Call.settles, hc]
  cases hpool : b.ledger.pools[cell]? with
  | none =>
    have hrun : (Call.run (.settle branch cell) b.ledger).2 = b.ledger := by
      simp [Call.run, settle, hpool]
    refine sound_step hrun rfl (fun c => ?_) h
    by_cases hc : c = cell
    · simp [Call.settles, hc, spentOf, hpool]
    · simp [Call.settles, hc]
  | some pool =>
    have hledger : (b.step (.settle branch cell)).ledger =
        b.ledger.setPool cell (settlePool branch pool) := by
      simp [step, Call.run, settle, hpool]
    have hsettled : (b.step (.settle branch cell)).settled cell =
        b.settled cell + (pool.spent.amountOf branch).toInt := by
      simp [step, Call.settles, spentOf, hpool]
    have hstep : b.step (.settle branch cell) = ⟨b.ledger.setPool cell (settlePool branch pool),
        b.opened, (b.step (.settle branch cell)).settled⟩ := by
      rw [← hledger]
      rfl
    rw [hstep]
    exact h.setPool (fun _ _ => rfl) hother (hsettled ▸ (h.pools cell pool hpool).settle)

/-- Every call keeps the books sound, unless the sums of a batch are out of range. -/
lemma Sound.step (hrange : call.InRange b.ledger) : (b.step call).Sound := by
  cases call with
  | openPool cell slack => exact h.step_openPool cell slack
  | claim branch cell amount => exact h.step_claim branch cell amount
  | spend branch cell amount => exact h.step_spend branch cell amount
  | spendAll branch spends => exact h.step_spendAll hrange
  | refundAll branch spends => exact h.step_refundAll branch spends
  | release branch => exact h.step_release branch
  | settle branch cell => exact h.step_settle branch cell
  | settleAll branch => exact h.step_settleAll branch

/-- And a batch whose sums are out of range breaks the bounds. -/
lemma Sound.inRange (hafter : (b.step call).Bounded) : call.InRange b.ledger := by
  cases call with
  | spendAll branch spends =>
    intro hcheck c pool hpool
    have hledger : (b.step (.spendAll branch spends)).ledger =
        spends.foldl (charge branch) b.ledger := by
      simp [Books.step, Call.run, spendAll, hcheck]
    rcases respends_chargeAll branch b.ledger spends c with
      ⟨hnone, -⟩ | ⟨pool', spent, hold, hnew, -, hspent⟩
    · rw [hnone] at hpool
      cases hpool
    · obtain rfl : pool' = pool := by simpa [hold] using hpool
      have hbound := (hafter c _ (hledger ▸ hnew)).spent branch
      simp only [hspent, (h.batch hcheck hpool).1] at hbound
      exact hbound.1
  | _ => trivial

end

lemma after_concat (b : Books) (calls : List Call) (call : Call) :
    b.after (calls ++ [call]) = (b.after calls).step call := by
  simp [after]

/-- The books are sound after a run whose batches are all in range. -/
lemma sound_after {calls : List Call}
    (h : ∀ pre call, pre ++ [call] <+: calls → call.InRange (start.after pre).ledger) :
    (start.after calls).Sound := by
  induction calls using reverseRecOn with
  | nil => exact sound_start
  | append_singleton calls call ih =>
    rw [after_concat]
    refine (ih fun pre call' hpre => ?_).step (h calls call prefix_rfl)
    exact h pre call' (hpre.trans (prefix_append calls [call]))

/-- And after a run that has kept the bounds. -/
lemma sound_of_bounded {calls : List Call}
    (h : ∀ pre, pre <+: calls → (start.after pre).Bounded) : (start.after calls).Sound := by
  induction calls using reverseRecOn with
  | nil => exact sound_start
  | append_singleton calls call ih =>
    have hsound := ih fun pre hpre => h pre (hpre.trans (prefix_append calls [call]))
    have hafter := h _ prefix_rfl
    rw [after_concat] at hafter ⊢
    exact hsound.step (hsound.inRange hafter)

end Books

open Books in
/-- The bounds hold at every point of a run exactly if the sums of every batch are in range, and a
batch that is refused changes nothing. -/
theorem resource_bounded_iff (calls : List Call) :
    ((∀ pre, pre <+: calls → (start.after pre).Bounded) ↔
      ∀ pre call, pre ++ [call] <+: calls → call.InRange (start.after pre).ledger) ∧
    ∀ branch spends l e, (spendAll branch spends l).1 = .error e →
      (spendAll branch spends l).2 = l := by
  refine ⟨⟨fun h pre call hpre => ?_, fun h pre hpre => ?_⟩, fun branch spends l e herr => ?_⟩
  · have hsound : (start.after pre).Sound := sound_of_bounded fun pre' hpre' =>
      h pre' (hpre'.trans ((prefix_append pre [call]).trans hpre))
    have hafter := h _ hpre
    rw [after_concat] at hafter
    exact hsound.inRange hafter
  · exact (sound_after fun pre' call hpre' => h pre' call (hpre'.trans hpre)).bounded
  · rw [spendAll] at herr ⊢
    split at herr
    · rfl
    · cases herr

/-- Two amounts of a batch that add up to less than nothing pass the check, and the branch has
then spent less than nothing. -/
theorem spendAll_wraps_around :
    let cell : Cell := ⟨1, 1, 1⟩
    let branch : BranchId := ⟨1, 0⟩
    let calls : List Call := [.openPool cell 10, .claim branch cell 5,
      .spendAll branch [(cell, Int64.maxValue), (cell, Int64.maxValue)]]
    (Books.start.after calls).ledger.spentOf branch cell = -2 ∧
      ¬ (Books.start.after calls).Bounded := by
  intro cell branch calls
  have hspent : (Books.start.after calls).ledger.spentOf branch cell = -2 := by decide +kernel
  refine ⟨hspent, fun h => ?_⟩
  rw [spentOf] at hspent
  cases hpool : (Books.start.after calls).ledger.pools[cell]? with
  | none => simp [hpool] at hspent
  | some pool =>
    have hbound := ((h cell pool hpool).spent branch).1
    simp only [hpool, elim_some] at hspent
    omega

end EscrowLedger

end FerroDb.Agent
