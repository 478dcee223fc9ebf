import FerroDb.Cow.Chunker

/-!
# A hash that slides

The hash of a window is kept as the window moves over a buffer: the byte that leaves is taken out
of it, and the byte that comes is pushed. A state is a word of 32 bits, and turning words goes over
exclusive or, so that what a byte has become in the state depends only on how many came after it.
-/

namespace FerroDb.Cow

open List

/-- A word turned left. Turns count only up to the width of the word. -/
def rotateLeft32By (h n : ℕ) : ℕ := ((BitVec.ofNat 32 h).rotateLeft n).toNat

namespace Buzhash

/-- A window moves by a byte: one goes out, and one comes in. -/
def roll (h : ℕ) (out inp : UInt8) (window : ℕ) : ℕ :=
  rotateLeft32 h ^^^ rotateLeft32By (table out.toNat) (window % 2 ^ 32) ^^^ table inp.toNat

/-- The state at the end of a buffer: its first window is pushed, and each byte that follows rolls
in for the one a window before it. -/
def slide (window : ℕ) (buf : List UInt8) : ℕ :=
  (buf.zip (buf.drop window)).foldl (fun h p => roll h p.1 p.2 window)
    ((buf.take window).foldl push 0)

/-! ## Words -/

lemma rotateLeft_zero (x : BitVec 32) : x.rotateLeft 0 = x := by
  ext
  simp [BitVec.getElem_rotateLeft]

lemma rotateLeft_succ (x : BitVec 32) (n : ℕ) :
    (x.rotateLeft n).rotateLeft 1 = x.rotateLeft (n + 1) := by
  ext
  simp only [BitVec.getElem_rotateLeft]
  grind

lemma rotateLeft_xor (x y : BitVec 32) (n : ℕ) :
    (x ^^^ y).rotateLeft n = x.rotateLeft n ^^^ y.rotateLeft n := by
  ext
  simp only [BitVec.getElem_rotateLeft, BitVec.getElem_xor]
  split <;> rfl

lemma rotateLeft32_toNat (x : BitVec 32) : rotateLeft32 x.toNat = (x.rotateLeft 1).toNat := by
  simp [rotateLeft32, BitVec.toNat_rotateLeft]

def word (b : UInt8) : BitVec 32 := BitVec.ofNat 32 (table b.toNat)

lemma word_toNat (b : UInt8) : (word b).toNat = table b.toNat := by
  have hlt : table b.toNat < 2 ^ 32 := by
    unfold table
    lift_lets
    intro z z' z''
    have hz : z'' < 2 ^ 64 := Nat.mod_lt _ (by decide)
    have hxor := Nat.xor_lt_two_pow hz ((Nat.shiftRight_le z'' 31).trans_lt hz)
    rw [Nat.shiftRight_eq_div_pow]
    omega
  rw [word, BitVec.toNat_ofNat, Nat.mod_eq_of_lt hlt]

lemma rotateLeft32By_table (b : UInt8) (n : ℕ) :
    rotateLeft32By (table b.toNat) (n % 2 ^ 32) = ((word b).rotateLeft n).toNat := by
  have hn : n % 2 ^ 32 % 32 = n % 32 := Nat.mod_mod_of_dvd n (Dvd.intro (2 ^ 27) (by norm_num))
  rw [rotateLeft32By, ← BitVec.rotateLeft_mod_eq_rotateLeft, hn,
    BitVec.rotateLeft_mod_eq_rotateLeft, word]

/-- A byte pushed on a word. -/
def step (x : BitVec 32) (b : UInt8) : BitVec 32 := x.rotateLeft 1 ^^^ word b

lemma foldl_push (l : List UInt8) : l.foldl push 0 = (l.foldl step 0).toNat := by
  induction l using reverseRecOn with
  | nil => rfl
  | append_singleton l b ih =>
    simp [ih, push, step, rotateLeft32_toNat, word_toNat]

/-- What stood before some bytes is turned once for each of them. -/
lemma foldl_step (x : BitVec 32) (l : List UInt8) :
    l.foldl step x = x.rotateLeft l.length ^^^ l.foldl step 0 := by
  induction l using reverseRecOn with
  | nil => simp [rotateLeft_zero]
  | append_singleton l b ih =>
    simp [ih, step, rotateLeft_xor, rotateLeft_succ, BitVec.xor_assoc]

/-! ## Windows -/

/-- The byte that goes out takes with it what it had become in the hash. -/
lemma roll_push (a b : UInt8) (mid : List UInt8) :
    roll ((a :: mid).foldl push 0) a b (mid.length + 1) = (mid ++ [b]).foldl push 0 := by
  have ha : (a :: mid).foldl step 0 = (word a).rotateLeft mid.length ^^^ mid.foldl step 0 := by
    simpa [step] using foldl_step (word a) mid
  have hb : (mid ++ [b]).foldl step 0 = (mid.foldl step 0).rotateLeft 1 ^^^ word b := by
    simp [step]
  rw [roll, rotateLeft32By_table, foldl_push, foldl_push, rotateLeft32_toNat, ← word_toNat b,
    ← BitVec.toNat_xor, ← BitVec.toNat_xor, ha, hb, rotateLeft_xor, rotateLeft_succ]
  grind

lemma foldl_roll (win rest : List UInt8) :
    ((win ++ rest).zip rest).foldl (fun h p => roll h p.1 p.2 win.length) (win.foldl push 0) =
      ((win ++ rest).drop rest.length).foldl push 0 := by
  induction rest generalizing win with
  | nil => simp
  | cons b rest ih =>
    cases win with
    | nil =>
      -- In a window of no bytes the one that comes goes out at once.
      have hroll : roll 0 b b 0 = 0 := by
        rw [roll, rotateLeft32By_table, rotateLeft_zero, word_toNat]
        simp [rotateLeft32]
      simpa [hroll] using ih []
    | cons a mid =>
      have hroll := roll_push a b mid
      have hrest := ih (mid ++ [b])
      simp_all

end Buzhash

lemma slide_slice {window start stop : ℕ} {buf : List UInt8} (h : start + window ≤ stop)
    (hstop : stop ≤ buf.length) :
    Buzhash.slide window (slice buf start stop) = keyHash (slice buf (stop - window) stop) := by
  have hlen : (slice buf start stop).length = stop - start := by grind [slice]
  have hwin : ((slice buf start stop).take window).length = window := by grind
  have hroll := Buzhash.foldl_roll ((slice buf start stop).take window)
    ((slice buf start stop).drop window)
  have hdrop : start + (stop - start - window) = stop - window := by omega
  simp only [take_append_drop, hwin, length_drop, hlen] at hroll
  rw [Buzhash.slide, hroll, slice, drop_drop, hdrop]
  rfl

/-- A hash that slides over a buffer, whatever byte it was started on, is that of the last window:
buffers that have a window in common have a boundary after it or not in common. -/
theorem slide_boundary (window : ℕ) (buf : List UInt8) (start stop : ℕ)
    (h : start + window ≤ stop) (hstop : stop ≤ buf.length) :
    Buzhash.slide window (slice buf start stop) = keyHash (slice buf (stop - window) stop) ∧
    ∀ buf' start' stop', start' + window ≤ stop' → stop' ≤ buf'.length →
      slice buf (stop - window) stop = slice buf' (stop' - window) stop' → ∀ size target,
        boundaryFrom (Buzhash.slide window (slice buf start stop)) size target =
          boundaryFrom (Buzhash.slide window (slice buf' start' stop')) size target := by
  refine ⟨slide_slice h hstop, ?_⟩
  intro buf' start' stop' h' hstop' hsame size target
  rw [slide_slice h hstop, slide_slice h' hstop', hsame]

theorem slide_boundary_at : Buzhash.slide 2 (slice [7, 1, 2, 3] 1 4) = keyHash [2, 3] :=
  (slide_boundary 2 [7, 1, 2, 3] 1 4 (by decide) (by decide)).1

end FerroDb.Cow
