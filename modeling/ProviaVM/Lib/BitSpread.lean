import Mathlib.Data.Nat.Bits
import Mathlib.Tactic.Ring

/-! # Spreading the bits of a word

A word is spread by doubling the gaps between its bits: blocks of `2 * s` bits are split
into blocks of `s` bits by one shift, one OR and one mask. `Spread s x y` says that `y`
holds the blocks of `s` bits of `x`, each followed by `s` zeros; at `s = 1` the bits of
`x` stand at the even positions. -/
namespace BitSpread
open BitVec

variable {w : Nat}
variable {s i : Nat} {x y : BitVec w} {steps : List (Nat × BitVec w)}

/-- Block `t` of `y` is block `t / 2` of `x` for even `t`, and zero for odd `t`. -/
def Spread (s : Nat) (x y : BitVec w) : Prop :=
  ∀ t r, r < s → s * t + r < w → y.getLsbD (s * t + r) =
    (decide (t % 2 = 0) && x.getLsbD (s * (t / 2) + r))

def LowHalf (x : BitVec w) : Prop := ∀ i, w ≤ 2 * i → x.getLsbD i = false

/-- The mask that keeps every other block of `s` bits, from the lowest. -/
def KeepsEven (s : Nat) (mask : BitVec w) : Prop :=
  ∀ i < w, mask.getLsbD i = decide (i / s % 2 = 0)

instance (s : Nat) (mask : BitVec w) : Decidable (KeepsEven s mask) := by
  unfold KeepsEven
  infer_instance

def spreadStep (s : Nat) (mask y : BitVec w) : BitVec w := (y ||| y <<< s) &&& mask

/-- A shift and a mask double the number of blocks, each of half the size. -/
theorem Spread.step {mask : BitVec w} (keeps : KeepsEven s mask) (h : Spread (2 * s) x y) :
    Spread s x (spreadStep s mask y) := by
  intro t r small inside
  have pos : 0 < s := by omega
  have block : (s * t + r) / s % 2 = t % 2 := by
    rw [Nat.mul_add_div pos, Nat.div_eq_of_lt small, Nat.add_zero]
  simp only [spreadStep, getLsbD_and, getLsbD_or, getLsbD_shiftLeft, keeps _ inside, block, inside,
    decide_true, Bool.true_and]
  rcases Nat.mod_two_eq_zero_or_one t with even | odd
  · obtain ⟨q, rfl⟩ : ∃ q, t = 2 * q := ⟨t / 2, by omega⟩
    have own := h q r (by omega) (by rw [Nat.mul_assoc, Nat.mul_left_comm]; exact inside)
    rw [show 2 * s * q + r = s * (2 * q) + r by ring] at own
    rw [own]
    rcases Nat.mod_two_eq_zero_or_one q with low | high
    · -- the block stays where it is; what is shifted onto it was a gap
      obtain ⟨k, rfl⟩ : ∃ k, q = 2 * k := ⟨q / 2, by omega⟩
      have gap : (!decide (s * (2 * (2 * k)) + r < s) && y.getLsbD (s * (2 * (2 * k)) + r - s)) =
          false := by
        cases k with
        | zero => simp [small]
        | succ k =>
          have position : s * (2 * (2 * (k + 1))) + r - s = 2 * s * (2 * k + 1) + (s + r) := by
            have : s * (2 * (2 * (k + 1))) = 2 * s * (2 * k + 1) + 2 * s := by ring
            omega
          rw [position, h (2 * k + 1) (s + r) (by omega) (by omega)]
          simp [Nat.add_mod]
      rw [gap, show 2 * k / 2 = k by omega, show 2 * s * k + r = s * (2 * k) + r by ring]
      simp
    · -- the block is the upper half of a block `s` positions down
      obtain ⟨k, rfl⟩ : ∃ k, q = 2 * k + 1 := ⟨q / 2, by omega⟩
      have position : s * (2 * (2 * k + 1)) + r - s = 2 * s * (2 * k) + (s + r) := by
        have : s * (2 * (2 * k + 1)) = 2 * s * (2 * k) + 2 * s := by ring
        omega
      have above : ¬ s * (2 * (2 * k + 1)) + r < s := by
        omega
      rw [position, h (2 * k) (s + r) (by omega) (by omega), show 2 * k / 2 = k by omega,
        show 2 * s * k + (s + r) = s * (2 * k + 1) + r by ring]
      simp [above]
  · simp [odd]

/-- The first step of a spreading looks at three quarters of a word: the third quarter falls
onto the second. -/
theorem spreadStep_congr {mask : BitVec w} (fits : w = 4 * s) (keeps : KeepsEven s mask)
    (low : ∀ r < s, y.getLsbD r = x.getLsbD r)
    (mid : ∀ r < s, y.getLsbD (s + r) = (x.getLsbD (s + r) || x.getLsbD (2 * s + r)))
    (high : LowHalf y) :
    spreadStep s mask x = spreadStep s mask y := by
  apply eq_of_getLsbD_eq
  intro i inside
  simp only [spreadStep, getLsbD_and, getLsbD_or, getLsbD_shiftLeft, keeps i inside, inside,
    decide_true]
  by_cases first : i < s
  · simp [first, low i first]
  by_cases third : 2 * s ≤ i ∧ i < 3 * s
  · obtain ⟨r, rfl⟩ : ∃ r, i = 2 * s + r := ⟨i - 2 * s, by omega⟩
    rw [high (2 * s + r) (by omega), show 2 * s + r - s = s + r by omega, mid r (by omega)]
    simp only [first, decide_false, Bool.not_false, Bool.true_and, Bool.false_or]
    rw [Bool.or_comm]
  · have odd : i / s % 2 = 1 := by
      by_cases second : i < 2 * s
      · rw [Nat.div_eq_of_lt_le (k := 1) (by omega) (by omega)]
      · rw [Nat.div_eq_of_lt_le (k := 3) (by omega) (by omega)]
    simp [odd]

/-- A word that uses its lower half only is spread in blocks of half its width. -/
theorem Spread.of_lowHalf (fits : w = 2 * s) (low : LowHalf x) : Spread s x x := by
  intro t r small inside
  rcases t with _ | t
  · simp
  · have first : t = 0 := by
      by_contra later
      have : s * 2 ≤ s * (t + 1) := Nat.mul_le_mul_left s (by omega)
      omega
    subst first
    rw [low _ (by omega)]
    simp

theorem Spread.even (h : Spread 1 x y) (inside : 2 * i < w) :
    y.getLsbD (2 * i) = x.getLsbD i := by
  have bit := h (2 * i) 0 (by omega) (by omega)
  simpa [Nat.mul_div_cancel_left] using bit

theorem Spread.odd (h : Spread 1 x y) (inside : 2 * i + 1 < w) :
    y.getLsbD (2 * i + 1) = false := by
  have bit := h (2 * i + 1) 0 (by omega) (by omega)
  simpa [Nat.add_mod] using bit

/-- A word whose odd bits are zero is the spread of the word of its even bits. -/
theorem Spread.of_bits (even : ∀ i, 2 * i < w → y.getLsbD (2 * i) = x.getLsbD i)
    (odd : ∀ i, 2 * i + 1 < w → y.getLsbD (2 * i + 1) = false) : Spread 1 x y := by
  intro t r small inside
  obtain rfl : r = 0 := by omega
  rw [Nat.one_mul] at inside ⊢
  rcases Nat.mod_two_eq_zero_or_one t with isEven | isOdd
  · obtain ⟨q, rfl⟩ : ∃ q, t = 2 * q := ⟨t / 2, by omega⟩
    simp [even q inside]
  · obtain ⟨q, rfl⟩ : ∃ q, t = 2 * q + 1 := ⟨t / 2, by omega⟩
    simp [odd q inside]

def compactStep (s : Nat) (mask y : BitVec w) : BitVec w := (y ||| y >>> s) &&& mask

/-- The inverse of a spreading step: two blocks of `s` bits become one of `2 * s`. -/
theorem Spread.compact {mask : BitVec w} (low : LowHalf x) (keeps : KeepsEven (2 * s) mask)
    (h : Spread s x y) :
    Spread (2 * s) x (compactStep s mask y) := by
  intro t r small inside
  have pos : 0 < 2 * s := by omega
  have block : (2 * s * t + r) / (2 * s) % 2 = t % 2 := by
    rw [Nat.mul_add_div pos, Nat.div_eq_of_lt small, Nat.add_zero]
  simp only [compactStep, getLsbD_and, getLsbD_or, getLsbD_ushiftRight, keeps _ inside, block]
  rcases Nat.mod_two_eq_zero_or_one t with even | odd
  · obtain ⟨q, rfl⟩ : ∃ q, t = 2 * q := ⟨t / 2, by omega⟩
    rw [show 2 * q / 2 = q by omega]
    by_cases lower : r < s
    · have own :=
        h (4 * q) r lower (by rw [show s * (4 * q) = 2 * s * (2 * q) by ring]; exact inside)
      have gap : y.getLsbD (s + (2 * s * (2 * q) + r)) = false := by
        by_cases within : s + (2 * s * (2 * q) + r) < w
        · have position : s + (2 * s * (2 * q) + r) = s * (4 * q + 1) + r := by ring
          rw [position] at within ⊢
          rw [h (4 * q + 1) r lower within]
          simp [show (4 * q + 1) % 2 = 1 by omega]
        · exact getLsbD_of_ge y _ (by omega)
      rw [gap, show 2 * s * (2 * q) + r =
        s * (4 * q) + r by
        ring, own, show 4 * q / 2 = 2 * q by omega, show 2 * s * q + r = s * (2 * q) + r by ring]
      simp [show 4 * q % 2 = 0 by omega]
    · obtain ⟨k, rfl⟩ : ∃ k, r = s + k := ⟨r - s, by omega⟩
      have position : 2 * s * (2 * q) + (s + k) = s * (4 * q + 1) + k := by ring
      have gap := h (4 * q + 1) k (by omega) (position ▸ inside)
      have source : 2 * s * q + (s + k) = s * (2 * q + 1) + k := by ring
      have upper : y.getLsbD (s + (s * (4 * q + 1) + k)) = x.getLsbD (s * (2 * q + 1) + k) := by
        have target : s + (s * (4 * q + 1) + k) = s * (4 * q + 2) + k := by ring
        rw [target]
        by_cases within : s * (4 * q + 2) + k < w
        · rw [h (4 * q + 2) k (by omega) within, show (4 * q + 2) / 2 = 2 * q + 1 by omega]
          simp [show (4 * q + 2) % 2 = 0 by omega]
        · have double : 2 * (s * (2 * q + 1) + k) = s * (4 * q + 2) + k + k := by ring
          rw [getLsbD_of_ge y _ (by omega), low _ (by omega)]
      rw [position, gap, upper, source]
      simp [show (4 * q + 1) % 2 = 1 by omega]
  · simp [odd]

/-- Spreading from blocks of `s` bits down to single bits, with the given shifts and masks. -/
def spreadAll : List (Nat × BitVec w) → BitVec w → BitVec w
  | [], y => y
  | (n, mask) :: rest, y => spreadAll rest (spreadStep n mask y)

/-- The shifts halve from `s / 2` to `1`, and every mask fits its shift. -/
def Halving (s : Nat) : List (Nat × BitVec w) → Prop
  | [] => s = 1
  | (n, mask) :: rest => s = 2 * n ∧ KeepsEven n mask ∧ Halving n rest

def decidableHalving : (s : Nat) → (steps : List (Nat × BitVec w)) → Decidable (Halving s steps)
  | s, [] => inferInstanceAs (Decidable (s = 1))
  | s, (n, mask) :: rest =>
    have := decidableHalving n rest
    inferInstanceAs (Decidable (s = 2 * n ∧ KeepsEven n mask ∧ Halving n rest))

instance (s : Nat) (steps : List (Nat × BitVec w)) : Decidable (Halving s steps) :=
  decidableHalving s steps

theorem spreadAll_spread (halving : Halving s steps) (h : Spread s x y) :
    Spread 1 x (spreadAll steps y) := by
  induction steps generalizing s y with
  | nil => exact halving ▸ h
  | cons step rest ih =>
    obtain ⟨rfl, keeps, halving⟩ := halving
    exact ih halving (h.step keeps)

/-- Spreading a word whose upper half is in use: `y` is the word the first step sees. -/
theorem spreadAll_seen (fits : w = 4 * s) (halving : Halving (2 * s) steps)
    (low : ∀ r < s, y.getLsbD r = x.getLsbD r)
    (mid : ∀ r < s, y.getLsbD (s + r) = (x.getLsbD (s + r) || x.getLsbD (2 * s + r)))
    (high : LowHalf y) :
    Spread 1 y (spreadAll steps x) := by
  cases steps with
  | nil =>
    replace halving : 2 * s = 1 := halving
    omega
  | cons step rest =>
    obtain ⟨n, mask⟩ := step
    obtain ⟨same, keeps, halving⟩ := halving
    obtain rfl : s = n := by omega
    rw [spreadAll, spreadStep_congr fits keeps low mid high]
    exact spreadAll_spread halving ((Spread.of_lowHalf (by omega) high).step keeps)

/-- Compacting from single bits up, with the given shifts and masks. -/
def compactAll : List (Nat × BitVec w) → BitVec w → BitVec w
  | [], y => y
  | (n, mask) :: rest, y => compactAll rest (compactStep n mask y)

/-- The shifts double from `s` until blocks of half the width are reached. -/
def Doubling (s : Nat) : List (Nat × BitVec w) → Prop
  | [] => w = 2 * s
  | (n, mask) :: rest => s = n ∧ KeepsEven (2 * n) mask ∧ Doubling (2 * n) rest

def decidableDoubling : (s : Nat) → (steps : List (Nat × BitVec w)) → Decidable (Doubling s steps)
  | s, [] => inferInstanceAs (Decidable (w = 2 * s))
  | s, (n, mask) :: rest =>
    have := decidableDoubling (2 * n) rest
    inferInstanceAs (Decidable (s = n ∧ KeepsEven (2 * n) mask ∧ Doubling (2 * n) rest))

instance (s : Nat) (steps : List (Nat × BitVec w)) : Decidable (Doubling s steps) :=
  decidableDoubling s steps

/-- Compacting recovers the word that was spread. -/
theorem getLsbD_compactAll (low : LowHalf x) (doubling : Doubling s steps) (h : Spread s x y)
    (inside : 2 * i < w) :
    (compactAll steps y).getLsbD i = x.getLsbD i := by
  induction steps generalizing s y with
  | nil =>
    replace doubling : w = 2 * s := doubling
    have bit := h 0 i (by omega) (by omega)
    simpa [compactAll] using bit
  | cons step rest ih =>
    obtain ⟨rfl, keeps, doubling⟩ := doubling
    exact ih doubling (h.compact low keeps)

/-- Two words interleaved: the first at the odd positions, the second at the even ones. -/
def interleave (steps : List (Nat × BitVec w)) (x y : BitVec w) : BitVec w :=
  spreadAll steps x <<< 1 ||| spreadAll steps y

theorem getLsbD_interleave {x' y' : BitVec w} (hx : Spread 1 x' (spreadAll steps x))
    (hy : Spread 1 y' (spreadAll steps y)) (inside : 2 * i + 1 < w) :
    (interleave steps x y).getLsbD (2 * i) = y'.getLsbD i ∧
      (interleave steps x y).getLsbD (2 * i + 1) = x'.getLsbD i := by
  simp only [interleave, getLsbD_or, getLsbD_shiftLeft]
  constructor
  · rw [hy.even (by omega)]
    cases i with
    | zero => simp
    | succ i => simp [show 2 * (i + 1) - 1 = 2 * i + 1 by omega, hx.odd (i := i) (by omega)]
  · rw [hy.odd inside, Nat.add_sub_cancel, hx.even (by omega)]
    simp [inside]

end BitSpread
