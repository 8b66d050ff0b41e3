import Mathlib.Data.Nat.Bits
import Mathlib.Tactic.Ring

/-! # Carry trees and AND trees on machine words

A carry tree computes every carry of an addition in `log w` rounds from the propagate
word `p` and the generate word `g`. `carryOf p g u` is the carry into position `u`,
one position after the other; the invariant of the rounds says how much of that
recursion a round has already summed up. No use is made of `p` and `g` being
disjoint, so a carry-in may be folded into bit `0` of `g`. -/
namespace ParallelPrefix
open BitVec

variable {w : Nat}
variable {n d : Nat} {x y : BitVec w}

def carryOf (p g : BitVec w) : Nat → Bool
  | 0 => false
  | u + 1 => g.getLsbD u ^^ (p.getLsbD u && carryOf p g u)

/-- One round at distance `n`: a position absorbs what lies `n` below it. -/
def round (n : Nat) (pg : BitVec w × BitVec w) : BitVec w × BitVec w :=
  (pg.1 &&& pg.1 <<< n, pg.2 ^^^ (pg.1 &&& pg.2 <<< n))

/-- `d` rounds, at distances `1, 2, 4, …`. -/
def rounds : Nat → BitVec w × BitVec w → BitVec w × BitVec w
  | 0, pg => pg
  | d + 1, pg => round (2 ^ d) (rounds d pg)

/-- The words summarise `n` positions: a carry out is what they generate, or what they
propagate of the carry `n` positions down. -/
def Summarises (p g : BitVec w) (n : Nat) (pg : BitVec w × BitVec w) : Prop :=
  ∀ u < w, carryOf p g (u + 1) = (pg.2.getLsbD u ^^ (pg.1.getLsbD u && carryOf p g (u + 1 - n)))

theorem Summarises.round {p g : BitVec w} {pg : BitVec w × BitVec w} (h : Summarises p g n pg) :
    Summarises p g (2 * n) (round n pg) := by
  intro u inside
  simp only [ParallelPrefix.round, getLsbD_and, getLsbD_xor, getLsbD_shiftLeft, inside]
  by_cases low : u < n
  · -- the window already reaches position 0, where no carry comes in
    have bottom : u + 1 - n = 0 := by omega
    simpa [low, bottom, carryOf] using h u inside
  · have below := h (u - n) (by omega)
    rw [show u - n + 1 = u + 1 - n by omega, show u + 1 - n - n = u + 1 - 2 * n by omega] at below
    rw [h u inside, below]
    simp only [low]
    cases pg.1.getLsbD u <;> simp

theorem rounds_summarise (p g : BitVec w) (d : Nat) : Summarises p g (2 ^ d) (rounds d (p, g)) := by
  induction d with
  | zero =>
    intro u _
    simp [rounds, carryOf]
  | succ d ih =>
    rw [Nat.pow_succ']
    exact ih.round

/-- After rounds that span the word, the generate word holds every carry. -/
theorem getLsbD_rounds {p g : BitVec w} {u : Nat} (spans : w ≤ 2 ^ d) (inside : u < w) :
    (rounds d (p, g)).2.getLsbD u = carryOf p g (u + 1) := by
  have summary := rounds_summarise p g d u inside
  rw [show u + 1 - 2 ^ d = 0 by omega] at summary
  simpa [carryOf] using summary.symm

/-- The generate word with the carry-in folded into its lowest bit. -/
def generate (x y : BitVec w) (cin : Bool) : BitVec w :=
  (x &&& y) ^^^ ((x ^^^ y) &&& BitVec.setWidth w (BitVec.ofBool cin))

theorem carryOf_generate (x y : BitVec w) (cin : Bool) :
    ∀ u, u < w → carryOf (x ^^^ y) (generate x y cin) (u + 1) = BitVec.carry (u + 1) x y cin
  | 0, inside => by
    rw [carry_succ, carry_zero]
    simp only [carryOf, generate, getLsbD_xor, getLsbD_and, getLsbD_setWidth,
      inside]
    cases x.getLsbD 0 <;> cases y.getLsbD 0 <;> cases cin <;> rfl
  | u + 1, inside => by
    rw [carry_succ, carryOf, carryOf_generate x y cin u (by omega)]
    simp only [generate, getLsbD_xor, getLsbD_and]
    cases x.getLsbD (u + 1) <;> cases y.getLsbD (u + 1) <;> cases BitVec.carry (u + 1) x y cin <;>
      simp

theorem generate_false (x y : BitVec w) : generate x y false = x &&& y := by
  apply eq_of_getLsbD_eq
  intro i _
  simp [generate]

theorem sum_carry_eq (cin : Bool) (spans : w ≤ 2 ^ d) :
    (rounds d (x ^^^ y, generate x y cin)).2 <<< 1 ^^^ (x ^^^ y) ^^^
      BitVec.setWidth w (BitVec.ofBool cin) =
      x + y + BitVec.setWidth w (BitVec.ofBool cin) := by
  apply eq_of_getLsbD_eq
  intro i inside
  rw [getLsbD_add_add_bool inside, getLsbD_xor, getLsbD_xor, getLsbD_shiftLeft,
    getLsbD_xor, getLsbD_setWidth]
  cases i with
  | zero => simp [inside]
  | succ u =>
    rw [Nat.add_sub_cancel, getLsbD_rounds spans (by omega), carryOf_generate x y cin u (by omega)]
    simp only [inside]
    cases x.getLsbD (u + 1) <;> cases y.getLsbD (u + 1) <;> simp

theorem sum_eq (spans : w ≤ 2 ^ d) :
    (rounds d (x ^^^ y, x &&& y)).2 <<< 1 ^^^ (x ^^^ y) = x + y := by
  have carried := sum_carry_eq (x := x) (y := y) false spans
  simpa [generate_false] using carried

theorem carryOut_eq (cin : Bool) (spans : w ≤ 2 ^ d) (pos : 0 < w) :
    (rounds d (x ^^^ y, generate x y cin)).2.getLsbD (w - 1) = BitVec.carry w x y cin := by
  rw [getLsbD_rounds spans (by omega), carryOf_generate x y cin _ (by omega),
    show w - 1 + 1 = w by omega]

/-- The carry out of `x + ~y + 1` decides the unsigned comparison. -/
theorem carryOut_not (spans : w ≤ 2 ^ d) (pos : 0 < w) :
    (rounds d (x ^^^ ~~~y, generate x (~~~y) true)).2.getLsbD (w - 1) = !(x.ult y) := by
  rw [carryOut_eq true spans pos, ult_eq_not_carry, Bool.not_not]

/-- The carry out of `x + (2 ^ w - y)` decides the unsigned comparison unless `y` is zero. -/
theorem carry_neg (nonzero : y ≠ 0) : BitVec.carry w x (~~~y + 1#w) false = !(x.ult y) := by
  have y_pos : 0 < y.toNat :=
    Nat.pos_of_ne_zero fun zero => nonzero (eq_of_toNat_eq (by simpa using zero))
  have negated : (-y).toNat = 2 ^ w - y.toNat := by
    rw [toNat_neg, Nat.mod_eq_of_lt (by omega)]
  rw [← neg_eq_not_add]
  simp only [BitVec.carry, BitVec.ult, negated, Nat.mod_eq_of_lt x.isLt, Bool.toNat_false,
    Nat.mod_eq_of_lt (show 2 ^ w - y.toNat < 2 ^ w by omega)]
  rw [← decide_not, decide_eq_decide]
  omega

theorem carry_zero_right (x : BitVec w) : BitVec.carry w x 0#w false = false := by
  simp only [BitVec.carry, Nat.mod_eq_of_lt x.isLt, decide_eq_false_iff_not]
  exact Nat.not_le.mpr x.isLt

def lowMask (w n : Nat) : BitVec w := 1#w <<< n - 1#w

theorem toNat_lowMask (small : n < w) : (lowMask w n).toNat = 2 ^ n - 1 := by
  have one : (1#w).toNat = 1 := by simp; omega
  have power : (1#w <<< n).toNat = 2 ^ n := by
    rw [toNat_shiftLeft, one, Nat.one_shiftLeft,
      Nat.mod_eq_of_lt (Nat.pow_lt_pow_right (by decide) small)]
  have pos := Nat.two_pow_pos n
  rw [lowMask, toNat_sub_of_le (by rw [le_def, one, power]; exact pos), one, power]

theorem getLsbD_lowMask {i : Nat} (small : n < w) : (lowMask w n).getLsbD i = decide (i < n) := by
  rw [BitVec.getLsbD, toNat_lowMask small, Nat.testBit_two_pow_sub_one]

theorem toNat_and_lowMask (v : BitVec w) (small : n < w) :
    (v &&& lowMask w n).toNat = v.toNat % 2 ^ n := by
  simp [toNat_lowMask small]

/-- Halve the word until one bit is left, AND-ing the halves. -/
def andTree : Nat → BitVec w → BitVec w
  | 0, x => x
  | d + 1, x =>
    andTree d ((x &&& lowMask w (2 ^ d)) &&& ((x >>> 2 ^ d) &&& lowMask w (2 ^ d)))

theorem andTree_low_bit (d : Nat) (spans : w = 2 ^ d) :
    (andTree d x).getLsbD 0 = true ↔ ∀ i < w, x.getLsbD i = true := by
  suffices below : ∀ d, 2 ^ d ≤ w → ∀ x : BitVec w,
      (andTree d x).getLsbD 0 = true ↔ ∀ i < 2 ^ d, x.getLsbD i = true by
    rw [below d (by omega) x, ← spans]
  intro d
  induction d with
  | zero => simp [andTree]
  | succ d ih =>
    intro fits x
    rw [andTree, ih (by omega)]
    have small : 2 ^ d < w := by have := Nat.two_pow_pos d; omega
    simp only [getLsbD_and, getLsbD_lowMask small, getLsbD_ushiftRight, Bool.and_eq_true,
      decide_eq_true_eq]
    constructor
    · intro halves i inside
      by_cases low : i < 2 ^ d
      · exact (halves i low).1.1
      · have high := (halves (i - 2 ^ d) (by omega)).2.1
        rwa [show 2 ^ d + (i - 2 ^ d) = i by omega] at high
    · intro all i low
      exact ⟨⟨all i (by omega), low⟩, all (2 ^ d + i) (by omega), low⟩

/-- The AND tree of the complement tests for zero. -/
theorem andTree_not (spans : w = 2 ^ d) :
    (andTree d (~~~x)).getLsbD 0 = decide (x = 0) := by
  rw [Bool.eq_iff_iff, andTree_low_bit d spans, decide_eq_true_iff]
  constructor
  · intro ones
    apply eq_of_getLsbD_eq
    intro i inside
    have one := ones i inside
    simpa [inside] using one
  · rintro rfl i inside
    simp [inside]

end ParallelPrefix
