import Mathlib.Tactic.Ring
import Mathlib.Tactic.LinearCombination
import ProviaVM.Lib.Numerals

/-! # Multilinear extensions of sequences

`mle r c` is the value at the point `r` of the multilinear polynomial that takes the
values `c 0, c 1, …` on the corners of the cube. The first coordinate is the most
significant bit of an index. -/
namespace Multilinear

variable {R : Type*} [CommRing R]

/-- Value at `r` of the extension of the first `2 ^ r.length` values of `c`. -/
def mle : List R → (Nat → R) → R
  | [], c => c 0
  | x :: r, c => (1 - x) * mle r c + x * mle r fun a => c (2 ^ r.length + a)

theorem mle_congr {c d : Nat → R} :
    ∀ {r : List R}, (∀ a < 2 ^ r.length, c a = d a) → mle r c = mle r d
  | [], same => same 0 (by simp)
  | x :: r, same => by
    have half : 2 ^ (x :: r).length = 2 ^ r.length + 2 ^ r.length := by rw [List.length_cons]; ring
    have low : mle r c = mle r d := mle_congr fun a inside => same a (by omega)
    have high : mle r (fun a => c (2 ^ r.length + a)) = mle r fun a => d (2 ^ r.length + a) :=
      mle_congr fun a inside => same _ (by omega)
    rw [mle, mle, low, high]

theorem mle_add (r : List R) (c d : Nat → R) : mle r (fun a => c a + d a) = mle r c + mle r d := by
  induction r generalizing c d with
  | nil => rfl
  | cons x r ih =>
    simp only [mle, ih]
    ring

theorem mle_mul_left (r : List R) (s : R) (c : Nat → R) :
    mle r (fun a => s * c a) = s * mle r c := by
  induction r generalizing c with
  | nil => rfl
  | cons x r ih =>
    simp only [mle, ih]
    ring

theorem mle_mul_right (r : List R) (s : R) (c : Nat → R) :
    mle r (fun a => c a * s) = mle r c * s := by
  simp only [mul_comm _ s, mle_mul_left]

/-- The high coordinates choose a block, the low ones a place in it. -/
theorem mle_append (hi lo : List R) (c : Nat → R) :
    mle (hi ++ lo) c = mle hi fun h => mle lo fun l => c (h * 2 ^ lo.length + l) := by
  induction hi generalizing c with
  | nil => simp [mle]
  | cons x hi ih =>
    simp only [List.cons_append, mle, ih, List.length_append, pow_add, add_mul, add_assoc]

end Multilinear
