import Mathlib.Algebra.BigOperators.Ring.Finset
import Mathlib.Tactic.Abel
import ProviaVM.Lib.Multilinear
import ProviaVM.Lib.Scatter

/-! # Sums over the cube with some coordinates bound

`bound m c r` is the sequence that is left of `c` when the first coordinates are bound to `r` and
`m` coordinates remain; the sequence may have its values in a module. `sumAt n c e r` is the sum
over the remaining corners of the product of two sequences: the claim of a sumcheck with the
challenges `r`. As a function of the last challenge it is the round polynomial. -/
namespace Multilinear
open Finset

variable {R : Type*} [CommRing R]

section Extend

variable {M : Type*} [AddCommGroup M] [Module R M]

/-- `mle` for a sequence in a module. -/
def extend : List R → (Nat → M) → M
  | [], c => c 0
  | x :: r, c => (1 - x) • extend r c + x • extend r fun a => c (2 ^ r.length + a)

theorem extend_eq_mle (r : List R) (c : Nat → R) : extend r c = mle r c := by
  induction r generalizing c with
  | nil => rfl
  | cons x r ih => simp [extend, mle, ih]

theorem extend_add (r : List R) (c d : Nat → M) :
    extend r (fun a => c a + d a) = extend r c + extend r d := by
  induction r generalizing c d with
  | nil => rfl
  | cons x r ih =>
    simp only [extend, ih, smul_add]
    abel

theorem extend_smul (r : List R) (s : R) (c : Nat → M) :
    extend r (fun a => s • c a) = s • extend r c := by
  induction r generalizing c with
  | nil => rfl
  | cons x r ih => simp only [extend, ih, smul_add, smul_comm s]

theorem extend_snoc (r : List R) (x : R) (c : Nat → M) :
    extend (r ++ [x]) c = extend r fun h => (1 - x) • c (2 * h) + x • c (2 * h + 1) := by
  induction r generalizing c with
  | nil => simp [extend]
  | cons y r ih =>
    have low : ∀ h, 2 ^ (r ++ [x]).length + 2 * h = 2 * (2 ^ r.length + h) := fun h => by
      rw [List.length_append, List.length_singleton]; ring
    have high : ∀ h, 2 ^ (r ++ [x]).length + (2 * h + 1) = 2 * (2 ^ r.length + h) + 1 := fun h => by
      rw [List.length_append, List.length_singleton]; ring
    rw [List.cons_append, extend, extend, ih, ih]
    simp only [low, high]

/-- Corner `a` of the remaining `m` coordinates. -/
def bound (m : Nat) (c : Nat → M) (r : List R) (a : Nat) : M := extend r fun h => c (h * 2 ^ m + a)

theorem bound_eq_mle (m : Nat) (c : Nat → R) (r : List R) (a : Nat) :
    bound m c r a = mle r fun h => c (h * 2 ^ m + a) :=
  extend_eq_mle r _

@[simp] theorem bound_nil (m : Nat) (c : Nat → M) (a : Nat) : bound m c ([] : List R) a = c a :=
  by simp [bound, extend]

/-- The next coordinate joins the two halves. -/
theorem bound_snoc (m : Nat) (c : Nat → M) (r : List R) (x : R) (a : Nat) :
    bound m c (r ++ [x]) a = (1 - x) • bound (m + 1) c r a + x • bound (m + 1) c r (2 ^ m + a) := by
  have low : ∀ h, 2 * h * 2 ^ m + a = h * 2 ^ (m + 1) + a := fun h => by ring
  have high : ∀ h, (2 * h + 1) * 2 ^ m + a = h * 2 ^ (m + 1) + (2 ^ m + a) := fun h => by ring
  rw [bound, extend_snoc]
  simp only [low, high, extend_add, extend_smul]
  rfl

end Extend

theorem mle_sum {ι : Type*} (r : List R) (S : Finset ι) (f : ι → Nat → R) :
    mle r (fun a => ∑ i ∈ S, f i a) = ∑ i ∈ S, mle r (f i) := by
  induction r generalizing f with
  | nil => rfl
  | cons x r ih => simp only [mle, ih, mul_sum, sum_add_distrib]

/-- The coordinates of two blocks may be bound in either order. -/
theorem mle_comm (u s : List R) (f : Nat → Nat → R) :
    mle u (fun h => mle s (f h)) = mle s fun l => mle u fun h => f h l := by
  induction u generalizing f with
  | nil => rfl
  | cons x u ih => simp only [mle, ih, mle_add, mle_mul_left]

/-- Binding the first block leaves a sequence for the second. -/
theorem mle_append_bound (u s : List R) (c : Nat → R) :
    mle (u ++ s) c = mle s (bound s.length c u) := by
  rw [mle_append, mle_comm]
  exact mle_congr fun l _ => (bound_eq_mle ..).symm

/-- The sum over the remaining corners of the product of two sequences. -/
def sumAt (n : Nat) (c e : Nat → R) (r : List R) : R :=
  ∑ a ∈ range (2 ^ (n - r.length)), bound (n - r.length) c r a * bound (n - r.length) e r a

/-- One more challenge joins the halves of both sequences. -/
theorem sumAt_snoc {n m : Nat} (c e : Nat → R) {r : List R} (left : n = r.length + (m + 1))
    (x : R) :
    sumAt n c e (r ++ [x]) = ∑ a ∈ range (2 ^ m),
      bound m c (r ++ [x]) a * bound m e (r ++ [x]) a := by
  have rest : n - (r ++ [x]).length = m := by rw [List.length_append, List.length_singleton]; omega
  rw [sumAt, rest]

/-- A claim is the sum of the round polynomial at 0 and 1. -/
theorem sumAt_zero_add_one {n : Nat} (c e : Nat → R) {r : List R} (short : r.length < n) :
    sumAt n c e (r ++ [0]) + sumAt n c e (r ++ [1]) = sumAt n c e r := by
  obtain ⟨m, left⟩ : ∃ m, n = r.length + (m + 1) := ⟨n - r.length - 1, by omega⟩
  have rest : n - r.length = m + 1 := by omega
  rw [sumAt_snoc c e left, sumAt_snoc c e left, sumAt, rest]
  simp only [bound_snoc, sub_zero, sub_self, zero_smul, one_smul, zero_add, add_zero]
  rw [← sum_range_add, pow_succ, Nat.mul_two]

section Blocks

variable (κ τ : Nat) (c eA eC : Nat → R)

/-- While the high coordinates are bound, the low ones are summed out. -/
theorem sumAt_high {r : List R} (short : r.length ≤ κ) :
    sumAt (κ + τ) c (fun i => eA (i / 2 ^ τ) * eC (i % 2 ^ τ)) r =
      sumAt κ (fun k => ∑ j ∈ range (2 ^ τ), c (k * 2 ^ τ + j) * eC j) eA r := by
  obtain ⟨m, rfl⟩ : ∃ m, κ = r.length + m := ⟨κ - r.length, by omega⟩
  have rest : r.length + m + τ - r.length = m + τ := by omega
  rw [sumAt, sumAt, rest, Nat.add_sub_cancel_left, pow_add, Scatter.sum_blocks]
  refine sum_congr rfl fun b _ => ?_
  have place : ∀ h j, h * 2 ^ (m + τ) + (b * 2 ^ τ + j) = (h * 2 ^ m + b) * 2 ^ τ + j :=
    fun h j => by
    ring
  have weights :
    ∀ j < 2 ^ τ, bound (m + τ) (fun i => eA (i / 2 ^ τ) * eC (i % 2 ^ τ)) r (b * 2 ^ τ + j) =
      bound m eA r b * eC j := by
    intro j inside
    rw [bound_eq_mle, bound_eq_mle, ← mle_mul_right]
    refine mle_congr fun h _ => ?_
    rw [place, Nat.mul_add_mod_self_right, Nat.mod_eq_of_lt inside, Nat.mul_comm (h * 2 ^ m + b),
      Nat.mul_add_div (Nat.two_pow_pos τ), Nat.div_eq_of_lt inside, Nat.add_zero]
  rw [show bound m (fun k => ∑ j ∈ range (2 ^ τ), c (k * 2 ^ τ + j) * eC j) r b =
    ∑ j ∈ range (2 ^ τ), bound (m + τ) c r (b * 2 ^ τ + j) * eC j by
      rw [bound_eq_mle, mle_sum]
      refine sum_congr rfl fun j _ => ?_
      rw [mle_mul_right, bound_eq_mle]
      simp only [place], sum_mul]
  refine sum_congr rfl fun j inside => ?_
  rw [weights j (mem_range.mp inside)]
  ring

/-- Once the high coordinates are bound, the sum is about the low ones. -/
theorem sumAt_low {u s : List R} (full : u.length = κ) (short : s.length ≤ τ) :
    sumAt (κ + τ) c (fun i => eA (i / 2 ^ τ) * eC (i % 2 ^ τ)) (u ++ s) =
      mle u eA * sumAt τ (bound τ c u) eC s := by
  obtain ⟨m, rfl⟩ : ∃ m, τ = s.length + m := ⟨τ - s.length, by omega⟩
  have rest : κ + (s.length + m) - (u ++ s).length = m := by rw [List.length_append]; omega
  rw [sumAt, sumAt, rest, Nat.add_sub_cancel_left, mul_sum]
  refine sum_congr rfl fun a inside => ?_
  have place : ∀ k l, (k * 2 ^ s.length + l) * 2 ^ m + a =
    k * 2 ^ (s.length + m) + (l * 2 ^ m + a) := fun k l => by
    ring
  have values : bound m c (u ++ s) a = bound m (bound (s.length + m) c u) s a := by
    rw [bound_eq_mle, mle_append, mle_comm]
    simp only [bound_eq_mle, place]
  have weights :
    bound m (fun i => eA (i / 2 ^ (s.length + m)) * eC (i % 2 ^ (s.length + m))) (u ++ s) a =
      mle u eA * bound m eC s a := by
    rw [bound_eq_mle, mle_append, bound_eq_mle, ← mle_mul_right]
    refine mle_congr fun k _ => ?_
    rw [← mle_mul_left]
    refine mle_congr fun l below => ?_
    have small : l * 2 ^ m + a < 2 ^ (s.length + m) := by
      have := Nat.mul_le_mul_right (2 ^ m) (Nat.succ_le_of_lt below)
      rw [Nat.succ_mul, ← pow_add] at this
      have := mem_range.mp inside
      omega
    rw [place, Nat.mul_add_mod_self_right, Nat.mod_eq_of_lt small, Nat.mul_comm k,
      Nat.mul_add_div (Nat.two_pow_pos _), Nat.div_eq_of_lt small, Nat.add_zero]
  rw [values, weights]
  ring

end Blocks

end Multilinear
