import Mathlib.LinearAlgebra.Matrix.Block
import ProviaVM.Lib.Numerals

/-!
Gaussian elimination without pivoting on an augmented matrix of `size` rows and `size + 1` columns.
A matrix is a function of row and column; only the entries inside that range are read or written.
-/
namespace GaussianElimination
open Finset List

abbrev Mat (F : Type) := Nat → Nat → F

variable {F : Type} [Field F]

section Algorithm

variable [DecidableEq F]

/-- Row `j + 1` minus the multiple of row `i` that clears column `i`, from column `i` on. -/
def echelon (size : Nat) (M : Mat F) (i j : Nat) : Mat F :=
  if M i i = 0 then M
  else
    let factor := M (j + 1) i / M i i
    fun r k => if r = j + 1 ∧ i ≤ k ∧ k < size + 1 then M r k - factor * M i k else M r k

/-- Row `j - 1` minus the multiple of row `i` that clears column `i`, over all columns. -/
def eliminateRow (size : Nat) (i : Nat) (M : Mat F) (j : Nat) : Mat F :=
  let factor := M (j - 1) i / M i i
  fun r k => if r = j - 1 ∧ k < size + 1 then M r k - factor * M i k else M r k

def eliminate (size : Nat) (M : Mat F) (i : Nat) : Mat F :=
  if M i i = 0 then M else (List.range' 1 i).reverse.foldl (eliminateRow size i) M

def echelonColumn (size : Nat) (M : Mat F) (i : Nat) : Mat F :=
  (List.range' i (size - 1 - i)).foldl (fun M j => echelon size M i j) M

/-- The division by a zero diagonal entry is a panic. -/
def gaussianElimination (size : Nat) (M : Mat F) : Option (List F) :=
  let upper := (List.range (size - 1)).foldl (echelonColumn size) M
  let diagonal := (List.range' 1 (size - 1)).reverse.foldl (eliminate size) upper
  if (List.range size).all fun i => diagonal i i ≠ 0 then
    some ((List.range size).map fun i => diagonal i size / diagonal i i)
  else none

end Algorithm

/-! ## Row operations keep solutions and leading minors -/

def Solves (size : Nat) (M : Mat F) (a : Nat → F) : Prop :=
  ∀ r < size, ∑ k ∈ Finset.range size, M r k * a k = M r size

def leading (M : Mat F) (s : Nat) : Matrix (Fin s) (Fin s) F := fun r k => M r k

/-- Row `r` minus `c` times row `i`, over the columns of the augmented matrix. -/
def subRow (size : Nat) (M : Mat F) (r i : Nat) (c : F) : Mat F :=
  fun r' k => if r' = r ∧ k < size + 1 then M r' k - c * M i k else M r' k

theorem subRow_other {size : Nat} {M : Mat F} {r i : Nat} {c : F} {r' : Nat} (other : r' ≠ r)
    (k : Nat) :
    subRow size M r i c r' k = M r' k := by
  simp [subRow, other]

theorem subRow_self {size : Nat} {M : Mat F} {r i : Nat} {c : F} {k : Nat} (inside : k < size + 1) :
    subRow size M r i c r k = M r k - c * M i k := by
  simp [subRow, inside]

theorem Solves.subRow {size : Nat} {M : Mat F} {a : Nat → F} (h : Solves size M a) {i : Nat}
    (inside : i < size) (r : Nat) (c : F) : Solves size (subRow size M r i c) a := by
  intro r' hr
  by_cases same : r' = r
  · subst same
    have entries : ∀ k ∈ Finset.range size,
        GaussianElimination.subRow size M r' i c r' k * a k = M r' k * a k - c * (M i k * a k) :=
          fun k hk => by
      rw [subRow_self (Nat.lt_succ_of_lt (Finset.mem_range.mp hk)), sub_mul, mul_assoc]
    rw [sum_congr rfl entries, sum_sub_distrib, ← mul_sum, h r' hr, h i inside,
      subRow_self (Nat.lt_succ_self size)]
  · simp only [subRow_other same]
    exact h r' hr

theorem leading_subRow_det {size : Nat} {M : Mat F} {r i : Nat} (below : i < r) (c : F) {s : Nat}
    (inside : s ≤ size) :
    (leading (subRow size M r i c) s).det = (leading M s).det := by
  by_cases hr : r < s
  · have hi : i < s := below.trans hr
    have row : leading (subRow size M r i c) s =
        (leading M s).updateRow ⟨r, hr⟩ (leading M s ⟨r, hr⟩ + (-c) • leading M s ⟨i, hi⟩) := by
      ext r' k
      by_cases same : r' = ⟨r, hr⟩
      · subst same
        have hk : (k : Nat) < size + 1 := by omega
        simp [leading, subRow, hk, sub_eq_add_neg]
      · have other : (r' : Nat) ≠ r := fun e => same (Fin.ext e)
        simp [leading, subRow, other, Matrix.updateRow_ne same]
    rw [row, Matrix.det_updateRow_add_smul_self _ (by simpa [Fin.ext_iff] using below.ne')]
  · have same : leading (subRow size M r i c) s = leading M s := by
      ext r' k
      exact subRow_other (by omega) _
    rw [same]

/-! ## Forward pass -/

/-- Columns before `i` are zero below the diagonal, and column `i` is zero in the rows from `i + 1`
to `j`. -/
structure Cleared (size : Nat) (M : Mat F) (i j : Nat) : Prop where
  before : ∀ r k, k < i → k < r → r < size → M r k = 0
  column : ∀ r, i < r → r ≤ j → M r i = 0

/-- What the forward pass keeps: the solution, and that no leading minor vanishes. -/
structure Regular (size : Nat) (M : Mat F) (a : Nat → F) : Prop where
  solves : Solves size M a
  minors : ∀ s ≤ size, (leading M s).det ≠ 0

variable {size : Nat} {M : Mat F} {a : Nat → F} {i j : Nat}

/-- The leading block up to row `i` is upper triangular, so its determinant is the product of its
diagonal. -/
theorem Regular.pivot (regular : Regular size M a) (cleared : Cleared size M i j)
    (inside : i < size) : M i i ≠ 0 := by
  have triangular : (leading M (i + 1)).BlockTriangular id := fun r k below =>
    cleared.before r k (by have : (k : Nat) < r := below; omega) below (by omega)
  have det := regular.minors (i + 1) inside
  rw [Matrix.det_of_isUpperTriangular triangular, prod_ne_zero_iff] at det
  exact det ⟨i, Nat.lt_succ_self i⟩ (mem_univ _)

variable [DecidableEq F]

/-- The columns `echelon` skips are already zero in the pivot row, so it is a whole row
operation. -/
theorem echelon_eq_subRow (cleared : Cleared size M i j) (pivot : M i i ≠ 0) (inside : i < size) :
    echelon size M i j = subRow size M (j + 1) i (M (j + 1) i / M i i) := by
  funext r k
  simp only [echelon, if_neg pivot, subRow]
  by_cases hk : i ≤ k
  · simp [hk]
  · have zero : M i k = 0 := cleared.before i k (by omega) (by omega) inside
    simp [zero]

theorem echelon_step (regular : Regular size M a) (cleared : Cleared size M i j) (above : i ≤ j)
    (inside : j + 1 < size) :
    Regular size (echelon size M i j) a ∧ Cleared size (echelon size M i j) i (j + 1) := by
  have hi : i < size := by omega
  have pivot := regular.pivot cleared hi
  rw [echelon_eq_subRow cleared pivot hi]
  refine ⟨⟨regular.solves.subRow hi _ _, fun s hs => ?_⟩,
    ⟨fun r k hk hr hs => ?_, fun r hr hj => ?_⟩⟩
  · rw [leading_subRow_det (by omega) _ hs]
    exact regular.minors s hs
  · by_cases same : r = j + 1
    · subst same
      rw [subRow_self (by omega), cleared.before (j + 1) k hk hr hs, cleared.before i k hk hk hi,
        mul_zero, sub_zero]
    · rw [subRow_other same, cleared.before r k hk hr hs]
  · by_cases same : r = j + 1
    · subst same
      rw [subRow_self (by omega), div_mul_cancel₀ _ pivot, sub_self]
    · rw [subRow_other same, cleared.column r hr (by omega)]

theorem echelonColumn_step (regular : Regular size M a) (cleared : Cleared size M i i)
    (inside : i < size - 1) :
    Regular size (echelonColumn size M i) a ∧
      Cleared size (echelonColumn size M i) (i + 1) (i + 1) := by
  -- the rows below the pivot are cleared one after another
  have rows : ∀ n ≤ size - 1 - i,
      Regular size ((List.range' i n).foldl (fun M j => echelon size M i j) M) a ∧
        Cleared size ((List.range' i n).foldl (fun M j => echelon size M i j) M) i (i + n) := by
    intro n
    induction n with
    | zero => exact fun _ => ⟨regular, cleared⟩
    | succ n ih =>
      intro hn
      obtain ⟨reg, clr⟩ := ih (by omega)
      rw [range'_concat, foldl_append, foldl_cons, one_mul]
      exact echelon_step reg clr (by omega) (by omega)
  obtain ⟨reg, clr⟩ := rows _ le_rfl
  refine ⟨reg, ⟨fun r k hk hr hs => ?_, fun r hr hj => absurd hr (by omega)⟩⟩
  rcases Nat.lt_succ_iff_lt_or_eq.mp hk with hk | rfl
  · exact clr.before r k hk hr hs
  · exact clr.column r hr (by omega)

theorem forward_pass (regular : Regular size M a) :
    Regular size ((List.range (size - 1)).foldl (echelonColumn size) M) a ∧
      Cleared size ((List.range (size - 1)).foldl (echelonColumn size) M) (size - 1)
        (size - 1) := by
  have columns : ∀ n ≤ size - 1, Regular size ((List.range n).foldl (echelonColumn size) M) a ∧
      Cleared size ((List.range n).foldl (echelonColumn size) M) n n := by
    intro n
    induction n with
    | zero => exact fun _ =>
        ⟨regular, ⟨fun _ _ hk => absurd hk (by omega), fun r hr hj => absurd hr (by omega)⟩⟩
    | succ n ih =>
      intro hn
      obtain ⟨reg, clr⟩ := ih (by omega)
      rw [range_succ, foldl_append, foldl_cons]
      exact echelonColumn_step reg clr (by omega)
  exact columns _ le_rfl

/-! ## Backward pass -/

/-- Upper triangular with a nonzero diagonal, and off the diagonal already zero in the columns after
`i` and, in column `i`, in the rows from `j` on. -/
structure Reduced (size : Nat) (M : Mat F) (a : Nat → F) (i j : Nat) : Prop where
  solves : Solves size M a
  below : ∀ r k, k < r → r < size → M r k = 0
  diagonal : ∀ r < size, M r r ≠ 0
  after : ∀ r k, r < k → i < k → k < size → M r k = 0
  column : ∀ r, j ≤ r → r < i → M r i = 0

omit [DecidableEq F] in
/-- Subtracting a multiple of row `i` clears column `i` in one more row and keeps the solution. -/
theorem eliminateRow_step (reduced : Reduced size M a i (j + 1)) (inside : i < size) (hj : j < i) :
    Reduced size (eliminateRow size i M (j + 1)) a i j := by
  have shape : eliminateRow size i M (j + 1) = subRow size M j i (M j i / M i i) := rfl
  rw [shape]
  have pivot := reduced.diagonal i inside
  -- off column `i` the pivot row is zero, so nothing else of row `j` changes
  have untouched : ∀ r k, k ≠ i → k < size → subRow size M j i (M j i / M i i) r k = M r k := by
    intro r k hk hs
    by_cases same : r = j
    · subst same
      have zero : M i k = 0 := by
        rcases Nat.lt_or_gt_of_ne hk with lt | gt
        · exact reduced.below i k lt inside
        · exact reduced.after i k gt gt hs
      rw [subRow_self (by omega), zero, mul_zero, sub_zero]
    · exact subRow_other same k
  refine ⟨reduced.solves.subRow inside _ _, fun r k hk hr => ?_, fun r hr => ?_,
    fun r k hr hi hs => ?_, fun r hjr hr => ?_⟩
  · by_cases hki : k = i
    · rw [subRow_other (by omega), reduced.below r k hk hr]
    · rw [untouched r k hki (by omega), reduced.below r k hk hr]
  · by_cases hri : r = i
    · rw [subRow_other (by omega)]
      exact reduced.diagonal r hr
    · rw [untouched r r hri hr]
      exact reduced.diagonal r hr
  · rw [untouched r k (by omega) hs, reduced.after r k hr hi hs]
  · by_cases same : r = j
    · subst same
      rw [subRow_self (by omega), div_mul_cancel₀ _ pivot, sub_self]
    · rw [subRow_other same, reduced.column r (by omega) hr]

theorem eliminate_step (reduced : Reduced size M a i i) (inside : i < size) :
    Reduced size (eliminate size M i) a i 0 := by
  rw [eliminate, if_neg (reduced.diagonal i inside)]
  have rows : ∀ n ≤ i, ∀ {M : Mat F}, Reduced size M a i n →
      Reduced size ((List.range' 1 n).reverse.foldl (eliminateRow size i) M) a i 0 := by
    intro n
    induction n with
    | zero => exact fun _ _ h => h
    | succ n ih =>
      intro hn M h
      rw [range'_concat, reverse_append, reverse_singleton, singleton_append, one_mul,
        Nat.add_comm 1 n]
      exact ih (by omega) (eliminateRow_step h inside (by omega))
  exact rows i le_rfl reduced

theorem backward_pass (reduced : Reduced size M a (size - 1) (size - 1)) :
    Reduced size ((List.range' 1 (size - 1)).reverse.foldl (eliminate size) M) a 0 0 := by
  have columns : ∀ n, n ≤ size - 1 → ∀ {M : Mat F}, Reduced size M a n n →
      Reduced size ((List.range' 1 n).reverse.foldl (eliminate size) M) a 0 0 := by
    intro n
    induction n with
    | zero => exact fun _ _ h => h
    | succ n ih =>
      intro hn M h
      rw [range'_concat, reverse_append, reverse_singleton, singleton_append, one_mul,
        Nat.add_comm 1 n]
      have step := eliminate_step h (by omega)
      refine ih (by omega) ⟨step.solves, step.below, step.diagonal, fun r k hr hk hs => ?_,
        fun r hr hn => by omega⟩
      rcases Nat.lt_or_ge (n + 1) k with after | last
      · exact step.after r k hr after hs
      · obtain rfl : k = n + 1 := by omega
        exact step.column r (Nat.zero_le r) hr
  exact columns _ le_rfl reduced

/-- A system all of whose leading minors are nonzero is solved, whatever its right-hand side. -/
theorem gaussianElimination_spec (regular : Regular size M a) :
    gaussianElimination size M = some ((List.range size).map a) := by
  obtain ⟨reg, clr⟩ := forward_pass regular
  have start : Reduced size ((List.range (size - 1)).foldl (echelonColumn size) M) a (size - 1)
      (size - 1) := by
    refine ⟨reg.solves, fun r k hk hr => clr.before r k (by omega) hk hr, fun r hr => ?_,
      fun r k hr hk hs => by omega, fun r hr hs => by omega⟩
    exact reg.pivot (j := r)
      ⟨fun r' k hk hr' hs => clr.before r' k (by omega) hr' hs, fun r' hr' hj => by omega⟩ hr
  have done := backward_pass start
  simp only [gaussianElimination]
  rw [if_pos (by simpa using done.diagonal)]
  congr 1
  refine map_congr_left fun r hr => ?_
  rw [List.mem_range] at hr
  have row := done.solves r hr
  -- the row has become `M r r * a r = M r size`
  rw [sum_eq_single_of_mem r (Finset.mem_range.mpr hr) fun k hk other => ?_] at row
  · rw [← row, mul_div_cancel_left₀ _ (done.diagonal r hr)]
  · have hk := Finset.mem_range.mp hk
    rcases Nat.lt_or_gt_of_ne other with lt | gt
    · rw [done.below r k lt hr, zero_mul]
    · rw [done.after r k gt (by omega) hk, zero_mul]

end GaussianElimination
