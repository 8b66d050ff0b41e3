import Mathlib.LinearAlgebra.Lagrange
import ProviaVM.Lib.GaussianElimination

/-!
`UniPoly` as its vector of coefficients, constant term first: interpolation from the values at 0, 1,
..., evaluation, removal of trailing zeros, and the compressed form a sumcheck proof carries.
-/
namespace ProviaVM.Poly
open GaussianElimination List

variable {F : Type} [Field F] [DecidableEq F]
variable {n : Nat} {g : Polynomial F}

/-- Row `i` is `1, i, i^2, ...` followed by the `i`-th evaluation. -/
def vandermonde (evals : List F) : Mat F :=
  fun i k => if k < evals.length then (i : F) ^ k else evals.getD i 0

/-- `from_evals`. Each row starts with `1` and `x`, so a single point fails the length assertion of
`gaussian_elimination`; no point at all fails its first indexing. -/
def fromEvals (evals : List F) : Option (List F) :=
  if evals.length < 2 then none else gaussianElimination evals.length (vandermonde evals)

/-- The empty vector is an out-of-bounds access in the source; no polynomial built here is empty. -/
def evaluate : List F → F → F
  | [], _ => 0
  | c :: cs, r => (cs.foldl (fun (eval, power) c => (eval + power * c, power * r)) (c, r)).1

/-- Pops zeros from the front of the reversed coefficients while more than one is left. -/
def popZeros : List F → List F
  | c :: d :: rest => if c = 0 then popZeros (d :: rest) else c :: d :: rest
  | short => short

/-- `while coeffs.len() > 1 && coeffs.last() == Some(&F::zero()) { coeffs.pop(); }`. -/
def trim (coeffs : List F) : List F := (popZeros coeffs.reverse).reverse

/-- `compress` slices `coeffs[2..]`, which panics when there is no linear coefficient. -/
def compress : List F → Option (List F)
  | c :: _ :: rest => some (c :: rest)
  | _ => none

/-- `decompress`: the linear coefficient is the one that makes the values at 0 and 1 sum to the
hint. An empty polynomial is an out-of-bounds access. -/
def decompress (hint : F) : List F → Option (List F)
  | [] => none
  | c :: rest => some (c :: rest.foldl (· - ·) (hint - c - c) :: rest)

def evalFromHint (hint : F) : List F → F → Option F
  | [], _ => none
  | c :: rest, x =>
    let linear := rest.foldl (· - ·) (hint - c - c)
    some (rest.foldl (fun (sum, point) c => (sum + c * (point * x), point * x)) (c + x * linear,
      x)).1

/-- The numbers below `n` are distinct in `F`. -/
def Nodes (F : Type) [Field F] (n : Nat) : Prop := ∀ k, 0 < k → k < n → (k : F) ≠ 0

def values (g : Polynomial F) (n : Nat) : List F := (List.range n).map fun i : Nat => g.eval (i : F)

def coeffs (g : Polynomial F) (n : Nat) : List F := (List.range n).map g.coeff

section Algebra

omit [DecidableEq F]

theorem Nodes.mono {m : Nat} (h : Nodes F n) (le : m ≤ n) : Nodes F m :=
  fun k pos lt => h k pos (lt.trans_le le)

theorem nodes_rat (n : Nat) : Nodes ℚ n := fun _ pos _ => Nat.cast_ne_zero.mpr pos.ne'

theorem Nodes.injective (h : Nodes F n) : Function.Injective fun i : Fin n => ((i : Nat) : F) := by
  have lt : ∀ i j : Fin n, i < j → ((i : Nat) : F) ≠ ((j : Nat) : F) := fun i j below same => by
    have gap : (((j : Nat) - (i : Nat) : Nat) : F) = 0 := by
      rw [Nat.cast_sub (le_of_lt below), same, sub_self]
    exact h _ (Nat.sub_pos_of_lt below) (by omega) gap
  intro i j same
  rcases lt_trichotomy i j with below | eq | above
  · exact absurd same (lt i j below)
  · exact eq
  · exact absurd same.symm (lt j i above)

@[simp]
theorem values_length (g : Polynomial F) (n : Nat) : (values g n).length = n := by simp [values]

theorem values_getD {i : Nat} (lt : i < n) : (values g n).getD i 0 = g.eval (i : F) := by
  simp only [values, getD_eq_getElem?_getD, getElem?_map, getElem?_range lt, Option.map_some,
    Option.getD_some]

/-- The Vandermonde system of `g`'s values has `g`'s coefficients as solution, and its leading
blocks are Vandermonde matrices of distinct points. -/
theorem vandermonde_regular (degree : g.natDegree < n) (nodes : Nodes F n) :
    Regular n (vandermonde (values g n)) g.coeff where
  solves r hr := by
    have row : ∀ k ∈ Finset.range n, vandermonde (values g n) r k * g.coeff k =
      g.coeff k * (r : F) ^ k := fun k hk => by
      rw [vandermonde, if_pos (by simpa using hk), mul_comm]
    rw [Finset.sum_congr rfl row, ← Polynomial.eval_eq_sum_range' degree, vandermonde,
      if_neg (by simp), values_getD hr]
  minors s hs := by
    have block : leading (vandermonde (values g n)) s = Matrix.vandermonde fun i : Fin s =>
        ((i : Nat) : F) := by
      ext r k
      simp [leading, vandermonde, show (k : Nat) < n by omega]
    rw [block, Matrix.det_vandermonde_ne_zero_iff]
    exact (nodes.mono hs).injective

theorem evaluate_coeffs (degree : g.natDegree < n) (r : F) :
    evaluate (coeffs g n) r = g.eval r := by
  obtain ⟨m, rfl⟩ : ∃ m, n = m + 1 := ⟨n - 1, by omega⟩
  -- after `m` further coefficients the pair holds the partial sum and the next power
  have loop : ∀ m, ((List.range m).map fun i => g.coeff (i + 1)).foldl
      (fun (eval, power) c => (eval + power * c, power * r)) (g.coeff 0, r) =
        (∑ k ∈ Finset.range (m + 1), g.coeff k * r ^ k, r ^ (m + 1)) := by
    intro m
    induction m with
    | zero => simp
    | succ m ih =>
      rw [range_succ, map_append, foldl_append, ih]
      simp only [map_cons, map_nil, foldl_cons, foldl_nil]
      rw [Finset.sum_range_succ _ (m + 1), mul_comm (r ^ (m + 1)) (g.coeff (m + 1)),
        pow_succ r (m + 1)]
  have split : coeffs g (m + 1) = g.coeff 0 :: (List.range m).map fun i => g.coeff (i + 1) := by
    rw [coeffs, range_succ_eq_map, map_cons, map_map]
    rfl
  rw [split, evaluate, loop, Polynomial.eval_eq_sum_range' degree]

theorem values_inj {h : Polynomial F} (nodes : Nodes F n) (hg : g.natDegree < n)
    (hh : h.natDegree < n) (same : ∀ i < n, g.eval (i : F) = h.eval (i : F)) : g = h := by
  have lt : ∀ {p : Polynomial F}, p.natDegree < n →
      p.degree < ((Finset.univ : Finset (Fin n)).card : WithBot ℕ) :=
    fun small => by
      rw [Finset.card_univ, Fintype.card_fin]
      exact Polynomial.degree_le_natDegree.trans_lt (WithBot.coe_lt_coe.mpr small)
  exact Polynomial.eq_of_degrees_lt_of_eval_index_eq Finset.univ nodes.injective.injOn
    (lt hg) (lt hh)
    fun i _ => same i i.isLt

/-- Any vector is the vector of values of a polynomial of small enough degree. -/
theorem exists_values {evals : List F} (nonempty : 0 < evals.length)
    (nodes : Nodes F evals.length) :
    ∃ h : Polynomial F, h.natDegree < evals.length ∧ evals = values h evals.length := by
  let h := Lagrange.interpolate Finset.univ (fun i : Fin evals.length => ((i : Nat) : F)) evals.get
  have degree : h.degree < (evals.length : WithBot ℕ) := by
    have lt := Lagrange.degree_interpolate_lt (s := Finset.univ) evals.get nodes.injective.injOn
    rwa [Finset.card_univ, Fintype.card_fin] at lt
  refine ⟨h, ?_, ext_getElem (by simp) fun i hi _ => ?_⟩
  · by_cases zero : h = 0
    · rw [zero]
      exact nonempty
    · exact (Polynomial.natDegree_lt_iff_degree_lt zero).mpr degree
  · have node :=
      Lagrange.eval_interpolate_at_node (s := Finset.univ) evals.get nodes.injective.injOn
      (Finset.mem_univ (⟨i, hi⟩ : Fin evals.length))
    simp only [values, getElem_map, getElem_range]
    exact node.symm

end Algebra

/-- Interpolation recovers a polynomial from its values at the first `n` numbers. -/
theorem fromEvals_values (two : 2 ≤ n) (degree : g.natDegree < n) (nodes : Nodes F n) :
    fromEvals (values g n) = some (coeffs g n) := by
  rw [fromEvals, values_length, if_neg (by omega)]
  exact gaussianElimination_spec (vandermonde_regular degree nodes)

/-- Trimming leaves exactly the coefficients up to the degree; the zero polynomial keeps its one
zero. -/
theorem trim_coeffs (degree : g.natDegree < n) :
    trim (coeffs g n) = coeffs g (g.natDegree + 1) := by
  have snoc : ∀ m, (coeffs g (m + 1)).reverse = g.coeff m :: (coeffs g m).reverse := fun m => by
    simp [coeffs, range_succ]
  have pop : ∀ extra, popZeros (coeffs g (g.natDegree + 1 + extra)).reverse =
      (coeffs g (g.natDegree + 1)).reverse := by
    intro extra
    induction extra with
    | zero =>
      rcases Nat.eq_zero_or_pos g.natDegree with const | pos
      · rw [const]
        rfl
      · obtain ⟨d, hd⟩ : ∃ d, g.natDegree = d + 1 := ⟨g.natDegree - 1, by omega⟩
        have lead : g.coeff (d + 1) ≠ 0 := by
          rw [← hd, Polynomial.coeff_natDegree, Polynomial.leadingCoeff_ne_zero]
          rintro rfl
          simp at hd
        rw [hd, snoc (d + 1), snoc d, popZeros, if_neg lead]
    | succ extra ih =>
      have zero : g.coeff (g.natDegree + 1 + extra) = 0 :=
        Polynomial.coeff_eq_zero_of_natDegree_lt (by omega)
      have step := snoc (g.natDegree + extra)
      rw [show g.natDegree + extra + 1 = g.natDegree + 1 + extra by omega] at step
      rw [← Nat.add_assoc, snoc, step, popZeros, if_pos zero, ← step, ih]
  obtain ⟨extra, rfl⟩ := Nat.exists_eq_add_of_lt degree
  simp [trim, show g.natDegree + extra + 1 = g.natDegree + 1 + extra by omega, pop]

/-- A trimmed polynomial can be compressed exactly when it is not constant. -/
theorem compress_trim_isSome (degree : g.natDegree < n) :
    (compress (trim (coeffs g n))).isSome ↔ g.natDegree ≠ 0 := by
  rw [trim_coeffs degree]
  rcases Nat.eq_zero_or_pos g.natDegree with const | pos
  · simp [const, coeffs, compress]
  · obtain ⟨d, hd⟩ : ∃ d, g.natDegree = d + 1 := ⟨g.natDegree - 1, by omega⟩
    simp [hd, coeffs, compress, range_succ_eq_map]

end ProviaVM.Poly
