import ProviaVM.Sumcheck.Batched

/-!
One round of the coordinator as the verifier sees it: the trimmed round polynomial, its compressed
form in the proof, and what `eval_from_hint` and `decompress` make of that form with the running
claim as hint.
-/
namespace ProviaVM.Sumcheck
open Poly List

variable {F : Type} [Field F]

theorem foldl_sub (a : F) (l : List F) : l.foldl (· - ·) a = a - l.sum := by
  induction l generalizing a with
  | nil => simp
  | cons c l ih =>
    rw [foldl_cons, ih, sum_cons, sub_sub]

/-- The power of `eval_from_hint` is one behind the one of `evaluate`. -/
theorem hint_loop (x sum point : F) (l : List F) :
    (l.foldl (fun (sum, point) c => (sum + c * (point * x), point * x)) (sum, point)).1 =
      (l.foldl (fun (eval, power) c => (eval + power * c, power * x)) (sum, point * x)).1 := by
  induction l generalizing sum point with
  | nil => rfl
  | cons c l ih =>
    rw [foldl_cons, foldl_cons, ih, mul_comm c]

/-- With the sum of the values at 0 and 1 as hint, the linear coefficient is the one that was left
out. -/
theorem evalFromHint_eq {hint c d : F} {rest : List F} (boundary : hint = c + c + d + rest.sum)
    (x : F) :
    evalFromHint hint (c :: rest) x = some (evaluate (c :: d :: rest) x) ∧
      decompress hint (c :: rest) = some (c :: d :: rest) := by
  have linear : rest.foldl (· - ·) (hint - c - c) = d := by
    rw [foldl_sub, boundary]
    ring
  constructor
  · simp only [evalFromHint, linear, hint_loop]
    rfl
  · rw [decompress, linear]

theorem foldl_evaluate_zero (a : F) (l : List F) :
    (l.foldl (fun (eval, power) c => (eval + power * c, power * 0)) (a, 0)).1 = a := by
  induction l with
  | nil => rfl
  | cons c l ih => simpa using ih

theorem foldl_evaluate_one (a : F) (l : List F) :
    (l.foldl (fun (eval, power) c => (eval + power * c, power * 1)) (a, 1)).1 = a + l.sum := by
  induction l generalizing a with
  | nil => simp
  | cons c l ih =>
    simp only [foldl_cons, mul_one, one_mul, sum_cons, ← add_assoc] at ih ⊢
    exact ih (a + c)

/-- The values at 0 and 1, from the coefficients. -/
theorem evaluate_boundary (c : F) (rest : List F) :
    evaluate (c :: rest) 0 + evaluate (c :: rest) 1 = c + c + rest.sum := by
  rw [evaluate, evaluate, foldl_evaluate_zero, foldl_evaluate_one, add_assoc]

/-- A compressed polynomial is read back exactly with the sum of its values at 0 and 1 as hint; and
with any hint the verifier's evaluation of the compressed form is that of the polynomial read
back. -/
theorem compressed_round (hint : F) :
    (∀ c d rest, (compress (c :: d :: rest)).bind (decompress hint) = some (c :: d :: rest) ↔
        hint = evaluate (c :: d :: rest) 0 + evaluate (c :: d :: rest) 1) ∧
      ∀ compressed x,
        evalFromHint hint compressed x = (decompress hint compressed).map (evaluate · x) := by
  have reads := fun (c : F) (rest : List F) =>
    evalFromHint_eq (show hint = c + c + (hint - c - c - rest.sum) + rest.sum by ring)
  constructor
  · intro c d rest
    rw [evaluate_boundary, sum_cons, compress, Option.bind_some, (reads c rest 0).2]
    simp only [Option.some.injEq, cons.injEq, true_and, and_true]
    constructor <;> intro same <;> linear_combination same
  · intro compressed x
    cases compressed with
    | nil => rfl
    | cons c rest => rw [(reads c rest x).1, (reads c rest x).2, Option.map_some]

theorem coeffs_two_add (h : Polynomial F) (n : Nat) :
    coeffs h (n + 2) = h.coeff 0 :: h.coeff 1 :: (List.range n).map fun i => h.coeff (i + 2) := by
  simp [coeffs, range_succ_eq_map]

theorem boundary_coeffs {h : Polynomial F} {n : Nat} (degree : h.natDegree = n + 1) :
    h.eval 0 + h.eval 1 = h.coeff 0 + h.coeff 0 + h.coeff 1 +
      ((List.range n).map fun i => h.coeff (i + 2)).sum := by
  have one : h.eval 1 = ∑ i ∈ Finset.range (n + 2), h.coeff i := by
    rw [Polynomial.eval_eq_sum_range' (show h.natDegree < n + 2 by omega)]
    simp
  have rest : ((List.range n).map fun i => h.coeff (i + 2)).sum = ∑ i ∈ Finset.range n,
    h.coeff (i + 1 + 1) := rfl
  rw [one, ← Polynomial.coeff_zero_eq_eval_zero, Finset.sum_range_succ', Finset.sum_range_succ',
    rest]
  ring

variable [DecidableEq F]

/-- The round goes into the proof, and both readings of its compressed form give the coordinator's
next running claim. -/
def RoundWritten (claim : F) (evals : List F) : Prop :=
  ∃ poly compressed full, roundPoly claim evals = some poly ∧ compress poly = some compressed ∧
    decompress claim compressed = some full ∧
    ∀ r, evalFromHint claim compressed r = some (evaluate poly r) ∧
      evaluate full r = evaluate poly r

/-- The evaluations at 0, 2, 3, ... of the constant polynomial `c` with its running claim. -/
def ConstantRound (claim : F) (evals : List F) : Prop :=
  ∃ c, claim = c + c ∧ evals = List.replicate evals.length c

/-- The round polynomial has the received evaluations, and its values at 0 and 1 sum to the running
claim. -/
theorem roundPoly_eq (claim : F) {evals : List F} (one : 1 ≤ evals.length)
    (nodes : Nodes F (evals.length + 1)) :
    ∃ h : Polynomial F, roundPoly claim evals = some (coeffs h (h.natDegree + 1)) ∧
      h.eval 0 + h.eval 1 = claim ∧
      (h.natDegree = 0 ↔ ConstantRound claim evals) := by
  obtain ⟨e, rest, rfl⟩ := exists_cons_of_length_pos one
  obtain ⟨h, degree, same⟩ :=
    exists_values (show 0 < (e :: (claim - e) :: rest).length by simp) nodes
  have at_ : ∀ i < rest.length + 2, (e :: (claim - e) :: rest).getD i 0 = h.eval (i : F) :=
    fun i inside => by
    rw [same]
    exact values_getD inside
  have zero : e = h.eval 0 := by simpa using at_ 0 (by omega)
  have next : claim - e = h.eval 1 := by simpa using at_ 1 (by omega)
  refine ⟨h, ?_, by simp [← zero, ← next], ?_⟩
  · rw [roundPoly, same, fromEvals_values (by simp) degree nodes, Option.map_some,
      trim_coeffs degree]
  constructor
  · intro const
    have flat : ∀ x, h.eval x = h.coeff 0 := fun x => by
      rw [Polynomial.eq_C_of_natDegree_eq_zero const]
      simp
    refine ⟨h.coeff 0, by rw [sub_eq_iff_eq_add.mp next, zero, flat, flat], ?_⟩
    refine eq_replicate_iff.mpr ⟨rfl, fun v member => ?_⟩
    rcases mem_cons.mp member with rfl | later
    · rw [zero, flat]
    · obtain ⟨i, inside, rfl⟩ := getElem_of_mem later
      have value := at_ (i + 2) (by omega)
      rw [flat] at value
      simpa [getD_eq_getElem?_getD, inside] using value
  · rintro ⟨c, rfl, all⟩
    obtain ⟨rfl, tail⟩ : e = c ∧ rest = List.replicate rest.length c := by
      simpa [replicate_succ] using all
    have equal : h = .C e := values_inj nodes degree (by simp) fun i inside => by
      rw [← at_ i inside, Polynomial.eval_C]
      match i with
      | 0 => rfl
      | 1 => simp
      | i + 2 =>
        have below : i < rest.length := by simpa using inside
        rw [getD_cons_succ, getD_cons_succ, tail, getD_replicate _ below]
    rw [equal, Polynomial.natDegree_C]

/-- A round can be written and read back exactly when its evaluations are not those of a
constant. -/
theorem round_written_iff (claim : F) {evals : List F} (one : 1 ≤ evals.length)
    (nodes : Nodes F (evals.length + 1)) :
    RoundWritten claim evals ↔ ¬ ConstantRound claim evals := by
  obtain ⟨h, poly, boundary, constant⟩ := roundPoly_eq claim one nodes
  rw [← constant]
  constructor
  · rintro ⟨_, compressed, _, poly', pressed, -⟩ const
    cases poly.symm.trans poly'
    rw [const] at pressed
    cases pressed
  · intro notConst
    obtain ⟨n, degree⟩ := Nat.exists_eq_succ_of_ne_zero notConst
    rw [degree, coeffs_two_add] at poly
    have readings := fun r => evalFromHint_eq (boundary.symm.trans (boundary_coeffs degree)) r
    exact ⟨_, _, _, poly, rfl, (readings 0).2, fun r => ⟨(readings r).1, rfl⟩⟩

/-- The line `X` of degree 1: value 0 at 0, running claim 1. -/
theorem round_written_iff_line : RoundWritten (1 : ℚ) [0] :=
  (round_written_iff 1 (by decide) (nodes_rat 2)).mpr (by
    rintro ⟨c, claim, all⟩
    obtain rfl : 0 = c := by simpa using all
    simp at claim)

/-- The zero polynomial, with running claim 0. -/
theorem zero_round_not_written : ¬ RoundWritten (0 : ℚ) [0] := by
  rintro ⟨poly, compressed, full, round, pressed, -⟩
  obtain ⟨h, poly', -, constant⟩ :=
    roundPoly_eq 0 (show 1 ≤ [(0 : ℚ)].length by decide) (nodes_rat 2)
  cases poly'.symm.trans round
  rw [constant.mpr ⟨0, by simp, rfl⟩] at pressed
  cases pressed

end ProviaVM.Sumcheck
