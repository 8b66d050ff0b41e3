import Mathlib.Algebra.BigOperators.Group.Finset.Basic
import Mathlib.Data.List.GetD
import ProviaVM.Lib.Multilinear

/-! # The table of the equality polynomial

`EqPolynomial::evals` lists the values of the equality polynomial of a point at the
corners of the cube. Its product with a vector is the multilinear evaluation. -/
namespace ProviaVM.Poly
open Multilinear List

variable {F : Type} [Field F]

/-- `EqPolynomial::evals`: each challenge doubles the table, the first one decides the most
significant bit. -/
def eqEvals (r : List F) : List F :=
  r.foldl (fun evals x => evals.flatMap fun s => [s - s * x, s * x]) [1]

def dot (x y : List F) : F := (List.zipWith (· * ·) x y).sum

theorem length_eqEvals (r : List F) : (eqEvals r).length = 2 ^ r.length := by
  have general : ∀ (r acc : List F),
      (r.foldl (fun evals x => evals.flatMap fun s => [s - s * x, s * x]) acc).length =
        acc.length * 2 ^ r.length := by
    intro r
    induction r with
    | nil => simp
    | cons x r ih =>
      intro acc
      rw [foldl_cons, ih]
      simp [pow_succ]
      ring
  simpa [eqEvals] using general r [1]

theorem eqEvals_cons (x : F) (r : List F) :
    eqEvals (x :: r) = (eqEvals r).map ((1 - x) * ·) ++ (eqEvals r).map (x * ·) := by
  have general :
    ∀ (r acc : List F), r.foldl (fun evals x => evals.flatMap fun s => [s - s * x, s * x]) acc =
      acc.flatMap fun s => (eqEvals r).map (s * ·) := by
    intro r
    induction r with
    | nil => intro acc; simp [eqEvals]
    | cons x r ih =>
      intro acc
      have start : eqEvals (x :: r) = [1 - x, x].flatMap fun s => (eqEvals r).map (s * ·) := by
        rw [← ih]
        simp [eqEvals]
      rw [foldl_cons, ih, start, flatMap_assoc]
      congr 1
      funext s
      simp only [flatMap_cons, flatMap_nil, append_nil, map_append, map_map]
      congr 1 <;> refine congrArg (List.map · _) (funext fun e => ?_) <;>
        simp only [Function.comp_apply] <;> ring
  have start := general r [1 - x, x]
  simpa [eqEvals] using start

theorem dot_append (values A B : List F) :
    dot values (A ++ B) = dot (values.take A.length) A + dot (values.drop A.length) B := by
  induction A generalizing values with
  | nil => simp [dot]
  | cons a A ih =>
    cases values with
    | nil => simp [dot]
    | cons v values =>
      have rest := ih values
      simp only [dot] at rest
      simp only [dot, cons_append, zipWith_cons_cons, sum_cons, length_cons, take_succ_cons,
        drop_succ_cons, rest]
      ring

theorem dot_map_mul (values A : List F) (s : F) :
    dot values (A.map (s * ·)) = s * dot values A := by
  induction A generalizing values with
  | nil => simp [dot]
  | cons a A ih =>
    cases values with
    | nil => simp [dot]
    | cons v values =>
      have rest := ih values
      simp only [dot] at rest
      simp only [dot, map_cons, zipWith_cons_cons, sum_cons, rest]
      ring

/-- `EqPolynomial::evals` gives the multilinear extension. -/
theorem dot_eqEvals (values r : List F) :
    dot values (eqEvals r) = mle r fun a => values.getD a 0 := by
  induction r generalizing values with
  | nil => cases values <;> simp [dot, eqEvals, mle]
  | cons x r ih =>
    have half : ((eqEvals r).map ((1 - x) * ·)).length = 2 ^ r.length := by simp [length_eqEvals]
    have low : mle r (fun a => (values.take (2 ^ r.length)).getD a 0) = mle r fun a =>
        values.getD a 0 :=
      mle_congr fun a inside => by simp [inside]
    have high : mle r (fun a => (values.drop (2 ^ r.length)).getD a 0) = mle r fun a =>
        values.getD (2 ^ r.length + a) 0 :=
      mle_congr fun a _ => by simp [getD_eq_getElem?_getD]
    rw [eqEvals_cons, dot_append, half, dot_map_mul, dot_map_mul, ih, ih, low, high, mle]

theorem sum_zipWith {α β M : Type} [AddCommMonoid M] (f : α → β → M) {l : List α} {l' : List β}
    {n : Nat} (left : l.length = n) (right : l'.length = n) (a : α) (b : β) :
    (List.zipWith f l l').sum = ∑ i ∈ Finset.range n, f (l.getD i a) (l'.getD i b) := by
  induction n generalizing l l' with
  | zero =>
    obtain rfl := length_eq_zero_iff.mp left
    simp
  | succ n ih =>
    cases l with
    | nil => simp at left
    | cons x l =>
      cases l' with
      | nil => simp at right
      | cons y l' =>
        rw [zipWith_cons_cons, sum_cons, ih (by simpa using left) (by simpa using right),
          Finset.sum_range_succ', add_comm]
        simp

/-- The multilinear extension as a sum over the corners. -/
theorem mle_eq_sum (r : List F) (c : Nat → F) :
    mle r c = ∑ i ∈ Finset.range (2 ^ r.length), c i * (eqEvals r).getD i 0 := by
  have values := dot_eqEvals ((List.range (2 ^ r.length)).map c) r
  rw [dot, sum_zipWith _ (by simp) (length_eqEvals r) 0 0] at values
  have at_ : ∀ i < 2 ^ r.length, ((List.range (2 ^ r.length)).map c).getD i 0 = c i := by
    intro i inside
    rw [getD_eq_getElem _ _ (by simpa using inside), getElem_map, getElem_range]
  rw [mle_congr at_] at values
  rw [← values]
  exact Finset.sum_congr rfl fun i inside => by rw [at_ i (Finset.mem_range.mp inside)]

end ProviaVM.Poly
