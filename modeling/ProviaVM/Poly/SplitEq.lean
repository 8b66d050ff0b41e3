import Mathlib.Algebra.BigOperators.GroupWithZero.Action
import ProviaVM.Lib.PartialSums
import ProviaVM.Poly.EqPolynomial

/-! # The equality polynomial split in two tables

`GruenSplitEqPolynomial` of `split_eq_poly.rs` for the order from high to low: the factor of
the bound coordinates is a scalar, the coordinate of the round stands apart, and the table of
the later ones is the product of an inner and an outer table. -/
namespace ProviaVM.Poly
open Multilinear Scatter List

variable {F : Type} [Field F]

/-! ## Tables of the last coordinates -/

/-- The tables of `evals_serial_cached_rev`: the next coordinate is the most significant bit. -/
def prependCoordinate (x : F) (evals : List F) : List F :=
  evals.map (fun s => s - s * x) ++ evals.map (· * x)

/-- `EqPolynomial::evals_cached_rev`: the tables of the last 0, 1, … coordinates. -/
def evalsCachedRev (r : List F) : List (List F) :=
  r.foldr (fun x evals => evals ++ [prependCoordinate x (evals.getLastD [])]) [[1]]

theorem eqEvals_cons_prepend (x : F) (r : List F) :
    eqEvals (x :: r) = prependCoordinate x (eqEvals r) := by
  rw [eqEvals_cons]
  congr 1 <;> refine map_congr_left fun s _ => ?_ <;> ring

theorem getLastD_evalsCachedRev (r : List F) : (evalsCachedRev r).getLastD [] = eqEvals r := by
  induction r with
  | nil => rfl
  | cons x r ih =>
    rw [eqEvals_cons_prepend, ← ih]
    simp [evalsCachedRev]

/-- Popping a table drops the first coordinate. -/
theorem dropLast_evalsCachedRev_cons (x : F) (r : List F) :
    (evalsCachedRev (x :: r)).dropLast = evalsCachedRev r := by
  simp [evalsCachedRev]

/-! ## The table at bound coordinates -/

/-- `eq(w, r)` as `bind` multiplies it up. -/
def eqAt (w r : List F) : F := (List.zipWith (fun w r => 1 - w - r + w * r + w * r) w r).prod

theorem eqAt_snoc {w r : List F} (length : w.length = r.length) (x y : F) :
    eqAt (w ++ [x]) (r ++ [y]) = eqAt w r * (1 - x - y + x * y + x * y) := by
  simp [eqAt, zipWith_append length]

theorem getD_eqEvals_low (x : F) {w : List F} {i : Nat} (inside : i < 2 ^ w.length) :
    (eqEvals (x :: w)).getD i 0 = (1 - x) * (eqEvals w).getD i 0 := by
  have short : i < (eqEvals w).length := by rwa [length_eqEvals]
  rw [eqEvals_cons, getD_append _ _ _ _ (by simpa using short),
    getD_eq_getElem _ _ (by simpa using short), getElem_map, getD_eq_getElem _ _ short]

theorem getD_eqEvals_high (x : F) {w : List F} {i : Nat} (inside : i < 2 ^ w.length) :
    (eqEvals (x :: w)).getD (2 ^ w.length + i) 0 = x * (eqEvals w).getD i 0 := by
  have short : i < (eqEvals w).length := by rwa [length_eqEvals]
  rw [eqEvals_cons, getD_append_right _ _ _ _ (by simp [length_eqEvals]), length_map,
    length_eqEvals, Nat.add_sub_cancel_left, getD_eq_getElem _ _ (by simpa using short),
    getElem_map, getD_eq_getElem _ _ short]

/-- The extension of a sequence in a module as a sum over the corners. -/
theorem extend_eq_sum {M : Type} [AddCommGroup M] [Module F M] (r : List F) (c : Nat → M) :
    extend r c = ∑ h ∈ Finset.range (2 ^ r.length), (eqEvals r).getD h 0 • c h := by
  induction r generalizing c with
  | nil => simp [extend, eqEvals]
  | cons x r ih =>
    rw [extend, ih, ih, List.length_cons, pow_succ, Nat.mul_two, Finset.sum_range_add,
      Finset.smul_sum, Finset.smul_sum]
    congr 1 <;> refine Finset.sum_congr rfl fun h below => ?_
    · rw [getD_eqEvals_low x (Finset.mem_range.mp below), smul_smul]
    · rw [getD_eqEvals_high x (Finset.mem_range.mp below), smul_smul]

/-- Binding the first coordinates leaves their factor and the table of the others. -/
theorem bound_eqEvals {w s : List F} (length : w.length = s.length) (v : List F) {a : Nat}
    (inside : a < 2 ^ v.length) :
    bound v.length (fun i => (eqEvals (w ++ v)).getD i 0) s a =
      eqAt w s * (eqEvals v).getD a 0 := by
  rw [bound_eq_mle]
  induction w generalizing s with
  | nil =>
    obtain rfl := length_eq_zero_iff.mp length.symm
    simp [mle, eqAt]
  | cons x w ih =>
    obtain ⟨y, s, rfl⟩ := exists_cons_of_length_pos (show 0 < s.length by rw [← length]; simp)
    have short : w.length = s.length := by simpa using length
    have place : ∀ h < 2 ^ s.length, h * 2 ^ v.length + a < 2 ^ (w ++ v).length := by
      intro h below
      have := Nat.mul_le_mul_right (2 ^ v.length) (Nat.succ_le_of_lt below)
      rw [Nat.succ_mul, ← pow_add] at this
      rw [length_append, short]
      omega
    have low : mle s (fun h => (eqEvals (x :: (w ++ v))).getD (h * 2 ^ v.length + a) 0) =
        (1 - x) * mle s fun h => (eqEvals (w ++ v)).getD (h * 2 ^ v.length + a) 0 := by
      rw [← mle_mul_left]
      exact mle_congr fun h below => getD_eqEvals_low x (place h below)
    have high :
      mle s (fun h => (eqEvals (x :: (w ++ v))).getD ((2 ^ s.length + h) * 2 ^ v.length + a) 0) =
        x * mle s fun h => (eqEvals (w ++ v)).getD (h * 2 ^ v.length + a) 0 := by
      rw [← mle_mul_left]
      refine mle_congr fun h below => ?_
      rw [← getD_eqEvals_high x (place h below), length_append, short]
      ring_nf
    rw [List.cons_append, mle, low, high, ih short, eqAt, eqAt, List.zipWith_cons_cons,
      List.prod_cons]
    ring

theorem mle_eqEvals {w s : List F} (length : w.length = s.length) :
    mle s (fun i => (eqEvals w).getD i 0) = eqAt w s := by
  have whole := bound_eqEvals length [] (show 0 < 2 ^ ([] : List F).length by simp)
  simpa [bound_eq_mle, eqEvals] using whole

/-- The table of a joined point is a table of products. -/
theorem getD_eqEvals_append (w v : List F) {a b : Nat} (high : a < 2 ^ w.length)
    (low : b < 2 ^ v.length) :
    (eqEvals (w ++ v)).getD (a * 2 ^ v.length + b) 0 =
      (eqEvals w).getD a 0 * (eqEvals v).getD b 0 := by
  induction w generalizing a with
  | nil =>
    obtain rfl : a = 0 := by simpa using high
    simp [eqEvals]
  | cons x w ih =>
    have place : ∀ h < 2 ^ w.length, h * 2 ^ v.length + b < 2 ^ (w ++ v).length := by
      intro h below
      have := Nat.mul_le_mul_right (2 ^ v.length) (Nat.succ_le_of_lt below)
      rw [Nat.succ_mul, ← pow_add] at this
      rw [length_append]
      omega
    rw [List.length_cons] at high
    rcases Nat.lt_or_ge a (2 ^ w.length) with below | above
    · rw [List.cons_append, getD_eqEvals_low x (place a below), ih below, getD_eqEvals_low x below]
      ring
    · obtain ⟨d, rfl⟩ := Nat.exists_eq_add_of_le above
      have below : d < 2 ^ w.length := by omega
      rw [show (2 ^ w.length + d) * 2 ^ v.length + b =
        2 ^ (w ++ v).length + (d * 2 ^ v.length + b) by
        rw [length_append]; ring, List.cons_append, getD_eqEvals_high x (place d below), ih below,
        getD_eqEvals_high x below]
      ring

/-! ## The split polynomial -/

/-- `GruenSplitEqPolynomial`, bound from high to low. -/
structure GruenSplitEqPolynomial (F : Type) where
  currentIndex : Nat
  currentScalar : F
  w : List F
  eInVec : List (List F)
  eOutVec : List (List F)

namespace GruenSplitEqPolynomial

/-- `GruenSplitEqPolynomial::new`; `none` is the panic of `split_first().unwrap()`. -/
def new : List F → Option (GruenSplitEqPolynomial F)
  | [] => none
  | w@(_ :: wprime) =>
    let m := w.length / 2
    some {
      currentIndex := 0
      currentScalar := 1
      w
      eInVec := evalsCachedRev (wprime.take m)
      eOutVec := evalsCachedRev (wprime.drop m) }

def len (self : GruenSplitEqPolynomial F) : Nat := 2 ^ (self.w.length - self.currentIndex)

def eInCurrent (self : GruenSplitEqPolynomial F) : List F := self.eInVec.getLastD []

def eOutCurrent (self : GruenSplitEqPolynomial F) : List F := self.eOutVec.getLastD []

/-- `bind`: the scalar takes the factor of the coordinate, and a table is popped. -/
def bind (self : GruenSplitEqPolynomial F) (r : F) : Option (GruenSplitEqPolynomial F) := do
  let wi ← self.w[self.currentIndex]?
  let prodWR := wi * r
  let self := { self with
    currentScalar := self.currentScalar * (1 - wi - r + prodWR + prodWR)
    currentIndex := self.currentIndex + 1 }
  return if self.currentIndex ≤ self.w.length / 2 then { self with eInVec := self.eInVec.dropLast }
    else if self.currentIndex ≤ self.w.length then { self with eOutVec := self.eOutVec.dropLast }
    else self

/-- The polynomial of `w` with its first coordinates bound to `s`. -/
def boundTo (w s : List F) : GruenSplitEqPolynomial F where
  currentIndex := s.length
  currentScalar := eqAt (w.take s.length) s
  w := w
  eInVec := evalsCachedRev ((w.drop (s.length + 1)).take (w.length / 2 - s.length))
  eOutVec := if s.length < w.length then evalsCachedRev (w.drop (max s.length (w.length / 2) + 1))
    else []

theorem new_eq {w : List F} (nonempty : 0 < w.length) : new w = some (boundTo w []) := by
  obtain ⟨x, wprime, rfl⟩ := exists_cons_of_length_pos nonempty
  simp [new, boundTo, eqAt]

/-- Binding drops the newest cached table of the half that the current variable belongs to. -/
theorem bind_boundTo {w s : List F} (short : s.length < w.length) (r : F) :
    (boundTo w s).bind r = some (boundTo w (s ++ [r])) := by
  have scalar : eqAt (w.take (s.length + 1)) (s ++ [r]) =
      eqAt (w.take s.length) s * (1 - w[s.length] - r + w[s.length] * r + w[s.length] * r) := by
    rw [take_add_one, getElem?_eq_getElem short]
    exact eqAt_snoc (by rw [length_take]; omega) _ _
  rw [bind, show (boundTo w s).w[(boundTo w s).currentIndex]? = some w[s.length] from
    getElem?_eq_getElem short]
  simp only [Option.bind_eq_bind, Option.bind_some, boundTo, if_pos short, length_append,
    length_singleton, scalar]
  by_cases inner : s.length + 1 ≤ w.length / 2
  · -- the inner table loses its first coordinate, the outer one stays
    have more : s.length + 1 < w.length := by omega
    have front : max (s.length + 1) (w.length / 2) = max s.length (w.length / 2) := by omega
    rw [if_pos inner, if_pos more, front, drop_eq_getElem_cons more,
      show w.length / 2 - s.length = w.length / 2 - (s.length + 1) + 1 by omega,
      take_succ_cons, dropLast_evalsCachedRev_cons]
    rfl
  · have left : max s.length (w.length / 2) = s.length := by omega
    have emptyBefore : w.length / 2 - s.length = 0 := by omega
    have emptyAfter : w.length / 2 - (s.length + 1) = 0 := by omega
    rw [if_neg inner, if_pos (by omega), left, emptyBefore, emptyAfter]
    by_cases more : s.length + 1 < w.length
    · have front : max (s.length + 1) (w.length / 2) = s.length + 1 := by omega
      rw [if_pos more, front, drop_eq_getElem_cons more, dropLast_evalsCachedRev_cons]
      rfl
    · rw [if_neg more, drop_of_length_le (by omega)]
      rfl

variable {M : Type} [AddCommGroup M] [Module F M]

/-- The inner sum of a cycle round: the bound coefficients against the table of the later
coordinates. -/
def innerSum (self : GruenSplitEqPolynomial F) (coeff : Nat → Option M) : Option M :=
  let eIn := self.eInCurrent
  let eOut := self.eOutCurrent
  if eIn.length = 1 then
    sumM (self.len / 2) fun j => do return (← eOut[j]?) • (← coeff j)
  else
    sumM eIn.length fun xIn => do
      let inner ← sumM eOut.length fun xOut => do
        return (← eOut[xOut]?) • (← coeff (xIn <<< eOut.length.log2 ||| xOut))
      return (← eIn[xIn]?) • inner

theorem getElem?_eqEvals {v : List F} {i : Nat} (inside : i < 2 ^ v.length) :
    (eqEvals v)[i]? = some ((eqEvals v).getD i 0) := by
  have short : i < (eqEvals v).length := by rwa [length_eqEvals]
  rw [getElem?_eq_getElem short, getD_eq_getElem _ _ short]

/-- Two tables, one inside the other, are the table of the joined point. -/
theorem sumM_tables (a b : List F) {coeff : Nat → Option M} {h : Nat → M}
    (coeffs : ∀ j < 2 ^ (a.length + b.length), coeff j = some (h j)) :
    (sumM (2 ^ a.length) fun xIn => do
      let inner ← sumM (2 ^ b.length) fun xOut => do
        return (← (eqEvals b)[xOut]?) • (← coeff (xIn <<< (2 ^ b.length).log2 ||| xOut))
      return (← (eqEvals a)[xIn]?) • inner) =
      some (∑ j ∈ Finset.range (2 ^ (a.length + b.length)), (eqEvals (a ++ b)).getD j 0 • h j) := by
  rw [pow_add, sum_blocks]
  refine sumM_some fun xIn below => ?_
  have place : ∀ xOut < 2 ^ b.length, xIn * 2 ^ b.length + xOut < 2 ^ (a.length + b.length) := by
    intro xOut small
    have := Nat.mul_le_mul_right (2 ^ b.length) (Nat.succ_le_of_lt below)
    rw [Nat.succ_mul, ← pow_add] at this
    omega
  have inner : (sumM (2 ^ b.length) fun xOut => do
      return (← (eqEvals b)[xOut]?) • (← coeff (xIn <<< (2 ^ b.length).log2 ||| xOut))) =
      some (∑ xOut ∈ Finset.range (2 ^ b.length),
        (eqEvals b).getD xOut 0 • h (xIn * 2 ^ b.length + xOut)) := by
    refine sumM_some fun xOut small => ?_
    rw [getElem?_eqEvals small, Nat.log2_two_pow, ← Nat.shiftLeft_add_eq_or_of_lt small,
      Nat.shiftLeft_eq, coeffs _ (place xOut small)]
    rfl
  rw [inner, getElem?_eqEvals below]
  simp only [Option.bind_eq_bind, Option.bind_some, Finset.smul_sum, smul_smul]
  refine congrArg some (Finset.sum_congr rfl fun xOut small => ?_)
  rw [← getD_eqEvals_append a b below (Finset.mem_range.mp small)]

/-- The two cached halves together weigh by the equality polynomial of the variables left. -/
theorem innerSum_boundTo {w s : List F} {m : Nat} (left : w.length = s.length + (m + 1))
    {coeff : Nat → Option M} {h : Nat → M} (coeffs : ∀ j < 2 ^ m, coeff j = some (h j)) :
    (boundTo w s).innerSum coeff = some (∑ j ∈ Finset.range (2 ^ m),
      (eqEvals (w.drop (s.length + 1))).getD j 0 • h j) := by
  have short : s.length < w.length := by omega
  let v := w.drop (s.length + 1)
  have vlen : v.length = m := by rw [length_drop]; omega
  have eIn : (boundTo w s).eInCurrent = eqEvals (v.take (w.length / 2 - s.length)) :=
    getLastD_evalsCachedRev _
  have eOut : (boundTo w s).eOutCurrent = eqEvals (v.drop (w.length / 2 - s.length)) := by
    rw [eOutCurrent, boundTo, if_pos short, getLastD_evalsCachedRev, drop_drop]
    congr 2
    omega
  rw [innerSum, eIn, eOut, length_eqEvals]
  by_cases single : w.length / 2 - s.length = 0
  · -- the outer table is the whole table
    have half : (boundTo w s).len / 2 = 2 ^ m := by
      rw [len, boundTo, left, Nat.add_sub_cancel_left, pow_succ, Nat.mul_div_cancel _ (by omega)]
    rw [single, drop_zero, half]
    exact sumM_some fun j inside => by
      rw [getElem?_eqEvals (by rw [vlen]; exact inside), coeffs j inside]; rfl
  · have inLen : (v.take (w.length / 2 - s.length)).length = w.length / 2 - s.length := by
      rw [length_take]
      omega
    have product :=
      sumM_tables (v.take (w.length / 2 - s.length)) (v.drop (w.length / 2 - s.length)) (h := h)
      fun j inside => coeffs j (by rwa [← length_append, take_append_drop, vlen] at inside)
    rw [← length_append, take_append_drop, vlen] at product
    rw [if_neg (by rw [inLen]; exact (Nat.one_lt_two_pow single).ne'), length_eqEvals]
    exact product

/-- Without coefficients there is no inner sum. -/
theorem innerSum_none {w : List F} (nonempty : 0 < w.length) {coeff : Nat → Option M}
    (missing : ∀ j, coeff j = none) :
    (boundTo w []).innerSum coeff = none := by
  have eIn : (boundTo w []).eInCurrent = eqEvals ((w.drop 1).take (w.length / 2)) :=
    getLastD_evalsCachedRev _
  have eOut : (boundTo w []).eOutCurrent = eqEvals (w.drop (max 0 (w.length / 2) + 1)) := by
    rw [eOutCurrent, boundTo, length_nil, if_pos nonempty, getLastD_evalsCachedRev]
  simp only [innerSum, eIn, eOut, length_eqEvals, missing, Option.bind_eq_bind, Option.bind_none,
    Option.bind_fun_none]
  split
  · refine sumM_none ?_ rfl
    exact Nat.div_pos (Nat.le_self_pow nonempty.ne' 2) (by omega)
  · refine sumM_none (Nat.two_pow_pos _) ?_
    rw [sumM_none (Nat.two_pow_pos _) rfl]
    rfl

end GruenSplitEqPolynomial

end ProviaVM.Poly
