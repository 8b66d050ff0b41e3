import Mathlib.Tactic.Module
import ProviaVM.Poly.Fwht

/-! # Lazily bound lookups and tables shifted by a secret mask

`provia-worker/src/poly/ra_poly.rs`. `Rep3RaPolynomial` is the polynomial of the values a
table has at public indices. It keeps the table for its first three coordinates and becomes a
vector of coefficients when the third is bound. The type of the shares is a parameter `M`. -/
namespace ProviaVM.Poly
open Preprocessing Rep3 WalshHadamard List

variable {F : Type} [Field F] [DecidableEq F]

/-- `shifted_table_from_rand_ohv`; `none` is a failed assertion. -/
def shiftedTableFromRandOhv (arch : TargetArch) (eqU : List F) (eField : List (Rep3Share F)) :
    Option (List (Rep3Share F)) :=
  if eqU.length ≠ eField.length then none
  else if eqU.length = 0 then some []
  else if eqU.length = 1 then some (List.zipWith (fun e u => e.map (· * u)) (eField.take 1) eqU)
  else do
    let eHat :=
      List.zipWith (fun e u => e.map (· * u)) (fwhtInPlace arch eField) (fwhtInPlace arch eqU)
    let invK ← inverse eqU.length
    return (fwhtInPlace arch eHat).map fun e => e.map (· * invK)

/-- The table is shifted by the mask of the random one-hot vector, whatever the transform build. -/
theorem shiftedTableFromRandOhv_spec (arch : TargetArch) {k r : Nat} (invertible : (2 ^ k : F) ≠ 0)
    {table : List F} (tlen : table.length = 2 ^ k) (rIn : r < 2 ^ k)
    {e : PartyID → List (Rep3Share F)} (shares : VecShares e (oneHot (2 ^ k) r)) :
    ∃ out : PartyID → List (Rep3Share F),
      (∀ p, shiftedTableFromRandOhv arch table (e p) = some (out p)) ∧
      VecShares out (xorShifted r table) := by
  have olen := length_oneHot (F := F) (2 ^ k) r
  have elen : ∀ p, (e p).length = 2 ^ k := fun p => (shares.length p).trans olen
  have checks : ∀ p, ¬ table.length ≠ (e p).length := fun p => by rw [tlen, elen]; simp
  have nonempty : table.length ≠ 0 := by rw [tlen]; exact (Nat.two_pow_pos k).ne'
  cases k with
  | zero =>
    obtain rfl : r = 0 := by simpa using rIn
    obtain ⟨u, rfl⟩ := length_eq_one_iff.mp tlen
    refine ⟨_, fun p =>
      ?_, (?_ : VecShares (fun p => List.zipWith (fun e u => e.map (· * u)) (e p) [u]) _)⟩
    · have short : (e p).length ≤ 1 := (elen p).le
      rw [shiftedTableFromRandOhv, if_neg (checks p), if_neg nonempty,
        if_pos (show [u].length = 1 from rfl), take_of_length_le short]
    · have products := shares.zipPublic (fun _ _ _ => add_mul ..)
        (show [u].length = (oneHot (2 ^ 0) 0 : List F).length by rfl)
      simpa [oneHot, xorShifted] using products
  | succ k =>
    have hatLength := length_fwht arch olen
    have tableLength := length_fwht arch tlen
    have products := (shares.fwht arch olen).zipPublic (fun _ _ _ => add_mul ..)
      (tableLength.trans hatLength.symm)
    have plen :
      (List.zipWith (fun a u => a * u) (fwhtInPlace arch (oneHot (2 ^ (k + 1)) r : List F))
        (fwhtInPlace arch table)).length = 2 ^ (k + 1) := by simp [hatLength, tableLength]
    have scaled := (products.fwht arch plen).map (· * (2 ^ (k + 1) : F)⁻¹) fun _ _ => add_mul ..
    rw [fwht_mul_scaled invertible olen tlen, xorConvolution_oneHot rIn tlen] at scaled
    refine ⟨_, fun p => ?_, scaled⟩
    rw [shiftedTableFromRandOhv, if_neg (checks p), if_neg nonempty,
      if_neg (by rw [tlen]; exact (Nat.one_lt_two_pow (by omega)).ne'),
      tlen, inverse_two_pow invertible]
    rfl

section Lookups

open Multilinear

variable {F : Type} [Field F] {M : Type} [AddCommGroup M] [Module F M]

/-- `Rep3RaPolynomial`, bound from high to low. -/
inductive Rep3RaPolynomial (M : Type) where
  | none
  | round1 (shiftedTable : List M) (indices : List (Option (BitVec 8)))
  | round2 (f0 f1 : List M) (indices : List (Option (BitVec 8)))
  | round3 (f00 f01 f10 f11 : List M) (indices : List (Option (BitVec 8)))
  | roundN (coeffs : List M)

/-- `indices[j].map_or(zero_share, |i| f[i])`; `none` is an index out of range. -/
def lookUp {M : Type} [Zero M] (f : List M) (indices : List (Option (BitVec 8))) (j : Nat) :
    Option M := do
  match ← indices[j]? with
  | some i => f[i.toNat]?
  | none => some 0

/-- `Rep3DensePolynomial::bind` and `bound_poly_var_top`: the halves are joined. -/
def bindTop (r : F) (coeffs : List M) : List M :=
  let n := coeffs.length / 2
  List.zipWith (fun a b => a + r • (b - a)) (coeffs.take n) (coeffs.drop n)

/-- The coefficients with the first coordinates bound to `s`. -/
theorem bindTop_bound {m : Nat} (x : Nat → M) (s : List F) (r : F) :
    bindTop r ((List.range (2 ^ (m + 1))).map (bound (m + 1) x s)) =
      (List.range (2 ^ m)).map (bound m x (s ++ [r])) := by
  have half : 2 ^ (m + 1) / 2 = 2 ^ m := by rw [pow_succ, Nat.mul_div_cancel _ (by omega)]
  have double : 2 ^ (m + 1) = 2 ^ m + 2 ^ m := by rw [pow_succ, Nat.mul_two]
  rw [bindTop, length_map, length_range, half]
  refine ext_getElem (by simp [double]) fun j inside _ => ?_
  simp only [getElem_zipWith, getElem_take, getElem_drop, getElem_map, getElem_range, bound_snoc]
  module

/-- `Rep3DensePolynomial::new`: an empty vector has no number of variables. -/
def Rep3RaPolynomial.dense {M : Type} (coeffs : List M) : Option (Rep3RaPolynomial M) :=
  if coeffs.length = 0 then Option.none else some (.roundN coeffs)

namespace Rep3RaPolynomial

def getBoundCoeff : Rep3RaPolynomial M → Nat → Option M
  | .none, _ => Option.none
  | .round1 table indices, j => lookUp table indices j
  | .round2 f0 f1 indices, j => do
    let mid := indices.length / 2
    let h0 ← lookUp f0 indices j
    let h1 ← lookUp f1 indices (mid + j)
    return h0 + h1
  | .round3 f00 f01 f10 f11 indices, j => do
    let n := indices.length / 4
    let h00 ← lookUp f00 indices j
    let h01 ← lookUp f01 indices (j + n)
    let h10 ← lookUp f10 indices (j + n * 2)
    let h11 ← lookUp f11 indices (j + n * 3)
    return h00 + h10 + h01 + h11
  | .roundN coeffs, j => coeffs[j]?

/-- Entry `j` of the vector that the third bind builds. -/
def thirdBind (r : F) (f00 f01 f10 f11 : List M) (indices : List (Option (BitVec 8))) (j : Nat) :
    Option M := do
  let eq0 := 1 - r
  let eq1 := r
  let n := indices.length / 8
  let h000 ← lookUp (f00.map (eq0 • ·)) indices j
  let h001 ← lookUp (f00.map (eq1 • ·)) indices (j + n)
  let h010 ← lookUp (f01.map (eq0 • ·)) indices (j + n * 2)
  let h011 ← lookUp (f01.map (eq1 • ·)) indices (j + n * 3)
  let h100 ← lookUp (f10.map (eq0 • ·)) indices (j + n * 4)
  let h101 ← lookUp (f10.map (eq1 • ·)) indices (j + n * 5)
  let h110 ← lookUp (f11.map (eq0 • ·)) indices (j + n * 6)
  let h111 ← lookUp (f11.map (eq1 • ·)) indices (j + n * 7)
  return h000 + h010 + h100 + h110 + h001 + h011 + h101 + h111

def bindParallel (r : F) : Rep3RaPolynomial M → Option (Rep3RaPolynomial M)
  | .none => Option.none
  | .round1 table indices => some (.round2 (table.map ((1 - r) • ·)) (table.map (r • ·)) indices)
  | .round2 f0 f1 indices =>
    some (.round3 (f0.map ((1 - r) • ·)) (f0.map (r • ·)) (f1.map ((1 - r) • ·)) (f1.map (r • ·))
      indices)
  | .round3 f00 f01 f10 f11 indices => do
    dense (← (List.range (indices.length / 8)).mapM (thirdBind r f00 f01 f10 f11 indices))
  | .roundN coeffs => some (.roundN (bindTop r coeffs))

/-- `final_sumcheck_claim`: only a vector of length 1 has one. -/
def finalSumcheckClaim : Rep3RaPolynomial M → Option M
  | .roundN [c] => some c
  | _ => Option.none

/-! ## What is left after binding -/

/-- The coefficients `x` with the first coordinates bound to `s`, as a vector. -/
def vectorAt (τ : Nat) (x : Nat → M) (s : List F) : Rep3RaPolynomial M :=
  .roundN ((List.range (2 ^ (τ - s.length))).map (bound (τ - s.length) x s))

theorem getBoundCoeff_vectorAt {τ : Nat} (x : Nat → M) (s : List F) {j : Nat}
    (inside : j < 2 ^ (τ - s.length)) :
    (vectorAt τ x s).getBoundCoeff j = some (bound (τ - s.length) x s j) := by
  rw [vectorAt, getBoundCoeff, getElem?_map, getElem?_range inside]
  rfl

theorem bindParallel_vectorAt {τ : Nat} (x : Nat → M) {s : List F} (short : s.length < τ) (r : F) :
    (vectorAt τ x s).bindParallel r = some (vectorAt τ x (s ++ [r])) := by
  obtain ⟨m, rfl⟩ : ∃ m, τ = s.length + (m + 1) := ⟨τ - s.length - 1, by omega⟩
  have before : s.length + (m + 1) - s.length = m + 1 := by omega
  have after : s.length + (m + 1) - (s ++ [r]).length = m := by
    rw [length_append, length_singleton]; omega
  rw [vectorAt, vectorAt, bindParallel, before, after, bindTop_bound]

theorem finalSumcheckClaim_vectorAt {τ : Nat} (x : Nat → M) {s : List F} (full : s.length = τ) :
    (vectorAt τ x s).finalSumcheckClaim = some (bound 0 x s 0) := by
  subst full
  simp [vectorAt, finalSumcheckClaim]

theorem lookUp_map {f : List M} {indices : List (Option (BitVec 8))} {j : Nat} {v : M}
    (found : lookUp f indices j = some v) (c : F) :
    lookUp (f.map (c • ·)) indices j = some (c • v) := by
  rw [lookUp] at found ⊢
  cases at_ : indices[j]? with
  | none => simp [at_] at found
  | some index =>
    rw [at_] at found
    cases index with
    | none =>
      obtain rfl : 0 = v := by simpa using found
      simp
    | some i =>
      have entry : f[i.toNat]? = some v := by simpa using found
      simp [entry]

/-- The lookups of a table with the first coordinates bound to `s`. -/
def lookupsAt (table : List M) (indices : List (Option (BitVec 8))) (τ : Nat) (x : Nat → M) :
    List F → Rep3RaPolynomial M
  | [] => .round1 table indices
  | [r0] => .round2 (table.map ((1 - r0) • ·)) (table.map (r0 • ·)) indices
  | [r0, r1] =>
    .round3 ((table.map ((1 - r0) • ·)).map ((1 - r1) • ·))
      ((table.map ((1 - r0) • ·)).map (r1 • ·))
      ((table.map (r0 • ·)).map ((1 - r1) • ·)) ((table.map (r0 • ·)).map (r1 • ·)) indices
  | s => vectorAt τ x s

section Stages

variable {table : List M} {indices : List (Option (BitVec 8))} {τ : Nat} {x : Nat → M}
  (length : indices.length = 2 ^ τ) (entries : ∀ j < 2 ^ τ, lookUp table indices j = some (x j))
include length entries

/-- The third binding reads four scaled tables and makes the dense vector of the bound
coefficients. -/
theorem thirdBind_eq (deep : 3 ≤ τ) (r0 r1 r2 : F) {j : Nat} (inside : j < 2 ^ (τ - 3)) :
    thirdBind r2 ((table.map ((1 - r0) • ·)).map ((1 - r1) • ·))
      ((table.map ((1 - r0) • ·)).map (r1 • ·))
      ((table.map (r0 • ·)).map ((1 - r1) • ·)) ((table.map (r0 • ·)).map (r1 • ·)) indices j =
      some (bound (τ - 3) x [r0, r1, r2] j) := by
  have whole : 2 ^ τ = 2 ^ (τ - 3) * 8 := by
    rw [show τ = τ - 3 + 3 by omega, pow_add]
    rfl
  have eighth : indices.length / 8 = 2 ^ (τ - 3) := by simp [length, whole]
  have found : ∀ (b : Nat) (c0 c1 c2 : F), b < 8 →
    lookUp (((table.map (c0 • ·)).map (c1 • ·)).map (c2 • ·)) indices
      (j + 2 ^ (τ - 3) * b) = some (c2 • c1 • c0 • x (j + 2 ^ (τ - 3) * b)) := by
    intro b c0 c1 c2 small
    have below : j + 2 ^ (τ - 3) * b < 2 ^ τ := by
      have := Nat.mul_le_mul_left (2 ^ (τ - 3)) (show b ≤ 7 by omega)
      omega
    exact lookUp_map (lookUp_map (lookUp_map (entries _ below) c0) c1) c2
  have first := fun c0 c1 c2 => found 0 c0 c1 c2 (by omega)
  have second := fun c0 c1 c2 => found 1 c0 c1 c2 (by omega)
  rw [Nat.mul_zero, Nat.add_zero] at first
  rw [Nat.mul_one] at second
  simp only [thirdBind, eighth, first, second, found, Nat.reduceLT]
  have place : ∀ b, b * 2 ^ (τ - 3) + j = j + 2 ^ (τ - 3) * b := fun b => by
    rw [Nat.mul_comm, Nat.add_comm]
  simp only [bound, extend, place]
  norm_num
  module

/-- In all four representations a coefficient is the one bound to the challenges so far. -/
theorem getBoundCoeff_lookupsAt {s : List F} (short : s.length ≤ τ) {j : Nat}
    (inside : j < 2 ^ (τ - s.length)) :
    (lookupsAt table indices τ x s).getBoundCoeff j = some (bound (τ - s.length) x s j) := by
  match s, short, inside with
  | [], _, inside =>
    rw [bound_nil]
    exact entries j inside
  | [r0], deep, inside =>
    rw [length_singleton] at deep inside ⊢
    have whole : 2 ^ τ = 2 ^ (τ - 1) * 2 := by rw [← pow_succ, Nat.sub_add_cancel deep]
    have half : indices.length / 2 = 2 ^ (τ - 1) := by simp [length, whole]
    have low := lookUp_map (entries j (by omega)) (1 - r0)
    have high := lookUp_map (entries (2 ^ (τ - 1) + j) (by omega)) r0
    simp only [lookupsAt, getBoundCoeff, half, low, high]
    simp [bound, extend]
  | [r0, r1], deep, inside =>
    simp only [length_cons, length_nil, Nat.reduceAdd] at deep inside ⊢
    have whole : 2 ^ τ = 2 ^ (τ - 2) * 4 := by
      rw [show τ = τ - 2 + 2 by omega, pow_add]
      rfl
    have quarter : indices.length / 4 = 2 ^ (τ - 2) := by simp [length, whole]
    have found : ∀ i < 2 ^ τ, ∀ c0 c1 : F, lookUp ((table.map (c0 • ·)).map (c1 • ·)) indices i =
        some (c1 • c0 • x i) :=
      fun i below c0 c1 => lookUp_map (lookUp_map (entries i below) c0) c1
    simp only [lookupsAt, getBoundCoeff, quarter, found j (by omega),
      found (j + 2 ^ (τ - 2)) (by omega), found (j + 2 ^ (τ - 2) * 2) (by omega),
      found (j + 2 ^ (τ - 2) * 3) (by omega)]
    have place : ∀ b, b * 2 ^ (τ - 2) + j = j + 2 ^ (τ - 2) * b := fun b => by
      rw [Nat.mul_comm, Nat.add_comm]
    simp only [bound, extend, place]
    norm_num
    module
  | r0 :: r1 :: r2 :: s, _, inside => exact getBoundCoeff_vectorAt x _ inside

theorem bindParallel_lookupsAt {s : List F} (short : s.length < τ) (r : F) :
    (lookupsAt table indices τ x s).bindParallel r =
      some (lookupsAt table indices τ x (s ++ [r])) := by
  match s, short with
  | [], _ => rfl
  | [r0], _ => rfl
  | [r0, r1], deep =>
    have deep : 3 ≤ τ := deep
    have count : indices.length / 8 = 2 ^ (τ - 3) := by
      rw [length, show τ = τ - 3 + 3 by omega, pow_add]
      exact Nat.mul_div_cancel _ (by omega)
    have vector := Run.mapM_some
      fun j inside => thirdBind_eq length entries deep r0 r1 r (mem_range.mp inside)
    simp only [lookupsAt, bindParallel, count, vector, Option.bind_eq_bind, Option.bind_some,
      dense, length_map, length_range, (Nat.two_pow_pos _).ne']
    rfl
  | r0 :: r1 :: r2 :: s, short => exact bindParallel_vectorAt x short r

end Stages

theorem finalSumcheckClaim_lookupsAt (table : List M) (indices : List (Option (BitVec 8)))
    (x : Nat → M) {s : List F} {τ : Nat} (full : s.length = τ) :
    (lookupsAt table indices τ x s).finalSumcheckClaim = if 3 ≤ τ then some (bound 0 x s 0)
      else Option.none := by
  match s, full with
  | [], full => rw [if_neg (by rw [← full]; simp)]; rfl
  | [r0], full => rw [if_neg (by rw [← full]; simp)]; rfl
  | [r0, r1], full => rw [if_neg (by rw [← full]; simp)]; rfl
  | r0 :: r1 :: r2 :: s, full =>
    rw [if_pos (by rw [← full]; simp)]
    exact finalSumcheckClaim_vectorAt x full

/-- The polynomials `H s` are the coefficients `x` with the first coordinates bound to `s`. -/
structure BindsTo (τ : Nat) (x : Nat → M) (H : List F → Rep3RaPolynomial M) : Prop where
  step : ∀ {s : List F}, s.length < τ → ∀ r, (H s).bindParallel r = some (H (s ++ [r]))
  coeff : ∀ {s : List F}, s.length ≤ τ → ∀ {j : Nat}, j < 2 ^ (τ - s.length) →
    (H s).getBoundCoeff j = some (bound (τ - s.length) x s j)

theorem vectorAt_binds (τ : Nat) (x : Nat → M) : BindsTo (F := F) τ x (vectorAt τ x) where
  step short r := bindParallel_vectorAt x short r
  coeff _ _ inside := getBoundCoeff_vectorAt x _ inside

theorem lookupsAt_binds {table : List M} {indices : List (Option (BitVec 8))} {τ : Nat}
    {x : Nat → M} (length : indices.length = 2 ^ τ)
    (entries : ∀ j < 2 ^ τ, lookUp table indices j = some (x j)) :
    BindsTo (F := F) τ x (lookupsAt table indices τ x) where
  step short r := bindParallel_lookupsAt length entries short r
  coeff short _ inside := getBoundCoeff_lookupsAt length entries short inside

end Rep3RaPolynomial

end Lookups

end ProviaVM.Poly
