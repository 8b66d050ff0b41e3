import Mathlib.Algebra.BigOperators.Fin
import Mathlib.Algebra.Group.ForwardDiff
import ProviaVM.Rep3.Linear

/-! # The product of sixteen shared polynomials

`subprotocols/mles_product_sum.rs`. Sixteen polynomials of degree one are multiplied in a
tree of four levels. A level holds its polynomials by their values at `1, 2, ..` and at
infinity; before it multiplies, it extrapolates both factors to as many points as the product
needs. The products are local, and between levels every party sends its part to the next one.
A level of a tile is one vector, with a block for every `j`; `tileProduct_eq` reads a block out. -/
namespace ProviaVM.Poly
open Preprocessing Rep3 Polynomial Scatter Finset

/-! ## Polynomials by values -/

section Values

variable {R : Type} [CommRing R] {P Q : R[X]} {m n : Nat}

/-- The value at `i + 1`: the points of a vector begin at 1. -/
def valueAt (P : R[X]) (i : Nat) : R := P.eval ((i + 1 : Nat) : R)

/-- The values at `1, ..., m`, and in the last place the coefficient of degree `n`. -/
def sample (m n : Nat) (P : R[X]) (k : Fin (m + 1)) : R :=
  if k.val < m then valueAt P k else P.coeff n

theorem sample_mul (dp : P.natDegree ≤ n) (dq : Q.natDegree ≤ n) (k : Fin (m + 1)) :
    sample m (n + n) (P * Q) k = sample m n P k * sample m n Q k := by
  unfold sample
  split
  · exact eval_mul
  · exact coeff_mul_add_eq_of_natDegree_le dp dq

theorem sample_C_mul (c : R) (k : Fin (m + 1)) : sample m n (C c * P) k = c * sample m n P k := by
  unfold sample valueAt
  split
  · simp
  · exact coeff_C_mul P

theorem sample_sum {ι : Type} (S : Finset ι) (P : ι → R[X]) (k : Fin (m + 1)) :
    sample m n (∑ i ∈ S, P i) k = ∑ i ∈ S, sample m n (P i) k := by
  unfold sample
  split
  · exact eval_finsetSum ..
  · exact finsetSum_coeff ..

/-- The difference of order `n` of a polynomial of degree at most `n`. -/
theorem sum_valueAt (degree : P.natDegree ≤ n) (i : Nat) :
    ∑ k ∈ Finset.range (n + 1), ((-1 : ℤ) ^ (n - k) * n.choose k) • valueAt P (i + k) =
      P.coeff n * n.factorial := by
  have shifted : (fwdDiff 1)^[n] P.eval ((i + 1 : Nat) : R) = P.coeff n * n.factorial := by
    rcases degree.eq_or_lt with rfl | lower
    · rw [fwdDiff_iter_degree_eq_factorial]
      rfl
    · rw [fwdDiff_iter_eq_zero_of_degree_lt lower, coeff_eq_zero_of_natDegree_lt lower, zero_mul]
      rfl
  rw [← shifted, fwdDiff_iter_eq_sum_shift]
  refine sum_congr rfl fun k _ => ?_
  rw [valueAt, nsmul_one, ← Nat.cast_add, Nat.add_right_comm]

theorem valueAt_add2 (degree : P.natDegree ≤ 2) (i : Nat) :
    valueAt P (i + 2) = 2 * (valueAt P (i + 1) + P.coeff 2) - valueAt P i := by
  have diff := sum_valueAt degree i
  norm_num [sum_range_succ, Nat.choose, Nat.factorial] at diff
  linear_combination diff

theorem valueAt_add4 (degree : P.natDegree ≤ 4) (i : Nat) : valueAt P (i + 4) =
    4 * valueAt P (i + 3) - 6 * valueAt P (i + 2) + 4 * valueAt P (i + 1) - valueAt P i +
      24 * P.coeff 4 := by
  have diff := sum_valueAt degree i
  norm_num [sum_range_succ, Nat.choose, Nat.factorial] at diff
  linear_combination diff

theorem valueAt_add8 (degree : P.natDegree ≤ 8) (i : Nat) : valueAt P (i + 8) =
    8 * (valueAt P (i + 1) + valueAt P (i + 7)) + 56 * (valueAt P (i + 3) + valueAt P (i + 5)) +
      40320 * P.coeff 8 -
      (28 * (valueAt P (i + 2) + valueAt P (i + 6)) + 70 * valueAt P (i + 4) + valueAt P i) := by
  have diff := sum_valueAt degree i
  norm_num [sum_range_succ, Nat.choose, Nat.factorial] at diff
  linear_combination diff

end Values

/-! ## The levels -/

section Levels

variable {F : Type} [Field F]

/-- `share * share`: an additive share of the product. -/
def times (x y : View F) : PartyID → F := fun p => (x p).localMul (y p)

def evalInter2 (p q : View F × View F) : Fin 3 → PartyID → F :=
  let points (p : View F × View F) : Fin 3 → View F := ![p.2, p.2 - p.1 + p.2, p.2 - p.1]
  fun k => times (points p k) (points q k)

def ex2 (f0 f1 fInf : View F) : View F :=
  let sum := f1 + fInf
  sum + sum - f0

def ex4Two (f0 f1 f2 f3 fInf6 : View F) : View F × View F :=
  let f3m2 := f3 - f2
  let f4 := fInf6 + f3m2 + f1
  let f4 := f4 + f4 - f2
  let f4 := f4 + f4 - f0
  let f5 := f4 - f3m2 + fInf6
  let f5 := f5 + f5 - f3
  let f5 := f5 + f5 - f1
  (f4, f5)

def ex8 (f : Nat → View F) (fInf40320 : View F) : View F :=
  let pos := (8 : F) • (f 1 + f 7) + (56 : F) • (f 3 + f 5) + fInf40320
  let neg := (28 : F) • (f 2 + f 6) + (70 : F) • f 4 + f 0
  pos - neg

def extrapolate3To5 (a : Fin 3 → View F) : Fin 5 → View F :=
  let a3 := ex2 (a 0) (a 1) (a 2)
  let a4 := ex2 (a 1) a3 (a 2)
  ![a 0, a 1, a3, a4, a 2]

def extrapolate5To9 (a : Fin 5 → View F) : Fin 9 → View F :=
  let aInf6 := (6 : F) • a 4
  let (a5, a6) := ex4Two (a 0) (a 1) (a 2) (a 3) aInf6
  let (a7, a8) := ex4Two (a 2) (a 3) a5 a6 aInf6
  ![a 0, a 1, a 2, a 3, a5, a6, a7, a8, a 4]

/-- The loop of `extrapolate_9_to_16_rep3`: each new value is found from the eight before it. -/
def extrapolateLoop (vals : Fin 9 → View F) : Nat → Nat → View F
  | 0 => fun k => if inside : k < 8 then vals ⟨k, by omega⟩ else 0
  | i + 1 => fun k =>
    if k = 8 + i then ex8 (fun e => extrapolateLoop vals i (i + e)) ((40320 : F) • vals 8)
      else extrapolateLoop vals i k

def extrapolate9To16 (vals : Fin 9 → View F) (k : Fin 16) : View F :=
  if k = 15 then vals 8 else extrapolateLoop vals 7 k

def evalInter4 (a b : Fin 3 → View F) (k : Fin 5) : PartyID → F :=
  times (extrapolate3To5 a k) (extrapolate3To5 b k)

def evalInter8 (a b : Fin 5 → View F) (k : Fin 9) : PartyID → F :=
  times (extrapolate5To9 a k) (extrapolate5To9 b k)

/-- The products that `eval_inter16_final_accumulate_rep3` weighs and adds. -/
def evalInter16 (a b : Fin 9 → View F) (k : Fin 16) : PartyID → F :=
  times (extrapolate9To16 a k) (extrapolate9To16 b k)

/-- The four levels at one `j`, from the two ends of the sixteen lines. -/
def productBlock (pairs : Fin 16 → View F × View F) : Fin 16 → PartyID → F :=
  let level1 (t : Fin 8) (k : Fin 3) : View F :=
    .reshare (evalInter2 (pairs ⟨2 * t, by omega⟩) (pairs ⟨2 * t + 1, by omega⟩) k)
  let level2 (g : Fin 4) (k : Fin 5) : View F :=
    .reshare (evalInter4 (level1 ⟨2 * g, by omega⟩) (level1 ⟨2 * g + 1, by omega⟩) k)
  let level3 (g : Fin 2) (k : Fin 9) : View F :=
    .reshare (evalInter8 (level2 ⟨2 * g, by omega⟩) (level2 ⟨2 * g + 1, by omega⟩) k)
  evalInter16 (level3 0) (level3 1)

/-- The ends of the lines at `j`; the weight of the column goes into the first line. -/
def weightedPairs (c : F) (ra : Fin 16 → Nat → View F) (half j : Nat) (i : Fin 16) :
    View F × View F :=
  if i = 0 then (c • ra i j, c • ra i (j + half)) else (ra i j, ra i (j + half))

/-- One level of a tile as the next one sees it, after `reshare_additive_many`: `blocks` blocks of
`groups` groups of `n` products. -/
def level (blocks groups n : Nat) [NeZero n] (products : Nat → Nat → Fin n → PartyID → F) :
    List (View F) :=
  (List.range (blocks * (groups * n))).map fun e =>
    let base := e % (groups * n)
    .reshare (products (e / (groups * n)) (base / n) (Fin.ofNat n base))

/-- Level 1 of the tile of `tileWr` rows from `wr0` on, with a block for every row and column. -/
def level1 (eqWl : List F) (ra : Fin 16 → Nat → View F) (half wlLen wr0 tileWr : Nat) :
    List (View F) :=
  level (tileWr * eqWl.length) 8 3 fun idx pair =>
    let jWl := idx % eqWl.length
    let jWr := wr0 + idx / eqWl.length
    let pairs := weightedPairs (eqWl.getD jWl 0) ra half (jWl + jWr <<< wlLen)
    evalInter2 (pairs (Fin.ofNat 16 (2 * pair))) (pairs (Fin.ofNat 16 (2 * pair + 1)))

/-- A later level: group `g` of a block takes the groups `2 * g` and `2 * g + 1`, of `m` values
each, from the same block of the level before. -/
def nextLevel (blocks groups m n : Nat) [NeZero n]
    (evalInter : (Fin m → View F) → (Fin m → View F) → Fin n → PartyID → F)
    (previous : List (View F)) : List (View F) :=
  level blocks groups n fun idx group =>
    let part (t : Nat) (k : Fin m) : View F := previous.getD (idx * (2 * groups * m) + t * m + k) 0
    evalInter (part (2 * group)) (part (2 * group + 1))

def level2 (blocks : Nat) (level1 : List (View F)) : List (View F) :=
  nextLevel blocks 4 3 5 evalInter4 level1

def level3 (blocks : Nat) (level2 : List (View F)) : List (View F) :=
  nextLevel blocks 2 5 9 evalInter8 level2

/-- The products of the last level for the column `jWl` of a row of the tile. -/
def tileProduct (eqWl : List F) (ra : Fin 16 → Nat → View F)
    (half wlLen wr0 tileWr localWr jWl : Nat) :
    Fin 16 → PartyID → F :=
  let nWl := eqWl.length
  let blocks := tileWr * nWl
  let level3 := level3 blocks (level2 blocks (level1 eqWl ra half wlLen wr0 tileWr))
  let start := localWr * nWl * (2 * 9) + jWl * (2 * 9)
  evalInter16 (fun k => level3.getD (start + k) 0) fun k => level3.getD (start + 9 + k) 0

def wrTileSize (tile : Option Nat) (nWl nWr : Nat) : Nat :=
  if nWr * nWl ≤ 4096 then max nWr 1 else min (max (tile.getD 32) 1) (max nWr 1)

/-- `compute_mles_product_16_rep3`; `tile` is the setting `RA_MLES_WR_TILE`, and the reading of
the bound coefficients is given. -/
def computeMlesProduct16 (tile : Option Nat) (eqWl eqWr : List F) (ra : Fin 16 → Nat → View F)
    (half wlLen : Nat) (k : Fin 16) (p : PartyID) : F :=
  let nWl := eqWl.length
  let nWr := eqWr.length
  let wrTile := wrTileSize tile nWl nWr
  ∑ t ∈ Finset.range ((nWr + wrTile - 1) / wrTile),
    let wr0 := t * wrTile
    let tileWr := min (wr0 + wrTile) nWr - wr0
    ∑ localWr ∈ Finset.range tileWr, ∑ jWl ∈ Finset.range nWl,
      tileProduct eqWl ra half wlLen wr0 tileWr localWr jWl k p * eqWr.getD (wr0 + localWr) 0

/-! ## The blocks of a tile -/

omit [Field F] in
/-- Product `k` of group `g` in block `idx` of a level. -/
theorem getD_level {blocks groups n idx g : Nat} [NeZero n]
    (products : Nat → Nat → Fin n → PartyID → F) (block : idx < blocks) (group : g < groups)
    (k : Fin n) (default : View F) :
    (level blocks groups n products).getD (idx * (groups * n) + g * n + k) default =
      .reshare (products idx g k) := by
  have inGroup : g * n + k < groups * n := by
    calc g * n + k < g * n + n := Nat.add_lt_add_left k.isLt _
      _ = (g + 1) * n := (Nat.succ_mul g n).symm
      _ ≤ groups * n := Nat.mul_le_mul_right n group
  have inBlock : idx * (groups * n) + (g * n + k) < blocks * (groups * n) := by
    calc idx * (groups * n) + (g * n + k) < idx * (groups * n) + groups * n :=
             Nat.add_lt_add_left inGroup _
      _ = (idx + 1) * (groups * n) := (Nat.succ_mul idx _).symm
      _ ≤ blocks * (groups * n) := Nat.mul_le_mul_right _ block
  have base : (idx * (groups * n) + (g * n + k)) % (groups * n) = g * n + k := by
    rw [Nat.mul_add_mod_self_right, Nat.mod_eq_of_lt inGroup]
  have index : (idx * (groups * n) + (g * n + k)) / (groups * n) = idx := by
    rw [Nat.add_comm, Nat.add_mul_div_right _ _ (Nat.zero_lt_of_lt inGroup),
      Nat.div_eq_of_lt inGroup, Nat.zero_add]
  have part : (g * n + k) / n = g := by
    rw [Nat.add_comm, Nat.add_mul_div_right _ _ (Nat.zero_lt_of_lt k.isLt), Nat.div_eq_of_lt k.isLt,
      Nat.zero_add]
  have place : Fin.ofNat n (g * n + k) = k := by
    apply Fin.ext
    rw [Fin.val_ofNat, Nat.mul_add_mod_self_right, Nat.mod_eq_of_lt k.isLt]
  rw [Nat.add_assoc, level, List.getD_eq_getElem?_getD, List.getElem?_map,
    List.getElem?_range inBlock]
  simp only [Option.map_some, Option.getD_some, base, index, part, place]

/-- A block of a later level is computed from the block at the same place alone. -/
theorem getD_nextLevel {blocks m n idx : Nat} [NeZero n] (groups : Nat)
    (evalInter : (Fin m → View F) → (Fin m → View F) → Fin n → PartyID → F)
    {previous : List (View F)} {parts : Fin (2 * groups) → Fin m → View F} (block : idx < blocks)
    (holds : ∀ (t : Fin (2 * groups)) (k : Fin m),
      previous.getD (idx * (2 * groups * m) + t * m + k) 0 = parts t k)
    (g : Fin groups) (k : Fin n) :
    (nextLevel blocks groups m n evalInter previous).getD (idx * (groups * n) + g * n + k) 0 =
      .reshare (evalInter (parts ⟨2 * g, by omega⟩) (parts ⟨2 * g + 1, by omega⟩) k) := by
  rw [nextLevel, getD_level _ block g.isLt]
  simp only [funext (holds ⟨2 * g, by omega⟩), funext (holds ⟨2 * g + 1, by omega⟩)]

/-- The buffers of a tile hold, block by block, the tree at the `j` of the block. -/
theorem tileProduct_eq {eqWl : List F} {wr0 tileWr localWr jWl : Nat} (ra : Fin 16 → Nat → View F)
    (half wlLen : Nat) (row : localWr < tileWr) (column : jWl < eqWl.length) :
    tileProduct eqWl ra half wlLen wr0 tileWr localWr jWl =
      productBlock (weightedPairs (eqWl.getD jWl 0) ra half (jWl + (wr0 + localWr) <<< wlLen)) := by
  have block : localWr * eqWl.length + jWl < tileWr * eqWl.length := by
    calc localWr * eqWl.length + jWl < (localWr + 1) * eqWl.length := by rw [Nat.succ_mul]; omega
      _ ≤ tileWr * eqWl.length := Nat.mul_le_mul_right _ row
  have low : (localWr * eqWl.length + jWl) % eqWl.length = jWl := by
    rw [Nat.mul_add_mod_self_right, Nat.mod_eq_of_lt column]
  have high : (localWr * eqWl.length + jWl) / eqWl.length = localWr := by
    rw [Nat.add_comm, Nat.add_mul_div_right _ _ (Nat.zero_lt_of_lt column), Nat.div_eq_of_lt column,
      Nat.zero_add]
  have start : localWr * eqWl.length * (2 * 9) + jWl * (2 * 9) =
      (localWr * eqWl.length + jWl) * (2 * 9) := (Nat.add_mul _ _ _).symm
  generalize places : wr0 + localWr = jWr
  have one : ∀ (t : Fin 8) (k : Fin 3), (level1 eqWl ra half wlLen wr0 tileWr).getD
      ((localWr * eqWl.length + jWl) * (8 * 3) + t * 3 + k) 0 =
        let pairs := weightedPairs (eqWl.getD jWl 0) ra half (jWl + jWr <<< wlLen)
        .reshare (evalInter2 (pairs ⟨2 * t, by omega⟩) (pairs ⟨2 * t + 1, by omega⟩) k) := by
    intro t k
    have left : Fin.ofNat 16 (2 * t) = ⟨2 * t, by omega⟩ := Fin.ext (Nat.mod_eq_of_lt (by omega))
    have right : Fin.ofNat 16 (2 * t + 1) = ⟨2 * t + 1, by omega⟩ :=
      Fin.ext (Nat.mod_eq_of_lt (by omega))
    rw [level1, getD_level _ block t.isLt]
    simp only [low, high, places, left, right]
  have three := getD_nextLevel 2 evalInter8 block (getD_nextLevel 4 evalInter4 block one)
  simp only [tileProduct, start]
  refine congrArg₂ evalInter16 (funext fun k => ?_) (funext fun k => ?_)
  · exact three 0 k
  · exact three 1 k

/-! ## The levels multiply -/

/-- The shares hold `P`, of degree at most `n`, by its values at `1, ..., m` and at infinity. -/
structure Samples (m n : Nat) (v : Fin (m + 1) → View F) (P : F[X]) : Prop where
  degree : P.natDegree ≤ n
  shares : ∀ k, SumShares (v k) (sample m n P k)

variable {P Q : F[X]} {m n : Nat} {x y : View F} {s t : F}

theorem Samples.product {v w : Fin (m + 1) → View F} (hp : Samples m n v P) (hq : Samples m n w Q) :
    Samples m (n + n) (fun k => .reshare (times (v k) (w k))) (P * Q) where
  degree := natDegree_mul_le.trans (Nat.add_le_add hp.degree hq.degree)
  shares k := ⟨replicated_reshare _, (total_localMul (hp.shares k) (hq.shares k)).trans
    (sample_mul hp.degree hq.degree k).symm⟩

noncomputable def line (s t : F) : F[X] := (1 - X) * C s + X * C t

theorem samples_line (hx : SumShares x s) (hy : SumShares y t) :
    Samples 2 1 ![y, y - x + y, y - x] (line s t) := by
  have linear : line s t = C (t - s) * X + C s := by
    simp only [line, C_sub]
    ring
  have slope := hy.sub hx
  have first : valueAt (line s t) 0 = t := by simp [valueAt, line]
  have second : valueAt (line s t) 1 = t - s + t := by
    simp [valueAt, linear]
    ring
  have inf : (line s t).coeff 1 = t - s := by simp [linear]
  refine ⟨linear ▸ natDegree_linear_le, fun k => ?_⟩
  fin_cases k
  · exact hy.congr first.symm
  · exact (slope.add hy).congr second.symm
  · exact slope.congr inf.symm

theorem Samples.extrapolate3To5 {v : Fin 3 → View F} (h : Samples 2 2 v P) :
    Samples 4 2 (extrapolate3To5 v) P := by
  have inf : SumShares (v 2) (P.coeff 2) := h.shares 2
  have step : ∀ {x y : View F} (i : Nat), SumShares x (valueAt P i) →
    SumShares y (valueAt P (i + 1)) →
      SumShares (ex2 x y (v 2)) (valueAt P (i + 2)) := by
    intro x y i hx hy
    rw [valueAt_add2 h.degree, two_mul]
    exact ((hy.add inf).add (hy.add inf)).sub hx
  have at3 := step 0 (h.shares 0) (h.shares 1)
  refine ⟨h.degree, fun k => ?_⟩
  fin_cases k
  · exact h.shares 0
  · exact h.shares 1
  · exact at3
  · exact step 1 (h.shares 1) at3
  · exact inf

/-- Degree 4 is fixed by five values: the four new ones come from fourth differences. -/
theorem Samples.extrapolate5To9 {v : Fin 5 → View F} (h : Samples 4 4 v P) :
    Samples 8 4 (extrapolate5To9 v) P := by
  have inf : SumShares ((6 : F) • v 4) (6 * P.coeff 4) := SumShares.smul (h.shares 4) 6
  have step : ∀ {f0 f1 f2 f3 : View F} (i : Nat), SumShares f0 (valueAt P i) →
    SumShares f1 (valueAt P (i + 1)) →
      SumShares f2 (valueAt P (i + 2)) → SumShares f3 (valueAt P (i + 3)) →
      SumShares (ex4Two f0 f1 f2 f3 ((6 : F) • v 4)).1 (valueAt P (i + 4)) ∧
        SumShares (ex4Two f0 f1 f2 f3 ((6 : F) • v 4)).2 (valueAt P (i + 5)) := by
    intro f0 f1 f2 f3 i h0 h1 h2 h3
    have f4 := (inf.add (h3.sub h2)).add h1
    have f4 := (f4.add f4).sub h2
    have f4 := (f4.add f4).sub h0
    have f5 := (f4.sub (h3.sub h2)).add inf
    have f5 := (f5.add f5).sub h3
    have f5 := (f5.add f5).sub h1
    have next := valueAt_add4 h.degree i
    have after := valueAt_add4 h.degree (i + 1)
    constructor
    · exact f4.congr (by linear_combination -next)
    · exact f5.congr (by linear_combination -after - 4 * next)
  obtain ⟨at5, at6⟩ := step 0 (h.shares 0) (h.shares 1) (h.shares 2) (h.shares 3)
  obtain ⟨at7, at8⟩ := step 2 (h.shares 2) (h.shares 3) at5 at6
  refine ⟨h.degree, fun k => ?_⟩
  fin_cases k
  · exact h.shares 0
  · exact h.shares 1
  · exact h.shares 2
  · exact h.shares 3
  · exact at5
  · exact at6
  · exact at7
  · exact at8
  · exact h.shares 4

/-- The loop has the values up to the place it has come to. -/
theorem Samples.loop {v : Fin 9 → View F} (h : Samples 8 8 v P) (i : Nat) :
    ∀ k < 8 + i, SumShares (extrapolateLoop v i k) (valueAt P k) := by
  induction i with
  | zero =>
    intro k inside
    have share := h.shares ⟨k, by omega⟩
    rw [sample, if_pos inside] at share
    have start : extrapolateLoop v 0 k = v ⟨k, by omega⟩ := dif_pos inside
    rwa [start]
  | succ i ih =>
    intro k inside
    by_cases here : k = 8 + i
    · have step : extrapolateLoop v (i + 1) k =
          ex8 (fun e => extrapolateLoop v i (i + e)) ((40320 : F) • v 8) := if_pos here
      have at_ := fun e (small : e < 8) => ih (i + e) (by omega)
      have inf : SumShares ((40320 : F) • v 8) (40320 * P.coeff 8) :=
        SumShares.smul (h.shares 8) 40320
      rw [step, here, add_comm 8 i, valueAt_add8 h.degree]
      exact (((((at_ 1 (by decide)).add (at_ 7 (by decide))).smul 8).add
        (((at_ 3 (by decide)).add (at_ 5 (by decide))).smul 56)).add inf).sub
          (((((at_ 2 (by decide)).add (at_ 6 (by decide))).smul 28).add
            ((at_ 4 (by decide)).smul 70)).add
            (at_ 0 (by decide)))
    · rw [show extrapolateLoop v (i + 1) k = extrapolateLoop v i k from if_neg here]
      exact ih k (by omega)

theorem Samples.extrapolate9To16 {v : Fin 9 → View F} (h : Samples 8 8 v P) :
    Samples 15 8 (extrapolate9To16 v) P := by
  refine ⟨h.degree, fun k => ?_⟩
  unfold Poly.extrapolate9To16 sample
  split
  · rename_i last
    rw [if_neg (by rw [last]; decide)]
    exact h.shares 8
  · rw [if_pos (by omega)]
    exact h.loop 7 k (by omega)

/-- The tree multiplies the sixteen lines. -/
theorem productBlock_total {pairs : Fin 16 → View F × View F} {u w : Fin 16 → F}
    (left : ∀ i, SumShares (pairs i).1 (u i)) (right : ∀ i, SumShares (pairs i).2 (w i))
    (k : Fin 16) :
    total (productBlock pairs k) = sample 15 16 (∏ i, line (u i) (w i)) k := by
  have level1 : ∀ i j, Samples 2 2 (fun k => .reshare (evalInter2 (pairs i) (pairs j) k))
      (line (u i) (w i) * line (u j) (w j)) :=
    fun i j => (samples_line (left i) (right i)).product (samples_line (left j) (right j))
  have level2 : ∀ {a b : Fin 3 → View F} {P Q : F[X]}, Samples 2 2 a P → Samples 2 2 b Q →
      Samples 4 4 (fun k => .reshare (evalInter4 a b k)) (P * Q) :=
    fun ha hb => ha.extrapolate3To5.product hb.extrapolate3To5
  have level3 : ∀ {a b : Fin 5 → View F} {P Q : F[X]}, Samples 4 4 a P → Samples 4 4 b Q →
      Samples 8 8 (fun k => .reshare (evalInter8 a b k)) (P * Q) :=
    fun ha hb => ha.extrapolate5To9.product hb.extrapolate5To9
  have low := level3 (level2 (level1 0 1) (level1 2 3)) (level2 (level1 4 5) (level1 6 7))
  have high := level3 (level2 (level1 8 9) (level1 10 11)) (level2 (level1 12 13) (level1 14 15))
  have product := (low.extrapolate9To16.product high.extrapolate9To16).shares k
  refine product.opens.trans (congrArg (sample 15 16 · k) ?_)
  simp only [Fin.prod_univ_succ, Fin.prod_univ_zero, mul_one, Fin.reduceSucc, mul_assoc]

/-- The weight of the first line is a factor of the product. -/
theorem weightedPairs_total {ra : Fin 16 → Nat → View F} {v : Fin 16 → Nat → F} {half j : Nat}
    (shares : ∀ i, ∀ j < 2 * half, SumShares (ra i j) (v i j)) (inside : j < half) (c : F)
    (k : Fin 16) :
    total (productBlock (weightedPairs c ra half j) k) =
      c * sample 15 16 (∏ i, line (v i j) (v i (j + half))) k := by
  have scaled : ∀ s t : F, line (c * s) (c * t) = C c * line s t := by
    intro s t
    simp only [line, C_mul]
    ring
  have weights : ∏ i : Fin 16, line (if i = 0 then c * v i j else v i j)
      (if i = 0 then c * v i (j + half) else v i (j + half)) = C c * ∏ i,
        line (v i j) (v i (j + half)) := by
    conv_rhs => rw [Fin.prod_univ_succ, ← mul_assoc, ← scaled]
    rw [Fin.prod_univ_succ]
    simp
  rw [← sample_C_mul, ← weights]
  unfold weightedPairs
  refine productBlock_total (fun i => ?_) (fun i => ?_) k
  · have left := shares i j (by omega)
    split
    · exact left.smul c
    · exact left
  · have right := shares i (j + half) (by omega)
    split
    · exact right.smul c
    · exact right

end Levels

variable {F : Type} [Field F]

/-- The parties' outputs add up to the values at 1, ..., 15 and at infinity of the weighted sum
of the products, whatever the tile size. -/
theorem mles_product_16_exact (tile : Option Nat) {eqWl eqWr : List F} {wlLen half : Nat}
    (wide : eqWl.length = 2 ^ wlLen) (size : half = eqWl.length * eqWr.length)
    {ra : Fin 16 → Nat → View F} {v : Fin 16 → Nat → F}
    (shares : ∀ i, ∀ j < 2 * half, SumShares (ra i j) (v i j)) (k : Fin 16) :
    total (computeMlesProduct16 tile eqWl eqWr ra half wlLen k) =
      sample 15 16 (∑ j ∈ Finset.range half,
        C (eqWl.getD (j % 2 ^ wlLen) 0 * eqWr.getD (j / 2 ^ wlLen) 0) *
        ∏ i, ((1 - X) * C (v i j) + X * C (v i (j + half)))) k := by
  have entry : ∀ jWl < 2 ^ wlLen, ∀ jWr < eqWr.length, ∀ j, j = jWr * 2 ^ wlLen + jWl →
      total (fun p => productBlock (weightedPairs (eqWl.getD jWl 0) ra half (jWl + jWr <<< wlLen))
        k p * eqWr.getD jWr 0) =
        sample 15 16 (C (eqWl.getD (j % 2 ^ wlLen) 0 * eqWr.getD (j / 2 ^ wlLen) 0) *
          ∏ i, line (v i j) (v i (j + half))) k := by
    rintro jWl column jWr row j place
    have inside : j < half := by
      have whole := Nat.mul_le_mul_right (2 ^ wlLen) (Nat.succ_le_of_lt row)
      rw [Nat.succ_mul] at whole
      rw [size, wide, Nat.mul_comm (2 ^ wlLen)]
      omega
    have low : j % 2 ^ wlLen = jWl := by
      rw [place, Nat.mul_add_mod_self_right, Nat.mod_eq_of_lt column]
    have high : j / 2 ^ wlLen = jWr := by
      rw [place, Nat.add_comm, Nat.add_mul_div_right _ _ (Nat.two_pow_pos _),
        Nat.div_eq_of_lt column, Nat.zero_add]
    rw [Nat.shiftLeft_eq, Nat.add_comm jWl, ← place, low, high, sample_C_mul, mul_right_comm,
      ← weightedPairs_total shares inside]
    simp only [total, add_mul]
  have positive : 0 < wrTileSize tile eqWl.length eqWr.length := by
    unfold wrTileSize
    split <;> omega
  show total (fun p => computeMlesProduct16 tile eqWl eqWr ra half wlLen k p) = _
  simp only [computeMlesProduct16]
  generalize wrTileSize tile eqWl.length eqWr.length = wrTile at positive
  have range : Finset.range half = Finset.range (eqWr.length * 2 ^ wlLen) := by
    rw [size, wide, Nat.mul_comm]
  rw [sample_sum, range, sum_blocks, ← sum_chunks positive]
  simp only [total_sum, wide]
  refine sum_congr rfl fun t _ => sum_congr (congrArg _ (by omega)) fun l inTile => ?_
  have row : t * wrTile + l < eqWr.length := by
    have := mem_range.mp inTile
    omega
  refine sum_congr rfl fun jWl inRow => ?_
  have column := mem_range.mp inRow
  rw [tileProduct_eq ra half wlLen (by have := mem_range.mp inTile; omega) (wide ▸ column)]
  exact entry jWl column _ row _ rfl

/-- Two columns and two rows, over lines of value `i + j + 1` at `j` shared among the parties. -/
theorem mles_product_16_exact_slopes :
    let eqWl : List ℚ := [1, 2]
    let eqWr : List ℚ := [3, 5]
    let ra (i : Fin 16) (j : Nat) : View ℚ := .reshare fun
      | .ID0 => j
      | .ID1 => (i : Nat)
      | .ID2 => 1
    total (computeMlesProduct16 none eqWl eqWr ra 4 1 7) =
      sample 15 16 (∑ j ∈ Finset.range 4, C (eqWl.getD (j % 2 ^ 1) 0 * eqWr.getD (j / 2 ^ 1) 0) *
        ∏ i : Fin 16,
          ((1 - X) * C (j + (i : Nat) + 1 : ℚ) + X * C ((j + 4 : Nat) + (i : Nat) + 1 : ℚ))) 7 := by
  intro eqWl eqWr ra
  have wide : eqWl.length = 2 ^ 1 := rfl
  have size : 4 = eqWl.length * eqWr.length := rfl
  have shares : ∀ i, ∀ j < 2 * 4, SumShares (ra i j) (j + (i : Nat) + 1) :=
    fun i j _ => ⟨replicated_reshare _, rfl⟩
  exact mles_product_16_exact none wide size shares 7

end ProviaVM.Poly
