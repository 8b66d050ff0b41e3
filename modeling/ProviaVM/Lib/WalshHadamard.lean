import Mathlib.Algebra.Module.BigOperators
import Mathlib.Data.Nat.Bitwise
import Mathlib.Tactic.Abel
import ProviaVM.Lib.Numerals

/-! # The Walsh-Hadamard transform

`transform k a i` is the sum of `a 0, …, a (2 ^ k - 1)`, each with the sign of the common
bits of its index and of `i`. It turns the XOR convolution into a product, and two of them
are a multiplication by `2 ^ k`.

`inPlace k` is the recursive algorithm on lists: transform both halves, then add and
subtract them. `mapBlocks` applies an operation to consecutive blocks of a list; a pass
over larger blocks after one over smaller blocks is again a pass (`mapBlocks_comp`). -/
namespace WalshHadamard
open Finset Nat

section Sign

/-- Minus one for each of the low `k` bits that both numbers have. -/
def sign : Nat → Nat → Nat → ℤ
  | 0, _, _ => 1
  | k + 1, i, j => sign k i j * if i.testBit k && j.testBit k then -1 else 1

theorem sign_comm (k i j : Nat) : sign k i j = sign k j i := by
  induction k with
  | zero => rfl
  | succ k ih => rw [sign, sign, ih, Bool.and_comm]

theorem sign_xor (k i i' j : Nat) : sign k (i ^^^ i') j = sign k i j * sign k i' j := by
  induction k with
  | zero => rfl
  | succ k ih =>
    rw [sign, sign, sign, ih, testBit_xor]
    cases i.testBit k <;> cases i'.testBit k <;> cases j.testBit k <;> simp

theorem sign_xor_right (k i j j' : Nat) : sign k i (j ^^^ j') = sign k i j * sign k i j' := by
  rw [sign_comm, sign_xor, sign_comm k j, sign_comm k j']

variable {k : Nat}

theorem sign_low {i : Nat} (low : i < 2 ^ k) (j : Nat) : sign (k + 1) i j = sign k i j := by
  rw [sign, Nat.testBit_lt_two_pow low]
  simp

theorem sign_two_pow_add (k n i j : Nat) (below : k ≤ n) : sign k (2 ^ n + i) j = sign k i j := by
  induction k with
  | zero => rfl
  | succ k ih => rw [sign, sign, ih (by omega), testBit_two_pow_add_gt (by omega)]

theorem sign_high {i : Nat} (low : i < 2 ^ k) (j : Nat) :
    sign (k + 1) (2 ^ k + i) j = sign k i j * if j.testBit k then -1 else 1 := by
  rw [sign, sign_two_pow_add k k i j le_rfl, testBit_two_pow_add_eq, Nat.testBit_lt_two_pow low]
  simp

/-- The sum over the two halves of the indices. -/
theorem sum_range_two_pow_succ {M : Type*} [AddCommMonoid M] (k : Nat) (f : Nat → M) :
    ∑ c ∈ range (2 ^ (k + 1)), f c = ∑ c ∈ range (2 ^ k), f c + ∑ c ∈ range (2 ^ k),
      f (2 ^ k + c) := by
  rw [pow_succ, mul_two, sum_range_add]

/-- The characters are orthogonal. -/
theorem sum_sign {d : Nat} (inside : d < 2 ^ k) :
    ∑ c ∈ range (2 ^ k), sign k c d = if d = 0 then 2 ^ k else 0 := by
  induction k generalizing d with
  | zero =>
    obtain rfl : d = 0 := by omega
    simp [sign]
  | succ k ih =>
    have low : ∑ c ∈ range (2 ^ k), sign (k + 1) c d = ∑ c ∈ range (2 ^ k), sign k c d :=
      sum_congr rfl fun c small => sign_low (mem_range.mp small) d
    have high : ∑ c ∈ range (2 ^ k), sign (k + 1) (2 ^ k + c) d =
        (∑ c ∈ range (2 ^ k), sign k c d) * if d.testBit k then -1 else 1 := by
      rw [sum_mul]
      exact sum_congr rfl fun c small => sign_high (mem_range.mp small) d
    rw [sum_range_two_pow_succ, low, high]
    by_cases top : d.testBit k = true
    · have nonzero : d ≠ 0 := by
        rintro rfl
        simp at top
      simp [top, nonzero]
    · have below : d < 2 ^ k := by
        refine lt_pow_two_of_testBit d fun i above => ?_
        rcases Nat.eq_or_lt_of_le above with rfl | above
        · simpa using top
        · exact Nat.testBit_lt_two_pow
            (lt_of_lt_of_le inside (Nat.pow_le_pow_right (by omega) above))
      rw [ih below]
      split <;> ring

/-- The bits of a block and those of a place in it. -/
theorem sign_append (k l : Nat) {c r : Nat} (cIn : c < 2 ^ l) (rIn : r < 2 ^ l) (c' r' : Nat) :
    sign (l + k) (c' * 2 ^ l + c) (r' * 2 ^ l + r) = sign k c' r' * sign l c r := by
  have place : ∀ (n : Nat) {a : Nat}, a < 2 ^ l →
      ∀ b, (n * 2 ^ l + a).testBit (l + b) = n.testBit b := by
    intro n a inside b
    rw [Nat.mul_comm, testBit_two_pow_mul_add _ inside, if_neg (by omega), Nat.add_sub_cancel_left]
  induction k with
  | zero =>
    rw [sign, one_mul]
    suffices ∀ n ≤ l, sign n (c' * 2 ^ l + c) (r' * 2 ^ l + r) = sign n c r from this l le_rfl
    intro n below
    induction n with
    | zero => rfl
    | succ n ih =>
      have low : n < l := by omega
      rw [sign, sign, ih (by omega), Nat.mul_comm c', Nat.mul_comm r',
        testBit_two_pow_mul_add _ cIn, testBit_two_pow_mul_add _ rIn, if_pos low, if_pos low]
  | succ k ih =>
    rw [← Nat.add_assoc, sign, sign, ih, place c' cIn, place r' rIn]
    ring

end Sign

section Transform

variable {G : Type*} [AddCommGroup G]

/-- The transform of the first `2 ^ k` values of a sequence. -/
def transform (k : Nat) (a : Nat → G) (i : Nat) : G := ∑ j ∈ range (2 ^ k), sign k i j • a j

variable {k : Nat} {R : Type*} {i : Nat}

theorem transform_congr {a b : Nat → G} (same : ∀ j < 2 ^ k, a j = b j) (i : Nat) :
    transform k a i = transform k b i :=
  sum_congr rfl fun j inside => by rw [same j (mem_range.mp inside)]

theorem transform_add (k : Nat) (a b : Nat → G) (i : Nat) :
    transform k (fun j => a j + b j) i = transform k a i + transform k b i := by
  simp only [transform, smul_add, sum_add_distrib]

theorem transform_smul [CommRing R] [Module R G] (k : Nat) (r : R) (a : Nat → G) (i : Nat) :
    transform k (fun j => r • a j) i = r • transform k a i := by
  simp only [transform, smul_comm _ r, ← smul_sum]

theorem transform_low (low : i < 2 ^ k) (a : Nat → G) :
    transform (k + 1) a i = transform k a i + transform k (fun j => a (2 ^ k + j)) i := by
  rw [transform, sum_range_two_pow_succ]
  refine congrArg₂ (· + ·) (sum_congr rfl fun j _ => ?_) (sum_congr rfl fun j _ => ?_)
  · rw [sign_low low]
  · rw [sign_low low, sign_comm, sign_two_pow_add k k j i le_rfl, sign_comm]

theorem transform_high (low : i < 2 ^ k) (a : Nat → G) :
    transform (k + 1) a (2 ^ k + i) = transform k a i - transform k (fun j => a (2 ^ k + j)) i := by
  rw [transform, sum_range_two_pow_succ, sub_eq_add_neg, transform, transform, ← sum_neg_distrib]
  refine congrArg₂ (· + ·) (sum_congr rfl fun j inside => ?_) (sum_congr rfl fun j inside => ?_)
  · rw [sign_high low, Nat.testBit_lt_two_pow (mem_range.mp inside)]
    simp
  · rw [sign_high low, testBit_two_pow_add_eq, Nat.testBit_lt_two_pow (mem_range.mp inside),
      sign_comm, sign_two_pow_add k k j i le_rfl, sign_comm]
    simp

/-- The transform of a one-hot sequence is a character. -/
theorem transform_oneHot [CommRing R] {r : Nat} (inside : r < 2 ^ k) (i : Nat) :
    transform k (fun j => if j = r then (1 : R) else 0) i = (sign k i r : R) := by
  rw [transform, sum_eq_single r]
  · simp
  · intro j _ other
    simp [other]
  · intro outside
    exact absurd (mem_range.mpr inside) outside

/-- The transform of a product of transforms is the XOR convolution, times the length. -/
theorem transform_mul [CommRing R] [Module R G] (inside : i < 2 ^ k) (g : Nat → R) (h : Nat → G) :
    transform k (fun c => transform k g c • transform k h c) i =
      (2 ^ k : R) • ∑ a ∈ range (2 ^ k), g a • h (i ^^^ a) := by
  have expand : ∀ c, sign k i c • transform k g c • transform k h c =
      ∑ a ∈ range (2 ^ k), ∑ b ∈ range (2 ^ k), sign k c (i ^^^ a ^^^ b) • g a • h b := by
    intro c
    rw [transform, transform, sum_smul, smul_sum]
    refine sum_congr rfl fun a _ => ?_
    rw [smul_sum, smul_sum]
    refine sum_congr rfl fun b _ => ?_
    rw [sign_xor_right, sign_xor_right, sign_comm k c i, smul_assoc, smul_comm (g a),
      mul_smul, mul_smul]
  calc transform k (fun c => transform k g c • transform k h c) i
      = ∑ c ∈ range (2 ^ k), ∑ a ∈ range (2 ^ k), ∑ b ∈ range (2 ^ k),
        sign k c (i ^^^ a ^^^ b) • g a • h b :=
        sum_congr rfl fun c _ => expand c
    _ = ∑ a ∈ range (2 ^ k), ∑ b ∈ range (2 ^ k), ∑ c ∈ range (2 ^ k),
      sign k c (i ^^^ a ^^^ b) • g a • h b := by
        rw [sum_comm]
        exact sum_congr rfl fun a _ => sum_comm
    _ = ∑ a ∈ range (2 ^ k), (2 ^ k : ℤ) • g a • h (i ^^^ a) := by
        refine sum_congr rfl fun a aIn => ?_
        have shifted : i ^^^ a < 2 ^ k := Nat.xor_lt_two_pow inside (mem_range.mp aIn)
        -- only the index `i ^^^ a` survives
        rw [sum_eq_single (i ^^^ a)]
        · rw [← sum_smul, Nat.xor_self, sum_sign (Nat.two_pow_pos k), if_pos rfl]
        · intro b bIn other
          have different : i ^^^ a ^^^ b ≠ 0 := fun zero => other (Nat.xor_eq_zero_iff.mp zero).symm
          rw [← sum_smul, sum_sign (Nat.xor_lt_two_pow shifted (mem_range.mp bIn)),
            if_neg different, zero_smul]
        · intro outside
          exact absurd (mem_range.mpr shifted) outside
    _ = (2 ^ k : R) • ∑ a ∈ range (2 ^ k), g a • h (i ^^^ a) := by
        rw [← smul_sum]
        norm_cast

/-- Convolution with a one-hot sequence moves the indices. -/
theorem sum_oneHot_smul [CommRing R] [Module R G] {r : Nat} (inside : r < 2 ^ k) (h : Nat → G)
    (i : Nat) :
    ∑ a ∈ range (2 ^ k), (if a = r then (1 : R) else 0) • h (i ^^^ a) = h (i ^^^ r) := by
  rw [sum_eq_single r]
  · simp
  · intro a _ other
    rw [if_neg other, zero_smul]
  · intro outside
    exact absurd (mem_range.mpr inside) outside

/-- Two transforms are a multiplication by the length. -/
theorem transform_transform (inside : i < 2 ^ k) (a : Nat → G) :
    transform k (transform k a) i = (2 ^ k : ℤ) • a i := by
  have sign_zero : ∀ k c, sign k c 0 = 1 := by
    intro k c
    induction k with
    | zero => rfl
    | succ k ih => simp [sign, ih]
  have ones : ∀ c, transform k (fun j => if j = 0 then (1 : ℤ) else 0) c = 1 := fun c => by
    rw [transform_oneHot (Nat.two_pow_pos k), sign_zero, Int.cast_one]
  have product := transform_mul inside (fun j => if j = 0 then (1 : ℤ) else 0) a
  simpa only [ones, one_smul, sum_oneHot_smul (Nat.two_pow_pos k), Nat.xor_zero] using product

end Transform

section Blocks

variable {α : Type*}

/-- Apply `f` to each of the first `count` blocks of the given size. -/
def mapBlocks (size : Nat) (f : List α → List α) : Nat → List α → List α
  | 0, l => l
  | count + 1, l => f (l.take size) ++ mapBlocks size f count (l.drop size)

variable {l : List α} {size : Nat}

theorem mapBlocks_one (f : List α → List α) (length : l.length = size) :
    mapBlocks size f 1 l = f l := by
  rw [mapBlocks, mapBlocks, List.take_of_length_le length.le, List.drop_of_length_le length.le,
    List.append_nil]

theorem length_mapBlocks {f : List α → List α} (same : ∀ b, b.length = size → (f b).length = size)
    (count : Nat) (length : l.length = count * size) :
    (mapBlocks size f count l).length = count * size := by
  induction count generalizing l with
  | zero => exact length
  | succ count ih =>
    rw [succ_mul] at length ⊢
    rw [mapBlocks, List.length_append, same _ (by simp; omega), ih (by simp; omega), Nat.add_comm]

theorem mapBlocks_add (size : Nat) (f : List α → List α) (m n : Nat) (l : List α)
    (long : m * size ≤ l.length) :
    mapBlocks size f (m + n) l = mapBlocks size f m (l.take (m * size)) ++
      mapBlocks size f n (l.drop (m * size)) := by
  induction m generalizing l with
  | zero => simp [mapBlocks]
  | succ m ih =>
    rw [succ_mul] at long
    have head : (l.take ((m + 1) * size)).take size = l.take size := by
      rw [List.take_take, succ_mul, Nat.min_eq_left (by omega)]
    have tail : (l.take ((m + 1) * size)).drop size = (l.drop size).take (m * size) := by
      rw [List.drop_take, succ_mul, Nat.add_sub_cancel]
    have rest : l.drop ((m + 1) * size) = (l.drop size).drop (m * size) := by
      rw [List.drop_drop, succ_mul, Nat.add_comm]
    rw [Nat.add_right_comm, mapBlocks, mapBlocks, head, tail, rest, ih _ (by simp; omega),
      List.append_assoc]

/-- An operation on blocks that starts with one on its parts is a pass over the parts, then one over
the blocks. -/
theorem mapBlocks_comp {m : Nat} {f g h : List α → List α}
    (same : ∀ b, b.length = size → (h b).length = size)
    (split : ∀ b, b.length = m * size → f b = g (mapBlocks size h m b)) (count : Nat)
    (length : l.length = count * (m * size)) :
    mapBlocks (m * size) f count l =
      mapBlocks (m * size) g count (mapBlocks size h (count * m) l) := by
  induction count generalizing l with
  | zero => rw [zero_mul]; rfl
  | succ count ih =>
    rw [succ_mul] at length
    have block : (l.take (m * size)).length = m * size := by simp; omega
    have parts := length_mapBlocks same m block
    have inner : mapBlocks size h ((count + 1) * m) l =
        mapBlocks size h m (l.take (m * size)) ++
          mapBlocks size h (count * m) (l.drop (m * size)) := by
      rw [succ_mul, Nat.add_comm (count * m), mapBlocks_add _ _ _ _ _ (by omega)]
    rw [inner, mapBlocks, mapBlocks, List.take_left' parts, List.drop_left' parts, split _ block,
      ih (by simp; omega)]

end Blocks

section InPlace

variable {α : Type*} [Add α] [Sub α]

/-- One butterfly stage: sums of the halves, then differences. -/
def combine (len : Nat) (block : List α) : List α :=
  List.zipWith (· + ·) (block.take len) (block.drop len) ++
    List.zipWith (· - ·) (block.take len) (block.drop len)

theorem length_combine {len : Nat} {block : List α} (length : block.length = 2 * len) :
    (combine len block).length = 2 * len := by
  simp [combine]
  omega

/-- The transform of a list of length `2 ^ k`, half by half. -/
def inPlace : Nat → List α → List α
  | 0, l => l
  | k + 1, l => combine (2 ^ k) (inPlace k (l.take (2 ^ k)) ++ inPlace k (l.drop (2 ^ k)))

theorem length_inPlace {k : Nat} {l : List α} (length : l.length = 2 ^ k) :
    (inPlace k l).length = 2 ^ k := by
  induction k generalizing l with
  | zero => exact length
  | succ k ih =>
    rw [inPlace, length_combine, pow_succ, Nat.mul_comm]
    rw [List.length_append, ih (by simp; omega), ih (by simp; omega), Nat.two_mul]

/-- A stage after the blocks of half the size are transformed. -/
theorem inPlace_succ {k : Nat} {l : List α} (length : l.length = 2 * 2 ^ k) :
    inPlace (k + 1) l = combine (2 ^ k) (mapBlocks (2 ^ k) (inPlace k) 2 l) := by
  rw [inPlace, mapBlocks, mapBlocks_one]
  simp
  omega

/-- An additive map commutes with the transform. -/
theorem inPlace_map {β : Type*} [Add β] [Sub β] (f : α → β) (add : ∀ a b, f (a + b) = f a + f b)
    (sub : ∀ a b, f (a - b) = f a - f b) (k : Nat) (l : List α) :
    inPlace k (l.map f) = (inPlace k l).map f := by
  induction k generalizing l with
  | zero => rfl
  | succ k ih =>
    have stage :
        ∀ block : List α, combine (2 ^ k) (block.map f) = (combine (2 ^ k) block).map f := by
      intro block
      simp only [combine, ← List.map_take, ← List.map_drop, List.map_append, List.zipWith_map,
        List.map_zipWith, add, sub]
    rw [inPlace, inPlace, ← List.map_take, ← List.map_drop, ih, ih, ← List.map_append, stage]

end InPlace

/-- The recursive algorithm computes the transform. -/
theorem getD_inPlace {G : Type*} [AddCommGroup G] {k : Nat} {l : List G} (length : l.length = 2 ^ k)
    {i : Nat} (inside : i < 2 ^ k) : (inPlace k l).getD i 0 = transform k (l.getD · 0) i := by
  induction k generalizing l i with
  | zero =>
    obtain rfl : i = 0 := by omega
    simp [inPlace, transform, sign]
  | succ k ih =>
    have lowLength : (l.take (2 ^ k)).length = 2 ^ k := by simp; omega
    have highLength : (l.drop (2 ^ k)).length = 2 ^ k := by simp; omega
    have low : ∀ i < 2 ^ k, (inPlace k (l.take (2 ^ k))).getD i 0 = transform k (l.getD · 0) i := by
      intro i small
      rw [ih lowLength small]
      refine transform_congr (fun j inside => ?_) i
      simp [inside]
    have high : ∀ i < 2 ^ k, (inPlace k (l.drop (2 ^ k))).getD i 0 =
        transform k (fun j => l.getD (2 ^ k + j) 0) i := by
      intro i small
      rw [ih highLength small]
      refine transform_congr (fun j inside => ?_) i
      simp
    have first := length_inPlace lowLength
    have second := length_inPlace highLength
    have at_ : ∀ {l : List G} {i : Nat} (h : i < l.length), l[i]? = some (l.getD i 0) := fun h => by
      rw [List.getD_eq_getElem _ _ h, List.getElem?_eq_getElem h]
    rw [inPlace, combine, List.take_left' first, List.drop_left' first, List.getD_eq_getElem?_getD]
    rcases Nat.lt_or_ge i (2 ^ k) with small | large
    · rw [List.getElem?_append_left (by simp; omega), List.getElem?_zipWith, at_ (by omega),
        at_ (by omega), low i small, high i small, transform_low small]
      rfl
    · obtain ⟨j, rfl⟩ := Nat.exists_eq_add_of_le large
      have small : j < 2 ^ k := by omega
      rw [List.getElem?_append_right (by simp; omega), List.getElem?_zipWith]
      simp only [List.length_zipWith, first, second, Nat.min_self, Nat.add_sub_cancel_left]
      rw [at_ (by omega), at_ (by omega), low j small, high j small, transform_high small]
      rfl

end WalshHadamard
