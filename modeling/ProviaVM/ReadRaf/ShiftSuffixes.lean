import ProviaVM.ReadRaf.LookupTables
import ProviaVM.Sumcheck.Batched

/-! # The suffixes of the shift and rotate tables

`jolt-core/src/utils/lookup_bits.rs` and the shift suffixes of
`jolt-core/src/zkvm/lookup_table/suffixes` on one side, the shift arms of
`eval_suffix_uninterleaved` (`provia-worker/src/zkvm/suffixes/mod.rs`) on the other, for a
cycle whose left operand is shared and whose right operand, the bitmask, is public. The
plaintext side works in `u64` and counts leading ones from the top of the operand; the
shared side works in `T::Half`, the ring of the phase. -/
namespace ProviaVM.ReadRaf
open Instruction Rep3 Preprocessing Sumcheck BitVec ParallelPrefix

/-! ## The plaintext suffixes -/

structure LookupBits where
  bits : BitVec 128
  len : Nat
  deriving DecidableEq, Repr

namespace LookupBits

def new (bits : BitVec 128) (len : Nat) : LookupBits :=
  ⟨if len < 128 then bits % (1#128 <<< len) else bits, len⟩

def uninterleave (b : LookupBits) : LookupBits × LookupBits :=
  let (xBits, yBits) := uninterleaveBits b.bits
  let x := new (xBits.setWidth 128) (b.len / 2)
  let y := new (yBits.setWidth 128) (b.len - x.len)
  (x, y)

def trailingZeros (b : LookupBits) : Nat := min b.bits.ctz.toNat b.len

/-- `wrapping_shl` takes the shift modulo the width. -/
def leadingOnes (b : LookupBits) : Nat := (~~~(b.bits <<< ((128 - b.len) % 128))).clz.toNat

def toU64 (b : LookupBits) : BitVec 64 := b.bits.setWidth 64

def toU32 (b : LookupBits) : BitVec 32 := b.bits.setWidth 32

end LookupBits

def powerU64 (n : Nat) : BitVec 64 := 1#64 <<< (n % 64)

/-- `Suffixes::suffix_mle` for the suffixes of the shift tables. -/
def suffixMle (x : Xlen) (b : LookupBits) : Suffixes → Option (BitVec 64)
  | .RightShift =>
    let (l, r) := b.uninterleave
    some (l.toU64 >>> r.trailingZeros)
  | .RightShiftHelper =>
    let (_, r) := b.uninterleave
    some (powerU64 r.leadingOnes)
  | .LeftShift =>
    let (l, r) := b.uninterleave
    some ((l.toU64 &&& ~~~r.toU64) <<< r.leadingOnes)
  | .RightShiftW =>
    let (l, r) := b.uninterleave
    some ((l.toU64.setWidth 32 >>> min r.trailingZeros (x.bits / 2)).setWidth 64)
  | .RightShiftWHelper =>
    let (_, r) := b.uninterleave
    let r := LookupBits.new r.bits (min r.len (x.bits / 2))
    some (powerU64 r.leadingOnes)
  | .LeftShiftW =>
    let (l, r) := b.uninterleave
    let r := LookupBits.new r.bits (min r.len (x.bits / 2))
    some (((l.toU64.setWidth 32 &&& ~~~r.toU32) <<< r.leadingOnes).setWidth 64)
  | .SignExtension =>
    let (_, r) := b.uninterleave
    let paddingLen := min r.toU64.ctz.toNat r.len
    some (BitVec.ofNat 64 (2 ^ x.bits - 2 ^ (x.bits - paddingLen)))
  | _ => none

/-! ## The shared suffixes -/

/-- An entry of `SuffixFutureBatch`: a finished public value, or a word still to be converted. -/
inductive SuffixFuture (F : Type) (K : Nat) where
  | ready (v : F)
  | b2aRing (x : View (BitVec K))

/-- `fulfill_with_pool` on one entry. -/
def SuffixFuture.fulfill {F : Type} [CommRing F] {K : Nat} : SuffixFuture F K → Mpc F (Rep3Value F)
  | .ready v => pure (.pub v)
  | .b2aRing x => do
    let field ← r2fB2aPreproc x
    return .shared field

/-- `T::Half::try_from` of every component; `none` is the `unreachable!`. -/
def tryIntoHalf (H : Nat) (x : View (BitVec 32)) : Option (View (BitVec H)) :=
  let fits (p : PartyID) : Bool := (x p).a.toNat < 2 ^ H && (x p).b.toNat < 2 ^ H
  if fits .ID0 && fits .ID1 && fits .ID2 then some (x.map (BitVec.setWidth H)) else none

def computeSignExtensionFromMask (x : Xlen) (mask : BitVec 64) (suffixLen : Nat) : BitVec 64 :=
  let yLen := suffixLen / 2
  let yLow := if 64 ≤ yLen then mask else mask &&& (1#64 <<< yLen - 1)
  let paddingLen := min yLow.ctz.toNat yLen
  if paddingLen = 0 then 0 else BitVec.ofNat 64 (2 ^ x.bits - 2 ^ (x.bits - paddingLen))

section Shared

variable {F : Type} [CommRing F]

/-- The shift arms of `eval_suffix_uninterleaved`, for one cycle: `l` is the shared left operand,
`yp` the public right operand. -/
def evalShiftSuffix (x : Xlen) (t : Uninterleavable) (suffixLen : Nat)
    (l : View (BitVec t.half.width)) (yp : BitVec 64) :
    Suffixes → Option (SuffixFuture F t.half.width)
  | .RightShift =>
    let shift := (yp.setWidth 128).ctz.toNat
    some (.b2aRing (l.map fun a : BitVec _ => a >>> shift))
  | .RightShiftHelper =>
    let lo := (LookupBits.new (yp.setWidth 128) (suffixLen / 2)).leadingOnes
    some (.ready ((powerU64 lo).toNat : F))
  | .LeftShift =>
    let yMask := yp.setWidth t.half.width
    let masked := l.map (· &&& ~~~yMask)
    let shift := (LookupBits.new (yp.setWidth 128) (suffixLen / 2)).leadingOnes
    some (.b2aRing (masked.map fun a : BitVec _ => a <<< shift))
  | .RightShiftW => do
    let x32 := l.map (BitVec.setWidth 32)
    let shift := min (yp.setWidth 128).ctz.toNat (x.bits / 2)
    let shifted ← tryIntoHalf t.half.width (x32.map fun a : BitVec 32 => a >>> shift)
    return .b2aRing shifted
  | .RightShiftWHelper =>
    let yBits := min (suffixLen / 2) (x.bits / 2)
    let lo := (LookupBits.new (yp.setWidth 128) yBits).leadingOnes
    some (.ready ((powerU64 lo).toNat : F))
  | .LeftShiftW => do
    let halfXlen := x.bits / 2
    let yTruncated := yp &&& (1#64 <<< halfXlen - 1)
    let x32 := l.map (BitVec.setWidth 32)
    let masked := x32.map (· &&& ~~~(yTruncated.setWidth 32))
    let lo := (LookupBits.new (yTruncated.setWidth 128) halfXlen).leadingOnes
    let shifted ← tryIntoHalf t.half.width (masked.map fun a : BitVec 32 => a <<< lo)
    return .b2aRing shifted
  | .SignExtension => some (.ready ((computeSignExtensionFromMask x yp suffixLen).toNat : F))
  | _ => none

end Shared

/-! ## Operands of a phase -/

/-- A right shift by more than the length of the word gives what a shift by the length gives. -/
theorem shiftRight_min {v n k : Nat} (small : v < 2 ^ n) : v >>> min k n = v >>> k := by
  rcases Nat.le_total k n with le | le
  · rw [Nat.min_eq_left le]
  · have zero : ∀ m, n ≤ m → v >>> m = 0 := fun m long =>
      Nat.shiftRight_eq_zero _ _ (small.trans_le (Nat.pow_le_pow_right (by decide) long))
    rw [zero _ (by omega), zero _ le]

/-- Bits of `a` are dropped where the mask is set, so what is left lies below the ones at the top of
the mask. -/
theorem andNot_lt {w n k : Nat} {a m : BitVec w} (small : a.toNat < 2 ^ n)
    (ones : ∀ i, k ≤ i → i < n → m.getLsbD i = true) : (a &&& ~~~m).toNat < 2 ^ k := by
  refine Nat.lt_pow_two_of_testBit _ fun i high => ?_
  rw [testBit_toNat, getLsbD_and]
  by_cases inside : i < n
  · simp [ones i high inside]
  · have zero : a.getLsbD i = false :=
      Nat.testBit_lt_two_pow (small.trans_le (Nat.pow_le_pow_right (by decide) (by omega)))
    simp [zero]

namespace LookupBits

theorem new_toNat {bits : BitVec 128} {len : Nat} (small : len < 128) :
    (new bits len).bits.toNat = bits.toNat % 2 ^ len := by
  have one : (1#128).toNat = 1 := rfl
  have power : (1#128 <<< len).toNat = 2 ^ len := by
    rw [toNat_shiftLeft, one, Nat.one_shiftLeft,
      Nat.mod_eq_of_lt (Nat.pow_lt_pow_right (by decide) small)]
  rw [new, if_pos small, toNat_umod, power]

theorem new_of_lt {bits : BitVec 128} {len : Nat} (small : len < 128)
    (fits : bits.toNat < 2 ^ len) :
    new bits len = ⟨bits, len⟩ := by
  have same : (new bits len).bits = bits :=
    eq_of_toNat_eq (by rw [new_toNat small, Nat.mod_eq_of_lt fits])
  calc new bits len = ⟨(new bits len).bits, len⟩ := rfl
    _ = ⟨bits, len⟩ := by rw [same]

theorem toNat_setWidth128 (v : BitVec 64) : (v.setWidth 128).toNat = v.toNat := by
  rw [toNat_setWidth, Nat.mod_eq_of_lt (v.isLt.trans (by decide))]

/-- The interleaving of two operands of `n` bits has `2 * n` bits. -/
theorem interleaveBits_lt {x y : BitVec 64} {n : Nat} (hx : x.toNat < 2 ^ n)
    (hy : y.toNat < 2 ^ n) :
    (interleaveBits x y).toNat < 2 ^ (2 * n) := by
  have above : ∀ {v : BitVec 64}, v.toNat < 2 ^ n → ∀ j, n ≤ j → v.getLsbD j = false :=
    fun small j high =>
    Nat.testBit_lt_two_pow (small.trans_le (Nat.pow_le_pow_right (by decide) high))
  refine Nat.lt_pow_two_of_testBit _ fun i high => ?_
  rw [testBit_toNat]
  by_cases inside : i < 128
  · obtain ⟨even, odd⟩ := getLsbD_interleaveBits x y (i := i / 2) (by omega)
    rcases Nat.mod_two_eq_zero_or_one i with parity | parity
    · rw [show i = 2 * (i / 2) by omega, even, above hy _ (by omega)]
    · rw [show i = 2 * (i / 2) + 1 by omega, odd, above hx _ (by omega)]
  · exact getLsbD_of_ge _ _ (by omega)

/-- What the plaintext suffixes read out of an interleaved pair. -/
theorem uninterleave_interleaveBits {x y : BitVec 64} {n : Nat} (short : n ≤ 64)
    (hx : x.toNat < 2 ^ n) (hy : y.toNat < 2 ^ n) :
    (new (interleaveBits x y) (2 * n)).uninterleave =
      (⟨x.setWidth 128, n⟩, ⟨y.setWidth 128, n⟩) := by
  have kept : (new (interleaveBits x y) (2 * n)).bits = interleaveBits x y := by
    by_cases small : 2 * n < 128
    · rw [new_of_lt small (interleaveBits_lt hx hy)]
    · rw [new, if_neg small]
  have half : 2 * n / 2 = n := by omega
  have rest : 2 * n - n = n := by omega
  have len : (new (interleaveBits x y) (2 * n)).len = 2 * n := rfl
  rw [uninterleave, kept, uninterleaveBits_interleaveBits, len, half]
  simp only
  rw [new_of_lt (by omega) (by exact hx)]
  simp only [rest]
  rw [new_of_lt (by omega) (by exact hy)]

section LeadingOnes

variable {b : LookupBits} (pos : 0 < b.len) (short : b.len < 128)
include pos short

theorem leadingOnes_eq : b.leadingOnes = (~~~(b.bits <<< (128 - b.len))).clz.toNat := by
  rw [leadingOnes, Nat.mod_eq_of_lt (by omega)]

/-- The bits above the counted position are ones. -/
theorem getLsbD_aligned {j : Nat} (high : 128 - b.leadingOnes ≤ j) (inside : j < 128) :
    (b.bits <<< (128 - b.len)).getLsbD j = true := by
  rw [leadingOnes_eq pos short] at high
  have below := toNat_lt_two_pow_sub_clz (x := ~~~(b.bits <<< (128 - b.len)))
  have zero : (~~~(b.bits <<< (128 - b.len))).getLsbD j = false :=
    Nat.testBit_lt_two_pow (below.trans_le (Nat.pow_le_pow_right (by decide) high))
  simpa [inside] using zero

theorem leadingOnes_le : b.leadingOnes ≤ b.len := by
  by_contra more
  have one := getLsbD_aligned pos short (j := 127 - b.len) (by omega) (by omega)
  simp [show 127 - b.len < 128 - b.len by omega] at one

theorem getLsbD_of_leadingOnes {i : Nat} (high : b.len - b.leadingOnes ≤ i) (inside : i < b.len) :
    b.bits.getLsbD i = true := by
  have one := getLsbD_aligned pos short (j := 128 - b.len + i) (by omega) (by omega)
  rw [getLsbD_shiftLeft] at one
  simpa [show 128 - b.len + i < 128 by omega] using one

theorem leadingOnes_eq_zero_iff : b.leadingOnes = 0 ↔ b.bits.getLsbD (b.len - 1) = false := by
  have top : ∀ v : BitVec 128, 2 ^ (128 - 1) ≤ v.toNat ↔ v.getLsbD (128 - 1) = true := fun v => by
    rw [← msb_eq_getLsbD_last, msb_eq_decide, decide_eq_true_iff]
  rw [leadingOnes_eq pos short, clz_eq_zero_iff (by decide), top, getLsbD_not, getLsbD_shiftLeft,
    show 128 - 1 - (128 - b.len) = b.len - 1 by omega]
  simp [show ¬ 128 - 1 < 128 - b.len by omega]

end LeadingOnes

end LookupBits

/-! ## What the shared suffixes open to -/

/-- The operands of a cycle in a phase: `n` bits each, in the ring of the phase. -/
structure PhaseOperands (x : Xlen) (t : Uninterleavable) (n : Nat) (xv yv : BitVec 64)
    (l : View (BitVec t.half.width)) : Prop where
  ring : Uninterleavable.ofSuffixLen (2 * n) = some t
  word : n ≤ x.bits
  left : xv.toNat < 2 ^ n
  right : yv.toNat < 2 ^ n
  shares : XorShares l (xv.setWidth t.half.width)

/-- The number of bits and the ring of a phase. -/
theorem ofSuffixLen_half {t : Uninterleavable} {n : Nat}
    (h : Uninterleavable.ofSuffixLen (2 * n) = some t) :
    0 < n ∧ n ≤ t.half.width ∧ t.half.width ≤ 64 ∧ (t.half.width < 32 → t.half.width ≤ 16) := by
  unfold Uninterleavable.ofSuffixLen at h
  split_ifs at h <;> cases h <;>
    exact ⟨by omega, by simp only [Uninterleavable.half,
      RingType.width, RingType.bytes]; omega, by decide, by decide⟩

inductive SuffixFuture.StandsFor {F : Type} [CommRing F] {K : Nat} : SuffixFuture F K → Nat → Prop
  | ready (v : Nat) : StandsFor (.ready (v : F)) v
  | b2aRing {x : View (BitVec K)} {s : BitVec K} (h : XorShares x s) :
    StandsFor (.b2aRing x) s.toNat

theorem SuffixFuture.fulfill_spec {F : Type} [Field F] {K : Nat} {f : SuffixFuture F K} {v : Nat}
    (h : f.StandsFor v) :
    Ensures (Rep3Value.Opens · (v : F)) f.fulfill := by
  cases h with
  | ready v => exact Ensures.pure rfl
  | b2aRing h => exact Ensures.bind (r2fB2aPreproc_spec h) fun field shares => Ensures.pure shares

/-- The conversion succeeds where every component fits. -/
theorem tryIntoHalf_of_fits {H : Nat} {z : View (BitVec 32)}
    (fits : ∀ p, (z p).a.toNat < 2 ^ H ∧ (z p).b.toNat < 2 ^ H) :
    tryIntoHalf H z = some (z.map (BitVec.setWidth H)) := by
  simp [tryIntoHalf, fits]

/-- `tryIntoHalf` on a sharing of a word that fits. -/
theorem tryIntoHalf_spec {H : Nat} {z : View (BitVec 32)} {s : BitVec 32} (h : XorShares z s)
    (fits : ∀ p, (z p).a.toNat < 2 ^ H ∧ (z p).b.toNat < 2 ^ H) (small : s.toNat < 2 ^ H) :
    ∃ y, tryIntoHalf H z = some y ∧ XorShares y (s.setWidth H) ∧ (s.setWidth H).toNat = s.toNat :=
  ⟨_, tryIntoHalf_of_fits fits, h.setWidth H, by rw [toNat_setWidth, Nat.mod_eq_of_lt small]⟩

theorem SuffixFuture.standsFor_word {F : Type} [CommRing F] {K v : Nat} {y : View (BitVec K)}
    {s : BitVec K} (h : XorShares y s) (same : s.toNat = v) :
    (SuffixFuture.b2aRing y : SuffixFuture F K).StandsFor v :=
  same ▸ .b2aRing h

theorem LookupBits.toU64_setWidth (v : BitVec 64) (n : Nat) :
    (⟨v.setWidth 128, n⟩ : LookupBits).toU64 = v := by
  exact setWidth_setWidth_of_le v (by decide)

/-- What the shared arm of a suffix produces stands for the plaintext suffix of the interleaved
operands. -/
def ArmStandsFor (F : Type) [CommRing F] (x : Xlen) {t : Uninterleavable} (n : Nat)
    (xv yv : BitVec 64) (l : View (BitVec t.half.width)) (suffix : Suffixes) : Prop :=
  ∃ (f : SuffixFuture F t.half.width) (v : BitVec 64),
    evalShiftSuffix x t (2 * n) l yv suffix = some f ∧
    suffixMle x (.new (interleaveBits xv yv) (2 * n)) suffix = some v ∧ f.StandsFor v.toNat

theorem mul_two_pow_lt {a n lo : Nat} (below : a < 2 ^ (n - lo)) (le : lo ≤ n) :
    a * 2 ^ lo < 2 ^ n :=
  calc a * 2 ^ lo < 2 ^ (n - lo) * 2 ^ lo := Nat.mul_lt_mul_of_pos_right below (Nat.two_pow_pos lo)
    _ = 2 ^ n := by rw [← Nat.pow_add, Nat.sub_add_cancel le]

section Arms

variable {F : Type} [CommRing F] {x : Xlen} {t : Uninterleavable} {n : Nat} {xv yv : BitVec 64}
  {l : View (BitVec t.half.width)} (h : PhaseOperands x t n xv yv l)
include h

theorem PhaseOperands.short : n ≤ 64 := h.word.trans x.bits_le

theorem PhaseOperands.uninterleave :
    (LookupBits.new (interleaveBits xv yv) (2 * n)).uninterleave =
      (⟨xv.setWidth 128, n⟩, ⟨yv.setWidth 128, n⟩) :=
  LookupBits.uninterleave_interleaveBits h.short h.left h.right

theorem PhaseOperands.newRight : LookupBits.new (yv.setWidth 128) n = ⟨yv.setWidth 128, n⟩ :=
  LookupBits.new_of_lt (by have := h.short; omega) (by exact h.right)

/-- The left operand fits the ring of the phase. -/
theorem PhaseOperands.toNat_left : (xv.setWidth t.half.width).toNat = xv.toNat := by
  obtain ⟨-, le, -, -⟩ := ofSuffixLen_half h.ring
  rw [toNat_setWidth, Nat.mod_eq_of_lt (h.left.trans_le (Nat.pow_le_pow_right (by decide) le))]

theorem rightShift_spec : ArmStandsFor F x n xv yv l .RightShift := by
  refine ⟨_, _, rfl, by rw [suffixMle, h.uninterleave], ?_⟩
  refine SuffixFuture.standsFor_word (h.shares.shiftRight _) ?_
  simp [h.toNat_left, LookupBits.toU64_setWidth, LookupBits.trailingZeros, shiftRight_min h.left]

theorem rightShiftHelper_spec : ArmStandsFor F x n xv yv l .RightShiftHelper := by
  refine ⟨_, _, rfl, by rw [suffixMle, h.uninterleave], ?_⟩
  rw [Nat.mul_div_cancel_left n (by decide), h.newRight]
  exact .ready _

theorem rightShiftWHelper_spec : ArmStandsFor F x n xv yv l .RightShiftWHelper := by
  refine ⟨_, _, rfl, by rw [suffixMle, h.uninterleave], ?_⟩
  rw [Nat.mul_div_cancel_left n (by decide)]
  exact .ready _

/-- The bits of the left operand that the mask keeps lie below its leading ones. -/
theorem PhaseOperands.masked_lt :
    (xv &&& ~~~yv).toNat < 2 ^ (n - (⟨yv.setWidth 128, n⟩ : LookupBits).leadingOnes) := by
  obtain ⟨pos, -, -, -⟩ := ofSuffixLen_half h.ring
  have short := h.short
  refine andNot_lt h.left fun i high inside => ?_
  have one :=
    LookupBits.getLsbD_of_leadingOnes (b := ⟨yv.setWidth 128, n⟩) pos (by simp only; omega)
    high inside
  simpa [show i < 64 by omega, show i < 128 by omega] using one

/-- The bits outside the right mask are shifted by its leading ones, as in the plaintext. -/
theorem leftShift_spec : ArmStandsFor F x n xv yv l .LeftShift := by
  obtain ⟨pos, le, width, -⟩ := ofSuffixLen_half h.ring
  refine ⟨_, _, rfl, by rw [suffixMle, h.uninterleave], ?_⟩
  rw [Nat.mul_div_cancel_left n (by decide), h.newRight, LookupBits.toU64_setWidth,
    LookupBits.toU64_setWidth]
  have lo_le := LookupBits.leadingOnes_le (b := ⟨yv.setWidth 128, n⟩) pos (by simp only; omega)
  have below := h.masked_lt
  generalize (⟨yv.setWidth 128, n⟩ : LookupBits).leadingOnes = lo at lo_le below ⊢
  have shifted : (xv &&& ~~~yv).toNat <<< lo < 2 ^ n := by
    rw [Nat.shiftLeft_eq]
    exact mul_two_pow_lt below lo_le
  have masked : xv.setWidth t.half.width &&& ~~~(yv.setWidth t.half.width) =
      (xv &&& ~~~yv).setWidth t.half.width := by
    rw [setWidth_and, setWidth_not width]
  have kept : ((xv &&& ~~~yv).setWidth t.half.width).toNat = (xv &&& ~~~yv).toNat := by
    rw [toNat_setWidth, Nat.mod_eq_of_lt]
    exact below.trans_le (Nat.pow_le_pow_right (by decide) (by omega))
  refine SuffixFuture.standsFor_word ((h.shares.and_public _).shiftLeft lo) ?_
  rw [masked, toNat_shiftLeft, kept, toNat_shiftLeft,
    Nat.mod_eq_of_lt (shifted.trans_le (Nat.pow_le_pow_right (by decide) le)),
    Nat.mod_eq_of_lt (shifted.trans_le (Nat.pow_le_pow_right (by decide) h.short))]

theorem signExtension_spec : ArmStandsFor F x n xv yv l .SignExtension := by
  refine ⟨_, _, rfl, by rw [suffixMle, h.uninterleave], ?_⟩
  have low : (if 64 ≤ n then yv else yv &&& (1#64 <<< n - 1)) = yv := by
    split
    · rfl
    · refine eq_of_toNat_eq ((toNat_and_lowMask yv (by omega)).trans ?_)
      exact Nat.mod_eq_of_lt h.right
  have same : computeSignExtensionFromMask x yv (2 * n) =
      BitVec.ofNat 64 (2 ^ x.bits - 2 ^ (x.bits - min yv.ctz.toNat n)) := by
    rw [computeSignExtensionFromMask, Nat.mul_div_cancel_left n (by decide), low]
    split
    · rename_i zero
      simp [zero]
    · rfl
  rw [same, LookupBits.toU64_setWidth]
  exact .ready _

/-- The left operand in 32 bits, whatever the ring of the phase. -/
theorem PhaseOperands.word32 : (xv.setWidth t.half.width).setWidth 32 = xv.setWidth 32 :=
  eq_of_toNat_eq (by simp [h.toNat_left])

omit h in
theorem toNat_setWidth_le {w v : Nat} (a : BitVec w) : (a.setWidth v).toNat ≤ a.toNat := by
  rw [toNat_setWidth]
  exact Nat.mod_le _ _

theorem rightShiftW_spec : ArmStandsFor F x n xv yv l .RightShiftW := by
  have component : ∀ (a : BitVec t.half.width) (k : Nat),
    (a.setWidth 32 >>> k).toNat < 2 ^ t.half.width := fun a k => by
    exact (Nat.shiftRight_le _ _).trans_lt ((toNat_setWidth_le a).trans_lt a.isLt)
  obtain ⟨shifted, converted, shares, same⟩ := tryIntoHalf_spec
    ((h.shares.setWidth 32).shiftRight (min (yv.setWidth 128).ctz.toNat (x.bits / 2)))
    (fun p => ⟨component _ _, component _ _⟩) (component _ _)
  refine ⟨.b2aRing shifted, _, by exact congrArg (Option.bind · _) converted,
    by rw [suffixMle, h.uninterleave], SuffixFuture.standsFor_word shares (same.trans ?_)⟩
  have small : (xv.setWidth 32).toNat < 2 ^ n := (toNat_setWidth_le xv).trans_lt h.left
  rw [h.word32, LookupBits.toU64_setWidth, LookupBits.trailingZeros,
    toNat_setWidth_of_le (by decide), toNat_ushiftRight, ← shiftRight_min small]
  congr 1
  simp only
  omega

/-- The mask cut to half a word, as the plaintext suffix sees it. -/
theorem PhaseOperands.truncated (long : x.bits / 2 ≤ n) :
    LookupBits.new (yv.setWidth 128) (min n (x.bits / 2)) =
      ⟨(yv &&& ParallelPrefix.lowMask 64 (x.bits / 2)).setWidth 128, x.bits / 2⟩ := by
  have half : x.bits / 2 < 64 := by cases x <;> decide
  rw [Nat.min_eq_right long]
  have bits : (LookupBits.new (yv.setWidth 128) (x.bits / 2)).bits =
      (yv &&& ParallelPrefix.lowMask 64 (x.bits / 2)).setWidth 128 := by
    apply eq_of_toNat_eq
    rw [LookupBits.new_toNat (by omega), LookupBits.toNat_setWidth128, LookupBits.toNat_setWidth128,
      toNat_and_lowMask yv half]
  calc LookupBits.new (yv.setWidth 128) (x.bits / 2) =
           ⟨(LookupBits.new (yv.setWidth 128) (x.bits / 2)).bits, _⟩ := rfl
    _ = _ := by rw [bits]

end Arms

/-- A word masked by a mask of `m` bits and shifted by its leading ones keeps to `m` bits. -/
theorem shifted_lt {m : Nat} {a : BitVec 32} {y : BitVec 64} (pos : 0 < m) (half : m ≤ 32)
    (small : a.toNat < 2 ^ m) :
    ((a &&& ~~~(y.setWidth 32)) <<< (⟨y.setWidth 128, m⟩ : LookupBits).leadingOnes).toNat <
      2 ^ m := by
  have le := LookupBits.leadingOnes_le (b := ⟨y.setWidth 128, m⟩) pos (by simp only; omega)
  have below := andNot_lt (m := y.setWidth 32) small
    fun i high inside => by
      have one :=
        LookupBits.getLsbD_of_leadingOnes (b := ⟨y.setWidth 128, m⟩) pos (by simp only; omega)
        high inside
      simpa [show i < 32 by omega, show i < 128 by omega] using one
  generalize (⟨y.setWidth 128, m⟩ : LookupBits).leadingOnes = lo at le below ⊢
  rw [toNat_shiftLeft, Nat.shiftLeft_eq]
  calc (a &&& ~~~(y.setWidth 32)).toNat * 2 ^ lo % 2 ^ 32 ≤
           (a &&& ~~~(y.setWidth 32)).toNat * 2 ^ lo := Nat.mod_le _ _
    _ < 2 ^ m := mul_two_pow_lt below le

section LeftShiftW

variable {F : Type} [CommRing F] {x : Xlen} {t : Uninterleavable} {n : Nat} {xv yv : BitVec 64}
  {l : View (BitVec t.half.width)} (h : PhaseOperands x t n xv yv l)
include h

/-- With at least half a word of bits left, the shared arm is the plaintext suffix. -/
theorem leftShiftW_long (long : x.bits / 2 ≤ n) : ArmStandsFor F x n xv yv l .LeftShiftW := by
  obtain ⟨-, le, -, words⟩ := ofSuffixLen_half h.ring
  have half : 16 ≤ x.bits / 2 ∧ x.bits / 2 ≤ 32 := by cases x <;> decide
  let y := yv &&& ParallelPrefix.lowMask 64 (x.bits / 2)
  have cut : LookupBits.new (y.setWidth 128) (x.bits / 2) = ⟨y.setWidth 128, x.bits / 2⟩ := by
    refine LookupBits.new_of_lt (by omega) ?_
    rw [LookupBits.toNat_setWidth128, toNat_and_lowMask yv (by omega)]
    exact Nat.mod_lt _ (Nat.two_pow_pos _)
  let lo := (⟨y.setWidth 128, x.bits / 2⟩ : LookupBits).leadingOnes
  -- below 32 bits the ring has exactly the bits of the mask
  have component : ∀ a : BitVec t.half.width,
      ((a.setWidth 32 &&& ~~~(y.setWidth 32)) <<< lo).toNat < 2 ^ t.half.width := fun a => by
    rcases Nat.lt_or_ge t.half.width 32 with narrow | wide
    · have exact_bits : t.half.width = x.bits / 2 := by omega
      have small : a.toNat < 2 ^ (x.bits / 2) :=
        a.isLt.trans_le (Nat.pow_le_pow_right (by decide) exact_bits.le)
      have fits := shifted_lt (y := y) (by omega) half.2 ((toNat_setWidth_le a).trans_lt small)
      exact fits.trans_le (Nat.pow_le_pow_right (by decide) exact_bits.ge)
    · exact (BitVec.isLt _).trans_le (Nat.pow_le_pow_right (by decide) wide)
  obtain ⟨shifted, converted, shares, same⟩ := tryIntoHalf_spec
    (((h.shares.setWidth 32).and_public (~~~(y.setWidth 32))).shiftLeft lo)
    (fun p => ⟨component _, component _⟩) (component _)
  refine ⟨.b2aRing shifted, _, ?_, by rw [suffixMle,
    h.uninterleave], SuffixFuture.standsFor_word shares (same.trans ?_)⟩
  · rw [evalShiftSuffix]
    rw [show yv &&& (1#64 <<< (x.bits / 2) - 1) = y from rfl, cut]
    exact congrArg (Option.bind · _) converted
  · rw [h.truncated long, h.word32, LookupBits.toU64_setWidth, toNat_setWidth_of_le (by decide)]
    congr 3

/-- The masked left operand in 32 bits, where it has no more. -/
theorem PhaseOperands.masked32 (few : n ≤ 32) :
    (xv.setWidth 32 &&& ~~~(yv.setWidth 32)).toNat = (xv &&& ~~~yv).toNat := by
  rw [← setWidth_not (by decide), ← setWidth_and, toNat_setWidth, Nat.mod_eq_of_lt]
  exact Nat.and_le_left.trans_lt (h.left.trans_le (Nat.pow_le_pow_right (by decide) few))

/-- With fewer bits left, no leading ones are found. -/
theorem leftShiftW_short (few : n < x.bits / 2) : ∃ f : SuffixFuture F t.half.width,
    evalShiftSuffix x t (2 * n) l yv .LeftShiftW = some f ∧ f.StandsFor (xv &&& ~~~yv).toNat := by
  have half : 16 ≤ x.bits / 2 ∧ x.bits / 2 ≤ 32 := by cases x <;> decide
  have mask : yv.toNat < 2 ^ (x.bits / 2) :=
    h.right.trans_le (Nat.pow_le_pow_right (by decide) few.le)
  have kept : yv &&& (1#64 <<< (x.bits / 2) - 1) = yv :=
    eq_of_toNat_eq ((toNat_and_lowMask yv (by omega)).trans (Nat.mod_eq_of_lt mask))
  have none : (LookupBits.new (yv.setWidth 128) (x.bits / 2)).leadingOnes = 0 := by
    rw [LookupBits.new_of_lt (by omega) (by exact mask)]
    rw [LookupBits.leadingOnes_eq_zero_iff (by simp only; omega) (by simp only; omega)]
    have top : yv.getLsbD (x.bits / 2 - 1) = false :=
      Nat.testBit_lt_two_pow (h.right.trans_le (Nat.pow_le_pow_right (by decide) (by omega)))
    simp [top]
  have component : ∀ a : BitVec t.half.width,
      ((a.setWidth 32 &&& ~~~(yv.setWidth 32)) <<< 0).toNat < 2 ^ t.half.width := fun a => by
    rw [shiftLeft_zero]
    exact Nat.and_le_left.trans_lt ((toNat_setWidth_le a).trans_lt a.isLt)
  obtain ⟨shifted, converted, shares, same⟩ := tryIntoHalf_spec
    (((h.shares.setWidth 32).and_public (~~~(yv.setWidth 32))).shiftLeft 0)
    (fun p => ⟨component _, component _⟩) (component _)
  refine ⟨.b2aRing shifted, ?_, SuffixFuture.standsFor_word shares (same.trans ?_)⟩
  · rw [evalShiftSuffix, kept, none]
    exact congrArg (Option.bind · _) converted
  · simp [h.word32, h.masked32 (by omega)]

/-- The plaintext suffix where fewer than half a word of bits is left: a shift by the leading ones
of the mask. -/
theorem suffixMle_leftShiftW_short (few : n < x.bits / 2) :
    ∃ v, suffixMle x (.new (interleaveBits xv yv) (2 * n)) .LeftShiftW = some v ∧
      v.toNat = (xv &&& ~~~yv).toNat * 2 ^ (⟨yv.setWidth 128, n⟩ : LookupBits).leadingOnes := by
  obtain ⟨pos, -, -, -⟩ := ofSuffixLen_half h.ring
  have half : x.bits / 2 ≤ 32 := by cases x <;> decide
  refine ⟨_, by rw [suffixMle, h.uninterleave], ?_⟩
  rw [Nat.min_eq_left few.le, h.newRight, LookupBits.toU64_setWidth,
    toNat_setWidth_of_le (by decide)]
  have mask : (⟨yv.setWidth 128, n⟩ : LookupBits).toU32 = yv.setWidth 32 :=
    setWidth_setWidth_of_le _ (by decide)
  have lo_le := LookupBits.leadingOnes_le (b := ⟨yv.setWidth 128, n⟩) pos (by simp only; omega)
  rw [mask, toNat_shiftLeft, h.masked32 (by omega), Nat.shiftLeft_eq, Nat.mod_eq_of_lt]
  exact (mul_two_pow_lt h.masked_lt lo_le).trans_le (Nat.pow_le_pow_right (by decide) (by omega))

end LeftShiftW

/-! ## Agreement -/

/-- The suffixes of the shift and rotate tables whose right operand is a public bitmask. -/
def shiftSuffixes : List Suffixes :=
  [.RightShift, .RightShiftHelper, .LeftShift, .RightShiftW, .RightShiftWHelper, .LeftShiftW,
    .SignExtension]

/-- What a shared arm produces reconstructs to the plaintext suffix of the interleaved operands,
whatever is drawn. -/
def ReconstructsSuffix (F : Type) [Field F] (x : Xlen) (t : Uninterleavable) (suffixLen : Nat)
    (xv yv : BitVec 64) (l : View (BitVec t.half.width)) (suffix : Suffixes) : Prop :=
  ∃ (f : SuffixFuture F t.half.width) (v : BitVec 64),
    evalShiftSuffix x t suffixLen l yv suffix = some f ∧
    suffixMle x (.new (interleaveBits xv yv) suffixLen) suffix = some v ∧
    Ensures (Rep3Value.Opens · (v.toNat : F)) f.fulfill

/-- Where the two agree: `LeftShiftW` needs half a word of bits, a mask without a leading one, or a
left operand without a bit outside of it. -/
def ShiftAgrees (x : Xlen) (n : Nat) (xv yv : BitVec 64) (suffix : Suffixes) : Prop :=
  suffix = .LeftShiftW → x.bits / 2 ≤ n ∨ yv.getLsbD (n - 1) = false ∨ xv &&& ~~~yv = 0

section Agreement

variable {F : Type} [Field F] {x : Xlen} {t : Uninterleavable} {n : Nat} {xv yv : BitVec 64}
  {l : View (BitVec t.half.width)}

/-- `LeftShiftW` with fewer bits than half a word: the values differ by the factor that the shift
makes. -/
theorem PhaseOperands.leftShiftW_iff (h : PhaseOperands x t n xv yv l) (large : LargeField F)
    (few : n < x.bits / 2) :
    ReconstructsSuffix F x t (2 * n) xv yv l .LeftShiftW ↔
      yv.getLsbD (n - 1) = false ∨ xv &&& ~~~yv = 0 := by
  obtain ⟨pos, -, -, -⟩ := ofSuffixLen_half h.ring
  have short := h.short
  obtain ⟨f, evaluated, stands⟩ := leftShiftW_short (F := F) h few
  obtain ⟨v, plain, value⟩ := suffixMle_leftShiftW_short h few
  have noOnes : (⟨yv.setWidth 128, n⟩ : LookupBits).leadingOnes = 0 ↔
      yv.getLsbD (n - 1) = false := by
    rw [LookupBits.leadingOnes_eq_zero_iff pos (by simp only; omega)]
    simp [show n - 1 < 128 by omega]
  have zero : (xv &&& ~~~yv).toNat = 0 ↔ xv &&& ~~~yv = 0 :=
    ⟨fun value => eq_of_toNat_eq value, fun value => by rw [value]; rfl⟩
  constructor
  · rintro ⟨f', v', evaluated', plain', opens⟩
    cases evaluated.symm.trans evaluated'
    cases plain.symm.trans plain'
    obtain ⟨coins⟩ := coins_exist (F := F)
    have equal :=
      large _ _ v.isLt (xv &&& ~~~yv).isLt ((opens coins).unique (f.fulfill_spec stands coins))
    rw [value] at equal
    rcases Nat.eq_zero_or_pos (xv &&& ~~~yv).toNat with nothing | something
    · exact .inr (zero.mp nothing)
    · have power : 2 ^ (⟨yv.setWidth 128, n⟩ : LookupBits).leadingOnes = 1 :=
        Nat.eq_of_mul_eq_mul_left something (equal.trans (Nat.mul_one _).symm)
      exact .inl (noOnes.mp ((Nat.pow_eq_one.mp power).resolve_left (by decide)))
  · intro agrees
    have equal : v.toNat = (xv &&& ~~~yv).toNat := by
      rcases agrees with clear | nothing
      · simp [value, noOnes.mpr clear]
      · simp [value, zero.mpr nothing]
    exact ⟨f, v, evaluated, plain, equal ▸ f.fulfill_spec stands⟩

/-- A phase's suffixes of shared left and public right operands reconstruct to the plaintext ones
exactly where `ShiftAgrees` says. -/
theorem PhaseOperands.reconstructs_iff (h : PhaseOperands x t n xv yv l) (large : LargeField F)
    {suffix : Suffixes} (shift : suffix ∈ shiftSuffixes) :
    ReconstructsSuffix F x t (2 * n) xv yv l suffix ↔ ShiftAgrees x n xv yv suffix := by
  have always : ∀ {s : Suffixes}, s ≠ .LeftShiftW → ArmStandsFor F x n xv yv l s →
      (ReconstructsSuffix F x t (2 * n) xv yv l s ↔ ShiftAgrees x n xv yv s) := by
    rintro s other ⟨f, v, evaluated, plain, stands⟩
    exact iff_of_true ⟨f, v, evaluated, plain, f.fulfill_spec stands⟩ fun same => absurd same other
  simp only [shiftSuffixes, List.mem_cons, List.not_mem_nil, or_false] at shift
  rcases shift with rfl | rfl | rfl | rfl | rfl | rfl | rfl
  · exact always nofun (rightShift_spec h)
  · exact always nofun (rightShiftHelper_spec h)
  · exact always nofun (leftShift_spec h)
  · exact always nofun (rightShiftW_spec h)
  · exact always nofun (rightShiftWHelper_spec h)
  · rcases Nat.lt_or_ge n (x.bits / 2) with few | long
    · rw [h.leftShiftW_iff large few]
      simp [ShiftAgrees, Nat.not_le.mpr few]
    · obtain ⟨f, v, evaluated, plain, stands⟩ := leftShiftW_long (F := F) h long
      exact iff_of_true ⟨f, v, evaluated, plain, f.fulfill_spec stands⟩ fun _ => .inl long
  · exact always nofun (signExtension_spec h)

end Agreement

/-- Every phase has an even number of suffix bits, at most two words. -/
theorem Build.even_suffixLens (b : Build) :
    ∀ suffixLen ∈ b.suffixLens, suffixLen % 2 = 0 ∧ suffixLen / 2 ≤ b.xlen.bits := by
  obtain ⟨x, fewer⟩ := b
  cases x <;> cases fewer <;> decide

theorem shift_suffixes_iff {F : Type} [Field F] (large : LargeField F) {b : Build} {suffixLen : Nat}
    {t : Uninterleavable} (phase : suffixLen ∈ b.suffixLens)
    (ring : Uninterleavable.ofSuffixLen suffixLen = some t) {suffix : Suffixes}
    (shift : suffix ∈ shiftSuffixes) {xv yv : BitVec 64} (left : xv.toNat < 2 ^ (suffixLen / 2))
    (right : yv.toNat < 2 ^ (suffixLen / 2)) {l : View (BitVec t.half.width)}
    (shares : XorShares l (xv.setWidth t.half.width)) :
    ReconstructsSuffix F b.xlen t suffixLen xv yv l suffix ↔
      ShiftAgrees b.xlen (suffixLen / 2) xv yv suffix := by
  obtain ⟨even, word⟩ := b.even_suffixLens suffixLen phase
  have twice : suffixLen = 2 * (suffixLen / 2) := by omega
  have operands : PhaseOperands b.xlen t (suffixLen / 2) xv yv l :=
    ⟨twice ▸ ring, word, left, right, shares⟩
  have iff := operands.reconstructs_iff large shift
  rwa [← twice] at iff

theorem largeField_rat : LargeField ℚ := fun _ _ _ _ same => Nat.cast_injective same

theorem shift_suffixes_iff_leftShift :
    ReconstructsSuffix ℚ .rv64 .u64 48 0x00ff00 0xf00000 (.promoteToTrivialShare 0x00ff00#32)
      .LeftShift :=
  (shift_suffixes_iff (b := ⟨.rv64, false⟩) largeField_rat (by decide) (by decide) (by decide)
    (by decide) (by decide)
    (.promote 0x00ff00#32)).mpr nofun

/-- A rotation of a 32-bit word on the 64-bit build, in the phase with 48 suffix bits. -/
theorem leftShiftW_not_reconstructed :
    ¬ ReconstructsSuffix ℚ .rv64 .u64 48 1 0x800000 (.promoteToTrivialShare 1#32) .LeftShiftW := by
  have operands : PhaseOperands .rv64 .u64 24 1 0x800000 (.promoteToTrivialShare 1#32) :=
    ⟨rfl, by decide, by decide, by decide, .promote 1#32⟩
  rw [operands.leftShiftW_iff largeField_rat (by decide)]
  decide

end ProviaVM.ReadRaf
