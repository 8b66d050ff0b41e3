import ProviaVM.ReadRaf.BitSuffixes

/-! # The XOR-rotate suffixes

`eval_xor_rot_uninterleaved` and `eval_xor_rot_w_uninterleaved`
(`provia-worker/src/zkvm/suffixes/bitwise.rs`). The plaintext suffixes rotate a word of 64
or of 32 bits. The 32-bit ones are computed in `u32` in every phase; the 64-bit ones are
rotated within the half ring of the phase, which has 64 bits in the first phases only. -/
namespace ProviaVM.ReadRaf
open Instruction Rep3 Preprocessing Sumcheck List BitVec

/-! ## Rotations -/

section Rotation

variable {w : Nat}

/-- The rotation as the shared code computes it. -/
theorem shift_xor_shift (v : BitVec w) {r : Nat} (inside : r < w) :
    v >>> r ^^^ v <<< (w - r) = v.rotateRight r := by
  refine eq_of_getLsbD_eq fun i below => ?_
  rw [getLsbD_xor, getLsbD_shiftLeft, getLsbD_rotateRight,
    Nat.mod_eq_of_lt inside]
  by_cases low : i < w - r
  · simp [low]
  · simp [below, getLsbD_of_ge v (r + i) (by omega)]

/-- The high part moves down, the low part to the top. -/
theorem toNat_rotateRight_add (v : BitVec w) {r : Nat} (inside : r < w) :
    (v.rotateRight r).toNat = v.toNat / 2 ^ r + v.toNat % 2 ^ r * 2 ^ (w - r) := by
  have width : 2 ^ w = 2 ^ r * 2 ^ (w - r) := by rw [← Nat.pow_add, Nat.add_sub_cancel' inside.le]
  have high : v.toNat / 2 ^ r < 2 ^ (w - r) := by
    rw [Nat.div_lt_iff_lt_mul (Nat.two_pow_pos r), Nat.mul_comm, ← width]
    exact v.isLt
  rw [toNat_rotateRight, Nat.mod_eq_of_lt inside, Nat.shiftRight_eq_div_pow, Nat.shiftLeft_eq,
    width, Nat.mul_mod_mul_right, Nat.or_comm, ← Nat.shiftLeft_eq,
    ← Nat.shiftLeft_add_eq_or_of_lt high, Nat.add_comm]

end Rotation

/-- Where a rotation by `r` within `k` bits is the one within 64: the ring has 64 bits, no bit
leaves the word at the low end, or a rotation by 63 brings none back to the low end of the ring. -/
def RotationAgrees (k r v : Nat) : Prop := k = 64 ∨ v % 2 ^ r = 0 ∨ r = 63 ∧ v < 2 ^ (k - 1)

def xorRotations : List Nat := [16, 24, 32, 63]

section Narrow

variable {k r : Nat} {v : BitVec 64} (pos : 0 < k) (small : v.toNat < 2 ^ k)
include pos small

theorem toNat_rotateRight_setWidth : ((v.setWidth k).rotateRight (r % k)).toNat =
    v.toNat / 2 ^ (r % k) + v.toNat % 2 ^ (r % k) * 2 ^ (k - r % k) := by
  rw [toNat_rotateRight_add _ (Nat.mod_lt r pos), toNat_setWidth, Nat.mod_eq_of_lt small]

theorem rotateRight_narrow_iff (inside : r < 64) (narrow : k ≤ 64 - r) :
    (v.rotateRight r).toNat = ((v.setWidth k).rotateRight (r % k)).toNat ↔ v.toNat % 2 ^ r = 0 := by
  constructor
  · intro equal
    by_contra low
    have above : 2 ^ k ≤ (v.rotateRight r).toNat := by
      rw [toNat_rotateRight_add v inside]
      calc 2 ^ k ≤ 2 ^ (64 - r) := Nat.pow_le_pow_right (by decide) narrow
        _ ≤ v.toNat % 2 ^ r * 2 ^ (64 - r) := Nat.le_mul_of_pos_left _ (Nat.pos_of_ne_zero low)
        _ ≤ _ := Nat.le_add_left _ _
    omega
  · intro low
    rw [toNat_rotateRight_add v inside, toNat_rotateRight_setWidth pos small, low, Nat.zero_mul]
    rcases Nat.lt_or_ge r k with shorter | longer
    · rw [Nat.mod_eq_of_lt shorter, low, Nat.zero_mul]
    · have zero : v.toNat = 0 := by
        rwa [Nat.mod_eq_of_lt (small.trans_le (Nat.pow_le_pow_right (by decide) longer))] at low
      simp [zero]

/-- A rotation by 63 doubles a short word; in the ring the top bit comes back at the low end. -/
theorem rotateRight_63_iff (short : k < 64) (divides : 63 % k = k - 1) :
    (v.rotateRight 63).toNat = ((v.setWidth k).rotateRight (63 % k)).toNat ↔
      v.toNat < 2 ^ (k - 1) := by
  have whole : v.toNat < 2 ^ 63 := small.trans_le (Nat.pow_le_pow_right (by decide) (by omega))
  rw [toNat_rotateRight_add v (by decide), toNat_rotateRight_setWidth pos small, divides,
    Nat.div_eq_of_lt whole, Nat.mod_eq_of_lt whole, show k - (k - 1) = 1 by omega]
  have parts := Nat.div_add_mod v.toNat (2 ^ (k - 1))
  constructor
  · intro equal
    by_contra large
    have grows : v.toNat / 2 ^ (k - 1) ≤ 2 ^ (k - 1) * (v.toNat / 2 ^ (k - 1)) :=
      Nat.le_mul_of_pos_left _ (Nat.two_pow_pos _)
    omega
  · intro below
    rw [Nat.div_eq_of_lt below, Nat.mod_eq_of_lt below]

end Narrow

/-- The rotation in the half ring against the rotation of the whole word. -/
theorem rotateRight_setWidth_iff {k r : Nat} (ring : k ∈ [8, 16, 32, 64]) (used : r ∈ xorRotations)
    {v : BitVec 64} (small : v.toNat < 2 ^ k) :
    (v.rotateRight r).toNat = ((v.setWidth k).rotateRight (r % k)).toNat ↔
      RotationAgrees k r v.toNat := by
  have rings : k = 64 ∨ 0 < k ∧ k ≤ 32 ∧ 63 % k = k - 1 := by
    simp only [mem_cons, not_mem_nil, or_false] at ring
    rcases ring with rfl | rfl | rfl | rfl <;> decide
  have rotations : r = 63 ∨ r ≤ 32 := by
    simp only [xorRotations, mem_cons, not_mem_nil, or_false] at used
    omega
  rcases rings with rfl | ⟨pos, narrow, divides⟩
  · refine iff_of_true ?_ (.inl rfl)
    simp
  have notWide : k ≠ 64 := by omega
  rcases rotations with rfl | low
  · have whole : v.toNat < 2 ^ 63 := small.trans_le (Nat.pow_le_pow_right (by decide) (by omega))
    rw [rotateRight_63_iff pos small (by omega) divides, RotationAgrees, Nat.mod_eq_of_lt whole]
    have zero : v.toNat = 0 → v.toNat < 2 ^ (k - 1) := fun zero => zero ▸ Nat.two_pow_pos _
    tauto
  · rw [rotateRight_narrow_iff pos small (by omega) (by omega), RotationAgrees]
    have other : r ≠ 63 := by omega
    tauto

/-! ## What the arms push -/

def rotationOf : Suffixes → Option Nat
  | .XorRot16 => some 16
  | .XorRot24 => some 24
  | .XorRot32 => some 32
  | .XorRot63 => some 63
  | _ => none

def rotationWOf : Suffixes → Option Nat
  | .XorRotW7 => some 7
  | .XorRotW8 => some 8
  | .XorRotW12 => some 12
  | .XorRotW16 => some 16
  | _ => none

section Arms

variable {F : Type} [Field F] {x : Xlen} {t : Uninterleavable} {n : Nat}
  {xs ys : List (View (BitVec t.half.width))} {out : SuffixFutureBatch F}
  {items : List (Operands n × Nat)}

/-- The word that the 64-bit arm pushes for a pair of operands. -/
def rotatedHalf (k r : Nat) (c : Operands n) : BitVec k :=
  ((c.left ^^^ c.right).setWidth k).rotateRight (r % k)

def rotatedWord (r : Nat) (c : Operands n) : BitVec 32 :=
  (c.left.setWidth 32 ^^^ c.right.setWidth 32).rotateRight (r % 32)

theorem Operands.xor_lt (c : Operands n) : (c.left ^^^ c.right).toNat < 2 ^ n :=
  toNat_xor .. ▸ Nat.xor_lt_two_pow c.left_lt c.right_lt

section Operands

variable (hx : Forall₂ (fun x c => XorShares x (intoHalf t.half.width c.1.left)) xs items)
  (hy : Forall₂ (fun y c => XorShares y (intoHalf t.half.width c.1.right)) ys items)
include hx hy

theorem xorRot_pushes (r : Nat) (pos : 0 < t.half.width) :
    Pushes out (items.map fun c => (((rotatedHalf t.half.width r c.1).toNat : F), c.2) : List _)
      (pure (evalXorRotUninterleaved t.half (items.map Prod.snd) r xs ys out)) := by
  refine pushes_b2aRing (forall₂_zipWith_same (fun x y c left right => ?_) hx hy)
  have xored : XorShares (x.map₂ (· ^^^ ·) y) ((c.1.left ^^^ c.1.right).setWidth t.half.width) := by
    rw [setWidth_xor]
    exact left.xor right
  rw [rotatedHalf, ← shift_xor_shift _ (Nat.mod_lt r pos)]
  exact (xored.shiftRight _).xor (xored.shiftLeft _)

/-- The rotated word is shifted locally on the XOR shares. -/
theorem xorRotW_pushes (phase : Phase x t n) (r : Nat) :
    Pushes out (items.map fun c => (((rotatedWord r c.1).toNat : F), c.2) : List _)
      (pure (evalXorRotWUninterleaved t.half (items.map Prod.snd) r xs ys out)) := by
  have rotated : Forall₂ (fun z c => XorShares z (rotatedWord r c.1)) (xs.zipWith (fun x y =>
      ((((toU32Share x).map₂ (· ^^^ ·) (toU32Share y)).map fun a : BitVec 32 => a >>> (r % 32)).map₂
        (· ^^^ ·)
        (((toU32Share x).map₂ (· ^^^ ·) (toU32Share y)).map fun a : BitVec 32 =>
          a <<< (32 - r % 32)))) ys) items := by
    refine forall₂_zipWith_same (fun x y c left right => ?_) hx hy
    have left32 : XorShares (toU32Share x) (c.1.left.setWidth 32) := by
      rw [← phase.word32 c.1.left_lt]
      exact left.setWidth 32
    have right32 : XorShares (toU32Share y) (c.1.right.setWidth 32) := by
      rw [← phase.word32 c.1.right_lt]
      exact right.setWidth 32
    rw [rotatedWord, ← shift_xor_shift _ (Nat.mod_lt r (by decide))]
    exact ((left32.xor right32).shiftRight _).xor ((left32.xor right32).shiftLeft _)
  unfold evalXorRotWUninterleaved
  by_cases wide : 32 ≤ t.half.width
  · rw [if_pos wide]
    have widened := forall₂_map_shares (fun shares => shares.setWidth t.half.width) rotated
    have same : ∀ c : Operands n × Nat, ((rotatedWord r c.1).setWidth t.half.width).toNat =
        (rotatedWord r c.1).toNat := fun c =>
      toNat_setWidth_of_le wide
    have pushed :
      Pushes out (items.map fun c => ((((rotatedWord r c.1).setWidth t.half.width).toNat : F),
      c.2) : List _) _ :=
      pushes_b2aRing widened
    simp only [same] at pushed
    exact pushed
  · rw [if_neg wide]
    exact pushes_b2aRing rotated

end Operands

section Suffix

variable {suffix : Suffixes} {r : Nat}

theorem mem_xorRotations (known : rotationOf suffix = some r) : r ∈ xorRotations := by
  cases suffix <;> cases known <;> decide

theorem suffixMle_of_rotation (known : rotationOf suffix = some r) (b : LookupBits) :
    suffix.suffixMle x b = xorRotSuffix r b := by
  cases suffix <;> cases known <;> rfl

theorem evalSharedLeft_of_rotation (known : rotationOf suffix = some r) (suffixLen : Nat)
    (indices : List Nat) :
    evalSharedLeft x t suffixLen suffix indices xs (.shared ys) out =
      some (pure (evalXorRotUninterleaved t.half indices r xs ys out)) := by
  cases suffix <;> cases known <;> rfl

theorem suffixMle_of_rotationW (known : rotationWOf suffix = some r) (b : LookupBits) :
    suffix.suffixMle x b = xorRotWSuffix r b := by
  cases suffix <;> cases known <;> rfl

theorem evalSharedLeft_of_rotationW (known : rotationWOf suffix = some r) (suffixLen : Nat)
    (indices : List Nat) :
    evalSharedLeft x t suffixLen suffix indices xs (.shared ys) out =
      some (pure (evalXorRotWUninterleaved t.half indices r xs ys out)) := by
  cases suffix <;> cases known <;> rfl

end Suffix

theorem Phase.xorRot_value (phase : Phase x t n) (r : Nat) (c : Operands n) :
    xorRotSuffix r c.bits = (c.left ^^^ c.right).rotateRight r := by
  rw [xorRotSuffix, phase.uninterleave]
  simp only [LookupBits.toU64_setWidth]

theorem Phase.xorRotW_value (phase : Phase x t n) (r : Nat) (c : Operands n) :
    (xorRotWSuffix r c.bits).toNat = (rotatedWord r c).toNat := by
  rw [xorRotWSuffix, phase.uninterleave]
  simp only [LookupBits.toU64_setWidth]
  rw [toNat_setWidth_of_le (by decide), rotatedWord, rotateRight_mod_eq_rotateRight]

theorem half_mem (t : Uninterleavable) : t.half.width ∈ [8, 16, 32, 64] := by
  cases t <;> decide

end Arms

/-! ## Agreement -/

def xorRotSuffixes : List Suffixes :=
  [.XorRot16, .XorRot24, .XorRot32, .XorRot63, .XorRotW7, .XorRotW8, .XorRotW12, .XorRotW16]

/-- Where the shared suffix is the plaintext one: always for the 32-bit suffixes. -/
def XorRotAgrees {n : Nat} (t : Uninterleavable) (suffix : Suffixes) (c : Operands n) : Prop :=
  ∀ r, rotationOf suffix = some r → RotationAgrees t.half.width r (c.left ^^^ c.right).toNat

theorem rotation_cases {suffix : Suffixes} (known : suffix ∈ xorRotSuffixes) :
    (∃ r, rotationOf suffix = some r) ∨ ∃ r, rotationWOf suffix = some r ∧
      rotationOf suffix = none := by
  simp only [xorRotSuffixes, mem_cons, not_mem_nil, or_false] at known
  rcases known with rfl | rfl | rfl | rfl | rfl | rfl | rfl | rfl
  · exact .inl ⟨16, rfl⟩
  · exact .inl ⟨24, rfl⟩
  · exact .inl ⟨32, rfl⟩
  · exact .inl ⟨63, rfl⟩
  · exact .inr ⟨7, rfl, rfl⟩
  · exact .inr ⟨8, rfl, rfl⟩
  · exact .inr ⟨12, rfl, rfl⟩
  · exact .inr ⟨16, rfl, rfl⟩

section Agreement

variable {F : Type} [Field F] {x : Xlen} {t : Uninterleavable} {n : Nat} {ops : List (Operands n)}
  {xs ys : List (View (BitVec t.half.width))} {out : SuffixFutureBatch F} {held : List F}

/-- A batch of a 64-bit suffix reconstructs to the plaintext one where every entry agrees. -/
theorem Phase.xorRot_iff (phase : Phase x t n) (large : LargeField F)
    (hx : Forall₂ (fun x c => XorShares x (intoHalf t.half.width c.left)) xs ops)
    (hy : Forall₂ (fun y c => XorShares y (intoHalf t.half.width c.right)) ys ops)
    {suffix : Suffixes} {r : Nat} (known : rotationOf suffix = some r) (holds : out.Holds held) :
    EvaluatesTo x t (2 * n) suffix (.uninterleaved (.shared xs) (.shared ys)) out held
        (ops.map fun c => suffix.plain F x c.bits) ↔
      ∀ c ∈ ops, RotationAgrees t.half.width r (c.left ^^^ c.right).toNat := by
  have pos : 0 < t.half.width := phase.pos.trans_le phase.half
  have other : suffix ≠ .One := by
    rintro rfl
    cases known
  have filled : Fills x t (2 * n) suffix (.uninterleaved (.shared xs) (.shared ys)) out held
      (ops.map fun c => ((rotatedHalf t.half.width r c).toNat : F)) :=
    fills_of_arm other hx.length_eq (fun base out => ⟨_, evalSharedLeft_of_rotation known _ _,
      xorRot_pushes (forall₂_slots base hx) (forall₂_slots base hy) r pos⟩) holds
  rw [filled.evaluatesTo_iff, map_inj_left]
  refine forall₂_congr fun c _ => ?_
  have small : (c.left ^^^ c.right).toNat < 2 ^ t.half.width :=
    c.xor_lt.trans_le (Nat.pow_le_pow_right (by decide) phase.half)
  rw [← rotateRight_setWidth_iff (half_mem t) (mem_xorRotations known) small, Suffixes.plain,
    suffixMle_of_rotation known, phase.xorRot_value]
  constructor
  · exact fun equal => large _ _ (BitVec.isLt _)
      ((BitVec.isLt _).trans_le (Nat.pow_le_pow_right (by decide) phase.narrow)) equal
  · exact fun equal => congrArg (Nat.cast : Nat → F) equal

theorem Phase.xorRotW_evaluates (phase : Phase x t n)
    (hx : Forall₂ (fun x c => XorShares x (intoHalf t.half.width c.left)) xs ops)
    (hy : Forall₂ (fun y c => XorShares y (intoHalf t.half.width c.right)) ys ops)
    {suffix : Suffixes} {r : Nat} (known : rotationWOf suffix = some r) (holds : out.Holds held) :
    EvaluatesTo x t (2 * n) suffix (.uninterleaved (.shared xs) (.shared ys)) out held
      (ops.map fun c => suffix.plain F x c.bits) := by
  have other : suffix ≠ .One := by
    rintro rfl
    cases known
  refine (fills_of_arm other hx.length_eq
    (fun base out => ⟨_, evalSharedLeft_of_rotationW known _ _, ?_⟩) holds).evaluatesTo
  refine Pushes.plain (xorRotW_pushes (forall₂_slots base hx) (forall₂_slots base hy) phase r)
    fun c => ?_
  rw [suffixMle_of_rotationW known, phase.xorRotW_value]

end Agreement

/-- The XOR-rotate suffixes of a batch of shared operands reconstruct to the plaintext ones exactly
where every entry agrees. -/
theorem xorRot_suffixes_iff {F : Type} [Field F] (large : LargeField F) {b : Build} {n : Nat}
    {t : Uninterleavable} (used : 2 * n ∈ b.suffixLens)
    (ring : Uninterleavable.ofSuffixLen (2 * n) = some t) {ops : List (Operands n)}
    {xs ys : List (View (BitVec t.half.width))} (operands : BatchOperands t ops xs (.shared ys))
    {suffix : Suffixes} (known : suffix ∈ xorRotSuffixes) {out : SuffixFutureBatch F}
    {held : List F} (holds : out.Holds held) :
    EvaluatesTo b.xlen t (2 * n) suffix (.uninterleaved (.shared xs) (.shared ys)) out held
        (ops.map fun c => suffix.plain F b.xlen (.new (interleaveBits c.left c.right) (2 * n))) ↔
      ∀ c ∈ ops, XorRotAgrees t suffix c := by
  have phase := Build.phase used ring
  have right : Forall₂ (fun y c => XorShares y (intoHalf t.half.width c.right)) ys ops :=
    forall₂_map_left_iff.mp operands.right
  rcases rotation_cases known with ⟨r, rotation⟩ | ⟨r, rotation, none⟩
  · refine (phase.xorRot_iff large operands.left right rotation holds).trans
      (forall₂_congr fun c _ => ?_)
    simp [XorRotAgrees, rotation]
  · refine iff_of_true (phase.xorRotW_evaluates operands.left right rotation holds)
      fun c _ r rotated => ?_
    rw [none] at rotated
    cases rotated

/-- A word whose low 16 bits are clear, in the phase with 48 suffix bits. -/
theorem xorRot_suffixes_iff_clear :
    EvaluatesTo .rv64 .u64 48 .XorRot16
      (.uninterleaved (.shared [.promoteToTrivialShare 0x30000#32])
        (.shared [.promoteToTrivialShare 0x10000#32])) .new []
      [(2 : ℚ)] := by
  let ops : List (Operands 24) := [⟨0x30000, 0x10000, by decide, by decide⟩]
  have operands : BatchOperands .u64 ops [.promoteToTrivialShare 0x30000#32]
      (.shared [.promoteToTrivialShare 0x10000#32]) :=
    ⟨.cons (.promote 0x30000#32) .nil, .cons (.promote 0x10000#32) .nil⟩
  have known : Suffixes.XorRot16 ∈ xorRotSuffixes := by decide
  have agrees : ∀ c ∈ ops, XorRotAgrees .u64 .XorRot16 c := by
    intro c mem r rotation
    cases rotation
    rw [mem_singleton] at mem
    subst mem
    exact .inr (.inl (by decide))
  have values :
      (ops.map fun c => Suffixes.XorRot16.plain ℚ .rv64 (.new (interleaveBits c.left c.right) 48)) =
      [2] := by
    have value :
      (Suffixes.XorRot16.suffixMle .rv64 (.new (interleaveBits 0x30000 0x10000) 48)).toNat = 2 := by
      decide +kernel
    simp only [ops, map_cons, Suffixes.plain, value]
    norm_num
  exact (xorRot_suffixes_iff (b := ⟨.rv64, false⟩) largeField_rat (by decide) (by decide)
    operands known
    SuffixFutureBatch.new_holds).mpr agrees

/-- `1 XOR 0` in the phase with 64 suffix bits of the 64-bit build: the plaintext rotation by 16
sets bit 48, the half ring has 32 bits. -/
theorem xorRot16_not_reconstructed :
    ¬ EvaluatesTo .rv64 .u64 64 .XorRot16
      (.uninterleaved (.shared [.promoteToTrivialShare 1#32])
        (.shared [.promoteToTrivialShare 0#32])) .new [] [(2 ^ 48 : ℚ)] := by
  let ops : List (Operands 32) := [⟨1, 0, by decide, by decide⟩]
  have phase : Phase .rv64 .u64 32 := ⟨by decide, by decide⟩
  have values : (ops.map fun c => Suffixes.XorRot16.plain ℚ .rv64 c.bits) = [2 ^ 48] := by
    have value : (Suffixes.XorRot16.suffixMle .rv64 (.new (interleaveBits 1 0) 64)).toNat =
      2 ^ 48 := by decide +kernel
    simp only [ops, map_cons, Suffixes.plain, Operands.bits, value]
    norm_num
  rw [← values]
  intro evaluates
  have agrees :=
    (phase.xorRot_iff largeField_rat (.cons (.promote 1#32) .nil) (.cons (.promote 0#32) .nil) rfl
    SuffixFutureBatch.new_holds).mp evaluates _ (mem_cons_self ..)
  revert agrees
  unfold RotationAgrees
  decide

end ProviaVM.ReadRaf
