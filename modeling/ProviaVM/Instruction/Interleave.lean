import ProviaVM.Instruction.Operand

/-! # Interleaved lookup indices

`interleave_bits` and `uninterleave_bits` of `jolt-core/src/utils/mod.rs`, and
`interleave_bits_shared` of `provia-worker/src/utils/instruction_utils.rs`, with their
shifts and masks. The shared version works on the components of a share, and asks that
they use the lower half of the word only. A public operand of the 32-bit build is not
cut down to the register word before; `cutImm` is the word the spreading then sees. -/
namespace ProviaVM.Instruction
open Preprocessing Rep3 BitSpread BitVec

/-- The shifts and masks that spread the bits of a 128-bit word. -/
def spreadSteps128 : List (Nat × BitVec 128) :=
  [(32, 0x00000000FFFFFFFF00000000FFFFFFFF), (16, 0x0000FFFF0000FFFF0000FFFF0000FFFF),
    (8, 0x00FF00FF00FF00FF00FF00FF00FF00FF), (4, 0x0F0F0F0F0F0F0F0F0F0F0F0F0F0F0F0F),
    (2, 0x33333333333333333333333333333333), (1, 0x55555555555555555555555555555555)]

/-- The shifts and masks that spread the bits of a 64-bit word. -/
def spreadSteps64 : List (Nat × BitVec 64) :=
  [(16, 0x0000FFFF0000FFFF), (8, 0x00FF00FF00FF00FF), (4, 0x0F0F0F0F0F0F0F0F),
    (2, 0x3333333333333333), (1, 0x5555555555555555)]

/-- The shifts and masks that compact the even bits of a 128-bit word. -/
def compactSteps128 : List (Nat × BitVec 128) :=
  [(1, 0x33333333333333333333333333333333), (2, 0x0F0F0F0F0F0F0F0F0F0F0F0F0F0F0F0F),
    (4, 0x00FF00FF00FF00FF00FF00FF00FF00FF), (8, 0x0000FFFF0000FFFF0000FFFF0000FFFF),
    (16, 0x00000000FFFFFFFF00000000FFFFFFFF), (32, 0x0000000000000000FFFFFFFFFFFFFFFF)]

def interleaveBits (evenBits oddBits : BitVec 64) : BitVec 128 :=
  interleave spreadSteps128 (evenBits.setWidth 128) (oddBits.setWidth 128)

def evenMask : BitVec 128 := 0x55555555555555555555555555555555

def uninterleaveBits (val : BitVec 128) : BitVec 64 × BitVec 64 :=
  let xBits := (val >>> 1) &&& evenMask
  let yBits := val &&& evenMask
  ((compactAll compactSteps128 xBits).setWidth 64, (compactAll compactSteps128 yBits).setWidth 64)

/-- The steps of the build's `interleave_cleartext`. -/
def spreadSteps : (x : Xlen) → List (Nat × BitVec (2 * x.bits))
  | .rv32 => spreadSteps64
  | .rv64 => spreadSteps128

def interleaveCleartext (x : Xlen) (even odd : BitVec (2 * x.bits)) : BitVec (2 * x.bits) :=
  interleave (spreadSteps x) even odd

def interleaveBitsShared {x : Xlen} (evenBits oddBits : View (BitVec (2 * x.bits))) :
    View (BitVec (2 * x.bits)) :=
  evenBits.map₂ (interleaveCleartext x) oddBits

theorem halving_spreadSteps : (x : Xlen) → Halving x.bits (spreadSteps x)
  | .rv32 => by decide +kernel
  | .rv64 => by decide +kernel

theorem doubling128 : Doubling 1 compactSteps128 := by decide +kernel

theorem lowHalf_setWidth {w v : Nat} (x : BitVec w) (half : 2 * w ≤ v) :
    LowHalf (x.setWidth v) := by
  intro i high
  rw [getLsbD_setWidth, getLsbD_of_ge x i (by omega)]
  simp

theorem spread128 (e : BitVec 64) :
    Spread 1 (e.setWidth 128) (spreadAll spreadSteps128 (e.setWidth 128)) :=
  spreadAll_spread (halving_spreadSteps .rv64) (.of_lowHalf rfl (lowHalf_setWidth e (by decide)))

variable {i : Nat} {x : Xlen}

theorem getLsbD_interleaveBits (e o : BitVec 64) (inside : i < 64) :
    (interleaveBits e o).getLsbD (2 * i) = o.getLsbD i ∧ (interleaveBits e o).getLsbD (2 * i + 1) =
      e.getLsbD i := by
  have bits := getLsbD_interleave (spread128 e) (spread128 o) (i := i) (by omega)
  simpa [interleaveBits, show i < 128 by omega] using bits

/-- Uninterleaving is the inverse of interleaving. -/
theorem uninterleaveBits_interleaveBits (e o : BitVec 64) :
    uninterleaveBits (interleaveBits e o) = (e, o) := by
  have mask : ∀ i < 128, evenMask.getLsbD i = decide (i % 2 = 0) := by decide +kernel
  have spreadEven : Spread 1 (e.setWidth 128) ((interleaveBits e o >>> 1) &&& evenMask) := by
    refine .of_bits (fun i inside => ?_) fun i inside => ?_
    · rw [getLsbD_and, getLsbD_ushiftRight, Nat.add_comm 1,
        (getLsbD_interleaveBits e o (by omega)).2, mask _ inside]
      simp [show i < 128 by omega]
    · rw [getLsbD_and, mask _ inside]
      simp [Nat.add_mod]
  have spreadOdd : Spread 1 (o.setWidth 128) (interleaveBits e o &&& evenMask) := by
    refine .of_bits (fun i inside => ?_) fun i inside => ?_
    · rw [getLsbD_and, (getLsbD_interleaveBits e o (by omega)).1, mask _ inside]
      simp [show i < 128 by omega]
    · rw [getLsbD_and, mask _ inside]
      simp [Nat.add_mod]
  have compacted : ∀ (v : BitVec 64) (y : BitVec 128), Spread 1 (v.setWidth 128) y →
      (compactAll compactSteps128 y).setWidth 64 = v := by
    intro v y spread
    apply eq_of_getLsbD_eq
    intro i inside
    rw [getLsbD_setWidth,
      getLsbD_compactAll (lowHalf_setWidth v (by decide)) doubling128 spread (by omega)]
    simp [inside, show i < 128 by omega]
  exact Prod.ext (compacted e _ spreadEven) (compacted o _ spreadOdd)

/-- The register word that the spreading of a wide word shows: its third quarter is OR-ed onto the
second one. -/
def seenWord {x : Xlen} (e : BitVec (2 * x.bits)) : BitVec x.bits :=
  e.setWidth x.bits ||| ((e >>> (x.bits / 2)).setWidth x.bits &&&
    (BitVec.allOnes x.bits <<< (x.bits / 2)))

theorem getLsbD_seenWord (e : BitVec (2 * x.bits)) (inside : i < x.bits) :
    (seenWord e).getLsbD i = (e.getLsbD i ||
      (decide (x.bits / 2 ≤ i) && e.getLsbD (x.bits / 2 + i))) := by
  simp only [seenWord, getLsbD_or, getLsbD_and, getLsbD_setWidth, getLsbD_shiftLeft, inside]
  by_cases low : i < x.bits / 2
  · simp [show ¬ x.bits / 2 ≤ i by omega]
  · simp [low, show x.bits / 2 ≤ i by omega, show i - x.bits / 2 < x.bits by omega]

theorem Xlen.two_mul_half (x : Xlen) : 2 * (x.bits / 2) = x.bits := by cases x <;> rfl

/-- Spreading an operand that is too wide spreads the word it is seen as. -/
theorem spread_seenWord (e : BitVec (2 * x.bits)) :
    Spread 1 ((seenWord e).setWidth (2 * x.bits)) (spreadAll (spreadSteps x) e) := by
  have bit : ∀ i, i < x.bits → ((seenWord e).setWidth (2 * x.bits)).getLsbD i =
      (e.getLsbD i || (decide (x.bits / 2 ≤ i) && e.getLsbD (x.bits / 2 + i))) := by
    intro i inside
    rw [getLsbD_setWidth, getLsbD_seenWord e inside]
    simp [show i < 2 * x.bits by omega]
  have even := x.two_mul_half
  have halving : Halving (2 * (x.bits / 2)) (spreadSteps x) := by
    rw [even]
    exact halving_spreadSteps x
  refine spreadAll_seen (by omega) halving (fun r small => ?_) (fun r small => ?_)
    (lowHalf_setWidth _ (Nat.le_refl _))
  · rw [bit r (by omega)]
    simp [show ¬ x.bits / 2 ≤ r by omega]
  · rw [bit _ (by omega), ← Nat.add_assoc, ← Nat.two_mul]
    simp

theorem getLsbD_interleaveCleartext (e o : BitVec (2 * x.bits)) (inside : i < x.bits) :
    (interleaveCleartext x e o).getLsbD (2 * i) = (seenWord o).getLsbD i ∧
      (interleaveCleartext x e o).getLsbD (2 * i + 1) = (seenWord e).getLsbD i := by
  have bits := getLsbD_interleave (spread_seenWord e) (spread_seenWord o) (i := i) (by omega)
  simpa [interleaveCleartext, show i < 2 * x.bits by omega] using bits

/-- The low bits of the plaintext index depend on the register words only. -/
theorem interleaveBits_setWidth {e o : BitVec 64} {z : BitVec (2 * x.bits)}
    (bits : ∀ i < x.bits, z.getLsbD (2 * i) = o.getLsbD i ∧ z.getLsbD (2 * i + 1) = e.getLsbD i) :
    (interleaveBits e o).setWidth (2 * x.bits) = z := by
  apply eq_of_getLsbD_eq
  intro i inside
  have small := x.bits_le
  rw [getLsbD_setWidth, decide_eq_true inside, Bool.true_and]
  rcases Nat.mod_two_eq_zero_or_one i with even | odd
  · obtain ⟨k, rfl⟩ : ∃ k, i = 2 * k := ⟨i / 2, by omega⟩
    rw [(getLsbD_interleaveBits e o (by omega)).1, (bits k (by omega)).1]
  · obtain ⟨k, rfl⟩ : ∃ k, i = 2 * k + 1 := ⟨i / 2, by omega⟩
    rw [(getLsbD_interleaveBits e o (by omega)).2, (bits k (by omega)).2]

theorem seenWord_setWidth (v : BitVec x.bits) : seenWord (v.setWidth (2 * x.bits)) = v := by
  apply eq_of_getLsbD_eq
  intro i inside
  rw [getLsbD_seenWord _ inside]
  have even := x.two_mul_half
  by_cases upper : x.bits / 2 ≤ i
  · simp [show i < 2 * x.bits by omega, getLsbD_of_ge v (x.bits / 2 + i) (by omega)]
  · simp [show i < 2 * x.bits by omega, upper]

/-- The operand shows the word `v` to the interleaving. -/
def Rep3Operand.Shows {x : Xlen} (op : Rep3Operand x) (v : BitVec x.bits) : Prop :=
  Replicated op.toBinaryWide ∧ parity (fun p => seenWord (op.toBinaryWide p).a) = v

/-- Interleaving two operands: the index opens to the interleaved words they show. -/
theorem interleaveBitsShared_spec {l r : Rep3Operand x} {e o : BitVec 64}
    (hl : l.Shows (e.setWidth x.bits)) (hr : r.Shows (o.setWidth x.bits)) :
    XorShares (interleaveBitsShared l.toBinaryWide r.toBinaryWide)
      ((interleaveBits e o).setWidth (2 * x.bits)) := by
  obtain ⟨replicatedL, showsL⟩ := hl
  obtain ⟨replicatedR, showsR⟩ := hr
  refine ⟨replicatedL.map₂ replicatedR _, ?_⟩
  refine (interleaveBits_setWidth fun i inside => ?_).symm
  have bitL := congrArg (·.getLsbD i) showsL
  have bitR := congrArg (·.getLsbD i) showsR
  simp only [parity, getLsbD_xor, getLsbD_setWidth, inside] at bitL bitR
  simp [parity, interleaveBitsShared, View.map₂, Rep3Share.map₂,
    getLsbD_interleaveCleartext _ _ inside, bitL, bitR]

/-- A shared operand is seen as the word it shares. -/
theorem Rep3Operand.shows_shared {binary : View (BitVec x.bits)}
    {arithmetic : Option (View (BitVec (2 * x.bits)))} {hint : Option (BitVec 64)}
    {v : BitVec x.bits} (h : XorShares binary v) :
    (Rep3Operand.shared binary arithmetic hint).Shows v := by
  refine ⟨h.replicated.map _, ?_⟩
  simp only [toBinaryWide, View.map, Rep3Share.map, seenWord_setWidth]
  exact h.opens

/-- A public operand shows what the spreading sees of it. -/
theorem Rep3Operand.shows_opened (value : Int) :
    (Rep3Operand.opened value : Rep3Operand x).Shows
      (seenWord (BitVec.ofInt (2 * x.bits) value)) := by
  refine ⟨replicated_promote _, ?_⟩
  have zero : seenWord 0#(2 * x.bits) = 0#x.bits := by
    have shown := seenWord_setWidth 0#x.bits
    simpa using shown
  simp [toBinaryWide, parity, View.promoteToTrivialShare, zero]

end ProviaVM.Instruction
