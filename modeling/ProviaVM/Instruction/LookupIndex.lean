import ProviaVM.Instruction.Interleave

/-! # The lookup index of a cycle, in the clear and shared

`LookupQuery` of `jolt-core/src/zkvm/instruction/*.rs` gives a cycle its inputs and its
lookup index; `Rep3LookupQuery` of `provia-worker/src/zkvm/instruction/*.rs` does the
same on shared operands, and `compute_public_index` and `compute_right_operand_public`
of `provia-worker/src/zkvm/witness.rs` are shortcuts for public operands. A panic of the
source is `none`. -/
namespace ProviaVM.Instruction
open Preprocessing Rep3 BitSpread Option BitVec

/-- The instructions for which `Rep3Cycle` implements `Rep3LookupQuery`, in either build. -/
inductive InstructionKind where
  | NoOp
  | ADD | ADDI | AND | ANDI | ANDN | AUIPC | BEQ | BGE | BGEU | BLT | BLTU | BNE
  | ECALL | FENCE | JAL | JALR | LUI | LD | MUL | MULHU | OR | ORI
  | SLT | SLTI | SLTIU | SLTU | SUB | SD | XOR | XORI
  | VirtualAdvice | VirtualAssertEQ | VirtualAssertHalfwordAlignment
  | VirtualAssertWordAlignment | VirtualAssertLTE
  | VirtualAssertValidDiv0 | VirtualAssertValidUnsignedRemainder
  | VirtualChangeDivisor | VirtualChangeDivisorW | VirtualAssertMulUNoOverflow
  | VirtualLW | VirtualSW
  | VirtualZeroExtendWord | VirtualSignExtendWord | VirtualMove | VirtualMovsign | VirtualMULI
  | VirtualPow2
  | VirtualPow2I | VirtualPow2W | VirtualPow2IW | VirtualRev8W | VirtualShiftRightBitmask
  | VirtualShiftRightBitmaskI
  | VirtualROTRI | VirtualROTRIW
  | VirtualSRA | VirtualSRAI | VirtualSRL | VirtualSRLI
  | VirtualXORROT32 | VirtualXORROT24 | VirtualXORROT16 | VirtualXORROT63
  | VirtualXORROTW16 | VirtualXORROTW12 | VirtualXORROTW8 | VirtualXORROTW7
  deriving DecidableEq, Repr

/-- The two lists of `impl_rep3_lookup_query!`: the build without `rv64` leaves some out. -/
def InstructionKind.supported (x : Xlen) : InstructionKind → Bool
  | .LD | .SD | .VirtualChangeDivisorW | .VirtualZeroExtendWord | .VirtualSignExtendWord
  | .VirtualPow2W | .VirtualPow2IW | .VirtualROTRIW
  | .VirtualXORROTW16 | .VirtualXORROTW12 | .VirtualXORROTW8 | .VirtualXORROTW7 => x = .rv64
  | _ => true

/-- What the plaintext queries read of a `RISCVCycle`: registers, the immediate (an `i64` in the
alignment format, else a `u64`), the address and the advice. -/
structure Cycle where
  rs1 : BitVec 64 := 0
  rs2 : BitVec 64 := 0
  imm : BitVec 64 := 0
  address : BitVec 64 := 0
  advice : Option (BitVec 64) := none

/-- `v as u32 as u64` for `XLEN = 32`, `v` for `XLEN = 64`. -/
def Xlen.cut (x : Xlen) (v : BitVec 64) : BitVec 64 := (v.setWidth x.bits).setWidth 64

namespace Cycle

def toInstructionInputs (x : Xlen) (k : InstructionKind) (c : Cycle) : Option (BitVec 64 × Int) :=
  match k with
  | .NoOp | .ECALL | .FENCE | .LD | .SD | .VirtualLW | .VirtualSW | .VirtualAdvice => some (0, 0)
  | .ADD | .AND | .ANDN | .BEQ | .BGE | .BGEU | .BLT | .BLTU | .BNE | .MUL | .MULHU | .OR | .SLT
  | .SLTU | .SUB | .XOR
  | .VirtualAssertEQ | .VirtualAssertLTE | .VirtualAssertValidDiv0
  | .VirtualAssertValidUnsignedRemainder
  | .VirtualChangeDivisor | .VirtualAssertMulUNoOverflow | .VirtualSRA | .VirtualSRL =>
    some (x.cut c.rs1, (x.cut c.rs2).toNat)
  | .ADDI | .ANDI | .JALR | .ORI | .SLTI | .SLTIU | .XORI | .VirtualMovsign | .VirtualMULI
  | .VirtualSRAI | .VirtualSRLI =>
    some (x.cut c.rs1, (x.cut c.imm).toNat)
  | .AUIPC | .JAL => some (x.cut c.address, (x.cut c.imm).toNat)
  | .LUI | .VirtualPow2I | .VirtualShiftRightBitmaskI => some (0, (x.cut c.imm).toNat)
  | .VirtualPow2IW => some (0, c.imm.toNat)
  | .VirtualMove | .VirtualPow2 | .VirtualShiftRightBitmask => some (x.cut c.rs1, 0)
  | .VirtualZeroExtendWord | .VirtualSignExtendWord | .VirtualPow2W | .VirtualRev8W =>
      some (c.rs1, 0)
  | .VirtualROTRI | .VirtualROTRIW => some (c.rs1, c.imm.toNat)
  | .VirtualAssertHalfwordAlignment | .VirtualAssertWordAlignment =>
    match x with
    | .rv32 => some (x.cut c.rs1, (c.imm.setWidth 32).toNat)
    | .rv64 => some (c.rs1, c.imm.toInt)
  | .VirtualChangeDivisorW => some ((c.rs1.setWidth 32).setWidth 64, (c.rs2.setWidth 32).toInt)
  | .VirtualXORROT32 | .VirtualXORROT24 | .VirtualXORROT16 | .VirtualXORROT63
  | .VirtualXORROTW16 | .VirtualXORROTW12 | .VirtualXORROTW8 | .VirtualXORROTW7 =>
    match x with
    | .rv32 => none
    | .rv64 => some (c.rs1, c.rs2.toNat)

/-- The bodies of `LookupQuery::to_lookup_index`, through `to_lookup_operands`. -/
inductive IndexRule where
  /-- The default: the operands interleaved. -/
  | interleave
  /-- `x as u128 + y as u64 as u128`. -/
  | add
  /-- `x as u128 + y as u128`. -/
  | addWide
  /-- `(x as i128 + y) as u128`. -/
  | addSigned
  /-- `u128::try_from(x as i128 + y).unwrap()`. -/
  | addChecked
  /-- `x as u128 + ((1 << XLEN) - y as u128)`. -/
  | sub
  /-- `x as u128 * y as u64 as u128`. -/
  | mul
  /-- The second operand of the default `to_lookup_operands`. -/
  | second
  /-- `rs1.into()`. -/
  | rs1
  | advice
  | zero

def indexRule : InstructionKind → IndexRule
  | .NoOp => .zero
  | .ADD | .ADDI | .VirtualPow2 | .VirtualPow2I | .VirtualPow2W | .VirtualPow2IW
  | .VirtualShiftRightBitmask | .VirtualShiftRightBitmaskI | .VirtualSignExtendWord => .add
  | .VirtualMove => .addWide
  | .LUI => .second
  | .AUIPC | .JAL | .JALR | .VirtualAssertHalfwordAlignment | .VirtualAssertWordAlignment =>
    .addSigned
  | .VirtualZeroExtendWord => .addChecked
  | .MUL | .MULHU | .VirtualMULI | .VirtualAssertMulUNoOverflow => .mul
  | .SUB => .sub
  | .VirtualRev8W => .rs1
  | .VirtualAdvice => .advice
  | _ => .interleave

def toLookupIndex (x : Xlen) (k : InstructionKind) (c : Cycle) : Option (BitVec 128) := do
  let (l, r) ← c.toInstructionInputs x k
  match indexRule k with
  | .interleave => some (interleaveBits l (BitVec.ofInt 64 r))
  | .add => some (l.setWidth 128 + (BitVec.ofInt 64 r).setWidth 128)
  | .addWide => some (l.setWidth 128 + BitVec.ofInt 128 r)
  | .addSigned => some (BitVec.ofInt 128 (l.toNat + r))
  | .addChecked => if 0 ≤ (l.toNat : Int) + r then some (BitVec.ofInt 128 (l.toNat + r)) else none
  | .sub => some (l.setWidth 128 + (1#128 <<< x.bits - BitVec.ofInt 128 r))
  | .mul => some (l.setWidth 128 * (BitVec.ofInt 64 r).setWidth 128)
  | .second => some ((BitVec.ofInt 64 r).setWidth 128)
  | .rs1 => some (c.rs1.setWidth 128)
  | .advice => some ((x.cut (c.advice.getD 0)).setWidth 128)
  | .zero => some 0

end Cycle

/-- What the shared queries read of a `Rep3RISCVCycle`, as the three parties hold it. -/
structure Rep3Cycle (x : Xlen) where
  rs1 : Rep3Operand x := .opened 0
  rs2 : Rep3Operand x := .opened 0
  imm : BitVec 64 := 0
  address : BitVec 64 := 0
  advice : Option (Rep3Operand x) := none

/-- `FutureRep3Ring` into the ring. -/
inductive IndexFuture (w : Nat) where
  | ready (v : View (BitVec w))
  | a2b (v : View (BitVec w))
  | mulA2B (u v : View (BitVec w))

/-- `fulfill_batched` on one future. -/
def IndexFuture.fulfill {F : Type} [CommRing F] {w : Nat} : IndexFuture w → Mpc F (View (BitVec w))
  | .ready v => pure v
  | .a2b v => Rep3.a2b v
  | .mulA2B u v => do
    let product ← mul u v
    Rep3.a2b product

namespace Rep3Cycle

variable {x : Xlen}

def toInstructionInputs (k : InstructionKind) (c : Rep3Cycle x) : Rep3Operand x × Rep3Operand x :=
  match k with
  | .NoOp | .ECALL | .FENCE | .LD | .SD | .VirtualLW | .VirtualSW | .VirtualAdvice =>
      (.opened 0, .opened 0)
  | .ADD | .AND | .ANDN | .BEQ | .BGE | .BGEU | .BLT | .BLTU | .BNE | .MUL | .MULHU | .OR | .SLT
  | .SLTU | .SUB | .XOR
  | .VirtualAssertEQ | .VirtualAssertLTE | .VirtualAssertValidDiv0
  | .VirtualAssertValidUnsignedRemainder
  | .VirtualChangeDivisor | .VirtualChangeDivisorW | .VirtualAssertMulUNoOverflow | .VirtualSRA
  | .VirtualSRL
  | .VirtualXORROT32 | .VirtualXORROT24 | .VirtualXORROT16 | .VirtualXORROT63
  | .VirtualXORROTW16 | .VirtualXORROTW12 | .VirtualXORROTW8 | .VirtualXORROTW7 => (c.rs1, c.rs2)
  | .ADDI | .ANDI | .JALR | .ORI | .SLTI | .SLTIU | .XORI | .VirtualMovsign | .VirtualMULI
  | .VirtualSRAI | .VirtualSRLI
  | .VirtualROTRI | .VirtualROTRIW | .VirtualAssertHalfwordAlignment
  | .VirtualAssertWordAlignment =>
    (c.rs1, .opened c.imm.toNat)
  | .AUIPC | .JAL => (.opened c.address.toNat, .opened c.imm.toNat)
  | .LUI | .VirtualPow2IW => (.opened 0, .opened c.imm.toNat)
  | .VirtualPow2I | .VirtualShiftRightBitmaskI => (.opened c.imm.toNat, .opened 0)
  | .VirtualMove | .VirtualPow2 | .VirtualShiftRightBitmask | .VirtualZeroExtendWord
  | .VirtualSignExtendWord
  | .VirtualPow2W | .VirtualRev8W => (c.rs1, .opened 0)

/-- The bodies of `Rep3LookupQuery::to_lookup_index`. -/
inductive IndexRule where
  /-- The default: the binary forms interleaved, without communication. -/
  | interleave
  | add
  | sub
  | mul
  | advice
  | zero

def indexRule : InstructionKind → IndexRule
  | .NoOp => .zero
  | .ADD | .ADDI | .AUIPC | .JAL | .JALR | .LUI | .VirtualMove | .VirtualPow2 | .VirtualPow2I
    | .VirtualPow2W
  | .VirtualPow2IW | .VirtualRev8W | .VirtualShiftRightBitmask | .VirtualShiftRightBitmaskI
    | .VirtualSignExtendWord
  | .VirtualZeroExtendWord | .VirtualAssertHalfwordAlignment | .VirtualAssertWordAlignment => .add
  | .SUB => .sub
  | .MUL | .MULHU | .VirtualMULI | .VirtualAssertMulUNoOverflow => .mul
  | .VirtualAdvice => .advice
  | _ => .interleave

def toLookupIndex (k : InstructionKind) (c : Rep3Cycle x) : Option (IndexFuture (2 * x.bits)) :=
  let (left, right) := c.toInstructionInputs k
  match indexRule k with
  | .interleave => some (.ready (interleaveBitsShared left.toBinaryWide right.toBinaryWide))
  | .add => do
    let l ← left.asArithmeticOrTrivialWide
    let r ← right.asArithmeticOrTrivialWide
    return .a2b (l.map₂ (· + ·) r)
  | .sub => do
    let l ← left.asArithmeticOrTrivialWide
    let r ← right.asArithmeticOrTrivialWide
    return .a2b (l.map₂ (· + ·) (addPublic (r.map (- ·)) (1#(2 * x.bits) <<< x.bits)))
  | .mul => do
    let l ← left.asArithmeticOrTrivialWide
    let r ← right.asArithmeticOrTrivialWide
    return .mulA2B l r
  | .advice => do
    let advice ← c.advice
    return .ready (advice.asBinaryOrTrivial.map (BitVec.setWidth (2 * x.bits)))
  | .zero => some (.ready fun _ => ⟨0, 0⟩)

def populateOperandsCasts {F : Type} [CommRing F] (c : Rep3Cycle x) : Mpc F (Rep3Cycle x) := do
  let rs1 ← c.rs1.populateCasts
  let rs2 ← c.rs2.populateCasts
  match c.advice with
  | none => return { c with rs1, rs2 }
  | some op => do
    let op ← op.populateCasts
    return { c with rs1, rs2, advice := some op }

/-- The share of the lookup index: the operands are cast, the future is fulfilled. -/
def lookupIndexShare {F : Type} [CommRing F] (k : InstructionKind) (c : Rep3Cycle x) :
    Mpc F (Option (View (BitVec (2 * x.bits)))) := do
  let c ← c.populateOperandsCasts
  match c.toLookupIndex k with
  | none => return none
  | some future => do
    let share ← future.fulfill
    return some share

/-- The `Public` value of an operand or the `public` value of a trivial share, as an `i128`. -/
def publicValue : Rep3Operand x → Option Int
  | .opened v => some v
  | .shared _ _ hint => hint.map fun v => (v.toNat : Int)

def tryPublicAdd (inputs : Rep3Operand x × Rep3Operand x) : Option (BitVec (2 * x.bits)) := do
  let l ← publicValue inputs.1
  let r ← publicValue inputs.2
  return (BitVec.ofInt x.bits l).setWidth (2 * x.bits) + (BitVec.ofInt x.bits r).setWidth
    (2 * x.bits)

def computePublicIndex (k : InstructionKind) (c : Rep3Cycle x) : Option (BitVec (2 * x.bits)) :=
  match k with
  | .LUI | .AUIPC | .JAL | .VirtualPow2 | .VirtualPow2I | .VirtualPow2W | .VirtualPow2IW
  | .VirtualShiftRightBitmask | .VirtualShiftRightBitmaskI => tryPublicAdd (c.toInstructionInputs k)
  | _ => none

def extractRight (inputs : Rep3Operand x × Rep3Operand x) : Option (BitVec 64) :=
  match inputs.2 with
  | .opened v => some (BitVec.ofInt 64 v)
  | .shared _ _ hint => hint.map x.cut

def computeRightOperandPublic (k : InstructionKind) (c : Rep3Cycle x) : Option (BitVec 64) :=
  match k with
  | .VirtualSRA | .VirtualSRL | .VirtualSRAI | .VirtualSRLI | .VirtualROTRI | .VirtualROTRIW
  | .ADDI | .ANDI | .ORI | .XORI | .SLTI | .SLTIU | .VirtualMULI =>
      extractRight (c.toInstructionInputs k)
  | _ => none

end Rep3Cycle

/-- The operand is a register that holds `v`: public, trivially shared or shared. -/
structure Rep3Operand.IsRegister {x : Xlen} (op : Rep3Operand x) (v : BitVec 64) : Prop where
  small : v.toNat < 2 ^ x.bits
  holds : op.Holds (v.setWidth x.bits)
  opened : ∀ value, op = .opened value → value = v.toNat

/-- The shared cycle is a sharing of the plaintext cycle. -/
structure Rep3Cycle.SharingOf {x : Xlen} (s : Rep3Cycle x) (k : InstructionKind) (c : Cycle) :
    Prop where
  rs1 : s.rs1.IsRegister c.rs1
  rs2 : s.rs2.IsRegister c.rs2
  imm : s.imm = c.imm
  address : s.address = c.address
  advice : k = .VirtualAdvice → ∃ op, s.advice = some op ∧ op.IsRegister (c.advice.getD 0)

theorem ofInt_toNat {n : Nat} (w : Nat) (v : BitVec n) : BitVec.ofInt w v.toNat = v.setWidth w := by
  simp

theorem setWidth_ofInt {w n : Nat} (narrower : w ≤ n) (i : Int) :
    (BitVec.ofInt n i).setWidth w = BitVec.ofInt w i := by
  have divides : ((2 ^ w : Nat) : Int) ∣ ((2 ^ n : Nat) : Int) :=
    Int.natCast_dvd_natCast.mpr (pow_dvd_pow 2 narrower)
  apply eq_of_toNat_eq
  rw [toNat_setWidth, toNat_ofInt, toNat_ofInt, ← Int.natCast_inj, Int.natCast_emod,
    Int.toNat_of_nonneg (Int.emod_nonneg _ (Int.natCast_ne_zero.mpr (Nat.two_pow_pos n).ne')),
    Int.toNat_of_nonneg (Int.emod_nonneg _ (Int.natCast_ne_zero.mpr (Nat.two_pow_pos w).ne')),
    Int.emod_emod_of_dvd _ divides]

theorem Xlen.cut_setWidth (x : Xlen) (v : BitVec 64) :
    (x.cut v).setWidth x.bits = v.setWidth x.bits := by
  rw [Xlen.cut, setWidth_setWidth_of_le _ x.bits_le, setWidth_eq]

/-- Cutting a word that fits does not change it. -/
theorem setWidth_cut {n m w : Nat} {v : BitVec n} (small : v.toNat < 2 ^ m) :
    (v.setWidth m).setWidth w = v.setWidth w := by
  apply eq_of_toNat_eq
  rw [toNat_setWidth, toNat_setWidth, toNat_setWidth, Nat.mod_eq_of_lt small]

namespace Rep3Operand

variable {x : Xlen}

theorem IsRegister.shows {op : Rep3Operand x} {v : BitVec 64} (h : op.IsRegister v) :
    op.Shows (v.setWidth x.bits) := by
  obtain ⟨small, holds, opened⟩ := h
  cases op with
  | shared binary arithmetic hint =>
    cases holds with
    | shared shares _ _ => exact shows_shared shares
  | opened value =>
    have wide : BitVec.ofInt (2 * x.bits) value = (v.setWidth x.bits).setWidth (2 * x.bits) := by
      rw [opened value rfl, ofInt_toNat, setWidth_cut small]
    have shown := shows_opened (x := x) value
    rwa [wide, seenWord_setWidth] at shown

theorem IsRegister.populateCasts {F : Type} [CommRing F] {op : Rep3Operand x} {v : BitVec 64}
    (h : op.IsRegister v) :
    Ensures (fun op' => op'.IsRegister v ∧ op'.Populated) (op.populateCasts : Mpc F _) := by
  have form : Ensures (fun op' => ∀ value : Int, op' = .opened value →
      value = v.toNat) (op.populateCasts : Mpc F _) := by
    cases op with
    | opened value => exact Ensures.pure h.opened
    | shared binary arithmetic hint =>
      cases arithmetic with
      | some a => exact Ensures.pure fun _ other => nomatch other
      | none => exact fun _ _ other => nomatch other
  exact ((populateCasts_spec h.holds).and form).imp
    fun op' ⟨⟨holds, ready⟩, opened⟩ => ⟨⟨h.small, holds, opened⟩, ready⟩

/-- A public operand that holds a `u64`, as the immediates and addresses do. -/
theorem holds_opened (v : BitVec 64) :
    (Rep3Operand.opened v.toNat : Rep3Operand x).Holds (v.setWidth x.bits) :=
  .opened (ofInt_toNat _ v)

end Rep3Operand

/-- The interleaving of the 32-bit build sees the low word of a `u64` immediate: where the third
quarter of its bits is set, so is the second. -/
def Interleavable (x : Xlen) (imm : BitVec 64) : Prop :=
  x = .rv32 → (imm >>> 32) &&& ~~~(imm >>> 16) &&& 0xFFFF = 0

instance (x : Xlen) (imm : BitVec 64) : Decidable (Interleavable x imm) := by
  unfold Interleavable
  infer_instance

/-- The shared query sees the low word of an immediate whose high bits do not leak. -/
theorem seenWord_of_interleavable {x : Xlen} {imm : BitVec 64} (h : Interleavable x imm) :
    seenWord (BitVec.ofInt (2 * x.bits) imm.toNat) = imm.setWidth x.bits := by
  rw [ofInt_toNat]
  cases x with
  | rv64 =>
    exact (seenWord_setWidth _).trans rfl
  | rv32 =>
    apply eq_of_getLsbD_eq
    intro i inside
    replace inside : i < 32 := inside
    rw [getLsbD_seenWord _ inside]
    simp only [Xlen.bits, getLsbD_setWidth, inside]
    by_cases upper : 16 ≤ i
    · have mask : ∀ j < 16, (0xFFFF#64).getLsbD j = true := by decide
      have quarter := congrArg (fun v : BitVec 64 => v.getLsbD (i - 16)) (h rfl)
      simp only [ofNat_eq_ofNat, getLsbD_and, getLsbD_not, getLsbD_ushiftRight,
        mask (i - 16) (by omega),
        show 32 + (i - 16) = 16 + i by
          omega, show 16 + (i - 16) = i by omega, show i - 16 < 64 by omega,
        decide_true, Bool.true_and, Bool.and_true] at quarter
      cases own : imm.getLsbD i with
      | true => simp [show i < 64 by omega]
      | false =>
        rw [own, Bool.not_false, Bool.and_true] at quarter
        simp [quarter]
    · simp [upper, show i < 64 by omega]

theorem Rep3Operand.shows_immediate {x : Xlen} {imm : BitVec 64} (h : Interleavable x imm) :
    (Rep3Operand.opened imm.toNat : Rep3Operand x).Shows (imm.setWidth x.bits) := by
  rw [← seenWord_of_interleavable h]
  exact shows_opened _

/-- Every immediate below `2 ^ 32` is seen as it is. -/
theorem interleavable_of_lt (x : Xlen) {imm : BitVec 64} (small : imm.toNat < 2 ^ 32) :
    Interleavable x imm := by
  intro _
  have high : imm >>> 32 = 0 := by
    apply eq_of_toNat_eq
    rw [toNat_ushiftRight, Nat.shiftRight_eq_div_pow, Nat.div_eq_of_lt small]
    rfl
  rw [high]
  simp

/-- The two `u64` words that the shared inputs of an instruction stand for. -/
def Cycle.words (k : InstructionKind) (c : Cycle) : BitVec 64 × BitVec 64 :=
  match k with
  | .NoOp | .ECALL | .FENCE | .LD | .SD | .VirtualLW | .VirtualSW | .VirtualAdvice => (0, 0)
  | .ADDI | .ANDI | .JALR | .ORI | .SLTI | .SLTIU | .XORI | .VirtualMovsign | .VirtualMULI
  | .VirtualSRAI | .VirtualSRLI
  | .VirtualROTRI | .VirtualROTRIW | .VirtualAssertHalfwordAlignment
  | .VirtualAssertWordAlignment => (c.rs1, c.imm)
  | .AUIPC | .JAL => (c.address, c.imm)
  | .LUI | .VirtualPow2IW => (0, c.imm)
  | .VirtualPow2I | .VirtualShiftRightBitmaskI => (c.imm, 0)
  | .VirtualMove | .VirtualPow2 | .VirtualShiftRightBitmask | .VirtualZeroExtendWord
  | .VirtualSignExtendWord
  | .VirtualPow2W | .VirtualRev8W => (c.rs1, 0)
  | _ => (c.rs1, c.rs2)

/-- The register word of a `u64`, in the width of the lookup index. -/
def Xlen.wide (x : Xlen) (v : BitVec 64) : BitVec (2 * x.bits) :=
  (v.setWidth x.bits).setWidth (2 * x.bits)

def Cycle.sharedIndex (x : Xlen) (k : InstructionKind) (c : Cycle) : BitVec (2 * x.bits) :=
  let (a, b) := c.words k
  match Rep3Cycle.indexRule k with
  | .interleave => (interleaveBits a b).setWidth (2 * x.bits)
  | .add => x.wide a + x.wide b
  | .sub => x.wide a + (1#(2 * x.bits) <<< x.bits - x.wide b)
  | .mul => x.wide a * x.wide b
  | .advice => x.wide (c.advice.getD 0)
  | .zero => 0

/-- Where the shared index is the plaintext one: an interleaved immediate is seen as its register
word, an alignment check has no negative offset, and the 32-bit division of the 64-bit build has
32-bit values in registers. -/
def Cycle.IndexAgrees (x : Xlen) (k : InstructionKind) (c : Cycle) : Prop :=
  match k with
  | .ANDI | .ORI | .XORI | .SLTI | .SLTIU | .VirtualSRAI | .VirtualSRLI | .VirtualROTRI
  | .VirtualROTRIW
  | .VirtualMovsign => Interleavable x c.imm
  | .VirtualAssertHalfwordAlignment | .VirtualAssertWordAlignment => x = .rv64 → 0 ≤ c.imm.toInt
  | .VirtualChangeDivisorW => c.rs1.toNat < 2 ^ 32 ∧ (c.rs2.setWidth 32).signExtend 64 = c.rs2
  | _ => True

section Shared

variable {x : Xlen} {s : Rep3Cycle x} {k : InstructionKind} {c : Cycle}

/-- The operands are ready for the arithmetic queries. -/
structure Rep3Cycle.Ready (s : Rep3Cycle x) : Prop where
  rs1 : s.rs1.Populated
  rs2 : s.rs2.Populated

theorem Rep3Cycle.SharingOf.inputs (h : s.SharingOf k c) :
    (s.toInstructionInputs k).1.Holds ((c.words k).1.setWidth x.bits) ∧
      (s.toInstructionInputs k).2.Holds ((c.words k).2.setWidth x.bits) := by
  have rs1 := h.rs1.holds
  have rs2 := h.rs2.holds
  have imm : (Rep3Operand.opened s.imm.toNat : Rep3Operand x).Holds (c.imm.setWidth x.bits) :=
    h.imm ▸ Rep3Operand.holds_opened _
  have address :
      (Rep3Operand.opened s.address.toNat : Rep3Operand x).Holds (c.address.setWidth x.bits) :=
    h.address ▸ Rep3Operand.holds_opened _
  have zero : (Rep3Operand.opened 0 : Rep3Operand x).Holds ((0 : BitVec 64).setWidth x.bits) :=
    Rep3Operand.holds_opened 0
  cases k <;> constructor <;> assumption

theorem Rep3Cycle.Ready.inputs (ready : s.Ready) (k : InstructionKind) :
    (s.toInstructionInputs k).1.Populated ∧ (s.toInstructionInputs k).2.Populated := by
  obtain ⟨rs1, rs2⟩ := ready
  cases k <;> first | exact ⟨rs1, rs2⟩ | exact ⟨rs1, True.intro⟩ | exact ⟨True.intro, True.intro⟩

theorem Rep3Cycle.SharingOf.shown (h : s.SharingOf k c) (rule : indexRule k = .interleave)
    (agrees : c.IndexAgrees x k) :
    (s.toInstructionInputs k).1.Shows ((c.words k).1.setWidth x.bits) ∧
      (s.toInstructionInputs k).2.Shows ((c.words k).2.setWidth x.bits) := by
  have rs1 := h.rs1.shows
  have rs2 := h.rs2.shows
  have imm : Interleavable x c.imm →
      (Rep3Operand.opened s.imm.toNat : Rep3Operand x).Shows (c.imm.setWidth x.bits) :=
    fun seen => h.imm.symm ▸ Rep3Operand.shows_immediate seen
  have zero : (Rep3Operand.opened 0 : Rep3Operand x).Shows ((0 : BitVec 64).setWidth x.bits) :=
    Rep3Operand.shows_immediate (interleavable_of_lt x (show (0 : BitVec 64).toNat <
      2 ^ 32 by decide))
  cases k <;> first | exact ⟨rs1, rs2⟩ | exact ⟨rs1, imm agrees⟩ | exact ⟨zero, zero⟩ | cases rule

/-- Fulfilling the shared query opens to the index of the words that the operands stand for. -/
theorem Rep3Cycle.SharingOf.toLookupIndex {F : Type} [CommRing F] (h : s.SharingOf k c)
    (ready : s.Ready) (agrees : indexRule k = .interleave → c.IndexAgrees x k) :
    ∃ future, s.toLookupIndex k = some future ∧
      Ensures (XorShares · (c.sharedIndex x k)) (future.fulfill : Mpc F _) := by
  obtain ⟨holdsL, holdsR⟩ := h.inputs
  obtain ⟨readyL, readyR⟩ := ready.inputs k
  obtain ⟨a, left, shareL⟩ := holdsL.wide readyL
  obtain ⟨b, right, shareR⟩ := holdsR.wide readyR
  unfold Rep3Cycle.toLookupIndex Cycle.sharedIndex
  cases rule : indexRule k with
  | interleave =>
    obtain ⟨showsL, showsR⟩ := h.shown rule (agrees rule)
    exact ⟨_, rfl, Ensures.pure (interleaveBitsShared_spec showsL showsR)⟩
  | add =>
    simp only [left, right]
    exact ⟨_, rfl, a2b_spec (shareL.add shareR)⟩
  | sub =>
    simp only [left, right]
    refine ⟨_, rfl, a2b_spec ?_⟩
    rw [sub_eq_neg_add]
    exact shareL.add (shareR.neg.addPublic _)
  | mul =>
    simp only [left, right]
    exact ⟨_, rfl, Ensures.bind (mul_spec shareL shareR) fun _ product => a2b_spec product⟩
  | advice =>
    have isAdvice : k = .VirtualAdvice := by cases k <;> first | rfl | cases rule
    obtain ⟨op, found, register⟩ := h.advice isAdvice
    simp only [found]
    exact ⟨_, rfl, Ensures.pure (register.holds.binary.setWidth _)⟩
  | zero => exact ⟨_, rfl, Ensures.pure ⟨fun _ => rfl, by simp [parity]⟩⟩

end Shared

section Plain

variable {x : Xlen} {k : InstructionKind} {c : Cycle} {l : BitVec 64} {r : Int}

/-- The plaintext inputs are the register words of `a` and `b`. -/
structure ExactInputs (x : Xlen) (l : BitVec 64) (r : Int) (a b : BitVec 64) : Prop where
  left : l.toNat = (a.setWidth x.bits).toNat
  right : r = (b.setWidth x.bits).toNat

theorem Xlen.toNat_cut (x : Xlen) (v : BitVec 64) :
    (x.cut v).toNat = (v.setWidth x.bits).toNat := by
  rw [Xlen.cut, toNat_setWidth, Nat.mod_eq_of_lt]
  exact Nat.lt_of_lt_of_le (v.setWidth x.bits).isLt (Nat.pow_le_pow_right (by decide) x.bits_le)

theorem toNat_setWidth_of_lt {n m : Nat} {v : BitVec n} (small : v.toNat < 2 ^ m) :
    (v.setWidth m).toNat = v.toNat := by
  rw [toNat_setWidth, Nat.mod_eq_of_lt small]

/-- The inputs of the two alignment checks, when the offset is not negative. -/
theorem exactInputs_alignment {c : Cycle} (small : c.rs1.toNat < 2 ^ x.bits)
    (nonneg : x = .rv64 → 0 ≤ c.imm.toInt)
    (h : c.toInstructionInputs x .VirtualAssertWordAlignment = some (l, r)) :
    ExactInputs x l r c.rs1 c.imm := by
  cases x with
  | rv32 =>
    cases h
    exact ⟨Xlen.toNat_cut .rv32 _, rfl⟩
  | rv64 =>
    cases h
    refine ⟨(toNat_setWidth_of_lt small).symm, ?_⟩
    have offset := nonneg rfl
    rw [toNat_setWidth_of_lt (m := Xlen.rv64.bits) c.imm.isLt]
    rw [toInt_eq_toNat_cond] at offset ⊢
    split at offset <;> omega

/-- A query that adds uses both inputs as register words; two of them swap the inputs. -/
theorem Cycle.exactInputs_add (rule : Rep3Cycle.indexRule k = .add)
    (supported : k.supported x = true) (small : c.rs1.toNat < 2 ^ x.bits)
    (agrees : c.IndexAgrees x k) (h : c.toInstructionInputs x k = some (l, r)) :
    ExactInputs x l r (c.words k).1 (c.words k).2 ∨
      ExactInputs x l r (c.words k).2 (c.words k).1 := by
  have cut := x.toNat_cut
  have cut' : ∀ v, ((x.cut v).toNat : Int) = (v.setWidth x.bits).toNat :=
    fun v => congrArg _ (cut v)
  have zero : (0 : BitVec 64).toNat = ((0 : BitVec 64).setWidth x.bits).toNat := by simp
  have zero' : (0 : Int) = ((0 : BitVec 64).setWidth x.bits).toNat := by simp
  have own := (toNat_setWidth_of_lt small).symm
  cases k <;> first
    | (cases rule; done)
    | exact .inl (exactInputs_alignment small agrees h)
    | (cases h; first
      | exact .inl ⟨cut _, cut' _⟩
      | exact .inl ⟨cut _, zero'⟩
      | exact .inl ⟨zero, cut' _⟩
      | exact .inl ⟨own, zero'⟩
      | exact .inr ⟨zero, cut' _⟩
      | skip)
  -- the immediate of `VirtualPow2IW` is not cut down, which only the 64-bit build supports
  obtain rfl : x = .rv64 := of_decide_eq_true supported
  exact .inl ⟨rfl, congrArg _ (toNat_setWidth_of_lt c.imm.isLt).symm⟩

theorem Cycle.exactInputs_mul (rule : Rep3Cycle.indexRule k = .sub ∨ Rep3Cycle.indexRule k = .mul)
    (h : c.toInstructionInputs x k = some (l, r)) :
    ExactInputs x l r (c.words k).1 (c.words k).2 := by
  have cut := x.toNat_cut
  have cut' : ∀ v, ((x.cut v).toNat : Int) = (v.setWidth x.bits).toNat :=
    fun v => congrArg _ (cut v)
  cases k <;> first
    | (rcases rule with rule | rule <;> cases rule; done)
    | (cases h; exact ⟨cut _, cut' _⟩)

/-- The inputs of the XOR-and-rotate instructions, which the plaintext has for `XLEN = 64` only. -/
theorem lowInputs_rotate {c : Cycle} (h : c.toInstructionInputs x .VirtualXORROT32 = some (l, r)) :
    l.setWidth x.bits = c.rs1.setWidth x.bits ∧ (BitVec.ofInt 64 r).setWidth x.bits =
      c.rs2.setWidth x.bits := by
  cases x with
  | rv32 => cases h
  | rv64 =>
    cases h
    exact ⟨rfl, by simp⟩

/-- The interleaved index depends on the register words only. -/
theorem Cycle.lowInputs (rule : Rep3Cycle.indexRule k = .interleave) (agrees : c.IndexAgrees x k)
    (h : c.toInstructionInputs x k = some (l, r)) :
    l.setWidth x.bits = (c.words k).1.setWidth x.bits ∧
      (BitVec.ofInt 64 r).setWidth x.bits = (c.words k).2.setWidth x.bits := by
  have cut := x.cut_setWidth
  have cut' : ∀ v, (BitVec.ofInt 64 (x.cut v).toNat).setWidth x.bits = v.setWidth x.bits := by
    intro v
    simp [cut]
  have whole : ∀ v : BitVec 64, (BitVec.ofInt 64 v.toNat).setWidth x.bits = v.setWidth x.bits := by
    intro v
    simp
  cases k <;> first
    | (cases rule; done)
    | exact lowInputs_rotate h
    | (cases h; first
      | exact ⟨cut _, cut' _⟩
      | exact ⟨rfl, whole _⟩
      | exact ⟨rfl, rfl⟩
      | skip)
  -- `VirtualChangeDivisorW` cuts both registers down to 32 bits, which here changes nothing
  obtain ⟨small, extended⟩ := agrees
  exact ⟨by rw [setWidth_cut small]; rfl, congrArg _ extended⟩

theorem interleaveBits_congr {e o e' o' : BitVec 64} (even : e.setWidth x.bits = e'.setWidth x.bits)
    (odd : o.setWidth x.bits = o'.setWidth x.bits) :
    (interleaveBits e o).setWidth (2 * x.bits) = (interleaveBits e' o').setWidth (2 * x.bits) := by
  have bits := x.bits_le
  refine interleaveBits_setWidth fun i inside => ?_
  have evenBit := congrArg (·.getLsbD i) even
  have oddBit := congrArg (·.getLsbD i) odd
  simp only [getLsbD_setWidth, inside, decide_true, Bool.true_and] at evenBit oddBit
  simp [show 2 * i < 2 * x.bits by omega, show 2 * i + 1 < 2 * x.bits by omega,
    getLsbD_interleaveBits e' o' (show i < 64 by omega), evenBit, oddBit]

namespace ExactInputs

theorem setWidth_wide (v : BitVec 64) :
    ((v.setWidth x.bits).setWidth 128).setWidth (2 * x.bits) = x.wide v :=
  setWidth_setWidth_of_le _ (Nat.mul_le_mul_left 2 x.bits_le)

theorem wide_le (x : Xlen) : 2 * x.bits ≤ 128 := Nat.mul_le_mul_left 2 x.bits_le

variable {a b : BitVec 64} (h : ExactInputs x l r a b)
include h

theorem left_wide : l.setWidth 128 = (a.setWidth x.bits).setWidth 128 := by
  apply eq_of_toNat_eq
  simp [h.left]

theorem right_wide : BitVec.ofInt 128 r = (b.setWidth x.bits).setWidth 128 := by
  rw [h.right, ofInt_toNat]

theorem right_word :
    (BitVec.ofInt 64 r).setWidth 128 = (b.setWidth x.bits).setWidth 128 := by
  rw [h.right, ofInt_toNat]
  exact setWidth_cut (Nat.lt_of_lt_of_le (b.setWidth x.bits).isLt
    (Nat.pow_le_pow_right (by decide) x.bits_le))

theorem add :
    (l.setWidth 128 + (BitVec.ofInt 64 r).setWidth 128).setWidth (2 * x.bits) =
      x.wide a + x.wide b := by
  rw [h.left_wide, h.right_word, setWidth_add _ _ (wide_le x), setWidth_wide, setWidth_wide]

theorem addWide :
    (l.setWidth 128 + BitVec.ofInt 128 r).setWidth (2 * x.bits) = x.wide a + x.wide b := by
  rw [h.left_wide, h.right_wide, setWidth_add _ _ (wide_le x), setWidth_wide, setWidth_wide]

theorem addSigned :
    (BitVec.ofInt 128 (l.toNat + r)).setWidth (2 * x.bits) = x.wide a + x.wide b := by
  rw [ofInt_add, ofInt_toNat]
  exact h.addWide

theorem sub :
    (l.setWidth 128 + (1#128 <<< x.bits - BitVec.ofInt 128 r)).setWidth (2 * x.bits) =
      x.wide a + (1#(2 * x.bits) <<< x.bits - x.wide b) := by
  have power : (1#128 <<< x.bits).setWidth (2 * x.bits) = 1#(2 * x.bits) <<< x.bits := by
    cases x <;> decide
  rw [h.left_wide, h.right_wide, setWidth_add _ _ (wide_le x), setWidth_wide, BitVec.sub_eq_add_neg,
    setWidth_add _ _ (wide_le x), setWidth_neg_of_le (wide_le x), setWidth_wide, power,
    ← BitVec.sub_eq_add_neg]

theorem mul :
    (l.setWidth 128 * (BitVec.ofInt 64 r).setWidth 128).setWidth (2 * x.bits) =
      x.wide a * x.wide b := by
  rw [h.left_wide, h.right_word, setWidth_mul _ _ (wide_le x), setWidth_wide, setWidth_wide]

end ExactInputs

/-- Which body of the shared query answers which body of the plaintext query. -/
theorem indexRule_shared (k : InstructionKind) : Rep3Cycle.indexRule k =
    match Cycle.indexRule k with
    | .interleave => .interleave
    | .add | .addWide | .addSigned | .addChecked | .second | .rs1 => .add
    | .sub => .sub
    | .mul => .mul
    | .advice => .advice
    | .zero => .zero := by
  cases k <;> rfl

/-- The plaintext index is the index of the words that the shared operands stand for. -/
theorem Cycle.toLookupIndex_setWidth {index : BitVec 128} (supported : k.supported x = true)
    (small : c.rs1.toNat < 2 ^ x.bits) (agrees : c.IndexAgrees x k)
    (h : c.toLookupIndex x k = some index) :
    index.setWidth (2 * x.bits) = c.sharedIndex x k := by
  obtain ⟨⟨l, r⟩, inputs, h⟩ := bind_eq_some_iff.mp h
  have shared := indexRule_shared k
  unfold Cycle.sharedIndex
  -- the two instructions that swap their inputs add, so the order does not matter
  have sum {index : BitVec 128} (rule : Rep3Cycle.indexRule k = .add)
      (value : ∀ {a b}, ExactInputs x l r a b → index.setWidth (2 * x.bits) = x.wide a + x.wide b) :
      index.setWidth (2 * x.bits) = x.wide (c.words k).1 + x.wide (c.words k).2 := by
    rcases Cycle.exactInputs_add rule supported small agrees inputs with exact | swapped
    · exact value exact
    · rw [value swapped, add_comm]
  cases rule : Cycle.indexRule k <;> simp only [rule] at h shared <;> simp only [shared]
  case interleave =>
    cases h
    obtain ⟨even, odd⟩ := Cycle.lowInputs shared agrees inputs
    exact interleaveBits_congr even odd
  case add => cases h; exact sum shared fun e => e.add
  case addWide => cases h; exact sum shared fun e => e.addWide
  case addSigned => cases h; exact sum shared fun e => e.addSigned
  case addChecked =>
    split at h
    · cases h; exact sum shared fun e => e.addSigned
    · cases h
  case sub => cases h; exact (Cycle.exactInputs_mul (.inl shared) inputs).sub
  case mul => cases h; exact (Cycle.exactInputs_mul (.inr shared) inputs).mul
  case second =>
    obtain rfl : k = .LUI := by cases k <;> first | rfl | cases rule
    cases h
    cases inputs
    exact sum shared fun e => by simpa using e.add
  case rs1 =>
    obtain rfl : k = .VirtualRev8W := by cases k <;> first | rfl | cases rule
    cases h
    cases inputs
    exact sum shared fun e => by simpa using e.add
  case advice =>
    cases h
    have bound := Nat.lt_of_lt_of_le ((c.advice.getD 0).setWidth x.bits).isLt
      (Nat.pow_le_pow_right (by decide) x.bits_le)
    rw [Xlen.cut, setWidth_cut bound, ExactInputs.setWidth_wide]
  case zero =>
    cases h
    simp

end Plain

section Index

variable {x : Xlen} {s : Rep3Cycle x} {k : InstructionKind} {c : Cycle}

/-- `populate_operands_casts` fills in representations and leaves what is shared as it is. -/
theorem Rep3Cycle.SharingOf.populate {F : Type} [CommRing F] (h : s.SharingOf k c) :
    Ensures (fun s' => s'.SharingOf k c ∧ s'.Ready) (s.populateOperandsCasts : Mpc F _) := by
  refine Ensures.bind h.rs1.populateCasts fun rs1 ⟨register1, ready1⟩ =>
    Ensures.bind h.rs2.populateCasts fun rs2 ⟨register2, ready2⟩ => ?_
  cases found : s.advice with
  | none =>
    refine Ensures.pure ⟨⟨register1, register2, h.imm, h.address, fun isAdvice => ?_⟩,
      ready1, ready2⟩
    obtain ⟨op, present, -⟩ := h.advice isAdvice
    cases found.symm.trans present
  | some op =>
    by_cases isAdvice : k = .VirtualAdvice
    · obtain ⟨op', present, register⟩ := h.advice isAdvice
      cases found.symm.trans present
      exact Ensures.bind register.populateCasts fun op ⟨register, _⟩ =>
        Ensures.pure ⟨⟨register1, register2, h.imm, h.address, fun _ => ⟨op, rfl, register⟩⟩,
          ready1, ready2⟩
    · exact Ensures.after fun op =>
        Ensures.pure ⟨⟨register1, register2, h.imm, h.address, fun is => absurd is isAdvice⟩,
          ready1, ready2⟩

/-- Both operands public: the shortcut gives the sum of the words they stand for. -/
theorem Rep3Operand.Holds.publicValue {op : Rep3Operand x} {v : BitVec x.bits} {value : Int}
    (h : op.Holds v) (known : Rep3Cycle.publicValue op = some value) :
    BitVec.ofInt x.bits value = v := by
  cases h with
  | opened word =>
    cases known
    exact word
  | @shared _ _ hint _ _ _ trivial =>
    obtain ⟨p, found, rfl⟩ := map_eq_some_iff.mp known
    rw [ofInt_toNat]
    exact trivial p found

/-- The share of the index opens to the index of the words that the operands stand for. -/
theorem Rep3Cycle.SharingOf.lookupIndexShare {F : Type} [CommRing F] (h : s.SharingOf k c)
    (agrees : indexRule k = .interleave → c.IndexAgrees x k) :
    Ensures (fun share => ∃ v, share = some v ∧ XorShares v (c.sharedIndex x k))
      (s.lookupIndexShare k : Mpc F _) := by
  refine Ensures.bind h.populate fun s' ⟨h, ready⟩ => ?_
  obtain ⟨future, query, opens⟩ := h.toLookupIndex (F := F) ready agrees
  simp only [query]
  exact Ensures.bind opens fun v shares => Ensures.pure ⟨v, rfl, shares⟩

theorem Rep3Cycle.SharingOf.computePublicIndex (h : s.SharingOf k c) {p : BitVec (2 * x.bits)}
    (known : s.computePublicIndex k = some p) : p = c.sharedIndex x k := by
  obtain ⟨holdsL, holdsR⟩ := h.inputs
  have add : Rep3Cycle.tryPublicAdd (s.toInstructionInputs k) = some p ∧
      Rep3Cycle.indexRule k = .add := by
    cases k <;> first | exact ⟨known, rfl⟩ | cases known
  obtain ⟨l, left, known⟩ := bind_eq_some_iff.mp add.1
  obtain ⟨r, right, known⟩ := bind_eq_some_iff.mp known
  cases known
  rw [holdsL.publicValue left, holdsR.publicValue right, Cycle.sharedIndex, add.2]
  rfl

theorem Rep3Operand.Holds.extractRight {l op : Rep3Operand x} {v : BitVec x.bits} {y : BitVec 64}
    (h : op.Holds v) (known : Rep3Cycle.extractRight (l, op) = some y) : y.setWidth x.bits = v := by
  have bits := x.bits_le
  cases h with
  | @opened value _ word =>
    cases known
    rw [← word]
    exact setWidth_ofInt bits value
  | @shared _ _ hint _ _ _ trivial =>
    obtain ⟨p, found, rfl⟩ := map_eq_some_iff.mp known
    rw [Xlen.cut_setWidth]
    exact trivial p found

/-- The low bits of an interleaved index are the interleaved register words. -/
theorem interleaveBits_low (x : Xlen) (e o : BitVec 64) :
    ((interleaveBits e o).setWidth (2 * x.bits)).setWidth 128 =
      interleaveBits (x.cut e) (x.cut o) := by
  apply eq_of_getLsbD_eq
  intro i inside
  rw [getLsbD_setWidth, getLsbD_setWidth, decide_eq_true inside]
  rcases Nat.mod_two_eq_zero_or_one i with even | odd
  · obtain ⟨j, rfl⟩ : ∃ j, i = 2 * j := ⟨i / 2, by omega⟩
    rw [(getLsbD_interleaveBits e o (by omega)).1, (getLsbD_interleaveBits _ _ (by omega)).1]
    simp [Xlen.cut, show j < 64 by omega]
  · obtain ⟨j, rfl⟩ : ∃ j, i = 2 * j + 1 := ⟨i / 2, by omega⟩
    rw [(getLsbD_interleaveBits e o (by omega)).2, (getLsbD_interleaveBits _ _ (by omega)).2]
    have same : decide (2 * j + 1 < 2 * x.bits) = decide (j < x.bits) :=
      decide_eq_decide.mpr (by omega)
    simp [Xlen.cut, show j < 64 by omega, same]

/-- The right operand that is handed out for an interleaved index is the one inside it. -/
theorem Rep3Cycle.SharingOf.computeRightOperandPublic {index : BitVec 128} {y : BitVec 64}
    (h : s.SharingOf k c) (rule : Cycle.indexRule k = .interleave) (agrees : c.IndexAgrees x k)
    (plain : c.toLookupIndex x k = some index) (known : s.computeRightOperandPublic k = some y) :
    y.setWidth x.bits = (uninterleaveBits ((index.setWidth (2 * x.bits)).setWidth 128)).2.setWidth
      x.bits := by
  have extracted : Rep3Cycle.extractRight (s.toInstructionInputs k) = some y := by
    cases k <;> first | exact known | cases known
  have shared : Rep3Cycle.indexRule k = .interleave := (indexRule_shared k).trans (by rw [rule])
  obtain ⟨⟨l, r⟩, inputs, plain⟩ := bind_eq_some_iff.mp plain
  simp only [rule] at plain
  cases plain
  rw [interleaveBits_low, uninterleaveBits_interleaveBits, Xlen.cut_setWidth,
    (Cycle.lowInputs shared agrees inputs).2]
  exact h.inputs.2.extractRight extracted

/-- The lookup index of a shared cycle is the plaintext one: the share opens to it, and the public
shortcuts give it and its right operand. -/
theorem lookup_index_is_plaintext {F : Type} [CommRing F] {index : BitVec 128}
    (supported : k.supported x = true) (h : s.SharingOf k c)
    (plain : c.toLookupIndex x k = some index) (agrees : c.IndexAgrees x k) :
    Ensures (fun share => ∃ v, share = some v ∧ XorShares v (index.setWidth (2 * x.bits)))
        (s.lookupIndexShare k : Mpc F _) ∧
      (∀ p, s.computePublicIndex k = some p → p = index.setWidth (2 * x.bits)) ∧
      (∀ y, Cycle.indexRule k = .interleave → s.computeRightOperandPublic k = some y →
        y.setWidth x.bits =
          (uninterleaveBits ((index.setWidth (2 * x.bits)).setWidth 128)).2.setWidth x.bits) := by
  have low := Cycle.toLookupIndex_setWidth supported h.rs1.small agrees plain
  refine ⟨?_, fun p known => low ▸ h.computePublicIndex known,
    fun y rule known => h.computeRightOperandPublic rule agrees plain known⟩
  rw [low]
  exact h.lookupIndexShare fun _ => agrees

/-- The sharing of a cycle in which every register is public. -/
def Cycle.allPublic (x : Xlen) (c : Cycle) : Rep3Cycle x where
  rs1 := .opened c.rs1.toNat
  rs2 := .opened c.rs2.toNat
  imm := c.imm
  address := c.address
  advice := some (.opened (c.advice.getD 0).toNat)

theorem Rep3Operand.IsRegister.of_opened {v : BitVec 64} (small : v.toNat < 2 ^ x.bits) :
    (Rep3Operand.opened v.toNat : Rep3Operand x).IsRegister v :=
  ⟨small, holds_opened v, fun _ same => (Rep3Operand.opened.inj same).symm⟩

theorem Cycle.sharingOf_allPublic (k : InstructionKind) (rs1 : c.rs1.toNat < 2 ^ x.bits)
    (rs2 : c.rs2.toNat < 2 ^ x.bits) (advice : (c.advice.getD 0).toNat < 2 ^ x.bits) :
    (c.allPublic x).SharingOf k c :=
  ⟨.of_opened rs1, .of_opened rs2, rfl, rfl, fun _ => ⟨_, rfl, .of_opened advice⟩⟩

/-- `SUB` with a genuinely shared register of value 5. -/
def sharedSub : Rep3Cycle .rv64 where
  rs1 := .shared (.reshare fun | .ID0 => 9 | .ID1 => 3 | .ID2 => 15) none none
  rs2 := .opened 7

theorem lookup_index_is_plaintext_sub :
    InstructionKind.SUB.supported .rv64 = true ∧ sharedSub.SharingOf .SUB { rs1 := 5, rs2 := 7 } ∧
      Ensures (fun share => ∃ v, share = some v ∧ XorShares v (0xFFFFFFFFFFFFFFFE#128))
        (sharedSub.lookupIndexShare .SUB : Mpc Int _) := by
  have sharing : sharedSub.SharingOf .SUB { rs1 := 5, rs2 := 7 } :=
    ⟨⟨by
      decide, .shared ⟨replicated_reshare _, by decide⟩ (fun _ none => nomatch none)
      (fun _ none => nomatch none), fun _ other => nomatch other⟩, .of_opened (v := 7) (by decide),
      rfl, rfl, fun other => nomatch other⟩
  exact ⟨rfl, sharing, (lookup_index_is_plaintext rfl sharing rfl True.intro).1⟩

end Index

/-- The sharing opens to another value than the low bits of the plaintext index. -/
def IndexDiffers (x : Xlen) (k : InstructionKind) (c : Cycle) : Prop :=
  ∃ index, c.toLookupIndex x k = some index ∧
    Ensures (fun share => ∃ v, share = some v ∧ ¬ XorShares v (index.setWidth (2 * x.bits)))
      ((c.allPublic x).lookupIndexShare k : Mpc Int _)

theorem IndexDiffers.of_sharedIndex {x : Xlen} {k : InstructionKind} {c : Cycle}
    (index : BitVec 128) (h : (c.allPublic x).SharingOf k c)
    (agrees : Rep3Cycle.indexRule k = .interleave → c.IndexAgrees x k)
    (plain : c.toLookupIndex x k = some index)
    (differ : c.sharedIndex x k ≠ index.setWidth (2 * x.bits)) :
    IndexDiffers x k c :=
  ⟨index, plain, (h.lookupIndexShare agrees).imp fun _ ⟨v, share, shares⟩ =>
    ⟨v, share, fun other => differ (shares.opens.symm.trans other.opens)⟩⟩

/-- No operand can be de-interleaved from the sum of `ADDI`. The others are a negative offset of an
alignment check, registers of the 32-bit division that are no 32-bit values, and an immediate of the
32-bit build with high bits. -/
theorem lookup_index_not_plaintext :
    (∃ index y, Cycle.toLookupIndex .rv64 .ADDI { rs1 := 1, imm := 1 } = some index ∧
      (Cycle.allPublic .rv64 { rs1 := 1, imm := 1 }).computeRightOperandPublic .ADDI = some y ∧
      y ≠ (uninterleaveBits index).2) ∧
    IndexDiffers .rv64 .VirtualAssertWordAlignment { rs1 := 8, imm := -4 } ∧
    IndexDiffers .rv64 .VirtualChangeDivisorW { rs1 := 0x100000000, rs2 := 1 } ∧
    IndexDiffers .rv32 .ANDI { imm := 0x100000000 } := by
  refine ⟨⟨2, 1, by decide, by decide, by decide⟩, ?_, ?_, ?_⟩
  · exact .of_sharedIndex 4 (Cycle.sharingOf_allPublic _ (by decide) (by decide) (by decide))
      (fun rule => nomatch rule) (by decide) (by decide)
  · refine ⟨1, by decide, fun coins => ⟨_, rfl, fun shares => ?_⟩⟩
    exact absurd shares.opens (by decide)
  · refine ⟨0, by decide, fun coins => ⟨_, rfl, fun shares => ?_⟩⟩
    exact absurd shares.opens (by decide)

end ProviaVM.Instruction
