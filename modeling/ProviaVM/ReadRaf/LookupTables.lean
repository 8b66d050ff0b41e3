import ProviaVM.Instruction.LookupOutput
import ProviaVM.Preprocessing.Session

/-! # Lookup tables, their suffixes and the phases of the ReadRaf sumcheck

`jolt-core/src/zkvm/lookup_table/*.rs`, `jolt-core/src/zkvm/instruction/*.rs` and
`jolt-core/src/zkvm/instruction_lookups/mod.rs`: which table an instruction looks up,
which suffixes a table is put together from, and how the lookup index is cut into phases.
The ring in which a phase works is chosen by the length of its suffix. -/
namespace ProviaVM.ReadRaf
open Preprocessing Instruction

inductive Suffixes where
  | One | And | NotAnd | Xor | Or | RightOperand | RightOperandW | ChangeDivisor | ChangeDivisorW
  | UpperWord | LowerWord | LowerHalfWord | LessThan | GreaterThan | Eq | LeftOperandIsZero
  | RightOperandIsZero
  | Lsb | DivByZero | Pow2 | Pow2W | Rev8W | RightShiftPadding | RightShift | RightShiftHelper
  | SignExtension
  | LeftShift | TwoLsb | SignExtensionUpperHalf | SignExtensionRightOperand | RightShiftW
  | RightShiftWHelper
  | LeftShiftWHelper | LeftShiftW | OverflowBitsZero
  | XorRot16 | XorRot24 | XorRot32 | XorRot63 | XorRotW16 | XorRotW12 | XorRotW8 | XorRotW7
  deriving DecidableEq, Repr

inductive LookupTables where
  | RangeCheck | And | Andn | Or | Xor | Equal | SignedGreaterThanEqual | UnsignedGreaterThanEqual
  | NotEqual
  | SignedLessThan | UnsignedLessThan | Movsign | UpperWord | LessThanEqual | ValidSignedRemainder
  | ValidUnsignedRemainder | ValidDiv0 | HalfwordAlignment | WordAlignment | LowerHalfWord
  | SignExtendHalfWord
  | Pow2 | Pow2W | ShiftRightBitmask | VirtualRev8W | VirtualSRL | VirtualSRA | VirtualROTR
  | VirtualROTRW
  | VirtualChangeDivisor | VirtualChangeDivisorW | MulUNoOverflow
  | VirtualXORROT32 | VirtualXORROT24 | VirtualXORROT16 | VirtualXORROT63
  | VirtualXORROTW16 | VirtualXORROTW12 | VirtualXORROTW8 | VirtualXORROTW7
  deriving DecidableEq, Repr

namespace LookupTables

/-- `LookupTables::<XLEN>::iter()`: the build without `rv64` has no 32-bit variants. -/
def iter : Xlen → List LookupTables
  | .rv32 =>
    [.RangeCheck, .And, .Andn, .Or, .Xor, .Equal, .SignedGreaterThanEqual,
      .UnsignedGreaterThanEqual, .NotEqual, .SignedLessThan, .UnsignedLessThan, .Movsign,
      .UpperWord, .LessThanEqual, .ValidSignedRemainder,
      .ValidUnsignedRemainder, .ValidDiv0, .HalfwordAlignment, .WordAlignment, .LowerHalfWord,
        .SignExtendHalfWord,
      .Pow2, .ShiftRightBitmask, .VirtualRev8W, .VirtualSRL, .VirtualSRA, .VirtualROTR,
        .VirtualChangeDivisor,
      .MulUNoOverflow, .VirtualXORROT32, .VirtualXORROT24, .VirtualXORROT16, .VirtualXORROT63]
  | .rv64 =>
    [.RangeCheck, .And, .Andn, .Or, .Xor, .Equal, .SignedGreaterThanEqual,
      .UnsignedGreaterThanEqual, .NotEqual, .SignedLessThan, .UnsignedLessThan, .Movsign,
      .UpperWord, .LessThanEqual, .ValidSignedRemainder,
      .ValidUnsignedRemainder, .ValidDiv0, .HalfwordAlignment, .WordAlignment, .LowerHalfWord,
        .SignExtendHalfWord,
      .Pow2, .Pow2W, .ShiftRightBitmask, .VirtualRev8W, .VirtualSRL, .VirtualSRA, .VirtualROTR,
        .VirtualROTRW,
      .VirtualChangeDivisor, .VirtualChangeDivisorW, .MulUNoOverflow, .VirtualXORROT32,
        .VirtualXORROT24,
      .VirtualXORROT16, .VirtualXORROT63, .VirtualXORROTW16, .VirtualXORROTW12, .VirtualXORROTW8,
        .VirtualXORROTW7]

def suffixes : LookupTables → List Suffixes
  | .RangeCheck => [.One, .LowerWord]
  | .And => [.One, .And]
  | .Andn => [.One, .NotAnd]
  | .Or => [.One, .Or]
  | .Xor => [.One, .Xor]
  | .Equal => [.Eq]
  | .SignedGreaterThanEqual | .UnsignedGreaterThanEqual | .SignedLessThan | .UnsignedLessThan =>
    [.One, .LessThan]
  | .NotEqual => [.One, .Eq]
  | .Movsign => [.One]
  | .UpperWord => [.One, .UpperWord]
  | .LessThanEqual => [.One, .LessThan, .Eq]
  | .ValidSignedRemainder =>
    [.One, .LessThan, .GreaterThan, .LeftOperandIsZero, .RightOperandIsZero]
  | .ValidUnsignedRemainder => [.One, .LessThan, .RightOperandIsZero]
  | .ValidDiv0 => [.One, .LeftOperandIsZero, .DivByZero]
  | .HalfwordAlignment => [.One, .Lsb]
  | .WordAlignment => [.TwoLsb]
  | .LowerHalfWord => [.One, .LowerHalfWord]
  | .SignExtendHalfWord => [.One, .LowerHalfWord, .SignExtensionUpperHalf]
  | .Pow2 => [.Pow2]
  | .Pow2W => [.Pow2W]
  | .ShiftRightBitmask => [.One, .Pow2]
  | .VirtualRev8W => [.One, .Rev8W]
  | .VirtualSRL => [.RightShift, .RightShiftHelper]
  | .VirtualSRA => [.One, .RightShift, .RightShiftHelper, .SignExtension]
  | .VirtualROTR => [.RightShiftHelper, .RightShift, .LeftShift, .One]
  | .VirtualROTRW => [.RightShiftWHelper, .RightShiftW, .LeftShiftW, .One]
  | .VirtualChangeDivisor => [.One, .RightOperand, .ChangeDivisor]
  | .VirtualChangeDivisorW => [.One, .RightOperandW, .ChangeDivisorW, .SignExtensionRightOperand]
  | .MulUNoOverflow => [.OverflowBitsZero]
  | .VirtualXORROT32 => [.One, .XorRot32]
  | .VirtualXORROT24 => [.One, .XorRot24]
  | .VirtualXORROT16 => [.One, .XorRot16]
  | .VirtualXORROT63 => [.One, .XorRot63]
  | .VirtualXORROTW16 => [.One, .XorRotW16]
  | .VirtualXORROTW12 => [.One, .XorRotW12]
  | .VirtualXORROTW8 => [.One, .XorRotW8]
  | .VirtualXORROTW7 => [.One, .XorRotW7]

end LookupTables

def lookupTable : InstructionKind → Option LookupTables
  | .NoOp | .ECALL | .FENCE | .LD | .SD | .VirtualLW | .VirtualSW => none
  | .ADD | .ADDI | .AUIPC | .JAL | .JALR | .LUI | .MUL | .SUB | .VirtualAdvice | .VirtualMove
    | .VirtualMULI => some .RangeCheck
  | .AND | .ANDI => some .And
  | .ANDN => some .Andn
  | .OR | .ORI => some .Or
  | .XOR | .XORI => some .Xor
  | .BEQ | .VirtualAssertEQ => some .Equal
  | .BNE => some .NotEqual
  | .BGE => some .SignedGreaterThanEqual
  | .BGEU => some .UnsignedGreaterThanEqual
  | .BLT | .SLT | .SLTI => some .SignedLessThan
  | .BLTU | .SLTU | .SLTIU => some .UnsignedLessThan
  | .MULHU => some .UpperWord
  | .VirtualAssertHalfwordAlignment => some .HalfwordAlignment
  | .VirtualAssertWordAlignment => some .WordAlignment
  | .VirtualAssertLTE => some .LessThanEqual
  | .VirtualAssertValidDiv0 => some .ValidDiv0
  | .VirtualAssertValidUnsignedRemainder => some .ValidUnsignedRemainder
  | .VirtualChangeDivisor => some .VirtualChangeDivisor
  | .VirtualChangeDivisorW => some .VirtualChangeDivisorW
  | .VirtualAssertMulUNoOverflow => some .MulUNoOverflow
  | .VirtualZeroExtendWord => some .LowerHalfWord
  | .VirtualSignExtendWord => some .SignExtendHalfWord
  | .VirtualMovsign => some .Movsign
  | .VirtualPow2 | .VirtualPow2I => some .Pow2
  | .VirtualPow2W | .VirtualPow2IW => some .Pow2W
  | .VirtualRev8W => some .VirtualRev8W
  | .VirtualShiftRightBitmask | .VirtualShiftRightBitmaskI => some .ShiftRightBitmask
  | .VirtualROTRI => some .VirtualROTR
  | .VirtualROTRIW => some .VirtualROTRW
  | .VirtualSRA | .VirtualSRAI => some .VirtualSRA
  | .VirtualSRL | .VirtualSRLI => some .VirtualSRL
  | .VirtualXORROT32 => some .VirtualXORROT32
  | .VirtualXORROT24 => some .VirtualXORROT24
  | .VirtualXORROT16 => some .VirtualXORROT16
  | .VirtualXORROT63 => some .VirtualXORROT63
  | .VirtualXORROTW16 => some .VirtualXORROTW16
  | .VirtualXORROTW12 => some .VirtualXORROTW12
  | .VirtualXORROTW8 => some .VirtualXORROTW8
  | .VirtualXORROTW7 => some .VirtualXORROTW7

/-- `circuit_flags().is_interleaved_operands()`: none of the flags `AddOperands`,
`SubtractOperands`, `MultiplyOperands` and `Advice` is set. -/
def isInterleavedOperands : InstructionKind → Bool
  | .ADD | .ADDI | .AUIPC | .JAL | .JALR | .LUI | .VirtualAssertHalfwordAlignment
    | .VirtualAssertWordAlignment
  | .VirtualMove | .VirtualPow2 | .VirtualPow2I | .VirtualPow2W | .VirtualPow2IW | .VirtualRev8W
  | .VirtualShiftRightBitmask | .VirtualShiftRightBitmaskI | .VirtualSignExtendWord
    | .VirtualZeroExtendWord => false
  | .SUB => false
  | .MUL | .MULHU | .VirtualMULI | .VirtualAssertMulUNoOverflow => false
  | .VirtualAdvice => false
  | _ => true

/-- A build: the word size and the feature `fewer-phases`. -/
structure Build where
  xlen : Xlen
  fewerPhases : Bool
  deriving DecidableEq, Repr

namespace Build

/-- `PHASES`: the feature is ignored by the 64-bit build. -/
def phases (b : Build) : Nat := if b.fewerPhases ∧ b.xlen = .rv32 then 4 else 8

/-- `LOG_M`. -/
def logM (b : Build) : Nat := 2 * b.xlen.bits / b.phases

def suffixLens (b : Build) : List Nat :=
  (List.range b.phases).map fun phase => (b.phases - 1 - phase) * b.logM

end Build

/-- `D` of `instruction_lookups`. -/
def D : Nat := 16

/-- The ring types that implement `Uninterleavable`. -/
inductive Uninterleavable where
  | u16 | u32 | u64 | u128
  deriving DecidableEq, Repr

namespace Uninterleavable

def ring : Uninterleavable → RingType
  | u16 => .u16
  | u32 => .u32
  | u64 => .u64
  | u128 => .u128

/-- `T::Half`. -/
def half : Uninterleavable → RingType
  | u16 => .u8
  | u32 => .u16
  | u64 => .u32
  | u128 => .u64

/-- The ring of a phase, by its suffix length; a phase without a suffix has none. -/
def ofSuffixLen (suffixLen : Nat) : Option Uninterleavable :=
  if 65 ≤ suffixLen ∧ suffixLen ≤ 128 then some .u128
  else if 33 ≤ suffixLen ∧ suffixLen ≤ 64 then some .u64
  else if 17 ≤ suffixLen ∧ suffixLen ≤ 32 then some .u32
  else if 1 ≤ suffixLen ∧ suffixLen ≤ 16 then some .u16
  else none

end Uninterleavable

end ProviaVM.ReadRaf
