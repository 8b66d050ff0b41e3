/-!
Names of the polynomial evaluations a proof claims: the committed and the virtual polynomials of the
zkVM, the sumcheck that opened them, and the five kinds of opening.
-/
namespace ProviaVM.Verifier

inductive CircuitFlags where
  | LeftOperandIsPC | RightOperandIsImm | LeftOperandIsRs1Value | RightOperandIsRs2Value
  | AddOperands
  | SubtractOperands | MultiplyOperands | Load | Store | Jump | Branch | WriteLookupOutputToRD
  | InlineSequenceInstruction | Assert | DoNotUpdateUnexpandedPC | Advice | IsNoop | IsCompressed
  deriving DecidableEq

inductive CommittedPolynomial where
  | LeftInstructionInput | RightInstructionInput | WriteLookupOutputToRD | WritePCtoRD
  | ShouldBranch | ShouldJump
  | RdInc | RamInc
  | InstructionRa (i : Nat)
  | BytecodeRa (i : Nat)
  | RamRa (i : Nat)
  deriving DecidableEq

inductive VirtualPolynomial where
  | SpartanAz | SpartanBz | SpartanCz | PC | UnexpandedPC | NextPC | NextUnexpandedPC | NextIsNoop
  | LeftLookupOperand
  | RightLookupOperand | Product | Rd | Imm | Rs1Value | Rs2Value | RdWriteValue | Rs1Ra | Rs2Ra
  | RdWa | LookupOutput
  | InstructionRaf | InstructionRafFlag | InstructionRa | RegistersVal | RamAddress | RamRa
  | RamReadValue
  | RamWriteValue | RamVal | RamValInit | RamValFinal | RamHammingWeight
  | OpFlags (flag : CircuitFlags)
  | LookupTableFlag (i : Nat)
  deriving DecidableEq

inductive SumcheckId where
  | SpartanOuter | SpartanInner | SpartanShift | ProductVirtualization | InstructionBooleanity
  | InstructionHammingWeight | InstructionReadRaf | InstructionRaVirtualization
  | RamReadWriteChecking
  | RamRafEvaluation | RamHammingWeight | RamHammingBooleanity | RamBooleanity | RamRaVirtualization
  | RamOutputCheck
  | RamValEvaluation | RamValFinalEvaluation | RegistersReadWriteChecking | RegistersValEvaluation
  | BytecodeReadRaf
  | BytecodeBooleanity | BytecodeHammingWeight | OpeningReduction
  deriving DecidableEq

inductive OpeningId where
  | Committed (polynomial : CommittedPolynomial) (sumcheck : SumcheckId)
  | Virtual (polynomial : VirtualPolynomial) (sumcheck : SumcheckId)
  | ReducedOpeningClaim (index : Nat)
  | UntrustedAdvice
  | TrustedAdvice
  deriving DecidableEq

inductive PolynomialId where
  | Committed (polynomial : CommittedPolynomial)
  | Virtual (polynomial : VirtualPolynomial)
  | ReducedOpeningClaim (index : Nat)
  | UntrustedAdvice
  | TrustedAdvice
  deriving DecidableEq

namespace OpeningId

def underlyingPolynomialId : OpeningId → PolynomialId
  | Committed poly _ => .Committed poly
  | Virtual poly _ => .Virtual poly
  | ReducedOpeningClaim index => .ReducedOpeningClaim index
  | UntrustedAdvice => .UntrustedAdvice
  | TrustedAdvice => .TrustedAdvice

/-- The opening comes out of the opening reduction and not out of a stage. -/
def isReduced : OpeningId → Bool
  | ReducedOpeningClaim _ => true
  | _ => false

end OpeningId

open CircuitFlags in
/-- The R1CS inputs that are not committed, in the order of `ALL_R1CS_INPUTS`. -/
def virtualR1csInputs : List VirtualPolynomial :=
  [.Product, .PC, .UnexpandedPC, .Rd, .Imm, .RamAddress, .Rs1Value, .Rs2Value, .RdWriteValue,
    .RamReadValue, .RamWriteValue, .LeftLookupOperand, .RightLookupOperand, .NextUnexpandedPC,
    .NextPC, .LookupOutput, .NextIsNoop] ++
  ([LeftOperandIsRs1Value, RightOperandIsRs2Value, LeftOperandIsPC, RightOperandIsImm,
    AddOperands, SubtractOperands, MultiplyOperands, Load, Store, Jump, Branch,
    CircuitFlags.WriteLookupOutputToRD, InlineSequenceInstruction, Assert,
    DoNotUpdateUnexpandedPC, Advice, IsNoop, IsCompressed].map .OpFlags)

def committedR1csInputs : List CommittedPolynomial :=
  [.LeftInstructionInput, .RightInstructionInput, .WriteLookupOutputToRD, .WritePCtoRD,
    .ShouldBranch, .ShouldJump]

/-- `AllCommittedPolynomials` for the given numbers of RAM and bytecode chunks. -/
def allCommittedPolynomials (ramD bytecodeD : Nat) : List CommittedPolynomial :=
  committedR1csInputs ++ [.RdInc, .RamInc] ++ (List.range 16).map .InstructionRa ++
    (List.range ramD).map .RamRa ++
    (List.range bytecodeD).map .BytecodeRa

end ProviaVM.Verifier
