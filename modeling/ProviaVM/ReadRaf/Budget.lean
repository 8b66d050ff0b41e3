import ProviaVM.Preprocessing.LazySources
import ProviaVM.ReadRaf.LookupTables

/-! # The preprocessing budget and what a proof takes from the pool

`compute_edabit_budget` of `provia-worker/src/zkvm/preprocessing.rs` against the places
that take masks: `populate_cycle_witness_rep3`, `compute_lookup_outputs`,
`generate_witness_batch_rep3` and `biased_inc_b2a_many` of `zkvm/witness.rs`, the suffix
evaluation of `zkvm/suffixes` and `q_polys_b2a` of
`zkvm/instruction_lookups/read_raf_checking.rs`. Conversions are batched over the cycles;
a cycle's part in a batch depends on that cycle alone, so what is taken is listed cycle by
cycle. Widths are ring types, so that `ring_bucket` is the type itself. A panic of the
source is `none`.

The 64-bit build cannot make its one-hot polynomials: their chunks have 256 addresses and the
vectors of a `RandOHV` 16 entries, so `from_indices` fails and no ReadRaf phase is reached. -/
namespace ProviaVM.ReadRaf
open Preprocessing Instruction List Option

/-- The counts of `PreprocessingBudget` that the modelled consumers take from. -/
structure PreprocessingBudget where
  u8 : Nat := 0
  u16 : Nat := 0
  u32 : Nat := 0
  u64 : Nat := 0
  u128 : Nat := 0
  dabits : Nat := 0
  randOhvsU8K4 : Nat := 0
  deriving DecidableEq, Repr

namespace PreprocessingBudget

def edaBits (budget : PreprocessingBudget) : RingType → Nat
  | .u8 => budget.u8
  | .u16 => budget.u16
  | .u32 => budget.u32
  | .u64 => budget.u64
  | .u128 => budget.u128

/-- `add_to_budget`. -/
def add (budget : PreprocessingBudget) (ring : RingType) (count : Nat) : PreprocessingBudget :=
  match ring with
  | .u8 => { budget with u8 := budget.u8 + count }
  | .u16 => { budget with u16 := budget.u16 + count }
  | .u32 => { budget with u32 := budget.u32 + count }
  | .u64 => { budget with u64 := budget.u64 + count }
  | .u128 => { budget with u128 := budget.u128 + count }

@[simp] theorem edaBits_add (budget : PreprocessingBudget) (ring r : RingType) (count : Nat) :
    (budget.add ring count).edaBits r = budget.edaBits r + if ring = r then count else 0 := by
  cases ring <;> cases r <;> simp [add, edaBits]

@[simp] theorem dabits_add (budget : PreprocessingBudget) (ring : RingType) (count : Nat) :
    (budget.add ring count).dabits = budget.dabits := by
  cases ring <;> rfl

@[simp] theorem randOhvs_add (budget : PreprocessingBudget) (ring : RingType) (count : Nat) :
    (budget.add ring count).randOhvsU8K4 = budget.randOhvsU8K4 := by
  cases ring <;> rfl

end PreprocessingBudget

def xlenRing : Xlen → RingType
  | .rv32 => .u32
  | .rv64 => .u64

def wideRing : Xlen → RingType
  | .rv32 => .u64
  | .rv64 => .u128

def suffixEdabitRing (x : Xlen) (t : Uninterleavable) : Suffixes → Option RingType
  | .And | .NotAnd | .Xor | .Or | .RightOperand | .XorRot16 | .XorRot24 | .XorRot32 | .XorRot63 =>
    some t.half
  | .RightShift | .LeftShift => some t.half
  | .RightShiftW | .LeftShiftW => some t.half
  | .RightOperandW | .XorRotW7 | .XorRotW8 | .XorRotW12 | .XorRotW16 =>
    if 32 ≤ t.half.width then some t.half else some .u32
  | .Rev8W => if 32 ≤ t.half.width then some t.half else some .u32
  | .UpperWord =>
    if t.ring.width ≤ x.bits then none
    else if t.ring.width - x.bits ≤ t.half.width then some t.half else some t.ring
  | .LowerWord => if min x.bits t.ring.width ≤ t.half.width then some t.half else some t.ring
  | .LowerHalfWord => if min (x.bits / 2) t.ring.width ≤ t.half.width then some t.half
    else some t.ring
  | .One | .Pow2 | .Pow2W | .SignExtension | .SignExtensionUpperHalf | .SignExtensionRightOperand
  | .RightShiftHelper | .RightShiftPadding | .RightShiftWHelper | .LeftShiftWHelper => none
  | .Lsb | .TwoLsb | .LessThan | .GreaterThan | .Eq | .LeftOperandIsZero | .RightOperandIsZero
    | .DivByZero
  | .OverflowBitsZero | .ChangeDivisor | .ChangeDivisorW => none

def suffixIsBitinject (x : Xlen) (t : Uninterleavable) (suffixLen : Nat) : Suffixes → Bool
  | .Lsb | .TwoLsb | .LessThan | .GreaterThan | .Eq | .LeftOperandIsZero | .RightOperandIsZero
    | .DivByZero
  | .ChangeDivisor | .ChangeDivisorW => true
  | .SignExtensionUpperHalf => x.bits / 2 ≤ suffixLen
  | .OverflowBitsZero => x.bits < t.ring.width
  | _ => false

namespace Build

def maxPerBucket (b : Build) (t : Uninterleavable) (r : RingType) : Nat :=
  ((LookupTables.iter b.xlen).map fun table =>
    table.suffixes.countP (suffixEdabitRing b.xlen t · = some r)).foldl max 0

def maxDabitsPerCycle (b : Build) : Nat :=
  ((LookupTables.iter b.xlen).map fun table =>
    (b.suffixLens.map fun suffixLen =>
      match Uninterleavable.ofSuffixLen suffixLen with
      | none => 0
      | some t => table.suffixes.countP (suffixIsBitinject b.xlen t suffixLen)).sum).foldl max 0

/-- One turn of the loop over the phases in `compute_edabit_budget`. -/
def addPhase (b : Build) (n : Nat) (budget : PreprocessingBudget) (suffixLen : Nat) :
    PreprocessingBudget :=
  match Uninterleavable.ofSuffixLen suffixLen with
  | none => budget
  | some t =>
    let budget := (budget.add t.ring n).add t.half (2 * n)
    [RingType.u8, .u16, .u32, .u64, .u128].foldl
      (fun budget r => if 0 < b.maxPerBucket t r then budget.add r (b.maxPerBucket t r * n)
        else budget) budget

/-- `compute_edabit_budget`, with the value of `rand_ohv_rotation_count`. -/
def computeEdabitBudget (b : Build) (rotations n : Nat) : PreprocessingBudget :=
  let budget : PreprocessingBudget :=
    { randOhvsU8K4 := D * rotations, dabits := b.maxDabitsPerCycle * n }
  let budget := b.suffixLens.foldl (b.addPhase n) budget
  let budget := budget.add (xlenRing b.xlen) (5 * n)
  let budget := budget.add (xlenRing b.xlen) n
  -- the biased increments are `ArithmeticWideInt`, which the 64-bit build makes `u128`
  budget.add .u64 (2 * n)

end Build

inductive Mask where
  | edaBit (ring : RingType)
  | daBit
  | randOhv
  deriving DecidableEq, Repr

def PreprocessingBudget.count (budget : PreprocessingBudget) : Mask → Nat
  | .edaBit ring => budget.edaBits ring
  | .daBit => budget.dabits
  | .randOhv => budget.randOhvsU8K4

/-! ## ReadRaf -/

def tableUsesInterleavedData (suffixes : List Suffixes) : Bool :=
  suffixes.any fun s =>
    s ∈ [.UpperWord, .LowerWord, .LowerHalfWord, .Pow2, .Pow2W, .SignExtensionUpperHalf,
      .OverflowBitsZero, .Rev8W]

/-- What `eval_suffix_uninterleaved` takes for a cycle whose left operand is shared. -/
def evalSuffixUninterleaved (x : Xlen) (t : Uninterleavable) (suffixLen : Nat)
    (rightPublic : Bool) :
    Suffixes → Option (List Mask)
  | .And | .NotAnd | .Xor | .Or => some [.edaBit t.half]
  | .RightOperand | .RightOperandW => some (if rightPublic then [] else [.edaBit t.half])
  | .Lsb | .RightOperandIsZero => some (if rightPublic then [] else [.daBit])
  | .LessThan | .GreaterThan | .Eq | .LeftOperandIsZero => some [.daBit]
  | .DivByZero | .TwoLsb | .ChangeDivisor | .ChangeDivisorW =>
    if rightPublic then none else some [.daBit]
  | .SignExtension | .RightShiftHelper | .RightShiftPadding | .RightShiftWHelper
    | .LeftShiftWHelper =>
    if rightPublic then some [] else none
  | .SignExtensionRightOperand =>
    some (if suffixLen < x.bits then [] else if rightPublic then [] else [.daBit])
  | .XorRot16 | .XorRot24 | .XorRot32 | .XorRot63 =>
    if rightPublic then none else some [.edaBit t.half]
  | .XorRotW7 | .XorRotW8 | .XorRotW12 | .XorRotW16 =>
    if rightPublic then none else some [.edaBit (if 32 ≤ t.half.width then t.half else .u32)]
  | .RightShift | .LeftShift | .RightShiftW | .LeftShiftW =>
    if rightPublic then some [.edaBit t.half] else none
  | .One | .UpperWord | .LowerWord | .LowerHalfWord | .Pow2 | .Pow2W | .SignExtensionUpperHalf
  | .OverflowBitsZero | .Rev8W => none

/-- What `eval_suffix_interleaved` takes for a cycle whose lookup index is shared. -/
def evalSuffixInterleaved (x : Xlen) (t : Uninterleavable) (suffixLen : Nat) :
    Suffixes → Option (List Mask)
  | .UpperWord =>
    some (if t.ring.width ≤ x.bits then []
      else if t.ring.width - x.bits ≤ t.half.width then [.edaBit t.half] else [.edaBit t.ring])
  | .LowerWord =>
    some (if min x.bits t.ring.width ≤ t.half.width then [.edaBit t.half] else [.edaBit t.ring])
  | .LowerHalfWord =>
    some (if min (x.bits / 2) t.ring.width ≤ t.half.width then [.edaBit t.half]
      else [.edaBit t.ring])
  | .Rev8W => some (if 32 ≤ t.half.width then [.edaBit t.half] else [.edaBit .u32])
  | .Pow2 | .Pow2W => some []
  | .SignExtensionUpperHalf => some (if suffixLen < x.bits / 2 then [] else [.daBit])
  | .OverflowBitsZero => some (if t.ring.width ≤ x.bits then [] else [.daBit])
  | _ => none

/-- What `evaluate_suffix_for_table` takes for one cycle: a public index is evaluated in the
clear. -/
def evaluateSuffix (x : Xlen) (t : Uninterleavable) (suffixLen : Nat) (table : LookupTables)
    (indexPublic rightPublic : Bool) (suffix : Suffixes) : Option (List Mask) :=
  if suffix = .One then some []
  else if indexPublic then some []
  else if tableUsesInterleavedData table.suffixes then evalSuffixInterleaved x t suffixLen suffix
  else evalSuffixUninterleaved x t suffixLen rightPublic suffix

/-- What `table_suffixes_mle` takes for one cycle in one phase. -/
def suffixTakes (x : Xlen) (t : Uninterleavable) (suffixLen : Nat) (k : InstructionKind)
    (indexPublic rightPublic : Bool) : Option (List Mask) :=
  match lookupTable k with
  | none => some []
  | some table => do
    let masks ← table.suffixes.mapM (evaluateSuffix x t suffixLen table indexPublic rightPublic)
    return masks.flatten

/-- What `q_polys_b2a` takes for one cycle in one phase. -/
def qPolysB2a (t : Uninterleavable) (k : InstructionKind) (indexPublic rightPublic : Bool) :
    List Mask :=
  if indexPublic then []
  else if isInterleavedOperands k then .edaBit t.half :: if rightPublic then []
    else [.edaBit t.half]
  else [.edaBit t.ring]

def phaseTakes (x : Xlen) (k : InstructionKind) (indexPublic rightPublic : Bool) (suffixLen : Nat) :
    Option (List Mask) :=
  match Uninterleavable.ofSuffixLen suffixLen with
  | none => some []
  | some t => do
    let suffixes ← suffixTakes x t suffixLen k indexPublic rightPublic
    return suffixes ++ qPolysB2a t k indexPublic rightPublic

def readRafTakes (b : Build) (k : InstructionKind) (indexPublic rightPublic : Bool) :
    Option (List Mask) := do
  let masks ← b.suffixLens.mapM (phaseTakes b.xlen k indexPublic rightPublic)
  return masks.flatten

/-! ## Witness generation -/

/-- The register operands of an instruction's format: which of `rs1`, `rs2` and `rd` it has. -/
structure RegisterFormat where
  rs1 : Bool
  rs2 : Bool
  rd : Bool

/-- The formats of `tracer/src/instruction/*.rs`. -/
def registerFormat : InstructionKind → RegisterFormat
  | .NoOp => ⟨false, false, false⟩
  | .ADD | .AND | .ANDN | .MUL | .MULHU | .OR | .SLT | .SLTU | .SUB | .XOR | .VirtualChangeDivisor
  | .VirtualChangeDivisorW | .VirtualSRA | .VirtualSRL
  | .VirtualXORROT32 | .VirtualXORROT24 | .VirtualXORROT16 | .VirtualXORROT63
  | .VirtualXORROTW16 | .VirtualXORROTW12 | .VirtualXORROTW8 | .VirtualXORROTW7 =>
    ⟨true, true, true⟩
  | .ADDI | .ANDI | .ECALL | .FENCE | .JALR | .LD | .ORI | .SLTI | .SLTIU | .XORI | .VirtualLW
  | .VirtualZeroExtendWord | .VirtualSignExtendWord | .VirtualMove | .VirtualMovsign | .VirtualMULI
    | .VirtualPow2
  | .VirtualPow2W | .VirtualRev8W | .VirtualShiftRightBitmask | .VirtualROTRI | .VirtualROTRIW
  | .VirtualSRAI | .VirtualSRLI => ⟨true, false, true⟩
  | .AUIPC | .LUI | .JAL | .VirtualAdvice | .VirtualPow2I | .VirtualPow2IW
    | .VirtualShiftRightBitmaskI =>
    ⟨false, false, true⟩
  | .BEQ | .BGE | .BGEU | .BLT | .BLTU | .BNE | .SD | .VirtualSW | .VirtualAssertEQ
    | .VirtualAssertLTE
  | .VirtualAssertValidDiv0 | .VirtualAssertValidUnsignedRemainder | .VirtualAssertMulUNoOverflow =>
    ⟨true, true, false⟩
  | .VirtualAssertHalfwordAlignment | .VirtualAssertWordAlignment => ⟨true, false, false⟩

/-- `Rep3RAMAccess` without the addresses. -/
inductive Rep3RAMAccess (x : Xlen) where
  | read (value : Rep3Operand x)
  | write (preValue postValue : Rep3Operand x)
  | noOp

def Rep3RAMAccess.operands {x : Xlen} : Rep3RAMAccess x → List (Rep3Operand x)
  | .read value => [value]
  | .write preValue postValue => [preValue, postValue]
  | .noOp => []

def Rep3RAMAccess.isWrite {x : Xlen} : Rep3RAMAccess x → Bool
  | .write _ _ => true
  | _ => false

/-- The access is of the type that the instruction's format has. -/
def Rep3RAMAccess.OfKind {x : Xlen} : InstructionKind → Rep3RAMAccess x → Prop
  | .LD, .read _ | .VirtualLW, .read _ | .SD, .write _ _ | .VirtualSW, .write _ _ => True
  | .LD, _ | .VirtualLW, _ | .SD, _ | .VirtualSW, _ => False
  | _, .noOp => True
  | _, _ => False

/-- A cycle of the trace: the operands that the instruction's format does not have are the public
zero. -/
structure Row (x : Xlen) where
  kind : InstructionKind
  cycle : Rep3Cycle x
  /-- The register index of `rd_write`. -/
  rd : BitVec 8
  rdPost : Rep3Operand x
  ram : Rep3RAMAccess x
  supported : kind.supported x = true
  rs1_absent : (registerFormat kind).rs1 = false → cycle.rs1 = .opened 0
  rs2_absent : (registerFormat kind).rs2 = false → cycle.rs2 = .opened 0
  rd_absent : (registerFormat kind).rd = false → rd = 0 ∧ rdPost = .opened 0
  advice_iff : cycle.advice.isSome = true ↔ kind = .VirtualAdvice
  ram_kind : ram.OfKind kind

/-- The operand is not public: `classify_op` asks for a cast. -/
def needsCast {x : Xlen} : Rep3Operand x → Bool
  | .shared _ _ none => true
  | _ => false

/-- The futures that `to_lookup_output_batched` leaves for `fulfill_batched_with_pool`; both casts
into the field take an edaBit. -/
inductive OutputFuture where
  | ready | bitInject | cast
  deriving DecidableEq

/-- `to_lookup_output_batched`: the shift instructions read an operand with `as_public`. -/
def lookupOutputFuture {x : Xlen} (k : InstructionKind) (c : Rep3Cycle x) : Option OutputFuture :=
  match k with
  | .NoOp | .ECALL | .FENCE | .LD | .SD | .VirtualLW | .VirtualSW => some .ready
  | .BEQ | .BGE | .BGEU | .BLT | .BLTU | .BNE | .SLT | .SLTI | .SLTIU | .SLTU | .VirtualAssertEQ
  | .VirtualAssertHalfwordAlignment | .VirtualAssertWordAlignment | .VirtualAssertLTE
  | .VirtualAssertMulUNoOverflow => some .bitInject
  | .VirtualPow2 | .VirtualPow2I | .VirtualPow2W | .VirtualShiftRightBitmask
  | .VirtualShiftRightBitmaskI =>
    (Rep3Cycle.publicValue (c.toInstructionInputs k).1).map fun _ => .ready
  | .VirtualPow2IW => (Rep3Cycle.publicValue (c.toInstructionInputs k).2).map fun _ => .ready
  | .VirtualROTRI | .VirtualROTRIW | .VirtualSRA | .VirtualSRAI | .VirtualSRL | .VirtualSRLI =>
    (Rep3Cycle.publicValue (c.toInstructionInputs k).2).map fun _ => .cast
  | _ => some .cast

namespace Row

variable {x : Xlen}

/-- `populate_cycle_witness_rep3`: one edaBit for each operand that is not public. -/
def castTakes (row : Row x) : List Mask :=
  ((row.cycle.advice.toList ++ [row.cycle.rs1, row.cycle.rs2, row.rdPost] ++
    row.ram.operands).filter needsCast).map
    fun _ => .edaBit (xlenRing x)

/-- `fulfill_batched_with_pool` on the cycle's lookup output. -/
def outputTakes (row : Row x) : Option (List Mask) :=
  (lookupOutputFuture row.kind row.cycle).map fun
    | .ready => []
    | .bitInject => [.daBit]
    | .cast => [.edaBit (xlenRing x)]

/-- `biased_inc_b2a_sparse_many` for `RdInc` and `RamInc`: active rows, whether public or shared. -/
def incTakes (row : Row x) : List Mask :=
  (if row.rd ≠ 0 then [.edaBit (wideRing x)] else []) ++ if row.ram.isWrite then
    [.edaBit (wideRing x)] else []

/-- The entry of `read_raf_lookup_indices` is `Either::Public`. -/
def indexPublic (row : Row x) : Bool := (row.cycle.computePublicIndex row.kind).isSome

/-- The entry of `right_operand_public_mask` is `Some`. -/
def rightPublic (row : Row x) : Bool := (row.cycle.computeRightOperandPublic row.kind).isSome

/-- Everything that is taken for the cycle before the one-hot polynomials are made. -/
def witnessTakes (row : Row x) : Option (List Mask) := do
  let output ← row.outputTakes
  return row.castTakes ++ output ++ row.incTakes

/-- Everything that the ReadRaf phases take for the cycle. -/
def phasesTakes (b : Build) (row : Row b.xlen) : Option (List Mask) :=
  readRafTakes b row.kind row.indexPublic row.rightPublic

end Row

/-- `K_CHUNK`. -/
def Build.kChunk (b : Build) : Nat := 2 ^ (2 * b.xlen.bits / D)

/-- `from_indices` for `n` one-hot polynomials in turn: what is taken, and whether all are made. The
masks of a polynomial are taken before the length of their vectors is compared with the chunk. -/
def fromIndices (b : Build) (rotations : Nat) : Nat → List Mask × Bool
  | 0 => ([], true)
  | n + 1 =>
    let batch := List.replicate rotations Mask.randOhv
    if rotations * randOhvK = rotations * b.kChunk then
      let (later, made) := fromIndices b rotations n
      (batch ++ later, made)
    else (batch, false)

/-- What a proof takes from the pool: for the cycle witness and the increments, for the `D` one-hot
polynomials, and if these are made for the ReadRaf phases. -/
def traceTakes (b : Build) (rotations : Nat) (rows : List (Row b.xlen)) : Option (List Mask) := do
  let witness ← rows.mapM Row.witnessTakes
  let oneHot := fromIndices b rotations D
  let phases ← (if oneHot.2 then rows.mapM (Row.phasesTakes b) else some [])
  return witness.flatten ++ oneHot.1 ++ phases.flatten

/-! ## What a cycle takes against its part of the budget -/

namespace Build

def phaseCost (b : Build) (suffixLen : Nat) (r : RingType) : Nat :=
  match Uninterleavable.ofSuffixLen suffixLen with
  | none => 0
  | some t => (if t.ring = r then 1 else 0) + (if t.half = r then 2 else 0) + b.maxPerBucket t r

def perCycle (b : Build) : Mask → Nat
  | .edaBit r =>
    (b.suffixLens.map (b.phaseCost · r)).sum + (if xlenRing b.xlen = r then 6 else 0) + if .u64 =
      r then 2 else 0
  | .daBit => b.maxDabitsPerCycle
  | .randOhv => 0

/-- A phase adds its cost per row for each ring, and nothing else. -/
theorem addPhase_edaBits (b : Build) (n : Nat) (budget : PreprocessingBudget) (suffixLen : Nat)
    (r : RingType) :
    (b.addPhase n budget suffixLen).edaBits r = budget.edaBits r + n * b.phaseCost suffixLen r := by
  unfold addPhase phaseCost
  split
  · rfl
  · next t _ =>
    have step (budget : PreprocessingBudget) (s : RingType) :
        (if 0 < b.maxPerBucket t s then budget.add s (b.maxPerBucket t s * n)
          else budget).edaBits r =
          budget.edaBits r + if s = r then b.maxPerBucket t r * n else 0 := by
      split
      · split <;> simp_all
      · next zero =>
        split
        · next same => rw [← same, Nat.eq_zero_of_not_pos zero, Nat.zero_mul, Nat.add_zero]
        · rfl
    simp only [foldl_cons, foldl_nil, step, PreprocessingBudget.edaBits_add, Nat.mul_add]
    have one : (if t.ring = r then n else 0) = n * (if t.ring = r then 1 else 0) := by
      split <;> simp
    have two : (if t.half = r then 2 * n else 0) = n * (if t.half = r then 2 else 0) := by
      split <;> simp [Nat.mul_comm]
    rw [Nat.mul_comm (b.maxPerBucket t r)]
    cases r <;> simp only [reduceCtorEq, if_true, if_false] <;> omega

theorem addPhases_edaBits (b : Build) (n : Nat) (r : RingType) :
    ∀ (lens : List Nat) (budget : PreprocessingBudget),
      (lens.foldl (b.addPhase n) budget).edaBits r =
        budget.edaBits r + n * (lens.map (b.phaseCost · r)).sum
  | [], budget => by simp
  | len :: rest, budget => by
    rw [foldl_cons, addPhases_edaBits b n r rest, addPhase_edaBits, map_cons, sum_cons, Nat.mul_add]
    omega

theorem addPhase_others (b : Build) (n : Nat) (budget : PreprocessingBudget) (suffixLen : Nat) :
    (b.addPhase n budget suffixLen).dabits = budget.dabits ∧
      (b.addPhase n budget suffixLen).randOhvsU8K4 = budget.randOhvsU8K4 := by
  unfold addPhase
  split
  · exact ⟨rfl, rfl⟩
  · simp only [foldl_cons]
    constructor <;> (repeat' split) <;> simp

theorem addPhases_others (b : Build) (n : Nat) :
    ∀ (lens : List Nat) (budget : PreprocessingBudget),
      (lens.foldl (b.addPhase n) budget).dabits = budget.dabits ∧
        (lens.foldl (b.addPhase n) budget).randOhvsU8K4 = budget.randOhvsU8K4
  | [], _ => ⟨rfl, rfl⟩
  | len :: rest, budget => by
    obtain ⟨dabits, randOhvs⟩ := addPhases_others b n rest (b.addPhase n budget len)
    obtain ⟨dabits', randOhvs'⟩ := addPhase_others b n budget len
    exact ⟨dabits.trans dabits', randOhvs.trans randOhvs'⟩

/-- The budget is linear in the number of cycles, but for the one-hot masks. -/
theorem computeEdabitBudget_count (b : Build) (rotations n : Nat) (m : Mask) :
    (b.computeEdabitBudget rotations n).count m = n * b.perCycle m + if m = .randOhv then
      D * rotations else 0 := by
  obtain ⟨dabits, randOhvs⟩ := addPhases_others b n b.suffixLens
    { randOhvsU8K4 := D * rotations, dabits := b.maxDabitsPerCycle * n }
  cases m with
  | edaBit r =>
    simp only [PreprocessingBudget.count, computeEdabitBudget, PreprocessingBudget.edaBits_add,
      addPhases_edaBits, perCycle, reduceCtorEq, if_false, Nat.mul_add]
    have start : PreprocessingBudget.edaBits
        { randOhvsU8K4 := D * rotations, dabits := b.maxDabitsPerCycle * n } r = 0 := by
      cases r <;> rfl
    split <;> split <;> omega
  | daBit =>
    simp only [PreprocessingBudget.count, computeEdabitBudget, PreprocessingBudget.dabits_add,
      dabits]
    exact Nat.mul_comm _ _
  | randOhv =>
    simp [PreprocessingBudget.count, computeEdabitBudget, randOhvs, perCycle]

end Build

def convertingMasks : List Mask := .daBit :: [RingType.u8, .u16, .u32, .u64, .u128].map .edaBit

theorem mem_convertingMasks {m : Mask} (h : m ≠ .randOhv) : m ∈ convertingMasks := by
  rcases m with r | _ | _
  · cases r <;> decide
  · decide
  · exact absurd rfl h

/-- What witness generation can take for one cycle: five operands and the lookup output, or its bit,
and the two increments. -/
def witnessRoom (x : Xlen) : Mask → Nat
  | .edaBit r => (if xlenRing x = r then 6 else 0) + if wideRing x = r then 2 else 0
  | .daBit => 1
  | .randOhv => 0

/-- The ReadRaf phases of one cycle leave room for its witness generation. -/
def Covered (b : Build) (k : InstructionKind) : Prop :=
  ∀ indexPublic rightPublic : Bool, ∀ masks ∈ readRafTakes b k indexPublic rightPublic,
    (∀ m ∈ convertingMasks, masks.count m + witnessRoom b.xlen m ≤ b.perCycle m) ∧
      masks.count .randOhv = 0

instance (b : Build) (k : InstructionKind) : Decidable (Covered b k) := by
  unfold Covered
  infer_instance

theorem forall_kinds {P : InstructionKind → Prop} (check : ∀ i < 69, P (.ofNat i))
    (k : InstructionKind) : P k := by
  rw [← InstructionKind.ofNat_ctorIdx k]
  exact check _ (by cases k <;> decide)

-- evaluated for each build over all instructions and both modes of the index and of the right
-- operand
theorem covered {b : Build} (narrow : b.xlen = .rv32) (k : InstructionKind)
    (supported : k.supported .rv32 = true) :
    Covered b k := by
  have eightPhases : ∀ k : InstructionKind, k.supported .rv32 = true → Covered ⟨.rv32, false⟩ k :=
    forall_kinds (by decide +kernel)
  have fourPhases : ∀ k : InstructionKind, k.supported .rv32 = true → Covered ⟨.rv32, true⟩ k :=
    forall_kinds (by decide +kernel)
  obtain ⟨x, fewer⟩ := b
  cases narrow
  cases fewer
  · exact eightPhases k supported
  · exact fourPhases k supported

theorem witnessRoom_le (b : Build) (m : Mask) : witnessRoom b.xlen m ≤ b.perCycle m := by
  by_cases oneHot : m = .randOhv
  · rw [oneHot]
    exact Nat.zero_le _
  · have check : ∀ m ∈ convertingMasks, witnessRoom b.xlen m ≤ b.perCycle m := by
      obtain ⟨x, fewer⟩ := b
      cases x <;> cases fewer <;> decide +kernel
    exact check m (mem_convertingMasks oneHot)

namespace Row

variable {x : Xlen} (row : Row x)

/-- At most five operands need a cast: an instruction with an advice operand reads no register and
does not access the RAM. -/
theorem length_castTakes : row.castTakes.length ≤ 5 := by
  rw [castTakes, length_map]
  cases advice : row.cycle.advice with
  | none =>
    refine (length_filter_le _ _).trans ?_
    cases row.ram <;> simp [Rep3RAMAccess.operands]
  | some op =>
    have kind : row.kind = .VirtualAdvice := row.advice_iff.mp (by rw [advice]; rfl)
    have access := row.ram_kind
    have ram : row.ram.operands = [] := by
      cases ram : row.ram <;> simp_all [Rep3RAMAccess.OfKind, Rep3RAMAccess.operands]
    refine (length_filter_le _ _).trans ?_
    simp [ram]

theorem count_castTakes (m : Mask) :
    row.castTakes.count m = if .edaBit (xlenRing x) = m then row.castTakes.length else 0 := by
  simp only [castTakes, map_const', count_replicate, length_replicate, beq_iff_eq]

theorem outputTakes_cases {output : List Mask} (h : row.outputTakes = some output) :
    output = [] ∨ output = [.daBit] ∨ output = [.edaBit (xlenRing x)] := by
  obtain ⟨future, -, rfl⟩ := map_eq_some_iff.mp h
  cases future <;> simp

theorem count_incTakes (m : Mask) : row.incTakes.count m =
    if .edaBit (wideRing x) = m then (if row.rd ≠ 0 then 1 else 0) + if row.ram.isWrite then 1
      else 0 else 0 := by
  rw [incTakes]
  split <;> split <;> split <;> simp_all

theorem count_witnessTakes_le {masks : List Mask} (taken : row.witnessTakes = some masks)
    (m : Mask) :
    masks.count m ≤ witnessRoom x m := by
  obtain ⟨output, outputs, same⟩ := bind_eq_some_iff.mp taken
  have casts := row.length_castTakes
  have increments : ((if row.rd ≠ 0 then 1 else 0) + if row.ram.isWrite then 1 else 0) ≤ 2 := by
    split <;> split <;> omega
  rw [← Option.some.inj same, count_append, count_append, count_castTakes, count_incTakes]
  generalize ((if row.rd ≠ 0 then 1 else 0) + if row.ram.isWrite then 1 else 0) = incs at increments
  rcases row.outputTakes_cases outputs with rfl | rfl | rfl <;> rcases m with r | _ | _ <;>
    cases x <;> try cases r
  all_goals simp [witnessRoom, xlenRing, wideRing]
  all_goals omega

/-- In the 32-bit build a cycle stays within its part of the budget. -/
theorem count_takes_le {b : Build} (narrow : b.xlen = .rv32) {row : Row b.xlen}
    {witness phases : List Mask} (taken : row.witnessTakes = some witness)
    (later : row.phasesTakes b = some phases) (m : Mask) :
    witness.count m + phases.count m ≤ b.perCycle m := by
  obtain ⟨fits, none⟩ := covered narrow row.kind (narrow ▸ row.supported) _ _ phases later
  have room := row.count_witnessTakes_le taken m
  by_cases oneHot : m = .randOhv
  · subst oneHot
    exact (Nat.add_le_add room none.le).trans (Nat.zero_le _)
  · have := fits m (mem_convertingMasks oneHot)
    omega

end Row

section Trace

variable {b : Build} {rows : List (Row b.xlen)}

theorem count_flatten_le {m : Mask} {room : Nat} {takes : Row b.xlen → Option (List Mask)}
    (each : ∀ row masks, takes row = some masks → masks.count m ≤ room) {masks : List (List Mask)}
    (taken : rows.mapM takes = some masks) : masks.flatten.count m ≤ rows.length * room := by
  have related := Run.forall₂_of_mapM taken
  clear taken
  induction related with
  | nil => simp
  | cons here _ ih =>
    have := each _ _ here
    rw [flatten_cons, count_append, length_cons, Nat.succ_mul]
    omega

theorem count_flatten_add_le {m : Mask} (narrow : b.xlen = .rv32)
    {witness phases : List (List Mask)} (taken : rows.mapM Row.witnessTakes = some witness)
    (later : rows.mapM (Row.phasesTakes b) = some phases) :
    witness.flatten.count m + phases.flatten.count m ≤ rows.length * b.perCycle m := by
  have related := Run.forall₂_of_mapM taken
  have related' := Run.forall₂_of_mapM later
  clear taken later
  induction related generalizing phases with
  | nil =>
    cases related'
    simp
  | cons here _ ih =>
    obtain _ | ⟨there, rest⟩ := related'
    have cycle := Row.count_takes_le narrow here there m
    have := ih rest
    rw [flatten_cons, flatten_cons, count_append, count_append, length_cons, Nat.succ_mul]
    omega

/-- The one-hot masks are within the budget, and with vectors of 16 entries the polynomials are made
in the 32-bit build alone. -/
theorem fromIndices_spec {rotations : Nat} (positive : 0 < rotations) (n : Nat) :
    (∀ m, (fromIndices b rotations n).1.count m ≤ if m = .randOhv then n * rotations else 0) ∧
      ((fromIndices b rotations (n + 1)).2 = true → b.xlen = .rv32) := by
  have size : rotations * randOhvK = rotations * b.kChunk ↔ b.xlen = .rv32 := by
    obtain ⟨x, fewer⟩ := b
    cases x <;> simp [Build.kChunk, randOhvK, Xlen.bits, D]
    omega
  constructor
  · intro m
    induction n with
    | zero => simp [fromIndices]
    | succ n ih =>
      rw [fromIndices]
      split <;> cases m <;> simp_all [count_replicate, Nat.succ_mul]
      omega
  · intro made
    rw [fromIndices] at made
    split at made
    · exact size.mp ‹_›
    · cases made

/-- An addition of two secret registers into the register 1. -/
def secretAdd (x : Xlen) : Row x where
  kind := .ADD
  cycle :=
    { rs1 := .shared (fun _ => ⟨0, 0⟩) none none, rs2 := .shared (fun _ => ⟨0, 0⟩) none none }
  rd := 1
  rdPost := .shared (fun _ => ⟨0, 0⟩) none none
  ram := .noOp
  supported := by cases x <;> rfl
  rs1_absent absent := nomatch absent
  rs2_absent absent := nomatch absent
  rd_absent absent := nomatch absent
  advice_iff := by simp
  ram_kind := True.intro

/-- A store of a secret register over a secret word. -/
def secretStore (x : Xlen) : Row x where
  kind := .VirtualSW
  cycle := { rs1 := .opened 0, rs2 := .shared (fun _ => ⟨0, 0⟩) none none }
  rd := 0
  rdPost := .opened 0
  ram := .write (.shared (fun _ => ⟨0, 0⟩) none none) (.shared (fun _ => ⟨0, 0⟩) none none)
  supported := by cases x <;> rfl
  rs1_absent absent := nomatch absent
  rs2_absent absent := nomatch absent
  rd_absent _ := ⟨rfl, rfl⟩
  advice_iff := by simp
  ram_kind := True.intro

def secretTrace (x : Xlen) : List (Row x) := [secretAdd x, secretStore x]

-- the `u128` edaBits of a secret addition at all call sites of the 64-bit build, against the budget
example :
  ((secretAdd .rv64).witnessTakes.getD [] ++
  ((secretAdd .rv64).phasesTakes ⟨.rv64, false⟩).getD []).count
      (.edaBit .u128) = 4 ∧ (Build.computeEdabitBudget ⟨.rv64, false⟩ 1 1).count (.edaBit .u128) =
        3 := by
  decide +kernel

end Trace

end ProviaVM.ReadRaf
