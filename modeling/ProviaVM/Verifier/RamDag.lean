import ProviaVM.Verifier.Dag

/-!
`RamDag`: the sumcheck instances that speak of the initial and the final RAM state, as the verifier
constructs them, and the stages they are part of. The instances of the other DAGs are given; what is
used of them is that one of stage 2 (`InnerSumcheck`) and one of stage 4 (the Hamming weight of the
RAM) have no output constraint, and that one of stage 3 (`ReadRafSumcheck`) has a round.
-/
namespace ProviaVM.Verifier
open Blindfold Poly

variable {F G T Com Prf Setup : Type} [Field F] [DecidableEq F]

/-! ## Evaluations of public polynomials -/

def evaluateWords (words : List (BitVec 64)) (r : List F) : F :=
  dot (words.map fun w => (w.toNat : F)) (eqEvals r)

/-- `LT(r, bound)`, bound given by its lowest `r.length` bits, most significant first. -/
def ltBound (bound : Nat) (r : List F) : F :=
  (r.zipIdx.foldl (fun (lt, eq) (x, i) =>
    if bound.testBit (r.length - 1 - i) then (lt + eq * (1 - x), eq * x)
    else (lt, eq * (1 - x))) ((0 : F), (1 : F))).1

/-- `RangeMaskPolynomial::evaluate_mle`. -/
def rangeMask (first last : Nat) (r : List F) : F := ltBound last r - ltBound first r

/-- The mask of the IO region: from the inputs up to `RAM_START_ADDRESS`. -/
def ioMask (params : Params F) (layout : MemoryLayout) (r : List F) : Option F := do
  let first ← remapAddress params.ramWordSize layout layout.inputStart
  let last ← remapAddress params.ramWordSize layout params.ramStartAddress
  return rangeMask first last r

/-- `ProgramIOPolynomial::new`. -/
def programIoWords (params : Params F) (io : JoltDevice) : Option (List (BitVec 64)) := do
  let layout := io.memoryLayout
  let index := remapAddress params.ramWordSize layout
  let words (bytes : List UInt8) := (bytes.toChunks params.ramWordSize).map bytesToRamWord
  let coeffs := List.replicate (nextPowerOfTwo (← index params.ramStartAddress)) 0
  let coeffs ← writeWords (← index layout.inputStart) (words io.inputs) coeffs
  let coeffs ← writeWords (← index layout.outputStart) (words io.outputs) coeffs
  let coeffs ← writeWords (← index layout.panicAddress) [if io.paniced then 1 else 0] coeffs
  if io.paniced then return coeffs else writeWords (← index layout.termination) [1] coeffs

/-- `ProgramIOPolynomial::evaluate`: zero outside of the low addresses. -/
def programIoEval (params : Params F) (io : JoltDevice) (r : List F) : Option F := do
  let words ← programIoWords params io
  let vars := log2 words.length
  if vars ≤ r.length then
    return evaluateWords words (r.drop (r.length - vars)) *
      ((r.take (r.length - vars)).map (1 - ·)).prod
  else none

def ltEval (lhs rhs : List F) : F :=
  ((lhs.zip rhs).foldl (fun (lt, eq) (x, y) =>
    (lt + (1 - x) * y * eq, eq * (1 - x - y + x * y + x * y)))
    ((0 : F), (1 : F))).1

/-- `calculate_advice_memory_evaluation`: the advice fills one block of the memory. -/
def calculateAdviceMemoryEvaluation (params : Params F) (opening : Option (List F × F))
    (logAdviceSize adviceStart : Nat) (layout : MemoryLayout) (rAddress : List F)
    (totalMemoryVars : Nat) : Option F :=
  match opening with
  | none => some 0
  | some (_, adviceEval) => do
    let block := (← remapAddress params.ramWordSize layout adviceStart) >>> logAdviceSize
    let highBits := totalMemoryVars - logAdviceSize
    if logAdviceSize ≤ totalMemoryVars ∧ highBits ≤ rAddress.length then
      let bits := (List.range highBits).map fun i => if block.testBit i then params.challengeOne
        else 0
      let eq ← eqMle bits (rAddress.take highBits)
      return eq * adviceEval
    else none

/-- The evaluation of the initial memory: the two kinds of advice and the public part. -/
def valInitEval (params : Params F) (ramState : List (BitVec 64))
    (sm : StateManager F G Com Prf Setup) (rAddress : List F) : Option F := do
  let ws := params.ramWordSize
  let layout := sm.programIo.memoryLayout
  let advice (id : OpeningId) (maxSize start : Nat) :=
    calculateAdviceMemoryEvaluation params (sm.accumulator.getOpening id)
    (nextPowerOfTwo (maxSize / ws)).log2 start layout rAddress (log2 sm.proof.ramK)
  let untrusted ← advice .UntrustedAdvice layout.maxUntrustedAdviceSize layout.untrustedAdviceStart
  let trusted ← advice .TrustedAdvice layout.maxTrustedAdviceSize layout.trustedAdviceStart
  return untrusted + trusted + evaluateWords ramState rAddress

/-! ## Instances -/

def ramVal : OpeningId := .Virtual .RamVal .RamReadWriteChecking

def ramValInit : OpeningId := .Virtual .RamValInit .RamOutputCheck

def ramValFinal : OpeningId := .Virtual .RamValFinal .RamOutputCheck

/-- `OutputSumcheck`: the final memory holds the outputs at the addresses of the IO region. -/
def outputSumcheck (params : Params F) (io : JoltDevice) (K : Nat) (rAddress : List F) :
    SumcheckInstance F where
  degree := 3
  numRounds := log2 K
  inputClaim := some 0
  expectedOutputClaim acc r := do
    let (_, valFinal) ← (← acc).getOpening ramValFinal
    let rPrime := r.take rAddress.length
    let mask ← ioMask params io.memoryLayout rPrime
    let valIo ← programIoEval params io rPrime
    let eq ← eqMle rAddress rPrime
    return eq * mask * (valFinal - valIo)
  normalizeOpeningPoint r := r
  cacheOpenings _ point :=
    some [.virt .RamValFinal .RamOutputCheck point, .virt .RamValInit .RamOutputCheck point]
  inputClaimConstraint := .default
  inputConstraintChallengeValues _ := []
  outputClaimConstraint := some (.sumOfProducts [
    .product [.challenge 0, .opening ramValFinal],
    .scaled (.constant (-1)) [.challenge 0, .challenge 1]])
  outputConstraintChallengeValues r :=
    (do
      let mask ← ioMask params io.memoryLayout r
      let eq ← eqMle rAddress r
      let valIo ← programIoEval params io r
      return [eq * mask, valIo]).getD []
  input_staged := default_staged
  output_staged := by
    rintro _ ⟨⟩
    decide

/-- The input constraint of value evaluation and of final-value evaluation: a claim on the memory
minus its initial part. -/
def minusInitial (id : OpeningId) : InputClaimConstraint :=
  .linear [(.constant 1, .opening id), (.constant (-1), .opening ramValInit)]

/-- `ValEvaluationSumcheck` from a claimed evaluation and the evaluation of the initial memory. -/
def valEvaluationSumcheck (numRounds K : Nat) (claimedEvaluation initEval : F) (rCycle : List F) :
    SumcheckInstance F where
  degree := 3
  numRounds := numRounds
  inputClaim := some (claimedEvaluation - initEval)
  expectedOutputClaim acc r := do
    let acc ← acc
    let (rVal, _) ← acc.getOpening ramVal
    let (_, inc) ← acc.getOpening (.Committed .RamInc .RamValEvaluation)
    let (_, wa) ← acc.getOpening (.Virtual .RamRa .RamValEvaluation)
    return inc * wa * ltEval r (rVal.drop (log2 K))
  normalizeOpeningPoint r := r
  cacheOpenings acc rCyclePrime := do
    let (r, _) ← acc.getOpening ramVal
    return [.virt .RamRa .RamValEvaluation (r.take (r.length - rCyclePrime.length) ++ rCyclePrime),
      .dense [.RamInc] .RamValEvaluation rCyclePrime]
  inputClaimConstraint := minusInitial ramVal
  inputConstraintChallengeValues _ := []
  outputClaimConstraint :=
    some (.product [.challenge 0, .opening (.Committed .RamInc .RamValEvaluation),
    .opening (.Virtual .RamRa .RamValEvaluation)])
  outputConstraintChallengeValues r := [ltEval r rCycle]
  input_staged := by decide
  output_staged := by
    rintro _ ⟨⟩
    decide

/-- `ValFinalSumcheck` from the claim on the final memory and the evaluation of the initial
memory. -/
def valFinalSumcheck (numRounds : Nat) (valFinalClaim initEval : F) : SumcheckInstance F where
  degree := 2
  numRounds := numRounds
  inputClaim := some (valFinalClaim - initEval)
  expectedOutputClaim acc _ := do
    let acc ← acc
    let (_, inc) ← acc.getOpening (.Committed .RamInc .RamValFinalEvaluation)
    let (_, wa) ← acc.getOpening (.Virtual .RamRa .RamValFinalEvaluation)
    return inc * wa
  normalizeOpeningPoint r := r
  cacheOpenings acc rCyclePrime := do
    let (rAddress, _) ← acc.getOpening ramValFinal
    return [.dense [.RamInc] .RamValFinalEvaluation rCyclePrime,
      .virt .RamRa .RamValFinalEvaluation (rAddress ++ rCyclePrime)]
  inputClaimConstraint := minusInitial ramValFinal
  inputConstraintChallengeValues _ := []
  outputClaimConstraint := some (.product [.opening (.Committed .RamInc .RamValFinalEvaluation),
    .opening (.Virtual .RamRa .RamValFinalEvaluation)])
  outputConstraintChallengeValues _ := []
  input_staged := by decide
  output_staged := by
    rintro _ ⟨⟩
    decide

/-- `HammingBooleanitySumcheck`; it has no constraints. -/
def hammingBooleanity (logT : Nat) : SumcheckInstance F where
  degree := 3
  numRounds := logT
  inputClaim := some 0
  expectedOutputClaim acc r := do
    let acc ← acc
    let (_, h) ← acc.getOpening (.Virtual .RamHammingWeight .RamHammingBooleanity)
    let (rCycle, _) ← acc.getOpening (.Virtual .LookupOutput .SpartanOuter)
    let eq ← eqMle r rCycle.reverse
    return (h * h - h) * eq
  normalizeOpeningPoint r := r.reverse
  cacheOpenings _ point := some [.virt .RamHammingWeight .RamHammingBooleanity point]
  inputClaimConstraint := .default
  inputConstraintChallengeValues _ := []
  outputClaimConstraint := none
  outputConstraintChallengeValues _ := []
  input_staged := default_staged
  output_staged := none_staged

/-! ## Construction -/

def newValEvaluation (params : Params F) (ramState : List (BitVec 64))
    (sm : StateManager F G Com Prf Setup) :
    Option (SumcheckInstance F) := do
  let K := sm.proof.ramK
  let (r, claimedEvaluation) ← sm.accumulator.getOpening ramVal
  let initEval ← valInitEval params ramState sm (r.take (log2 K))
  if log2 K ≤ r.length ∧ sm.proof.traceLength ≠ 0 then
    return valEvaluationSumcheck (log2 sm.proof.traceLength) K claimedEvaluation initEval
      (r.drop (log2 K))
  else none

/-- The address at which the output check opens the memory, which has to be that of the read-write
checking, and the initial memory's evaluation there. -/
def outputValInit (params : Params F) (ramState : List (BitVec 64))
    (sm : StateManager F G Com Prf Setup) : Option F := do
  let (rAddress, _) ← sm.accumulator.getOpening ramValFinal
  let (r, _) ← sm.accumulator.getOpening ramVal
  let vars := log2 sm.proof.ramK
  if vars ≤ r.length ∧ r.take vars = rAddress then valInitEval params ramState sm rAddress else none

def newValFinal (params : Params F) (ramState : List (BitVec 64))
    (sm : StateManager F G Com Prf Setup) :
    Option (SumcheckInstance F) := do
  let initEval ← outputValInit params ramState sm
  let (_, valFinalClaim) ← sm.accumulator.getOpening ramValFinal
  return valFinalSumcheck (log2 sm.proof.traceLength) valFinalClaim initEval

abbrev Instances (F G T Com Prf Setup : Type) :=
  StateManager F G Com Prf Setup → T → Except Failure (List (SumcheckInstance F) × T)

/-- The instances of the other DAGs, before and after those of the RAM, and those of stage 4. -/
structure OtherInstances (F G T Com Prf Setup : Type) [Field F] where
  beforeStage2 : Instances F G T Com Prf Setup
  afterStage2 : Instances F G T Com Prf Setup
  beforeStage3 : Instances F G T Com Prf Setup
  stage4 : Instances F G T Com Prf Setup
  open_stage2 : ∀ sm t is t', beforeStage2 sm t = .ok (is, t') →
    ∃ i ∈ is, i.outputClaimConstraint = none
  open_stage4 : ∀ sm t is t', stage4 sm t = .ok (is, t') → ∃ i ∈ is, i.outputClaimConstraint = none
  round_stage3 : ∀ sm t is t', beforeStage3 sm t = .ok (is, t') → ∃ i ∈ is, 0 < i.numRounds

variable [Transcript T F G]

/-- The stages with the instances of the RAM at their places. -/
def ramDags (params : Params F) (others : OtherInstances F G T Com Prf Setup) :
    Dags F G T Com Prf Setup where
  stage2 sm t := do
    let (before, t) ← others.beforeStage2 sm t
    let (rAddress, t) := Transcript.challengeVectorOptimized F G (log2 sm.proof.ramK) t
    let (after, t) ← others.afterStage2 sm t
    return (before ++ [outputSumcheck params sm.programIo sm.proof.ramK rAddress] ++ after, t)
  stage3 ramState sm t := do
    let (before, t) ← others.beforeStage3 sm t
    let valEvaluation ← orPanic (newValEvaluation params ramState sm)
    let valFinal ← orPanic (newValFinal params ramState sm)
    return (before ++ [valEvaluation, valFinal, hammingBooleanity (log2 sm.proof.traceLength)], t)
  stage4 := others.stage4

end ProviaVM.Verifier
