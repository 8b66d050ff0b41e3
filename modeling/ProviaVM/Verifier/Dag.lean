import ProviaVM.Verifier.Reduction

/-!
`JoltDAG::verify` in the zk build: the preamble, the four stages, the advice openings, the opening
reduction and, if the proof carries a BlindFold part, `verify_blindfold`. The instances of the
stages are those the DAGs construct; here they are given with the DAGs. What the checks compared is
kept in a log.
-/
namespace ProviaVM.Verifier
open Blindfold Transcript

variable {F G T Com Prf Setup : Type} [Field F] [DecidableEq F] [AddCommGroup G] [Module F G]
  [DecidableEq G] [Transcript T F G]

/-! ## Inputs -/

structure MemoryLayout where
  maxInputSize : Nat
  maxOutputSize : Nat
  memorySize : Nat
  maxTrustedAdviceSize : Nat
  maxUntrustedAdviceSize : Nat
  trustedAdviceStart : Nat
  untrustedAdviceStart : Nat
  inputStart : Nat
  outputStart : Nat
  panicAddress : Nat
  termination : Nat

structure JoltDevice where
  memoryLayout : MemoryLayout
  inputs : List UInt8
  outputs : List UInt8
  trustedAdvice : List UInt8
  untrustedAdvice : List UInt8
  paniced : Bool

structure RAMPreprocessing where
  minBytecodeAddress : Nat
  bytecodeWords : List (BitVec 64)

structure VerifierPreprocessing (G Setup : Type) where
  ram : RAMPreprocessing
  bytecodeD : Nat
  generators : Setup
  blindfoldSetup : Option (PedersenGenerators G)

/-- `pedersen_generators` panics without a setup, with too small a one, and for no generator at
all. -/
def VerifierPreprocessing.pedersenGenerators (p : VerifierPreprocessing G Setup) (count : Nat) :
    Option (PedersenGenerators G) := do
  let gens ← p.blindfoldSetup
  if count ≤ gens.messageGenerators.length ∧ count ≠ 0 then
    some ⟨gens.messageGenerators.take count, gens.blindingGenerator⟩
  else none

inductive ProofKeys where
  | Stage1Sumcheck | Stage2Sumcheck | Stage3Sumcheck | Stage4Sumcheck
  | ReducedOpeningProof | TrustedAdviceProof | UntrustedAdviceProof
  deriving DecidableEq

inductive ProofData (F G Prf : Type) where
  | sumcheckProof (proof : SumcheckInstanceProof F G)
  | reducedOpeningProof (proof : ReducedOpeningProof F G Prf)
  | openingProof (proof : Prf)

namespace ProofData

variable {F G Prf : Type}

def sumcheck? : ProofData F G Prf → Option (SumcheckInstanceProof F G)
  | sumcheckProof p => some p
  | _ => none

def reducedOpening? : ProofData F G Prf → Option (ReducedOpeningProof F G Prf)
  | reducedOpeningProof p => some p
  | _ => none

def opening? : ProofData F G Prf → Option Prf
  | openingProof p => some p
  | _ => none

end ProofData

structure JoltProof (F G Com Prf : Type) where
  openingClaims : List (OpeningId × List F × F)
  commitments : List Com
  proofs : ProofKeys → Option (ProofData F G Prf)
  blindfoldProof : Option (BlindFoldProof F G)
  untrustedAdviceCommitment : Option Com
  trustedAdviceCommitment : Option Com
  traceLength : Nat
  ramK : Nat

/-- What the stages' instances are built from. -/
structure StateManager (F G Com Prf Setup : Type) where
  proof : JoltProof F G Com Prf
  programIo : JoltDevice
  preprocessing : VerifierPreprocessing G Setup
  accumulator : VerifierOpeningAccumulator F

/-- The DAGs' `stageN_verifier_instances`, which draw their challenges from the transcript. Stage 3
also gets the initial RAM state. -/
structure Dags (F G T Com Prf Setup : Type) where
  stage2 : StateManager F G Com Prf Setup → T → Except Failure (List (SumcheckInstance F) × T)
  stage3 : List (BitVec 64) → StateManager F G Com Prf Setup → T →
    Except Failure (List (SumcheckInstance F) × T)
  stage4 : StateManager F G Com Prf Setup → T → Except Failure (List (SumcheckInstance F) × T)

/-- RAM word size in bytes, `RAM_START_ADDRESS`, constraint rows per step, padded to a power of two,
and the field element of `F::Challenge::from(1)`, which is not one in the build with short
challenges. -/
structure Params (F : Type) where
  ramWordSize : Nat
  ramStartAddress : Nat
  paddedRowsPerStep : Nat
  challengeOne : F

structure Env (F G T Com Prf Setup : Type) where
  pcs : CommitmentScheme F G T Com Prf Setup
  dags : Dags F G T Com Prf Setup
  params : Params F

/-! ## Initial memory -/

/-- `Math::log_2` of a positive number, which rounds up. -/
def log2 (n : Nat) : Nat := if 2 ^ n.log2 = n then n.log2 else n.log2 + 1

/-- `remap_address` of an address the caller unwraps: zero and an address below the advice panic. -/
def remapAddress (ws : Nat) (layout : MemoryLayout) (address : Nat) : Option Nat :=
  if address = 0 ∨ address < layout.trustedAdviceStart then none
  else some ((address - layout.trustedAdviceStart) / ws + 1)

def bytesToRamWord (bytes : List UInt8) : BitVec 64 :=
  bytes.foldr (fun b word => word <<< 8 ||| BitVec.ofNat 64 b.toNat) 0

/-- Writes consecutive words from an index on; a write past the end panics. -/
def writeWords (index : Nat) (words : List (BitVec 64)) (memory : List (BitVec 64)) :
    Option (List (BitVec 64)) :=
  if index + words.length ≤ memory.length ∨ words.isEmpty then
    some (memory.take index ++ words ++ memory.drop (index + words.length))
  else none

def buildInitialMemoryState (ws : Nat) (ram : RAMPreprocessing) (io : JoltDevice) (K : Nat) :
    Option (List (BitVec 64)) := do
  let layout := io.memoryLayout
  let words (bytes : List UInt8) := (bytes.toChunks ws).map bytesToRamWord
  let memory ← writeWords (← remapAddress ws layout ram.minBytecodeAddress) ram.bytecodeWords
    (List.replicate K 0)
  let memory ← writeWords (← remapAddress ws layout layout.trustedAdviceStart)
    (words io.trustedAdvice) memory
  let memory ← writeWords (← remapAddress ws layout layout.untrustedAdviceStart)
    (words io.untrustedAdvice) memory
  writeWords (← remapAddress ws layout layout.inputStart) (words io.inputs) memory

/-! ## Stage 1 -/

/-- A sumcheck of the proof with the two values its check compares. -/
structure StageRun (F G : Type) where
  proof : SumcheckInstanceProof F G
  outputClaim : F
  expectedOutputClaim : F

structure Stage1BlindfoldData (F : Type) where
  tau : List F
  challenges : List F
  outputClaimIds : List OpeningId

def spartanOpening (poly : VirtualPolynomial) : OpeningId := .Virtual poly .SpartanOuter

def stage1Verify (params : Params F) (sm : StateManager F G Com Prf Setup) (t : T) :
    Except Failure (StageRun F G × Stage1BlindfoldData F × VerifierOpeningAccumulator F × T) := do
  let numSteps := nextPowerOfTwo sm.proof.traceLength
  let numRounds := (nextPowerOfTwo (numSteps * params.paddedRowsPerStep)).log2
  let (tau, t) := challengeVectorOptimized F G numRounds t
  let entry ← orPanic (sm.proof.proofs .Stage1Sumcheck)
  let proof ← orFail (.message "Invalid proof type for stage 1") entry.sumcheck?
  let (finalEval, challenges, t) ← proof.verify 0 numRounds 3 t
  let outerR := challenges.reverse
  let eqEval ← orPanic (eqMle tau outerR)
  let (_, az) ← orPanic (sm.accumulator.getOpening (spartanOpening .SpartanAz))
  let (_, bz) ← orPanic (sm.accumulator.getOpening (spartanOpening .SpartanBz))
  let (_, cz) ← orPanic (sm.accumulator.getOpening (spartanOpening .SpartanCz))
  let expected := eqEval * (az * bz - cz)
  ensure (proof.isZk = true ∨ finalEval = expected)
    (.message "Spartan outer sumcheck final eval mismatch")
  let t := match proof with
    | .zk p => appendPoints F p.outputClaimsCommitments (appendMessage F G "output_claims_coms" t)
    | .clear _ => appendScalars G [az, bz, cz] t
  let acc := if proof.isZk then { sm.accumulator with zkMode := true } else sm.accumulator
  let rCycle := outerR.take numSteps.log2
  let (acc, t) ← acc.appendAll G t
    (([.SpartanAz, .SpartanBz, .SpartanCz] : List VirtualPolynomial).map
      (.virt · .SpartanOuter outerR) ++
      [.dense committedR1csInputs .SpartanOuter rCycle] ++
        virtualR1csInputs.map (.virt · .SpartanOuter rCycle))
  let run : StageRun F G := ⟨proof, finalEval, expected⟩
  if proof.isZk then
    return (run, ⟨tau, challenges, acc.pendingClaimIds⟩,
      { acc with zkMode := false, pendingClaims := [], pendingClaimIds := [] }, t)
  else return (run, ⟨tau, challenges, []⟩, acc, t)

/-! ## Stages 2 to 4 -/

/-- A batched stage: the openings its instances were built from, the instances and what its
verification returned. -/
structure BatchedStage (F G : Type) where
  proof : SumcheckInstanceProof F G
  accumulator : VerifierOpeningAccumulator F
  instances : List (SumcheckInstance F)
  run : BatchedRun F

def BatchedStage.toStageRun (s : BatchedStage F G) : StageRun F G :=
  ⟨s.proof, s.run.outputClaim, s.run.expectedOutputClaim⟩

/-- Builds the instances, fetches the proof of the stage, which panics on another kind of proof, and
verifies it. -/
def stageVerify (name : String) (key : ProofKeys)
    (instances : StateManager F G Com Prf Setup → T →
      Except Failure (List (SumcheckInstance F) × T))
    (sm : StateManager F G Com Prf Setup) (t : T) :
    Except Failure (BatchedStage F G × StateManager F G Com Prf Setup × T) := do
  let (instances, t) ← instances sm t
  let entry ← orPanic (sm.proof.proofs key)
  let proof ← orPanic entry.sumcheck?
  let (run, acc, t) ← withContext name
    (BatchedSumcheck.verify proof instances (some sm.accumulator) t)
  let acc ← orPanic acc
  return (⟨proof, sm.accumulator, instances, run⟩, { sm with accumulator := acc }, t)

/-! ## Advice -/

/-- The opening of one kind of advice at the low part of the RAM address. -/
def verifyAdviceProof (env : Env F G T Com Prf Setup) (sm : StateManager F G Com Prf Setup)
    (id : OpeningId) (key : ProofKeys) (maxAdviceSize : Nat) (label : String) (commitment : Com)
    (t : T) :
    Except Failure (StateManager F G Com Prf Setup × T) := do
  let logSize := (nextPowerOfTwo (maxAdviceSize / env.params.ramWordSize)).log2
  let (rVal, _) ← orPanic (sm.accumulator.getOpening (.Virtual .RamVal .RamReadWriteChecking))
  let vars := log2 sm.proof.ramK
  ensure (vars ≤ rVal.length ∧ logSize ≤ vars) .panicked
  let point := (rVal.take vars).drop (vars - logSize)
  let claim := ((sm.accumulator.openings.lookup id).map (·.2)).getD 0
  let acc := { sm.accumulator with openings := (id, point, claim) :: sm.accumulator.openings }
  let (point, eval) ← orPanic (acc.getOpening id)
  let proof ← orFail (.message (label ++ " proof not found"))
    ((sm.proof.proofs key).bind (·.opening?))
  match env.pcs.verify proof (env.pcs.setup logSize) t point eval commitment with
  | .ok t => return ({ sm with accumulator := acc }, t)
  | .error e => .error (.context (label ++ " opening proof verification failed") (.proof e))

def verifyTrustedAdviceProofs (env : Env F G T Com Prf Setup) (sm : StateManager F G Com Prf Setup)
    (commitment : Com) (t : T) : Except Failure (StateManager F G Com Prf Setup × T) :=
  verifyAdviceProof env sm .TrustedAdvice .TrustedAdviceProof
    sm.programIo.memoryLayout.maxTrustedAdviceSize
    "Trusted advice" commitment t

def verifyUntrustedAdviceProofs (env : Env F G T Com Prf Setup)
    (sm : StateManager F G Com Prf Setup) (commitment : Com) (t : T) :
    Except Failure (StateManager F G Com Prf Setup × T) :=
  verifyAdviceProof env sm .UntrustedAdvice .UntrustedAdviceProof
    sm.programIo.memoryLayout.maxUntrustedAdviceSize
    "Untrusted advice" commitment t

def ifPresent {α σ : Type} (commitment : Option α) (check : α → σ → Except Failure σ) (s : σ) :
    Except Failure σ :=
  match commitment with
  | some c => withContext "Stage 5" (check c s)
  | none => .ok s

/-! ## BlindFold -/

/-- `stage1_output_constraint`: challenge 1 of the batch is the value of `eq`. -/
def stage1OutputConstraint : OutputClaimConstraint :=
  .batchInner [.sumOfProducts [
    .scaled (.challenge 0) [.opening (spartanOpening .SpartanAz),
      .opening (spartanOpening .SpartanBz)],
    .scaled (.challenge 0) [.constant (-1), .opening (spartanOpening .SpartanCz)]]]

structure BlindfoldStage (F G : Type) where
  key : ProofKeys
  proof : SumcheckInstanceProof F G
  inputConstraint : InputClaimConstraint
  inputChallenges : List F
  outputConstraint : Option OutputClaimConstraint
  outputChallenges : Option (List F)
  challenges : List F
  ocBlock : List OpeningId
  initialClaim : F

def batchedInputChallengeValues (s : BatchedStage F G) (acc : VerifierOpeningAccumulator F) :
    Option (List F) := do
  let maxNumRounds ← (s.instances.map (·.numRounds)).max?
  let alphas ← (s.run.batchingCoeffs.zip s.instances).mapM fun (alpha, i) =>
    mulPow2 alpha (maxNumRounds - i.numRounds)
  return alphas ++ s.instances.flatMap (·.inputConstraintChallengeValues acc)

/-- `batched_output_challenge_values`; a batch without constraint has no values. -/
def batchedOutputChallengeValues (s : BatchedStage F G) : Option (Option (List F)) :=
  if (OutputClaimConstraint.batch (s.instances.map (·.outputClaimConstraint))).isNone then some none
  else do
    let maxNumRounds ← (s.instances.map (·.numRounds)).max?
    return some (s.run.batchingCoeffs ++ s.instances.flatMap fun i =>
      i.outputConstraintChallengeValues
        ((s.run.challenges.drop (maxNumRounds - i.numRounds)).take i.numRounds))

def batchedInitialClaim (s : BatchedStage F G) : Option F := do
  let maxNumRounds := (s.instances.map (·.numRounds)).max?.getD 0
  let claims ← (s.instances.zip s.run.batchingCoeffs).mapM fun (i, coeff) => do
    let claim ← i.inputClaim
    let scaled ← mulPow2 claim (maxNumRounds - i.numRounds)
    return scaled * coeff
  return claims.sum

/-- Constraints, challenge values and initial claim of a batched stage. -/
def BatchedStage.toBlindfold (s : BatchedStage F G) (key : ProofKeys)
    (acc : VerifierOpeningAccumulator F) :
    Option (BlindfoldStage F G) := do
  let inputConstraint ← OutputClaimConstraint.batchRequired
    (s.instances.map (·.inputClaimConstraint))
    s.run.batchingCoeffs.length
  let inputChallenges ← batchedInputChallengeValues s acc
  let outputChallenges ← batchedOutputChallengeValues s
  let initialClaim ← batchedInitialClaim s
  return {
    key, proof := s.proof, inputConstraint, inputChallenges
    outputConstraint := OutputClaimConstraint.batch (s.instances.map (·.outputClaimConstraint))
    outputChallenges, challenges := s.run.challenges, ocBlock :=
      s.run.outputClaimIds, initialClaim }

/-- Stage 1 starts from the claim zero and has no input constraint. -/
def stage1Blindfold (proof : SumcheckInstanceProof F G) (data : Stage1BlindfoldData F) :
    Option (BlindfoldStage F G) := do
  let eqEval ← eqMle data.tau data.challenges.reverse
  return {
    key := .Stage1Sumcheck, proof, inputConstraint := .default, inputChallenges := []
    outputConstraint := some stage1OutputConstraint, outputChallenges := some [1, eqEval]
    challenges := data.challenges, ocBlock := data.outputClaimIds, initialClaim := 0 }

/-- One config for each round: the first one starts a chain and carries the input constraint, if it
has terms, the last one the output constraint. -/
def stageConfigs (degrees : List Nat) (input : InputClaimConstraint)
    (output : Option OutputClaimConstraint) :
    List StageConfig :=
  degrees.zipIdx.map fun (degree, round) =>
    let config := if round = 0 then StageConfig.newChain 1 degree else StageConfig.new 1 degree
    let config := if round = 0 ∧ !input.terms.isEmpty then config.withInputConstraint input
      else config
    match output with
    | some c => if round + 1 = degrees.length then config.withConstraint c else config
    | none => config

/-- Column count computed from the stated degrees. -/
def blindfoldHyraxC (proofs : List (SumcheckInstanceProof F G)) : Nat :=
  nextPowerOfTwo ((proofs.map fun
    | .zk p => (p.polyDegrees.map (· + 1)).max?.getD 1
    | .clear _ => 1).max?.getD 1)

/-- The loop over the stages: every proof has to be a zk one with the right number of output-claim
rows. -/
def zkProofs (hyraxC : Nat) :
    Nat → List (BlindfoldStage F G) → Except Failure (List (ZkSumcheckProof G))
  | _, [] => .ok []
  | i, s :: rest =>
    match s.proof with
    | .clear _ => .error (.message "BlindFold requires ZK DAG sumcheck proofs")
    | .zk p => do
      let rows := divCeil s.ocBlock.length hyraxC
      let got := p.outputClaimsCommitments.length
      let claims := s.ocBlock.length
      ensure (got = rows) (.message
        s!"BlindFold stage {i} OC rows mismatch: proof has {got}, verifier reconstructed {rows} rows from {claims} claims")
      let ps ← zkProofs hyraxC (i + 1) rest
      return p :: ps

/-- An instance the BlindFold verifier has accepted, with the stages whose proofs it was built
from. -/
structure BlindfoldRun (F G : Type) where
  stages : List (ProofKeys × ZkSumcheckProof G)
  r1cs : VerifierR1CS F
  input : BlindFoldVerifierInput G
  proof : BlindFoldProof F G
  gens : PedersenGenerators G

/-- The R1CS rebuilt from the stages and the reduced openings. -/
def rebuildR1cs (stages : List (BlindfoldStage F G)) (proofs : List (ZkSumcheckProof G))
    (data : BlindfoldOpeningData F) :
    Option (VerifierR1CS F) :=
  let configs :=
    (List.zipWith (fun (p : ZkSumcheckProof G) s => stageConfigs p.polyDegrees s.inputConstraint
    s.outputConstraint) proofs stages).flatten
  let challenges :=
    (List.zipWith (fun (p : ZkSumcheckProof G) s => s.challenges.take p.polyDegrees.length) proofs
    stages).flatten
  let extra :=
    OutputClaimConstraint.linear (data.openingIds.zipIdx.map fun (id, i) =>
    (.challenge i, .opening id))
  build configs [extra]
    { challenges
      initialClaims := stages.map (·.initialClaim)
      batchingCoefficients := []
      outputConstraintChallenges := stages.flatMap (·.outputChallenges.getD [])
      inputConstraintChallenges := stages.flatMap (·.inputChallenges)
      extraConstraintChallenges := data.constraintCoeffs }
    (stages.map (·.ocBlock))

/-- The `ensure!`s of `verify_blindfold` on numbers of rows. -/
def ensureRows (label : String) (got expected : Nat) : Except Failure Unit :=
  ensure (got = expected) (.message s!"{label} mismatch: got {got}, expected {expected}")

/-- `verify_blindfold` from the stages on. -/
def verifyBlindfold (env : Env F G T Com Prf Setup) (preprocessing : VerifierPreprocessing G Setup)
    (blindfold : BlindFoldProof F G) (data : BlindfoldOpeningData F)
    (stages : List (BlindfoldStage F G)) (evalCommitment : G) :
    Except Failure (BlindfoldRun F G) := do
  let proofs ← zkProofs (blindfoldHyraxC (stages.map (·.proof))) 1 stages
  let r1cs ← orPanic (rebuildR1cs stages proofs data)
  let input : BlindFoldVerifierInput G :=
    { roundCommitments := proofs.flatMap (·.roundCommitments)
      outputClaimsRowCommitments := proofs.flatMap (·.outputClaimsCommitments)
      evalCommitments := [evalCommitment] }
  ensureRows "BlindFold verifier round commitments" input.roundCommitments.length
    r1cs.hyrax.totalRounds
  ensureRows "BlindFold verifier OC row commitments" input.outputClaimsRowCommitments.length
    r1cs.hyrax.outputClaimsRows
  ensureRows "BlindFold proof noncoeff rows" blindfold.noncoeffRowCommitments.length
    r1cs.hyrax.regularNoncoeffRows
  ensureRows "BlindFold random instance OC rows"
    blindfold.randomInstance.outputClaimsRowCommitments.length
    r1cs.hyrax.outputClaimsRows
  ensureRows "BlindFold random instance noncoeff rows"
    blindfold.randomInstance.noncoeffRowCommitments.length
    r1cs.hyrax.regularNoncoeffRows
  ensureRows "BlindFold random instance E rows" blindfold.randomInstance.eRowCommitments.length
    (r1cs.hyrax.eGrid r1cs.numConstraints).1
  let gens ← orPanic (preprocessing.pedersenGenerators r1cs.hyrax.C)
  withContext "BlindFold verification failed" (BlindFoldVerifier.verify gens r1cs
    (env.pcs.evalCommitmentGens preprocessing.generators) blindfold input (new F G "BlindFold" : T))
  return ⟨(stages.map (·.key)).zip proofs, r1cs, input, blindfold, gens⟩

/-! ## Verification -/

structure VerifyLog (F G : Type) where
  stage1 : StageRun F G
  stage2 : BatchedStage F G
  stage3 : BatchedStage F G
  stage4 : BatchedStage F G
  reduction : ReductionRun F G
  blindfold : Option (BlindfoldRun F G)

/-- `fiat_shamir_preamble` and the commitments. -/
def preamble (env : Env F G T Com Prf Setup) (sm : StateManager F G Com Prf Setup) : T :=
  let io := sm.programIo
  let t : T := new F G "Jolt"
  let t := appendU64 F G io.memoryLayout.maxInputSize t
  let t := appendU64 F G io.memoryLayout.maxOutputSize t
  let t := appendU64 F G io.memoryLayout.memorySize t
  let t := appendBytes F G io.inputs t
  let t := appendBytes F G io.outputs t
  let t := appendU64 F G io.paniced.toNat t
  let t := appendU64 F G sm.proof.ramK t
  let t := appendU64 F G sm.proof.traceLength t
  let coms := sm.proof.commitments ++ sm.proof.untrustedAdviceCommitment.toList ++
    sm.proof.trustedAdviceCommitment.toList
  coms.foldl (fun t com => env.pcs.appendCommitment com t) t

/-- `from_proof`: the accumulator starts in zk mode when the proof has a BlindFold part. -/
def fromProof (proof : JoltProof F G Com Prf) (programIo : JoltDevice)
    (preprocessing : VerifierPreprocessing G Setup) :
    Option (StateManager F G Com Prf Setup) := do
  let accumulator ← (VerifierOpeningAccumulator.empty proof.blindfoldProof.isSome).primeOpenings
    proof.openingClaims
  return { proof, programIo, preprocessing, accumulator }

/-- `compute_d_parameter`: chunks of eight bits. -/
def computeDParameter (K : Nat) : Nat := divCeil (log2 K) 8

/-- Everything before BlindFold: the log without it, the data handed to `verify_blindfold`, and the
evaluation commitment. -/
def verifyStages (env : Env F G T Com Prf Setup) (sm : StateManager F G Com Prf Setup) :
    Except Failure (VerifyLog F G × Stage1BlindfoldData F × VerifierOpeningAccumulator F × G) := do
  let t : T := preamble env sm
  let ramState ← orPanic (buildInitialMemoryState env.params.ramWordSize sm.preprocessing.ram
    sm.programIo sm.proof.ramK)
  let (stage1, stage1Data, acc, t) ← withContext "Stage 1" (stage1Verify env.params sm t)
  let sm := { sm with accumulator := acc }
  let (stage2, sm, t) ← stageVerify "Stage 2" .Stage2Sumcheck env.dags.stage2 sm t
  let (stage3, sm, t) ← stageVerify "Stage 3" .Stage3Sumcheck (env.dags.stage3 ramState) sm t
  let (stage4, sm, t) ← stageVerify "Stage 4" .Stage4Sumcheck env.dags.stage4 sm t
  let (sm, t) ← ifPresent sm.proof.trustedAdviceCommitment
    (fun c (sm, t) => verifyTrustedAdviceProofs env sm c t) (sm, t)
  let (sm, t) ← ifPresent sm.proof.untrustedAdviceCommitment
    (fun c (sm, t) => verifyUntrustedAdviceProofs env sm c t) (sm, t)
  let entry ← orPanic (sm.proof.proofs .ReducedOpeningProof)
  let opening ← orPanic entry.reducedOpening?
  let evalCommitment ← orFail (.message "missing eval commitment")
    (env.pcs.evalCommitment opening.jointOpeningProof)
  let polynomials :=
    allCommittedPolynomials (computeDParameter sm.proof.ramK) sm.preprocessing.bytecodeD
  ensure (sm.proof.ramK ≠ 0 ∧ polynomials.length ≤ sm.proof.commitments.length) .panicked
  let (reduction, acc, _) ← withContext "Stage 5"
    (reduceAndVerify env.pcs sm.preprocessing.generators
    (polynomials.zip sm.proof.commitments) opening sm.accumulator t)
  return (⟨stage1, stage2, stage3, stage4, reduction, none⟩, stage1Data, acc, evalCommitment)

def blindfoldStages (log : VerifyLog F G) (stage1Data : Stage1BlindfoldData F)
    (acc : VerifierOpeningAccumulator F) :
    Option (List (BlindfoldStage F G)) := do
  let s₁ ← stage1Blindfold log.stage1.proof stage1Data
  let s₂ ← log.stage2.toBlindfold .Stage2Sumcheck acc
  let s₃ ← log.stage3.toBlindfold .Stage3Sumcheck acc
  let s₄ ← log.stage4.toBlindfold .Stage4Sumcheck acc
  return [s₁, s₂, s₃, s₄]

def verify (env : Env F G T Com Prf Setup) (preprocessing : VerifierPreprocessing G Setup)
    (programIo : JoltDevice) (proof : JoltProof F G Com Prf) : Except Failure (VerifyLog F G) := do
  let sm ← orPanic (fromProof proof programIo preprocessing)
  let (log, stage1Data, acc, evalCommitment) ← verifyStages env sm
  match proof.blindfoldProof with
  | none => return log
  | some blindfold => do
    let stages ← orPanic (blindfoldStages log stage1Data acc)
    let run ← withContext "BlindFold"
      (verifyBlindfold env preprocessing blindfold log.reduction.openingData stages
      evalCommitment)
    return { log with blindfold := some run }

end ProviaVM.Verifier
