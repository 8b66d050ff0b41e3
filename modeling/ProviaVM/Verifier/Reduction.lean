import ProviaVM.Verifier.Sumcheck

/-!
`reduce_and_verify`: one sumcheck turns the accumulated openings, each at its own point, into
evaluations at one common point, and one opening proof of the commitment scheme shows their random
combination.
-/
namespace ProviaVM.Verifier
open Blindfold

variable {F G T Com Prf Setup : Type} [Field F] [DecidableEq F] [Transcript T F G]

/-- The polynomial commitment scheme; `setup n` is the verifier's half of `setup_prover(n)`. -/
structure CommitmentScheme (F G T Com Prf Setup : Type) where
  verify : Prf → Setup → T → List F → F → Com → Except ProofVerifyError T
  combineCommitments : List Com → List F → Com
  appendCommitment : Com → T → T
  evalCommitment : Prf → Option G
  evalCommitmentGens : Setup → Option (G × G)
  setup : Nat → Setup

structure ReducedOpeningProof (F G Prf : Type) where
  sumcheckProof : SumcheckInstanceProof F G
  sumcheckClaims : List F
  jointOpeningProof : Prf

/-- The reduction instance as the batched sumcheck sees it; it is never asked to open anything. -/
def ReductionSumcheck.toInstance (s : ReductionSumcheck F) : SumcheckInstance F where
  degree := 2
  numRounds := s.openingPoint.length
  inputClaim := if s.inputClaims.length = 1 then s.inputClaims.head? else none
  expectedOutputClaim _ r := do
    let eqEval ← eqMle s.openingPoint r
    let claim ← s.sumcheckClaim
    return eqEval * claim
  normalizeOpeningPoint r := r
  cacheOpenings _ _ := none
  inputClaimConstraint := .default
  inputConstraintChallengeValues _ := []
  outputClaimConstraint := none
  outputConstraintChallengeValues _ := []
  input_staged := default_staged
  output_staged := none_staged

/-- Hands the gammas out in order. -/
def prepareAll : List (ReductionSumcheck F) → List F → Option (List (ReductionSumcheck F))
  | [], _ => some []
  | s :: rest, gammas => do
    let s' ← s.prepareSumcheck (gammas.take s.numGammas)
    let rest ← prepareAll rest (gammas.drop s.numGammas)
    return s' :: rest

/-- The reduced claims are stored in the instances for as long as there are any. -/
def setClaims : List (ReductionSumcheck F) → List F → List (ReductionSumcheck F)
  | s :: rest, claim :: claims => { s with sumcheckClaim := some claim } :: setClaims rest claims
  | rest, _ => rest

/-- Adds a coefficient to the entry of its polynomial. -/
def addCoefficient (poly : CommittedPolynomial) (coeff : F) :
    List (CommittedPolynomial × F) → List (CommittedPolynomial × F)
  | [] => [(poly, coeff)]
  | (p, c) :: rest => if p = poly then (p, c + coeff) :: rest
    else (p, c) :: addCoefficient poly coeff rest

/-- The coefficient of every polynomial in the joint one. -/
def rlcMap (gammaPowers : List F) (sumchecks : List (ReductionSumcheck F)) :
    List (CommittedPolynomial × F) :=
  (gammaPowers.zip sumchecks).foldl (fun map (gamma, s) =>
    (s.rlcCoeffs.zip s.polynomials).foldl
      (fun map (coeff, poly) => addCoefficient poly (coeff * gamma) map) map) []

/-- `∏ (1 - r_i)` over the rounds before an opening of `len` variables starts. -/
def lagrangeEval (r : List F) (numRounds len : Nat) : F :=
  ((r.take (numRounds - len)).map (1 - ·)).prod

def gammaPowers (gamma : F) (n : Nat) : List F := (List.range (max n 1)).map (gamma ^ ·)

/-- What the reduction leaves: its sumcheck, the openings it started from and the claims it ended
with. -/
structure ReductionRun (F G : Type) where
  proof : SumcheckInstanceProof F G
  batched : BatchedRun F
  openings : List (ReductionSumcheck F)
  sumcheckClaims : List F
  openingData : BlindfoldOpeningData F

def reduceAndVerify (pcs : CommitmentScheme F G T Com Prf Setup) (setup : Setup)
    (commitmentMap : List (CommittedPolynomial × Com)) (proof : ReducedOpeningProof F G Prf)
    (acc : VerifierOpeningAccumulator F) (t : T) :
    Except Failure (ReductionRun F G × VerifierOpeningAccumulator F × T) := do
  let total := (acc.sumchecks.map (·.numGammas)).sum
  let (allGammas, t) := Transcript.challengeVector F G total t
  let prepared ← orPanic (prepareAll acc.sumchecks allGammas)
  let numRounds ← orPanic (prepared.map (·.openingPoint.length)).max?
  let sumchecks := setClaims prepared proof.sumcheckClaims
  let (batched, _, t) ← BatchedSumcheck.verify proof.sumcheckProof (sumchecks.map (·.toInstance))
    none t
  let r := batched.challenges
  let t := Transcript.appendScalars G proof.sumcheckClaims t
  let (gamma, t) := Transcript.challengeScalar (F := F) G t
  let powers := gammaPowers gamma sumchecks.length
  let map := rlcMap powers sumchecks
  let commitments ← orPanic (map.mapM fun (poly, _) => commitmentMap.lookup poly)
  let jointCommitment := pcs.combineCommitments commitments (map.map (·.2))
  let constraintCoeffs := List.zipWith (fun coeff (s : ReductionSumcheck F) =>
    coeff * lagrangeEval r numRounds s.openingPoint.length) powers sumchecks
  let jointClaim := (List.zipWith (· * ·) constraintCoeffs proof.sumcheckClaims).sum
  let openingIds := (List.range proof.sumcheckClaims.length).map OpeningId.ReducedOpeningClaim
  let data : BlindfoldOpeningData F := ⟨openingIds, constraintCoeffs, jointClaim⟩
  let reduced := { acc with
    sumchecks
    openings :=
      (openingIds.zip proof.sumcheckClaims).reverse.map (fun (id, claim) => (id, r, claim)) ++
      acc.openings
    blindfoldOpeningData := some data }
  match pcs.verify proof.jointOpeningProof setup t r jointClaim jointCommitment with
  | .ok t =>
      return (⟨proof.sumcheckProof, batched, acc.sumchecks, proof.sumcheckClaims, data⟩, reduced, t)
  | .error e => .error (.proof e)

end ProviaVM.Verifier
