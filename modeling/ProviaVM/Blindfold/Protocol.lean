import ProviaVM.Blindfold.R1cs
import ProviaVM.Poly.EqPolynomial
import ProviaVM.Poly.UniPoly
import ProviaVM.Verifier.Transcript

/-!
`BlindFoldVerifier::verify`: the real instance is folded with the random one of the proof, a Spartan
sumcheck and an inner sumcheck reduce the satisfaction of the folded relaxed R1CS to one evaluation
of the error grid and one of the witness grid, and both grids are opened from their row commitments.
-/
namespace ProviaVM.Blindfold
open Verifier RankOne Poly Transcript

variable {F G T : Type} [Field F] [DecidableEq F] [AddCommGroup G] [Module F G] [DecidableEq G]

/-- `EqPolynomial::mle`, which asserts equal lengths. -/
def eqMle (x y : List F) : Option F :=
  if x.length = y.length then some (List.zipWith (fun a b => a * b + (1 - a) * (1 - b)) x y).prod
  else none

/-! ## Commitments -/

structure PedersenGenerators (G : Type) where
  messageGenerators : List G
  blindingGenerator : G

/-- `commit` asserts that there are enough generators. -/
def PedersenGenerators.commit (gens : PedersenGenerators G) (coeffs : List F) (blinding : F) :
    Option G :=
  if coeffs.length ≤ gens.messageGenerators.length then
    some ((List.zipWith (· • ·) coeffs gens.messageGenerators).sum +
      blinding • gens.blindingGenerator)
  else none

structure HyraxOpeningProof (F : Type) where
  combinedRow : List F
  combinedBlinding : F

/-! ## Instances -/

structure RelaxedR1CSInstance (F G : Type) where
  u : F
  roundCommitments : List G
  outputClaimsRowCommitments : List G
  noncoeffRowCommitments : List G
  eRowCommitments : List G
  evalCommitments : List G

namespace RelaxedR1CSInstance

def foldRow (r : F) (c₁ c₂ : G) : G := c₁ + r • c₂

/-- `fold`; components of different length are malformed. -/
def fold (x y : RelaxedR1CSInstance F G) (tRows : List G) (r : F) :
    Except Failure (RelaxedR1CSInstance F G) := do
  ensure (x.roundCommitments.length = y.roundCommitments.length ∧
    x.outputClaimsRowCommitments.length = y.outputClaimsRowCommitments.length ∧
    x.noncoeffRowCommitments.length = y.noncoeffRowCommitments.length ∧
    x.evalCommitments.length = y.evalCommitments.length ∧
    x.eRowCommitments.length = y.eRowCommitments.length ∧
    x.eRowCommitments.length = tRows.length) (.blindfold .malformedProof)
  return {
    u := x.u + r * y.u
    roundCommitments := List.zipWith (foldRow r) x.roundCommitments y.roundCommitments
    outputClaimsRowCommitments :=
      List.zipWith (foldRow r) x.outputClaimsRowCommitments y.outputClaimsRowCommitments
    noncoeffRowCommitments :=
      List.zipWith (foldRow r) x.noncoeffRowCommitments y.noncoeffRowCommitments
    eRowCommitments :=
      List.zipWith (fun et e₂ => et + (r * r) • e₂)
        (List.zipWith (foldRow r) x.eRowCommitments tRows) y.eRowCommitments
    evalCommitments := List.zipWith (foldRow r) x.evalCommitments y.evalCommitments }

/-- `all_w_row_commitments`: coefficient rows, output-claim rows, the other rows, each region padded
with zeros. -/
def allWRowCommitments (x : RelaxedR1CSInstance F G) (Rcoeff Rprime : Nat) :
    Except Failure (List G) := do
  ensure (x.roundCommitments.length ≤ Rcoeff ∧
    Rcoeff + x.outputClaimsRowCommitments.length + x.noncoeffRowCommitments.length ≤ Rprime)
    (.blindfold .malformedProof)
  return (x.roundCommitments.rightpad Rcoeff 0 ++ x.outputClaimsRowCommitments ++
    x.noncoeffRowCommitments).rightpad
    Rprime 0

end RelaxedR1CSInstance

structure BlindFoldProof (F G : Type) where
  randomInstance : RelaxedR1CSInstance F G
  noncoeffRowCommitments : List G
  crossTermRowCommitments : List G
  spartanProof : List (List F)
  azR : F
  bzR : F
  czR : F
  innerSumcheckProof : List (List F)
  wOpening : HyraxOpeningProof F
  eOpening : HyraxOpeningProof F
  foldedEvalOutputs : List F
  foldedEvalBlindings : List F

structure BlindFoldVerifierInput (G : Type) where
  roundCommitments : List G
  outputClaimsRowCommitments : List G
  evalCommitments : List G

/-! ## Matrices -/

/-- `project_columns` at one column: the column `col` of the matrix, weighted by `eqRow`. -/
def projectColumn (m : SparseR1CSMatrix F) (eqRow : List F) (col : Nat) : F :=
  (m.map fun e => if e.2.1 = col then e.2.2 * eqRow.getD e.1 0 else 0).sum

/-- `bilinear_eval` over the witness columns, which start at column 1. -/
def bilinearEval (m : SparseR1CSMatrix F) (eqRow eqCol : List F) : F :=
  (m.map fun e =>
    if 1 ≤ e.2.1 ∧ e.2.1 < 1 + eqCol.length then e.2.2 * eqRow.getD e.1 0 * eqCol.getD (e.2.1 - 1) 0
    else 0).sum

def computeLwAtRy (r1cs : VerifierR1CS F) (rx ry : List F) (ra rb rc : F) : F :=
  let value (m : SparseR1CSMatrix F) := bilinearEval m (eqEvals rx) (eqEvals ry)
  ra * value r1cs.a + rb * value r1cs.b + rc * value r1cs.c

/-! ## Verification -/

/-- The rounds of a sumcheck. Each message has exactly `bound` coefficients; the check of the sum
repeats what `decompress` has arranged. -/
def sumcheckRounds [Transcript T F G] (label : String) (bound : Nat)
    (failed : Nat → BlindFoldVerifyError) :
    Nat → F → T → List (List F) → Except Failure (F × List F × T)
  | _, claim, t, [] => .ok (claim, [], t)
  | round, claim, t, msg :: msgs => do
    ensure (msg.length = bound) (.blindfold (.degreeBoundExceeded bound msg.length))
    let t := appendScalars G msg (appendMessage F G label t)
    let poly ← orPanic (Poly.decompress claim msg)
    ensure (poly.getD 0 0 + poly.sum = claim) (.blindfold (failed round))
    let (r, t) := challengeScalarOptimized G t
    let (claim, rs, t) ← sumcheckRounds label bound failed (round + 1) (Poly.evaluate poly r) t msgs
    return (claim, r :: rs, t)

variable (F) in
def appendCommitments [Transcript T F G] (label : String) (commitments : List G) (t : T) : T :=
  appendPoints F commitments (appendMessage F G label t)

def appendInstance [Transcript T F G] (x : RelaxedR1CSInstance F G) (t : T) : T :=
  appendCommitments F "blindfold_eval_coms" x.evalCommitments <|
    appendCommitments F "blindfold_e_rows" x.eRowCommitments <|
    appendCommitments F "blindfold_noncoeff" x.noncoeffRowCommitments <|
    appendCommitments F "blindfold_oc_rows" x.outputClaimsRowCommitments <|
    appendCommitments F "blindfold_round_coms" x.roundCommitments <|
    appendSerializedScalar G x.u <| appendMessage F G "blindfold_u" t

/-- The folded evaluation commitments open to the outputs the proof states. -/
def checkEvalCommitments (gens : Option (G × G)) (folded : RelaxedR1CSInstance F G)
    (proof : BlindFoldProof F G) :
    Except Failure Unit :=
  match gens with
  | none => .ok ()
  | some (g, h) => do
    ensure (proof.foldedEvalOutputs.length = folded.evalCommitments.length ∧
      proof.foldedEvalBlindings.length = folded.evalCommitments.length) (.blindfold .malformedProof)
    ensure (folded.evalCommitments =
        List.zipWith (fun y b => y • g + b • h) proof.foldedEvalOutputs proof.foldedEvalBlindings)
      (.blindfold .evalCommitmentMismatch)

/-- The sum of the row commitments with the weights of `rows`. -/
def combineRows (weights : List F) (rows : List G) : G := (List.zipWith (· • ·) weights rows).sum

/-- The instance the verifier rebuilds from the stage proofs. -/
def realInstance (r1cs : VerifierR1CS F) (proof : BlindFoldProof F G)
    (input : BlindFoldVerifierInput G) :
    RelaxedR1CSInstance F G where
  u := 1
  roundCommitments := input.roundCommitments
  outputClaimsRowCommitments := input.outputClaimsRowCommitments
  noncoeffRowCommitments := proof.noncoeffRowCommitments
  eRowCommitments := List.replicate (r1cs.hyrax.eGrid r1cs.numConstraints).1 0
  evalCommitments := input.evalCommitments

def BlindFoldVerifier.verify [Transcript T F G] (gens : PedersenGenerators G)
    (r1cs : VerifierR1CS F) (evalCommitmentGens : Option (G × G)) (proof : BlindFoldProof F G)
    (input : BlindFoldVerifierInput G) (t : T) :
    Except Failure Unit := do
  let hyrax := r1cs.hyrax
  let (RE, _) := hyrax.eGrid r1cs.numConstraints
  ensure (proof.noncoeffRowCommitments.length = hyrax.regularNoncoeffRows ∧
    proof.randomInstance.noncoeffRowCommitments.length = hyrax.regularNoncoeffRows)
      (.blindfold .malformedProof)
  ensure (input.outputClaimsRowCommitments.length = hyrax.outputClaimsRows ∧
    proof.randomInstance.outputClaimsRowCommitments.length = hyrax.outputClaimsRows)
      (.blindfold .malformedProof)
  ensure (proof.randomInstance.eRowCommitments.length = RE) (.blindfold .malformedProof)
  let real := realInstance r1cs proof input
  let t := appendInstance real (appendMessage F G "BlindFold_real_instance" t)
  let t := appendInstance proof.randomInstance (appendMessage F G "BlindFold_random_instance" t)
  let t := appendCommitments F "blindfold_cross_term" proof.crossTermRowCommitments t
  let (r, t) := challengeScalarOptimized (F := F) G t
  let folded ← real.fold proof.randomInstance proof.crossTermRowCommitments r
  checkEvalCommitments evalCommitmentGens folded proof
  let t := appendMessage F G "BlindFold_spartan" t
  let numVars := (nextPowerOfTwo r1cs.numConstraints).log2
  ensure (proof.spartanProof.length = numVars)
    (.blindfold (.wrongSpartanProofLength numVars proof.spartanProof.length))
  let (tau, t) := challengeVectorOptimized F G numVars t
  let (claim, rx, t) ← sumcheckRounds (G := G) "sumcheck_poly" 3 .spartanSumcheckFailed
    0 0 t proof.spartanProof
  let t := appendScalars G [proof.azR, proof.bzR, proof.czR]
    (appendMessage F G "blindfold_az_bz_cz" t)
  let (ra, t) := challengeScalarOptimized (F := F) G t
  let (rb, t) := challengeScalarOptimized (F := F) G t
  let (rc, t) := challengeScalarOptimized (F := F) G t
  -- `public_contributions`: only the column of `u` is public
  let column (m : SparseR1CSMatrix F) := projectColumn m (eqEvals rx) 0 * folded.u
  let innerClaim := ra * (proof.azR - column r1cs.a) + rb * (proof.bzR - column r1cs.b) +
    rc * (proof.czR - column r1cs.c)
  let innerNumVars := (hyrax.Rprime * hyrax.C).log2
  ensure (proof.innerSumcheckProof.length = innerNumVars)
    (.blindfold (.wrongInnerSumcheckLength innerNumVars proof.innerSumcheckProof.length))
  let (innerFinal, ry, _) ←
    sumcheckRounds (G := G) "inner_sumcheck_poly" 2 .innerSumcheckFailed 0 innerClaim
      t proof.innerSumcheckProof
  let expectedE ← orPanic (gens.commit proof.eOpening.combinedRow proof.eOpening.combinedBlinding)
  ensure (combineRows (eqEvals (rx.take RE.log2)) folded.eRowCommitments = expectedE)
    (.blindfold .eOpeningFailed)
  let eR := dot proof.eOpening.combinedRow (eqEvals (rx.drop RE.log2))
  -- `expected_claim`
  let eqTau ← orPanic (eqMle tau rx)
  ensure (claim = eqTau * (proof.azR * proof.bzR - folded.u * proof.czR - eR))
    (.blindfold .outerClaimMismatch)
  let allRows ← folded.allWRowCommitments hyrax.Rcoeff hyrax.Rprime
  let expectedW ← orPanic (gens.commit proof.wOpening.combinedRow proof.wOpening.combinedBlinding)
  ensure (combineRows (eqEvals (ry.take hyrax.Rprime.log2)) allRows = expectedW)
    (.blindfold .wOpeningFailed)
  let wRy := dot proof.wOpening.combinedRow (eqEvals (ry.drop hyrax.Rprime.log2))
  ensure (innerFinal = computeLwAtRy r1cs rx ry ra rb rc * wRy) (.blindfold .finalClaimMismatch)

end ProviaVM.Blindfold
