import ProviaVM.Blindfold.Protocol
import ProviaVM.Verifier.OpeningAccumulator

/-!
Sumcheck proofs as the verifier sees them. A clear proof carries the round polynomials and is
evaluated round by round; a zk proof carries commitments to them, of which only number and stated
degree are checked. `BatchedSumcheck::verify` compares the last evaluation with the claims of the
instances for clear proofs only.
-/
namespace ProviaVM.Verifier
open Blindfold Transcript

variable {F G T : Type} [Field F] [DecidableEq F] [Transcript T F G]

structure ZkSumcheckProof (G : Type) where
  roundCommitments : List G
  polyDegrees : List Nat
  outputClaimsCommitments : List G

/-- A clear proof is the list of its compressed round polynomials. -/
inductive SumcheckInstanceProof (F G : Type) where
  | clear (compressedPolys : List (List F))
  | zk (proof : ZkSumcheckProof G)

namespace SumcheckInstanceProof

def isZk : SumcheckInstanceProof F G → Bool
  | .clear _ => false
  | .zk _ => true

end SumcheckInstanceProof

variable (G) in
/-- The loop of `ClearSumcheckProof::verify`: last evaluation and challenges. -/
def clearRounds (degreeBound : Nat) : F → T → List (List F) → Except Failure (F × List F × T)
  | e, t, [] => .ok (e, [], t)
  | e, t, poly :: polys => do
    ensure (poly.length ≤ degreeBound) (.proof (.invalidInputLength degreeBound poly.length))
    let t := appendMessage F G "UniPoly_end" <|
      poly.foldl (fun t c => appendScalar G c t) (appendMessage F G "UniPoly_begin" t)
    let (r, t) := challengeScalarOptimized G t
    let e ← orPanic (Poly.evalFromHint e poly r)
    let (e, rs, t) ← clearRounds degreeBound e t polys
    return (e, r :: rs, t)

/-- The loop of `verify_transcript_only`. -/
def zkRounds : T → List G → List F × T
  | t, [] => ([], t)
  | t, com :: coms =>
    let t := appendPoint F com (appendMessage F G "sumcheck_commitment" t)
    let (r, t) := challengeScalarOptimized G t
    let (rs, t) := zkRounds t coms
    (r :: rs, t)

/-- `SumcheckInstanceProof::verify`. The output of a zk proof is the constant zero. -/
def SumcheckInstanceProof.verify (proof : SumcheckInstanceProof F G) (claim : F)
    (numRounds degreeBound : Nat) (t : T) :
    Except Failure (F × List F × T) :=
  match proof with
  | .clear polys => do
    ensure (polys.length = numRounds) .panicked
    clearRounds G degreeBound claim t polys
  | .zk p => do
    ensure (p.roundCommitments.length = numRounds)
      (.proof (.invalidInputLength numRounds p.roundCommitments.length))
    ensure (p.polyDegrees.length = numRounds)
      (.proof (.invalidInputLength numRounds p.polyDegrees.length))
    p.polyDegrees.forM fun degree =>
      ensure (degree ≤ degreeBound) (.proof (.invalidInputLength degreeBound degree))
    let (r, t) := zkRounds t p.roundCommitments
    return (0, r, t)

/-- A verifier-side instance; `none` is a panic. It opens a list of calls, computed from the
accumulator and the normalized challenges of its rounds. Its constraints speak of openings of the
stages only. -/
structure SumcheckInstance (F : Type) where
  degree : Nat
  numRounds : Nat
  inputClaim : Option F
  expectedOutputClaim : Option (VerifierOpeningAccumulator F) → List F → Option F
  normalizeOpeningPoint : List F → List F
  cacheOpenings : VerifierOpeningAccumulator F → List F → Option (List (Append F))
  inputClaimConstraint : InputClaimConstraint
  inputConstraintChallengeValues : VerifierOpeningAccumulator F → List F
  outputClaimConstraint : Option OutputClaimConstraint
  outputConstraintChallengeValues : List F → List F
  input_staged : ∀ id ∈ inputClaimConstraint.requiredOpenings, id.isReduced = false
  output_staged : ∀ c, outputClaimConstraint = some c → ∀ id ∈ c.requiredOpenings,
    id.isReduced = false

theorem default_staged :
    ∀ id ∈ OutputClaimConstraint.default.requiredOpenings, id.isReduced = false := nofun

theorem none_staged :
    ∀ c : OutputClaimConstraint, none = some c → ∀ id ∈ c.requiredOpenings, id.isReduced = false :=
  nofun

/-- `mul_pow_2`, which panics above 255. -/
def mulPow2 (x : F) (pow : Nat) : Option F := if 255 < pow then none else some (x * 2 ^ pow)

/-- What `BatchedSumcheck::verify` returns, with the two values it compares. -/
structure BatchedRun (F : Type) where
  batchingCoeffs : List F
  challenges : List F
  outputClaimIds : List OpeningId
  outputClaim : F
  expectedOutputClaim : F

variable (G) in
/-- The input claims scaled to the longest instance; a clear proof also appends them to the
transcript. -/
def batchedClaim (isZk : Bool) (maxNumRounds : Nat) :
    List (SumcheckInstance F × F) → T → Except Failure (F × T)
  | [], t => .ok (0, t)
  | (s, coeff) :: rest, t => do
    let claim ← orPanic s.inputClaim
    let t := if isZk then t else appendScalar G claim t
    let scaled ← orPanic (mulPow2 claim (maxNumRounds - s.numRounds))
    let (sum, t) ← batchedClaim isZk maxNumRounds rest t
    return (scaled * coeff + sum, t)

variable (G) in
/-- Each instance opens its polynomials at its part of the challenges and states its output
claim. -/
def batchedOutput (maxNumRounds : Nat) (r : List F) :
    List (SumcheckInstance F × F) → Option (VerifierOpeningAccumulator F) → T →
      Except Failure (F × Option (VerifierOpeningAccumulator F) × T)
  | [], acc, t => .ok (0, acc, t)
  | (s, coeff) :: rest, acc, t => do
    let rSlice := r.drop (maxNumRounds - s.numRounds)
    let (acc, t) ← match acc with
      | none => pure (none, t)
      | some acc => do
        let ops ← orPanic (s.cacheOpenings acc (s.normalizeOpeningPoint rSlice))
        let (acc, t) ← acc.appendAll G t ops
        pure (some acc, t)
    let claim ← orPanic (s.expectedOutputClaim acc rSlice)
    let (sum, acc, t) ← batchedOutput maxNumRounds r rest acc t
    return (claim * coeff + sum, acc, t)

/-- The claims opened by the stage are bound: a zk proof by its commitments, a clear one by the
transcript. -/
def bindOpenings (proof : SumcheckInstanceProof F G) (acc : VerifierOpeningAccumulator F) (t : T) :
    VerifierOpeningAccumulator F × T :=
  match proof with
  | .zk p =>
    ({ acc with pendingClaims := [], zkMode := false },
      appendPoints F p.outputClaimsCommitments (appendMessage F G "output_claims_coms" t))
  | .clear _ => acc.flushToTranscript G t

def BatchedSumcheck.verify (proof : SumcheckInstanceProof F G)
    (instances : List (SumcheckInstance F)) (acc : Option (VerifierOpeningAccumulator F)) (t : T) :
    Except Failure (BatchedRun F × Option (VerifierOpeningAccumulator F) × T) := do
  let maxDegree ← orPanic (instances.map (·.degree)).max?
  let maxNumRounds ← orPanic (instances.map (·.numRounds)).max?
  let (batchingCoeffs, t) := challengeVector F G instances.length t
  let batched := instances.zip batchingCoeffs
  let (claim, t) ← batchedClaim G proof.isZk maxNumRounds batched t
  let (outputClaim, challenges, t) ← proof.verify claim maxNumRounds maxDegree t
  let acc := acc.map fun acc => if proof.isZk then { acc with zkMode := true } else acc
  let (expectedOutputClaim, acc, t) ← batchedOutput G maxNumRounds challenges batched acc t
  ensure (proof.isZk = true ∨ outputClaim = expectedOutputClaim) (.proof .sumcheckVerificationError)
  match acc with
  | none => return (⟨batchingCoeffs, challenges, [], outputClaim, expectedOutputClaim⟩, none, t)
  | some acc =>
    let (acc, t) := bindOpenings proof acc t
    return (⟨batchingCoeffs, challenges, acc.pendingClaimIds, outputClaim, expectedOutputClaim⟩,
      some { acc with pendingClaimIds := [] }, t)

end ProviaVM.Verifier
