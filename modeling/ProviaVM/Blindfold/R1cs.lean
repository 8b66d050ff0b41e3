import ProviaVM.Blindfold.OutputConstraint
import ProviaVM.Lib.RankOne

/-!
The verifier R1CS of BlindFold: `compute_witness_layout` and `VerifierR1CSBuilder::build`. A
variable is its index in the witness vector, variable 0 is the scalar `u`. `none` is an index out of
bounds or a failed assertion.
-/
namespace ProviaVM.Blindfold
open Verifier RankOne

def nextPowerOfTwo (n : Nat) : Nat := if n ≤ 1 then 1 else 2 ^ ((n - 1).log2 + 1)

theorem nextPowerOfTwo_eq (n : Nat) : ∃ k, nextPowerOfTwo n = 2 ^ k := by
  unfold nextPowerOfTwo
  split
  · exact ⟨0, rfl⟩
  · exact ⟨_, rfl⟩

theorem le_nextPowerOfTwo (n : Nat) : n ≤ nextPowerOfTwo n := by
  unfold nextPowerOfTwo
  split
  · assumption
  · have : n - 1 < 2 ^ ((n - 1).log2 + 1) := Nat.lt_log2_self
    omega

theorem nextPowerOfTwo_pos (n : Nat) : 0 < nextPowerOfTwo n := by
  obtain ⟨k, eq⟩ := nextPowerOfTwo_eq n
  rw [eq]
  exact Nat.two_pow_pos k

def divCeil (n d : Nat) : Nat := (n + d - 1) / d

theorem le_divCeil_mul {n d : Nat} (pos : 0 < d) : n ≤ divCeil n d * d := by
  have := Nat.div_add_mod (n + d - 1) d
  have := Nat.mod_lt (n + d - 1) pos
  rw [divCeil, Nat.mul_comm]
  omega

/-! ## Stages -/

structure ClaimBindingConfig where
  numEvaluations : Nat
  constraint : Option OutputClaimConstraint
  exactNumWitnessVars : Option Nat

def ClaimBindingConfig.withConstraint (c : OutputClaimConstraint) : ClaimBindingConfig :=
  ⟨c.requiredOpenings.length, some c, none⟩

structure StageConfig where
  numRounds : Nat
  polyDegree : Nat
  startsNewChain : Bool
  uniskipPowerSums : Option (List Int)
  finalOutput : Option ClaimBindingConfig
  initialInput : Option ClaimBindingConfig

namespace StageConfig

def new (numRounds polyDegree : Nat) : StageConfig :=
  ⟨numRounds, polyDegree, false, none, none, none⟩

def newChain (numRounds polyDegree : Nat) : StageConfig :=
  ⟨numRounds, polyDegree, true, none, none, none⟩

def withConstraint (s : StageConfig) (c : OutputClaimConstraint) : StageConfig :=
  { s with finalOutput := some (.withConstraint c) }

def withInputConstraint (s : StageConfig) (c : InputClaimConstraint) : StageConfig :=
  { s with initialInput := some (.withConstraint c) }

/-- The claim that starts the chain is a variable exactly when an input constraint is given for
it. -/
def hasInitialClaimVar (s : StageConfig) : Bool := (s.initialInput.bind (·.constraint)).isSome

end StageConfig

structure BakedPublicInputs (F : Type) where
  challenges : List F
  initialClaims : List F
  batchingCoefficients : List F
  outputConstraintChallenges : List F
  inputConstraintChallenges : List F
  extraConstraintChallenges : List F

/-! ## Layout -/

inductive ConstraintKind where
  | initialInput
  | finalOutput

/-- The counts of the source's steps serve the prover's witness and are left out. -/
inductive LayoutStep where
  | initialClaimVar (chainIdx : Nat)
  | constantInitialClaim (chainIdx : Nat)
  | constraintVars (constraint : OutputClaimConstraint) (kind : ConstraintKind)
  | coeffRow (roundIdx numCoeffs : Nat)
  | nextClaim (uniskipPowerSums : Option (List Int))
  | linearFinalOutput (numEvaluations : Nat)
  | placeholderVars (numVars : Nat)
  | extraConstraintVars (constraint : OutputClaimConstraint)

def StageConfig.opening (s : StageConfig) (chainStart : Bool) (chainIdx : Nat) : List LayoutStep :=
  (if chainStart then
    [if s.hasInitialClaimVar then .initialClaimVar chainIdx else .constantInitialClaim chainIdx]
  else []) ++
  match s.initialInput.bind (·.constraint) with
  | some c => [.constraintVars c .initialInput]
  | none => []

/-- Steps of its rounds, the first of which is round `roundIdx` of the proof. -/
def StageConfig.rounds (s : StageConfig) (roundIdx : Nat) : List LayoutStep :=
  (List.range s.numRounds).flatMap fun j =>
    [.coeffRow (roundIdx + j) (s.polyDegree + 1), .nextClaim s.uniskipPowerSums]

def StageConfig.closing (s : StageConfig) : List LayoutStep :=
  match s.finalOutput with
  | none => []
  | some out =>
    match out.exactNumWitnessVars, out.constraint with
    | some exact, _ => [.placeholderVars exact]
    | none, some c => [.constraintVars c .finalOutput]
    | none, none => [.linearFinalOutput out.numEvaluations]

/-- The loop of `compute_witness_layout` over the remaining stages; `first` holds for the first
stage of all. -/
def stageSteps : Bool → Nat → Nat → List StageConfig → List LayoutStep
  | _, _, _, [] => []
  | first, roundIdx, chainIdx, s :: rest =>
    let chainIdx := if !first && s.startsNewChain then chainIdx + 1 else chainIdx
    s.opening (first || s.startsNewChain) chainIdx ++ s.rounds roundIdx ++ s.closing ++
      stageSteps false (roundIdx + s.numRounds) chainIdx rest

def computeWitnessLayout (stages : List StageConfig) (extra : List OutputClaimConstraint) :
    List LayoutStep :=
  stageSteps true 0 0 stages ++ extra.map .extraConstraintVars

/-! ## Builder -/

variable {F : Type} [Field F]

inductive ResolvedValue (F : Type) where
  | constant (v : F)
  | var (lc : LinearCombination F)

def ResolvedValue.intoLc : ResolvedValue F → LinearCombination F
  | .constant v => .constant v
  | .var lc => lc

/-- `resolve` of the R1CS visitor. -/
def resolve (openingVars : List (OpeningId × Nat)) (challenges : List F) :
    ValueSource → Option (ResolvedValue F)
  | .opening id => (openingVars.lookup id).map fun v => .var (.ofVariable v)
  | .challenge idx => challenges[idx]?.map .constant
  | .constant val => some (.constant val)

/-- The two sides of the product that defines the only auxiliary variable of a term with one
factor. -/
def singleFactor : ResolvedValue F → ResolvedValue F → LinearCombination F × LinearCombination F
  | .constant cv, .constant fv => (.constant (cv * fv), .constant 1)
  | coeff, factor => (coeff.intoLc, factor.intoLc)

/-- The products the visitor emits for one term, the first of which defines variable `next`; the
last one is the value of the term. -/
def visitTerm (resolve : ValueSource → Option (ResolvedValue F)) (next : Nat) (t : ProductTerm) :
    Option (Program F) := do
  let coeff ← resolve t.coeff
  match ← t.factors.mapM resolve with
  | [] => return [(coeff.intoLc, .constant 1)]
  | [factor] => return [singleFactor coeff factor]
  | f₀ :: f₁ :: rest =>
    -- `on_chain_step` multiplies the product so far, `on_chain_finalize` multiplies by the
    -- coefficient
    return (f₀.intoLc, f₁.intoLc) ::
      rest.zipIdx.map (fun (f, i) => (.ofVariable (next + i), f.intoLc)) ++
      [(coeff.intoLc, .ofVariable (next + rest.length))]

/-- All terms, with the variable that holds the value of each. -/
def visit (resolve : ValueSource → Option (ResolvedValue F)) :
    Nat → List ProductTerm → Option (Program F × List Nat)
  | _, [] => some ([], [])
  | next, t :: ts => do
    let p ← visitTerm resolve next t
    let (q, results) ← visit resolve (next + p.length) ts
    return (p ++ q, (next + p.length - 1) :: results)

structure Builder (F : Type) where
  constraints : List (Constraint F)
  nextVar : Nat
  openingVars : List (OpeningId × Nat)
  currentClaim : LinearCombination F
  pendingCoeffs : Option (List Nat)
  challengeIdx : Nat
  batchingCoeffIdx : Nat
  outputChallengeIdx : Nat
  inputChallengeIdx : Nat
  extraChallengeIdx : Nat
  extraOutputVars : List Nat
  extraBlindingVars : List Nat

def slice (values : List F) (start n : Nat) : Option (List F) :=
  if start + n ≤ values.length then some ((values.drop start).take n) else none

namespace Builder

/-- Gives a fresh variable to each opening that has none yet. -/
def allocOpenings (b : Builder F) : List OpeningId → Builder F
  | [] => b
  | id :: ids =>
    match b.openingVars.lookup id with
    | some _ => b.allocOpenings ids
    | none =>
      { b with nextVar := b.nextVar + 1,
               openingVars := b.openingVars ++ [(id, b.nextVar)] }.allocOpenings ids

/-- `add_sum_of_products_constraint_baked`. The sum of one result is the result itself. -/
def addSumOfProducts (b : Builder F) (finalClaim : LinearCombination F) (c : OutputClaimConstraint)
    (challenges : List F) : Option (Builder F) :=
  if c.terms.isEmpty then some b
  else do
    let (p, results) ← visit (resolve b.openingVars challenges) b.nextVar c.terms
    return { b with
      nextVar := b.nextVar + p.length
      constraints := b.constraints ++ p.rows b.nextVar ++
        [⟨.constant 1, results.map fun v => (v, 1), finalClaim⟩] }

/-- The sum over the round domain: `2*c0 + c1 + ... + cd`, or the given power sums. -/
def roundSum (coeffs : List Nat) : Option (List Int) → Option (LinearCombination F)
  | none =>
    match coeffs with
    | [] => none
    | c₀ :: rest => some ((c₀, 2) :: rest.map fun c => (c, 1))
  | some powerSums =>
    if coeffs.length ≤ powerSums.length then
      some (((coeffs.zip powerSums).filter fun t => t.2 ≠ 0).map fun t => (t.1, (t.2 : F)))
    else none

/-- `add_round_constraints`: the sum check and the evaluation at the challenge. A constant
polynomial, which the source treats apart, has the one power `challenge ^ 0`. -/
def addRoundConstraints (b : Builder F) (coeffs : List Nat) (nextClaim : Nat)
    (claimedSum : LinearCombination F) (challenge : F) (powerSums : Option (List Int)) :
    Option (Builder F) := do
  let sum ← roundSum coeffs powerSums
  let evaluation := coeffs.zipIdx.map fun (c, k) => (c, challenge ^ k)
  return { b with
    constraints := b.constraints ++
      [⟨sum, .constant 1, claimedSum⟩, ⟨evaluation, .constant 1, .ofVariable nextClaim⟩] }

def addFinalOutput (b : Builder F) (finalClaim : LinearCombination F) (coeffs : List F)
    (evaluations : List Nat) :
    Builder F :=
  if coeffs.isEmpty then b
  else { b with constraints := b.constraints ++
                [⟨evaluations.zip coeffs, .constant 1, finalClaim⟩] }

/-- One step of `build`; row `roundIdx` of the coefficient region starts at `1 + roundIdx *
hyraxC`. -/
def step (baked : BakedPublicInputs F) (hyraxC : Nat) (b : Builder F) :
    LayoutStep → Option (Builder F)
  | .constantInitialClaim chainIdx => do
    let claim ← baked.initialClaims[chainIdx]?
    return { b with currentClaim := .constant claim }
  | .initialClaimVar _ =>
    some { b with nextVar := b.nextVar + 1, currentClaim := .ofVariable b.nextVar }
  | .constraintVars c .initialInput => do
    let b := b.allocOpenings c.requiredOpenings
    let challenges ← slice baked.inputConstraintChallenges b.inputChallengeIdx c.numChallenges
    { b with inputChallengeIdx := b.inputChallengeIdx + c.numChallenges }.addSumOfProducts
      b.currentClaim c challenges
  | .constraintVars c .finalOutput => do
    let b := b.allocOpenings c.requiredOpenings
    let challenges ← slice baked.outputConstraintChallenges b.outputChallengeIdx c.numChallenges
    { b with outputChallengeIdx := b.outputChallengeIdx + c.numChallenges }.addSumOfProducts
      b.currentClaim c challenges
  | .coeffRow roundIdx numCoeffs =>
    some { b with pendingCoeffs :=
                  some ((List.range numCoeffs).map fun k => 1 + roundIdx * hyraxC + k) }
  | .nextClaim powerSums => do
    let coeffs ← b.pendingCoeffs
    let challenge ← baked.challenges[b.challengeIdx]?
    { b with
      nextVar := b.nextVar + 1
      pendingCoeffs := none
      challengeIdx := b.challengeIdx + 1
      currentClaim :=
        .ofVariable b.nextVar }.addRoundConstraints coeffs b.nextVar b.currentClaim challenge
        powerSums
  | .linearFinalOutput numEvaluations => do
    let coeffs ← slice baked.batchingCoefficients b.batchingCoeffIdx numEvaluations
    return { b with
      nextVar := b.nextVar + numEvaluations
      batchingCoeffIdx := b.batchingCoeffIdx + numEvaluations }.addFinalOutput b.currentClaim coeffs
        ((List.range numEvaluations).map (b.nextVar + ·))
  | .placeholderVars numVars => some { b with nextVar := b.nextVar + numVars }
  | .extraConstraintVars c => do
    let b := b.allocOpenings c.requiredOpenings
    let outputVar := b.nextVar
    let challenges ← slice baked.extraConstraintChallenges b.extraChallengeIdx c.numChallenges
    let b ← { b with
      nextVar := b.nextVar + 1
      extraChallengeIdx :=
        b.extraChallengeIdx + c.numChallenges }.addSumOfProducts (.ofVariable outputVar)
        c challenges
    return { b with
      nextVar := b.nextVar + 1
      extraOutputVars := b.extraOutputVars ++ [outputVar]
      extraBlindingVars := b.extraBlindingVars ++ [b.nextVar] }

end Builder

/-! ## Output-claim rows -/

/-- Variables of the openings of one block, from position `start` on; an opening that has a variable
already keeps it. -/
def placeBlock : Nat → List OpeningId → List (OpeningId × Nat) → List (OpeningId × Nat)
  | _, [], vars => vars
  | start, id :: ids, vars =>
    placeBlock (start + 1) ids (if (vars.lookup id).isNone then vars ++ [(id, start)] else vars)

/-- Each block takes complete rows. The last component is the end of the region. -/
def placeBlocks (hyraxC : Nat) :
    Nat → List (List OpeningId) → List (OpeningId × Nat) → List (OpeningId × Nat) × Nat
  | start, [], vars => (vars, start)
  | start, block :: blocks, vars =>
    placeBlocks hyraxC (start + divCeil block.length (max hyraxC 1) * hyraxC) blocks
      (placeBlock start block vars)

structure HyraxParams where
  C : Nat
  Rcoeff : Nat
  Rprime : Nat
  noncoeffCount : Nat
  totalRounds : Nat
  outputClaimsRows : Nat

namespace HyraxParams

def eGrid (h : HyraxParams) (numConstraints : Nat) : Nat × Nat :=
  let padded := nextPowerOfTwo numConstraints
  let columns := min h.C padded
  (padded / columns, columns)

def regularNoncoeffRows (h : HyraxParams) : Nat := divCeil h.noncoeffCount h.C

end HyraxParams

def totalRounds (stages : List StageConfig) : Nat := (stages.map (·.numRounds)).sum

/-- Column count of the grid: room for the coefficients of every round polynomial. -/
def hyraxColumns (stages : List StageConfig) : Nat :=
  nextPowerOfTwo ((stages.map (·.polyDegree + 1)).max?.getD 1)

def coeffRows (stages : List StageConfig) : Nat :=
  if totalRounds stages = 0 then 1 else nextPowerOfTwo (totalRounds stages)

def computeHyraxParams (stages : List StageConfig) (noncoeffCount outputClaimsRows : Nat) :
    HyraxParams :=
  let C := hyraxColumns stages
  { C
    Rcoeff := coeffRows stages
    Rprime := nextPowerOfTwo (coeffRows stages + outputClaimsRows + divCeil noncoeffCount C)
    noncoeffCount
    totalRounds := totalRounds stages
    outputClaimsRows }

/-- Nonzero entries as (row, column, value). -/
abbrev SparseR1CSMatrix (F : Type) := List (Nat × Nat × F)

structure VerifierR1CS (F : Type) where
  constraints : List (Constraint F)
  numVars : Nat
  extraOutputVars : List Nat
  extraBlindingVars : List Nat
  hyrax : HyraxParams
  openingVars : List (OpeningId × Nat)

namespace VerifierR1CS

def numConstraints (r : VerifierR1CS F) : Nat := r.constraints.length

variable [DecidableEq F]

/-- The matrix whose row `i` is the given side of constraint `i`. -/
def matrix (side : Constraint F → LinearCombination F) (r : VerifierR1CS F) : SparseR1CSMatrix F :=
  r.constraints.zipIdx.flatMap fun (c, row) => ((side c).filter fun t => t.2 ≠ 0).map fun t =>
    (row, t.1, t.2)

def a (r : VerifierR1CS F) : SparseR1CSMatrix F := r.matrix (·.a)

def b (r : VerifierR1CS F) : SparseR1CSMatrix F := r.matrix (·.b)

def c (r : VerifierR1CS F) : SparseR1CSMatrix F := r.matrix (·.c)

end VerifierR1CS

/-- Start of the output-claim region, after the coefficient rows. -/
def ocStart (stages : List StageConfig) : Nat := 1 + coeffRows stages * hyraxColumns stages

/-- The builder before the first step: the openings of the blocks are placed. -/
def Builder.start (stages : List StageConfig) (ocBlocks : List (List OpeningId)) : Builder F :=
  let (openingVars, ocEnd) := placeBlocks (hyraxColumns stages) (ocStart stages) ocBlocks []
  { constraints := [], nextVar := ocEnd, openingVars, currentClaim := [], pendingCoeffs := none,
    challengeIdx := 0,
    batchingCoeffIdx := 0, outputChallengeIdx := 0, inputChallengeIdx := 0, extraChallengeIdx := 0,
    extraOutputVars := [], extraBlindingVars := [] }

/-- `VerifierR1CSBuilder::new_with_extra(...).build()`. -/
def build (stages : List StageConfig) (extra : List OutputClaimConstraint)
    (baked : BakedPublicInputs F) (ocBlocks : List (List OpeningId)) : Option (VerifierR1CS F) := do
  let start := Builder.start stages ocBlocks
  let b ← (computeWitnessLayout stages extra).foldlM (Builder.step baked (hyraxColumns stages))
    start
  let hyrax := computeHyraxParams stages (b.nextVar - start.nextVar)
    ((start.nextVar - ocStart stages) / max (hyraxColumns stages) 1)
  return {
    constraints := b.constraints
    numVars := 1 + hyrax.Rprime * hyrax.C
    extraOutputVars := b.extraOutputVars
    extraBlindingVars := b.extraBlindingVars
    hyrax
    openingVars := b.openingVars }

end ProviaVM.Blindfold
