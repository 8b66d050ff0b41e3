import Mathlib.Algebra.BigOperators.Group.List.Basic
import Mathlib.Algebra.Field.Basic
import ProviaVM.Verifier.OpeningId

/-!
Claims of a sumcheck as sums of products of openings, challenges and constants:
`OutputClaimConstraint`, the constructors the instances use, and the batching of the constraints of
one stage.
-/
namespace ProviaVM.Blindfold
open Verifier

inductive ValueSource where
  | opening (id : OpeningId)
  | challenge (idx : Nat)
  | constant (val : Int)
  deriving DecidableEq

/-- `coeff * factors[0] * factors[1] * ...`. -/
structure ProductTerm where
  coeff : ValueSource
  factors : List ValueSource

namespace ProductTerm

def product (factors : List ValueSource) : ProductTerm := ⟨.constant 1, factors⟩

def scaled (coeff : ValueSource) (factors : List ValueSource) : ProductTerm := ⟨coeff, factors⟩

def sources (t : ProductTerm) : List ValueSource := t.coeff :: t.factors

end ProductTerm

structure OutputClaimConstraint where
  terms : List ProductTerm
  requiredOpenings : List OpeningId
  numChallenges : Nat

abbrev InputClaimConstraint := OutputClaimConstraint

namespace OutputClaimConstraint

def default : OutputClaimConstraint := ⟨[], [], 0⟩

def sources (terms : List ProductTerm) : List ValueSource := terms.flatMap ProductTerm.sources

/-- One more than the largest challenge index, or zero. -/
def challengeCount (terms : List ProductTerm) : Nat :=
  (sources terms).foldl (fun n v =>
    match v with
    | .challenge idx => max n (idx + 1)
    | _ => n) 0

def new (terms : List ProductTerm) (requiredOpenings : List OpeningId) : OutputClaimConstraint :=
  ⟨terms, requiredOpenings, challengeCount terms⟩

/-- Each opening once, at its first occurrence. -/
def collectUniqueOpenings (terms : List ProductTerm) : List OpeningId :=
  (sources terms).foldl (fun seen v =>
    match v with
    | .opening id => if id ∈ seen then seen else seen ++ [id]
    | _ => seen) []

def sumOfProducts (terms : List ProductTerm) : OutputClaimConstraint :=
  new terms (collectUniqueOpenings terms)

def product (factors : List ValueSource) : OutputClaimConstraint := sumOfProducts [.product factors]

def linear (terms : List (ValueSource × ValueSource)) : OutputClaimConstraint :=
  sumOfProducts (terms.map fun t => .scaled t.1 [t.2])

def offsetChallenge (offset : Nat) : ValueSource → ValueSource
  | .challenge idx => .challenge (idx + offset)
  | other => other

/-- Terms of instance `j`, scaled by its batching coefficient, which is challenge `j` of the
batch. -/
def batchTerms (j offset : Nat) (terms : List ProductTerm) : List ProductTerm :=
  terms.map fun t =>
    ⟨offsetChallenge offset t.coeff, .challenge j :: t.factors.map (offsetChallenge offset)⟩

/-- The loop of `batch_inner` from instance `j` and challenge offset `offset` on. -/
def batchFrom :
    Nat → Nat → List OutputClaimConstraint → List ProductTerm × List OpeningId →
      List ProductTerm × List OpeningId
  | _, _, [], acc => acc
  | j, offset, c :: cs, (terms, openings) =>
    batchFrom (j + 1) (offset + c.numChallenges) cs
      (terms ++ batchTerms j offset c.terms,
        c.requiredOpenings.foldl (fun seen id => if id ∈ seen then seen else seen ++ [id]) openings)

def batchInner (constraints : List OutputClaimConstraint) : OutputClaimConstraint :=
  let (terms, openings) := batchFrom 0 constraints.length constraints ([], [])
  new terms openings

/-- One instance without a constraint leaves the whole batch without one. -/
def batch (constraints : List (Option OutputClaimConstraint)) : Option OutputClaimConstraint :=
  if constraints.any (·.isNone) then none else some (batchInner (constraints.filterMap id))

/-- `batch_required` asserts one batching coefficient for each constraint. -/
def batchRequired (constraints : List InputClaimConstraint) (numBatchingCoefficients : Nat) :
    Option InputClaimConstraint :=
  if numBatchingCoefficients = constraints.length then some (batchInner constraints) else none

end OutputClaimConstraint

/-! ## Meaning -/

section Value

variable {F : Type} [Field F]

/-- What a source stands for when openings have the values `ρ`; a challenge outside of the baked
ones has none. -/
def ValueSource.value (ρ : OpeningId → F) (challenges : List F) : ValueSource → Option F
  | .opening id => some (ρ id)
  | .challenge idx => challenges[idx]?
  | .constant val => some val

def ProductTerm.value (ρ : OpeningId → F) (challenges : List F) (t : ProductTerm) : Option F := do
  let coeff ← t.coeff.value ρ challenges
  let factors ← t.factors.mapM (·.value ρ challenges)
  return coeff * factors.prod

def OutputClaimConstraint.value (ρ : OpeningId → F) (challenges : List F)
    (c : OutputClaimConstraint) : Option F :=
  return (← c.terms.mapM (·.value ρ challenges)).sum

end Value

end ProviaVM.Blindfold
