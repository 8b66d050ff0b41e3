import Mathlib.Algebra.Field.Basic
import ProviaVM.Verifier.OpeningId
import ProviaVM.Verifier.Transcript

/-!
`VerifierOpeningAccumulator`: the openings a proof claims, the points the stages open them at, and
the reduction instances they leave for the opening proof. A polynomial opened twice at one point is
opened under its first name, later names are aliases. Maps are lists of pairs, of which the first
with a key counts.
-/
namespace ProviaVM.Verifier

variable {F : Type} [Field F] [DecidableEq F]

structure ReductionSumcheck (F : Type) where
  polynomials : List CommittedPolynomial
  sumcheckId : SumcheckId
  rlcCoeffs : List F
  inputClaims : List F
  openingPoint : List F
  sumcheckClaim : Option F

namespace ReductionSumcheck

def newVerifierInstance (polynomials : List CommittedPolynomial) (sumcheckId : SumcheckId)
    (openingPoint claims : List F) :
    ReductionSumcheck F :=
  { polynomials, sumcheckId, rlcCoeffs := if polynomials.length = 1 then [1]
    else [], inputClaims := claims,
    openingPoint, sumcheckClaim := none }

/-- Challenges the instance takes: one for each polynomial of a group. -/
def numGammas (s : ReductionSumcheck F) : Nat :=
  if s.polynomials.length > 1 then s.polynomials.length else 1

/-- `prepare_sumcheck`, with its assertions. -/
def prepareSumcheck (s : ReductionSumcheck F) (gammas : List F) : Option (ReductionSumcheck F) :=
  if s.polynomials.length > 1 then
    if gammas.length = s.polynomials.length then
      some { s with
        rlcCoeffs := gammas
        inputClaims := [(List.zipWith (· * ·) gammas s.inputClaims).sum] }
    else none
  else if gammas.length = 1 then some { s with rlcCoeffs := [1] }
  else none

end ReductionSumcheck

structure BlindfoldOpeningData (F : Type) where
  openingIds : List OpeningId
  constraintCoeffs : List F
  jointClaim : F

structure VerifierOpeningAccumulator (F : Type) where
  sumchecks : List (ReductionSumcheck F)
  openings : List (OpeningId × List F × F)
  openingIdsByPolyPoint : List ((PolynomialId × List F) × OpeningId)
  aliases : List (OpeningId × OpeningId)
  zkMode : Bool
  pendingClaims : List F
  pendingClaimIds : List OpeningId
  blindfoldOpeningData : Option (BlindfoldOpeningData F)

namespace VerifierOpeningAccumulator

variable (acc : VerifierOpeningAccumulator F)

def empty (zkMode : Bool) : VerifierOpeningAccumulator F := ⟨[], [], [], [], zkMode, [], [], none⟩

/-- `resolve_alias`; an alias points to a name that is none, so the chain is no longer than the
list. -/
def resolveAlias (key : OpeningId) : OpeningId := go acc.aliases.length key
where
  go : Nat → OpeningId → OpeningId
    | 0, key => key
    | n + 1, key =>
      match acc.aliases.lookup key with
      | some next => go n next
      | none => key

/-- `get_virtual_polynomial_opening` and its committed twin: point and claim, or a panic. -/
def getOpening (key : OpeningId) : Option (List F × F) := acc.openings.lookup (acc.resolveAlias key)

def indexOpeningId (key : OpeningId) : VerifierOpeningAccumulator F :=
  match acc.openings.lookup key with
  | none => acc
  | some (point, _) =>
    if point.isEmpty then acc
    else { acc with
      openingIdsByPolyPoint :=
        ((key.underlyingPolynomialId, point), key) :: acc.openingIdsByPolyPoint }

/-- The outer `none` is the panic on an indexed opening that is missing. -/
def findExistingOpeningAtPoint (poly : PolynomialId) (point : List F) :
    Option (Option (OpeningId × F)) :=
  match acc.openingIdsByPolyPoint.lookup (poly, point) with
  | none => some none
  | some existing => (acc.openings.lookup existing).map fun (_, claim) => some (existing, claim)

/-- `register_existing_opening`, with its assertion on duplicates. -/
def registerExistingOpening (key : OpeningId) (point : List F) (claim : F) :
    Option (VerifierOpeningAccumulator F) := do
  match ← acc.findExistingOpeningAtPoint key.underlyingPolynomialId point with
  | some (existing, existingClaim) =>
    if existing ≠ key then
      if claim = existingClaim then some { acc with aliases := (key, existing) :: acc.aliases }
      else none
    else some acc
  | none => some (acc.indexOpeningId key)

def primeOpenings (openings : List (OpeningId × List F × F)) :
    Option (VerifierOpeningAccumulator F) :=
  openings.foldlM (fun acc (key, point, claim) => acc.registerExistingOpening key point claim)
    { acc with openings, openingIdsByPolyPoint := [], aliases := [] }

/-- `populate_or_alias_opening`: the claim, and whether the opening stands under its own name. -/
def populateOrAliasOpening (key : OpeningId) (point : List F) :
    Option (VerifierOpeningAccumulator F × F × Bool) := do
  let existing ← acc.findExistingOpeningAtPoint key.underlyingPolynomialId point
  match acc.openings.lookup key, existing with
  | some (_, claim), some (existing, existingClaim) =>
    if existing ≠ key then
      if claim = existingClaim then some ({ acc with aliases := (key, existing) :: acc.aliases },
        claim, false) else none
    else some (({ acc with openings := (key, point, claim) :: acc.openings }).indexOpeningId key,
      claim, true)
  | some (_, claim), none =>
    some (({ acc with openings := (key, point, claim) :: acc.openings }).indexOpeningId key,
      claim, true)
  | none, some (existing, existingClaim) =>
    some ({ acc with aliases := (key, existing) :: acc.aliases }, existingClaim, false)
  | none, none =>
      some (({ acc with openings := (key, point, 0) :: acc.openings }).indexOpeningId key, 0, true)

end VerifierOpeningAccumulator

/-- One call of `append_dense`, `append_sparse` or `append_virtual`. -/
inductive Append (F : Type) where
  | dense (polynomials : List CommittedPolynomial) (sumcheck : SumcheckId) (openingPoint : List F)
  | sparse (polynomials : List CommittedPolynomial) (sumcheck : SumcheckId) (openingPoint : List F)
  | virt (polynomial : VirtualPolynomial) (sumcheck : SumcheckId) (openingPoint : List F)

namespace VerifierOpeningAccumulator

variable {T G : Type} [Transcript T F G]

variable (G) in
/-- Opens one name: its claim goes to the pending ones in zk mode and to the transcript
otherwise. -/
def appendOne (acc : VerifierOpeningAccumulator F) (t : T) (key : OpeningId) (point : List F) :
    Except Failure (VerifierOpeningAccumulator F × T × F) := do
  let (acc, claim, canonical) ← orPanic (acc.populateOrAliasOpening key point)
  if canonical then
    if acc.zkMode then
      return ({ acc with
        pendingClaims := acc.pendingClaims ++ [claim]
        pendingClaimIds := acc.pendingClaimIds ++ [key] }, t, claim)
    else return (acc, Transcript.appendScalar G claim t, claim)
  else return (acc, t, claim)

variable (G) in
/-- The names of a group one after the other, with their claims. -/
def appendEach (point : List F) :
    List OpeningId → VerifierOpeningAccumulator F → T →
      Except Failure (VerifierOpeningAccumulator F × T × List F)
  | [], acc, t => .ok (acc, t, [])
  | key :: keys, acc, t => do
    let (acc, t, claim) ← acc.appendOne G t key point
    let (acc, t, claims) ← appendEach point keys acc t
    return (acc, t, claim :: claims)

variable (G) in
/-- A dense group leaves one reduction instance, a sparse one leaves one for each polynomial. -/
def append (acc : VerifierOpeningAccumulator F) (t : T) :
    Append F → Except Failure (VerifierOpeningAccumulator F × T)
  | .dense polynomials sumcheck point => do
    let (acc, t, claims) ← appendEach G point (polynomials.map (.Committed · sumcheck)) acc t
    let sumchecks := acc.sumchecks ++ [.newVerifierInstance polynomials sumcheck point claims]
    return ({ acc with sumchecks }, t)
  | .sparse polynomials sumcheck point =>
    polynomials.foldlM (fun (acc, t) label => do
      let (acc, t, claim) ← acc.appendOne G t (.Committed label sumcheck) point
      let sumchecks := acc.sumchecks ++ [.newVerifierInstance [label] sumcheck point [claim]]
      return ({ acc with sumchecks }, t))
      (acc, t)
  | .virt polynomial sumcheck point => do
    let (acc, t, _) ← acc.appendOne G t (.Virtual polynomial sumcheck) point
    return (acc, t)

variable (G) in
def appendAll (acc : VerifierOpeningAccumulator F) (t : T) (ops : List (Append F)) :
    Except Failure (VerifierOpeningAccumulator F × T) :=
  ops.foldlM (fun (acc, t) op => acc.append G t op) (acc, t)

variable (G) in
def flushToTranscript (acc : VerifierOpeningAccumulator F) (t : T) :
    VerifierOpeningAccumulator F × T :=
  ({ acc with pendingClaims := [], pendingClaimIds := [] },
    acc.pendingClaims.foldl (fun t claim => Transcript.appendScalar G claim t) t)

end VerifierOpeningAccumulator

end ProviaVM.Verifier
