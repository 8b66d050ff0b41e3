/-!
The Fiat-Shamir transcript, seen as the operations the verifier calls on it, and the ways a
verification ends without a result.
-/
namespace ProviaVM.Verifier

/-- A challenge and a group element are given by their values; `appendSerializedScalar` is
`append_bytes` of the serialized scalar. -/
class Transcript (T F G : Type) where
  new : String → T
  appendMessage : String → T → T
  appendU64 : Nat → T → T
  appendBytes : List UInt8 → T → T
  appendScalar : F → T → T
  appendSerializedScalar : F → T → T
  appendPoint : G → T → T
  challengeScalar : T → F × T
  challengeScalarOptimized : T → F × T

namespace Transcript

variable {T F G : Type} [Transcript T F G]

variable (G) in
def appendScalars (scalars : List F) (t : T) : T :=
  appendMessage F G "end_append_vector" <|
    scalars.foldl (fun t s => appendScalar G s t) (appendMessage F G "begin_append_vector" t)

variable (F) in
def appendPoints (points : List G) (t : T) : T := points.foldl (fun t p => appendPoint F p t) t

def draws (draw : T → F × T) : Nat → T → List F × T
  | 0, t => ([], t)
  | n + 1, t =>
    let (r, t) := draw t
    let (rs, t) := draws draw n t
    (r :: rs, t)

variable (F G) in
def challengeVector (len : Nat) (t : T) : List F × T := draws (challengeScalar G) len t

variable (F G) in
def challengeVectorOptimized (len : Nat) (t : T) : List F × T :=
  draws (challengeScalarOptimized G) len t

end Transcript

inductive ProofVerifyError where
  | invalidInputLength (expected got : Nat)
  | doryError (text : String)
  | sumcheckVerificationError

inductive BlindFoldVerifyError where
  | spartanSumcheckFailed (round : Nat)
  | wrongSpartanProofLength (expected got : Nat)
  | degreeBoundExceeded (expected got : Nat)
  | malformedProof
  | eOpeningFailed
  | outerClaimMismatch
  | wrongInnerSumcheckLength (expected got : Nat)
  | innerSumcheckFailed (round : Nat)
  | wOpeningFailed
  | finalClaimMismatch
  | evalCommitmentMismatch

/-- A panic, or an error with the contexts it passed through. -/
inductive Failure where
  | panicked
  | proof (error : ProofVerifyError)
  | blindfold (error : BlindFoldVerifyError)
  | message (text : String)
  | context (stage : String) (inner : Failure)

/-- `anyhow::Context::context`; a panic is not caught. -/
def withContext {α : Type} (stage : String) : Except Failure α → Except Failure α
  | .ok a => .ok a
  | .error .panicked => .error .panicked
  | .error e => .error (.context stage e)

def orFail {α : Type} (failure : Failure) : Option α → Except Failure α
  | some a => .ok a
  | none => .error failure

def orPanic {α : Type} : Option α → Except Failure α := orFail .panicked

def ensure (p : Prop) [Decidable p] (failure : Failure) : Except Failure Unit :=
  if p then .ok () else .error failure

@[simp] theorem withContext_ok {α : Type} {stage : String} {x : Except Failure α} {a : α} :
    withContext stage x = .ok a ↔ x = .ok a := by
  rcases x with e | b
  · cases e <;> simp [withContext]
  · simp [withContext]

@[simp] theorem orFail_ok {α : Type} {failure : Failure} {x : Option α} {a : α} :
    orFail failure x = .ok a ↔ x = some a := by
  cases x <;> simp [orFail]

@[simp] theorem orPanic_ok {α : Type} {x : Option α} {a : α} : orPanic x = .ok a ↔ x = some a :=
  orFail_ok

@[simp] theorem ensure_ok {p : Prop} [Decidable p] {failure : Failure} {u : Unit} :
    ensure p failure = .ok u ↔ p := by
  by_cases h : p <;> simp [ensure]

end ProviaVM.Verifier
