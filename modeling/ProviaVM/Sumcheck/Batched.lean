import ProviaVM.Poly.UniPoly
import ProviaVM.Rep3.Linear

/-!
The batched sumcheck over shares: `Rep3BatchedSumcheckWorker::prove` and
`HybridBatchedSumcheckWorker::prove` against `Rep3BatchedSumcheck::prove` and
`HybridBatchedSumcheck::prove`. The three workers and the coordinator run in lockstep, one round for
each challenge. Batching coefficients and challenges come from the transcript and are given. `none`
is a panic or an error of any of the four parties. One subnet of three workers is modelled.
-/
namespace ProviaVM.Sumcheck
open Preprocessing Rep3 Poly

variable {F : Type} [Field F] [DecidableEq F]

/-! ## Shares -/

/-- `combine_additive_vec`, with its length assertions. -/
def combineAdditiveVec (shares : PartyID → List F) : Option (List F) :=
  if (shares .ID0).length = (shares .ID1).length ∧ (shares .ID1).length = (shares .ID2).length then
    some (List.zipWith (· + ·) (List.zipWith (· + ·) (shares .ID0) (shares .ID1)) (shares .ID2))
  else none

/-- `Rep3Value` as the three workers hold it. -/
inductive Rep3Value (F : Type) where
  | pub (v : F)
  | shared (x : View F)
  | additive (x : PartyID → F)

def Rep3Value.Opens : Rep3Value F → F → Prop
  | .pub v, c => v = c
  | .shared x, c => SumShares x c
  | .additive x, c => total x = c

omit [DecidableEq F] in
theorem Rep3Value.Opens.unique {v : Rep3Value F} {c d : F} (h : v.Opens c) (h' : v.Opens d) :
    c = d := by
  cases v with
  | pub v => exact h.symm.trans h'
  | shared x => exact h.opens.symm.trans h'.opens
  | additive x => exact h.symm.trans h'

/-- A worker's additive share of the claim times `2^padding`. -/
def Rep3Value.scaled (padding : Nat) : Rep3Value F → PartyID → F
  | .pub v, .ID0 => v * 2 ^ padding
  | .pub _, _ => 0
  | .shared x, p => intoAdditive ((x p).map (· * 2 ^ padding))
  | .additive x, p => x p * 2 ^ padding

/-! ## Instances -/

/-- A secret instance at the workers and the coordinator; its state is given by the challenges it
was bound to. `message` gets the local round, these, the shares of the previous claim and the
maximal degree; `openings` the challenges of all rounds. -/
structure SecretInstance (F : Type) where
  degree : Nat
  numRounds : Nat
  inputClaim : Rep3Value F
  inputClaimPublic : F
  message : Nat → List F → (PartyID → F) → Nat → PartyID → List F
  openings : List F → List (View F)

structure PublicInstance (F : Type) where
  degree : Nat
  numRounds : Nat
  inputClaimPublic : F
  message : Nat → List F → F → Nat → List F
  openings : List F → List F

inductive Instance (F : Type) where
  | secret (s : SecretInstance F)
  | pub (s : PublicInstance F)

namespace Instance

def degree : Instance F → Nat
  | .secret s => s.degree
  | .pub s => s.degree

def numRounds : Instance F → Nat
  | .secret s => s.numRounds
  | .pub s => s.numRounds

def inputClaimPublic : Instance F → F
  | .secret s => s.inputClaimPublic
  | .pub s => s.inputClaimPublic

def isSecret : Instance F → Bool
  | .secret _ => true
  | .pub _ => false

end Instance

/-- An instance with the challenges it is bound to and the claim kept for it: a share at every
worker, or the public claim at worker `ID0`. -/
inductive Running (F : Type) where
  | secret (s : SecretInstance F) (bound : List F) (shares : PartyID → F)
  | pub (s : PublicInstance F) (bound : List F) (value : F)

/-- The evaluations an instance adds to a round, before they are scaled by its coefficient. -/
inductive Turn (F : Type) where
  | secret (evals : PartyID → List F)
  | pub (evals : List F)

/-- `evaluate_univariate_at_share` and `evaluate_univariate_at_public`: the value at 1, which the
message lacks, is the claim minus the value at 0. -/
def evaluateUnivariate (degree : Nat) (previousClaim : F) (msg : List F) (x : F) : Option F :=
  if degree < 1 ∨ msg.length < degree then none
  else
    let fullEvals := msg.getD 0 0 :: (previousClaim - msg.getD 0 0) ::
      (List.range' 2 (degree - 1)).map fun k => msg.getD (k - 1) 0
    (fromEvals fullEvals).map fun poly => evaluate poly x

/-- The same at the three workers, on their own shares. -/
def evaluateUnivariateAll (degree : Nat) (previousClaim : PartyID → F) (msg : PartyID → List F)
    (x : F) :
    Option (PartyID → F) := do
  let v₀ ← evaluateUnivariate degree (previousClaim .ID0) (msg .ID0) x
  let v₁ ← evaluateUnivariate degree (previousClaim .ID1) (msg .ID1) x
  let v₂ ← evaluateUnivariate degree (previousClaim .ID2) (msg .ID2) x
  return fun
    | .ID0 => v₀
    | .ID1 => v₁
    | .ID2 => v₂

namespace Running

def inst : Running F → Instance F
  | .secret s _ _ => .secret s
  | .pub s _ _ => .pub s

def claim : Running F → F
  | .secret _ _ shares => total shares
  | .pub _ _ value => value

/-- Claims start scaled by a power of two; `mul_pow_2` panics above 255. -/
def start (maxNumRounds : Nat) (i : Instance F) : Option (Running F) :=
  let padding := maxNumRounds - i.numRounds
  if 255 < padding then none
  else
    match i with
    | .secret s => some (.secret s [] (s.inputClaim.scaled padding))
    | .pub s => some (.pub s [] (s.inputClaimPublic * 2 ^ padding))

/-- First loop of a round. An instance that has not started halves its claim and adds it as a
constant; one that has started computes its message, whose length is checked. -/
def turn (maxNumRounds maxDegree round : Nat) (x : Running F) : Option (Running F × Turn F) :=
  let offset := maxNumRounds - x.inst.numRounds
  if maxNumRounds - round > x.inst.numRounds then
    match x with
    | .secret s bound shares =>
      let c := fun p => shares p * 2⁻¹
      some (.secret s bound c, .secret fun p => List.replicate maxDegree (c p))
    | .pub s bound value =>
      let c := value * 2⁻¹
      some (.pub s bound c, .pub (List.replicate maxDegree c))
  else
    match x with
    | .secret s bound shares =>
      let msg := s.message (round - offset) bound shares maxDegree
      if (msg .ID0).length = maxDegree ∧ (msg .ID1).length = maxDegree ∧
        (msg .ID2).length = maxDegree then
        some (x, .secret msg)
      else none
    | .pub s bound value =>
      let msg := s.message (round - offset) bound value maxDegree
      if msg.length = maxDegree then some (x, .pub msg) else none

/-- Second loop, after the challenge: a started instance is bound and its claim becomes the value of
its message polynomial at the challenge. -/
def settle (maxNumRounds round : Nat) (x : Running F) (t : Turn F) (r : F) : Option (Running F) :=
  if maxNumRounds - round > x.inst.numRounds then some x
  else
    match x, t with
    | .secret s bound shares, .secret msg =>
      (evaluateUnivariateAll s.degree shares msg r).map fun claims =>
        .secret s (bound ++ [r]) claims
    | .pub s bound value, .pub msg =>
      (evaluateUnivariate s.degree value msg r).map fun claim => .pub s (bound ++ [r]) claim
    | _, _ => none

end Running

/-! ## One round -/

abbrev HybridRoundMsg (F : Type) := List F × Option (List F)

def accumulate (acc : List F) (coeff : F) (evals : List F) : List F :=
  List.zipWith (fun dst src => dst + src * coeff) acc evals

def addSecret (p : PartyID) (acc : List F) : F × Turn F → List F
  | (coeff, .secret evals) => accumulate acc coeff (evals p)
  | (_, .pub _) => acc

def addPublic (acc : List F) : F × Turn F → List F
  | (_, .secret _) => acc
  | (coeff, .pub evals) => accumulate acc coeff evals

def batchedSecretEvals (maxDegree : Nat) (batch : List (F × Turn F)) (p : PartyID) : List F :=
  batch.foldl (addSecret p) (List.replicate maxDegree 0)

def batchedPublicEvals (maxDegree : Nat) (batch : List (F × Turn F)) : List F :=
  batch.foldl addPublic (List.replicate maxDegree 0)

def roundMessage (maxDegree : Nat) (batch : List (F × Turn F)) : PartyID → HybridRoundMsg F
  | .ID0 => (batchedSecretEvals maxDegree batch .ID0, some (batchedPublicEvals maxDegree batch))
  | p => (batchedSecretEvals maxDegree batch p, none)

inductive Driver where
  | rep3
  | hybrid
  deriving DecidableEq, Repr

/-- `receive_batched_round_evals` adds the three shares; `receive_hybrid_round_evals` also adds what
`ID0` sends in clear. -/
def Driver.receiveRoundEvals (d : Driver) (responses : PartyID → HybridRoundMsg F) :
    Option (List F) := do
  let opened ← combineAdditiveVec fun p => (responses p).1
  match d, (responses .ID0).2 with
  | .hybrid, some clear =>
      if clear.length = opened.length then some (List.zipWith (· + ·) opened clear) else none
  | _, _ => some opened

def roundPoly (batchedClaim : F) : List F → Option (List F)
  | [] => none
  | e₀ :: rest => (fromEvals (e₀ :: (batchedClaim - e₀) :: rest)).map trim

/-- What a finished round leaves: the running claim it started from, the coordinator's polynomial,
its compressed form in the proof, and the claims the workers keep. -/
structure RoundRecord (F : Type) where
  batchedClaim : F
  poly : List F
  compressed : List F
  running : List (Running F)

structure BatchState (F : Type) where
  running : List (Running F)
  batchedClaim : F
  rSumcheck : List F
  rounds : List (RoundRecord F)

def batchRound (d : Driver) (maxNumRounds maxDegree : Nat) (coeffs : List F) (s : BatchState F)
    (r : F) :
    Option (BatchState F) := do
  let round := s.rSumcheck.length
  let turned ← s.running.mapM (Running.turn maxNumRounds maxDegree round)
  let roundEvals ← d.receiveRoundEvals (roundMessage maxDegree (coeffs.zip (turned.map Prod.snd)))
  let poly ← if roundEvals.length = maxDegree then roundPoly s.batchedClaim roundEvals else none
  let compressed ← compress poly
  let settled ← turned.mapM fun t => t.1.settle maxNumRounds round t.2 r
  return {
    running := settled
    batchedClaim := evaluate poly r
    rSumcheck := s.rSumcheck ++ [r]
    rounds := s.rounds ++ [⟨s.batchedClaim, poly, compressed, settled⟩] }

/-! ## Whole runs -/

/-- What the three workers send for the openings of one instance. -/
def Running.openingMessage (point : List F) : Running F → PartyID → HybridRoundMsg F
  | .secret s _ _, p => ((s.openings point).map fun v => intoAdditive (v p), none)
  | .pub s _ _, .ID0 => ([], some (s.openings point))
  | .pub _ _ _, _ => ([], none)

/-- `receive_opening_claims` and `receive_hybrid_opening_claims`, for one instance. -/
def Driver.receiveOpeningClaims (d : Driver) (responses : PartyID → HybridRoundMsg F) :
    Option (List F) := do
  let opened ← combineAdditiveVec fun p => (responses p).1
  match d, (responses .ID0).2 with
  | .hybrid, some clear =>
    if opened = [] then some clear
    else if opened.length = clear.length then some (List.zipWith (· + ·) opened clear)
    else none
  | _, _ => some opened

/-- The challenges an instance is opened at, at the workers and at the coordinator, and the claims
the coordinator caches for it. -/
structure Opening (F : Type) where
  point : List F
  claims : List F

def Driver.openInstance (d : Driver) (maxNumRounds : Nat) (rSumcheck : List F) (x : Running F) :
    Option (Opening F) := do
  let rSlice := rSumcheck.drop (maxNumRounds - x.inst.numRounds)
  let claims ← d.receiveOpeningClaims (x.openingMessage rSlice)
  return ⟨rSlice, claims⟩

structure BatchProof (F : Type) where
  rounds : List (RoundRecord F)
  rSumcheck : List F
  openings : List (Opening F)

def maxOf (ns : List Nat) : Nat := ns.foldr max 0

def maxNumRounds (instances : List (Instance F)) : Nat := maxOf (instances.map Instance.numRounds)

def maxDegree (instances : List (Instance F)) : Nat := maxOf (instances.map Instance.degree)

def initialClaim (instances : List (Instance F)) (coeffs : List F) : F :=
  (List.zipWith (fun i c => i.inputClaimPublic * 2 ^ (maxNumRounds instances - i.numRounds) * c)
    instances coeffs).sum

/-- Workers and coordinator together, for the given batching coefficients and challenges. -/
def Driver.prove (d : Driver) (instances : List (Instance F)) (coeffs rs : List F) :
    Option (BatchProof F) :=
  if instances = [] ∨ coeffs.length ≠ instances.length ∨ rs.length ≠ maxNumRounds instances then
    none
  else do
    let running ← instances.mapM (Running.start (maxNumRounds instances))
    let s ← rs.foldlM (batchRound d (maxNumRounds instances) (maxDegree instances) coeffs)
      ⟨running, initialClaim instances coeffs, [], []⟩
    let openings ← s.running.mapM (d.openInstance (maxNumRounds instances) s.rSumcheck)
    return ⟨s.rounds, s.rSumcheck, openings⟩

/-- `Rep3BatchedSumcheck::prove`: secret instances only. -/
def Rep3BatchedSumcheck.prove (instances : List (SecretInstance F)) (coeffs rs : List F) :
    Option (BatchProof F) :=
  Driver.rep3.prove (instances.map .secret) coeffs rs

def HybridBatchedSumcheck.prove (instances : List (Instance F)) (coeffs rs : List F) :
    Option (BatchProof F) :=
  Driver.hybrid.prove instances coeffs rs

end ProviaVM.Sumcheck
