import Mathlib.Algebra.Field.ZMod
import ProviaVM.Lib.Run
import ProviaVM.Verifier.Dag

/-!
Which sumchecks an accepted proof has had checked. A clear proof is compared with the expected
output claim; a zk proof is checked by BlindFold or not at all. The verifier lets the proof decide,
for every sumcheck on its own, which of the two it is, and the presence of a field decides whether
BlindFold runs.
-/
namespace ProviaVM.Verifier
open Blindfold Run List Option

variable {F G T Com Prf Setup : Type} [Field F] [DecidableEq F] [Transcript T F G]

/-- A clear sumcheck ends in the claim its instances expect. -/
def StageRun.Checked (s : StageRun F G) : Prop :=
  s.proof.isZk = false → s.outputClaim = s.expectedOutputClaim

def ReductionRun.toStageRun (r : ReductionRun F G) : StageRun F G :=
  ⟨r.proof, r.batched.outputClaim, r.batched.expectedOutputClaim⟩

/-- The five sumchecks of a run under the keys of their proofs. -/
def VerifyLog.sumchecks (log : VerifyLog F G) : List (ProofKeys × StageRun F G) :=
  [(.Stage1Sumcheck, log.stage1), (.Stage2Sumcheck, log.stage2.toStageRun),
    (.Stage3Sumcheck, log.stage3.toStageRun), (.Stage4Sumcheck, log.stage4.toStageRun),
    (.ReducedOpeningProof, log.reduction.toStageRun)]

def stageKeys : List ProofKeys :=
  [.Stage1Sumcheck, .Stage2Sumcheck, .Stage3Sumcheck, .Stage4Sumcheck]

def JoltProof.sumcheckAt (proof : JoltProof F G Com Prf) (key : ProofKeys) :
    Option (SumcheckInstanceProof F G) :=
  match proof.proofs key with
  | some (.sumcheckProof p) => some p
  | some (.reducedOpeningProof p) => some p.sumcheckProof
  | _ => none

def JoltProof.ClearAt (proof : JoltProof F G Com Prf) (key : ProofKeys) : Prop :=
  ∃ polys, proof.sumcheckAt key = some (.clear polys)

/-! ## What each part of the verifier has checked -/

variable {proof : JoltProof F G Com Prf} {key : ProofKeys} {t t' : T}
  {sm : StateManager F G Com Prf Setup} {data : Stage1BlindfoldData F}
  {acc : VerifierOpeningAccumulator F} {stages : List (BlindfoldStage F G)}
  {preprocessing : VerifierPreprocessing G Setup} {io : JoltDevice}

omit [Field F] [DecidableEq F] in
theorem sumcheck?_stored {entry : ProofData F G Prf} {p : SumcheckInstanceProof F G}
    (lookup : proof.proofs key = some entry) (kind : entry.sumcheck? = some p) :
    proof.proofs key = some (.sumcheckProof p) := by
  cases entry <;> cases kind
  exact lookup

omit [Field F] [DecidableEq F] in
theorem sumcheckAt_stage {p : SumcheckInstanceProof F G}
    (stored : proof.proofs key = some (.sumcheckProof p)) :
    proof.sumcheckAt key = some p := by
  simp [JoltProof.sumcheckAt, stored]

omit [Field F] [DecidableEq F] in
theorem sumcheckAt_reduction {p : ReducedOpeningProof F G Prf}
    (stored : proof.proofs key = some (.reducedOpeningProof p)) :
    proof.sumcheckAt key = some p.sumcheckProof := by
  simp [JoltProof.sumcheckAt, stored]

/-- An accepted clear proof has its final claim compared; an accepted zk proof has one degree for
every round. -/
theorem BatchedSumcheck.verify_checked {proof : SumcheckInstanceProof F G}
    {instances : List (SumcheckInstance F)} {acc acc' : Option (VerifierOpeningAccumulator F)}
    {run : BatchedRun F} (h : BatchedSumcheck.verify proof instances acc t = .ok (run, acc', t')) :
    (proof.isZk = false → run.outputClaim = run.expectedOutputClaim) ∧
      ∀ p, proof = .zk p → (instances.map (·.numRounds)).max? = some p.polyDegrees.length := by
  obtain ⟨_, -, h⟩ := bind_ok.mp h
  obtain ⟨maxNumRounds, longest, h⟩ := bind_ok.mp h
  obtain ⟨_, -, h⟩ := bind_ok.mp h
  obtain ⟨⟨output, _, _⟩, rounds, h⟩ := bind_ok.mp h
  obtain ⟨⟨expected, after, _⟩, -, h⟩ := bind_ok.mp h
  obtain ⟨_, compared, h⟩ := bind_ok.mp h
  constructor
  · intro clear
    have equal : output = expected := by simpa [clear] using compared
    cases after <;> cases h <;> exact equal
  · rintro p rfl
    obtain ⟨_, -, rounds⟩ := bind_ok.mp rounds
    obtain ⟨_, degrees, -⟩ := bind_ok.mp rounds
    rw [orPanic_ok.mp longest, ensure_ok.mp degrees]

theorem stage1Verify_checked {params : Params F} {run : StageRun F G}
    (h : stage1Verify params sm t = .ok (run, data, acc, t')) :
    sm.proof.proofs .Stage1Sumcheck = some (.sumcheckProof run.proof) ∧ run.Checked := by
  simp only [stage1Verify] at h
  obtain ⟨entry, lookup, h⟩ := bind_ok.mp h
  obtain ⟨proof, kind, h⟩ := bind_ok.mp h
  have stored := sumcheck?_stored (orPanic_ok.mp lookup) (orFail_ok.mp kind)
  obtain ⟨⟨finalEval, _, _⟩, -, h⟩ := bind_ok.mp h
  obtain ⟨eqEval, -, h⟩ := bind_ok.mp h
  obtain ⟨⟨_, az⟩, -, h⟩ := bind_ok.mp h
  obtain ⟨⟨_, bz⟩, -, h⟩ := bind_ok.mp h
  obtain ⟨⟨_, cz⟩, -, h⟩ := bind_ok.mp h
  obtain ⟨_, compared, h⟩ := bind_ok.mp h
  obtain ⟨_, -, h⟩ := bind_ok.mp h
  have result : run = ⟨proof, finalEval, eqEval * (az * bz - cz)⟩ := by
    split at h <;> cases h <;> rfl
  subst result
  refine ⟨stored, fun clear => ?_⟩
  simpa [show proof.isZk = false from clear] using compared

/-- An accepted stage: a clear proof is checked, a zk proof states a degree per round, and the
instances are those its DAGs make from the openings before. -/
theorem stageVerify_checked {name : String}
    {build : StateManager F G Com Prf Setup → T → Except Failure (List (SumcheckInstance F) × T)}
    {sm' : StateManager F G Com Prf Setup} {s : BatchedStage F G}
    (h : stageVerify name key build sm t = .ok (s, sm', t')) :
    (sm.proof.proofs key = some (.sumcheckProof s.proof) ∧ s.toStageRun.Checked) ∧
      (∃ acc, sm' = { sm with accumulator := acc }) ∧
      (∃ t₁, build { sm with accumulator := s.accumulator } t = .ok (s.instances, t₁)) ∧
      ∀ p, s.proof = .zk p → (s.instances.map (·.numRounds)).max? = some p.polyDegrees.length := by
  obtain ⟨⟨instances, _⟩, made, h⟩ := bind_ok.mp h
  obtain ⟨entry, lookup, h⟩ := bind_ok.mp h
  obtain ⟨proof, kind, h⟩ := bind_ok.mp h
  have stored := sumcheck?_stored (orPanic_ok.mp lookup) (orPanic_ok.mp kind)
  obtain ⟨⟨run, acc, _⟩, verified, h⟩ := bind_ok.mp h
  obtain ⟨_, -, h⟩ := bind_ok.mp h
  cases h
  obtain ⟨checked, rounds⟩ := BatchedSumcheck.verify_checked (withContext_ok.mp verified)
  exact ⟨⟨stored, checked⟩, ⟨_, rfl⟩, ⟨_, made⟩, rounds⟩

omit [DecidableEq F] [Transcript T F G] in
theorem verifyAdviceProof_proof {env : Env F G T Com Prf Setup}
    {sm' : StateManager F G Com Prf Setup} {id : OpeningId} {size : Nat} {label : String}
    {commitment : Com}
    (h : verifyAdviceProof env sm id key size label commitment t = .ok (sm', t')) :
    sm'.proof = sm.proof := by
  obtain ⟨⟨_, _⟩, -, h⟩ := bind_ok.mp h
  obtain ⟨_, -, h⟩ := bind_ok.mp h
  obtain ⟨⟨_, _⟩, -, h⟩ := bind_ok.mp h
  obtain ⟨_, -, h⟩ := bind_ok.mp h
  split at h <;> cases h
  rfl

theorem ifPresent_keeps {α σ : Type} {commitment : Option α} {check : α → σ → Except Failure σ}
    {s s' : σ} (inv : σ → Prop) (keeps : ∀ c s s', inv s → check c s = .ok s' → inv s')
    (start : inv s) (h : ifPresent commitment check s = .ok s') : inv s' := by
  cases commitment with
  | none =>
    cases h
    exact start
  | some c => exact keeps c s s' start (withContext_ok.mp h)

theorem reduceAndVerify_checked {pcs : CommitmentScheme F G T Com Prf Setup} {setup : Setup}
    {commitmentMap : List (CommittedPolynomial × Com)} {proof : ReducedOpeningProof F G Prf}
    {acc' : VerifierOpeningAccumulator F} {run : ReductionRun F G}
    (h : reduceAndVerify pcs setup commitmentMap proof acc t = .ok (run, acc', t')) :
    run.proof = proof.sumcheckProof ∧ run.toStageRun.Checked := by
  simp only [reduceAndVerify] at h
  obtain ⟨_, -, h⟩ := bind_ok.mp h
  obtain ⟨_, -, h⟩ := bind_ok.mp h
  obtain ⟨⟨batched, _, _⟩, verified, h⟩ := bind_ok.mp h
  obtain ⟨_, -, h⟩ := bind_ok.mp h
  split at h <;> cases h
  exact ⟨rfl, (BatchedSumcheck.verify_checked verified).1⟩

omit [Field F] [DecidableEq F] in
/-- Every proof of an accepted loop is a zk proof. -/
theorem zkProofs_ok {hyraxC i : Nat} {proofs : List (ZkSumcheckProof G)}
    (h : zkProofs hyraxC i stages = .ok proofs) :
    stages.map (·.proof) = proofs.map .zk := by
  induction stages generalizing i proofs with
  | nil =>
    cases h
    rfl
  | cons s rest ih =>
    simp only [zkProofs] at h
    split at h
    · cases h
    · next p zk =>
      obtain ⟨_, -, h⟩ := bind_ok.mp h
      obtain ⟨ps, tail, h⟩ := bind_ok.mp h
      cases h
      simp [zk, ih tail]

/-! ## The whole verification -/

variable [AddCommGroup G] [Module F G] [DecidableEq G]
variable {env : Env F G T Com Prf Setup} {log : VerifyLog F G}

/-- The instance holds the commitments of its stages, and the BlindFold verifier returned without
error on it. -/
structure BlindfoldRun.Accepted (env : Env F G T Com Prf Setup)
    (preprocessing : VerifierPreprocessing G Setup) (b : BlindfoldRun F G) : Prop where
  rounds : b.input.roundCommitments = b.stages.flatMap (·.2.roundCommitments)
  outputClaims : b.input.outputClaimsRowCommitments = b.stages.flatMap (·.2.outputClaimsCommitments)
  verified :
    BlindFoldVerifier.verify b.gens b.r1cs (env.pcs.evalCommitmentGens preprocessing.generators)
    b.proof b.input
    (Transcript.new F G "BlindFold" : T) = .ok ()

/-- The sumcheck was checked in clear, or it belongs to an instance that BlindFold accepted. -/
def Enforced (env : Env F G T Com Prf Setup) (preprocessing : VerifierPreprocessing G Setup)
    (log : VerifyLog F G) (key : ProofKeys) (s : StageRun F G) : Prop :=
  match s.proof with
  | .clear _ => s.outputClaim = s.expectedOutputClaim
  | .zk p => ∃ b, log.blindfold = some b ∧ b.Accepted env preprocessing ∧ (key, p) ∈ b.stages

omit [DecidableEq F] [AddCommGroup G] [Module F G] [DecidableEq G] in
/-- A stage as BlindFold gets it: its own proof, and the batched constraints of its instances. -/
theorem toBlindfold_ok {s : BatchedStage F G} {b : BlindfoldStage F G}
    (h : s.toBlindfold key acc = some b) :
    (b.key = key ∧ b.proof = s.proof) ∧
      OutputClaimConstraint.batchRequired (s.instances.map (·.inputClaimConstraint))
        s.run.batchingCoeffs.length =
        some b.inputConstraint ∧
      b.outputConstraint = OutputClaimConstraint.batch
        (s.instances.map (·.outputClaimConstraint)) := by
  obtain ⟨_, batched, h⟩ := bind_eq_some_iff.mp h
  obtain ⟨_, -, h⟩ := bind_eq_some_iff.mp h
  obtain ⟨_, -, h⟩ := bind_eq_some_iff.mp h
  obtain ⟨_, -, h⟩ := bind_eq_some_iff.mp h
  cases h
  exact ⟨⟨rfl, rfl⟩, batched, rfl⟩

/-- An accepted BlindFold run, on the R1CS rebuilt from the zk proofs of the stages. -/
theorem verifyBlindfold_accepted {blindfold : BlindFoldProof F G} {data : BlindfoldOpeningData F}
    {evalCommitment : G} {run : BlindfoldRun F G}
    (h : verifyBlindfold env preprocessing blindfold data stages evalCommitment = .ok run) :
    run.Accepted env preprocessing ∧
      stages.map (fun s => (s.key, s.proof)) = run.stages.map (fun s => (s.1, .zk s.2)) ∧
      ∃ proofs, stages.map (·.proof) = proofs.map .zk ∧ rebuildR1cs stages proofs data =
        some run.r1cs := by
  obtain ⟨proofs, zk, h⟩ := bind_ok.mp h
  obtain ⟨r1cs, rebuilt, h⟩ := bind_ok.mp h
  obtain ⟨_, -, h⟩ := bind_ok.mp h
  obtain ⟨_, -, h⟩ := bind_ok.mp h
  obtain ⟨_, -, h⟩ := bind_ok.mp h
  obtain ⟨_, -, h⟩ := bind_ok.mp h
  obtain ⟨_, -, h⟩ := bind_ok.mp h
  obtain ⟨_, -, h⟩ := bind_ok.mp h
  obtain ⟨gens, -, h⟩ := bind_ok.mp h
  obtain ⟨_, verified, h⟩ := bind_ok.mp h
  cases h
  have proofsEq := zkProofs_ok zk
  have lengths : stages.length = proofs.length := by simpa using congrArg List.length proofsEq
  have seconds : ((stages.map (·.key)).zip proofs).map (·.2) = proofs :=
    map_snd_zip (by simp [lengths])
  refine ⟨⟨?_, ?_, withContext_ok.mp verified⟩, ?_, proofs, proofsEq, orPanic_ok.mp rebuilt⟩
  · conv_lhs => rw [← seconds]
    simp [flatMap_map]
  · conv_lhs => rw [← seconds]
    simp [flatMap_map]
  · have zipped : stages.map (fun s => (s.key, s.proof)) =
        (stages.map (·.key)).zip (stages.map (·.proof)) := by
      rw [zip_map']
    rw [zipped, proofsEq, zip_map_right]
    rfl

omit [DecidableEq F] [AddCommGroup G] [Module F G] [DecidableEq G] in
theorem blindfoldStages_proofs (h : blindfoldStages log data acc = some stages) :
    stages.map (fun s => (s.key, s.proof)) =
      (log.sumchecks.take 4).map (fun e => (e.1, e.2.proof)) := by
  obtain ⟨s₁, made₁, h⟩ := bind_eq_some_iff.mp h
  obtain ⟨s₂, made₂, h⟩ := bind_eq_some_iff.mp h
  obtain ⟨s₃, made₃, h⟩ := bind_eq_some_iff.mp h
  obtain ⟨s₄, made₄, h⟩ := bind_eq_some_iff.mp h
  cases h
  obtain ⟨_, -, made₁⟩ := bind_eq_some_iff.mp made₁
  cases made₁
  simp [(toBlindfold_ok made₂).1, (toBlindfold_ok made₃).1, (toBlindfold_ok made₄).1,
    VerifyLog.sumchecks, BatchedStage.toStageRun]

omit [AddCommGroup G] [Module F G] [DecidableEq G] in
/-- Each sumcheck of the log is the proof's own and is checked if it is clear, and the batched
stages run on the instances of their DAGs. -/
theorem verifyStages_checked {evalCommitment : G}
    (h : verifyStages env sm = .ok (log, data, acc, evalCommitment)) :
    (∀ e ∈ log.sumchecks, sm.proof.sumcheckAt e.1 = some e.2.proof ∧ e.2.Checked) ∧
      log.blindfold = none ∧
    ∃ ramState t₂ t₂' t₃ t₃' t₄ t₄',
      buildInitialMemoryState env.params.ramWordSize sm.preprocessing.ram sm.programIo
        sm.proof.ramK = some ramState ∧
      env.dags.stage2 { sm with accumulator := log.stage2.accumulator } t₂ =
        .ok (log.stage2.instances, t₂') ∧
      env.dags.stage3 ramState { sm with accumulator := log.stage3.accumulator } t₃ =
        .ok (log.stage3.instances, t₃') ∧
      env.dags.stage4 { sm with accumulator := log.stage4.accumulator } t₄ =
        .ok (log.stage4.instances, t₄') ∧
      ∀ p, log.stage3.proof = .zk p →
        (log.stage3.instances.map (·.numRounds)).max? = some p.polyDegrees.length := by
  obtain ⟨ramState, initial, h⟩ := bind_ok.mp h
  obtain ⟨⟨stage1, _, acc₁, t₁⟩, ran₁, h⟩ := bind_ok.mp h
  obtain ⟨⟨stage2, sm₂, t₂⟩, ran₂, h⟩ := bind_ok.mp h
  obtain ⟨⟨stage3, sm₃, t₃⟩, ran₃, h⟩ := bind_ok.mp h
  obtain ⟨⟨stage4, sm₄, t₄⟩, ran₄, h⟩ := bind_ok.mp h
  obtain ⟨⟨sm₅, t₅⟩, ran₅, h⟩ := bind_ok.mp h
  obtain ⟨⟨sm₆, t₆⟩, ran₆, h⟩ := bind_ok.mp h
  obtain ⟨entry, lookup, h⟩ := bind_ok.mp h
  obtain ⟨opening, kind, h⟩ := bind_ok.mp h
  obtain ⟨_, -, h⟩ := bind_ok.mp h
  obtain ⟨_, -, h⟩ := bind_ok.mp h
  obtain ⟨⟨reduction, _, _⟩, reduced, h⟩ := bind_ok.mp h
  cases h
  obtain ⟨stored₁, checked₁⟩ := stage1Verify_checked (withContext_ok.mp ran₁)
  obtain ⟨⟨stored₂, checked₂⟩, ⟨_, rfl⟩, ⟨_, made₂⟩, -⟩ := stageVerify_checked ran₂
  obtain ⟨⟨stored₃, checked₃⟩, ⟨_, rfl⟩, ⟨_, made₃⟩, rounds⟩ := stageVerify_checked ran₃
  obtain ⟨⟨stored₄, checked₄⟩, ⟨_, rfl⟩, ⟨_, made₄⟩, -⟩ := stageVerify_checked ran₄
  obtain ⟨reducedProof, checked₅⟩ := reduceAndVerify_checked (withContext_ok.mp reduced)
  -- the advice openings do not touch the proof
  have same₅ : sm₅.proof = sm.proof :=
    ifPresent_keeps (fun s => s.1.proof = sm.proof) (fun c s s' start ran =>
      (verifyAdviceProof_proof ran).trans start) rfl ran₅
  have same₆ : sm₆.proof = sm.proof :=
    ifPresent_keeps (fun s => s.1.proof = sm.proof) (fun c s s' start ran =>
      (verifyAdviceProof_proof ran).trans start) same₅ ran₆
  have stored₅ : sm.proof.proofs .ReducedOpeningProof = some (.reducedOpeningProof opening) := by
    cases entry <;> cases orPanic_ok.mp kind
    exact same₆ ▸ orPanic_ok.mp lookup
  refine ⟨?_, rfl, ramState, _, _, _, _, _, _, orPanic_ok.mp initial, made₂, made₃, made₄, rounds⟩
  simp only [VerifyLog.sumchecks, mem_cons, not_mem_nil, or_false]
  rintro e (rfl | rfl | rfl | rfl | rfl)
  · exact ⟨sumcheckAt_stage stored₁, checked₁⟩
  · exact ⟨sumcheckAt_stage stored₂, checked₂⟩
  · exact ⟨sumcheckAt_stage stored₃, checked₃⟩
  · exact ⟨sumcheckAt_stage stored₄, checked₄⟩
  · exact ⟨(sumcheckAt_reduction stored₅).trans (congrArg some reducedProof.symm), checked₅⟩

omit [Field F] [Transcript T F G] [AddCommGroup G] [Module F G] [DecidableEq G] in
theorem fromProof_eq (h : fromProof proof io preprocessing = some sm) :
    sm.proof = proof ∧ sm.programIo = io ∧ sm.preprocessing = preprocessing := by
  obtain ⟨_, -, h⟩ := bind_eq_some_iff.mp h
  cases h
  exact ⟨rfl, rfl, rfl⟩

/-- An accepted proof with a BlindFold part, step by step. -/
theorem verify_blindfold {blindfold : BlindFoldProof F G}
    (h : verify env preprocessing io proof = .ok log)
    (part : proof.blindfoldProof = some blindfold) : ∃ sm before data acc evalCommitment stages run,
      fromProof proof io preprocessing = some sm ∧
        verifyStages env sm = .ok (before, data, acc, evalCommitment) ∧
      blindfoldStages before data acc = some stages ∧
      verifyBlindfold env preprocessing blindfold before.reduction.openingData stages
        evalCommitment = .ok run ∧
      log = { before with blindfold := some run } := by
  obtain ⟨sm, start, h⟩ := bind_ok.mp h
  obtain ⟨⟨before, data, acc, evalCommitment⟩, ran, h⟩ := bind_ok.mp h
  simp only [part] at h
  obtain ⟨stages, made, h⟩ := bind_ok.mp h
  obtain ⟨run, accepted, h⟩ := bind_ok.mp h
  cases h
  exact ⟨sm, before, data, acc, evalCommitment, stages, run, orPanic_ok.mp start, ran,
    orPanic_ok.mp made, withContext_ok.mp accepted, rfl⟩

/-- With a BlindFold part the sumchecks of the log are the stages of an accepted instance, without
it there is none. -/
theorem verify_checked (h : verify env preprocessing io proof = .ok log) :
    (∀ e ∈ log.sumchecks, proof.sumcheckAt e.1 = some e.2.proof ∧ e.2.Checked) ∧
      (proof.blindfoldProof = none → log.blindfold = none) ∧
      (proof.blindfoldProof.isSome → ∃ b, log.blindfold = some b ∧ b.Accepted env preprocessing ∧
        (log.sumchecks.take 4).map (fun e => (e.1, e.2.proof)) =
          b.stages.map (fun s => (s.1, .zk s.2))) := by
  obtain ⟨sm, start, h⟩ := bind_ok.mp h
  obtain ⟨⟨before, data, acc, evalCommitment⟩, stages, h⟩ := bind_ok.mp h
  obtain ⟨checked, none, -⟩ := verifyStages_checked stages
  rw [(fromProof_eq (orPanic_ok.mp start)).1] at checked
  cases part : proof.blindfoldProof with
  | none =>
    simp only [part] at h
    cases h
    exact ⟨checked, fun _ => none, nofun⟩
  | some blindfold =>
    simp only [part] at h
    obtain ⟨rebuilt, made, h⟩ := bind_ok.mp h
    obtain ⟨run, accepted, h⟩ := bind_ok.mp h
    cases h
    obtain ⟨instances, stagesEq, -⟩ := verifyBlindfold_accepted (withContext_ok.mp accepted)
    refine ⟨checked, nofun, fun _ => ⟨run, rfl, instances, ?_⟩⟩
    rw [← stagesEq]
    exact (blindfoldStages_proofs (orPanic_ok.mp made)).symm

omit [Field F] [DecidableEq F] [AddCommGroup G] [Module F G] [DecidableEq G] in
theorem VerifyLog.mem_sumchecks {e : ProofKeys × StageRun F G} (member : e ∈ log.sumchecks) :
    (e ∈ log.sumchecks.take 4 ∧ e.1 ∈ stageKeys) ∨
      e = (.ReducedOpeningProof, log.reduction.toStageRun) := by
  simp only [sumchecks, mem_cons, not_mem_nil, or_false] at member
  rcases member with rfl | rfl | rfl | rfl | rfl <;> simp [sumchecks, stageKeys]

/-- Without a BlindFold part no zk sumcheck is enforced. -/
theorem not_enforced_of_zk (h : verify env preprocessing io proof = .ok log)
    (absent : proof.blindfoldProof = none) {e : ProofKeys × StageRun F G}
    (member : e ∈ log.sumchecks) {p : ZkSumcheckProof G}
    (zk : proof.sumcheckAt e.1 = some (.zk p)) : ¬ Enforced env preprocessing log e.1 e.2 := by
  obtain ⟨checked, none, -⟩ := verify_checked h
  have kind : e.2.proof = .zk p := Option.some.inj ((checked e member).1.symm.trans zk)
  simp [Enforced, kind, none absent]

/-- The sumcheck of the reduction and, without a BlindFold part, all sumchecks have to be clear:
exactly the proofs of that shape have every sumcheck enforced when they are accepted. -/
theorem sumchecks_enforced_iff {env : Env F G T Com Prf Setup}
    {preprocessing : VerifierPreprocessing G Setup} {io : JoltDevice}
    {proof : JoltProof F G Com Prf} {log : VerifyLog F G}
    (h : verify env preprocessing io proof = .ok log) :
    (∀ e ∈ log.sumchecks, Enforced env preprocessing log e.1 e.2) ↔
      proof.ClearAt .ReducedOpeningProof ∧
        (proof.blindfoldProof.isSome ∨ ∀ key ∈ stageKeys, proof.ClearAt key) := by
  obtain ⟨checked, absent, present⟩ := verify_checked h
  constructor
  · intro enforced
    -- an enforced zk sumcheck is a stage of the accepted instance
    have clear : ∀ e ∈ log.sumchecks, (∀ b p, log.blindfold = some b → (e.1, p) ∉ b.stages) →
        proof.ClearAt e.1 := by
      intro e member outside
      have here := enforced e member
      have stored := (checked e member).1
      unfold Enforced at here
      split at here
      · next polys kind => exact ⟨polys, stored.trans (congrArg some kind)⟩
      · next p _ =>
        obtain ⟨b, some, -, inside⟩ := here
        exact absurd inside (outside b p some)
    constructor
    · refine clear (.ReducedOpeningProof, log.reduction.toStageRun) (by simp [VerifyLog.sumchecks])
        fun b p some inside => ?_
      cases part : proof.blindfoldProof with
      | none => simp [absent part] at some
      | some _ =>
        obtain ⟨b', same, -, stages⟩ := present (by simp [part])
        obtain rfl : b' = b := Option.some.inj (same.symm.trans some)
        have keys : b'.stages.map (·.1) = stageKeys := by
          have := congrArg (List.map Prod.fst) stages
          simpa [Function.comp_def, VerifyLog.sumchecks, stageKeys] using this.symm
        have member : ProofKeys.ReducedOpeningProof ∈ b'.stages.map (·.1) := mem_map_of_mem inside
        simp [keys, stageKeys] at member
    · cases part : proof.blindfoldProof with
      | some _ => exact .inl rfl
      | none =>
        refine .inr fun key member => ?_
        have outside : ∀ b, log.blindfold ≠ some b := by simp [absent part]
        obtain ⟨e, inside, rfl⟩ : ∃ e ∈ log.sumchecks, e.1 = key := by
          revert key
          simp [stageKeys, VerifyLog.sumchecks]
        exact clear e inside fun b _ some => absurd some (outside b)
  · rintro ⟨⟨polys, reduction⟩, stages⟩ e member
    obtain ⟨stored, compared⟩ := checked e member
    unfold Enforced
    split
    · next kind => exact compared (by simp [kind, SumcheckInstanceProof.isZk])
    · next p kind =>
      rw [kind] at stored
      rcases VerifyLog.mem_sumchecks member with ⟨stage, key⟩ | rfl
      · rcases stages with part | clear
        · obtain ⟨b, some, accepted, same⟩ := present part
          have inside :
              (e.1, e.2.proof) ∈ b.stages.map (fun s => (s.1, SumcheckInstanceProof.zk s.2)) :=
            same ▸ mem_map_of_mem stage
          obtain ⟨s, mem, eq⟩ := mem_map.mp inside
          simp only [kind, Prod.mk.injEq, SumcheckInstanceProof.zk.injEq] at eq
          exact ⟨b, some, accepted, eq.1 ▸ eq.2 ▸ mem⟩
        · obtain ⟨_, other⟩ := clear e.1 key
          simp [stored] at other
      · simp [stored] at reduction

/-! ## A small verifier -/

structure CountingTranscript where
  drawn : Nat

instance {G : Type} : Transcript CountingTranscript (ZMod 3) G where
  new _ := ⟨0⟩
  appendMessage _ t := t
  appendU64 _ t := t
  appendBytes _ t := t
  appendScalar _ t := t
  appendSerializedScalar _ t := t
  appendPoint _ t := t
  challengeScalar t := ((t.drawn + 2 : Nat), ⟨t.drawn + 1⟩)
  challengeScalarOptimized t := ((t.drawn + 2 : Nat), ⟨t.drawn + 1⟩)

def smallInstance : SumcheckInstance (ZMod 3) where
  degree := 1
  numRounds := 1
  inputClaim := some 0
  expectedOutputClaim _ _ := some 0
  normalizeOpeningPoint r := r
  cacheOpenings _ _ := some []
  inputClaimConstraint := .default
  inputConstraintChallengeValues _ := []
  outputClaimConstraint := none
  outputConstraintChallengeValues _ := []
  input_staged := default_staged
  output_staged := none_staged

/-- One instance in each batched stage and a commitment scheme whose proofs are all accepted. -/
def smallEnv : Env (ZMod 3) (ZMod 3) CountingTranscript Unit Unit Unit where
  pcs :=
    ⟨fun _ _ t _ _ _ => .ok t, fun _ _ => (), fun _ t => t, fun _ => some 0, fun _ => none,
    fun _ => ()⟩
  dags :=
    ⟨fun _ t => .ok ([smallInstance], t), fun _ _ t => .ok ([smallInstance], t),
    fun _ t => .ok ([smallInstance], t)⟩
  params := ⟨8, 8, 2, 1⟩

def smallPreprocessing : VerifierPreprocessing (ZMod 3) Unit := ⟨⟨8, []⟩, 0, (), none⟩

def smallIo : JoltDevice := ⟨⟨0, 0, 0, 0, 0, 8, 8, 8, 8, 8, 8⟩, [], [], [], [], false⟩

/-- A proof of one step without a BlindFold part, with the given claim for `Az`, stage proofs and
reduction proof. -/
def smallProof (az : ZMod 3) (stage reduction : SumcheckInstanceProof (ZMod 3) (ZMod 3)) :
    JoltProof (ZMod 3) (ZMod 3) Unit Unit where
  openingClaims := [(spartanOpening .SpartanAz, [], az), (spartanOpening .SpartanBz, [], 1),
    (spartanOpening .SpartanCz, [], 0)]
  commitments := List.replicate 24 ()
  proofs
    | .ReducedOpeningProof => some (.reducedOpeningProof ⟨reduction, [0], ()⟩)
    | .Stage1Sumcheck | .Stage2Sumcheck | .Stage3Sumcheck | .Stage4Sumcheck =>
        some (.sumcheckProof stage)
    | _ => none
  blindfoldProof := none
  untrustedAdviceCommitment := none
  trustedAdviceCommitment := none
  traceLength := 1
  ramK := 1

/-- One round that is the zero polynomial, and one that is a commitment to anything. -/
def zeroRound : SumcheckInstanceProof (ZMod 3) (ZMod 3) := .clear [[0]]

def hiddenRound : SumcheckInstanceProof (ZMod 3) (ZMod 3) := .zk ⟨[3], [1], []⟩

/-- An accepted proof of one step whose stage proofs are clear. -/
theorem sumchecks_enforced_smallProof :
    ∃ log, verify smallEnv smallPreprocessing smallIo (smallProof 0 zeroRound (.clear [])) =
      .ok log ∧
      ∀ e ∈ log.sumchecks, Enforced smallEnv smallPreprocessing log e.1 e.2 := by
  obtain ⟨log, h⟩ := exists_ok_of_isOk (x := verify smallEnv smallPreprocessing smallIo
    (smallProof 0 zeroRound (.clear []))) (by decide +kernel)
  refine ⟨log, h, (sumchecks_enforced_iff h).mpr ⟨⟨_, rfl⟩, .inr fun key member => ⟨[[0]], ?_⟩⟩⟩
  simp only [stageKeys, mem_cons, not_mem_nil, or_false] at member
  rcases member with rfl | rfl | rfl | rfl <;> rfl

/-- Hidden stage proofs without a BlindFold part are accepted though stage 1 claims `1 * 1 - 0 = 0`,
and so is a hidden reduction proof. -/
theorem hidden_sumchecks_not_enforced :
    (∃ log, verify smallEnv smallPreprocessing smallIo (smallProof 1 hiddenRound (.clear [])) =
      .ok log ∧
      ¬ Enforced smallEnv smallPreprocessing log .Stage1Sumcheck log.stage1) ∧
    ∃ log, verify smallEnv smallPreprocessing smallIo (smallProof 0 zeroRound (.zk ⟨[], [], []⟩)) =
      .ok log ∧
      ¬ Enforced smallEnv smallPreprocessing log .ReducedOpeningProof log.reduction.toStageRun := by
  constructor
  · obtain ⟨log, h⟩ := exists_ok_of_isOk (x := verify smallEnv smallPreprocessing smallIo
      (smallProof 1 hiddenRound (.clear []))) (by decide +kernel)
    exact ⟨log, h, not_enforced_of_zk h rfl (e := (.Stage1Sumcheck, log.stage1))
      (by simp [VerifyLog.sumchecks]) rfl⟩
  · obtain ⟨log, h⟩ := exists_ok_of_isOk (x := verify smallEnv smallPreprocessing smallIo
      (smallProof 0 zeroRound (.zk ⟨[], [], []⟩))) (by decide +kernel)
    exact ⟨log, h, not_enforced_of_zk h rfl (e := (.ReducedOpeningProof, log.reduction.toStageRun))
      (by simp [VerifyLog.sumchecks]) rfl⟩

end ProviaVM.Verifier
