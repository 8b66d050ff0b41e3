import ProviaVM.Verifier.RamDag
import ProviaVM.Verifier.Rebuilt

/-!
The evaluation of the initial memory in the R1CS of an accepted proof. In clear mode it enters the
input claims of value evaluation and final-value evaluation; in zk mode these claims start from
variables, and the input constraint subtracts the variable of the opening of `RamValInit`, which no
other constraint mentions.
-/
namespace ProviaVM.Verifier
open Blindfold Run RankOne List Option

variable {F G T Com Prf Setup : Type} [Field F] [DecidableEq F] [Transcript T F G]

/-- Every satisfying assignment gives the opening of `RamValInit` the value the verifier computes
from the bytecode, the inputs and the advice claims. -/
def InitialMemoryBound (params : Params F) (preprocessing : VerifierPreprocessing G Setup)
    (io : JoltDevice) (proof : JoltProof F G Com Prf) (log : VerifyLog F G) : Prop :=
  ∀ b ramState value v z, log.blindfold = some b →
    buildInitialMemoryState params.ramWordSize preprocessing.ram io proof.ramK = some ramState →
    outputValInit params ramState ⟨proof, io, preprocessing, log.stage3.accumulator⟩ = some value →
    b.r1cs.openingVars.lookup ramValInit = some v → z 0 = 1 → Satisfies z b.r1cs.constraints →
      z v = value

/-! ## The stages of the RAM -/

section Stages

variable {params : Params F} {others : OtherInstances F G T Com Prf Setup}
  {sm : StateManager F G Com Prf Setup} {t t' : T} {instances : List (SumcheckInstance F)}

omit [DecidableEq F] in
/-- A batched stage one of whose instances has no output constraint has none. -/
theorem toBlindfold_open {s : BatchedStage F G} {key : ProofKeys}
    {acc : VerifierOpeningAccumulator F} {b : BlindfoldStage F G}
    (open' : ∃ i ∈ s.instances, i.outputClaimConstraint = none)
    (h : s.toBlindfold key acc = some b) : b.outputConstraint = none := by
  obtain ⟨i, member, none⟩ := open'
  rw [(toBlindfold_ok h).2.2]
  exact batch_eq_none (mem_map.mpr ⟨i, member, none⟩)

omit [DecidableEq F] in
/-- The input constraint of a batched stage has the terms and openings of each of its instances. -/
theorem toBlindfold_input {s : BatchedStage F G} {key : ProofKeys}
    {acc : VerifierOpeningAccumulator F} {b : BlindfoldStage F G}
    (h : s.toBlindfold key acc = some b) {i : SumcheckInstance F} (member : i ∈ s.instances) :
    (i.inputClaimConstraint.terms ≠ [] → b.inputConstraint.terms ≠ []) ∧
      ∀ id ∈ i.inputClaimConstraint.requiredOpenings, id ∈ b.inputConstraint.requiredOpenings := by
  have batched := (toBlindfold_ok h).2.1
  rw [OutputClaimConstraint.batchRequired] at batched
  split at batched
  · rw [← Option.some.inj batched]
    exact batchInner_keeps (mem_map_of_mem member)
  · cases batched

theorem ramDags_stage2_open (h : (ramDags params others).stage2 sm t = .ok (instances, t')) :
    ∃ i ∈ instances, i.outputClaimConstraint = none := by
  obtain ⟨⟨before, _⟩, made, h⟩ := bind_ok.mp h
  obtain ⟨_, -, h⟩ := bind_ok.mp h
  cases h
  obtain ⟨i, member, none⟩ := others.open_stage2 _ _ _ _ made
  exact ⟨i, by simp [member], none⟩

/-- Stage 3: the Hamming check has no output constraint, some instance has a round, and final-value
evaluation has the evaluation of the initial memory. -/
theorem ramDags_stage3 {ramState : List (BitVec 64)}
    (h : (ramDags params others).stage3 ramState sm t = .ok (instances, t')) :
    (∃ i ∈ instances, i.outputClaimConstraint = none) ∧ (∃ i ∈ instances, 0 < i.numRounds) ∧
      (∃ value, outputValInit params ramState sm = some value) ∧
      ∃ i ∈ instances, i.inputClaimConstraint = minusInitial ramValFinal := by
  obtain ⟨⟨before, _⟩, made, h⟩ := bind_ok.mp h
  obtain ⟨valEvaluation, -, h⟩ := bind_ok.mp h
  obtain ⟨valFinal, built, h⟩ := bind_ok.mp h
  cases h
  obtain ⟨value, computed, built⟩ := bind_eq_some_iff.mp (orPanic_ok.mp built)
  obtain ⟨⟨_, claim⟩, -, built⟩ := bind_eq_some_iff.mp built
  cases built
  obtain ⟨i, member, positive⟩ := others.round_stage3 _ _ _ _ made
  exact ⟨⟨hammingBooleanity (log2 sm.proof.traceLength), by simp, rfl⟩,
    ⟨i, by simp [member], positive⟩, ⟨value, computed⟩,
    ⟨valFinalSumcheck (log2 sm.proof.traceLength) claim value, by simp, rfl⟩⟩

end Stages

/-! ## The variable of `RamValInit` -/

variable [AddCommGroup G] [Module F G] [DecidableEq G]

section Accepted

variable {pcs : CommitmentScheme F G T Com Prf Setup} {params : Params F}
  {others : OtherInstances F G T Com Prf Setup} {preprocessing : VerifierPreprocessing G Setup}
  {io : JoltDevice} {proof : JoltProof F G Com Prf} {log : VerifyLog F G}
  {blindfold : BlindFoldProof F G}
  (h : verify ⟨pcs, ramDags params others, params⟩ preprocessing io proof = .ok log)
  (part : proof.blindfoldProof = some blindfold)
include h part

/-- The evaluation of the initial memory was computed. -/
theorem outputValInit_computed :
    ∃ ramState value, buildInitialMemoryState params.ramWordSize preprocessing.ram io proof.ramK =
      some ramState ∧
      outputValInit params ramState ⟨proof, io, preprocessing, log.stage3.accumulator⟩ =
        some value := by
  obtain ⟨sm, before, data, acc, evalCommitment, stages, run, start, ran, -, -, rfl⟩ :=
    verify_blindfold h part
  obtain ⟨-, -, ramState, _, _, _, _, _, _, initial, -, made₃, -, -⟩ := verifyStages_checked ran
  obtain ⟨-, -, ⟨value, computed⟩, -⟩ := ramDags_stage3 made₃
  obtain ⟨rfl, rfl, rfl⟩ := fromProof_eq start
  exact ⟨ramState, value, initial, computed⟩

/-- The opening of `RamValInit` has a variable, and a satisfying assignment may give it any
value. -/
theorem ramValInit_free (two : (2 : F) ≠ 0) (any : F) :
    ∃ b v z, log.blindfold = some b ∧ b.r1cs.openingVars.lookup ramValInit = some v ∧ z 0 = 1 ∧
      Satisfies z b.r1cs.constraints ∧ z v = any := by
  obtain ⟨sm, before, data, acc, evalCommitment, stages, run, start, ran, made, accepted, rfl⟩ :=
    verify_blindfold h part
  obtain ⟨-, -, ramState, _, _, _, _, _, _, -, made₂, made₃, made₄, rounds⟩ :=
    verifyStages_checked ran
  obtain ⟨-, -, proofs, zk, rebuilt⟩ := verifyBlindfold_accepted accepted
  obtain ⟨s₁, first, made⟩ := bind_eq_some_iff.mp made
  obtain ⟨s₂, second, made⟩ := bind_eq_some_iff.mp made
  obtain ⟨s₃, third, made⟩ := bind_eq_some_iff.mp made
  obtain ⟨s₄, fourth, made⟩ := bind_eq_some_iff.mp made
  cases made
  obtain ⟨p₁, p₂, p₃, p₄, rfl⟩ : ∃ p₁ p₂ p₃ p₄, proofs = [p₁, p₂, p₃, p₄] := by
    have : proofs.length = 4 := by simpa using (congrArg List.length zk).symm
    exact length_eq_four.mp this
  simp only [map_cons, List.cons.injEq] at zk
  obtain ⟨open₃, ⟨long, inside, positive⟩, -, ⟨valFinal, member, input⟩⟩ := ramDags_stage3 made₃
  -- the variable is allocated by the input constraint of stage 3
  obtain ⟨v, found⟩ : ∃ v, run.r1cs.openingVars.lookup ramValInit = some v := by
    have nonempty : p₃.polyDegrees ≠ [] := by
      have kind : before.stage3.proof = .zk p₃ := (toBlindfold_ok third).1.2.symm.trans zk.2.2.1
      have le := (max?_eq_some_iff.mp (rounds p₃ kind)).2 _ (mem_map_of_mem inside)
      exact ne_nil_of_length_pos (positive.trans_le le)
    obtain ⟨terms, asked⟩ := toBlindfold_input third member
    rw [input] at terms asked
    obtain ⟨config, here, carries⟩ := stageConfigs_input s₃.outputConstraint nonempty
      (terms (by simp [minusInitial, OutputClaimConstraint.linear,
        OutputClaimConstraint.sumOfProducts, OutputClaimConstraint.new]))
    refine isSome_iff_exists.mp (build_input_openingVar rebuilt ?_
      (by rw [carries]; rfl) (asked ramValInit (by decide)))
    simp [here]
  -- every opening but this one is zero
  have zero : ∀ poly, (fun id => if id = ramValInit then any else 0) (spartanOpening poly) = 0 := by
    simp [spartanOpening, ramValInit]
  obtain ⟨_, -, first⟩ := bind_eq_some_iff.mp first
  cases first
  obtain ⟨z, holding, satisfied⟩ :=
    rebuildR1cs_free (ρ := fun id => if id = ramValInit then any else 0) two rebuilt
    rfl rfl (by
      rintro c ⟨⟩
      exact stage1OutputConstraint_vanishes (zero _) (zero _))
    (by
      intro s member
      simp only [mem_cons, not_mem_nil, or_false] at member
      rcases member with rfl | rfl | rfl
      · exact toBlindfold_open (ramDags_stage2_open made₂) second
      · exact toBlindfold_open open₃ third
      · exact toBlindfold_open (others.open_stage4 _ _ _ _ made₄) fourth)
  exact ⟨run, v, z, rfl, found, holding.one, satisfied, by simp [holding.openings _ _ found]⟩

/-- No accepted proof with a BlindFold part binds the value of `RamValInit`. -/
theorem not_initialMemoryBound (two : (2 : F) ≠ 0) :
    ¬ InitialMemoryBound params preprocessing io proof log := by
  intro bound
  obtain ⟨ramState, value, initial, computed⟩ := outputValInit_computed h part
  obtain ⟨b, v, z, run, found, one, satisfied, other⟩ := ramValInit_free h part two (value + 1)
  have same := bound b ramState value v z run initial computed found one satisfied
  exact absurd (other.symm.trans same) (by simp)

end Accepted

/-- The initial memory is bound exactly in the accepted proofs without a BlindFold part, which have
no R1CS. -/
theorem initialMemoryBound_iff {pcs : CommitmentScheme F G T Com Prf Setup} {params : Params F}
    {others : OtherInstances F G T Com Prf Setup} {preprocessing : VerifierPreprocessing G Setup}
    {io : JoltDevice} {proof : JoltProof F G Com Prf} {log : VerifyLog F G} (two : (2 : F) ≠ 0)
    (h : verify ⟨pcs, ramDags params others, params⟩ preprocessing io proof = .ok log) :
    InitialMemoryBound params preprocessing io proof log ↔ proof.blindfoldProof = none := by
  cases part : proof.blindfoldProof with
  | none =>
    refine iff_of_true (fun b _ _ _ _ given => ?_) rfl
    simp [(verify_checked h).2.1 part] at given
  | some blindfold => exact iff_of_false (not_initialMemoryBound h part two) nofun

/-! ## A small verifier -/

/-- Rows of one column are committed to as value and blinding. -/
abbrev Pair := ZMod 3 × ZMod 3

def pairGens : PedersenGenerators Pair := ⟨[(1, 0)], (0, 1)⟩

def ramParams : Params (ZMod 3) := ⟨8, 16, 2, 1⟩

/-- Stands for the read-write checking: opens `RamVal`. -/
def ramValInstance : SumcheckInstance (ZMod 3) :=
  { smallInstance with
    cacheOpenings := fun _ point => some [.virt .RamVal .RamReadWriteChecking point] }

def ramOthers : OtherInstances (ZMod 3) Pair CountingTranscript Unit Pair Unit where
  beforeStage2 _ t := .ok ([ramValInstance], t)
  afterStage2 _ t := .ok ([], t)
  beforeStage3 _ t := .ok ([smallInstance], t)
  stage4 _ t := .ok ([smallInstance], t)
  open_stage2 := by
    rintro _ _ _ _ ⟨⟩
    exact ⟨_, List.mem_singleton_self _, rfl⟩
  open_stage4 := by
    rintro _ _ _ _ ⟨⟩
    exact ⟨_, List.mem_singleton_self _, rfl⟩
  round_stage3 := by
    rintro _ _ _ _ ⟨⟩
    exact ⟨_, List.mem_singleton_self _, Nat.one_pos⟩

/-- An opening proof is the commitment to the claimed evaluation, without blinding. -/
def ramPcs : CommitmentScheme (ZMod 3) Pair CountingTranscript Unit Pair Unit where
  verify proof _ t _ claim _ := if proof = (claim, 0) then .ok t else .error (.doryError "")
  combineCommitments _ _ := ()
  appendCommitment _ t := t
  evalCommitment := some
  evalCommitmentGens _ := some ((1, 0), (0, 1))
  setup _ := ()

def ramEnv : Env (ZMod 3) Pair CountingTranscript Unit Pair Unit :=
  ⟨ramPcs, ramDags ramParams ramOthers, ramParams⟩

def ramPreprocessing : VerifierPreprocessing Pair Unit := ⟨⟨8, []⟩, 0, (), some pairGens⟩

/-- One hidden round that is the zero polynomial, and `claims` hidden output claims that are all
zero. -/
def zeroStage (claims : Nat) : SumcheckInstanceProof (ZMod 3) Pair :=
  .zk ⟨[0], [0], List.replicate claims 0⟩

/-- The honest BlindFold part for the assignment that is zero everywhere. -/
def zeroBlindfold (joint : ZMod 3) : BlindFoldProof (ZMod 3) Pair where
  randomInstance :=
    ⟨0, List.replicate 4 0, List.replicate 51 0, List.replicate 27 0, List.replicate 32 0, [0]⟩
  noncoeffRowCommitments := List.replicate 27 0
  crossTermRowCommitments := List.replicate 32 0
  spartanProof := List.replicate 5 [0, 0, 0]
  azR := 0
  bzR := 2
  czR := 0
  innerSumcheckProof := List.replicate 7 [0, 0]
  wOpening := ⟨[0], 0⟩
  eOpening := ⟨[0], 0⟩
  foldedEvalOutputs := [joint]
  foldedEvalBlindings := [0]

/-- A proof of one step over two words of RAM. All hidden claims are zero; in clear it claims `inc`
for `RamInc` in value evaluation, zero for the others, and `joint` for the joint polynomial. -/
def ramProof (inc joint : ZMod 3) : JoltProof (ZMod 3) Pair Unit Pair where
  openingClaims := [(spartanOpening .SpartanAz, [], 0), (spartanOpening .SpartanBz, [], 0),
    (spartanOpening .SpartanCz, [], 0), (.Committed .RamInc .RamValEvaluation, [], inc)]
  commitments := List.replicate 25 ()
  proofs
    | .Stage1Sumcheck => some (.sumcheckProof (zeroStage 44))
    | .Stage2Sumcheck => some (.sumcheckProof (zeroStage 3))
    | .Stage3Sumcheck => some (.sumcheckProof (zeroStage 4))
    | .Stage4Sumcheck => some (.sumcheckProof (zeroStage 0))
    | .ReducedOpeningProof => some (.reducedOpeningProof ⟨.clear [], [0, inc, 0], (joint, 0)⟩)
    | _ => none
  blindfoldProof := some (zeroBlindfold joint)
  untrustedAdviceCommitment := none
  trustedAdviceCommitment := none
  traceLength := 1
  ramK := 2

theorem ramProof_accepted :
    (verify ramEnv ramPreprocessing smallIo (ramProof 0 0)).isOk = true := by
  decide +kernel

/-- The small proof is accepted and its R1CS does not bind the initial memory. Without its BlindFold
part it is accepted too, and there is nothing to bind. -/
theorem initialMemoryBound_iff_ramProof :
    (∃ log, verify ramEnv ramPreprocessing smallIo (ramProof 0 0) = .ok log ∧
      ¬ InitialMemoryBound ramParams ramPreprocessing smallIo (ramProof 0 0) log) ∧
    ∃ log, verify ramEnv ramPreprocessing smallIo { ramProof 0 0 with blindfoldProof := none } =
        .ok log ∧
      InitialMemoryBound ramParams ramPreprocessing smallIo
        { ramProof 0 0 with blindfoldProof := none } log := by
  constructor
  · obtain ⟨log, h⟩ := exists_ok_of_isOk ramProof_accepted
    exact ⟨log, h, fun bound => nomatch (initialMemoryBound_iff (by decide) h).mp bound⟩
  · obtain ⟨log, h⟩ := exists_ok_of_isOk (x := verify ramEnv ramPreprocessing smallIo
      { ramProof 0 0 with blindfoldProof := none }) (by decide +kernel)
    exact ⟨log, h, (initialMemoryBound_iff (by decide) h).mpr rfl⟩

/-- The small proof is accepted, and its R1CS is satisfied with another initial memory than the
verifier's. -/
theorem ramProof_initial_memory_free :
    ∃ log b ramState value v z, verify ramEnv ramPreprocessing smallIo (ramProof 0 0) = .ok log ∧
      log.blindfold = some b ∧
      buildInitialMemoryState ramParams.ramWordSize ramPreprocessing.ram smallIo
        (ramProof 0 0).ramK = some ramState ∧
      outputValInit ramParams ramState ⟨ramProof 0 0, smallIo, ramPreprocessing,
        log.stage3.accumulator⟩ = some value ∧
      b.r1cs.openingVars.lookup ramValInit = some v ∧ z 0 = 1 ∧ Satisfies z b.r1cs.constraints ∧
        z v ≠ value := by
  obtain ⟨log, h⟩ := exists_ok_of_isOk ramProof_accepted
  obtain ⟨ramState, value, initial, computed⟩ := outputValInit_computed h rfl
  obtain ⟨b, v, z, run, found, one, satisfied, other⟩ :=
    ramValInit_free h rfl (by decide) (value + 1)
  exact ⟨log, b, ramState, value, v, z, h, run, initial, computed, found, one,
    satisfied, by simp [other]⟩

end ProviaVM.Verifier
