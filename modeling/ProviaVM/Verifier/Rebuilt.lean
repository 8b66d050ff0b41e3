import ProviaVM.Blindfold.Openings
import ProviaVM.Verifier.Enforcement

/-!
The R1CS that `verify_blindfold` rebuilds, seen from an accepted proof: from which instances the
constraints of a stage come, and which openings no constraint binds.
-/
namespace ProviaVM.Verifier
open Blindfold Run RankOne OutputClaimConstraint StageConfig List

variable {F G T Com Prf Setup : Type} [Field F]

/-! ## Configs of one stage -/

section Configs

variable {degrees : List Nat} {input : InputClaimConstraint} {output : Option OutputClaimConstraint}
  {s : StageConfig}

theorem mem_stageConfigs (member : s ∈ stageConfigs degrees input output) :
    s.uniskipPowerSums = none ∧
      (s.initialInput = none ∨
        s.startsNewChain = true ∧ input.terms ≠ [] ∧
          s.initialInput = some (.withConstraint input)) ∧
      (s.finalOutput = none ∨ ∃ c, output = some c ∧ s.finalOutput = some (.withConstraint c)) := by
  obtain ⟨⟨degree, round⟩, -, rfl⟩ := mem_map.mp member
  cases output with
  | none =>
    by_cases first : round = 0 <;> by_cases empty : input.terms = [] <;>
      simp [first, empty, StageConfig.new, newChain, withInputConstraint]
  | some c =>
    by_cases first : round = 0 <;> by_cases empty : input.terms = [] <;> by_cases last :
      round + 1 = degrees.length <;>
      simp_all [StageConfig.new, newChain, withInputConstraint, withConstraint]

/-- Only the first round of a stage starts a chain. -/
theorem stageConfigs_tail (member : s ∈ (stageConfigs degrees input output).tail) :
    s.startsNewChain = false := by
  cases degrees with
  | nil => cases member
  | cons degree rest =>
    obtain ⟨⟨d, round⟩, inside, rfl⟩ := mem_map.mp member
    have later : round ≠ 0 := by
      have := le_snd_of_mem_zipIdx inside
      omega
    cases output with
    | none => simp [later, StageConfig.new]
    | some c => by_cases last : round + 1 = (degree :: rest).length <;>
        simp_all [StageConfig.new, withConstraint]

/-- The first round carries the input constraint. -/
theorem stageConfigs_input (output : Option OutputClaimConstraint) (rounds : degrees ≠ [])
    (terms : input.terms ≠ []) :
    ∃ s ∈ stageConfigs degrees input output, s.initialInput = some (.withConstraint input) := by
  obtain ⟨degree, rest, rfl⟩ := exists_cons_of_ne_nil rounds
  refine ⟨_, mem_map.mpr ⟨(degree, 0), by simp, rfl⟩, ?_⟩
  cases output with
  | none => simp [terms, withInputConstraint]
  | some c => by_cases last : 0 + 1 = (degree :: rest).length <;>
      simp_all [withInputConstraint, withConstraint]

theorem stageConfigs_plain {C : Nat} (member : s ∈ stageConfigs degrees input output)
    (fits : s.polyDegree + 1 ≤ C) :
    s.Plain C := by
  obtain ⟨sums, -, last⟩ := mem_stageConfigs member
  refine ⟨sums, fits, fun out found => ?_⟩
  rcases last with none | ⟨c, -, some⟩
  · simp [none] at found
  · obtain rfl := Option.some.inj (some.symm.trans found)
    exact ⟨rfl, rfl⟩

theorem stageConfigs_unbound (member : s ∈ stageConfigs degrees input none) : s.Unbound := by
  obtain ⟨-, first, last⟩ := mem_stageConfigs member
  refine ⟨?_, fun isSome => ?_⟩
  · rcases last with none | ⟨c, absurd, -⟩
    · exact none
    · cases absurd
  · rcases first with none | ⟨starts, -, -⟩
    · simp [none] at isSome
    · exact starts

theorem stageConfigs_vanishing {ρ : OpeningId → F} (empty : input.terms = [])
    (vanishes : ∀ c, output = some c → Vanishes ρ c)
    (member : s ∈ stageConfigs degrees input output) :
    s.Vanishing ρ := by
  obtain ⟨-, first, last⟩ := mem_stageConfigs member
  refine ⟨?_, fun out c found constraint => ?_⟩
  · rcases first with none | ⟨-, terms, -⟩
    · exact none
    · exact absurd empty terms
  · rcases last with none | ⟨c', given, some⟩
    · simp [none] at found
    · obtain rfl := Option.some.inj (some.symm.trans found)
      cases constraint
      exact vanishes c given

end Configs

/-! ## Constraints of a batch -/

theorem mem_foldl_insert {ids seen : List OpeningId} {id : OpeningId} (h : id ∈ seen ∨ id ∈ ids) :
    id ∈ ids.foldl (fun seen id => if id ∈ seen then seen else seen ++ [id]) seen := by
  induction ids generalizing seen with
  | nil => simpa using h
  | cons key ids ih =>
    refine ih ?_
    beta_reduce
    by_cases known : key ∈ seen
    · rw [if_pos known]
      rcases h with old | new
      · exact .inl old
      · rcases mem_cons.mp new with rfl | later
        · exact .inl known
        · exact .inr later
    · rw [if_neg known]
      rcases h with old | new
      · exact .inl (by simp [old])
      · rcases mem_cons.mp new with rfl | later
        · exact .inl (by simp)
        · exact .inr later

/-- A batch keeps the terms and the openings of its parts. -/
theorem mem_batchFrom (cs : List OutputClaimConstraint) (j offset : Nat) (terms : List ProductTerm)
    (openings : List OpeningId) :
    (terms ≠ [] ∨ (∃ c ∈ cs, c.terms ≠ []) → (batchFrom j offset cs (terms, openings)).1 ≠ []) ∧
      ∀ id, (id ∈ openings ∨ ∃ c ∈ cs, id ∈ c.requiredOpenings) →
        id ∈ (batchFrom j offset cs (terms, openings)).2 := by
  induction cs generalizing j offset terms openings with
  | nil => simp [batchFrom]
  | cons c cs ih =>
    obtain ⟨nonempty, asked⟩ := ih (j + 1) (offset + c.numChallenges)
      (terms ++ batchTerms j offset c.terms)
      (c.requiredOpenings.foldl (fun seen id => if id ∈ seen then seen else seen ++ [id]) openings)
    refine ⟨fun h => nonempty ?_, fun id h => asked id ?_⟩
    · rcases h with old | ⟨c', member, terms'⟩
      · exact .inl (by simp [old])
      · rcases mem_cons.mp member with rfl | later
        · exact .inl (by simp [batchTerms, terms'])
        · exact .inr ⟨c', later, terms'⟩
    · rcases h with old | ⟨c', member, here⟩
      · exact .inl (mem_foldl_insert (.inl old))
      · rcases mem_cons.mp member with rfl | later
        · exact .inl (mem_foldl_insert (.inr here))
        · exact .inr ⟨c', later, here⟩

theorem batchInner_keeps {cs : List OutputClaimConstraint} {c : OutputClaimConstraint}
    (member : c ∈ cs) :
    (c.terms ≠ [] → (batchInner cs).terms ≠ []) ∧
      ∀ id ∈ c.requiredOpenings, id ∈ (batchInner cs).requiredOpenings := by
  obtain ⟨terms, openings⟩ := mem_batchFrom cs 0 cs.length [] []
  exact ⟨fun nonempty => terms (.inr ⟨c, member, nonempty⟩),
    fun id asked => openings id (.inr ⟨c, member, asked⟩)⟩

theorem batch_eq_none {cs : List (Option OutputClaimConstraint)} (member : none ∈ cs) :
    OutputClaimConstraint.batch cs = none := by
  rw [OutputClaimConstraint.batch, if_pos]
  exact any_eq_true.mpr ⟨none, member, rfl⟩

/-- A constraint vanishes if every term has an opening of value zero among its factors. -/
theorem vanishes_of_factors {ρ : OpeningId → F} {c : OutputClaimConstraint}
    (h : ∀ t ∈ c.terms, ∃ id, .opening id ∈ t.factors ∧ ρ id = 0) : Vanishes ρ c := by
  intro challenges v value
  obtain ⟨values, terms, value⟩ := Option.bind_eq_some_iff.mp value
  cases value
  refine sum_eq_zero fun x member => ?_
  obtain ⟨t, inside, value⟩ := exists_of_forall₂ (forall₂_of_mapM terms).flip member
  obtain ⟨id, factor, zero⟩ := h t inside
  obtain ⟨coeff, -, value⟩ := Option.bind_eq_some_iff.mp value
  obtain ⟨factors, found, value⟩ := Option.bind_eq_some_iff.mp value
  cases value
  obtain ⟨y, member, value⟩ := exists_of_forall₂ (forall₂_of_mapM found) factor
  have : y = 0 := zero ▸ (Option.some.inj value).symm
  rw [prod_eq_zero (this ▸ member), mul_zero]

/-- The constraint of stage 1 is `eq * (Az * Bz - Cz)`. -/
theorem stage1OutputConstraint_vanishes {ρ : OpeningId → F} (az : ρ (spartanOpening .SpartanAz) = 0)
    (cz : ρ (spartanOpening .SpartanCz) = 0) : Vanishes ρ stage1OutputConstraint := by
  refine vanishes_of_factors fun t member => ?_
  have : t.factors = [.challenge 0, .opening (spartanOpening .SpartanAz),
    .opening (spartanOpening .SpartanBz)] ∨
      t.factors = [.challenge 0, .constant (-1), .opening (spartanOpening .SpartanCz)] := by
    rcases mem_pair.mp (show t ∈ [_, _] from member) with rfl | rfl
    · exact .inl rfl
    · exact .inr rfl
  rcases this with first | second
  · exact ⟨_, by simp [first], az⟩
  · exact ⟨_, by simp [second], cz⟩

/-! ## The rebuilt system -/

/-- Openings that make the constraint of stage 1 vanish can have any values, if no later stage has
an output constraint. -/
theorem rebuildR1cs_free {ρ : OpeningId → F} (two : (2 : F) ≠ 0) {s₁ : BlindfoldStage F G}
    {rest : List (BlindfoldStage F G)} {p₁ : ZkSumcheckProof G} {ps : List (ZkSumcheckProof G)}
    {data : BlindfoldOpeningData F} {r1cs : VerifierR1CS F}
    (h : rebuildR1cs (s₁ :: rest) (p₁ :: ps) data = some r1cs)
    (empty : s₁.inputConstraint.terms = []) (claim : s₁.initialClaim = 0)
    (vanishes : ∀ c, s₁.outputConstraint = some c → Vanishes ρ c)
    (unbound : ∀ s ∈ rest, s.outputConstraint = none) :
    ∃ z, Holding ρ r1cs.openingVars z ∧ Satisfies z r1cs.constraints := by
  have later :
    ∀ s ∈
    (List.zipWith (fun (p : ZkSumcheckProof G) s => stageConfigs p.polyDegrees s.inputConstraint
      s.outputConstraint) ps rest).flatten, ∃ degrees input,
        s ∈ stageConfigs degrees input none := by
    intro s member
    obtain ⟨configs, inside, member⟩ := mem_flatten.mp member
    rw [← map_uncurry_zip_eq_zipWith] at inside
    obtain ⟨⟨p, stage⟩, pair, rfl⟩ := mem_map.mp inside
    rw [Function.uncurry_apply_pair, unbound stage (of_mem_zip pair).2] at member
    exact ⟨_, _, member⟩
  refine build_free two (fun s member => ?_)
    (fun s member => stageConfigs_vanishing empty vanishes member)
    (fun s member => stageConfigs_tail member) (fun s member => ?_) (fun _ => by simp [claim]) h
  · have fits := fits_hyraxColumns member
    rcases mem_append.mp member with here | there
    · exact stageConfigs_plain here fits
    · obtain ⟨_, _, there⟩ := later s there
      exact stageConfigs_plain there fits
  · obtain ⟨_, _, member⟩ := later s member
    exact stageConfigs_unbound member

end ProviaVM.Verifier
