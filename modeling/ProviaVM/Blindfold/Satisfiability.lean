import Mathlib.Algebra.Field.Rat
import Mathlib.Tactic.NormNum.Basic
import ProviaVM.Blindfold.Freedom

/-!
The R1CS that `VerifierR1CSBuilder::build` makes of a list of stages can be satisfied with given
openings exactly when round polynomials lead through the layout. An assignment is read back as an
execution; the other direction is `Exec.satisfiable`.
-/
namespace ProviaVM.Blindfold
open Verifier RankOne LinearCombination Builder List Nat

variable {F : Type} [Field F]
variable {C ocStart r r' : Nat} {ρ : OpeningId → F} {baked : BakedPublicInputs F} {s : Cursor F}
  {b b' : Builder F} {z : Nat → F} {c : OutputClaimConstraint} {steps : List LayoutStep}
  {challenges : List F}

/-- The rows of a constraint on openings bind its claim to its value. -/
theorem Builder.addSumOfProducts_sound {claim : LinearCombination F}
    (bounded : b.Bounded C ocStart r) (h : b.addSumOfProducts claim c challenges = some b')
    (holding : Holding ρ b'.openingVars z) (satisfied : Satisfies z b'.constraints) :
    Satisfies z b.constraints ∧ Asserts ρ challenges c (claim.eval z) := by
  rw [(addSumOfProducts_frame h).1] at holding
  rw [addSumOfProducts] at h
  split at h
  · next empty =>
    cases h
    exact ⟨satisfied, .inl (List.isEmpty_iff.mp empty)⟩
  · obtain ⟨⟨p, results⟩, visited, h⟩ := Option.bind_eq_some_iff.mp h
    cases h
    simp only [satisfies_append, satisfies_cons, Constraint.Holds, eval_constant, eval_ones,
      holding.one, one_mul] at satisfied
    obtain ⟨⟨before, rows⟩, total, -⟩ := satisfied
    obtain ⟨-, -, value⟩ := visit_spec bounded.placed (fun _ => bounded.below) visited
    obtain ⟨values, mapped, sum⟩ := value holding
    rw [Program.run_eq_self rows, total] at sum
    exact ⟨before, .inr (by simp [OutputClaimConstraint.value, mapped, sum])⟩

omit [Field F] in
theorem Builder.allocOpenings_lookup (ids : List OpeningId) {id : OpeningId} {v : Nat}
    (found : b.openingVars.lookup id = some v) :
    (b.allocOpenings ids).openingVars.lookup id = some v := by
  induction ids generalizing b with
  | nil => exact found
  | cons id' ids ih =>
    rw [allocOpenings]
    split
    · exact ih found
    · exact ih (by rw [lookup_append, found, Option.some_or])

theorem Builder.allocOpenings_sound {ids : List OpeningId}
    (holding : Holding ρ (b.allocOpenings ids).openingVars z) :
    Holding ρ b.openingVars z :=
  ⟨holding.one, fun id v found => holding.openings id v (allocOpenings_lookup ids found)⟩

theorem Builder.bindClaim_sound (bounded : b.Bounded C ocStart r)
    (h : b.bindClaim c challenges = some b') (holding : Holding ρ b'.openingVars z)
    (satisfied : Satisfies z b'.constraints) :
    Holding ρ b.openingVars z ∧ Satisfies z b.constraints ∧
      Asserts ρ challenges c (b.currentClaim.eval z) := by
  obtain ⟨before, asserts⟩ := addSumOfProducts_sound (bounded.allocOpenings _) h holding satisfied
  rw [(bindClaim_frame h).1] at holding
  rw [(b.allocOpenings_frame _).1] at before
  exact ⟨allocOpenings_sound holding, before, asserts⟩

/-- An assignment that satisfies all constraints is an execution of the layout. -/
theorem Exec.of_satisfies (shape : Shape C r steps r') (room : 1 + r' * C ≤ ocStart)
    (bounded : b.Bounded C ocStart r) (tracks : Tracks s b)
    (claim : b.currentClaim.eval z = s.claim) (h : steps.foldlM (Builder.step baked C) b = some b')
    (holding : Holding ρ b'.openingVars z) (satisfied : Satisfies z b'.constraints) :
    Holding ρ b.openingVars z ∧ Satisfies z b.constraints ∧ ∃ s', Exec ρ baked s steps s' := by
  induction shape generalizing b s with
  | nil =>
    cases h
    exact ⟨holding, satisfied, s, .nil s⟩
  | constantClaim shape ih =>
    obtain ⟨b₁, first, rest⟩ := foldlM_step h
    have bounded₁ :=
      (Shape.constantClaim (.nil _)).bounded bounded.rows bounded (by simpa using first)
    obtain ⟨v, found, result⟩ := Option.bind_eq_some_iff.mp first
    cases result
    obtain ⟨open_, before, s', run⟩ := ih (s := { s with claim := v }) room bounded₁ { tracks with }
      (by simp [holding.one]) rest
    exact ⟨open_, before, s', .constantClaim found run⟩
  | claimVar shape ih =>
    obtain ⟨b₁, first, rest⟩ := foldlM_step h
    have bounded₁ := (Shape.claimVar (.nil _)).bounded bounded.rows bounded (by simpa using first)
    cases first
    obtain ⟨open_, before, s', run⟩ :=
      ih (s := { s with claim := z b.nextVar }) room bounded₁ { tracks with }
      (by simp) rest
    exact ⟨open_, before, s', .claimVar _ run⟩
  | @constraint _ _ _ kind _ shape ih =>
    obtain ⟨b₁, first, rest⟩ := foldlM_step h
    have bounded₁ := (Shape.constraint (.nil _)).bounded bounded.rows bounded (by simpa using first)
    cases kind with
    | initialInput =>
      obtain ⟨challenges, b₂, sliced, bound, rfl⟩ := step_input first
      obtain ⟨open₁, held, s', run⟩ := ih (s := { s with inputIdx := s.inputIdx + _ }) room bounded₁
        { tracks.bindClaim bound with inputIdx := congrArg (· + _) tracks.inputIdx }
        (by rw [(bindClaim_frame bound).1, ← claim]) rest
      obtain ⟨open_, before, asserts⟩ := bindClaim_sound bounded bound open₁ held
      exact ⟨open_, before, s', .input (tracks.inputIdx ▸ sliced) (claim ▸ asserts) run⟩
    | finalOutput =>
      obtain ⟨challenges, b₂, sliced, bound, rfl⟩ := step_output first
      obtain ⟨open₁, held, s', run⟩ :=
        ih (s := { s with outputIdx := s.outputIdx + _ }) room bounded₁
        { tracks.bindClaim bound with outputIdx := congrArg (· + _) tracks.outputIdx }
        (by rw [(bindClaim_frame bound).1, ← claim]) rest
      obtain ⟨open_, before, asserts⟩ := bindClaim_sound bounded bound open₁ held
      exact ⟨open_, before, s', .output (tracks.outputIdx ▸ sliced) (claim ▸ asserts) run⟩
  | @round r _ n _ fits shape ih =>
    obtain ⟨b₁, first, rest⟩ := foldlM_round h
    have roomNow := (Nat.add_le_add_left (Nat.mul_le_mul_right C shape.le) 1).trans room
    have bounded₁ := (Shape.round fits (.nil _)).bounded roomNow bounded first
    obtain ⟨challenge, sum, found, summed, rfl⟩ := Builder.round_eq first
    obtain ⟨coeffs, row⟩ : ∃ coeffs, coeffs = (rowVars C r n).map z := ⟨_, rfl⟩
    obtain rfl : n = coeffs.length := by simp [row, rowVars]
    obtain ⟨open_, before, s', run⟩ :=
      ih (s := { s with claim := z b.nextVar, challengeIdx := s.challengeIdx + 1 })
      room bounded₁ { tracks with challengeIdx := congrArg succ tracks.challengeIdx }
        (by simp [afterRound]) rest
    simp only [afterRound, satisfies_append, satisfies_cons, Constraint.Holds, eval_constant,
      eval_ofVariable, holding.one, mul_one, roundSum_eval z summed, evaluation_eval,
      ← row, claim] at before
    obtain ⟨before, sums, next, -⟩ := before
    rw [tracks.challengeIdx] at found
    rw [← next] at run
    exact ⟨open_, before, s', .round coeffs found sums run⟩
  | @extra _ _ c _ shape ih =>
    obtain ⟨b₁, first, rest⟩ := foldlM_step h
    have bounded₁ := bounded.extra first
    obtain ⟨challenges, b₂, -, added, rfl⟩ := Builder.step_extra first
    have alloc := (b.allocOpenings_frame c.requiredOpenings).1
    have same := (Builder.addSumOfProducts_frame added).1
    obtain ⟨open_, before, s', run⟩ :=
      ih (s := { s with extraIdx := s.extraIdx + c.numChallenges }) room bounded₁
      (by rw [same, alloc]; exact { tracks with extraIdx := by rw [tracks.extraIdx] })
      (by rw [same, alloc]; exact claim) rest
    obtain ⟨before, -⟩ := addSumOfProducts_sound (bounded.extraStart _ _) added open_ before
    rw [same] at open_
    rw [alloc] at before
    exact ⟨allocOpenings_sound open_, before, s', .extra run⟩

/-- The R1CS has a solution with the openings `ρ` exactly when the layout it was built from can be
executed on them. -/
theorem build_satisfiable_iff {stages : List StageConfig} {extra : List OutputClaimConstraint}
    {ocBlocks : List (List OpeningId)} {r1cs : VerifierR1CS F}
    (plain : ∀ s ∈ stages, s.Plain (hyraxColumns stages))
    (h : build stages extra baked ocBlocks = some r1cs) :
    (∃ z, Holding ρ r1cs.openingVars z ∧ Satisfies z r1cs.constraints) ↔
      ∃ s, Exec ρ baked ⟨0, 0, 0, 0, 0⟩ (computeWitnessLayout stages extra) s := by
  obtain ⟨b, walked, constraints, openings, -, -⟩ := build_eq h
  rw [constraints, openings]
  have shape := computeWitnessLayout_shape plain extra
  have bounded := start_bounded (F := F) stages ocBlocks
  constructor
  · rintro ⟨z, holding, satisfied⟩
    have claim : eval z (Builder.start (F := F) stages ocBlocks).currentClaim = 0 := by
      simp [Builder.start]
    exact (Exec.of_satisfies shape (room _) bounded ⟨rfl, rfl, rfl,
      rfl⟩ claim walked holding satisfied).2.2
  · rintro ⟨s, run⟩
    obtain ⟨z, realizes⟩ := start_realizes ρ stages ocBlocks
    exact run.satisfiable shape (room _) bounded realizes walked

/-- A chain that starts in the product of two openings and ends its first round in a weighted
opening, and a second stage that goes on from there to a square. -/
def twoStages : List StageConfig :=
  [((StageConfig.newChain 1 1).withInputConstraint
      (.product [.opening .TrustedAdvice, .opening .UntrustedAdvice])).withConstraint
        (.linear [(.challenge 0, .opening .UntrustedAdvice)]),
    (StageConfig.new 1 1).withConstraint
      (.product [.opening .UntrustedAdvice, .opening .UntrustedAdvice])]

def adviceOpenings : OpeningId → ℚ
  | .TrustedAdvice => 2
  | _ => 3

/-- The openings are 2 and 3: `2 * 3 = 2 * 1 + 4`, `1 + 4 * 2 = 3 * 3 = 2 * 4 + 1` and
`4 + 1 * 5 = 3 * 3`. -/
theorem twoStages_satisfiable :
    ∃ r1cs, build twoStages [] ⟨[2, 5], [0], [], [3], [], []⟩ [] = some r1cs ∧
      ∃ z, Holding adviceOpenings r1cs.openingVars z ∧
        Satisfies z r1cs.constraints := by
  obtain ⟨r1cs, built⟩ :
      ∃ r1cs, build twoStages [] ⟨[(2 : ℚ), 5], [0], [], [3], [], []⟩ [] = some r1cs := ⟨_, rfl⟩
  refine ⟨r1cs, built, (build_satisfiable_iff (fun s member => ?_) built).mpr ?_⟩
  · refine ⟨?_, fits_hyraxColumns member, ?_⟩ <;>
      (simp only [twoStages, mem_cons, not_mem_nil, or_false] at member
       rcases member with rfl | rfl <;>
         simp [StageConfig.withConstraint, ClaimBindingConfig.withConstraint,
        StageConfig.withInputConstraint, StageConfig.newChain, StageConfig.new])
  · -- the running claim: 6 at the start of the chain, 9 after each of the two rounds
    refine ⟨_, .claimVar 6 (.input rfl (.inr ?_) (.round [1, 4] rfl (by norm_num)
      (.output rfl (.inr ?_) (.round [4, 1] rfl ?_ (.output rfl (.inr ?_) (.nil _))))))⟩ <;>
      norm_num [OutputClaimConstraint.value, OutputClaimConstraint.product,
        OutputClaimConstraint.linear, OutputClaimConstraint.sumOfProducts,
        OutputClaimConstraint.new, ProductTerm.value,
        OutputClaimConstraint.challengeCount, OutputClaimConstraint.sources, ProductTerm.sources,
        ProductTerm.product, ProductTerm.scaled, ValueSource.value, evalCoeffs, adviceOpenings]

end ProviaVM.Blindfold
