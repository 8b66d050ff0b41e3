import ProviaVM.Blindfold.Freedom

/-!
Which openings have a variable in the rebuilt R1CS: those of the output-claim blocks, and those some
constraint asks for.
-/
namespace ProviaVM.Blindfold
open Verifier RankOne Builder List Option

variable {F : Type} [Field F]

def LayoutStep.openings : LayoutStep → List OpeningId
  | .constraintVars c _ => c.requiredOpenings
  | .extraConstraintVars c => c.requiredOpenings
  | _ => []

section Steps

variable {C : Nat} {baked : BakedPublicInputs F} {b b' : Builder F}

omit [Field F] in
/-- Variables are only added, for openings that were asked for, and each of these has one
afterwards. -/
theorem Builder.allocOpenings_openingVars (b : Builder F) (ids : List OpeningId) :
    ∃ more, (b.allocOpenings ids).openingVars = b.openingVars ++ more ∧ (∀ e ∈ more, e.1 ∈ ids) ∧
      ∀ id ∈ ids, ((b.allocOpenings ids).openingVars.lookup id).isSome := by
  induction ids generalizing b with
  | nil => exact ⟨[], by simp [allocOpenings], by simp, by simp⟩
  | cons key ids ih =>
    rw [allocOpenings]
    cases known : b.openingVars.lookup key with
    | some v =>
      obtain ⟨more, same, inside, found⟩ := ih b
      refine ⟨more, same, fun e member => mem_cons_of_mem _ (inside e member), fun id member => ?_⟩
      rcases mem_cons.mp member with rfl | later
      · simp [same, lookup_append, known]
      · exact found id later
    | none =>
      obtain ⟨more, same, inside, found⟩ :=
        ih { b with nextVar := b.nextVar + 1, openingVars := b.openingVars ++ [(key, b.nextVar)] }
      refine ⟨(key, b.nextVar) :: more, by simp [same], fun e member => ?_, fun id member => ?_⟩
      · rcases mem_cons.mp member with rfl | later
        · exact mem_cons_self
        · exact mem_cons_of_mem _ (inside e later)
      · rcases mem_cons.mp member with rfl | later
        · simp [same, lookup_append]
        · exact found id later

/-- A step gives variables to the openings it asks for and to no other. -/
theorem Builder.step_openingVars {s : LayoutStep} (h : Builder.step baked C b s = some b') :
    b'.openingVars = (b.allocOpenings s.openings).openingVars := by
  cases s with
  | constantInitialClaim k =>
    obtain ⟨_, -, result⟩ := bind_eq_some_iff.mp h
    cases result
    rfl
  | initialClaimVar k =>
    cases h
    rfl
  | constraintVars c kind =>
    cases kind with
    | initialInput =>
      obtain ⟨_, b₁, -, bound, rfl⟩ := step_input h
      exact (congrArg Builder.openingVars (bindClaim_frame bound).1).trans rfl
    | finalOutput =>
      obtain ⟨_, b₁, -, bound, rfl⟩ := step_output h
      exact (congrArg Builder.openingVars (bindClaim_frame bound).1).trans rfl
  | coeffRow round n =>
    cases h
    rfl
  | nextClaim sums =>
    obtain ⟨_, -, h⟩ := bind_eq_some_iff.mp h
    obtain ⟨_, -, h⟩ := bind_eq_some_iff.mp h
    obtain ⟨_, -, h⟩ := bind_eq_some_iff.mp h
    cases h
    rfl
  | linearFinalOutput n =>
    obtain ⟨coeffs, -, h⟩ := bind_eq_some_iff.mp h
    cases h
    rw [addFinalOutput]
    split <;> rfl
  | placeholderVars n =>
    cases h
    rfl
  | extraConstraintVars c =>
    obtain ⟨_, -, h⟩ := bind_eq_some_iff.mp h
    obtain ⟨_, added, h⟩ := bind_eq_some_iff.mp h
    cases h
    exact (congrArg Builder.openingVars (addSumOfProducts_frame added).1).trans rfl

/-- Over a whole layout: variables are only added, and exactly the openings asked for have got
one. -/
theorem Builder.steps_openingVars {steps : List LayoutStep}
    (h : steps.foldlM (Builder.step baked C) b = some b') :
    ∃ more, b'.openingVars = b.openingVars ++ more ∧ (∀ e ∈ more, ∃ s ∈ steps, e.1 ∈ s.openings) ∧
      ∀ s ∈ steps, ∀ id ∈ s.openings, (b'.openingVars.lookup id).isSome := by
  induction steps generalizing b with
  | nil =>
    cases h
    exact ⟨[], by simp, by simp, by simp⟩
  | cons s steps ih =>
    obtain ⟨b₁, first, rest⟩ := foldlM_step h
    obtain ⟨new, same₁, inside₁, found₁⟩ := b.allocOpenings_openingVars s.openings
    obtain ⟨later, same₂, inside₂, found₂⟩ := ih rest
    rw [← step_openingVars first] at same₁ found₁
    refine ⟨new ++ later, by simp [same₂, same₁], fun e member => ?_, fun s' member id asked => ?_⟩
    · rcases mem_append.mp member with here | there
      · exact ⟨s, mem_cons_self, inside₁ e here⟩
      · obtain ⟨s', member, asked⟩ := inside₂ e there
        exact ⟨s', mem_cons_of_mem _ member, asked⟩
    · rcases mem_cons.mp member with rfl | there
      · obtain ⟨v, found⟩ := isSome_iff_exists.mp (found₁ id asked)
        simp [same₂, lookup_append, found]
      · exact found₂ s' there id asked

end Steps

/-- The input constraints of all configs are among the steps. -/
theorem input_mem_stageSteps {stages : List StageConfig} {s : StageConfig}
    {c : InputClaimConstraint} (member : s ∈ stages)
    (input : s.initialInput.bind (·.constraint) = some c) (first : Bool) (round chain : Nat) :
    .constraintVars c .initialInput ∈ stageSteps first round chain stages := by
  induction stages generalizing first round chain with
  | nil => cases member
  | cons s' rest ih =>
    rw [stageSteps]
    rcases mem_cons.mp member with rfl | later
    · simp [StageConfig.opening, input]
    · exact mem_append_right _ (ih later _ _ _)

/-- An opening of an input constraint has a variable. -/
theorem build_input_openingVar {stages : List StageConfig} {extra : List OutputClaimConstraint}
    {baked : BakedPublicInputs F} {ocBlocks : List (List OpeningId)} {r1cs : VerifierR1CS F}
    (h : build stages extra baked ocBlocks = some r1cs) {s : StageConfig} {c : InputClaimConstraint}
    (member : s ∈ stages) (input : s.initialInput.bind (·.constraint) = some c) {id : OpeningId}
    (asked : id ∈ c.requiredOpenings) : (r1cs.openingVars.lookup id).isSome := by
  obtain ⟨b, walked, -, openings, -, -⟩ := build_eq h
  obtain ⟨-, -, -, found⟩ := steps_openingVars walked
  rw [openings]
  exact found _ (mem_append_left _ (input_mem_stageSteps member input true 0 0)) id asked

end ProviaVM.Blindfold
