import ProviaVM.Blindfold.Visit

/-!
What the verifier R1CS leaves open. The builder walks over the layout and adds constraints that
speak of the variables placed so far; so an assignment is built along the same walk. `Exec` says
what the layout asks of the values of the openings and of the running claim; every execution of it
is realized by a satisfying assignment.
-/
namespace ProviaVM.Blindfold
open Verifier RankOne LinearCombination List Nat Builder

variable {F : Type} [Field F]

/-! ## Builder steps -/

/-- Variables a constraint may speak of when `rounds` rounds and all variables below `next` are
placed; later rows lie between the two parts. -/
def Known (C ocStart rounds next i : Nat) : Prop := i < 1 + rounds * C ∨ ocStart ≤ i ∧ i < next

structure Builder.Bounded (C ocStart rounds : Nat) (b : Builder F) : Prop where
  rows : 1 + rounds * C ≤ ocStart
  start : ocStart ≤ b.nextVar
  openings : ∀ id v, b.openingVars.lookup id = some v → ocStart ≤ v ∧ v < b.nextVar
  constraints : ∀ r ∈ b.constraints, r.Reads (Known C ocStart rounds b.nextVar)
  claim : b.currentClaim.Reads (Known C ocStart rounds b.nextVar)

section Step

variable {C ocStart rounds : Nat} {ρ : OpeningId → F} {b b' : Builder F} {z : Nat → F}
variable {sum : LinearCombination F}

variable {next : Nat} {finalClaim : LinearCombination F} {c : OutputClaimConstraint}
  {challenges : List F} {n : Nat}

theorem Known.mono {rounds' next' i : Nat} (h : Known C ocStart rounds next i)
    (moreRounds : rounds ≤ rounds') (more : next ≤ next') : Known C ocStart rounds' next' i := by
  rcases h with row | ⟨above, below⟩
  · exact .inl (row.trans_le (Nat.add_le_add_left (Nat.mul_le_mul_right C moreRounds) 1))
  · exact .inr ⟨above, below.trans_le more⟩

omit [Field F] in
theorem Builder.Bounded.below (h : b.Bounded C ocStart rounds) {i : Nat}
    (known : Known C ocStart rounds b.nextVar i) :
    i < b.nextVar := by
  have := h.rows
  have := h.start
  rcases known with row | ⟨-, below⟩
  · omega
  · exact below

omit [Field F] in
theorem Builder.Bounded.placed (h : b.Bounded C ocStart rounds) :
    Placed (Known C ocStart rounds b.nextVar) b.openingVars :=
  ⟨.inl (by omega), fun id v found => .inr (h.openings id v found)⟩

omit [Field F] in
/-- More variables and another claim keep the bounds. -/
theorem Builder.Bounded.grow (h : b.Bounded C ocStart rounds)
    (openings : b'.openingVars = b.openingVars) (rows : b'.constraints = b.constraints)
    (more : b.nextVar ≤ b'.nextVar)
    (claim : b'.currentClaim.Reads (Known C ocStart rounds b'.nextVar)) :
    b'.Bounded C ocStart rounds where
  rows := h.rows
  start := h.start.trans more
  openings id v found := (h.openings id v (openings ▸ found)).imp_right fun lt => lt.trans_le more
  constraints r member :=
    (h.constraints r (rows ▸ member)).mono fun _ known => known.mono le_rfl more
  claim := claim

omit [Field F] in
theorem Builder.allocOpenings_frame (b : Builder F) (ids : List OpeningId) :
    b.allocOpenings ids = { b with
      nextVar := (b.allocOpenings ids).nextVar
      openingVars := (b.allocOpenings ids).openingVars } ∧
        b.nextVar ≤ (b.allocOpenings ids).nextVar := by
  induction ids generalizing b with
  | nil => exact ⟨rfl, le_rfl⟩
  | cons id ids ih =>
    rw [allocOpenings]
    cases b.openingVars.lookup id with
    | some v => exact ih b
    | none =>
      obtain ⟨same, le⟩ :=
        ih { b with nextVar := b.nextVar + 1, openingVars := b.openingVars ++ [(id, b.nextVar)] }
      exact ⟨same, (le_succ _).trans le⟩

theorem lookup_append_fresh {vars : List (OpeningId × Nat)} {id key : OpeningId} {v : Nat}
    (h : (vars ++ [(id, next)]).lookup key = some v) :
    vars.lookup key = some v ∨ key = id ∧ v = next := by
  rw [lookup_append] at h
  cases found : vars.lookup key with
  | some w => exact .inl (by simpa [found] using h)
  | none =>
    rw [found, Option.none_or, lookup_cons] at h
    cases same : key == id with
    | false => simp [same] at h
    | true =>
      simp only [same, Option.some.injEq] at h
      exact .inr ⟨eq_of_beq same, h.symm⟩

omit [Field F] in
theorem Builder.Bounded.allocOpenings (h : b.Bounded C ocStart rounds) (ids : List OpeningId) :
    (b.allocOpenings ids).Bounded C ocStart rounds := by
  induction ids generalizing b with
  | nil => exact h
  | cons id ids ih =>
    rw [Builder.allocOpenings]
    cases b.openingVars.lookup id with
    | some v => exact ih h
    | none =>
      refine ih ⟨h.rows, h.start.trans (le_succ _), fun key v found => ?_, fun r member => ?_, ?_⟩
      · rcases lookup_append_fresh found with old | ⟨-, rfl⟩
        · exact (h.openings key v old).imp_right (lt_succ_of_lt)
        · exact ⟨h.start, lt_succ_self _⟩
      · exact (h.constraints r member).mono fun _ known => known.mono le_rfl (le_succ _)
      · exact h.claim.mono fun _ known => known.mono le_rfl (le_succ _)

/-- Fresh variables of openings can be given the values of `ρ`. -/
theorem Builder.allocOpenings_holding (h : b.Bounded C ocStart rounds)
    (holding : Holding ρ b.openingVars z) (ids : List OpeningId) :
    ∃ z', Agree (· < b.nextVar) z' z ∧ Holding ρ (b.allocOpenings ids).openingVars z' := by
  induction ids generalizing b z with
  | nil => exact ⟨z, fun _ _ => rfl, holding⟩
  | cons id ids ih =>
    have single := h.allocOpenings [id]
    rw [Builder.allocOpenings] at single ⊢
    cases lookup : b.openingVars.lookup id with
    | some v => exact ih h holding
    | none =>
      simp only [lookup] at single
      have placed := h.start
      have rows := h.rows
      have updated :
          Holding ρ (b.openingVars ++ [(id, b.nextVar)]) (Function.update z b.nextVar (ρ id)) := by
        constructor
        · rw [Function.update_of_ne (by omega), holding.one]
        · intro key v found
          rcases lookup_append_fresh found with old | ⟨rfl, rfl⟩
          · rw [Function.update_of_ne (Nat.ne_of_lt (h.openings key v old).2),
              holding.openings key v old]
          · simp
      obtain ⟨z', agree, good⟩ := ih single updated
      refine ⟨z', fun i (lt : i < b.nextVar) => ?_, good⟩
      rw [agree i (lt_succ_of_lt lt), Function.update_of_ne (Nat.ne_of_lt lt)]

/-- What a constraint on openings says of the claim it is bound to. -/
def Asserts (ρ : OpeningId → F) (challenges : List F) (c : OutputClaimConstraint) (claim : F) :
    Prop :=
  c.terms = [] ∨ c.value ρ challenges = some claim

theorem Builder.addSumOfProducts_frame (h : b.addSumOfProducts finalClaim c challenges = some b') :
    b' = { b with nextVar := b'.nextVar, constraints := b'.constraints } ∧
      b.nextVar ≤ b'.nextVar := by
  rw [addSumOfProducts] at h
  split at h
  · cases h
    exact ⟨rfl, le_rfl⟩
  · obtain ⟨⟨p, results⟩, -, h⟩ := Option.bind_eq_some_iff.mp h
    cases h
    exact ⟨rfl, Nat.le_add_right _ _⟩

/-- The rows added for a sum of products speak of placed variables only. -/
theorem Builder.Bounded.addSumOfProducts (bounded : b.Bounded C ocStart rounds)
    (reads : finalClaim.Reads (Known C ocStart rounds b.nextVar))
    (h : b.addSumOfProducts finalClaim c challenges = some b') : b'.Bounded C ocStart rounds := by
  rw [Builder.addSumOfProducts] at h
  split at h
  · cases h
    exact bounded
  · obtain ⟨⟨p, results⟩, visited, h⟩ := Option.bind_eq_some_iff.mp h
    cases h
    obtain ⟨ready, ranges, -⟩ := visit_spec (ρ := fun _ => 0) (z := fun _ => 0) bounded.placed
      (fun _ => bounded.below) visited
    have grow : ∀ i, Known C ocStart rounds b.nextVar i →
        Known C ocStart rounds (b.nextVar + p.length) i :=
      fun _ known => known.mono le_rfl (Nat.le_add_right _ _)
    have fresh : ∀ i, b.nextVar ≤ i ∧ i < b.nextVar + p.length →
        Known C ocStart rounds (b.nextVar + p.length) i :=
      fun i range => .inr ⟨bounded.start.trans range.1, range.2⟩
    refine ⟨bounded.rows, bounded.start.trans (Nat.le_add_right _ _), fun id v found => ?_,
      fun r member => ?_, bounded.claim.mono grow⟩
    · exact (bounded.openings id v found).imp_right fun lt => lt.trans_le (Nat.le_add_right _ _)
    · simp only [mem_append, mem_singleton] at member
      rcases member with (old | row) | rfl
      · exact (bounded.constraints r old).mono grow
      · refine (Program.rows_reads ready r row).mono fun i => ?_
        rintro (known | range)
        · exact grow i known
        · exact fresh i range
      · refine ⟨reads_constant (grow 0 bounded.placed.zero) 1, fun t inside => ?_, reads.mono grow⟩
        obtain ⟨v, result, rfl⟩ := mem_map.mp inside
        exact fresh v (ranges v result)

/-- A constraint whose value is the claim can be satisfied without touching the variables before
it. -/
theorem Builder.addSumOfProducts_satisfiable (bounded : b.Bounded C ocStart rounds)
    (reads : finalClaim.Reads (Known C ocStart rounds b.nextVar))
    (holding : Holding ρ b.openingVars z) (satisfied : Satisfies z b.constraints)
    (h : b.addSumOfProducts finalClaim c challenges = some b')
    (asserts : Asserts ρ challenges c (finalClaim.eval z)) :
    ∃ z', Agree (· < b.nextVar) z' z ∧ Satisfies z' b'.constraints := by
  rw [Builder.addSumOfProducts] at h
  split at h
  · cases h
    exact ⟨z, fun _ _ => rfl, satisfied⟩
  · next nonempty =>
    obtain ⟨⟨p, results⟩, visited, h⟩ := Option.bind_eq_some_iff.mp h
    cases h
    obtain ⟨ready, -, value⟩ := visit_spec bounded.placed (fun _ => bounded.below) visited
    obtain ⟨values, mapped, sum⟩ := value holding
    have total : values.sum = finalClaim.eval z := by
      rcases asserts with none | some
      · simp [none] at nonempty
      · simpa [OutputClaimConstraint.value, mapped] using some
    have kept : Agree (Known C ocStart rounds b.nextVar) (p.run b.nextVar z) z :=
      fun i known => Program.run_frame b.nextVar p z i (.inl (bounded.below known))
    refine ⟨p.run b.nextVar z, fun i lt => Program.run_frame b.nextVar p z i (.inl lt), ?_⟩
    rw [satisfies_append, satisfies_append]
    refine ⟨⟨(satisfies_congr kept bounded.constraints).mpr satisfied,
      Program.run_satisfies ready (fun i known => .inl (bounded.below known)) z⟩, ?_⟩
    rw [satisfies_cons]
    refine ⟨?_, satisfies_nil _⟩
    simp [Constraint.Holds, eval_congr kept reads, eval_ones, sum, total,
      kept 0 bounded.placed.zero, holding.one]

/-! ## Rounds -/

def rowVars (C round n : Nat) : List Nat := (List.range n).map fun k => 1 + round * C + k

/-- The assignment with the given values in row `round`. -/
def setRow (C round : Nat) (coeffs : List F) (z : Nat → F) (i : Nat) : F :=
  if 1 + round * C ≤ i ∧ i < 1 + round * C + coeffs.length then coeffs.getD (i - (1 + round * C)) 0
  else z i

theorem setRow_row (C round : Nat) (coeffs : List F) (z : Nat → F) :
    (rowVars C round coeffs.length).map (setRow C round coeffs z) = coeffs := by
  apply ext_getElem
  · simp [rowVars]
  · intro k left right
    simp [rowVars, setRow, right]

def evalCoeffs (coeffs : List F) (x : F) : F := (coeffs.zipIdx.map fun c => c.1 * x ^ c.2).sum

/-- The builder after a round: sum and evaluation over the row, a fresh variable for the next
claim. -/
def Builder.afterRound (b : Builder F) (C round n : Nat) (challenge : F)
    (sum : LinearCombination F) : Builder F :=
  { b with
    nextVar := b.nextVar + 1
    pendingCoeffs := none
    challengeIdx := b.challengeIdx + 1
    currentClaim := .ofVariable b.nextVar
    constraints := b.constraints ++ [⟨sum, .constant 1, b.currentClaim⟩,
      ⟨(rowVars C round n).zipIdx.map fun c => (c.1, challenge ^ c.2), .constant 1,
        .ofVariable b.nextVar⟩] }

theorem Builder.round_eq {baked : BakedPublicInputs F} {round : Nat}
    (h : [LayoutStep.coeffRow round n, .nextClaim none].foldlM (Builder.step baked C) b = some b') :
    ∃ challenge sum, baked.challenges[b.challengeIdx]? = some challenge ∧
      Builder.roundSum (rowVars C round n) none = some sum ∧
        b' = b.afterRound C round n challenge sum := by
  simp only [foldlM_cons, Builder.step] at h
  obtain ⟨_, first, h⟩ := Option.bind_eq_some_iff.mp h
  cases first
  obtain ⟨_, second, h⟩ := Option.bind_eq_some_iff.mp h
  cases h
  obtain ⟨_, coeffs, second⟩ := Option.bind_eq_some_iff.mp second
  cases coeffs
  obtain ⟨challenge, found, second⟩ := Option.bind_eq_some_iff.mp second
  obtain ⟨sum, summed, second⟩ := Option.bind_eq_some_iff.mp second
  cases second
  exact ⟨challenge, sum, found, summed, rfl⟩

theorem rowVars_known {round v : Nat} (fits : n ≤ C) (member : v ∈ rowVars C round n) :
    Known C ocStart (round + 1) next v := by
  obtain ⟨k, lt, rfl⟩ := mem_map.mp member
  have := mem_range.mp lt
  exact .inl (by rw [succ_mul]; omega)

theorem roundSum_reads {K : Nat → Prop} {vars : List Nat}
    (h : Builder.roundSum vars none = some sum) (known : ∀ v ∈ vars, K v) : sum.Reads K := by
  cases vars with
  | nil => cases h
  | cons v rest =>
    cases h
    intro t member
    rcases mem_cons.mp member with rfl | inside
    · exact known v mem_cons_self
    · obtain ⟨w, other, rfl⟩ := mem_map.mp inside
      exact known w (mem_cons_of_mem _ other)

theorem roundSum_eval {vars : List Nat} (z : Nat → F) (h : Builder.roundSum vars none = some sum) :
    sum.eval z = (vars.map z).headD 0 + (vars.map z).sum := by
  cases vars with
  | nil => cases h
  | cons v rest =>
    cases h
    simp only [eval_cons, eval_ones, map_cons, headD_cons, sum_cons]
    rw [two_mul, add_assoc]

theorem evaluation_eval (vars : List Nat) (challenge : F) (z : Nat → F) :
    eval z (vars.zipIdx.map fun c => (c.1, challenge ^ c.2)) =
      evalCoeffs (vars.map z) challenge := by
  simp only [eval, evalCoeffs, zipIdx_map, map_map]
  congr 1
  exact map_congr_left fun c _ => mul_comm _ _

/-- A round reads its own row and the running claim; the rows of later rounds stay unread. -/
theorem Builder.Bounded.afterRound {challenge : F} (bounded : b.Bounded C ocStart rounds)
    (fits : n ≤ C) (room : 1 + (rounds + 1) * C ≤ ocStart)
    (summed : Builder.roundSum (rowVars C rounds n) none = some sum) :
    (b.afterRound C rounds n challenge sum).Bounded C ocStart (rounds + 1) := by
  have grow : ∀ i, Known C ocStart rounds b.nextVar i →
      Known C ocStart (rounds + 1) (b.nextVar + 1) i :=
    fun _ known => known.mono (le_succ _) (le_succ _)
  have claimKnown : Known C ocStart (rounds + 1) (b.nextVar + 1) b.nextVar :=
    .inr ⟨bounded.start, lt_succ_self _⟩
  have rowKnown : ∀ v ∈ rowVars C rounds n, Known C ocStart (rounds + 1) (b.nextVar + 1) v :=
    fun v member => rowVars_known fits member
  have one := reads_constant (grow 0 bounded.placed.zero) (1 : F)
  refine ⟨room, bounded.start.trans (le_succ _), fun id v found => ?_, fun r member => ?_,
    reads_ofVariable claimKnown⟩
  · exact (bounded.openings id v found).imp_right lt_succ_of_lt
  · simp only [Builder.afterRound, mem_append, mem_cons, not_mem_nil, or_false] at member
    rcases member with old | rfl | rfl
    · exact (bounded.constraints r old).mono grow
    · exact ⟨roundSum_reads summed rowKnown, one, bounded.claim.mono grow⟩
    · refine ⟨fun t inside => ?_, one, reads_ofVariable claimKnown⟩
      obtain ⟨c, indexed, rfl⟩ := mem_map.mp inside
      exact rowKnown c.1 (fst_mem_of_mem_zipIdx indexed)

/-- Any coefficients with the right sum can be put into the row of a round. -/
theorem Builder.afterRound_satisfiable {challenge : F} {coeffs : List F}
    (bounded : b.Bounded C ocStart rounds) (fits : coeffs.length ≤ C)
    (room : 1 + (rounds + 1) * C ≤ ocStart)
    (summed : Builder.roundSum (rowVars C rounds coeffs.length) none = some sum) (one : z 0 = 1)
    (satisfied : Satisfies z b.constraints)
    (claimed : coeffs.headD 0 + coeffs.sum = b.currentClaim.eval z) :
    ∃ z', Agree (Known C ocStart rounds b.nextVar) z' z ∧
      Satisfies z' (b.afterRound C rounds coeffs.length challenge sum).constraints ∧
      z' b.nextVar = evalCoeffs coeffs challenge := by
  have start := bounded.start
  rw [succ_mul] at room
  let z' := Function.update (setRow C rounds coeffs z) b.nextVar (evalCoeffs coeffs challenge)
  have row : (rowVars C rounds coeffs.length).map z' = coeffs := by
    rw [← setRow_row C rounds coeffs z]
    simp only [length_map, rowVars, length_range]
    refine map_congr_left fun v member => Function.update_of_ne ?_ _ _
    obtain ⟨k, lt, rfl⟩ := mem_map.mp member
    have := mem_range.mp lt
    omega
  have agree : Agree (Known C ocStart rounds b.nextVar) z' z := fun i known => by
    have lt := bounded.below known
    have outside : ¬ (1 + rounds * C ≤ i ∧ i < 1 + rounds * C + coeffs.length) := by
      rcases known with before | ⟨after, -⟩ <;> omega
    simp only [z', Function.update_of_ne (Nat.ne_of_lt lt), setRow, if_neg outside]
  have one' : z' 0 = 1 := (agree 0 bounded.placed.zero).trans one
  have last : z' b.nextVar = evalCoeffs coeffs challenge := Function.update_self _ _ _
  refine ⟨z', agree, ?_, last⟩
  simp only [Builder.afterRound, satisfies_append, satisfies_cons, satisfies_nil, and_true]
  refine ⟨(satisfies_congr agree bounded.constraints).mpr satisfied, ?_, ?_⟩
  · rw [Constraint.Holds, roundSum_eval z' summed, row, claimed, eval_constant, one',
      eval_congr agree bounded.claim, mul_one, mul_one]
  · simp [Constraint.Holds, evaluation_eval, row, one', last]

end Step

/-! ## Executions -/

/-- Where the walk over the layout stands: the running claim and the next challenge of each kind. -/
structure Cursor (F : Type) where
  claim : F
  challengeIdx : Nat
  inputIdx : Nat
  outputIdx : Nat
  extraIdx : Nat

/-- The steps a layout of ordinary rounds is made of: the row of each round fits and the rounds are
numbered from the first to the second number. -/
inductive Shape (C : Nat) : Nat → List LayoutStep → Nat → Prop
  | nil (r : Nat) : Shape C r [] r
  | constantClaim {r r' k : Nat} {steps : List LayoutStep} :
    Shape C r steps r' → Shape C r (.constantInitialClaim k :: steps) r'
  | claimVar {r r' k : Nat} {steps : List LayoutStep} :
    Shape C r steps r' → Shape C r (.initialClaimVar k :: steps) r'
  | constraint {r r' : Nat} {c : OutputClaimConstraint} {kind : ConstraintKind}
    {steps : List LayoutStep} :
    Shape C r steps r' → Shape C r (.constraintVars c kind :: steps) r'
  | round {r r' n : Nat} {steps : List LayoutStep} :
    n ≤ C → Shape C (r + 1) steps r' → Shape C r (.coeffRow r n :: .nextClaim none :: steps) r'
  | extra {r r' : Nat} {c : OutputClaimConstraint} {steps : List LayoutStep} :
    Shape C r steps r' → Shape C r (.extraConstraintVars c :: steps) r'

/-- What a layout asks for when the openings have the values `ρ`. The claim that starts a chain in a
variable and the round polynomials are free; a constraint on openings has to have the running claim
as value. -/
inductive Exec (ρ : OpeningId → F) (baked : BakedPublicInputs F) :
    Cursor F → List LayoutStep → Cursor F → Prop
  | nil (s : Cursor F) : Exec ρ baked s [] s
  | constantClaim {s s' : Cursor F} {k : Nat} {v : F} {steps : List LayoutStep} :
    baked.initialClaims[k]? = some v → Exec ρ baked { s with claim := v } steps s' →
    Exec ρ baked s (.constantInitialClaim k :: steps) s'
  | claimVar {s s' : Cursor F} {k : Nat} (v : F) {steps : List LayoutStep} :
    Exec ρ baked { s with claim := v } steps s' → Exec ρ baked s (.initialClaimVar k :: steps) s'
  | input {s s' : Cursor F} {c : OutputClaimConstraint} {challenges : List F}
    {steps : List LayoutStep} :
    slice baked.inputConstraintChallenges s.inputIdx c.numChallenges = some challenges →
      Asserts ρ challenges c s.claim →
    Exec ρ baked { s with inputIdx := s.inputIdx + c.numChallenges } steps s' →
    Exec ρ baked s (.constraintVars c .initialInput :: steps) s'
  | output {s s' : Cursor F} {c : OutputClaimConstraint} {challenges : List F}
    {steps : List LayoutStep} :
    slice baked.outputConstraintChallenges s.outputIdx c.numChallenges = some challenges →
      Asserts ρ challenges c s.claim →
    Exec ρ baked { s with outputIdx := s.outputIdx + c.numChallenges } steps s' →
    Exec ρ baked s (.constraintVars c .finalOutput :: steps) s'
  | round {s s' : Cursor F} {r : Nat} {challenge : F} (coeffs : List F) {steps : List LayoutStep} :
    baked.challenges[s.challengeIdx]? = some challenge → coeffs.headD 0 + coeffs.sum = s.claim →
    Exec ρ baked
      { s with claim := evalCoeffs coeffs challenge, challengeIdx := s.challengeIdx + 1 } steps s' →
    Exec ρ baked s (.coeffRow r coeffs.length :: .nextClaim none :: steps) s'
  | extra {s s' : Cursor F} {c : OutputClaimConstraint} {steps : List LayoutStep} :
    Exec ρ baked { s with extraIdx := s.extraIdx + c.numChallenges } steps s' →
    Exec ρ baked s (.extraConstraintVars c :: steps) s'

/-- The builder's indices are those of the cursor. -/
structure Tracks (s : Cursor F) (b : Builder F) : Prop where
  challengeIdx : b.challengeIdx = s.challengeIdx
  inputIdx : b.inputChallengeIdx = s.inputIdx
  outputIdx : b.outputChallengeIdx = s.outputIdx
  extraIdx : b.extraChallengeIdx = s.extraIdx

/-- The assignment satisfies what the builder has so far and agrees with the walk. -/
structure Realizes (ρ : OpeningId → F) (s : Cursor F) (b : Builder F) (z : Nat → F) :
    Prop extends Tracks s b where
  holding : Holding ρ b.openingVars z
  satisfied : Satisfies z b.constraints
  claim : b.currentClaim.eval z = s.claim

section Walk

variable {C ocStart rounds : Nat} {ρ : OpeningId → F} {baked : BakedPublicInputs F} {s : Cursor F}
  {b b' : Builder F} {z : Nat → F} {c : OutputClaimConstraint}
variable {steps : List LayoutStep} {challenges : List F} {r : Nat}

theorem Exec.append {s₁ s₂ s₃ : Cursor F} {steps' : List LayoutStep}
    (first : Exec ρ baked s₁ steps s₂) (second : Exec ρ baked s₂ steps' s₃) :
    Exec ρ baked s₁ (steps ++ steps') s₃ := by
  induction first with
  | nil => exact second
  | constantClaim found _ ih => exact .constantClaim found (ih second)
  | claimVar v _ ih => exact .claimVar v (ih second)
  | input sliced asserts _ ih => exact .input sliced asserts (ih second)
  | output sliced asserts _ ih => exact .output sliced asserts (ih second)
  | round coeffs found claimed _ ih => exact .round coeffs found claimed (ih second)
  | extra _ ih => exact .extra (ih second)

/-- The step of a constraint on the running claim, input or output. -/
def Builder.bindClaim (b : Builder F) (c : OutputClaimConstraint) (challenges : List F) :
    Option (Builder F) :=
  (b.allocOpenings c.requiredOpenings).addSumOfProducts b.currentClaim c challenges

/-- A change of other fields commutes with adding a constraint. -/
theorem Builder.addSumOfProducts_with (change : Builder F → Builder F) (b : Builder F)
    (claim : LinearCombination F) (c : OutputClaimConstraint) (challenges : List F)
    (openings : (change b).openingVars = b.openingVars) (next : (change b).nextVar = b.nextVar)
    (rows : (change b).constraints = b.constraints)
    (commutes : ∀ next rows, change { b with nextVar := next, constraints := rows } =
      { change b with nextVar := next, constraints := rows }) :
    (change b).addSumOfProducts claim c challenges =
      (b.addSumOfProducts claim c challenges).map change := by
  rw [Builder.addSumOfProducts, Builder.addSumOfProducts, openings, next, rows]
  split
  · rfl
  · cases visit (resolve b.openingVars challenges) b.nextVar c.terms with
    | none => rfl
    | some visited =>
      refine congrArg some (Eq.trans ?_ (commutes _ _).symm)
      simp only [openings]

theorem Builder.step_input
    (h : Builder.step baked C b (.constraintVars c .initialInput) = some b') :
    ∃ challenges b₁, slice baked.inputConstraintChallenges b.inputChallengeIdx c.numChallenges =
      some challenges ∧
      b.bindClaim c challenges = some b₁ ∧
      b' = { b₁ with inputChallengeIdx := b.inputChallengeIdx + c.numChallenges } := by
  have frame := (b.allocOpenings_frame c.requiredOpenings).1
  obtain ⟨challenges, sliced, h⟩ := Option.bind_eq_some_iff.mp h
  rw [Builder.addSumOfProducts_with (fun b₁ => { b₁ with inputChallengeIdx := _ }) _ _
    _ _ rfl rfl rfl
    fun _ _ => rfl] at h
  obtain ⟨b₁, added, rfl⟩ := Option.map_eq_some_iff.mp h
  rw [frame] at sliced
  exact ⟨challenges, b₁, sliced, by rw [Builder.bindClaim, ← added]; rw [frame], by rw [frame]⟩

theorem Builder.step_output
    (h : Builder.step baked C b (.constraintVars c .finalOutput) = some b') :
    ∃ challenges b₁, slice baked.outputConstraintChallenges b.outputChallengeIdx c.numChallenges =
      some challenges ∧
      b.bindClaim c challenges = some b₁ ∧
      b' = { b₁ with outputChallengeIdx := b.outputChallengeIdx + c.numChallenges } := by
  have frame := (b.allocOpenings_frame c.requiredOpenings).1
  obtain ⟨challenges, sliced, h⟩ := Option.bind_eq_some_iff.mp h
  rw [Builder.addSumOfProducts_with (fun b₁ => { b₁ with outputChallengeIdx := _ }) _
    _ _ _ rfl rfl rfl
    fun _ _ => rfl] at h
  obtain ⟨b₁, added, rfl⟩ := Option.map_eq_some_iff.mp h
  rw [frame] at sliced
  exact ⟨challenges, b₁, sliced, by rw [Builder.bindClaim, ← added]; rw [frame], by rw [frame]⟩

theorem Builder.bindClaim_frame (h : b.bindClaim c challenges = some b') :
    b' = { b with
      nextVar := b'.nextVar
      constraints := b'.constraints
      openingVars := (b.allocOpenings c.requiredOpenings).openingVars } ∧
        b.nextVar ≤ b'.nextVar := by
  obtain ⟨alloc, le⟩ := b.allocOpenings_frame c.requiredOpenings
  obtain ⟨added, le'⟩ := Builder.addSumOfProducts_frame h
  refine ⟨?_, le.trans le'⟩
  conv_lhs => rw [added, alloc]

theorem Tracks.bindClaim (tracks : Tracks s b) (h : b.bindClaim c challenges = some b') :
    Tracks s b' := by
  obtain ⟨same, -⟩ := bindClaim_frame h
  rw [same]
  exact ⟨tracks.challengeIdx, tracks.inputIdx, tracks.outputIdx, tracks.extraIdx⟩

/-- An extra constraint takes its openings first, then the variable of its value, and last the one
that blinds it. -/
theorem Builder.step_extra (h : Builder.step baked C b (.extraConstraintVars c) = some b') :
    ∃ challenges b₁, slice baked.extraConstraintChallenges b.extraChallengeIdx c.numChallenges =
      some challenges ∧
      { b.allocOpenings c.requiredOpenings with
        nextVar := (b.allocOpenings c.requiredOpenings).nextVar + 1
        extraChallengeIdx := b.extraChallengeIdx + c.numChallenges }.addSumOfProducts
          (.ofVariable (b.allocOpenings c.requiredOpenings).nextVar) c challenges = some b₁ ∧
      b' = { b₁ with
        nextVar := b₁.nextVar + 1
        extraOutputVars := b₁.extraOutputVars ++ [(b.allocOpenings c.requiredOpenings).nextVar]
        extraBlindingVars := b₁.extraBlindingVars ++ [b₁.nextVar] } := by
  have frame := (b.allocOpenings_frame c.requiredOpenings).1
  obtain ⟨challenges, sliced, h⟩ := Option.bind_eq_some_iff.mp h
  obtain ⟨b₁, added, h⟩ := Option.bind_eq_some_iff.mp h
  cases h
  have idx : (b.allocOpenings c.requiredOpenings).extraChallengeIdx = b.extraChallengeIdx := by
    rw [frame]
  rw [idx] at sliced added
  exact ⟨challenges, b₁, sliced, added, rfl⟩

/-- A constraint that was added has a value under every `ρ`. -/
theorem Builder.addSumOfProducts_asserts {finalClaim : LinearCombination F} (ρ : OpeningId → F)
    (h : b.addSumOfProducts finalClaim c challenges = some b') : ∃ v, Asserts ρ challenges c v := by
  rw [Builder.addSumOfProducts] at h
  split at h
  · next empty => exact ⟨0, .inl (List.isEmpty_iff.mp empty)⟩
  · obtain ⟨result, visited, -⟩ := Option.bind_eq_some_iff.mp h
    obtain ⟨values, mapped⟩ := visit_value_some ρ visited
    exact ⟨values.sum, .inr (by simp [OutputClaimConstraint.value, mapped])⟩

section

variable (bounded : b.Bounded C ocStart rounds)
include bounded

theorem Builder.Bounded.bindClaim (h : b.bindClaim c challenges = some b') :
    b'.Bounded C ocStart rounds := by
  obtain ⟨-, le⟩ := b.allocOpenings_frame c.requiredOpenings
  exact (bounded.allocOpenings _).addSumOfProducts (bounded.claim.mono fun _ known =>
    known.mono le_rfl le) h

/-- Constraints placed so far survive a change of variables that are not placed yet. -/
theorem Builder.Bounded.satisfies_congr {z' : Nat → F} (agree : Agree (· < b.nextVar) z' z) :
    Satisfies z' b.constraints ↔ Satisfies z b.constraints :=
  RankOne.satisfies_congr (agree.mono fun _ known => bounded.below known) bounded.constraints

theorem Builder.Bounded.claim_congr {z' : Nat → F} (agree : Agree (· < b.nextVar) z' z) :
    b.currentClaim.eval z' = b.currentClaim.eval z :=
  eval_congr (agree.mono fun _ known => bounded.below known) bounded.claim

/-- A claim that has the value of its constraint can be bound to it. -/
theorem Realizes.bindClaim (realizes : Realizes ρ s b z) (h : b.bindClaim c challenges = some b')
    (asserts : Asserts ρ challenges c s.claim) : ∃ z', Realizes ρ s b' z' := by
  obtain ⟨alloc, le⟩ := b.allocOpenings_frame c.requiredOpenings
  have boundedAlloc := bounded.allocOpenings c.requiredOpenings
  obtain ⟨z₁, agree₁, holding₁⟩ :=
    Builder.allocOpenings_holding bounded realizes.holding c.requiredOpenings
  have rows : (b.allocOpenings c.requiredOpenings).constraints = b.constraints := by rw [alloc]
  have claim₁ : b.currentClaim.eval z₁ = s.claim :=
    (bounded.claim_congr agree₁).trans realizes.claim
  obtain ⟨z₂, agree₂, satisfied₂⟩ := addSumOfProducts_satisfiable boundedAlloc
    (bounded.claim.mono fun _ known => known.mono le_rfl le) holding₁
    (rows ▸ (bounded.satisfies_congr agree₁).mpr realizes.satisfied) h (claim₁ ▸ asserts)
  obtain ⟨same, -⟩ := bindClaim_frame h
  have kept : Agree (Known C ocStart rounds (b.allocOpenings c.requiredOpenings).nextVar) z₂ z₁ :=
    agree₂.mono fun _ known => boundedAlloc.below known
  have openings : b'.openingVars = (b.allocOpenings c.requiredOpenings).openingVars := by rw [same]
  have claim : b'.currentClaim = b.currentClaim := by rw [same]
  exact ⟨z₂, realizes.toTracks.bindClaim h, openings ▸ holding₁.congr boundedAlloc.placed kept,
    satisfied₂, by rw [claim, bounded.claim_congr (agree₂.mono fun i lt => lt.trans_le le), claim₁]⟩

omit [Field F] in
/-- The builder before the constraint of an extra step is added: the output variable is placed. -/
theorem Builder.Bounded.extraStart (ids : List OpeningId) (idx : Nat) :
    { b.allocOpenings ids with
      nextVar := (b.allocOpenings ids).nextVar + 1, extraChallengeIdx :=
  idx }.Bounded C ocStart rounds := by
  have alloc := bounded.allocOpenings ids
  exact alloc.grow rfl rfl (le_succ _) (alloc.claim.mono fun _ known =>
    known.mono le_rfl (le_succ _))

theorem Builder.Bounded.extra (h : Builder.step baked C b (.extraConstraintVars c) = some b') :
    b'.Bounded C ocStart rounds := by
  obtain ⟨challenges, b₁, -, added, rfl⟩ := Builder.step_extra h
  have start := bounded.extraStart c.requiredOpenings (b.extraChallengeIdx + c.numChallenges)
  have output : Known C ocStart rounds ((b.allocOpenings c.requiredOpenings).nextVar + 1)
      (b.allocOpenings c.requiredOpenings).nextVar :=
    .inr ⟨(bounded.allocOpenings _).start, lt_succ_self _⟩
  have after := start.addSumOfProducts (reads_ofVariable output) added
  exact after.grow rfl rfl (le_succ _) (after.claim.mono fun _ known =>
    known.mono le_rfl (le_succ _))

/-- The openings that an extra constraint introduces are free: nothing before it speaks of them, and
the output variable takes the value they give. -/
theorem Builder.extra_satisfiable (holding : Holding ρ b.openingVars z)
    (satisfied : Satisfies z b.constraints)
    (h : Builder.step baked C b (.extraConstraintVars c) = some b') :
    ∃ z', Agree (· < b.nextVar) z' z ∧ Holding ρ b'.openingVars z' ∧
      Satisfies z' b'.constraints := by
  obtain ⟨challenges, b₁, -, added, rfl⟩ := Builder.step_extra h
  obtain ⟨alloc, le⟩ := b.allocOpenings_frame c.requiredOpenings
  have boundedAlloc := bounded.allocOpenings c.requiredOpenings
  have start := bounded.extraStart c.requiredOpenings (b.extraChallengeIdx + c.numChallenges)
  obtain ⟨z₁, agree₁, holding₁⟩ := Builder.allocOpenings_holding bounded holding c.requiredOpenings
  have rows : (b.allocOpenings c.requiredOpenings).constraints = b.constraints := by rw [alloc]
  obtain ⟨v, asserts⟩ := addSumOfProducts_asserts ρ added
  -- the output variable gets the value of the constraint
  let output := (b.allocOpenings c.requiredOpenings).nextVar
  have kept : Agree (· < output) (Function.update z₁ output v) z₁ :=
    fun i (lt : i < output) => Function.update_of_ne (Nat.ne_of_lt lt) _ _
  have holding₂ :
      Holding ρ (b.allocOpenings c.requiredOpenings).openingVars (Function.update z₁ output v) :=
    holding₁.congr boundedAlloc.placed (kept.mono fun _ known => boundedAlloc.below known)
  have satisfied₂ :
      Satisfies (Function.update z₁ output v) (b.allocOpenings c.requiredOpenings).constraints :=
    (boundedAlloc.satisfies_congr kept).mpr (rows ▸ (bounded.satisfies_congr agree₁).mpr satisfied)
  have value : eval (Function.update z₁ output v) (.ofVariable output) = v := by
    simp
  obtain ⟨z₃, agree₃, satisfied₃⟩ := addSumOfProducts_satisfiable start
    (reads_ofVariable (.inr ⟨boundedAlloc.start, lt_succ_self _⟩)) holding₂ satisfied₂ added
    (value.symm ▸ asserts)
  have openings : b₁.openingVars = (b.allocOpenings c.requiredOpenings).openingVars := by
    rw [(Builder.addSumOfProducts_frame added).1]
  refine ⟨z₃, fun i (lt : i < b.nextVar) => ?_, ?_, satisfied₃⟩
  · have inside : i < output := lt.trans_le le
    exact (agree₃ i (lt_succ_of_lt inside)).trans ((kept i inside).trans (agree₁ i lt))
  · exact openings ▸ holding₂.congr boundedAlloc.placed
      fun i known => agree₃ i (lt_succ_of_lt (boundedAlloc.below known))

end

variable {r' : Nat}

theorem Shape.le (shape : Shape C r steps r') : r ≤ r' := by
  induction shape with
  | nil => exact le_rfl
  | constantClaim _ ih | claimVar _ ih | constraint _ ih | extra _ ih => exact ih
  | round _ _ ih => exact (le_succ _).trans ih

theorem Shape.append {r₁ r₂ r₃ : Nat} {steps' : List LayoutStep} (first : Shape C r₁ steps r₂)
    (second : Shape C r₂ steps' r₃) : Shape C r₁ (steps ++ steps') r₃ := by
  induction first with
  | nil => exact second
  | constantClaim _ ih => exact .constantClaim (ih second)
  | claimVar _ ih => exact .claimVar (ih second)
  | constraint _ ih => exact .constraint (ih second)
  | round fits _ ih => exact .round fits (ih second)
  | extra _ ih => exact .extra (ih second)

theorem foldlM_step {x : LayoutStep} (h : (x :: steps).foldlM (Builder.step baked C) b = some b') :
    ∃ b₁, Builder.step baked C b x = some b₁ ∧ steps.foldlM (Builder.step baked C) b₁ =
      some b' := by
  exact Option.bind_eq_some_iff.mp h

theorem foldlM_round {n : Nat}
    (h : (LayoutStep.coeffRow r n :: .nextClaim none :: steps).foldlM (Builder.step baked C) b =
      some b') :
    ∃ b₁, [LayoutStep.coeffRow r n, .nextClaim none].foldlM (Builder.step baked C) b = some b₁ ∧
      steps.foldlM (Builder.step baked C) b₁ = some b' := by
  rw [show LayoutStep.coeffRow r n :: .nextClaim none :: steps =
    [LayoutStep.coeffRow r n, .nextClaim none] ++ steps from
    rfl, foldlM_append] at h
  exact Option.bind_eq_some_iff.mp h

/-- Whatever the layout, the constraints speak of placed variables only. -/
theorem Shape.bounded (shape : Shape C r steps r') (room : 1 + r' * C ≤ ocStart)
    (bounded : b.Bounded C ocStart r) (h : steps.foldlM (Builder.step baked C) b = some b') :
    b'.Bounded C ocStart r' := by
  induction shape generalizing b with
  | nil =>
    cases h
    exact bounded
  | constantClaim _ ih =>
    obtain ⟨b₁, first, rest⟩ := foldlM_step h
    obtain ⟨claim, -, result⟩ := Option.bind_eq_some_iff.mp first
    cases result
    refine ih room ?_ rest
    exact bounded.grow rfl rfl le_rfl (reads_constant bounded.placed.zero claim)
  | claimVar _ ih =>
    obtain ⟨b₁, first, rest⟩ := foldlM_step h
    cases first
    refine ih room ?_ rest
    exact bounded.grow rfl rfl (le_succ _)
      (reads_ofVariable (.inr ⟨bounded.start, lt_succ_self _⟩))
  | @constraint _ _ _ kind _ _ ih =>
    obtain ⟨b₁, first, rest⟩ := foldlM_step h
    cases kind with
    | initialInput =>
      obtain ⟨challenges, b₂, -, bound, rfl⟩ := step_input first
      have after := bounded.bindClaim bound
      refine ih room ?_ rest
      exact after.grow rfl rfl le_rfl after.claim
    | finalOutput =>
      obtain ⟨challenges, b₂, -, bound, rfl⟩ := step_output first
      have after := bounded.bindClaim bound
      refine ih room ?_ rest
      exact after.grow rfl rfl le_rfl after.claim
  | round fits shape ih =>
    obtain ⟨b₁, first, rest⟩ := foldlM_round h
    obtain ⟨challenge, sum, -, summed, rfl⟩ := Builder.round_eq first
    have roomNow := (Nat.add_le_add_left (Nat.mul_le_mul_right C shape.le) 1).trans room
    exact ih room (bounded.afterRound fits roomNow summed) rest
  | extra _ ih =>
    obtain ⟨b₁, first, rest⟩ := foldlM_step h
    exact ih room (bounded.extra first) rest

/-- Every execution of the layout is realized by an assignment that satisfies all constraints. -/
theorem Exec.satisfiable {s' : Cursor F} (exec : Exec ρ baked s steps s')
    (shape : Shape C r steps r') (room : 1 + r' * C ≤ ocStart) (bounded : b.Bounded C ocStart r)
    (realizes : Realizes ρ s b z) (h : steps.foldlM (Builder.step baked C) b = some b') :
    ∃ z', Holding ρ b'.openingVars z' ∧ Satisfies z' b'.constraints := by
  induction exec generalizing b z r with
  | nil =>
    cases h
    exact ⟨z, realizes.holding, realizes.satisfied⟩
  | constantClaim found _ ih =>
    obtain ⟨b₁, first, rest⟩ := foldlM_step h
    have bounded₁ : b₁.Bounded C _ r :=
      (Shape.constantClaim (.nil r)).bounded bounded.rows bounded (by simpa using first)
    obtain ⟨claim, found', result⟩ := Option.bind_eq_some_iff.mp first
    cases result
    cases shape with
    | constantClaim shape =>
    obtain rfl := Option.some.inj (found.symm.trans found')
    refine ih shape bounded₁ (z := z) ?_ rest
    exact { realizes with claim := by simp [realizes.holding.one] }
  | claimVar v _ ih =>
    obtain ⟨b₁, first, rest⟩ := foldlM_step h
    have bounded₁ : b₁.Bounded C _ r :=
      (Shape.claimVar (.nil r)).bounded bounded.rows bounded (by simpa using first)
    cases first
    cases shape with
    | claimVar shape =>
    have agree : Agree (· < b.nextVar) (Function.update z b.nextVar v) z :=
      fun i (lt : i < b.nextVar) => Function.update_of_ne (Nat.ne_of_lt lt) _ _
    refine ih shape bounded₁ (z := Function.update z b.nextVar v) ?_ rest
    exact { realizes with
      holding :=
        realizes.holding.congr bounded.placed (agree.mono fun _ known => bounded.below known)
      satisfied := (bounded.satisfies_congr agree).mpr realizes.satisfied
      claim := by simp }
  | input sliced asserts _ ih =>
    obtain ⟨b₁, first, rest⟩ := foldlM_step h
    obtain ⟨challenges, b₂, sliced', bound, rfl⟩ := step_input first
    cases shape with
    | constraint shape =>
    rw [realizes.inputIdx] at sliced'
    obtain rfl := Option.some.inj (sliced.symm.trans sliced')
    have bounded₂ := bounded.bindClaim bound
    obtain ⟨z', next⟩ := realizes.bindClaim bounded bound asserts
    refine ih shape ?_ (z := z') ?_ rest
    · exact bounded₂.grow rfl rfl le_rfl bounded₂.claim
    · exact { next with inputIdx := by simp [realizes.inputIdx] }
  | output sliced asserts _ ih =>
    obtain ⟨b₁, first, rest⟩ := foldlM_step h
    obtain ⟨challenges, b₂, sliced', bound, rfl⟩ := step_output first
    cases shape with
    | constraint shape =>
    rw [realizes.outputIdx] at sliced'
    obtain rfl := Option.some.inj (sliced.symm.trans sliced')
    have bounded₂ := bounded.bindClaim bound
    obtain ⟨z', next⟩ := realizes.bindClaim bounded bound asserts
    refine ih shape ?_ (z := z') ?_ rest
    · exact bounded₂.grow rfl rfl le_rfl bounded₂.claim
    · exact { next with outputIdx := by simp [realizes.outputIdx] }
  | round coeffs found claimed _ ih =>
    obtain ⟨b₁, first, rest⟩ := foldlM_round h
    obtain ⟨challenge, sum, found', summed, rfl⟩ := Builder.round_eq first
    cases shape with
    | round fits shape =>
    rw [realizes.challengeIdx] at found'
    obtain rfl := Option.some.inj (found.symm.trans found')
    have roomNow := (Nat.add_le_add_left (Nat.mul_le_mul_right C shape.le) 1).trans room
    obtain ⟨z', agree, satisfied, last⟩ :=
      afterRound_satisfiable bounded fits roomNow summed realizes.holding.one
      realizes.satisfied (claimed.trans realizes.claim.symm)
    exact ih shape (bounded.afterRound fits roomNow summed)
      ⟨⟨by simp [Builder.afterRound,
        realizes.challengeIdx], realizes.inputIdx, realizes.outputIdx, realizes.extraIdx⟩,
        realizes.holding.congr bounded.placed agree, satisfied, by
        simpa [Builder.afterRound] using last⟩ rest
  | @extra _ _ c _ _ ih =>
    obtain ⟨b₁, first, rest⟩ := foldlM_step h
    cases shape with
    | extra shape =>
    obtain ⟨z', agree, holding, satisfied⟩ :=
      extra_satisfiable bounded realizes.holding realizes.satisfied first
    have bounded₁ := bounded.extra first
    obtain ⟨challenges, b₂, -, added, rfl⟩ := Builder.step_extra first
    have alloc := (b.allocOpenings_frame c.requiredOpenings).1
    have same := (Builder.addSumOfProducts_frame added).1
    refine ih shape bounded₁ ⟨?_, holding, satisfied, ?_⟩ rest
    · rw [same, alloc]
      exact ⟨realizes.challengeIdx, realizes.inputIdx,
        realizes.outputIdx, by rw [realizes.extraIdx]⟩
    · rw [same, alloc]
      exact (bounded.claim_congr agree).trans realizes.claim

end Walk

end ProviaVM.Blindfold
