import ProviaVM.Blindfold.Solvable

/-!
The rebuilt R1CS of a proof: where its variables lie, and which values of the openings it allows. A
stage without output constraint binds nothing; its first claim is computed from whatever the
openings hold, and every later claim is half of the claim before it if the round polynomials are
constant.
-/
namespace ProviaVM.Blindfold
open Verifier RankOne Builder StageConfig List Option

variable {F : Type} [Field F]
variable {C : Nat}

/-! ## Layout of the variables -/

section Place

variable {ρ : OpeningId → F} {vars : List (OpeningId × Nat)} {start : Nat}

omit [Field F] in
theorem placeBlock_range {ids : List OpeningId} {id : OpeningId} {v : Nat}
    (h : (placeBlock start ids vars).lookup id = some v) :
    vars.lookup id = some v ∨ start ≤ v ∧ v < start + ids.length := by
  induction ids generalizing start vars with
  | nil => exact .inl h
  | cons key ids ih =>
    rw [length_cons]
    rcases ih h with old | range
    · split at old
      · rcases lookup_append_fresh old with old | ⟨-, rfl⟩
        · exact .inl old
        · exact .inr (by omega)
      · exact .inl old
    · exact .inr (by omega)

/-- The openings of a block can be given the values of `ρ`. -/
theorem placeBlock_holding {z : Nat → F} (ids : List OpeningId) (pos : 0 < start)
    (below : ∀ id v, vars.lookup id = some v → v < start) (holding : Holding ρ vars z) :
    ∃ z', Holding ρ (placeBlock start ids vars) z' := by
  induction ids generalizing start vars z with
  | nil => exact ⟨z, holding⟩
  | cons key ids ih =>
    rw [placeBlock]
    split
    · refine ih (Nat.succ_pos _) (fun id v found => ?_) (z := Function.update z start (ρ key)) ⟨?_,
        fun id v found => ?_⟩
      · rcases lookup_append_fresh found with old | ⟨-, rfl⟩
        · exact Nat.lt_succ_of_lt (below id v old)
        · exact Nat.lt_succ_self _
      · rw [Function.update_of_ne (by omega), holding.one]
      · rcases lookup_append_fresh found with old | ⟨rfl, rfl⟩
        · rw [Function.update_of_ne (Nat.ne_of_lt (below id v old)), holding.openings id v old]
        · simp
    · exact ih (Nat.succ_pos _) (fun id v found => Nat.lt_succ_of_lt (below id v found)) holding

omit [Field F] in
theorem placeBlocks_range {C : Nat} (pos : 0 < C) (blocks : List (List OpeningId)) (start : Nat)
    (vars : List (OpeningId × Nat)) :
    start ≤ (placeBlocks C start blocks vars).2 ∧
      ∀ id v, (placeBlocks C start blocks vars).1.lookup id = some v →
        vars.lookup id = some v ∨ start ≤ v ∧ v < (placeBlocks C start blocks vars).2 := by
  induction blocks generalizing start vars with
  | nil => exact ⟨le_rfl, fun _ _ found => .inl found⟩
  | cons block blocks ih =>
    obtain ⟨le, ranges⟩ :=
      ih (start + divCeil block.length (max C 1) * C) (placeBlock start block vars)
    have room : block.length ≤ divCeil block.length (max C 1) * C := by
      rw [Nat.max_eq_left pos]
      exact le_divCeil_mul pos
    refine ⟨(Nat.le_add_right _ _).trans le, fun id v found => ?_⟩
    rw [placeBlocks] at found ⊢
    rcases ranges id v found with old | range
    · rcases placeBlock_range old with old | range
      · exact .inl old
      · exact .inr (by omega)
    · exact .inr (by omega)

theorem placeBlocks_holding (start : Nat) (vars : List (OpeningId × Nat)) {C : Nat} {z : Nat → F}
    (C_pos : 0 < C) (blocks : List (List OpeningId)) (pos : 0 < start)
    (below : ∀ id v, vars.lookup id = some v → v < start) (holding : Holding ρ vars z) :
    ∃ z', Holding ρ (placeBlocks C start blocks vars).1 z' := by
  induction blocks generalizing start vars z with
  | nil => exact ⟨z, holding⟩
  | cons block blocks ih =>
    obtain ⟨z₁, placed⟩ := placeBlock_holding block pos below holding
    refine ih _ _ (by omega) (fun id v found => ?_) placed
    have room : block.length ≤ divCeil block.length (max C 1) * C := by
      rw [Nat.max_eq_left C_pos]
      exact le_divCeil_mul C_pos
    rcases placeBlock_range found with old | range
    · exact (below id v old).trans_le (Nat.le_add_right _ _)
    · omega

end Place

/-- A stage of ordinary rounds that fits into `C` columns and ends, if at all, in a constraint on
openings. -/
structure StageConfig.Plain (C : Nat) (s : StageConfig) : Prop where
  sums : s.uniskipPowerSums = none
  fits : s.polyDegree + 1 ≤ C
  output : ∀ out, s.finalOutput = some out → out.exactNumWitnessVars = none ∧ out.constraint.isSome

theorem StageConfig.Plain.rounds_shape {s : StageConfig} (plain : s.Plain C) (round : Nat) :
    Shape C round (s.rounds round) (round + s.numRounds) := by
  rw [StageConfig.rounds, plain.sums]
  induction s.numRounds with
  | zero => exact .nil _
  | succ n ih =>
    rw [range_succ, flatMap_append]
    exact ih.append (.round plain.fits (.nil _))

theorem StageConfig.opening_shape (s : StageConfig) (chainStart : Bool) (chainIdx round : Nat) :
    Shape C round (s.opening chainStart chainIdx) round := by
  unfold opening
  refine (?_ : Shape C round _ round).append ?_
  · split
    · split
      · exact .claimVar (.nil _)
      · exact .constantClaim (.nil _)
    · exact .nil _
  · split
    · exact .constraint (.nil _)
    · exact .nil _

theorem StageConfig.Plain.closing_shape {s : StageConfig} (plain : s.Plain C) (round : Nat) :
    Shape C round s.closing round := by
  unfold closing
  split
  · exact .nil _
  · next out found =>
    obtain ⟨exact, constraint⟩ := plain.output out found
    obtain ⟨c, some⟩ := isSome_iff_exists.mp constraint
    simp only [exact, some]
    exact .constraint (.nil _)

theorem stageSteps_shape {stages : List StageConfig} (plain : ∀ s ∈ stages, s.Plain C)
    (first : Bool) (round chain : Nat) :
    Shape C round (stageSteps first round chain stages) (round + totalRounds stages) := by
  induction stages generalizing first round chain with
  | nil => exact .nil _
  | cons s rest ih =>
    have here := plain s mem_cons_self
    have later :=
      ih (fun s' member => plain s' (mem_cons_of_mem _ member)) false (round + s.numRounds)
      (if !first && s.startsNewChain then chain + 1 else chain)
    rw [totalRounds, map_cons, sum_cons, ← Nat.add_assoc]
    exact (((s.opening_shape _ _ _).append (here.rounds_shape round)).append
      (here.closing_shape _)).append later

/-! ## Free runs -/

section Free

variable {C : Nat} {ρ : OpeningId → F} {baked : BakedPublicInputs F} {cur : Cursor F}
  {b b' : Builder F}
variable {round chain : Nat} {s : StageConfig}

/-- The constant polynomial whose values at 0 and 1 sum to `v`, with `n` further coefficients. -/
def halved (n : Nat) (v : F) : List F := v / 2 :: List.replicate n 0

theorem halved_length (n : Nat) (v : F) : (halved n v).length = n + 1 := by simp [halved]

theorem halved_sum (two : (2 : F) ≠ 0) (n : Nat) (v : F) :
    (halved n v).headD 0 + (halved n v).sum = v := by
  have double : v / 2 + v / 2 = v := by rw [← add_div, ← two_mul, mul_div_cancel_left₀ v two]
  simpa [halved] using double

theorem evalCoeffs_halved (n : Nat) (v x : F) : evalCoeffs (halved n v) x = v / 2 := by
  have zeros :
      ∀ (m k : Nat), (((List.replicate m (0 : F)).zipIdx k).map fun c => c.1 * x ^ c.2).sum =
      0 := by
    intro m
    induction m with
    | zero => simp
    | succ m ih => simp [replicate_succ, ih]
  simp [evalCoeffs, halved, zeros]

theorem Exec.single_round {n : Nat} (two : (2 : F) ≠ 0) (tracks : Tracks cur b)
    (h : [LayoutStep.coeffRow round (n + 1), .nextClaim none].foldlM (step baked C) b = some b') :
    ∃ cur', Exec ρ baked cur [.coeffRow round (n + 1), .nextClaim none] cur' ∧ Tracks cur' b' ∧
      cur'.claim = cur.claim / 2 := by
  obtain ⟨challenge, sum, found, -, rfl⟩ := round_eq h
  rw [tracks.challengeIdx] at found
  have run :=
    Exec.round (ρ := ρ) (r := round) (halved n cur.claim) found (halved_sum two n _) (.nil _)
  rw [halved_length] at run
  exact ⟨_, run,
    ⟨by simp [afterRound, tracks.challengeIdx], tracks.inputIdx, tracks.outputIdx, tracks.extraIdx⟩,
    evalCoeffs_halved n _ _⟩

/-- Constant round polynomials halve the claim in every round. -/
theorem StageConfig.Plain.rounds_exec (plain : s.Plain C) (two : (2 : F) ≠ 0) (round : Nat)
    (tracks : Tracks cur b) (h : (s.rounds round).foldlM (step baked C) b = some b') :
    ∃ cur', Exec ρ baked cur (s.rounds round) cur' ∧ Tracks cur' b' ∧
      cur'.claim = cur.claim / 2 ^ s.numRounds := by
  rw [StageConfig.rounds, plain.sums] at h ⊢
  generalize s.numRounds = n at h ⊢
  induction n generalizing b' with
  | zero =>
    cases h
    exact ⟨cur, .nil _, tracks, by simp⟩
  | succ n ih =>
    rw [range_succ, flatMap_append] at h ⊢
    rw [foldlM_append] at h
    obtain ⟨b₁, before, last⟩ := bind_eq_some_iff.mp h
    obtain ⟨cur₁, run₁, tracks₁, claim₁⟩ := ih before
    obtain ⟨cur₂, run₂, tracks₂, claim₂⟩ := Exec.single_round two tracks₁ last
    exact ⟨cur₂, run₁.append run₂, tracks₂, by rw [claim₂, claim₁, div_div, ← pow_succ]⟩

/-- The claim a chain starts from: the baked one, or a variable that takes the value of the input
constraint. -/
theorem StageConfig.opening_exec {chainStart : Bool}
    (starts : (s.initialInput.bind (·.constraint)).isSome → chainStart) (tracks : Tracks cur b)
    (h : (s.opening chainStart chain).foldlM (step baked C) b = some b') :
    ∃ cur', Exec ρ baked cur (s.opening chainStart chain) cur' ∧ Tracks cur' b' ∧
      (s.initialInput.bind (·.constraint) = none →
        if chainStart then baked.initialClaims[chain]? = some cur'.claim
          else cur'.claim = cur.claim) := by
  cases input : s.initialInput.bind (·.constraint) with
  | some c =>
    obtain rfl : chainStart = true := starts (by simp [input])
    simp only [opening, hasInitialClaimVar, input] at h ⊢
    obtain ⟨b₁, first, h⟩ := foldlM_step h
    cases first
    obtain ⟨b₂, second, h⟩ := foldlM_step h
    cases h
    obtain ⟨challenges, b₃, sliced, bound, rfl⟩ := step_input second
    obtain ⟨v, asserts⟩ := addSumOfProducts_asserts ρ bound
    have tracked : Tracks { cur with claim := v } b₃ := by
      refine Tracks.bindClaim ?_ bound
      exact ⟨tracks.challengeIdx, tracks.inputIdx, tracks.outputIdx, tracks.extraIdx⟩
    simp only [tracks.inputIdx] at sliced
    refine ⟨_, .claimVar v (.input sliced asserts (.nil _)),
      { tracked with inputIdx := ?_ }, by simp⟩
    simp [tracks.inputIdx]
  | none =>
    cases chainStart with
    | false =>
      simp only [opening, input] at h ⊢
      cases h
      exact ⟨cur, .nil _, tracks, fun _ => rfl⟩
    | true =>
      simp only [opening, hasInitialClaimVar, input] at h ⊢
      obtain ⟨b₁, first, h⟩ := foldlM_step h
      cases h
      obtain ⟨claim, found, result⟩ := bind_eq_some_iff.mp first
      cases result
      exact ⟨{ cur with claim }, .constantClaim found (.nil _),
        ⟨tracks.challengeIdx, tracks.inputIdx, tracks.outputIdx, tracks.extraIdx⟩, fun _ => found⟩

/-- The constraint has no other value than zero under `ρ`. -/
def Vanishes (ρ : OpeningId → F) (c : OutputClaimConstraint) : Prop :=
  ∀ challenges v, c.value ρ challenges = some v → v = 0

/-- An output constraint is met by a claim of zero if it vanishes; without one nothing is asked. -/
theorem StageConfig.Plain.closing_exec (plain : s.Plain C) (cur : Cursor F)
    (output : ∀ out c, s.finalOutput = some out → out.constraint = some c →
      cur.claim = 0 ∧ Vanishes ρ c)
    (tracks : Tracks cur b) (h : s.closing.foldlM (step baked C) b = some b') :
    ∃ cur', Exec ρ baked cur s.closing cur' ∧ Tracks cur' b' ∧ cur'.claim = cur.claim := by
  cases last : s.finalOutput with
  | none =>
    simp only [closing, last] at h ⊢
    cases h
    exact ⟨cur, .nil _, tracks, rfl⟩
  | some out =>
    obtain ⟨exact, constraint⟩ := plain.output out last
    obtain ⟨c, isSome⟩ := isSome_iff_exists.mp constraint
    obtain ⟨zero, vanishes⟩ := output out c last isSome
    simp only [closing, last, exact, isSome] at h ⊢
    obtain ⟨b₁, first, h⟩ := foldlM_step h
    cases h
    obtain ⟨challenges, b₂, sliced, bound, rfl⟩ := step_output first
    obtain ⟨v, asserts⟩ := addSumOfProducts_asserts ρ bound
    have tracked := tracks.bindClaim bound
    simp only [tracks.outputIdx] at sliced
    have asserts' : Asserts ρ challenges c cur.claim := by
      rcases asserts with empty | value
      · exact .inl empty
      · exact .inr (by rw [value, vanishes _ _ value, zero])
    refine ⟨_, .output sliced asserts' (.nil _), { tracked with outputIdx := ?_ }, rfl⟩
    simp [tracks.outputIdx]

/-- All steps of one config: the claim at its end is zero if the claim at its start is. -/
theorem StageConfig.Plain.exec (plain : s.Plain C) (two : (2 : F) ≠ 0) (chainStart : Bool)
    (starts : (s.initialInput.bind (·.constraint)).isSome → chainStart)
    (output : ∀ out c, s.finalOutput = some out → out.constraint = some c →
      s.initialInput.bind (·.constraint) = none ∧
      (if chainStart then baked.initialClaims[chain]? = some 0 else cur.claim = 0) ∧ Vanishes ρ c)
    (tracks : Tracks cur b)
    (h : (s.opening chainStart chain ++ s.rounds round ++ s.closing).foldlM (step baked C) b =
      some b') :
    ∃ cur', Exec ρ baked cur (s.opening chainStart chain ++ s.rounds round ++ s.closing) cur' ∧
      Tracks cur' b' ∧
      (s.initialInput.bind (·.constraint) = none →
        (if chainStart then baked.initialClaims[chain]? = some 0 else cur.claim = 0) →
          cur'.claim = 0) := by
  rw [foldlM_append, foldlM_append] at h
  obtain ⟨b₂, h, closed⟩ := bind_eq_some_iff.mp h
  obtain ⟨b₁, opened, rounds⟩ := bind_eq_some_iff.mp h
  obtain ⟨cur₁, run₁, tracks₁, claim₁⟩ := opening_exec starts tracks opened
  obtain ⟨cur₂, run₂, tracks₂, claim₂⟩ := plain.rounds_exec two round tracks₁ rounds
  have zero : s.initialInput.bind (·.constraint) = none →
      (if chainStart then baked.initialClaims[chain]? = some 0 else cur.claim = 0) →
        cur₂.claim = 0 := by
    intro noInput start
    have := claim₁ noInput
    cases chainStart with
    | true =>
      have same : cur₁.claim = 0 := Option.some.inj (this.symm.trans start)
      rw [claim₂, same, zero_div]
    | false =>
        rw [claim₂, show cur₁.claim = cur.claim from this, show cur.claim = 0 from start, zero_div]
  obtain ⟨cur₃, run₃, tracks₃, claim₃⟩ := plain.closing_exec cur₂
    (fun out c last constraint =>
      have ⟨noInput, start, vanishes⟩ := output out c last constraint
      ⟨zero noInput start, vanishes⟩) tracks₂ closed
  exact ⟨cur₃, (run₁.append run₂).append run₃, tracks₃,
    fun noInput start => claim₃.trans (zero noInput start)⟩

/-- A config that may follow the first stage: no output constraint, and an input constraint only
where a chain starts. -/
structure StageConfig.Unbound (s : StageConfig) : Prop where
  output : s.finalOutput = none
  input : s.initialInput.isSome → s.startsNewChain

/-- A config of the first stage: no input constraint, and an output constraint only if it
vanishes. -/
structure StageConfig.Vanishing (ρ : OpeningId → F) (s : StageConfig) : Prop where
  input : s.initialInput = none
  output : ∀ out c, s.finalOutput = some out → out.constraint = some c → Vanishes ρ c

/-- Stages without output constraints run whatever the openings hold. -/
theorem stageSteps_exec_unbound {stages : List StageConfig} (two : (2 : F) ≠ 0)
    (plain : ∀ s ∈ stages, s.Plain C ∧ s.Unbound) {first : Bool} (tracks : Tracks cur b)
    (h : (stageSteps first round chain stages).foldlM (step baked C) b = some b') :
    ∃ cur', Exec ρ baked cur (stageSteps first round chain stages) cur' ∧ Tracks cur' b' := by
  induction stages generalizing first round chain cur b with
  | nil =>
    cases h
    exact ⟨cur, .nil _, tracks⟩
  | cons s rest ih =>
    obtain ⟨plainHere, unbound⟩ := plain s mem_cons_self
    rw [stageSteps, foldlM_append] at h
    obtain ⟨b₁, here, later⟩ := bind_eq_some_iff.mp h
    have starts : (s.initialInput.bind (·.constraint)).isSome → (first || s.startsNewChain) :=
      fun isSome => by
      simp [unbound.input (by cases given : s.initialInput <;> simp_all)]
    obtain ⟨cur₁, run₁, tracks₁, -⟩ := plainHere.exec two _ starts
      (fun out c last => by simp [unbound.output] at last) tracks here
    obtain ⟨cur₂, run₂, tracks₂⟩ :=
      ih (fun s' member => plain s' (mem_cons_of_mem _ member)) tracks₁ later
    exact ⟨cur₂, run₁.append run₂, tracks₂⟩

/-- The first stage keeps its claim at zero; the stages after it are unbound. -/
theorem stageSteps_exec_vanishing {zeros stages : List StageConfig} (two : (2 : F) ≠ 0)
    (vanishing : ∀ s ∈ zeros, s.Plain C ∧ s.Vanishing ρ ∧ s.startsNewChain = false)
    (plain : ∀ s ∈ stages, s.Plain C ∧ s.Unbound) (claim : cur.claim = 0) (tracks : Tracks cur b)
    (h : (stageSteps false round chain (zeros ++ stages)).foldlM (step baked C) b = some b') :
    ∃ cur', Exec ρ baked cur (stageSteps false round chain (zeros ++ stages)) cur' ∧
      Tracks cur' b' := by
  induction zeros generalizing round chain cur b with
  | nil => exact stageSteps_exec_unbound two plain tracks h
  | cons s rest ih =>
    obtain ⟨plainHere, zero, continues⟩ := vanishing s mem_cons_self
    have noInput : s.initialInput.bind (·.constraint) = none := by simp [zero.input]
    rw [cons_append, stageSteps, foldlM_append] at h
    rw [cons_append, stageSteps]
    simp only [continues] at h ⊢
    obtain ⟨b₁, here, later⟩ := bind_eq_some_iff.mp h
    obtain ⟨cur₁, run₁, tracks₁, claim₁⟩ := plainHere.exec (ρ := ρ) two false (by simp [noInput])
      (fun out c last constraint =>
        ⟨noInput, by simpa using claim, zero.output out c last constraint⟩) tracks here
    obtain ⟨cur₂, run₂, tracks₂⟩ := ih (fun s' member => vanishing s' (mem_cons_of_mem _ member))
      (claim₁ noInput (by simpa using claim)) tracks₁ later
    exact ⟨cur₂, run₁.append run₂, tracks₂⟩

end Free

/-! ## The rebuilt system -/

section Build

variable {ρ : OpeningId → F} {baked : BakedPublicInputs F} {stages : List StageConfig}
  {extra : List OutputClaimConstraint} {ocBlocks : List (List OpeningId)} {r1cs : VerifierR1CS F}

theorem hyraxColumns_pos (stages : List StageConfig) : 0 < hyraxColumns stages :=
  nextPowerOfTwo_pos _

theorem fits_hyraxColumns {s : StageConfig} (member : s ∈ stages) :
    s.polyDegree + 1 ≤ hyraxColumns stages := by
  refine le_trans ?_ (le_nextPowerOfTwo _)
  obtain ⟨m, found⟩ : ∃ m, (stages.map (·.polyDegree + 1)).max? = some m := by
    rw [← isSome_iff_exists, isSome_max?_iff]
    exact ne_nil_of_mem (mem_map_of_mem member)
  rw [found]
  exact (max?_eq_some_iff.mp found).2 _ (mem_map_of_mem member)

theorem totalRounds_le_coeffRows (stages : List StageConfig) :
    totalRounds stages ≤ coeffRows stages := by
  unfold coeffRows
  split
  · omega
  · exact le_nextPowerOfTwo _

theorem room (stages : List StageConfig) :
    1 + totalRounds stages * hyraxColumns stages ≤ ocStart stages :=
  Nat.add_le_add_left (Nat.mul_le_mul_right _ (totalRounds_le_coeffRows stages)) 1

omit [Field F] in
theorem Builder.start_bounded (stages : List StageConfig) (ocBlocks : List (List OpeningId)) :
    (Builder.start (F := F) stages ocBlocks).Bounded (hyraxColumns stages) (ocStart stages) 0 := by
  obtain ⟨le, ranges⟩ := placeBlocks_range (hyraxColumns_pos stages) ocBlocks (ocStart stages) []
  refine ⟨?_, le, fun id v found => ?_, by simp [Builder.start], by simp [Builder.start,
    LinearCombination.Reads]⟩
  · rw [ocStart]
    omega
  · rcases ranges id v found with none | range
    · cases none
    · exact range

theorem Builder.start_realizes (ρ : OpeningId → F) (stages : List StageConfig)
    (ocBlocks : List (List OpeningId)) :
    ∃ z, Realizes ρ ⟨0, 0, 0, 0, 0⟩ (Builder.start stages ocBlocks) z := by
  obtain ⟨z, holding⟩ := placeBlocks_holding (ρ := ρ) (ocStart stages) [] (z := fun _ => 1)
    (hyraxColumns_pos stages) ocBlocks (by rw [ocStart]; omega) (fun _ _ found => by cases found)
    ⟨rfl, fun _ _ found => by cases found⟩
  exact ⟨z, ⟨rfl, rfl, rfl, rfl⟩, holding, by simp [Builder.start], rfl⟩

/-- The builder a successful `build` ends with. -/
theorem build_eq (h : build stages extra baked ocBlocks = some r1cs) :
    ∃ b, (computeWitnessLayout stages extra).foldlM (step baked (hyraxColumns stages))
        (Builder.start stages ocBlocks) = some b ∧
      r1cs.constraints = b.constraints ∧ r1cs.openingVars = b.openingVars ∧
        r1cs.extraOutputVars = b.extraOutputVars ∧
      r1cs.hyrax = computeHyraxParams stages
        (b.nextVar - (Builder.start (F := F) stages ocBlocks).nextVar)
        (((Builder.start (F := F) stages ocBlocks).nextVar - ocStart stages) /
          max (hyraxColumns stages) 1) := by
  obtain ⟨b, walked, result⟩ := bind_eq_some_iff.mp h
  cases result
  exact ⟨b, walked, rfl, rfl, rfl, rfl⟩

theorem extra_shape (C round : Nat) (extra : List OutputClaimConstraint) :
    Shape C round (extra.map .extraConstraintVars) round := by
  induction extra with
  | nil => exact .nil _
  | cons c rest ih => exact .extra ih

theorem extra_exec (baked : BakedPublicInputs F) (cur : Cursor F)
    (extra : List OutputClaimConstraint) :
    ∃ cur', Exec ρ baked cur (extra.map .extraConstraintVars) cur' := by
  induction extra generalizing cur with
  | nil => exact ⟨cur, .nil _⟩
  | cons c rest ih =>
    obtain ⟨cur', run⟩ := ih { cur with extraIdx := cur.extraIdx + c.numChallenges }
    exact ⟨cur', .extra run⟩

theorem computeWitnessLayout_shape (plain : ∀ s ∈ stages, s.Plain (hyraxColumns stages))
    (extra : List OutputClaimConstraint) :
    Shape (hyraxColumns stages) 0 (computeWitnessLayout stages extra) (totalRounds stages) := by
  have steps := stageSteps_shape plain true 0 0
  rw [Nat.zero_add] at steps
  exact steps.append (extra_shape _ _ extra)

/-- Openings that make the constraint of the first stage vanish can be completed to a satisfying
assignment: no other stage binds them. -/
theorem build_free {zeros rest : List StageConfig} (two : (2 : F) ≠ 0)
    (plain : ∀ s ∈ zeros ++ rest, s.Plain (hyraxColumns (zeros ++ rest)))
    (vanishing : ∀ s ∈ zeros, s.Vanishing ρ)
    (continues : ∀ s ∈ zeros.tail, s.startsNewChain = false) (unbound : ∀ s ∈ rest, s.Unbound)
    (initial : zeros ≠ [] → baked.initialClaims[0]? = some 0)
    (h : build (zeros ++ rest) extra baked ocBlocks = some r1cs) :
    ∃ z, Holding ρ r1cs.openingVars z ∧ Satisfies z r1cs.constraints := by
  obtain ⟨b, walked, constraints, openings, -, -⟩ := build_eq h
  obtain ⟨z, realizes⟩ := start_realizes ρ (zeros ++ rest) ocBlocks
  have walk := walked
  rw [computeWitnessLayout, foldlM_append] at walk
  obtain ⟨b₁, stagesWalked, -⟩ := bind_eq_some_iff.mp walk
  have free : ∀ s ∈ rest, s.Plain (hyraxColumns (zeros ++ rest)) ∧ s.Unbound :=
    fun s member => ⟨plain s (mem_append_right _ member), unbound s member⟩
  obtain ⟨cur₁, run, -⟩ :
    ∃ cur', Exec ρ baked ⟨0, 0, 0, 0, 0⟩ (stageSteps true 0 0 (zeros ++ rest)) cur' ∧
      Tracks cur' b₁ := by
    cases zeros with
    | nil => exact stageSteps_exec_unbound two free realizes.toTracks stagesWalked
    | cons s tail =>
      have plainHere := plain s (by simp)
      have zero := vanishing s mem_cons_self
      have noInput : s.initialInput.bind (·.constraint) = none := by simp [zero.input]
      have start := initial (by simp)
      rw [cons_append, stageSteps, foldlM_append] at stagesWalked
      obtain ⟨b₂, here, later⟩ := bind_eq_some_iff.mp stagesWalked
      obtain ⟨cur₂, run₂, tracks₂, claim₂⟩ := plainHere.exec two _ (by simp [noInput])
        (fun out c last constraint =>
          ⟨noInput, by simpa using start, zero.output out c last constraint⟩)
        realizes.toTracks here
      obtain ⟨cur₃, run₃, tracks₃⟩ := stageSteps_exec_vanishing two
        (fun s' member => ⟨plain s' (by simp [member]), vanishing s' (mem_cons_of_mem _ member),
          continues s' member⟩) free (claim₂ noInput (by simpa using start)) tracks₂ later
      exact ⟨cur₃, run₂.append run₃, tracks₃⟩
  obtain ⟨cur₂, run₂⟩ := extra_exec baked cur₁ extra
  obtain ⟨z', holding, satisfied⟩ :=
    (run.append run₂).satisfiable (computeWitnessLayout_shape plain extra)
    (room _) (start_bounded _ _) realizes walked
  exact ⟨z', openings ▸ holding, constraints ▸ satisfied⟩

end Build

end ProviaVM.Blindfold
