import ProviaVM.Blindfold.R1cs
import ProviaVM.Lib.Run

/-!
A constraint on openings in the R1CS: the visitor turns each term into products over fresh
variables. They read the variables of the openings and no others, and their results sum to the value
of the constraint.
-/
namespace ProviaVM.Blindfold
open Verifier RankOne LinearCombination Program List Option

variable {F : Type} [Field F]

/-- Variable 0 holds one and the variables of the openings hold `ρ`. -/
structure Holding (ρ : OpeningId → F) (vars : List (OpeningId × Nat)) (z : Nat → F) : Prop where
  one : z 0 = 1
  openings : ∀ id v, vars.lookup id = some v → z v = ρ id

/-- The variables of the openings, and variable 0, are among `K`. -/
structure Placed (K : Nat → Prop) (vars : List (OpeningId × Nat)) : Prop where
  zero : K 0
  openings : ∀ id v, vars.lookup id = some v → K v

theorem Holding.congr {ρ : OpeningId → F} {vars : List (OpeningId × Nat)} {z z' : Nat → F}
    {K : Nat → Prop} (h : Holding ρ vars z) (placed : Placed K vars) (same : Agree K z' z) :
    Holding ρ vars z' :=
  ⟨(same 0 placed.zero).trans h.one,
    fun id v found => (same v (placed.openings id v found)).trans (h.openings id v found)⟩

section Visit

variable {ρ : OpeningId → F} {vars : List (OpeningId × Nat)} {challenges : List F} {K : Nat → Prop}
  {z : Nat → F}

theorem resolve_reads {source : ValueSource} {value : ResolvedValue F} (placed : Placed K vars)
    (h : resolve vars challenges source = some value) : value.intoLc.Reads K := by
  cases source with
  | opening id =>
    obtain ⟨v, found, rfl⟩ := map_eq_some_iff.mp h
    exact reads_ofVariable (placed.openings id v found)
  | challenge idx =>
    obtain ⟨v, -, rfl⟩ := map_eq_some_iff.mp h
    exact reads_constant placed.zero v
  | constant val =>
    cases h
    exact reads_constant placed.zero _

theorem resolve_value {source : ValueSource} {value : ResolvedValue F} (holding : Holding ρ vars z)
    (h : resolve vars challenges source = some value) :
    source.value ρ challenges = some (value.intoLc.eval z) := by
  cases source with
  | opening id =>
    obtain ⟨v, found, rfl⟩ := map_eq_some_iff.mp h
    simp [ValueSource.value, ResolvedValue.intoLc, holding.openings id v found]
  | challenge idx =>
    obtain ⟨v, found, rfl⟩ := map_eq_some_iff.mp h
    simp [ValueSource.value, ResolvedValue.intoLc, found, holding.one]
  | constant val =>
    cases h
    simp [ValueSource.value, ResolvedValue.intoLc, holding.one]

theorem mapM_resolve_reads {sources : List ValueSource} {values : List (ResolvedValue F)}
    (placed : Placed K vars) (h : sources.mapM (resolve vars challenges) = some values) :
    ∀ v ∈ values, v.intoLc.Reads K := by
  have each := Run.forall₂_of_mapM h
  clear h
  induction each with
  | nil => simp
  | cons first _ ih => exact forall_mem_cons.mpr ⟨resolve_reads placed first, ih⟩

theorem mapM_resolve_value {sources : List ValueSource} {values : List (ResolvedValue F)}
    (holding : Holding ρ vars z) (h : sources.mapM (resolve vars challenges) = some values) :
    sources.mapM (·.value ρ challenges) = some (values.map fun v => v.intoLc.eval z) := by
  have each := Run.forall₂_of_mapM h
  clear h
  induction each with
  | nil => rfl
  | cons first _ ih => simp [resolve_value holding first, ih]

/-- The chain of a term with several factors: each entry multiplies the output before it by the next
factor. -/
def chainProgram (first i : Nat) (factors : List (ResolvedValue F)) : Program F :=
  (factors.zipIdx i).map fun f => (.ofVariable (first + f.2), f.1.intoLc)

theorem chainProgram_ready {first i : Nat} {factors : List (ResolvedValue F)}
    (reads : ∀ f ∈ factors, f.intoLc.Reads K) (start : K (first + i)) :
    Ready K (first + i + 1) (chainProgram first i factors) := by
  induction factors generalizing i K with
  | nil => trivial
  | cons f fs ih =>
    refine ⟨reads_ofVariable start, reads f mem_cons_self, ih (i := i + 1) ?_ (.inr rfl)⟩
    exact fun g member => (reads g (mem_cons_of_mem _ member)).mono fun _ => .inl

/-- The chain of auxiliary variables multiplies the factors one by one; the last variable has the
product. -/
theorem run_chainProgram (first i : Nat) {factors : List (ResolvedValue F)} (z : Nat → F)
    (reads : ∀ f ∈ factors, f.intoLc.Reads (· < first)) :
    run (first + i + 1) (chainProgram first i factors) z (first + i + factors.length) =
      z (first + i) * (factors.map fun f => f.intoLc.eval z).prod := by
  induction factors generalizing i z with
  | nil => simp [chainProgram, run]
  | cons f fs ih =>
    have step := ih (i + 1) (Function.update z (first + i + 1) (z (first + i) * f.intoLc.eval z))
      fun g member => reads g (mem_cons_of_mem _ member)
    have same :
      ∀ g ∈ fs,
      g.intoLc.eval (Function.update z (first + i + 1) (z (first + i) * f.intoLc.eval z)) =
        g.intoLc.eval z := fun g member =>
      eval_congr (fun j (below : j < first) => Function.update_of_ne (by omega) _ _)
        (reads g (mem_cons_of_mem _ member))
    rw [map_congr_left same, show first + (i + 1) =
      first + i + 1 by omega, Function.update_self] at step
    rw [length_cons, show first + i + (fs.length + 1) =
      first + i + 1 + fs.length by omega, map_cons, prod_cons, ← mul_assoc, ← step]
    simp [chainProgram, run]

/-- The products of a term read the openings and compute its value into the last output. -/
theorem visitTerm_spec {next : Nat} {t : ProductTerm} {p : Program F} (placed : Placed K vars)
    (below : ∀ i, K i → i < next) (h : visitTerm (resolve vars challenges) next t = some p) :
    0 < p.length ∧ p.Ready K next ∧ (Holding ρ vars z →
      t.value ρ challenges = some (p.run next z (next + p.length - 1))) := by
  obtain ⟨coeff, coeffFound, h⟩ := bind_eq_some_iff.mp h
  obtain ⟨factors, factorsFound, h⟩ := bind_eq_some_iff.mp h
  have coeffReads := resolve_reads placed coeffFound
  have factorReads := mapM_resolve_reads placed factorsFound
  have value : Holding ρ vars z →
      t.value ρ challenges =
        some (coeff.intoLc.eval z * (factors.map fun f => f.intoLc.eval z).prod) :=
        fun holding => by
    simp [ProductTerm.value, resolve_value holding coeffFound,
      mapM_resolve_value holding factorsFound]
  rcases factors with _ | ⟨f₀, _ | ⟨f₁, rest⟩⟩
  · cases h
    refine ⟨by simp, ⟨coeffReads, reads_constant placed.zero 1, trivial⟩, fun holding => ?_⟩
    rw [value holding]
    simp [run, holding.one]
  · cases h
    have reads := factorReads f₀ mem_cons_self
    have product :
      Holding ρ vars z → (singleFactor coeff f₀).1.eval z * (singleFactor coeff f₀).2.eval z =
        coeff.intoLc.eval z * f₀.intoLc.eval z := fun holding => by
      cases coeff <;> cases f₀ <;> simp [singleFactor, ResolvedValue.intoLc, holding.one]
    refine ⟨by simp, ⟨?_, ?_, trivial⟩, fun holding => ?_⟩
    · cases coeff <;> cases f₀ <;> first | exact coeffReads | exact reads_constant placed.zero _
    · cases coeff <;> cases f₀ <;> first | exact reads | exact reads_constant placed.zero _
    · rw [value holding]
      simp [run, product holding]
  · have shape : p = (f₀.intoLc, f₁.intoLc) :: chainProgram next 0 rest ++
        [(coeff.intoLc, .ofVariable (next + rest.length))] := (Option.some.inj h).symm
    subst shape
    have reads₀ := factorReads f₀ (by simp)
    have reads₁ := factorReads f₁ (by simp)
    have readsRest : ∀ f ∈ rest, f.intoLc.Reads K :=
      fun f member => factorReads f (by simp [member])
    have chainLength : (chainProgram next 0 rest).length = rest.length := by simp [chainProgram]
    refine ⟨by simp, ⟨reads₀, reads₁, ?_⟩, fun holding => ?_⟩
    · refine Ready.append (chainProgram_ready (i := 0)
        (fun f member => (readsRest f member).mono fun _ => .inl)
        (.inr rfl)) ⟨coeffReads.mono fun _ => .inl ∘ .inl, reads_ofVariable ?_, trivial⟩
      rcases Nat.eq_zero_or_pos rest.length with zero | pos
      · exact .inl (.inr (by simp [zero]))
      · exact .inr ⟨by omega, by omega⟩
    · -- first the product of two factors, then the chain, then the coefficient
      have below' : ∀ lc : LinearCombination F, lc.Reads K → lc.Reads (· < next) :=
        fun lc reads => reads.mono below
      have frame : ∀ lc : LinearCombination F, lc.Reads K →
          ∀ v, lc.eval (Function.update z next v) = lc.eval z :=
        fun lc reads v =>
          eval_congr (fun j (lt : j < next) => Function.update_of_ne (by omega) _ _)
          (below' lc reads)
      rw [value holding, run_append]
      simp only [run, chainLength, length_append, length_cons, length_nil]
      rw [show next + (rest.length + 1) =
        next + (rest.length + 1 + (0 + 1)) - 1 by omega, eval_ofVariable]
      have chain := run_chainProgram next 0
        (Function.update z next (f₀.intoLc.eval z * f₁.intoLc.eval z)) fun f member =>
          below' _ (readsRest f member)
      simp only [Nat.add_zero] at chain
      rw [chain, map_congr_left fun f member => frame f.intoLc (readsRest f member) _]
      have kept : coeff.intoLc.eval (run (next + 1) (chainProgram next 0 rest)
          (Function.update z next (f₀.intoLc.eval z * f₁.intoLc.eval z))) =
            coeff.intoLc.eval z := by
        rw [eval_congr (fun j lt => run_frame (next + 1) _ _ j (.inl (by omega)))
          (below' _ coeffReads), frame _ coeffReads]
      rw [kept]
      simp [mul_assoc]

/-- The products of all terms read the openings, and the results sum to the value of the
constraint. -/
theorem visit_spec {next : Nat} {ts : List ProductTerm} {p : Program F} {results : List Nat}
    (placed : Placed K vars) (below : ∀ i, K i → i < next)
    (h : visit (resolve vars challenges) next ts = some (p, results)) :
    p.Ready K next ∧ (∀ v ∈ results, next ≤ v ∧ v < next + p.length) ∧
      (Holding ρ vars z → ∃ values, ts.mapM (·.value ρ challenges) = some values ∧
        (results.map (p.run next z)).sum = values.sum) := by
  induction ts generalizing next p results z with
  | nil =>
    cases h
    exact ⟨trivial, by simp, fun _ => ⟨[], rfl, rfl⟩⟩
  | cons t ts ih =>
    obtain ⟨first, visited, h⟩ := bind_eq_some_iff.mp h
    obtain ⟨⟨q, others⟩, tail, h⟩ := bind_eq_some_iff.mp h
    cases h
    obtain ⟨pos, ready, value⟩ := visitTerm_spec (ρ := ρ) (z := z) placed below visited
    obtain ⟨readyTail, ranges, valueTail⟩ := ih
      (fun i known => (below i known).trans_le (Nat.le_add_right _ _)) tail
    refine ⟨ready.append (readyTail.mono fun _ => .inl), ?_, fun holding => ?_⟩
    · simp only [mem_cons, length_append]
      rintro v (rfl | member)
      · omega
      · have := ranges v member
        omega
    · have kept : Agree K (first.run next z) z :=
        fun i known => run_frame next first z i (.inl (below i known))
      obtain ⟨values, mapped, sum⟩ := valueTail (holding.congr placed kept)
      refine ⟨first.run next z (next + first.length - 1) :: values, by simp [value holding,
        mapped], ?_⟩
      rw [map_cons, sum_cons, sum_cons, run_append, sum,
        run_frame (next + first.length) q _ _ (.inl (by omega))]

/-- What the visitor resolves has a value, whatever the openings hold. -/
theorem visit_value_some {next : Nat} {ts : List ProductTerm} {result : Program F × List Nat}
    (ρ : OpeningId → F) (h : visit (resolve vars challenges) next ts = some result) :
    ∃ values, ts.mapM (·.value ρ challenges) = some values := by
  have source : ∀ (source : ValueSource) (value : ResolvedValue F),
    resolve vars challenges source = some value →
      ∃ v, source.value ρ challenges = some v := by
    intro source value resolved
    cases source with
    | opening id => exact ⟨_, rfl⟩
    | challenge idx =>
      obtain ⟨v, found, -⟩ := map_eq_some_iff.mp resolved
      exact ⟨v, found⟩
    | constant val => exact ⟨_, rfl⟩
  induction ts generalizing next result with
  | nil => exact ⟨[], rfl⟩
  | cons t ts ih =>
    obtain ⟨p, first, h⟩ := bind_eq_some_iff.mp h
    obtain ⟨q, tail, -⟩ := bind_eq_some_iff.mp h
    obtain ⟨values, mapped⟩ := ih tail
    obtain ⟨coeff, coeffFound, first⟩ := bind_eq_some_iff.mp first
    obtain ⟨factors, factorsFound, -⟩ := bind_eq_some_iff.mp first
    obtain ⟨c, coeffValue⟩ := source _ _ coeffFound
    obtain ⟨fs, factorValues⟩ := Run.mapM_of_mapM source factorsFound
    have value : t.value ρ challenges = some (c * fs.prod) := by
      simp [ProductTerm.value, coeffValue, factorValues]
    exact ⟨c * fs.prod :: values, by simp [value, mapped]⟩

end Visit

end ProviaVM.Blindfold
