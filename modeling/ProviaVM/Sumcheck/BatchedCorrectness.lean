import ProviaVM.Sumcheck.Batched

/-!
The batched sumcheck over shares against the plaintext one. An instance is described by the
polynomials `g` of its own rounds; `combined` is the polynomial the plaintext sumcheck would send.
The run completes with these polynomials exactly when none of them is constant.
-/
namespace ProviaVM.Sumcheck
open Preprocessing Rep3 Poly List Option Polynomial Nat

/-! ## Tables -/

section Tables

variable {α : Type}

/-- Every vector of length `n` is a table over the first `n` indices. -/
def table (n : Nat) (f : Nat → α) : List α := (List.range n).map f

variable {n : Nat}

theorem eq_table [Zero α] {l : List α} (length : l.length = n) :
    l = table n fun i => l.getD i 0 := by
  subst length
  refine ext_getElem (by simp [table]) fun i hi _ => ?_
  simp [table, hi]

theorem replicate_eq_table (n : Nat) (c : α) : List.replicate n c = table n fun _ => c := by
  simp [table]

theorem zipWith_table {f : α → α → α} {a b : Nat → α} :
    List.zipWith f (table n a) (table n b) = table n fun i => f (a i) (b i) := by
  simp [table]

theorem table_congr {a b : Nat → α} (same : ∀ i < n, a i = b i) : table n a = table n b :=
  List.map_congr_left fun i hi => same i (mem_range.mp hi)

theorem table_length (n : Nat) (a : Nat → α) : (table n a).length = n := by simp [table]

end Tables

variable {F : Type} [Field F]

/-! ## The plaintext sumcheck -/

/-- An instance with its batching coefficient and the polynomials of its own rounds. -/
structure Entry (F : Type) [Field F] where
  coeff : F
  inst : Instance F
  g : Nat → Polynomial F

open Entry

/-- The points of a round message: 0, 2, 3, ... -/
def point : Nat → F
  | 0 => 0
  | i + 1 => ((i + 2 : Nat) : F)

section Plaintext

variable (N : Nat)

/-- The first round of an instance in a batch of `N` rounds. -/
def Entry.offset (e : Entry F) : Nat := N - e.inst.numRounds

/-- The claim before round `j`: the scaled input claim until the instance starts, then the value of
its last polynomial at the last challenge. -/
def Entry.claimAt (rs : List F) (e : Entry F) (j : Nat) : F :=
  if j ≤ e.offset N then e.inst.inputClaimPublic * 2 ^ (e.offset N - j)
  else (e.g (j - 1 - e.offset N)).eval (rs.getD (j - 1) 0)

/-- The polynomial an instance contributes to round `j`: half its scaled claim before it starts. -/
noncomputable def Entry.roundPolynomial (e : Entry F) (j : Nat) : Polynomial F :=
  if j < e.offset N then .C (e.inst.inputClaimPublic * 2 ^ (e.offset N - (j + 1)))
  else e.g (j - e.offset N)

noncomputable def combined (entries : List (Entry F)) (j : Nat) : Polynomial F :=
  (entries.map fun e => .C e.coeff * e.roundPolynomial N j).sum

end Plaintext

/-! ## Honest instances -/

/-- Workers and coordinator start from the same claim. -/
def Instance.ClaimOpens : Instance F → Prop
  | .secret s => s.inputClaim.Opens s.inputClaimPublic
  | .pub _ => True

/-- The message of local round `l` has the right length and opens to the evaluations of `g`. -/
def Running.Sends (D l : Nat) (g : Polynomial F) : Running F → Prop
  | .secret s bound shares =>
    (∀ p, (s.message l bound shares D p).length = D) ∧
      ∀ i < D, total (fun p => (s.message l bound shares D p).getD i 0) = g.eval (point i)
  | .pub s bound value =>
    (s.message l bound value D).length = D ∧ ∀ i < D,
      (s.message l bound value D).getD i 0 = g.eval (point i)

def Running.bound : Running F → List F
  | .secret _ bound _ => bound
  | .pub _ bound _ => bound

variable [DecidableEq F]

/-- An instance after `j` rounds of a batch of `N` rounds and maximal degree `D`. -/
def Running.after (N D : Nat) (rs : List F) (i : Instance F) : Nat → Option (Running F)
  | 0 => Running.start N i
  | j + 1 => do
    let x ← Running.after N D rs i j
    let (y, t) ← x.turn N D j
    y.settle N j t (rs.getD j 0)

structure Entry.Honest (N D : Nat) (rs : List F) (e : Entry F) : Prop where
  opens : e.inst.ClaimOpens
  degree : ∀ l < e.inst.numRounds, (e.g l).natDegree ≤ e.inst.degree
  boundary : ∀ l < e.inst.numRounds, ∀ x, Running.after N D rs e.inst (e.offset N + l) = some x →
    (e.g l).eval 0 + (e.g l).eval 1 = x.claim
  message : ∀ l < e.inst.numRounds, ∀ x, Running.after N D rs e.inst (e.offset N + l) = some x →
    x.Sends D l (e.g l)

/-- The instance at the workers before round `j`, with the claim of the plaintext sumcheck. -/
structure Running.Tracks (N D : Nat) (rs : List F) (e : Entry F) (j : Nat) (x : Running F) :
    Prop where
  reached : Running.after N D rs e.inst j = some x
  inst : x.inst = e.inst
  claim : x.claim = e.claimAt N rs j
  bound : x.bound = (rs.take j).drop (e.offset N)

section Algebra

omit [DecidableEq F]

variable {N j : Nat} {rs : List F} {e : Entry F}

theorem Rep3Value.Opens.scaled (two : (2 : F) ≠ 0) {v : Rep3Value F} {c : F} (h : v.Opens c)
    (padding : Nat) :
    total (v.scaled padding) = c * 2 ^ padding := by
  cases v with
  | pub v =>
    cases h
    simp [total, Rep3Value.scaled]
  | shared x =>
    have scaled : SumShares (x.map (· * 2 ^ padding)) (c * 2 ^ padding) := by
      refine ⟨h.replicated.map _, ?_⟩
      rw [← h.opens]
      simp [total, View.map, Rep3Share.map, add_mul]
    exact intoAdditive_total two scaled
  | additive x =>
    rw [← show total x = c from h]
    simp [total, Rep3Value.scaled, add_mul]

theorem Entry.claimAt_of_le (before : j ≤ e.offset N) :
    e.claimAt N rs j = e.inst.inputClaimPublic * 2 ^ (e.offset N - j) := by
  rw [claimAt, if_pos before]

theorem Entry.claimAt_succ (started : e.offset N ≤ j) :
    e.claimAt N rs (j + 1) = (e.g (j - e.offset N)).eval (rs.getD j 0) := by
  rw [claimAt, if_neg (by omega), Nat.add_sub_cancel]

theorem Entry.claimAt_halved (two : (2 : F) ≠ 0) (waiting : j < e.offset N) :
    e.claimAt N rs j * 2⁻¹ = e.inst.inputClaimPublic * 2 ^ (e.offset N - (j + 1)) := by
  rw [claimAt_of_le waiting.le, show e.offset N - j =
    e.offset N - (j + 1) + 1 by
    omega, pow_succ, ← mul_assoc, mul_assoc _ 2, mul_inv_cancel₀ two, mul_one]

theorem point_zero : (point 0 : F) = 0 := rfl

theorem point_pred {k : Nat} (two : 2 ≤ k) : (point (k - 1) : F) = (k : F) := by
  obtain ⟨m, rfl⟩ := Nat.exists_eq_add_of_le' two
  rfl

/-- The values of a polynomial in the order both sides write them. -/
theorem values_split {h : Polynomial F} {d : Nat} (one : 1 ≤ d) :
    values h (d + 1) = h.eval 0 :: h.eval 1 :: (List.range' 2 (d - 1)).map fun k : Nat =>
      h.eval (k : F) := by
  obtain ⟨m, rfl⟩ := Nat.exists_eq_add_of_le' one
  rw [values, range_eq_range', range'_succ, range'_succ]
  simp

end Algebra

/-! ## The claims the workers keep -/

variable {d D : Nat}

/-- A worker's next share is the value at the challenge of the polynomial through its own points. -/
theorem evaluateUnivariate_interpolates (one : 1 ≤ d) {msg : List F} (long : d ≤ msg.length)
    (nodes : Nodes F (d + 1)) (claim x : F) :
    ∃ h : Polynomial F, h.natDegree ≤ d ∧ h.eval 0 = msg.getD 0 0 ∧
      h.eval 1 = claim - msg.getD 0 0 ∧
      (∀ k, 2 ≤ k → k ≤ d → h.eval (k : F) = msg.getD (k - 1) 0) ∧
        evaluateUnivariate d claim msg x = some (h.eval x) := by
  let full := msg.getD 0 0 :: (claim - msg.getD 0 0) :: (List.range' 2 (d - 1)).map fun k =>
    msg.getD (k - 1) 0
  have len : full.length = d + 1 := by
    simp only [full, length_cons, length_map, length_range']
    omega
  obtain ⟨h, degree, same⟩ :
      ∃ h : Polynomial F, h.natDegree < full.length ∧ full = values h full.length :=
    exists_values (by omega) (len ▸ nodes)
  rw [len] at degree same
  have split := same.symm.trans rfl
  rw [values_split one] at split
  simp only [full, List.cons.injEq, map_inj_left, mem_range'_1] at split
  obtain ⟨at0, at1, rest⟩ := split
  refine ⟨h, by omega, at0, at1, fun k two le => rest k ⟨two, by omega⟩, ?_⟩
  rw [evaluateUnivariate, if_neg (by omega)]
  change (fromEvals full).map _ = _
  simp [same, fromEvals_values (by omega) degree nodes, evaluate_coeffs degree]

/-- The three shares together are the value of the polynomial the messages open to. -/
theorem evaluateUnivariateAll_total (one : 1 ≤ d) (le : d ≤ D) (nodes : Nodes F (d + 1))
    {g : Polynomial F} (degree : g.natDegree ≤ d) {claim : PartyID → F}
    (boundary : g.eval 0 + g.eval 1 = total claim) {msg : PartyID → List F}
    (length : ∀ p, (msg p).length = D)
    (opens : ∀ i < D, total (fun p => (msg p).getD i 0) = g.eval (point i)) (x : F) :
    ∃ next, evaluateUnivariateAll d claim msg x = some next ∧ total next = g.eval x := by
  have each :=
    fun p => evaluateUnivariate_interpolates one (le.trans (length p).ge) nodes (claim p) x
  obtain ⟨h₀, deg₀, zero₀, one₀, rest₀, run₀⟩ := each .ID0
  obtain ⟨h₁, deg₁, zero₁, one₁, rest₁, run₁⟩ := each .ID1
  obtain ⟨h₂, deg₂, zero₂, one₂, rest₂, run₂⟩ := each .ID2
  have sum : h₀ + h₁ + h₂ = g := by
    refine values_inj nodes ?_ (by omega) fun i hi => ?_
    · have := natDegree_add_le (h₀ + h₁) h₂
      have := natDegree_add_le h₀ h₁
      omega
    · simp only [eval_add]
      rcases Nat.lt_or_ge i 2 with small | two
      · have at0 := opens 0 (by omega)
        rw [point_zero] at at0
        simp only [total] at at0 boundary
        obtain rfl | rfl : i = 0 ∨ i = 1 := by omega
        · rw [cast_zero, zero₀, zero₁, zero₂, at0]
        · rw [cast_one, one₀, one₁, one₂]
          linear_combination -at0 - boundary
      · rw [rest₀ i two (by omega), rest₁ i two (by omega), rest₂ i two (by omega),
          ← point_pred two]
        exact opens (i - 1) (by omega)
  refine ⟨_, by rw [evaluateUnivariateAll, run₀, run₁, run₂]; rfl, ?_⟩
  simp only [total]
  rw [← eval_add, ← eval_add, sum]

theorem evaluateUnivariate_value (one : 1 ≤ d) (le : d ≤ D) (nodes : Nodes F (d + 1))
    {g : Polynomial F} (degree : g.natDegree ≤ d) {claim : F}
    (boundary : g.eval 0 + g.eval 1 = claim) {msg : List F} (length : msg.length = D)
    (opens : ∀ i < D, msg.getD i 0 = g.eval (point i)) (x : F) :
    evaluateUnivariate d claim msg x = some (g.eval x) := by
  obtain ⟨h, deg, at0, at1, rest, run⟩ :=
    evaluateUnivariate_interpolates one (le.trans length.ge) nodes claim x
  have same : h = g := by
    refine values_inj nodes (by omega) (by omega) fun i hi => ?_
    rcases Nat.lt_or_ge i 2 with small | two
    · have first := opens 0 (by omega)
      rw [point_zero] at first
      obtain rfl | rfl : i = 0 ∨ i = 1 := by omega
      · rw [cast_zero, at0, first]
      · rw [cast_one, at1, first, ← boundary, add_sub_cancel_left]
    · rw [rest i two (by omega), opens (i - 1) (by omega), point_pred two]
  rw [run, same]

/-! ## One instance, one round -/

def Turn.isSecret : Turn F → Bool
  | .secret _ => true
  | .pub _ => false

/-- The vectors of a turn open to the evaluations of `G`. -/
def Turn.Carries (D : Nat) (G : Polynomial F) : Turn F → Prop
  | .secret evals => ∃ f : PartyID → Nat → F, (∀ p, evals p = table D (f p)) ∧
      ∀ i < D, total (fun p => f p i) = G.eval (point i)
  | .pub evals => ∃ f : Nat → F, evals = table D f ∧ ∀ i < D, f i = G.eval (point i)

section Step

variable {N D j : Nat} {rs : List F} {e : Entry F} {x : Running F}

/-- What the batch checks or fixes about its members before the first round. -/
structure Entry.Fits (N D : Nat) (e : Entry F) : Prop where
  rounds : e.inst.numRounds ≤ N
  padding : N - e.inst.numRounds ≤ 255
  positive : 1 ≤ e.inst.degree
  degree : e.inst.degree ≤ D

namespace Running

theorem start_tracks (two : (2 : F) ≠ 0) (fits : e.Fits N D) (opens : e.inst.ClaimOpens) :
    ∃ x, start N e.inst = some x ∧ x.Tracks N D rs e 0 := by
  have claim0 : e.claimAt N rs 0 = e.inst.inputClaimPublic * 2 ^ (N - e.inst.numRounds) :=
    Entry.claimAt_of_le (Nat.zero_le _)
  have small : ¬ 255 < N - e.inst.numRounds := by
    have := fits.padding
    omega
  cases kind : e.inst with
  | secret s =>
    rw [kind] at small claim0 opens
    have started : start N (.secret s) =
      some (.secret s [] (s.inputClaim.scaled (N - s.numRounds))) := if_neg small
    exact ⟨_, started, by rw [after, kind, started], kind.symm,
      (Rep3Value.Opens.scaled two opens _).trans claim0.symm, by simp [Running.bound]⟩
  | pub s =>
    rw [kind] at small claim0
    have started : start N (.pub s) =
      some (.pub s [] (s.inputClaimPublic * 2 ^ (N - s.numRounds))) := if_neg small
    exact ⟨_, started, by rw [after, kind,
      started], kind.symm, claim0.symm, by simp [Running.bound]⟩

/-- What one round does to one instance: the turn carries its polynomial and the claim follows the
plaintext claim. -/
def Steps (N D : Nat) (rs : List F) (e : Entry F) (j : Nat) (x : Running F) : Prop :=
  ∃ y t z, x.turn N D j = some (y, t) ∧ t.Carries D (e.roundPolynomial N j) ∧
    y.settle N j t (rs.getD j 0) = some z ∧ z.Tracks N D rs e (j + 1)

theorem Tracks.after_succ (tracks : x.Tracks N D rs e j) {y z : Running F} {t : Turn F}
    (turned : x.turn N D j = some (y, t)) (settled : y.settle N j t (rs.getD j 0) = some z) :
    after N D rs e.inst (j + 1) = some z := by
  rw [after, tracks.reached]
  simp only [bind_eq_bind, bind_some, turned, settled]

/-- Before its first round an instance sends a constant, half of its claim. -/
theorem Tracks.step_waiting (two : (2 : F) ≠ 0) (tracks : x.Tracks N D rs e j)
    (waiting : j < e.offset N) :
    x.Steps N D rs e j := by
  have inactive : N - j > e.inst.numRounds := by
    rw [offset] at waiting
    omega
  have poly : e.roundPolynomial N j = .C (e.claimAt N rs j * 2⁻¹) := by
    rw [roundPolynomial, if_pos waiting, claimAt_halved two waiting]
  have next : e.claimAt N rs (j + 1) = e.claimAt N rs j * 2⁻¹ := by
    rw [claimAt_halved two waiting, Entry.claimAt_of_le waiting]
  have unbound : (rs.take (j + 1)).drop (e.offset N) = (rs.take j).drop (e.offset N) := by
    rw [drop_eq_nil_of_le (by simp; omega), drop_eq_nil_of_le (by simp; omega)]
  cases x with
  | secret s bound shares =>
    have inst : e.inst = .secret s := tracks.inst.symm
    have turned : (Running.secret s bound shares).turn N D j =
        some (.secret s bound fun p => shares p * 2⁻¹,
          .secret fun p => List.replicate D (shares p * 2⁻¹)) := by
      simp only [turn, Running.inst, ← inst, if_pos inactive]
    have settled : (Running.secret s bound fun p => shares p * 2⁻¹).settle N j
        (.secret fun p => List.replicate D (shares p * 2⁻¹)) (rs.getD j 0) =
          some (.secret s bound fun p => shares p * 2⁻¹) := by
      simp only [settle, Running.inst, ← inst, if_pos inactive]
    have halved : total (fun p => shares p * 2⁻¹) = e.claimAt N rs j * 2⁻¹ := by
      rw [← tracks.claim]
      simp [Running.claim, total, add_mul]
    refine ⟨_, _, _, turned, ⟨fun p _ => shares p * 2⁻¹, fun p => replicate_eq_table _ _,
      fun i _ => ?_⟩, settled, tracks.after_succ turned settled, tracks.inst,
      halved.trans next.symm, tracks.bound.trans unbound.symm⟩
    simp [halved, poly]
  | pub s bound value =>
    have inst : e.inst = .pub s := tracks.inst.symm
    have turned : (Running.pub s bound value).turn N D j =
        some (.pub s bound (value * 2⁻¹), .pub (List.replicate D (value * 2⁻¹))) := by
      simp only [turn, Running.inst, ← inst, if_pos inactive]
    have settled :
      (Running.pub s bound (value * 2⁻¹)).settle N j (.pub (List.replicate D (value * 2⁻¹)))
      (rs.getD j 0) =
        some (.pub s bound (value * 2⁻¹)) := by
      simp only [settle, Running.inst, ← inst, if_pos inactive]
    have halved : value * 2⁻¹ = e.claimAt N rs j * 2⁻¹ := by
      rw [← tracks.claim]
      rfl
    refine ⟨_, _, _, turned, ⟨fun _ => value * 2⁻¹, replicate_eq_table _ _, fun i _ => ?_⟩, settled,
      tracks.after_succ turned settled, tracks.inst, halved.trans next.symm,
        tracks.bound.trans unbound.symm⟩
    simp [halved, poly]

/-- From then on it sends its own round polynomial, at enough points to fix it. -/
theorem Tracks.step_started (nodes : Nodes F (D + 1)) (fits : e.Fits N D) (honest : e.Honest N D rs)
    (tracks : x.Tracks N D rs e j) (lt : j < N) (length : rs.length = N)
    (started : e.offset N ≤ j) :
    x.Steps N D rs e j := by
  obtain ⟨l, own, here⟩ : ∃ l < e.inst.numRounds, j = e.offset N + l := by
    refine ⟨j - e.offset N, ?_, by omega⟩
    rw [offset] at started ⊢
    omega
  have active : ¬ N - j > e.inst.numRounds := by
    rw [offset] at here
    omega
  have round : j - (N - e.inst.numRounds) = l := by
    rw [offset] at here
    omega
  have poly : e.roundPolynomial N j = e.g l := by
    simp [here, roundPolynomial]
  have next : e.claimAt N rs (j + 1) = (e.g l).eval (rs.getD j 0) := by
    rw [claimAt_succ started, here, Nat.add_sub_cancel_left]
  have bind :
      (rs.take (j + 1)).drop (e.offset N) = (rs.take j).drop (e.offset N) ++ [rs.getD j 0] := by
    have inside : j < rs.length := by omega
    rw [take_succ_eq_append_getElem inside, drop_append_of_le_length (by simp; omega)]
    simp [inside]
  have boundary := honest.boundary l own x (here ▸ tracks.reached)
  have sends := honest.message l own x (here ▸ tracks.reached)
  have degree := honest.degree l own
  have inside : Nodes F (e.inst.degree + 1) := nodes.mono (succ_le_succ fits.degree)
  cases x with
  | secret s bound shares =>
    have inst : e.inst = .secret s := tracks.inst.symm
    obtain ⟨lengths, opens⟩ := sends
    obtain ⟨claims, evaluated, sum⟩ :=
      evaluateUnivariateAll_total fits.positive fits.degree inside degree boundary lengths
        opens (rs.getD j 0)
    rw [inst] at evaluated
    have turned : (Running.secret s bound shares).turn N D j =
        some (.secret s bound shares, .secret (s.message l bound shares D)) := by
      simp only [turn, Running.inst, ← inst, if_neg active, round, lengths, and_self, if_true]
    have settled : (Running.secret s bound shares).settle N j (.secret (s.message l bound shares D))
      (rs.getD j 0) =
        some (.secret s (bound ++ [rs.getD j 0]) claims) := by
      rw [settle, Running.inst, ← inst, if_neg active]
      exact congrArg (Option.map _) evaluated
    refine ⟨_, _, _, turned, ⟨_, fun p => eq_table (lengths p), fun i hi => ?_⟩, settled,
      tracks.after_succ turned settled, tracks.inst, sum.trans next.symm, ?_⟩
    · rw [poly, ← opens i hi]
    · rw [bind, ← tracks.bound]
      rfl
  | pub s bound value =>
    have inst : e.inst = .pub s := tracks.inst.symm
    obtain ⟨lengths, opens⟩ := sends
    have evaluated :=
      evaluateUnivariate_value fits.positive fits.degree inside degree boundary lengths
        opens (rs.getD j 0)
    rw [inst] at evaluated
    have turned : (Running.pub s bound value).turn N D j =
        some (.pub s bound value, .pub (s.message l bound value D)) := by
      simp only [turn, Running.inst, ← inst, if_neg active, round, lengths, if_true]
    have settled :
      (Running.pub s bound value).settle N j (.pub (s.message l bound value D)) (rs.getD j 0) =
        some (.pub s (bound ++ [rs.getD j 0]) ((e.g l).eval (rs.getD j 0))) := by
      rw [settle, Running.inst, ← inst, if_neg active]
      exact congrArg (Option.map _) evaluated
    refine ⟨_, _, _, turned, ⟨_, eq_table lengths, fun i hi => ?_⟩, settled,
      tracks.after_succ turned settled, tracks.inst, next.symm, ?_⟩
    · rw [poly, ← opens i hi]
    · rw [bind, ← tracks.bound]
      rfl

theorem Tracks.step (two : (2 : F) ≠ 0) (nodes : Nodes F (D + 1)) (fits : e.Fits N D)
    (honest : e.Honest N D rs) (tracks : x.Tracks N D rs e j) (lt : j < N)
    (length : rs.length = N) : x.Steps N D rs e j := by
  rcases Nat.lt_or_ge j (e.offset N) with waiting | started
  · exact tracks.step_waiting two waiting
  · exact tracks.step_started nodes fits honest lt length started

omit [DecidableEq F] in
theorem turn_isSecret {y : Running F} {t : Turn F} (h : x.turn N D j = some (y, t)) :
    t.isSecret = x.inst.isSecret := by
  cases x <;> simp only [turn] at h <;> split at h <;> try split at h
  all_goals first
    | (cases h; done)
    | (obtain ⟨-, rfl⟩ := Prod.mk.inj (Option.some.inj h); rfl)

end Running

/-! The round polynomial of an instance ties its claims before and after the round. -/

theorem Entry.roundPolynomial_natDegree (fits : e.Fits N D) (honest : e.Honest N D rs)
    (lt : j < N) :
    (e.roundPolynomial N j).natDegree ≤ D := by
  rw [roundPolynomial]
  split
  · rw [natDegree_C]
    exact Nat.zero_le D
  next started =>
    refine (honest.degree _ ?_).trans fits.degree
    rw [offset] at started ⊢
    omega

theorem Entry.roundPolynomial_boundary (two : (2 : F) ≠ 0) (honest : e.Honest N D rs)
    (tracks : x.Tracks N D rs e j) (lt : j < N) :
    (e.roundPolynomial N j).eval 0 + (e.roundPolynomial N j).eval 1 = e.claimAt N rs j := by
  rw [roundPolynomial]
  split
  next waiting =>
    have half : e.claimAt N rs j * 2⁻¹ = _ := claimAt_halved two waiting
    rw [eval_C, eval_C, ← half, ← mul_add, ← two_mul, mul_inv_cancel₀ two, mul_one]
  next started =>
    obtain ⟨l, rfl⟩ := Nat.exists_eq_add_of_le (Nat.le_of_not_lt started)
    have own : l < e.inst.numRounds := by
      have : N - e.inst.numRounds + l < N := lt
      omega
    simp [honest.boundary l own x tracks.reached, tracks.claim]

omit [DecidableEq F] in
theorem Entry.roundPolynomial_eval :
    (e.roundPolynomial N j).eval (rs.getD j 0) = e.claimAt N rs (j + 1) := by
  rw [roundPolynomial]
  split
  next waiting => simp [Entry.claimAt_of_le waiting]
  next started => rw [claimAt_succ (Nat.le_of_not_lt started)]

end Step

/-! ## One round of the batch -/

section Receive

omit [DecidableEq F]

theorem combineAdditiveVec_table {n : Nat} {a : PartyID → Nat → F} :
    combineAdditiveVec (fun p => table n (a p)) = some (table n fun i => total fun p => a p i) := by
  simp [combineAdditiveVec, table_length, zipWith_table, total]

/-- The batch pairs each entry's coefficient with a turn that carries its polynomial. -/
structure Entry.InBatch (N D j : Nat) (e : Entry F) (b : F × Turn F) : Prop where
  coeff : b.1 = e.coeff
  kind : b.2.isSecret = e.inst.isSecret
  carries : b.2.Carries D (e.roundPolynomial N j)

variable {N j : Nat} {entries : List (Entry F)} {D : Nat}

theorem combined_cons {e : Entry F} :
    combined N (e :: entries) j = .C e.coeff * e.roundPolynomial N j + combined N entries j := by
  simp [combined]

theorem inBatch_zip {turned : List (Running F × Turn F)}
    (turns : Forall₂ (fun e t => t.2.isSecret = e.inst.isSecret ∧
      t.2.Carries D (e.roundPolynomial N j)) entries turned) :
    Forall₂ (InBatch N D j) entries ((entries.map Entry.coeff).zip (turned.map Prod.snd)) := by
  induction turns with
  | nil => exact .nil
  | cons head _ ih => exact .cons ⟨rfl, head.1, head.2⟩ ih

/-- The accumulators open to the combined polynomial: secret and public parts together. -/
theorem batched_accumulate {batch : List (F × Turn F)}
    (inBatch : Forall₂ (InBatch N D j) entries batch) (S₀ : PartyID → Nat → F) (P₀ : Nat → F) :
    ∃ (S : PartyID → Nat → F) (P : Nat → F),
      (∀ p, batch.foldl (addSecret p) (table D (S₀ p)) = table D (S p)) ∧
        batch.foldl addPublic (table D P₀) = table D P ∧
          (∀ i < D, total (fun p => S p i) + P i =
            total (fun p => S₀ p i) + P₀ i + (combined N entries j).eval (point i)) ∧
            ((∀ e ∈ entries, e.inst.isSecret) → P = P₀) := by
  induction inBatch generalizing S₀ P₀ with
  | nil => exact ⟨S₀, P₀, fun _ => rfl, rfl, fun i _ => by simp [combined], fun _ => rfl⟩
  | @cons e b entries batch head _ ih =>
    obtain ⟨coeff, t⟩ := b
    obtain ⟨rfl, kind, carries⟩ := head
    cases t with
    | secret evals =>
      obtain ⟨f, tables, opens⟩ := carries
      obtain ⟨S, P, secret, clear, sum, unchanged⟩ := ih (fun p i => S₀ p i + f p i * e.coeff) P₀
      refine ⟨S, P, fun p => ?_, clear, fun i hi => ?_,
        fun all => unchanged fun e mem => all e (mem_cons_of_mem _ mem)⟩
      · rw [foldl_cons, addSecret, accumulate, tables, zipWith_table]
        exact secret p
      · rw [sum i hi, combined_cons, eval_add, eval_mul, eval_C, ← opens i hi]
        simp only [total]
        ring
    | pub evals =>
      obtain ⟨f, rfl, opens⟩ := carries
      obtain ⟨S, P, secret, clear, sum, -⟩ := ih S₀ fun i => P₀ i + f i * e.coeff
      refine ⟨S, P, secret, ?_, fun i hi => ?_, fun all => ?_⟩
      · rw [foldl_cons, addPublic, accumulate, zipWith_table]
        exact clear
      · rw [sum i hi, combined_cons, eval_add, eval_mul, eval_C, ← opens i hi]
        ring
      · have := kind.trans (all e mem_cons_self)
        cases this

/-- The coordinator receives the evaluations of the combined polynomial, with either driver. The
plain driver has no public instances. -/
theorem receiveRoundEvals_combined {d : Driver} {batch : List (F × Turn F)}
    (inBatch : Forall₂ (InBatch N D j) entries batch)
    (plain : d = .rep3 → ∀ e ∈ entries, e.inst.isSecret) :
    d.receiveRoundEvals (roundMessage D batch) =
      some (table D fun i => (combined N entries j).eval (point i)) := by
  obtain ⟨S, P, secret, clear, sum, unchanged⟩ :=
    batched_accumulate inBatch (fun _ _ => 0) fun _ => 0
  have shares : (fun p => (roundMessage D batch p).1) = fun p => table D (S p) := by
    funext p
    rw [← secret p, ← replicate_eq_table]
    cases p <;> rfl
  have zero : total (fun _ : PartyID => (0 : F)) + 0 = 0 := by simp [total]
  rw [Driver.receiveRoundEvals, shares, combineAdditiveVec_table]
  cases d with
  | rep3 =>
    have none : P = fun _ => 0 := unchanged (plain rfl)
    refine congrArg some (table_congr fun i hi => ?_)
    have := sum i hi
    rwa [zero, zero_add, none, add_zero] at this
  | hybrid =>
    have sent : (roundMessage D batch .ID0).2 = some (table D P) := by
      rw [← clear, ← replicate_eq_table]
      rfl
    simp only [bind_eq_bind, bind_some, sent, table_length, zipWith_table]
    refine congrArg some (table_congr fun i hi => ?_)
    rw [sum i hi, zero, zero_add]

end Receive

theorem roundPoly_combined (one : 1 ≤ D) (nodes : Nodes F (D + 1)) {h : Polynomial F}
    (degree : h.natDegree ≤ D) {claim : F} (boundary : h.eval 0 + h.eval 1 = claim) :
    roundPoly claim (table D fun i => h.eval (point i)) = some (trim (coeffs h (D + 1))) := by
  obtain ⟨m, rfl⟩ := Nat.exists_eq_add_of_le' one
  have split : table (m + 1) (fun i => h.eval (point i)) =
      h.eval 0 :: (List.range m).map fun i => h.eval (point (i + 1)) := by
    rw [table, List.range_succ_eq_map, List.map_cons, List.map_map]
    rfl
  have full :
    h.eval 0 :: (claim - h.eval 0) :: (List.range m).map (fun i => h.eval (point (i + 1))) =
      values h (m + 1 + 1) := by
    rw [values_split one, ← boundary, add_sub_cancel_left, List.range'_eq_map_range, List.map_map]
    refine congrArg _ (congrArg _ (List.map_congr_left fun i _ => ?_))
    simp only [Function.comp, point, Nat.add_comm 2 i]
  rw [split, roundPoly, full, fromEvals_values (by omega) (by omega) nodes, Option.map_some]

section Batch

variable {d : Driver} {N D j : Nat} {rs : List F} {entries : List (Entry F)}

/-- The plaintext sumcheck's claim before round `j`. -/
def batchedClaimAt (N : Nat) (rs : List F) (entries : List (Entry F)) (j : Nat) : F :=
  (entries.map fun e => e.coeff * e.claimAt N rs j).sum

structure Batched (N D : Nat) (rs : List F) (entries : List (Entry F)) : Prop where
  fits : ∀ e ∈ entries, e.Fits N D
  honest : ∀ e ∈ entries, e.Honest N D rs

theorem combined_natDegree (batched : Batched N D rs entries) (lt : j < N) :
    (combined N entries j).natDegree ≤ D := by
  have each : ∀ e ∈ entries, (e.roundPolynomial N j).natDegree ≤ D := fun e member =>
    roundPolynomial_natDegree (batched.fits e member) (batched.honest e member) lt
  clear batched
  induction entries with
  | nil => simp [combined]
  | cons e entries ih =>
    refine (natDegree_add_le _ _).trans (max_le ?_ (ih fun e mem => each e (mem_cons_of_mem _ mem)))
    exact (natDegree_C_mul_le _ _).trans (each e mem_cons_self)

omit [DecidableEq F] in
theorem combined_eval (x : F) :
    (combined N entries j).eval x = (entries.map fun e =>
      e.coeff * (e.roundPolynomial N j).eval x).sum := by
  rw [combined, eval_listSum]
  simp [Function.comp_def]

theorem combined_boundary (two : (2 : F) ≠ 0) (batched : Batched N D rs entries) (lt : j < N)
    {running : List (Running F)}
    (tracks : Forall₂ (fun e x => x.Tracks N D rs e j) entries running) :
    (combined N entries j).eval 0 + (combined N entries j).eval 1 =
      batchedClaimAt N rs entries j := by
  rw [combined_eval, combined_eval, ← sum_map_add]
  refine congrArg List.sum (List.map_congr_left fun e member => ?_)
  obtain ⟨x, -, tracks⟩ := Run.exists_of_forall₂ tracks member
  rw [← mul_add, roundPolynomial_boundary two (batched.honest e member) tracks lt]

omit [DecidableEq F] in
theorem combined_next :
    (combined N entries j).eval (rs.getD j 0) = batchedClaimAt N rs entries (j + 1) := by
  rw [combined_eval]
  exact congrArg List.sum (List.map_congr_left fun e _ => by rw [roundPolynomial_eval])

structure Recorded (N D : Nat) (rs : List F) (entries : List (Entry F)) (j : Nat)
    (rec : RoundRecord F) : Prop where
  poly : rec.poly = coeffs (combined N entries j) ((combined N entries j).natDegree + 1)
  boundary : (combined N entries j).eval 0 + (combined N entries j).eval 1 = rec.batchedClaim
  running : List.Forall₂ (fun e x => x.Tracks N D rs e (j + 1)) entries rec.running

/-- The joint invariant of workers and coordinator before round `j`. -/
structure Agree (N D : Nat) (rs : List F) (entries : List (Entry F)) (j : Nat) (s : BatchState F) :
    Prop where
  running : List.Forall₂ (fun e x => x.Tracks N D rs e j) entries s.running
  claim : s.batchedClaim = batchedClaimAt N rs entries j
  challenges : s.rSumcheck = rs.take j
  count : s.rounds.length = j
  rounds : ∀ k rec, s.rounds[k]? = some rec → Recorded N D rs entries k rec

/-- One round keeps the invariant, unless the combined polynomial is constant: then it fails. -/
theorem Agree.batchRound (two : (2 : F) ≠ 0) (nodes : Nodes F (D + 1))
    (batched : Batched N D rs entries) (one : 1 ≤ D) (length : rs.length = N)
    (plain : d = .rep3 → ∀ e ∈ entries, e.inst.isSecret) {s : BatchState F}
    (agree : Agree N D rs entries j s) (lt : j < N) :
    ((combined N entries j).natDegree ≠ 0 →
      ∃ s', batchRound d N D (entries.map Entry.coeff) s (rs.getD j 0) = some s' ∧
        Agree N D rs entries (j + 1) s') ∧
    ((combined N entries j).natDegree = 0 →
      Sumcheck.batchRound d N D (entries.map Entry.coeff) s (rs.getD j 0) = none) := by
  have round : s.rSumcheck.length = j := by
    rw [agree.challenges, length_take]
    omega
  -- the first loop
  obtain ⟨turned, turns, afterTurn⟩ := Run.mapM_forall₂ (f := Running.turn N D j)
    (S := fun e t => t.2.isSecret = e.inst.isSecret ∧ t.2.Carries D (e.roundPolynomial N j) ∧
      ∃ z, t.1.settle N j t.2 (rs.getD j 0) = some z ∧ z.Tracks N D rs e (j + 1))
    agree.running fun e member x tracks => by
      obtain ⟨y, t, z, ht, carries, hz, next⟩ :=
        tracks.step two nodes (batched.fits e member) (batched.honest e member) lt length
      exact ⟨(y, t), ht, (Running.turn_isSecret ht).trans (by rw [tracks.inst]), carries,
        z, hz, next⟩
  -- what the coordinator receives
  have inBatch :
      Forall₂ (InBatch N D j) entries ((entries.map Entry.coeff).zip (turned.map Prod.snd)) :=
    inBatch_zip (afterTurn.imp fun e t h => ⟨h.1, h.2.1⟩)
  have received := receiveRoundEvals_combined inBatch plain
  have boundary := combined_boundary two batched lt agree.running
  have degree := combined_natDegree batched lt
  have poly := roundPoly_combined one nodes degree (boundary.trans agree.claim.symm)
  -- the second loop
  obtain ⟨settled, settles, afterSettle⟩ := Run.mapM_forall₂
    afterTurn fun e _ t ⟨_, _, z, hz, next⟩ => ⟨z, hz, next⟩
  have run : Sumcheck.batchRound d N D (entries.map Entry.coeff) s (rs.getD j 0) =
      (compress (trim (coeffs (combined N entries j) (D + 1)))).map fun compressed =>
        { running := settled
          batchedClaim := evaluate (trim (coeffs (combined N entries j) (D + 1))) (rs.getD j 0)
          rSumcheck := s.rSumcheck ++ [rs.getD j 0]
          rounds := s.rounds ++
            [⟨s.batchedClaim, trim (coeffs (combined N entries j) (D + 1)), compressed,
              settled⟩] } := by
    simp only [Sumcheck.batchRound, round, turns, received, table_length, poly, settles,
      bind_eq_bind, bind_some]
    cases compress (trim (coeffs (combined N entries j) (D + 1))) <;> rfl
  have trimmed := trim_coeffs (lt_succ_of_le degree)
  have written := compress_trim_isSome (lt_succ_of_le degree)
  refine ⟨fun varying => ?_, fun constant => ?_⟩
  · obtain ⟨compressed, some⟩ := isSome_iff_exists.mp (written.mpr varying)
    rw [some] at run
    refine ⟨_, run, ⟨afterSettle, ?_, ?_, ?_, fun k rec found => ?_⟩⟩
    · rw [trimmed, evaluate_coeffs (lt_succ_self _), combined_next]
    · have inside : j < rs.length := by omega
      rw [agree.challenges]
      simp [inside]
    · simp [agree.count]
    · rcases Nat.lt_or_ge k s.rounds.length with old | new
      · rw [getElem?_append_left old] at found
        exact agree.rounds k rec found
      · rw [getElem?_append_right new, getElem?_singleton] at found
        split at found
        next last =>
          cases found
          obtain rfl : k = j := by
            have := agree.count
            omega
          exact ⟨trimmed, boundary.trans agree.claim.symm, afterSettle⟩
        · cases found
  · rw [run, map_eq_none_iff]
    by_contra some
    exact absurd (written.mp (isSome_iff_ne_none.mpr some)) (not_not.mpr constant)

/-- A run of the batch, as far as its challenges go. -/
theorem run_agrees (two : (2 : F) ≠ 0) (nodes : Nodes F (D + 1)) (batched : Batched N D rs entries)
    (one : 1 ≤ D) (length : rs.length = N) (plain : d = .rep3 → ∀ e ∈ entries, e.inst.isSecret)
    {s : BatchState F} (start : Agree N D rs entries 0 s) (j : Nat) (le : j ≤ N) :
    ((∀ k < j, (combined N entries k).natDegree ≠ 0) →
      ∃ s', (rs.take j).foldlM (batchRound d N D (entries.map Entry.coeff)) s = some s' ∧
        Agree N D rs entries j s') ∧
    ((∃ k < j, (combined N entries k).natDegree = 0) →
      (rs.take j).foldlM (batchRound d N D (entries.map Entry.coeff)) s = none) := by
  induction j with
  | zero => exact ⟨fun _ => ⟨s, rfl, start⟩, fun ⟨k, lt, _⟩ => absurd lt (Nat.not_lt_zero k)⟩
  | succ j ih =>
    obtain ⟨runs, fails⟩ := ih (by omega)
    have inside : j < rs.length := by omega
    have last : rs.take (j + 1) = rs.take j ++ [rs.getD j 0] := by
      simp [inside]
    rw [last, foldlM_append]
    by_cases varying : ∀ k < j, (combined N entries k).natDegree ≠ 0
    · obtain ⟨s', reached, agree⟩ := runs varying
      obtain ⟨next, stops⟩ := agree.batchRound two nodes batched one length plain le
      rw [reached]
      refine ⟨fun all => ?_, fun ⟨k, lt, constant⟩ => ?_⟩
      · obtain ⟨s'', step, agree'⟩ := next (all j (lt_succ_self j))
        exact ⟨s'', by simp only [bind_eq_bind, bind_some, foldlM_cons, step]; rfl, agree'⟩
      · obtain rfl : k = j := by
          by_contra other
          exact varying k (by omega) constant
        simp only [bind_eq_bind, bind_some, foldlM_cons, stops constant, bind_none]
    · push Not at varying
      rw [fails varying]
      obtain ⟨k, lt, constant⟩ := varying
      exact ⟨fun all => absurd constant (all k (by omega)), fun _ => rfl⟩

end Batch

/-! ## Openings and whole runs -/

/-- The claims the coordinator caches are the values the openings stand for; a public opening is
taken once. -/
def Instance.OpensTo (o : Opening F) : Instance F → Prop
  | .secret s => ∀ vs, List.Forall₂ SumShares (s.openings o.point) vs → o.claims = vs
  | .pub s => o.claims = s.openings o.point

section Openings

omit [DecidableEq F]

theorem combineAdditiveVec_views (views : List (View F)) :
    combineAdditiveVec (fun p => views.map fun v => intoAdditive (v p)) =
      some (views.map fun v => total fun p => intoAdditive (v p)) := by
  simp [combineAdditiveVec, total]

/-- Each instance is opened at the challenges of its own rounds. -/
theorem openInstance_opens {d : Driver} (two : (2 : F) ≠ 0) (N : Nat) (rs : List F) {x : Running F}
    (plain : d = .rep3 → x.inst.isSecret) :
    ∃ o, d.openInstance N rs x = some o ∧ o.point = rs.drop (N - x.inst.numRounds) ∧
      x.inst.OpensTo o := by
  cases x with
  | secret s bound shares =>
    let point := rs.drop (N - s.numRounds)
    have received : d.receiveOpeningClaims ((Running.secret s bound shares).openingMessage point) =
        some ((s.openings point).map fun v => total fun p => intoAdditive (v p)) := by
      have sent : (fun p => ((Running.secret s bound shares).openingMessage point p).1) =
          fun p => (s.openings point).map fun v => intoAdditive (v p) := by
        funext p
        cases p <;> rfl
      rw [Driver.receiveOpeningClaims, sent, combineAdditiveVec_views]
      cases d <;> rfl
    refine ⟨⟨point, _⟩, by simp only [Driver.openInstance, Running.inst,
      Instance.numRounds]; rw [received]; rfl, rfl, ?_⟩
    intro vs shared
    change (s.openings point).map _ = vs
    generalize s.openings point = views at shared
    induction shared with
    | nil => rfl
    | cons head _ ih => simp [intoAdditive_total two head, ih]
  | pub s bound value =>
    cases d with
    | rep3 => cases plain rfl
    | hybrid =>
        exact ⟨⟨rs.drop (N - s.numRounds), s.openings (rs.drop (N - s.numRounds))⟩, rfl, rfl, rfl⟩

end Openings

section Prove

variable {d : Driver} {rs : List F} {entries : List (Entry F)}

/-- The proof of the plaintext batched sumcheck: each round polynomial is the combined one, whose
values at 0 and 1 add up to the running claim; the claim kept for a started instance opens to its
value at the challenge; and each instance is opened at the challenges of its own rounds. -/
structure IsPlaintext (entries : List (Entry F)) (N : Nat) (rs : List F) (proof : BatchProof F) :
    Prop where
  count : proof.rounds.length = N
  round : ∀ j rec, proof.rounds[j]? = some rec →
    rec.poly = coeffs (combined N entries j) ((combined N entries j).natDegree + 1) ∧
      (combined N entries j).eval 0 + (combined N entries j).eval 1 = rec.batchedClaim ∧
        List.Forall₂ (fun e x => x.inst = e.inst ∧ x.bound = (rs.take (j + 1)).drop (e.offset N) ∧
          (e.offset N ≤ j → x.claim = (e.g (j - e.offset N)).eval (rs.getD j 0))) entries
            rec.running
  challenges : proof.rSumcheck = rs
  openings : List.Forall₂ (fun e o => o.point = rs.drop (e.offset N) ∧
    e.inst.OpensTo o) entries proof.openings

theorem le_maxOf {n : Nat} {ns : List Nat} (member : n ∈ ns) : n ≤ maxOf ns := by
  induction ns with
  | nil => cases member
  | cons m ns ih =>
    rcases mem_cons.mp member with rfl | rest
    · exact Nat.le_max_left _ _
    · exact (ih rest).trans (Nat.le_max_right _ _)

/-- The batch of the instances, with the bounds its members are checked against. -/
def instancesOf (entries : List (Entry F)) : List (Instance F) := entries.map Entry.inst

omit [DecidableEq F] in
theorem initialClaim_eq :
    initialClaim (instancesOf entries) (entries.map Entry.coeff) =
      batchedClaimAt (maxNumRounds (instancesOf entries)) rs entries 0 := by
  rw [initialClaim, instancesOf, zipWith_map, zipWith_self]
  refine congrArg List.sum (List.map_congr_left fun e _ => ?_)
  rw [mul_comm]
  rfl

variable (two : (2 : F) ≠ 0) (nonempty : entries ≠ [])
  (nodes : Nodes F (maxDegree (instancesOf entries) + 1))
  (length : rs.length = maxNumRounds (instancesOf entries))
  (degrees : ∀ e ∈ entries, 1 ≤ e.inst.degree)
  (paddings : ∀ e ∈ entries, maxNumRounds (instancesOf entries) - e.inst.numRounds ≤ 255)
  (honest : ∀ e ∈ entries,
    e.Honest (maxNumRounds (instancesOf entries)) (maxDegree (instancesOf entries)) rs)
include two nonempty nodes length degrees paddings honest

/-- The driver has a proof, the plaintext one, exactly when no combined round polynomial is
constant. -/
theorem prove_plaintext_iff (plain : d = .rep3 → ∀ e ∈ entries, e.inst.isSecret) :
    (∃ proof, d.prove (instancesOf entries) (entries.map Entry.coeff) rs = some proof ∧
        IsPlaintext entries (maxNumRounds (instancesOf entries)) rs proof) ↔
      ∀ j < maxNumRounds (instancesOf entries),
        (combined (maxNumRounds (instancesOf entries)) entries j).natDegree ≠ 0 := by
  have fits : ∀ e ∈ entries, e.Fits (maxNumRounds (instancesOf entries))
      (maxDegree (instancesOf entries)) := fun e member =>
    ⟨le_maxOf (mem_map_of_mem (mem_map_of_mem member)), paddings e member, degrees e member,
      le_maxOf (mem_map_of_mem (mem_map_of_mem member))⟩
  have one : 1 ≤ maxDegree (instancesOf entries) := by
    obtain ⟨e, member⟩ := exists_mem_of_ne_nil _ nonempty
    exact (degrees e member).trans (fits e member).degree
  have initial : initialClaim (instancesOf entries) (entries.map Entry.coeff) =
      batchedClaimAt (maxNumRounds (instancesOf entries)) rs entries 0 := initialClaim_eq
  have accepted : ¬ (instancesOf entries = [] ∨
    (entries.map Entry.coeff).length ≠ (instancesOf entries).length ∨
      rs.length ≠ maxNumRounds (instancesOf entries)) := by
    simp [instancesOf, nonempty, length]
  simp only [Driver.prove, if_neg accepted]
  generalize maxNumRounds (instancesOf entries) = N at *
  generalize maxDegree (instancesOf entries) = D at *
  have listed : Forall₂ (fun e i => i = Entry.inst e) entries (instancesOf entries) := by
    simp [instancesOf]
  obtain ⟨running, starts, tracks⟩ :=
    Run.mapM_forall₂ (f := Running.start N) (S := fun e x => x.Tracks N D rs e 0)
    listed fun e member i same => by
      cases same
      exact Running.start_tracks two (fits e member) (honest e member).opens
  have start : Agree N D rs entries 0 ⟨running,
      initialClaim (instancesOf entries) (entries.map Entry.coeff), [], []⟩ :=
    ⟨tracks, initial, rfl, rfl, fun _ _ found => by cases found⟩
  obtain ⟨runs, fails⟩ := run_agrees two nodes ⟨fits, honest⟩ one length plain start N le_rfl
  rw [← length, take_length, length] at runs fails
  rw [starts]
  constructor
  · rintro ⟨proof, run, -⟩
    by_contra constant
    push Not at constant
    rw [bind_eq_bind, bind_some, fails constant] at run
    cases run
  · intro varying
    obtain ⟨s, run, agree⟩ := runs varying
    obtain ⟨openings, opens, opened⟩ := Run.mapM_forall₂
      (S := fun e o => o.point = rs.drop (e.offset N) ∧ e.inst.OpensTo o) agree.running
        fun e member x tracks => by
        obtain ⟨o, made, point, value⟩ := openInstance_opens two N s.rSumcheck fun driver => by
          rw [tracks.inst]
          exact plain driver e member
        rw [agree.challenges, ← length, take_length, length, tracks.inst] at point
        exact ⟨o, made, point, tracks.inst ▸ value⟩
    refine ⟨⟨s.rounds, s.rSumcheck, openings⟩, ?_, agree.count, fun j rec found => ?_, ?_, opened⟩
    · simp only [bind_eq_bind, bind_some, run, opens]
      rfl
    · obtain ⟨poly, boundary, kept⟩ := agree.rounds j rec found
      refine ⟨poly, boundary, kept.imp fun e x tracks => ⟨tracks.inst, tracks.bound,
        fun started => ?_⟩⟩
      rw [tracks.claim, claimAt_succ started]
    · simp [agree.challenges, ← length]

/-- No round of the plaintext sumcheck sends a constant polynomial. -/
def NeverConstant (entries : List (Entry F)) : Prop :=
  ∀ j < maxNumRounds (instancesOf entries),
    (combined (maxNumRounds (instancesOf entries)) entries j).natDegree ≠ 0

/-- Both drivers produce the proof of the plaintext batched sumcheck exactly when none of its round
polynomials is constant. -/
theorem batched_sumcheck_plaintext_iff :
    ((∃ proof, HybridBatchedSumcheck.prove (instancesOf entries) (entries.map Entry.coeff) rs =
      some proof ∧
        IsPlaintext entries (maxNumRounds (instancesOf entries)) rs proof) ↔
          NeverConstant entries) ∧
      ∀ secrets : List (SecretInstance F), instancesOf entries = secrets.map .secret →
        ((∃ proof, Rep3BatchedSumcheck.prove secrets (entries.map Entry.coeff) rs = some proof ∧
          IsPlaintext entries (maxNumRounds (instancesOf entries)) rs proof) ↔
            NeverConstant entries) := by
  refine ⟨prove_plaintext_iff two nonempty nodes length degrees paddings honest
    (fun h => by cases h), fun secrets same => ?_⟩
  rw [Rep3BatchedSumcheck.prove, ← same]
  refine prove_plaintext_iff two nonempty nodes length degrees paddings honest fun _ e member => ?_
  have inside : e.inst ∈ secrets.map Instance.secret := same ▸ mem_map_of_mem member
  obtain ⟨s, -, kind⟩ := mem_map.mp inside
  rw [← kind]
  rfl

end Prove

/-! ## Two batches of one round -/

/-- The polynomial `X`, with claim and evaluations split into shares. -/
def line : SecretInstance ℚ where
  degree := 1
  numRounds := 1
  inputClaim := .additive fun
    | .ID0 => 3
    | _ => -1
  inputClaimPublic := 1
  message _ _ _ D := fun
    | .ID0 => List.replicate D 4
    | _ => List.replicate D (-2)
  openings _ := []

/-- A public instance without rounds: it stays a constant. -/
def fixed : PublicInstance ℚ where
  degree := 1
  numRounds := 0
  inputClaimPublic := 6
  message _ _ _ _ := []
  openings _ := [6]

def flat : SecretInstance ℚ where
  degree := 1
  numRounds := 1
  inputClaim := .pub 2
  inputClaimPublic := 2
  message _ _ _ D := fun
    | .ID0 => List.replicate D 1
    | _ => List.replicate D 0
  openings _ := []

noncomputable def lineAndFixed : List (Entry ℚ) :=
  [⟨1, .secret line, fun _ => .X⟩, ⟨1, .pub fixed, fun _ => 0⟩]

noncomputable def flatAlone : List (Entry ℚ) := [⟨1, .secret flat, fun _ => 1⟩]

theorem lineAndFixed_honest : ∀ e ∈ lineAndFixed, e.Honest 1 1 [3] := by
  intro e member
  rcases mem_pair.mp member with rfl | rfl
  · refine ⟨?_, fun l _ => natDegree_X.le, fun l own x reached => ?_, fun l own x reached => ?_⟩
    · change total _ = (1 : ℚ)
      norm_num [total]
    all_goals
      obtain rfl : l = 0 := lt_one_iff.mp own
      cases reached
    · norm_num [Running.claim, total, Rep3Value.scaled, line, Instance.numRounds]
    · refine ⟨fun p => by cases p <;> simp [line], fun i hi => ?_⟩
      obtain rfl : i = 0 := lt_one_iff.mp hi
      norm_num [line, total, point]
  · exact ⟨trivial, fun l own => absurd own (Nat.not_lt_zero l),
      fun l own => absurd own (Nat.not_lt_zero l), fun l own => absurd own (Nat.not_lt_zero l)⟩

theorem flatAlone_honest : ∀ e ∈ flatAlone, e.Honest 1 1 [3] := by
  intro e member
  cases mem_singleton.mp member
  refine ⟨rfl, fun l _ => by simp, fun l own x reached => ?_, fun l own x reached => ?_⟩
  all_goals
    obtain rfl : l = 0 := lt_one_iff.mp own
    cases reached
  · norm_num [Running.claim, total, Rep3Value.scaled, flat, Instance.numRounds]
  · refine ⟨fun p => by cases p <;> simp [flat], fun i hi => ?_⟩
    obtain rfl : i = 0 := lt_one_iff.mp hi
    simp [flat, total]

theorem lineAndFixed_neverConstant : NeverConstant lineAndFixed := by
  intro j lt
  obtain rfl : j = 0 := lt_one_iff.mp lt
  have sum : combined 1 lineAndFixed 0 = .X + .C 6 := by
    simp [combined, lineAndFixed, roundPolynomial, offset, Instance.numRounds,
      Instance.inputClaimPublic, line, fixed]
  change (combined 1 lineAndFixed 0).natDegree ≠ 0
  rw [sum, natDegree_X_add_C]
  exact one_ne_zero

/-- A secret instance of one round and a public one that never starts. -/
theorem batched_sumcheck_plaintext_iff_line :
    ∃ proof, HybridBatchedSumcheck.prove [.secret line, .pub fixed] [1, 1] [3] = some proof ∧
      IsPlaintext lineAndFixed 1 [3] proof :=
  (batched_sumcheck_plaintext_iff two_ne_zero (cons_ne_nil _ _) (nodes_rat _) rfl
    (fun e member => by rcases mem_pair.mp member with rfl | rfl <;> exact le_rfl)
    (fun e member => by rcases mem_pair.mp member with rfl | rfl <;> decide)
    lineAndFixed_honest).1.mpr lineAndFixed_neverConstant

/-- The workers' messages are right, and the coordinator panics on them. -/
theorem constant_round_panics :
    (∀ e ∈ flatAlone, e.Honest 1 1 [3]) ∧ HybridBatchedSumcheck.prove [.secret flat] [1] [3] =
      none := by
  refine ⟨flatAlone_honest, ?_⟩
  have none : (HybridBatchedSumcheck.prove [.secret flat] [1] [3]).isNone = true := by
    decide +kernel
  exact isNone_iff_eq_none.mp none

end ProviaVM.Sumcheck
