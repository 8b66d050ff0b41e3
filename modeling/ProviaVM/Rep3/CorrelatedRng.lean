import Mathlib.Algebra.Group.Pi.Basic
import ProviaVM.Rep3.Share

/-! # Generators in step

`Rep3CorrelatedRng` (`rep3/rngs.rs`) with its setup and forks (`network.rs`) and the draws of `b2a`
and `b2a_many`. A generator is any deterministic machine: a draw of whatever type is a function to
the value and the next state. The parties make the same calls in the same order. -/
namespace ProviaVM.Rep3.Generators
open Preprocessing

/-- `RngType`: `from_seed`, and `gen` at the type of seeds. -/
structure RngType (R Seed : Type) where
  fromSeed : Seed → R
  gen : R → Seed × R

structure Rep3Rand (R : Type) where
  rng1 : R
  rng2 : R

structure Rep3RandBitComp (R : Type) where
  rng1 : R
  rng2 : R
  rng3 : Option R

structure Rep3CorrelatedRng (R : Type) where
  rand : Rep3Rand R
  bitcomp1 : Rep3RandBitComp R
  bitcomp2 : Rep3RandBitComp R

variable {R Seed α : Type}

def drawVec (draw : R → α × R) : (n : Nat) → R → (Fin n → α) × R
  | 0, rng => (Fin.elim0, rng)
  | n + 1, rng =>
    let (first, rng) := draw rng
    let (rest, rng) := drawVec draw n rng
    (Fin.cons first rest, rng)

/-- `random_elements` and its variants for other types. -/
def Rep3Rand.randomElements (draw : R → α × R) (rand : Rep3Rand R) : (α × α) × Rep3Rand R :=
  (((draw rand.rng1).1, (draw rand.rng2).1), ⟨(draw rand.rng1).2, (draw rand.rng2).2⟩)

/-- `masking_element` and its variants for other types. -/
def Rep3Rand.maskingElement [Sub α] (draw : R → α × R) (rand : Rep3Rand R) : α × Rep3Rand R :=
  let ((a, b), rand) := rand.randomElements draw
  (a - b, rand)

/-- The sum of `random_elements_3keys`; unreachable without the third generator. -/
def Rep3RandBitComp.sum3keys [Add α] (draw : R → α × R) (comp : Rep3RandBitComp R) :
    Option (α × Rep3RandBitComp R) := do
  let rng3 ← comp.rng3
  return ((draw comp.rng1).1 + (draw comp.rng2).1 + (draw rng3).1,
    ⟨(draw comp.rng1).2, (draw comp.rng2).2, some (draw rng3).2⟩)

def Rep3CorrelatedRng.generateShared (draw : R → α × R) (rngs : Rep3CorrelatedRng R) :
    PartyID → α × Rep3CorrelatedRng R
  | .ID0 =>
    ((draw rngs.bitcomp1.rng2).1, { rngs with bitcomp1.rng2 := (draw rngs.bitcomp1.rng2).2 })
  | .ID1 =>
    ((draw rngs.bitcomp1.rng2).1, { rngs with bitcomp1.rng2 := (draw rngs.bitcomp1.rng2).2 })
  | .ID2 =>
    ((draw rngs.bitcomp1.rng1).1, { rngs with bitcomp1.rng1 := (draw rngs.bitcomp1.rng1).2 })

/-- What `b2a` draws: the pair for `y` and one for each AND of the adder, and the sums of the key
triples. -/
structure B2aDraws (α : Type) (ands : Nat) where
  masks : (Fin (ands + 1) → α) × (Fin (ands + 1) → α)
  k2 : Option α
  k3 : Option α

def Rep3CorrelatedRng.b2a [Add α] (draw : R → α × R) (ands : Nat) (rngs : Rep3CorrelatedRng R)
    (p : PartyID) :
    Option (B2aDraws α ands × Rep3CorrelatedRng R) :=
  let (masks, rand) := rngs.rand.randomElements (drawVec draw (ands + 1))
  match p with
  | .ID0 => do
    let (k3, bitcomp2) ← rngs.bitcomp2.sum3keys draw
    return (⟨masks, none, some k3⟩, { rngs with rand, bitcomp2 })
  | .ID1 => do
    let (k2, bitcomp1) ← rngs.bitcomp1.sum3keys draw
    return (⟨masks, some k2, none⟩, { rngs with rand, bitcomp1 })
  | .ID2 => do
    let (k2, bitcomp1) ← rngs.bitcomp1.sum3keys draw
    let (k3, bitcomp2) ← rngs.bitcomp2.sum3keys draw
    return (⟨masks, some k2, some k3⟩, ⟨rand, bitcomp1, bitcomp2⟩)

section Fork

variable (T : RngType R Seed)

/-- The fork first, then the generators it was made from. -/
def Rep3Rand.fork (rand : Rep3Rand R) : Rep3Rand R × Rep3Rand R :=
  let ((seed1, seed2), rand) := rand.randomElements T.gen
  (⟨T.fromSeed seed1, T.fromSeed seed2⟩, rand)

def Rep3RandBitComp.fork (comp : Rep3RandBitComp R) : Rep3RandBitComp R × Rep3RandBitComp R :=
  (⟨T.fromSeed (T.gen comp.rng1).1, T.fromSeed (T.gen comp.rng2).1,
    comp.rng3.map fun rng => T.fromSeed (T.gen rng).1⟩,
    ⟨(T.gen comp.rng1).2, (T.gen comp.rng2).2, comp.rng3.map fun rng => (T.gen rng).2⟩)

def Rep3CorrelatedRng.fork (rngs : Rep3CorrelatedRng R) :
    Rep3CorrelatedRng R × Rep3CorrelatedRng R :=
  (⟨(rngs.rand.fork T).1, (rngs.bitcomp1.fork T).1, (rngs.bitcomp2.fork T).1⟩,
    ⟨(rngs.rand.fork T).2, (rngs.bitcomp1.fork T).2, (rngs.bitcomp2.fork T).2⟩)

/-- `setup_prf` and `setup_bitcomp`: party `p` drew `seed p` and sent it on, and receives keys of
the party before it. -/
def setup (seed : PartyID → Seed) (p : PartyID) : Rep3CorrelatedRng R :=
  let first q : (Seed × Seed) × Rep3Rand R :=
    Rep3Rand.randomElements T.gen ⟨T.fromSeed (seed q), T.fromSeed (seed q.prev)⟩
  let second q := (first q).2.randomElements T.gen
  let ((k1a, k1c), _) := first p
  let ((k2a, k2c), rand) := second p
  let k1b := (first p.prev).1.2
  let k2b := (second p.prev).1.2
  let bitcomp1 := ⟨T.fromSeed k1a, T.fromSeed k1b, some (T.fromSeed k1c)⟩
  match p with
  | .ID0 => ⟨rand, bitcomp1, ⟨T.fromSeed k2a, T.fromSeed k2b, some (T.fromSeed k2c)⟩⟩
  | .ID1 => ⟨rand, bitcomp1, ⟨T.fromSeed k2a, T.fromSeed k2c, none⟩⟩
  | .ID2 => ⟨rand, bitcomp1, ⟨T.fromSeed k2a, T.fromSeed k2b, some (T.fromSeed k2c)⟩⟩

end Fork

/-! ## Calls -/

/-- A call of all parties. A call on vectors is one at `Fin n → α`: no generator is read by two
parts of its loop. -/
inductive Call (R : Type) : Type 1 where
  | masking {α : Type} [AddCommGroup α] (draw : R → α × R)
  | random {α : Type} (draw : R → α × R)
  | b2a {α : Type} [AddCommGroup α] (draw : R → α × R) (ands : Nat)
  | generateShared {α : Type} (draw : R → α × R)

namespace Call

def maskingElementsVec [AddCommGroup α] (draw : R → α × R) (len : Nat) : Call R :=
  .masking (drawVec draw len)

def b2aMany [AddCommGroup α] (draw : R → α × R) (len ands : Nat) : Call R :=
  .b2a (drawVec draw len) ands

abbrev Value : Call R → Type
  | @masking _ α _ _ => α
  | @random _ α _ => α × α
  | @b2a _ α _ _ ands => B2aDraws α ands
  | @generateShared _ α _ => α

def run (p : PartyID) (rngs : Rep3CorrelatedRng R) :
    (call : Call R) → Option (call.Value × Rep3CorrelatedRng R)
  | @masking _ _ _ draw =>
    let (mask, rand) := rngs.rand.maskingElement draw
    some (mask, { rngs with rand })
  | .random draw =>
    let (pair, rand) := rngs.rand.randomElements draw
    some (pair, { rngs with rand })
  | @b2a _ _ _ draw ands => rngs.b2a draw ands p
  | .generateShared draw => some (rngs.generateShared draw p)

def Correlated : (call : Call R) → (PartyID → call.Value) → Prop
  | @masking .., v => total v = 0
  | .random _, v => ∀ p, (v p).2 = (v p.prev).1
  | @b2a .., v =>
    (∀ p, (v p).masks.2 = (v p.prev).masks.1) ∧ (v .ID1).k2 = (v .ID2).k2 ∧
      (v .ID0).k3 = (v .ID2).k3
  | .generateShared _, v => ∀ p q, v p = v q

/-- The one call whose draws are not taken from generators that all parties have in step. -/
def isGenerateShared : Call R → Bool
  | .generateShared _ => true
  | _ => false

end Call

/-- A step of one context. Contexts share no generator, so a context sees a sequence of calls and
forks, which after a fork goes on with either of the two. -/
inductive Step (R : Type) : Type 1 where
  | call (call : Call R)
  | forkChild
  | forkParent

def Step.isGenerateShared : Step R → Bool
  | .call c => c.isGenerateShared
  | _ => false

/-- No call fails, and `P` holds of the values of each. -/
def Along (T : RngType R Seed) (P : (call : Call R) → (PartyID → call.Value) → Prop) :
    List (Step R) → (PartyID → Rep3CorrelatedRng R) → Prop
  | [], _ => True
  | .call call :: steps, g =>
    ∃ v next, (∀ p, call.run p (g p) = some (v p, next p)) ∧ P call v ∧ Along T P steps next
  | .forkChild :: steps, g => Along T P steps fun p => ((g p).fork T).1
  | .forkParent :: steps, g => Along T P steps fun p => ((g p).fork T).2

/-! ## The invariant -/

/-- Two parties hold the same three generators, in the order of the setup. -/
def Rotated (a b : Rep3RandBitComp R) : Prop := ∃ x y z, a = ⟨x, y, some z⟩ ∧ b = ⟨y, z, some x⟩

structure Aligned (g : PartyID → Rep3CorrelatedRng R) : Prop where
  rand : ∀ p, (g p).rand.rng2 = (g p.prev).rand.rng1
  bitcomp1 : Rotated (g .ID1).bitcomp1 (g .ID2).bitcomp1
  bitcomp2 : Rotated (g .ID2).bitcomp2 (g .ID0).bitcomp2

variable {T : RngType R Seed} {g : PartyID → Rep3CorrelatedRng R}

theorem aligned_setup (seed : PartyID → Seed) : Aligned (setup T seed) where
  rand p := by cases p <;> rfl
  bitcomp1 := ⟨_, _, _, rfl, rfl⟩
  bitcomp2 := ⟨_, _, _, rfl, rfl⟩

theorem Rotated.sum3keys [AddCommGroup α] {a b : Rep3RandBitComp R} (h : Rotated a b)
    (draw : R → α × R) :
    ∃ s a' b', a.sum3keys draw = some (s, a') ∧ b.sum3keys draw = some (s, b') ∧ Rotated a' b' := by
  obtain ⟨x, y, z, rfl, rfl⟩ := h
  refine ⟨_, _, _, rfl, ?_, ⟨_, _, _, rfl, rfl⟩⟩
  rw [add_rotate]
  rfl

theorem Rotated.fork {a b : Rep3RandBitComp R} (h : Rotated a b) :
    Rotated (a.fork T).1 (b.fork T).1 ∧ Rotated (a.fork T).2 (b.fork T).2 := by
  obtain ⟨x, y, z, rfl, rfl⟩ := h
  exact ⟨⟨_, _, _, rfl, rfl⟩, ⟨_, _, _, rfl, rfl⟩⟩

theorem Aligned.fork (h : Aligned g) :
    Aligned (fun p => ((g p).fork T).1) ∧ Aligned (fun p => ((g p).fork T).2) :=
  ⟨⟨fun p => congrArg (fun rng => T.fromSeed (T.gen rng).1) (h.rand p), h.bitcomp1.fork.1,
    h.bitcomp2.fork.1⟩, ⟨fun p => congrArg (fun rng => (T.gen rng).2) (h.rand p), h.bitcomp1.fork.2,
    h.bitcomp2.fork.2⟩⟩

/-- A call finds the generators in step and leaves them so. Its values are correlated, unless it
is `generate_shared`, in which party 0 draws from another generator than the other two. -/
theorem Aligned.call (h : Aligned g) (call : Call R) :
    ∃ v next, (∀ p, call.run p (g p) = some (v p, next p)) ∧ Aligned next ∧
      (call.isGenerateShared = false → call.Correlated v) := by
  cases call with
  | masking draw =>
    refine ⟨_, _, fun p => rfl,
      ⟨fun p => congrArg (fun rng => (draw rng).2) (h.rand p), h.bitcomp1, h.bitcomp2⟩, fun _ => ?_⟩
    simp only [Call.Correlated, total, h.rand, PartyID.prev]
    abel
  | random draw =>
    exact ⟨_, _, fun p => rfl,
      ⟨fun p => congrArg (fun rng => (draw rng).2) (h.rand p), h.bitcomp1, h.bitcomp2⟩,
      fun _ p => congrArg (fun rng => (draw rng).1) (h.rand p)⟩
  | b2a draw ands =>
    obtain ⟨k2, one, two, ran1, ran2, first⟩ := h.bitcomp1.sum3keys draw
    obtain ⟨k3, two', zero, ran2', ran0, second⟩ := h.bitcomp2.sum3keys draw
    let pairs p := (g p).rand.randomElements (drawVec draw (ands + 1))
    refine ⟨fun p => ⟨(pairs p).1, if p = .ID0 then none else some k2,
        if p = .ID1 then none else some k3⟩,
      fun p => ⟨(pairs p).2,
        if p = .ID0 then (g .ID0).bitcomp1 else if p = .ID1 then one else two,
        if p = .ID0 then zero else if p = .ID1 then (g .ID1).bitcomp2 else two'⟩,
      fun p => ?_, ⟨fun p => ?_, first, second⟩, fun _ => ⟨fun p => ?_, rfl, rfl⟩⟩
    · cases p <;> simp [Call.run, Rep3CorrelatedRng.b2a, ran0, ran1, ran2, ran2', pairs]
    · have := congrArg (fun rng => (drawVec draw (ands + 1) rng).2) (h.rand p)
      cases p <;> exact this
    · exact congrArg (fun rng => (drawVec draw (ands + 1) rng).1) (h.rand p)
  | generateShared draw =>
    obtain ⟨x, y, z, one, two⟩ := h.bitcomp1
    refine ⟨_, _, fun p => rfl,
      ⟨fun p => ?_, ⟨x, (draw y).2, z, ?_, ?_⟩, h.bitcomp2⟩, fun plain => by cases plain⟩
    · cases p <;> exact h.rand _
    · simp only [one]
    · simp only [two]

theorem Aligned.along (h : Aligned g) {steps : List (Step R)}
    (plain : ∀ step ∈ steps, step.isGenerateShared = false) :
    Along T Call.Correlated steps g := by
  induction steps generalizing g with
  | nil => trivial
  | cons step steps ih =>
    have later : ∀ step ∈ steps, step.isGenerateShared = false :=
      fun step member => plain step (.tail _ member)
    cases step with
    | call call =>
      obtain ⟨v, next, ran, kept, correlated⟩ := h.call call
      exact ⟨v, next, ran, correlated (plain _ (.head _)), ih kept later⟩
    | forkChild => exact ih h.fork.1 later
    | forkParent => exact ih h.fork.2 later

/-- From the setup on, in every run that does not call `generate_shared`, no call fails and the
draws of the parties are correlated, in every fork and at every type. -/
theorem rng_correlated (T : RngType R Seed) (seed : PartyID → Seed) (steps : List (Step R))
    (plain : ∀ step ∈ steps, step.isGenerateShared = false) :
    Along T Call.Correlated steps (setup T seed) :=
  (aligned_setup seed).along plain

def threeSeeds : PartyID → Nat
  | .ID0 => 0
  | .ID1 => 1
  | .ID2 => 2

def counter : RngType Nat Nat := ⟨id, fun rng => (rng, rng + 10)⟩

def drawInt (rng : Nat) : ℤ × Nat := (rng, rng + 3)

/-- Vectors, a conversion and a pair, in a child context and in a fork of it. -/
theorem rng_correlated_counter : Along counter Call.Correlated
    [.forkChild, .call (.maskingElementsVec drawInt 2), .call (.b2aMany drawInt 3 4), .forkParent,
      .forkChild, .call (.random drawInt), .call (.b2a drawInt 1)] (setup counter threeSeeds) :=
  rng_correlated counter threeSeeds _ (by decide)

/-- The first `generate_shared` of the first context, with seeds 0, 1 and 2. -/
theorem generate_shared_differs : ¬ Along counter Call.Correlated
    [.forkChild, .call (.generateShared fun rng => (rng, rng + 1))]
    (setup counter threeSeeds) := by
  rintro ⟨v, next, ran, same, -⟩
  have zero : (1 : Nat) = v .ID0 := Option.some.inj (congrArg (Option.map Prod.fst) (ran .ID0))
  have one : (2 : Nat) = v .ID1 := Option.some.inj (congrArg (Option.map Prod.fst) (ran .ID1))
  have : (1 : Nat) = 2 := zero.trans ((same .ID0 .ID1).trans one.symm)
  omega

end ProviaVM.Rep3.Generators
