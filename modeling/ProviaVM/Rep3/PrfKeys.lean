import ProviaVM.Rep3.Share

/-! # The keys of the correlated generators

`IoContext::init` (`network.rs`) and `Rep3CorrelatedRng` (`rep3/rngs.rs`). A key is named by where
it comes from: the entropy of a party, or a draw from the stream of another key. Distinct names
stand for distinct seeds. `knows` says which keys a party can compute: those it drew or was sent,
and those drawn from them. -/
namespace ProviaVM.Rep3.Keys
open Preprocessing (PartyID)

inductive Key where
  | entropy (p : PartyID)
  | drawn (key : Key) (pos : Nat)
  deriving DecidableEq

/-- A generator: the key of its stream and the next position. -/
structure KeyedRng where
  key : Key
  pos : Nat
  deriving DecidableEq

namespace KeyedRng

def fromSeed (key : Key) : KeyedRng := ⟨key, 0⟩

def genSeed (rng : KeyedRng) : Key × KeyedRng :=
  (.drawn rng.key rng.pos, { rng with pos := rng.pos + 1 })

end KeyedRng

/-- `Rep3Rand`: the party's own generator and the one of the party before it. -/
structure Rep3Rand where
  rng1 : KeyedRng
  rng2 : KeyedRng

namespace Rep3Rand

def new (seed1 seed2 : Key) : Rep3Rand := ⟨.fromSeed seed1, .fromSeed seed2⟩

def randomSeeds (rand : Rep3Rand) : (Key × Key) × Rep3Rand :=
  let (seed1, rng1) := rand.rng1.genSeed
  let (seed2, rng2) := rand.rng2.genSeed
  ((seed1, seed2), ⟨rng1, rng2⟩)

def fork (rand : Rep3Rand) : Rep3Rand × Rep3Rand :=
  let ((seed1, seed2), rand) := rand.randomSeeds
  (new seed1 seed2, rand)

end Rep3Rand

/-- `Rep3RandBitComp`: a party without all three keys cannot draw the sum of the three streams. -/
structure Rep3RandBitComp where
  rng1 : KeyedRng
  rng2 : KeyedRng
  rng3 : Option KeyedRng

namespace Rep3RandBitComp

def new2keys (rng1 rng2 : Key) : Rep3RandBitComp := ⟨.fromSeed rng1, .fromSeed rng2, none⟩

def new3keys (rng1 rng2 rng3 : Key) : Rep3RandBitComp :=
  ⟨.fromSeed rng1, .fromSeed rng2, some (.fromSeed rng3)⟩

def fork (comp : Rep3RandBitComp) : Rep3RandBitComp × Rep3RandBitComp :=
  let (seed1, rng1) := comp.rng1.genSeed
  let (seed2, rng2) := comp.rng2.genSeed
  let third := comp.rng3.map KeyedRng.genSeed
  (⟨.fromSeed seed1, .fromSeed seed2, third.map fun r => .fromSeed r.1⟩,
    ⟨rng1, rng2, third.map (·.2)⟩)

end Rep3RandBitComp

structure Rep3CorrelatedRng where
  rand : Rep3Rand
  bitcomp1 : Rep3RandBitComp
  bitcomp2 : Rep3RandBitComp

namespace Rep3CorrelatedRng

def fork (rngs : Rep3CorrelatedRng) : Rep3CorrelatedRng × Rep3CorrelatedRng :=
  let (rand, rand') := rngs.rand.fork
  let (bitcomp1, bitcomp1') := rngs.bitcomp1.fork
  let (bitcomp2, bitcomp2') := rngs.bitcomp2.fork
  (⟨rand, bitcomp1, bitcomp2⟩, ⟨rand', bitcomp1', bitcomp2'⟩)

/-- The generators of the context that is forked off after `n` others. -/
def forkAfter : Nat → Rep3CorrelatedRng → Rep3CorrelatedRng
  | 0, rngs => rngs.fork.1
  | n + 1, rngs => forkAfter n rngs.fork.2

end Rep3CorrelatedRng

/-! ## Setup -/

/-- `setup_prf`: a party draws a seed and sends it to the next one. -/
def setupPrf (p : PartyID) : Rep3Rand := .new (.entropy p) (.entropy p.prev)

/-- The four keys a party draws in `setup_bitcomp`, and its generators afterwards. -/
structure BitcompDraws where
  k1a : Key
  k1c : Key
  k2a : Key
  k2c : Key
  rand : Rep3Rand

def bitcompDraws (rand : Rep3Rand) : BitcompDraws :=
  let ((k1a, k1c), rand) := rand.randomSeeds
  let ((k2a, k2c), rand) := rand.randomSeeds
  ⟨k1a, k1c, k2a, k2c, rand⟩

/-- What a party sends to the next one in `setup_bitcomp`. -/
def bitcompMessage (p : PartyID) : List Key :=
  let draws := bitcompDraws (setupPrf p)
  match p with
  | .ID0 => [draws.k1c]
  | .ID1 => [draws.k1c, draws.k2c]
  | .ID2 => [draws.k1c, draws.k2c]

/-- `setup_bitcomp` with the message of the party before; a message of another shape is an error. -/
def setupBitcomp (p : PartyID) (message : List Key) : Option (Rep3RandBitComp × Rep3RandBitComp) :=
  let draws := bitcompDraws (setupPrf p)
  match p, message with
  | .ID0, [k1b, k2b] => some (.new3keys draws.k1a k1b draws.k1c, .new3keys draws.k2a k2b draws.k2c)
  | .ID1, [k1b] => some (.new3keys draws.k1a k1b draws.k1c, .new2keys draws.k2a draws.k2c)
  | .ID2, [k1b, k2b] => some (.new3keys draws.k1a k1b draws.k1c, .new3keys draws.k2a k2b draws.k2c)
  | _, _ => none

/-- The master generators of `IoContext::init`, from which every context is forked. -/
def masterRngs (p : PartyID) : Option Rep3CorrelatedRng := do
  let (bitcomp1, bitcomp2) ← setupBitcomp p (bitcompMessage p.prev)
  return ⟨(bitcompDraws (setupPrf p)).rand, bitcomp1, bitcomp2⟩

/-- The generators of a party in the context forked off after `n` others. -/
def contextRngs (n : Nat) (p : PartyID) : Option Rep3CorrelatedRng :=
  (masterRngs p).map (.forkAfter n)

/-! ## Knowledge -/

/-- The seeds a party drew from its entropy or received in the setup. -/
def heldKeys (p : PartyID) : List Key := .entropy p :: .entropy p.prev :: bitcompMessage p.prev

/-- A party that holds a key knows its stream, and so every key drawn from it. -/
def knows (p : PartyID) : Key → Bool
  | .entropy q => .entropy q ∈ heldKeys p
  | .drawn key pos => .drawn key pos ∈ heldKeys p || knows p key

/-- The key of party `p`'s own generator in the context. -/
def randKey (n : Nat) (p : PartyID) : Key := .drawn (.entropy p) (n + 2)

/-- The key of party `p`'s part of `bitcomp1` (`false`) or `bitcomp2` (`true`) in the context. -/
def bitcompKey (second : Bool) (n : Nat) (p : PartyID) : Key :=
  .drawn (.drawn (.entropy p) second.toNat) n

/-- A generator as the `n`-th fork from now on has it. -/
def KeyedRng.forked (n : Nat) (rng : KeyedRng) : KeyedRng :=
  .fromSeed (.drawn rng.key (rng.pos + n))

/-- The fork after `n` others has the forked keys in every position. -/
theorem forkAfter_eq (n : Nat) (rngs : Rep3CorrelatedRng) :
    rngs.forkAfter n =
      ⟨⟨rngs.rand.rng1.forked n, rngs.rand.rng2.forked n⟩,
        ⟨rngs.bitcomp1.rng1.forked n, rngs.bitcomp1.rng2.forked n,
          rngs.bitcomp1.rng3.map (·.forked n)⟩,
        ⟨rngs.bitcomp2.rng1.forked n, rngs.bitcomp2.rng2.forked n,
          rngs.bitcomp2.rng3.map (·.forked n)⟩⟩ := by
  induction n generalizing rngs with
  | zero =>
    simp only [Rep3CorrelatedRng.forkAfter, Rep3CorrelatedRng.fork, Rep3Rand.fork,
      Rep3Rand.randomSeeds, Rep3Rand.new, Rep3RandBitComp.fork, KeyedRng.genSeed, KeyedRng.forked,
      Option.map_map, Function.comp_def, Nat.add_zero]
  | succ n ih =>
    have next : ∀ rng : KeyedRng, (⟨rng.key, rng.pos + 1⟩ : KeyedRng).forked n =
      rng.forked (n + 1) := fun rng => by
      rw [KeyedRng.forked, KeyedRng.forked, Nat.add_right_comm, Nat.add_assoc]
    rw [Rep3CorrelatedRng.forkAfter, ih]
    simp only [Rep3CorrelatedRng.fork, Rep3Rand.fork, Rep3Rand.randomSeeds, Rep3RandBitComp.fork,
      KeyedRng.genSeed, Option.map_map, Function.comp_def, next]

/-- The generators in a context: parties 0 and 2 hold the three keys of both components, party 1
those of the first. -/
theorem contextRngs_eq (n : Nat) (p : PartyID) :
    contextRngs n p = some
      ⟨⟨.fromSeed (randKey n p), .fromSeed (randKey n p.prev)⟩,
        ⟨.fromSeed (bitcompKey false n p), .fromSeed (bitcompKey false n p.prev.prev),
          some (.fromSeed (bitcompKey false n p.prev))⟩,
        match p with
        | .ID1 => ⟨.fromSeed (bitcompKey true n .ID1), .fromSeed (bitcompKey true n .ID0), none⟩
        | p => ⟨.fromSeed (bitcompKey true n p), .fromSeed (bitcompKey true n p.prev.prev),
            some (.fromSeed (bitcompKey true n p.prev))⟩⟩ := by
  have zero : ∀ key, KeyedRng.forked n ⟨key, 0⟩ = .fromSeed (.drawn key n) := fun key => by
    simp [KeyedRng.forked]
  have two : ∀ key, KeyedRng.forked n ⟨key, 2⟩ = .fromSeed (.drawn key (n + 2)) := fun key => by
    rw [KeyedRng.forked, Nat.add_comm]
  cases p <;> exact congrArg some ((forkAfter_eq n _).trans (by
    simp [bitcompDraws, setupPrf, Rep3Rand.new, Rep3Rand.randomSeeds, KeyedRng.genSeed,
      KeyedRng.fromSeed, Rep3RandBitComp.new3keys, Rep3RandBitComp.new2keys, zero, two,
      randKey, bitcompKey, PartyID.prev]))

/-- A party knows its own generator in a context and the one of the party before, and not the
third. -/
theorem knows_randKey (n : Nat) (p q : PartyID) :
    knows p (randKey n q) = decide (q = p ∨ q = p.prev) := by
  cases p <;> cases q <;> simp [knows, randKey, heldKeys, bitcompMessage, bitcompDraws,
    setupPrf, Rep3Rand.new, Rep3Rand.randomSeeds, KeyedRng.genSeed, KeyedRng.fromSeed, PartyID.prev]

/-- The only part of a component that a party does not know is party 2's part of the second one, for
party 1. -/
theorem knows_bitcompKey (n : Nat) (p q : PartyID) (second : Bool) :
    knows p (bitcompKey second n q) = !decide (p = .ID1 ∧ q = .ID2 ∧ second = true) := by
  cases p <;> cases q <;> cases second <;>
    simp [knows, bitcompKey, heldKeys, bitcompMessage, bitcompDraws, setupPrf, Rep3Rand.new,
    Rep3Rand.randomSeeds, KeyedRng.genSeed, KeyedRng.fromSeed, PartyID.prev]

/-- The generators of a context: the party's own, that of the party before, and the three of each
component. -/
inductive Slot where
  | own
  | before
  | part (second : Bool) (i : Fin 3)
  deriving DecidableEq

def Rep3CorrelatedRng.generator (rngs : Rep3CorrelatedRng) : Slot → Option KeyedRng
  | .own => some rngs.rand.rng1
  | .before => some rngs.rand.rng2
  | .part second i =>
    let comp := if second then rngs.bitcomp2 else rngs.bitcomp1
    match i with
    | 0 => some comp.rng1
    | 1 => some comp.rng2
    | 2 => comp.rng3

namespace Slot

/-- The component the slot is in, if it is in one. -/
def component : Slot → Option Bool
  | .own | .before => none
  | .part second _ => some second

/-- Whose generator party `p` has in the slot: party 1 got no key for the second component. -/
def owner (p : PartyID) : Slot → PartyID
  | .own => p
  | .before => p.prev
  | .part second i =>
    match i with
    | 0 => p
    | 1 => if second && p = .ID1 then p.prev else p.prev.prev
    | 2 => p.prev

end Slot

/-- The key of a party's own generator, or of its part of a component, in the context. -/
def contextKey (n : Nat) (owner : PartyID) : Option Bool → Key
  | none => randKey n owner
  | some second => bitcompKey second n owner

theorem contextKey_inj {n m : Nat} {p q : PartyID} {c d : Option Bool} :
    contextKey n p c = contextKey m q d ↔ n = m ∧ c = d ∧ p = q := by
  rcases c with _ | _ | _ <;> rcases d with _ | _ | _ <;>
    simp [contextKey, randKey, bitcompKey, and_comm]

/-- Every slot that is filled has the key of its owner. -/
theorem generator_eq {n : Nat} {p : PartyID} {rngs : Rep3CorrelatedRng} {x : KeyedRng} {s : Slot}
    (context : contextRngs n p = some rngs) (filled : rngs.generator s = some x) :
    x = .fromSeed (contextKey n (s.owner p) s.component) := by
  rw [contextRngs_eq] at context
  cases context
  rcases s with _ | _ | ⟨second, i⟩
  · cases filled
    rfl
  · cases filled
    rfl
  · match i with
    | 0 | 1 | 2 => cases second <;> cases p <;> cases filled <;> rfl

/-- Two generators, of any two contexts, parties and slots, are the same only where the protocol
wants it: in one context, both in `rand` or both in the same component, and of the same owner. The
third party knows neither generator of `rand`. -/
theorem contexts_apart (n m : Nat) (p q : PartyID) :
    ∃ a b, contextRngs n p = some a ∧ contextRngs m q = some b ∧
      (∀ s t x y, a.generator s = some x → b.generator t = some y →
        (x = y ↔ n = m ∧ s.component = t.component ∧ s.owner p = t.owner q)) ∧
      (knows q a.rand.rng1.key ↔ p = q ∨ p = q.prev) := by
  obtain ⟨a, left⟩ : ∃ a, contextRngs n p = some a := ⟨_, contextRngs_eq n p⟩
  obtain ⟨b, right⟩ : ∃ b, contextRngs m q = some b := ⟨_, contextRngs_eq m q⟩
  refine ⟨a, b, left, right, fun s t x y filled filled' => ?_, ?_⟩
  · rw [generator_eq left filled, generator_eq right filled', ← contextKey_inj]
    exact ⟨fun same => congrArg KeyedRng.key same, congrArg KeyedRng.fromSeed⟩
  · have own : a.rand.rng1 = .fromSeed (randKey n p) := generator_eq (s := .own) left rfl
    simp [own, KeyedRng.fromSeed, knows_randKey]

end ProviaVM.Rep3.Keys
