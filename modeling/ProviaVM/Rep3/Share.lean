import Mathlib.Data.BitVec
import Mathlib.Tactic.Abel
import ProviaVM.Lib.Ensures
import ProviaVM.Preprocessing.BackingStore

/-! # Replicated secret sharing among three parties

`rep3_ring/arithmetic/types.rs`, `rep3_ring/arithmetic.rs`, `rep3_ring/binary.rs`. A
secret is split in three components; party `i` holds its own component `a` and the
component `b` of the party before it. A `View` is what the three parties hold together.
`XorShares x v` and `SumShares x v` say that the parties agree on the components and
that these open to `v`.

The parties run in lockstep, so a protocol is a function of the views and of the coins
the parties draw. Every statement is about all coins. -/
namespace ProviaVM.Preprocessing

def PartyID.prev : PartyID → PartyID
  | .ID0 => .ID2
  | .ID1 => .ID0
  | .ID2 => .ID1

end ProviaVM.Preprocessing

namespace ProviaVM.Rep3
open Preprocessing

/-- `Rep3RingShare`, `Rep3PrimeFieldShare`: what one party holds of a secret. -/
structure Rep3Share (α : Type) where
  a : α
  b : α
  deriving DecidableEq, Repr

namespace Rep3Share

variable {α β γ : Type}

def map (f : α → β) (x : Rep3Share α) : Rep3Share β := ⟨f x.a, f x.b⟩

def map₂ (f : α → β → γ) (x : Rep3Share α) (y : Rep3Share β) : Rep3Share γ := ⟨f x.a y.a, f x.b y.b⟩

/-- `share & share`: the party's part of the product of two XOR-shared words. -/
def localAnd {w : Nat} (x y : Rep3Share (BitVec w)) : BitVec w :=
  (x.a &&& y.a) ^^^ (x.a &&& y.b) ^^^ (x.b &&& y.a)

/-- `share * share`: the party's part of the product of two additively shared elements. -/
def localMul [Add α] [Mul α] (x y : Rep3Share α) : α := x.a * y.a + x.a * y.b + x.b * y.a

end Rep3Share

abbrev View (α : Type) := PartyID → Rep3Share α

namespace View

variable {α β γ : Type}

def map (f : α → β) (x : View α) : View β := fun p => (x p).map f

def map₂ (f : α → β → γ) (x : View α) (y : View β) : View γ := fun p => (x p).map₂ f (y p)

/-- `promote_to_trivial_share`: the component of party 0 is the public value. -/
def promoteToTrivialShare [Zero α] (v : α) : View α
  | .ID0 => ⟨v, 0⟩
  | .ID1 => ⟨0, v⟩
  | .ID2 => ⟨0, 0⟩

/-- `reshare`: a party sends its component to the next one. -/
def reshare (own : PartyID → α) : View α := fun p => ⟨own p, own p.prev⟩

end View

/-- A party's second component is the first one of the party before it. -/
def Replicated {α : Type} (x : View α) : Prop := ∀ p, (x p).b = (x p.prev).a

def parity {w : Nat} (f : PartyID → BitVec w) : BitVec w := f .ID0 ^^^ f .ID1 ^^^ f .ID2

def total {α : Type} [Add α] (f : PartyID → α) : α := f .ID0 + f .ID1 + f .ID2

/-- The parties hold an XOR sharing of `v`. -/
structure XorShares {w : Nat} (x : View (BitVec w)) (v : BitVec w) : Prop where
  replicated : Replicated x
  opens : parity (fun p => (x p).a) = v

/-- The parties hold an additive sharing of `v`. -/
structure SumShares {α : Type} [Add α] (x : View α) (v : α) : Prop where
  replicated : Replicated x
  opens : total (fun p => (x p).a) = v

theorem replicated_reshare {α : Type} (own : PartyID → α) : Replicated (View.reshare own) :=
  fun _ => rfl

theorem replicated_promote {α : Type} [Zero α] (v : α) :
    Replicated (View.promoteToTrivialShare v) := by
  intro p
  cases p <;> rfl

section Local

variable {α β γ : Type} {x : View α} {y : View β}

theorem Replicated.map (h : Replicated x) (f : α → β) : Replicated (x.map f) := fun p =>
  congrArg f (h p)

theorem Replicated.map₂ (hx : Replicated x) (hy : Replicated y) (f : α → β → γ) :
    Replicated (x.map₂ f y) :=
  fun p => congrArg₂ f (hx p) (hy p)

end Local

section Xor

variable {w v : Nat} {x y : View (BitVec w)} {s t : BitVec w}

/-- An operation that distributes over XOR acts on the components. -/
theorem XorShares.linear {f : BitVec w → BitVec v} (additive : ∀ a b, f (a ^^^ b) = f a ^^^ f b)
    (h : XorShares x s) : XorShares (x.map f) (f s) where
  replicated := h.replicated.map f
  opens := by rw [← h.opens, parity, parity, additive, additive]; rfl

theorem XorShares.and_public (h : XorShares x s) (mask : BitVec w) :
    XorShares (x.map (· &&& mask)) (s &&& mask) := by
  refine h.linear fun a b => BitVec.eq_of_getLsbD_eq fun i _ => ?_
  simp [Bool.and_xor_distrib_right]

theorem XorShares.shiftLeft (h : XorShares x s) (n : Nat) :
    XorShares (x.map fun a : BitVec w => a <<< n) (s <<< n) :=
  h.linear fun _ _ => BitVec.shiftLeft_xor_distrib ..

theorem XorShares.shiftRight (h : XorShares x s) (n : Nat) :
    XorShares (x.map fun a : BitVec w => a >>> n) (s >>> n) :=
  h.linear fun _ _ => BitVec.ushiftRight_xor_distrib ..

theorem XorShares.setWidth (h : XorShares x s) (v : Nat) :
    XorShares (x.map (BitVec.setWidth v)) (s.setWidth v) :=
  h.linear fun _ _ => BitVec.setWidth_xor

theorem XorShares.xor (hx : XorShares x s) (hy : XorShares y t) :
    XorShares (x.map₂ (· ^^^ ·) y) (s ^^^ t) where
  replicated := hx.replicated.map₂ hy.replicated _
  opens := by
    rw [← hx.opens, ← hy.opens]
    simp only [parity, View.map₂, Rep3Share.map₂]
    ac_rfl

/-- Three complements XOR to the complement. -/
theorem XorShares.not (h : XorShares x s) : XorShares (x.map (~~~·)) (~~~s) where
  replicated := h.replicated.map _
  opens := by
    rw [← h.opens]
    apply BitVec.eq_of_getLsbD_eq
    intro i inside
    simp [parity, View.map, Rep3Share.map, inside]

theorem XorShares.promote (v : BitVec w) : XorShares (View.promoteToTrivialShare v) v where
  replicated := replicated_promote v
  opens := by simp [parity, View.promoteToTrivialShare]

end Xor

section Sum

variable {α : Type} {x y : View α} {s t : α}

theorem SumShares.add [AddCommMonoid α] (hx : SumShares x s) (hy : SumShares y t) :
    SumShares (x.map₂ (· + ·) y) (s + t) where
  replicated := hx.replicated.map₂ hy.replicated _
  opens := by
    rw [← hx.opens, ← hy.opens]
    simp only [total, View.map₂, Rep3Share.map₂]
    abel

theorem SumShares.neg [AddCommGroup α] (h : SumShares x s) : SumShares (x.map (- ·)) (-s) where
  replicated := h.replicated.map _
  opens := by
    rw [← h.opens]
    simp only [total, View.map, Rep3Share.map]
    abel

theorem SumShares.sub [AddCommGroup α] (hx : SumShares x s) (hy : SumShares y t) :
    SumShares (x.map₂ (· - ·) y) (s - t) where
  replicated := hx.replicated.map₂ hy.replicated _
  opens := by
    rw [← hx.opens, ← hy.opens]
    simp only [total, View.map₂, Rep3Share.map₂]
    abel

theorem SumShares.congr [Add α] (h : SumShares x s) (same : s = t) : SumShares x t := same ▸ h

theorem SumShares.promote [AddMonoid α] (v : α) : SumShares (View.promoteToTrivialShare v) v where
  replicated := replicated_promote v
  opens := by simp [total, View.promoteToTrivialShare]

theorem SumShares.mulPublic [CommRing α] (h : SumShares x s) (c : α) :
    SumShares (x.map (· * c)) (s * c) where
  replicated := h.replicated.map _
  opens := by
    rw [← h.opens]
    simp only [total, View.map, Rep3Share.map]
    ring

/-- The local products of two shared elements add up to the product. -/
theorem total_localMul [CommRing α] (hx : SumShares x s) (hy : SumShares y t) :
    total (fun p => (x p).localMul (y p)) = s * t := by
  rw [← hx.opens, ← hy.opens]
  simp only [total, Rep3Share.localMul, hx.replicated .ID0, hx.replicated .ID1, hx.replicated .ID2,
    hy.replicated .ID0, hy.replicated .ID1, hy.replicated .ID2, PartyID.prev]
  ring

end Sum

/-- One edaBit: a random word known to party 0, and an additive splitting of each of its bits
between parties 1 and 2. -/
structure EdaBit (F : Type) [Ring F] (K : Nat) where
  gamma : BitVec K
  alpha1 : Nat → F
  alpha2 : Nat → F
  related : ∀ j < K, alpha1 j + alpha2 j = ((gamma.getLsbD j).toNat : F)

/-- One daBit: `gamma` is known to party 0, `theta` to parties 1 and 2, and `v` is shared. -/
structure DaBit (F : Type) [Ring F] where
  gamma : Bool
  theta : Bool
  v : View F
  related : SumShares v ((if theta then -1 else 1) * (gamma.toNat : F))

/-- What the parties draw from here on: the outputs of each party's own generator, the second one of
the next party, and the correlated material of the preprocessing pool. -/
structure Coins (F : Type) [Ring F] where
  ring : Nat → PartyID → Nat
  field : Nat → PartyID → F
  edaBits : (K : Nat) → Nat → EdaBit F K
  daBits : Nat → DaBit F

theorem coins_exist {F : Type} [Ring F] : Nonempty (Coins F) :=
  ⟨{ ring := fun _ _ => 0, field := fun _ _ => 0
     edaBits := fun K _ => ⟨0, fun _ => 0, fun _ => 0, by simp⟩
     daBits := fun _ => ⟨false, false, fun _ => ⟨0, 0⟩, fun _ => rfl, by simp [total]⟩ }⟩

/-- A protocol the three parties run together. -/
abbrev Mpc (F : Type) [Ring F] := StateM (Coins F)

end ProviaVM.Rep3
