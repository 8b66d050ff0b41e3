import ProviaVM.Lib.BitSpread
import ProviaVM.Rep3.FieldCast

/-! # Operands of a shared cycle and interleaved lookup indices

`provia-worker/src/zkvm/instruction/types/rep3_operand.rs`,
`provia-worker/src/utils/instruction_utils.rs`, `jolt-core/src/utils/mod.rs`. The build is
for one word size: `XlenInt` is the register word, `ArithmeticWideInt` and
`LookupIndexInt` are twice as wide. -/
namespace ProviaVM.Instruction
open Preprocessing Rep3 BitSpread

/-- The two builds, without and with the feature `rv64`. -/
inductive Xlen where
  | rv32 | rv64
  deriving DecidableEq, Repr

def Xlen.bits : Xlen → Nat
  | .rv32 => 32
  | .rv64 => 64

instance (x : Xlen) : PowerOfTwo x.bits := by
  cases x
  · exact inferInstanceAs (PowerOfTwo 32)
  · exact inferInstanceAs (PowerOfTwo 64)

instance (x : Xlen) : PowerOfTwo (2 * x.bits) := by
  cases x
  · exact inferInstanceAs (PowerOfTwo 64)
  · exact inferInstanceAs (PowerOfTwo 128)

theorem Xlen.bits_le (x : Xlen) : x.bits ≤ 64 := by cases x <;> decide

/-- `Rep3Operand`, as the three parties hold it. `hint` is the `public` field of a shared operand
(`Some` for trivial shares), `opened` is `Public`. -/
inductive Rep3Operand (x : Xlen) where
  | shared (binary : View (BitVec x.bits)) (arithmetic : Option (View (BitVec (2 * x.bits))))
      (hint : Option (BitVec 64))
  | opened (value : Int)

namespace Rep3Operand

variable {x : Xlen}

def asBinaryOrTrivial : Rep3Operand x → View (BitVec x.bits)
  | .shared binary _ _ => binary
  | .opened value => .promoteToTrivialShare (BitVec.ofInt x.bits value)

/-- `as_arithmetic_or_trivial_wide`; `none` is the panic of `arithmetic.unwrap()`. -/
def asArithmeticOrTrivialWide : Rep3Operand x → Option (View (BitVec (2 * x.bits)))
  | .shared _ arithmetic _ => arithmetic
  | .opened value =>
    some (.promoteToTrivialShare ((BitVec.ofInt x.bits value).setWidth (2 * x.bits)))

/-- `as_arithmetic_or_trivial::<T>` for a `T` of `w` bits. -/
def asArithmeticOrTrivial (w : Nat) : Rep3Operand x → Option (View (BitVec w))
  | .shared _ arithmetic _ => arithmetic.map (·.map (BitVec.setWidth w))
  | .opened value =>
    some (.promoteToTrivialShare (((BitVec.ofInt x.bits value).setWidth (2 * x.bits)).setWidth w))

/-- `operand_to_binary_wide`: a public value is not cut down to the register word. -/
def toBinaryWide : Rep3Operand x → View (BitVec (2 * x.bits))
  | .shared binary _ _ => binary.map (BitVec.setWidth (2 * x.bits))
  | .opened value => .promoteToTrivialShare (BitVec.ofInt (2 * x.bits) value)

/-- The body of `populate_operands_casts` for one operand. -/
def populateCasts {F : Type} [CommRing F] : Rep3Operand x → Mpc F (Rep3Operand x)
  | .shared binary none hint => do
    let arithmetic ← upcastFromBinary (2 * x.bits) binary
    return .shared binary (some arithmetic) hint
  | op => pure op

/-- The operand stands for the register word `v`: a sharing of `v`, with any arithmetic form and
any public value that agree with it. -/
inductive Holds : Rep3Operand x → BitVec x.bits → Prop
  | shared {binary : View (BitVec x.bits)} {arithmetic : Option (View (BitVec (2 * x.bits)))}
      {hint : Option (BitVec 64)} {v : BitVec x.bits} (shares : XorShares binary v)
      (wide : ∀ a ∈ arithmetic, SumShares a (v.setWidth (2 * x.bits)))
      (trivial : ∀ p ∈ hint, p.setWidth x.bits = v) : Holds (.shared binary arithmetic hint) v
  | opened {value : Int} {v : BitVec x.bits} (word : BitVec.ofInt x.bits value = v) :
    Holds (.opened value) v

def Populated : Rep3Operand x → Prop
  | .shared _ arithmetic _ => arithmetic.isSome
  | .opened _ => True

variable {op : Rep3Operand x} {v : BitVec x.bits}

theorem Holds.binary (h : op.Holds v) : XorShares op.asBinaryOrTrivial v := by
  cases h with
  | shared shares _ _ => exact shares
  | opened word => exact word ▸ XorShares.promote _

theorem Holds.wide (h : op.Holds v) (ready : op.Populated) :
    ∃ a, op.asArithmeticOrTrivialWide = some a ∧ SumShares a (v.setWidth (2 * x.bits)) := by
  cases h with
  | @shared _ arithmetic _ _ _ wide _ =>
    obtain ⟨a, rfl⟩ := Option.isSome_iff_exists.mp ready
    exact ⟨a, rfl, wide a rfl⟩
  | opened word => exact ⟨_, rfl, word ▸ SumShares.promote _⟩

theorem Holds.arithmetic {w : Nat} (fits : w ≤ 2 * x.bits) (h : op.Holds v) (ready : op.Populated) :
    ∃ a, op.asArithmeticOrTrivial w = some a ∧
      SumShares a ((v.setWidth (2 * x.bits)).setWidth w) := by
  cases h with
  | @shared _ arithmetic _ _ _ wide _ =>
    obtain ⟨a, rfl⟩ := Option.isSome_iff_exists.mp ready
    exact ⟨_, rfl, (wide a rfl).downcast fits⟩
  | opened word => exact ⟨_, rfl, word ▸ SumShares.promote _⟩

/-- Filling in the arithmetic form keeps the value and leaves the operand ready. -/
theorem populateCasts_spec {F : Type} [CommRing F] (h : op.Holds v) :
    Ensures (fun op' => op'.Holds v ∧ op'.Populated) (op.populateCasts : Mpc F _) := by
  cases h with
  | @shared _ arithmetic _ _ shares wide trivial =>
    cases arithmetic with
    | some a => exact Ensures.pure ⟨.shared shares wide trivial, rfl⟩
    | none =>
      refine Ensures.bind (upcastFromBinary_spec shares) fun a arithmetic => Ensures.pure ⟨?_, rfl⟩
      exact .shared shares (fun a' same => Option.some.inj same ▸ arithmetic) trivial
  | opened word => exact Ensures.pure ⟨.opened word, True.intro⟩

end Rep3Operand

end ProviaVM.Instruction
