import ProviaVM.Instruction.LookupOutput

/-! # The lookup outputs of the division checks

`virtual_assert_valid_unsigned_remainder.rs`, `virtual_assert_valid_div0.rs`,
`virtual_change_divisor.rs` and `virtual_assert_mulu_no_overflow.rs` of
`provia-worker/src/zkvm/instruction/`, against `to_lookup_output` of
`jolt-core/src/zkvm/instruction/` and `materialize_entry` of
`jolt-core/src/zkvm/lookup_table/`. -/
namespace ProviaVM.Instruction
open Preprocessing Rep3 Option

/-- The instructions that a division is checked with. -/
inductive DivisionCheck where
  | VirtualAssertValidUnsignedRemainder
  | VirtualAssertValidDiv0
  | VirtualChangeDivisor
  | VirtualChangeDivisorW
  | VirtualAssertMulUNoOverflow
  deriving DecidableEq, Repr

namespace DivisionCheck

def kind : DivisionCheck → InstructionKind
  | .VirtualAssertValidUnsignedRemainder => .VirtualAssertValidUnsignedRemainder
  | .VirtualAssertValidDiv0 => .VirtualAssertValidDiv0
  | .VirtualChangeDivisor => .VirtualChangeDivisor
  | .VirtualChangeDivisorW => .VirtualChangeDivisorW
  | .VirtualAssertMulUNoOverflow => .VirtualAssertMulUNoOverflow

def ofKind : InstructionKind → Option DivisionCheck
  | .VirtualAssertValidUnsignedRemainder => some .VirtualAssertValidUnsignedRemainder
  | .VirtualAssertValidDiv0 => some .VirtualAssertValidDiv0
  | .VirtualChangeDivisor => some .VirtualChangeDivisor
  | .VirtualChangeDivisorW => some .VirtualChangeDivisorW
  | .VirtualAssertMulUNoOverflow => some .VirtualAssertMulUNoOverflow
  | _ => none

def bitWord (w : Nat) (b : Bool) : BitVec w := (BitVec.ofBool b).setWidth w

/-- `materialize_entry` of the table of the instruction; `none` is a panic. -/
def materializeEntry (x : Xlen) (k : DivisionCheck) (index : BitVec 128) : Option (BitVec 64) :=
  let (l, r) := uninterleaveBits index
  match k with
  | .VirtualAssertValidUnsignedRemainder => some (bitWord 64 (r == 0 || l.ult r))
  | .VirtualAssertValidDiv0 =>
    if l = 0 then
      match x with
      | .rv32 => some (bitWord 64 (r == 0xFFFFFFFF))
      | .rv64 => none
    else some 1
  | .VirtualChangeDivisor =>
    match x with
    | .rv32 =>
      let remainder := l.setWidth 32
      let divisor := r.setWidth 32
      some (if remainder = BitVec.intMin 32 ∧ divisor = -1 then 1 else divisor.setWidth 64)
    | .rv64 => some (if l = BitVec.intMin 64 ∧ r = -1 then 1 else r)
  | .VirtualChangeDivisorW =>
    match x with
    | .rv32 => none
    | .rv64 =>
      let remainder := l.setWidth 32
      let divisor := r.setWidth 32
      some (if remainder = BitVec.intMin 32 ∧ divisor = -1 then 1 else divisor.signExtend 64)
  | .VirtualAssertMulUNoOverflow => some (bitWord 64 (index >>> x.bits == 0))

end DivisionCheck

open DivisionCheck (bitWord)

/-- `LookupQuery::to_lookup_output` of the division checks. -/
def Cycle.toLookupOutput (x : Xlen) (k : DivisionCheck) (c : Cycle) : Option (BitVec 64) := do
  let (l, r) ← c.toInstructionInputs x k.kind
  match k with
  | .VirtualAssertValidUnsignedRemainder => some (bitWord 64 (r == 0 || l.ult (BitVec.ofInt 64 r)))
  | .VirtualAssertValidDiv0 =>
    if l = 0 then
      match x with
      | .rv32 => some (bitWord 64 (BitVec.ofInt 64 r == 0xFFFFFFFF))
      | .rv64 => some (bitWord 64 (BitVec.ofInt 64 r == 0xFFFFFFFFFFFFFFFF))
    else some 1
  | .VirtualChangeDivisor =>
    match x with
    | .rv32 =>
      let remainder := l.setWidth 32
      let divisor := BitVec.ofInt 32 r
      some (if remainder = BitVec.intMin 32 ∧ divisor = -1 then 1 else divisor.setWidth 64)
    -- the divisor is compared as an `i128`, which a `u64` register never makes negative
    | .rv64 => some (if l = BitVec.intMin 64 ∧ r = -1 then 1 else BitVec.ofInt 64 r)
  | .VirtualChangeDivisorW =>
    let remainder := l.setWidth 32
    let divisor := BitVec.ofInt 32 r
    some (if remainder = BitVec.intMin 32 ∧ divisor = -1 then 1 else divisor.signExtend 64)
  | .VirtualAssertMulUNoOverflow =>
    let result := l.setWidth 128 * (BitVec.ofInt 64 r).setWidth 128
    some (bitWord 64 (decide (result.toNat ≤ 2 ^ x.bits - 1)))

section Query

variable {F : Type} [CommRing F] {x : Xlen}

def bitToRing64 (b : View (BitVec 1)) : View (BitVec 64) := b.map (BitVec.setWidth 64)

/-- `to_lookup_output_batched` of `VirtualAssertValidUnsignedRemainder`. -/
def validUnsignedRemainderOutput (left right : Rep3Operand x) :
    Mpc F (Option (FutureRep3Ring F x.bits)) := do
  let remainder := left.asBinaryOrTrivial
  let divisor := right.asBinaryOrTrivial
  let remIsZero ← isZero remainder
  let remLtDiv ← lt remainder divisor
  let z ← or (bitToRing64 remIsZero) (bitToRing64 remLtDiv)
  return some (.castToFieldB2A (z.map (BitVec.setWidth x.bits)))

/-- `to_lookup_output_batched` of `VirtualAssertValidDiv0`, after the operands are read. -/
def validDiv0Output (divisor : View (BitVec x.bits)) (quotient : View (BitVec 64)) :
    Mpc F (Option (FutureRep3Ring F x.bits)) := do
  let divisorIsZero ← isZero divisor
  let quotientEqMax ← eq quotient (.promoteToTrivialShare 0xFFFFFFFF)
  let z ← cmux (bitToRing64 divisorIsZero) (bitToRing64 quotientEqMax) (.promoteToTrivialShare 1)
  return some (.castToFieldB2A (z.map (BitVec.setWidth x.bits)))

/-- `to_lookup_output_batched` of `VirtualChangeDivisor` and its `W` form, after the operands are
read. The selection works on XOR shares and is given the arithmetic share of the divisor. -/
def changeDivisorOutput (dividend divisor : View (BitVec 64)) :
    Mpc F (Option (FutureRep3Ring F x.bits)) := do
  let divEqNeg1 ← eq divisor (.promoteToTrivialShare 0xFFFFFFFF)
  let dividendEqIntMin ← eq dividend (.promoteToTrivialShare 0x80000000)
  let both ← and divEqNeg1 dividendEqIntMin
  let z ← cmux (bitToRing64 both) (.promoteToTrivialShare 1) divisor
  return some (.castToFieldB2A (z.map (BitVec.setWidth x.bits)))

/-- `to_lookup_output_batched` of `VirtualAssertMulUNoOverflow`, after the operands are read. -/
def mulUNoOverflowOutput (a b : View (BitVec (2 * x.bits))) :
    Mpc F (Option (FutureRep3Ring F x.bits)) := do
  let product ← mul a b
  let binary ← a2b product
  let upper := (binary.map fun v : BitVec (2 * x.bits) => v >>> x.bits).map (BitVec.setWidth x.bits)
  let bit ← isZero upper
  return some (.bitInject bit)

/-- `Rep3LookupQuery::to_lookup_output_batched` of the division checks on one cycle; `none` is the
panic of a missing arithmetic form. -/
def DivisionCheck.toLookupOutput (k : DivisionCheck) (s : Rep3Cycle x) :
    Mpc F (Option (FutureRep3Ring F x.bits)) :=
  let (left, right) := s.toInstructionInputs k.kind
  match k with
  | .VirtualAssertValidUnsignedRemainder => validUnsignedRemainderOutput left right
  | .VirtualAssertValidDiv0 =>
    match right.asArithmeticOrTrivial 64 with
    | none => pure none
    | some quotient => validDiv0Output left.asBinaryOrTrivial quotient
  | .VirtualChangeDivisor | .VirtualChangeDivisorW =>
    match left.asArithmeticOrTrivial 64, right.asArithmeticOrTrivial 64 with
    | some dividend, some divisor => changeDivisorOutput dividend divisor
    | _, _ => pure none
  | .VirtualAssertMulUNoOverflow =>
    match left.asArithmeticOrTrivial (2 * x.bits), right.asArithmeticOrTrivial (2 * x.bits) with
    | some a, some b => mulUNoOverflowOutput a b
    | _, _ => pure none

/-- The queries of all instructions: those of the division checks, and any others. -/
def withDivisionChecks (others : OutputQuery F x) : OutputQuery F x := fun k s =>
  match DivisionCheck.ofKind k with
  | some check => check.toLookupOutput s
  | none => others k s

end Query

/-- The XOR of the components of the arithmetic share of an operand, cut to 64 bits: what the share
is as an XOR share. -/
def Rep3Operand.mixed {x : Xlen} (op : Rep3Operand x) : BitVec 64 :=
  match op.asArithmeticOrTrivial 64 with
  | some a => parity fun p => (a p).a
  | none => 0

/-- Where the output of a division check is the plaintext one. `mixed` is the divisor's arithmetic
share read as an XOR share. -/
def DivisionCheck.Agrees (x : Xlen) (k : DivisionCheck) (c : Cycle) (mixed : BitVec 64) : Prop :=
  match k with
  | .VirtualAssertValidUnsignedRemainder => ¬ (c.rs2 = 0 ∧ c.rs1 ≠ 0)
  | .VirtualAssertValidDiv0 =>
    ¬ (x = .rv64 ∧ c.rs1 = 0 ∧ (c.rs2 = 0xFFFFFFFF ∨ c.rs2 = 0xFFFFFFFFFFFFFFFF))
  | .VirtualChangeDivisor =>
    match x with
    | .rv32 =>
      if c.rs1 = 0x80000000 ∧ c.rs2 = 0xFFFFFFFF then mixed.setWidth 32 = 0#32 ∨
        mixed.setWidth 32 = 1#32
      else mixed.setWidth 32 = c.rs2.setWidth 32
    | .rv64 =>
      ¬ (c.rs1 = 0x8000000000000000 ∧ c.rs2 = 0xFFFFFFFFFFFFFFFF) ∧
        if c.rs1 = 0x80000000 ∧ c.rs2 = 0xFFFFFFFF then mixed = 0xFFFFFFFE ∨ mixed = 0xFFFFFFFF
        else mixed = c.rs2
  | .VirtualChangeDivisorW =>
    if c.rs1 = 0x80000000 ∧ c.rs2 = 0xFFFFFFFF then mixed = 0 ∨ mixed = 1
    else if c.rs1.setWidth 32 = 0x80000000#32 ∧ c.rs2.setWidth 32 = 0xFFFFFFFF#32 then mixed = 1
    else mixed = (c.rs2.setWidth 32).signExtend 64
  | .VirtualAssertMulUNoOverflow => True

def DivisionCheck.sharedOutput (x : Xlen) (k : DivisionCheck) (c : Cycle) (mixed : BitVec 64) :
    BitVec 64 :=
  match k with
  | .VirtualAssertValidUnsignedRemainder => bitWord 64 (c.rs1 == 0 || c.rs1.ult c.rs2)
  | .VirtualAssertValidDiv0 => if c.rs1 = 0 then bitWord 64 (c.rs2 == 0xFFFFFFFF) else 1
  | .VirtualChangeDivisor | .VirtualChangeDivisorW =>
    x.cut (if c.rs1 = 0x80000000 ∧ c.rs2 = 0xFFFFFFFF then mixed ||| 1 else mixed)
  | .VirtualAssertMulUNoOverflow => bitWord 64 (decide (c.rs1.toNat * c.rs2.toNat < 2 ^ x.bits))

section Circuits

variable {F : Type} [CommRing F] {x : Xlen}

theorem toNat_bitWord {w : Nat} (pos : 0 < w) (b : Bool) : (bitWord w b).toNat = b.toNat := by
  have bound : b.toNat < 2 ^ w :=
    Nat.lt_of_lt_of_le (Bool.toNat_lt b) (Nat.pow_le_pow_right Nat.two_pos pos)
  rw [bitWord, BitVec.toNat_setWidth, BitVec.toNat_ofBool, Nat.mod_eq_of_lt bound]

theorem XorShares.bitToRing64 {v : View (BitVec 1)} {b : Bool} (h : XorShares v (BitVec.ofBool b)) :
    XorShares (bitToRing64 v) (bitWord 64 b) := h.setWidth 64

/-- The future of a word that is one of the widened words, cut down. -/
theorem standsFor_cast {z : View (BitVec 64)} {v : BitVec 64} (h : XorShares z v) :
    (FutureRep3Ring.castToFieldB2A (z.map (BitVec.setWidth x.bits)) :
      FutureRep3Ring F x.bits).StandsFor
      ((x.cut v).toNat : F) := by
  rw [Xlen.toNat_cut]
  exact .castToFieldB2A (h.setWidth x.bits)

theorem Xlen.cut_bitWord (x : Xlen) (b : Bool) : x.cut (bitWord 64 b) = bitWord 64 b := by
  cases b <;> cases x <;> rfl

theorem validUnsignedRemainderOutput_spec {left right : Rep3Operand x} {l r : BitVec x.bits}
    (hl : left.Holds l) (hr : right.Holds r) :
    Ensures (fun out => ∃ f, out = some f ∧
      f.StandsFor ((bitWord 64 (l == 0 || l.ult r)).toNat : F))
      (validUnsignedRemainderOutput left right : Mpc F _) := by
  refine Ensures.bind (isZero_spec hl.binary) fun z zero =>
    Ensures.bind (lt_spec hl.binary hr.binary) fun b below =>
    Ensures.bind (or_spec (XorShares.bitToRing64 zero) (XorShares.bitToRing64 below))
      fun o either => Ensures.pure ⟨_, rfl, ?_⟩
  have word :
      bitWord 64 (decide (l = 0)) ||| bitWord 64 (l.ult r) = bitWord 64 (l == 0 || l.ult r) := by
    rw [← beq_eq_decide]
    cases l == 0 <;> cases l.ult r <;> rfl
  rw [word] at either
  rw [← x.cut_bitWord]
  exact standsFor_cast either

/-- The circuit compares the quotient with the 32-bit `-1` at both widths. -/
theorem validDiv0Output_spec {divisor : View (BitVec x.bits)} {quotient : View (BitVec 64)}
    {l : BitVec x.bits} {r : BitVec 64} (hl : XorShares divisor l) (hr : SumShares quotient r) :
    Ensures (fun out => ∃ f, out = some f ∧
        f.StandsFor ((if l = 0 then bitWord 64 (r == 0xFFFFFFFF) else 1 : BitVec 64).toNat : F))
      (validDiv0Output divisor quotient : Mpc F _) := by
  refine Ensures.bind (isZero_spec hl) fun z zero =>
    Ensures.bind (eq_spec hr (SumShares.promote _)) fun q max =>
    Ensures.bind (cmux_spec (XorShares.bitToRing64 zero) (XorShares.bitToRing64 max)
      (XorShares.promote 1))
      fun o chosen => Ensures.pure ⟨_, rfl, ?_⟩
  have word : bitWord 64 (decide (l = 0)) &&& (1 ^^^ bitWord 64 (decide (r = 0xFFFFFFFF))) ^^^ 1 =
      bitWord 64 (if l = 0 then r == 0xFFFFFFFF else true) := by
    rw [← beq_eq_decide r]
    by_cases none : l = 0
    · rw [if_pos none, decide_eq_true none]
      cases r == 0xFFFFFFFF <;> rfl
    · rw [if_neg none, decide_eq_false none]
      cases r == 0xFFFFFFFF <;> rfl
  rw [word] at chosen
  have value : (if l = 0 then bitWord 64 (r == 0xFFFFFFFF) else 1) =
      bitWord 64 (if l = 0 then r == 0xFFFFFFFF else true) := by
    split <;> rfl
  rw [value, ← x.cut_bitWord]
  exact standsFor_cast chosen

/-- The selection bit is one bit wide: it selects the lowest bit only. -/
theorem cmux_bit (b : Bool) (v : BitVec 64) :
    bitWord 64 b &&& (v ^^^ 1) ^^^ v = if b then v ||| 1 else v := by
  cases b with
  | false => simp [bitWord]
  | true =>
    apply BitVec.eq_of_getLsbD_eq
    intro i inside
    have one : (bitWord 64 true).getLsbD i = (1 : BitVec 64).getLsbD i := rfl
    simp only [BitVec.getLsbD_xor, BitVec.getLsbD_and, one, if_true, BitVec.getLsbD_or]
    cases v.getLsbD i <;> cases (1 : BitVec 64).getLsbD i <;> rfl

/-- The circuit reads the additive shares of the divisor as an XOR sharing, and sets the lowest bit
at the 32-bit overflow pair. -/
theorem changeDivisorOutput_spec {dividend divisor : View (BitVec 64)} {l r : BitVec 64}
    (hl : SumShares dividend l) (hr : SumShares divisor r) :
    Ensures (fun out => ∃ f, out = some f ∧ f.StandsFor
        ((x.cut (if l = 0x80000000 ∧ r = 0xFFFFFFFF then (parity fun p => (divisor p).a) ||| 1
          else parity fun p => (divisor p).a)).toNat : F))
      (changeDivisorOutput dividend divisor : Mpc F (Option (FutureRep3Ring F x.bits))) := by
  have mixed : XorShares divisor (parity fun p => (divisor p).a) := ⟨hr.replicated, rfl⟩
  refine Ensures.bind (eq_spec hr (SumShares.promote _)) fun n neg =>
    Ensures.bind (eq_spec hl (SumShares.promote _))
    fun m min => Ensures.bind (and_spec neg min) fun b both => ?_
  have condition :
    BitVec.ofBool (decide (r = 0xFFFFFFFF)) &&& BitVec.ofBool (decide (l = 0x80000000)) =
      BitVec.ofBool (decide (l = 0x80000000 ∧ r = 0xFFFFFFFF)) := by
    rw [BitVec.ofBool_and_ofBool, Bool.and_comm, ← Bool.decide_and]
  rw [condition] at both
  refine Ensures.bind (cmux_spec (XorShares.bitToRing64 both) (XorShares.promote 1) mixed)
    fun o chosen =>
    Ensures.pure ⟨_, rfl, ?_⟩
  rw [cmux_bit] at chosen
  simp only [decide_eq_true_eq] at chosen
  exact standsFor_cast chosen

/-- The upper half of a double-width product. -/
theorem upper_eq_zero_iff {w : Nat} (l r : BitVec w) :
    ((l.setWidth (2 * w) * r.setWidth (2 * w)) >>> w).setWidth w = 0 ↔
      l.toNat * r.toNat < 2 ^ w := by
  have bound : l.toNat * r.toNat < 2 ^ w * 2 ^ w := Nat.mul_lt_mul'' l.isLt r.isLt
  have wide : ∀ v : BitVec w, (v.setWidth (2 * w)).toNat = v.toNat := fun v =>
    BitVec.toNat_setWidth_of_le (by omega)
  have product : (l.setWidth (2 * w) * r.setWidth (2 * w)).toNat = l.toNat * r.toNat := by
    rw [BitVec.toNat_mul, wide, wide, Nat.mod_eq_of_lt (by rw [two_mul, pow_add]; exact bound)]
  have upper : l.toNat * r.toNat / 2 ^ w < 2 ^ w := Nat.div_lt_of_lt_mul bound
  rw [← BitVec.toNat_inj, BitVec.toNat_setWidth, BitVec.toNat_ushiftRight, product,
    Nat.shiftRight_eq_div_pow, Nat.mod_eq_of_lt upper]
  simp

theorem mulUNoOverflowOutput_spec {a b : View (BitVec (2 * x.bits))} {l r : BitVec x.bits}
    (hl : SumShares a (l.setWidth (2 * x.bits))) (hr : SumShares b (r.setWidth (2 * x.bits))) :
    Ensures (fun out => ∃ f, out = some f ∧
        f.StandsFor ((bitWord 64 (decide (l.toNat * r.toNat < 2 ^ x.bits))).toNat : F))
      (mulUNoOverflowOutput a b : Mpc F _) := by
  refine Ensures.bind (mul_spec hl hr) fun p product =>
    Ensures.bind (a2b_spec product) fun v binary =>
    Ensures.bind (isZero_spec ((binary.shiftRight x.bits).setWidth x.bits)) fun bit zero =>
      Ensures.pure ⟨_, rfl, ?_⟩
  have same :
    decide (((l.setWidth (2 * x.bits) * r.setWidth (2 * x.bits)) >>> x.bits).setWidth x.bits = 0) =
      decide (l.toNat * r.toNat < 2 ^ x.bits) := decide_eq_decide.mpr (upper_eq_zero_iff l r)
  rw [same] at zero
  rw [toNat_bitWord (by decide)]
  exact .bitInject zero

theorem Rep3Operand.Holds.arithmetic64 {op : Rep3Operand x} {v : BitVec 64}
    (small : v.toNat < 2 ^ x.bits) (h : op.Holds (v.setWidth x.bits)) (ready : op.Populated) :
    ∃ a, op.asArithmeticOrTrivial 64 = some a ∧ SumShares a v ∧ op.mixed = parity fun p =>
      (a p).a := by
  obtain ⟨a, form, shares⟩ := h.arithmetic (w := 64) (by cases x <;> decide) ready
  have value : ((v.setWidth x.bits).setWidth (2 * x.bits)).setWidth 64 = v := by
    rw [BitVec.setWidth_setWidth_of_le _ (by cases x <;> decide), setWidth_cut small,
      BitVec.setWidth_eq]
  refine ⟨a, form, value ▸ shares, ?_⟩
  rw [Rep3Operand.mixed, form]

/-- One division check on a sharing of a cycle. -/
theorem DivisionCheck.toLookupOutput_spec (k : DivisionCheck) {s : Rep3Cycle x} {c : Cycle}
    (h : s.SharingOf k.kind c) (ready : s.Ready) :
    Ensures (fun out => ∃ f, out = some f ∧
      f.StandsFor ((k.sharedOutput x c s.rs2.mixed).toNat : F))
      (k.toLookupOutput s : Mpc F _) := by
  have small1 := h.rs1.small
  have small2 := h.rs2.small
  have word1 : (c.rs1.setWidth x.bits).toNat = c.rs1.toNat := toNat_setWidth_of_lt small1
  have word2 : (c.rs2.setWidth x.bits).toNat = c.rs2.toNat := toNat_setWidth_of_lt small2
  have zero : c.rs1.setWidth x.bits = 0 ↔ c.rs1 = 0 := by
    rw [← BitVec.toNat_inj, ← BitVec.toNat_inj, word1]
    simp
  obtain ⟨dividend, form1, shares1, -⟩ := h.rs1.holds.arithmetic64 small1 ready.rs1
  obtain ⟨divisor, form2, shares2, mixed⟩ := h.rs2.holds.arithmetic64 small2 ready.rs2
  cases k with
  | VirtualAssertValidUnsignedRemainder =>
    have below : (c.rs1.setWidth x.bits).ult (c.rs2.setWidth x.bits) = c.rs1.ult c.rs2 := by
      rw [BitVec.ult, BitVec.ult, word1, word2]
    have output := validUnsignedRemainderOutput_spec (F := F) h.rs1.holds h.rs2.holds
    rwa [below, show (c.rs1.setWidth x.bits == 0) = (c.rs1 == 0) from by
      rw [beq_eq_decide]; exact decide_eq_decide.mpr zero] at output
  | VirtualAssertValidDiv0 =>
    have output := validDiv0Output_spec (F := F) h.rs1.holds.binary shares2
    simp only [zero] at output
    unfold toLookupOutput sharedOutput
    simpa only [Rep3Cycle.toInstructionInputs, kind, form2] using output
  | VirtualChangeDivisor | VirtualChangeDivisorW =>
    have output := changeDivisorOutput_spec (F := F) (x := x) shares1 shares2
    unfold toLookupOutput sharedOutput
    simpa only [Rep3Cycle.toInstructionInputs, kind, form1, form2, mixed] using output
  | VirtualAssertMulUNoOverflow =>
    obtain ⟨a, formA, sharesA⟩ := h.rs1.holds.arithmetic (Nat.le_refl _) ready.rs1
    obtain ⟨b, formB, sharesB⟩ := h.rs2.holds.arithmetic (Nat.le_refl _) ready.rs2
    rw [BitVec.setWidth_eq] at sharesA sharesB
    have output := mulUNoOverflowOutput_spec (F := F) sharesA sharesB
    rw [word1, word2] at output
    unfold toLookupOutput sharedOutput
    simpa only [Rep3Cycle.toInstructionInputs, kind, formA, formB] using output

end Circuits

section Plain

variable {x : Xlen} {c : Cycle}

/-- The inputs of a division check are the registers. -/
theorem DivisionCheck.inputs {k : DivisionCheck} (notW : k ≠ .VirtualChangeDivisorW)
    (small1 : c.rs1.toNat < 2 ^ x.bits) (small2 : c.rs2.toNat < 2 ^ x.bits) :
    c.toInstructionInputs x k.kind = some (c.rs1, (c.rs2.toNat : Int)) := by
  have registers :
      c.toInstructionInputs x k.kind = some (x.cut c.rs1, ((x.cut c.rs2).toNat : Int)) := by
    cases k <;> first | rfl | exact absurd rfl notW
  rw [registers, Xlen.cut_of_lt small1, Xlen.cut_of_lt small2]

/-- The plaintext output of a division check and every entry of its table at the index are `out`. -/
structure DivisionCheck.Specified (x : Xlen) (k : DivisionCheck) (c : Cycle) (out : BitVec 64) :
    Prop where
  output : c.toLookupOutput x k = some out
  entry : ∃ index, c.toLookupIndex x k.kind = some index ∧ ∀ entry ∈ k.materializeEntry x index,
    entry = out

theorem DivisionCheck.specified_iff {k : DivisionCheck} {out plain : BitVec 64} {index : BitVec 128}
    (output : c.toLookupOutput x k = some plain) (query : c.toLookupIndex x k.kind = some index)
    (entries : ∀ entry ∈ k.materializeEntry x index, entry = plain) :
    k.Specified x c out ↔ out = plain := by
  constructor
  · rintro ⟨output', -⟩
    exact (Option.some.inj (output.symm.trans output')).symm
  · rintro rfl
    exact ⟨output, index, query, entries⟩

/-- The interleaved index of two registers. -/
theorem DivisionCheck.index {k : DivisionCheck} (notW : k ≠ .VirtualChangeDivisorW)
    (notMul : k ≠ .VirtualAssertMulUNoOverflow) (small1 : c.rs1.toNat < 2 ^ x.bits)
    (small2 : c.rs2.toNat < 2 ^ x.bits) :
    c.toLookupIndex x k.kind = some (interleaveBits c.rs1 c.rs2) := by
  have rule : Cycle.indexRule k.kind = .interleave := by
    cases k <;> first | rfl | exact absurd rfl notW | exact absurd rfl notMul
  rw [Cycle.toLookupIndex, inputs notW small1 small2]
  simp [rule]

theorem bitWord_inj {a b : Bool} : bitWord 64 a = bitWord 64 b ↔ a = b := by
  cases a <;> cases b <;> decide

theorem remainder_checks_iff (l r : BitVec 64) :
    (l == 0 || l.ult r) = (r == 0 || l.ult r) ↔ ¬ (r = 0 ∧ l ≠ 0) := by
  rw [Bool.eq_iff_iff]
  simp only [Bool.or_eq_true, beq_iff_eq, BitVec.ult, decide_eq_true_eq, ne_eq, ← BitVec.toNat_inj,
    BitVec.ofNat_eq_ofNat, BitVec.toNat_ofNat]
  omega

theorem DivisionCheck.validUnsignedRemainder_agrees (small1 : c.rs1.toNat < 2 ^ x.bits)
    (small2 : c.rs2.toNat < 2 ^ x.bits) (mixed : BitVec 64) :
    Specified x .VirtualAssertValidUnsignedRemainder c
      (sharedOutput x .VirtualAssertValidUnsignedRemainder c mixed) ↔
      Agrees x .VirtualAssertValidUnsignedRemainder c mixed := by
  have output : c.toLookupOutput x .VirtualAssertValidUnsignedRemainder =
      some (bitWord 64 (c.rs2 == 0 || c.rs1.ult c.rs2)) := by
    have zero : ((c.rs2.toNat : Int) == 0) = (c.rs2 == 0) := by
      rw [beq_eq_decide]
      exact decide_eq_decide.mpr (by rw [← BitVec.toNat_inj]; simp)
    rw [Cycle.toLookupOutput, inputs (by decide) small1 small2]
    simp [zero]
  rw [specified_iff output (index (by decide) (by decide) small1 small2)]
  · exact bitWord_inj.trans (remainder_checks_iff ..)
  · rw [materializeEntry, uninterleaveBits_interleaveBits]
    rintro entry ⟨⟩
    rfl

/-- At XLEN 64 the two sides disagree for divisor 0 at both words that stand for `-1`. -/
theorem DivisionCheck.validDiv0_agrees (small1 : c.rs1.toNat < 2 ^ x.bits)
    (small2 : c.rs2.toNat < 2 ^ x.bits) (mixed : BitVec 64) :
    Specified x .VirtualAssertValidDiv0 c (sharedOutput x .VirtualAssertValidDiv0 c mixed) ↔
      Agrees x .VirtualAssertValidDiv0 c mixed := by
  have query := index (k := .VirtualAssertValidDiv0) (by decide) (by decide) small1 small2
  have inputs := inputs (k := .VirtualAssertValidDiv0) (by decide) small1 small2
  by_cases divisor : c.rs1 = 0
  · have output : c.toLookupOutput x .VirtualAssertValidDiv0 =
        some (bitWord 64 (c.rs2 == if x = .rv32 then 0xFFFFFFFF else 0xFFFFFFFFFFFFFFFF)) := by
      rw [Cycle.toLookupOutput, inputs]
      simp only [bind_eq_bind, bind_some, ofInt_toNat, if_pos divisor]
      cases x <;> rfl
    rw [specified_iff output query]
    · rw [sharedOutput, if_pos divisor, bitWord_inj, Bool.eq_iff_iff, beq_iff_eq, beq_iff_eq]
      cases x with
      | rv32 => exact iff_of_true Iff.rfl fun h => nomatch h.1
      | rv64 =>
        constructor
        · rintro same ⟨-, -, short | long⟩
          · exact absurd (short.symm.trans (same.mp short)) (by decide)
          · exact absurd ((same.mpr long).symm.trans long) (by decide)
        · intro other
          exact iff_of_false (fun short => other ⟨rfl, divisor, .inl short⟩) fun long =>
            other ⟨rfl, divisor, .inr long⟩
    · rw [materializeEntry, uninterleaveBits_interleaveBits]
      simp only [if_pos divisor]
      cases x with
      | rv32 =>
        rintro entry ⟨⟩
        rfl
      | rv64 => exact fun entry none => nomatch none
  · have output : c.toLookupOutput x .VirtualAssertValidDiv0 = some 1 := by
      rw [Cycle.toLookupOutput, inputs]
      simp only [bind_eq_bind, bind_some, if_neg divisor]
    rw [specified_iff output query]
    · rw [sharedOutput, if_neg divisor]
      exact iff_of_true rfl fun h => divisor h.2.1
    · rw [materializeEntry, uninterleaveBits_interleaveBits]
      simp only [if_neg divisor]
      rintro entry ⟨⟩
      rfl

/-- Setting the lowest bit gives an odd word from that word and from the even one before it. -/
theorem or_one_eq_iff {w : Nat} {v t : BitVec w} (odd : t.getLsbD 0 = true) :
    v ||| 1#w = t ↔ v = t ∨ v = t ^^^ 1#w := by
  have pos : 0 < w := Nat.pos_of_ne_zero fun zero => by
    subst zero
    simp at odd
  constructor
  · rintro rfl
    by_cases low : v.getLsbD 0 = true
    · refine .inl (BitVec.eq_of_getLsbD_eq fun i _ => ?_)
      by_cases first : i = 0 <;> simp_all
    · refine .inr (BitVec.eq_of_getLsbD_eq fun i _ => ?_)
      by_cases first : i = 0 <;> simp_all
  · rintro (rfl | rfl) <;> refine BitVec.eq_of_getLsbD_eq fun i _ => ?_ <;>
      by_cases first : i = 0 <;> simp_all

theorem setWidth_inj {w n : Nat} (wider : w ≤ n) {a b : BitVec w} :
    a.setWidth n = b.setWidth n ↔ a = b := by
  rw [← BitVec.toNat_inj, ← BitVec.toNat_inj, BitVec.toNat_setWidth_of_le wider,
    BitVec.toNat_setWidth_of_le wider]

/-- At XLEN 32 only the reading of the shares as XOR shares can go wrong. -/
theorem DivisionCheck.changeDivisor_agrees32 {c : Cycle} (small1 : c.rs1.toNat < 2 ^ 32)
    (small2 : c.rs2.toNat < 2 ^ 32) (mixed : BitVec 64) :
    Specified .rv32 .VirtualChangeDivisor c (sharedOutput .rv32 .VirtualChangeDivisor c mixed) ↔
      Agrees .rv32 .VirtualChangeDivisor c mixed := by
  have word : ∀ {v : BitVec 64} (t : BitVec 32), v.toNat < 2 ^ 32 →
      (v.setWidth 32 = t ↔ v = t.setWidth 64) := by
    intro v t small
    rw [← BitVec.toNat_inj, ← BitVec.toNat_inj, toNat_setWidth_of_lt small,
      BitVec.toNat_setWidth_of_le (by decide)]
  have special : c.rs1.setWidth 32 = BitVec.intMin 32 ∧ c.rs2.setWidth 32 = -1 ↔
      c.rs1 = 0x80000000 ∧ c.rs2 = 0xFFFFFFFF :=
    and_congr (word _ small1) (word _ small2)
  have output : c.toLookupOutput .rv32 .VirtualChangeDivisor =
      some (if c.rs1 = 0x80000000 ∧ c.rs2 = 0xFFFFFFFF then 1
        else (c.rs2.setWidth 32).setWidth 64) := by
    rw [Cycle.toLookupOutput, inputs (by decide) small1 small2]
    simp only [bind_eq_bind, bind_some, ofInt_toNat, special]
  rw [specified_iff output (index (by decide) (by decide) small1 small2)]
  · have cut : ∀ v t : BitVec 64, Xlen.cut .rv32 v = (t.setWidth 32).setWidth 64 ↔
        v.setWidth 32 = t.setWidth 32 :=
      fun _ _ => setWidth_inj (by decide)
    by_cases both : c.rs1 = 0x80000000 ∧ c.rs2 = 0xFFFFFFFF
    · simp only [sharedOutput, Agrees, if_pos both]
      rw [show (1 : BitVec 64) = ((1 : BitVec 64).setWidth 32).setWidth 64 from rfl, cut,
        BitVec.setWidth_or]
      exact (or_one_eq_iff rfl).trans Or.comm
    · simp only [sharedOutput, Agrees, if_neg both]
      exact cut _ _
  · rw [materializeEntry, uninterleaveBits_interleaveBits]
    rintro entry ⟨⟩
    simp only [special]

/-- At XLEN 64 the overflow pair of the plaintext is never recognised. -/
theorem DivisionCheck.changeDivisor_agrees64 (c : Cycle) (mixed : BitVec 64) :
    Specified .rv64 .VirtualChangeDivisor c (sharedOutput .rv64 .VirtualChangeDivisor c mixed) ↔
      Agrees .rv64 .VirtualChangeDivisor c mixed := by
  have inputs := inputs (k := .VirtualChangeDivisor) (x := .rv64) (by decide) c.rs1.isLt c.rs2.isLt
  have query :=
    index (k := .VirtualChangeDivisor) (x := .rv64) (by decide) (by decide) c.rs1.isLt c.rs2.isLt
  have output : c.toLookupOutput .rv64 .VirtualChangeDivisor = some c.rs2 := by
    have never : ¬ (c.rs1 = BitVec.intMin 64 ∧ (c.rs2.toNat : Int) = -1) := by omega
    rw [Cycle.toLookupOutput, inputs]
    simp
  have entry : materializeEntry .rv64 .VirtualChangeDivisor (interleaveBits c.rs1 c.rs2) =
      some (if c.rs1 = 0x8000000000000000 ∧ c.rs2 = 0xFFFFFFFFFFFFFFFF then 1 else c.rs2) := by
    rw [materializeEntry, uninterleaveBits_interleaveBits]
    rfl
  by_cases most : c.rs1 = 0x8000000000000000 ∧ c.rs2 = 0xFFFFFFFFFFFFFFFF
  · -- the table has 1 here, and the plaintext output is the divisor
    refine iff_of_false (fun ⟨output', index, query', entries⟩ => ?_) fun agrees => agrees.1 most
    cases Option.some.inj (query.symm.trans query')
    have one : (1 : BitVec 64) = c.rs2 :=
      (entries 1 (by rw [entry, if_pos most]; rfl)).trans
        (Option.some.inj (output'.symm.trans output))
    exact absurd (one.trans most.2) (by decide)
  · rw [specified_iff output query fun e found => by
      rw [entry, if_neg most] at found
      exact (Option.some.inj found).symm]
    have cut : ∀ v, Xlen.cut .rv64 v = v := fun v => Xlen.cut_of_lt v.isLt
    by_cases both : c.rs1 = 0x80000000 ∧ c.rs2 = 0xFFFFFFFF
    · simp only [sharedOutput, Agrees, if_pos both]
      have low : mixed ||| 1 = c.rs2 ↔ mixed = 0xFFFFFFFF ∨ mixed = 0xFFFFFFFE := by
        rw [both.2]
        exact or_one_eq_iff rfl
      exact (low.trans Or.comm).trans ⟨fun h => ⟨most, h⟩, fun h => h.2⟩
    · simp only [sharedOutput, Agrees, if_neg both]
      exact ⟨fun h => ⟨most, h⟩, fun h => h.2⟩

/-- The plaintext cuts both registers to words before it compares, the circuit does not. -/
theorem DivisionCheck.changeDivisorW_agrees (c : Cycle) (mixed : BitVec 64) :
    Specified .rv64 .VirtualChangeDivisorW c (sharedOutput .rv64 .VirtualChangeDivisorW c mixed) ↔
      Agrees .rv64 .VirtualChangeDivisorW c mixed := by
  have low : ((c.rs1.setWidth 32).setWidth 64).setWidth 32 = c.rs1.setWidth 32 := by
    simp
  have lowSigned : ((c.rs2.setWidth 32).signExtend 64).setWidth 32 = c.rs2.setWidth 32 := by
    apply BitVec.eq_of_getLsbD_eq
    intro i inside
    simp only [BitVec.getLsbD_setWidth, BitVec.getLsbD_signExtend, inside,
      show i < 64 by omega, decide_true, Bool.true_and, if_true]
  have output : c.toLookupOutput .rv64 .VirtualChangeDivisorW =
      some (if c.rs1.setWidth 32 = 0x80000000#32 ∧ c.rs2.setWidth 32 = 0xFFFFFFFF#32 then 1
        else (c.rs2.setWidth 32).signExtend 64) := by
    have inputs : c.toInstructionInputs .rv64 DivisionCheck.VirtualChangeDivisorW.kind =
      some ((c.rs1.setWidth 32).setWidth 64, (c.rs2.setWidth 32).toInt) := rfl
    rw [Cycle.toLookupOutput, inputs]
    simp only [bind_eq_bind, bind_some, BitVec.ofInt_toInt, low]
    rfl
  have query : c.toLookupIndex .rv64 .VirtualChangeDivisorW =
      some (interleaveBits ((c.rs1.setWidth 32).setWidth 64) ((c.rs2.setWidth 32).signExtend 64)) :=
        rfl
  rw [specified_iff output query]
  · have cut : ∀ v, Xlen.cut .rv64 v = v := fun v => Xlen.cut_of_lt v.isLt
    by_cases both : c.rs1 = 0x80000000 ∧ c.rs2 = 0xFFFFFFFF
    · have low : c.rs1.setWidth 32 = 0x80000000#32 ∧ c.rs2.setWidth 32 = 0xFFFFFFFF#32 := by
        rw [both.1, both.2]
        decide
      simp only [sharedOutput, Agrees, if_pos both, if_pos low]
      exact (or_one_eq_iff rfl).trans Or.comm
    · simp only [sharedOutput, Agrees, if_neg both]
      split <;> rfl
  · rw [materializeEntry, uninterleaveBits_interleaveBits]
    rintro entry ⟨⟩
    simp only [low, lowSigned]
    rfl

/-- The multiplication check agrees on all inputs. -/
theorem DivisionCheck.mulUNoOverflow_agrees (small1 : c.rs1.toNat < 2 ^ x.bits)
    (small2 : c.rs2.toNat < 2 ^ x.bits) (mixed : BitVec 64) :
    Specified x .VirtualAssertMulUNoOverflow c
      (sharedOutput x .VirtualAssertMulUNoOverflow c mixed) := by
  have inputs := inputs (k := .VirtualAssertMulUNoOverflow) (by decide) small1 small2
  have product : (c.rs1.setWidth 128 * c.rs2.setWidth 128).toNat = c.rs1.toNat * c.rs2.toNat := by
    have bound : c.rs1.toNat * c.rs2.toNat < 2 ^ 64 * 2 ^ 64 :=
      Nat.mul_lt_mul'' c.rs1.isLt c.rs2.isLt
    rw [BitVec.toNat_mul]
    exact Nat.mod_eq_of_lt bound
  have pos := Nat.two_pow_pos x.bits
  refine ⟨?_, c.rs1.setWidth 128 * c.rs2.setWidth 128, ?_, ?_⟩
  · rw [Cycle.toLookupOutput, inputs]
    simp only [bind_eq_bind, bind_some, ofInt_toNat, BitVec.setWidth_eq]
    exact congrArg _ (bitWord_inj.mpr (decide_eq_decide.mpr (by omega)))
  · rw [Cycle.toLookupIndex, inputs]
    simp only [bind_eq_bind, bind_some, ofInt_toNat]
    rfl
  · rintro entry ⟨⟩
    rw [sharedOutput, bitWord_inj]
    refine decide_eq_decide.mpr ?_
    rw [← BitVec.toNat_inj, BitVec.toNat_ushiftRight, product, Nat.shiftRight_eq_div_pow]
    simp

/-- The shared output is the specified one exactly where `Agrees` says. -/
theorem DivisionCheck.specified_sharedOutput_iff {k : DivisionCheck}
    (supported : k.kind.supported x = true) (small1 : c.rs1.toNat < 2 ^ x.bits)
    (small2 : c.rs2.toNat < 2 ^ x.bits) (mixed : BitVec 64) :
    k.Specified x c (k.sharedOutput x c mixed) ↔ k.Agrees x c mixed := by
  cases k with
  | VirtualAssertValidUnsignedRemainder => exact validUnsignedRemainder_agrees small1 small2 mixed
  | VirtualAssertValidDiv0 => exact validDiv0_agrees small1 small2 mixed
  | VirtualChangeDivisor =>
    cases x with
    | rv32 => exact changeDivisor_agrees32 small1 small2 mixed
    | rv64 => exact changeDivisor_agrees64 c mixed
  | VirtualChangeDivisorW =>
    obtain rfl : x = .rv64 := of_decide_eq_true supported
    exact changeDivisorW_agrees c mixed
  | VirtualAssertMulUNoOverflow =>
      exact iff_of_true (mulUNoOverflow_agrees small1 small2 mixed) trivial

end Plain

section Output

variable {F : Type} [CommRing F] {x : Xlen}

/-- Position `i` of the computed outputs opens to the specified output of the cycle. -/
def OpensToPlaintext (k : DivisionCheck) (c : Cycle) (i : Nat) (x : Xlen)
    (outputs : Option (List (View F))) : Prop :=
  ∃ shares v out, outputs = some shares ∧ shares[i]? = some v ∧ k.Specified x c out ∧
    SumShares v (out.toNat : F)

theorem DivisionCheck.ofKind_kind (k : DivisionCheck) : ofKind k.kind = some k := by cases k <;> rfl

theorem Rep3Operand.Populated.arithmetic {op : Rep3Operand x} (h : op.Populated) (w : Nat) :
    ∃ a, op.asArithmeticOrTrivial w = some a := by
  cases op with
  | opened value => exact ⟨_, rfl⟩
  | shared binary arithmetic hint =>
    obtain ⟨a, rfl⟩ := isSome_iff_exists.mp h
    exact ⟨_, rfl⟩

/-- A division check does not panic once the casts are populated. -/
theorem DivisionCheck.toLookupOutput_runs (k : DivisionCheck) {s : Rep3Cycle x} (ready : s.Ready) :
    Ensures (fun future => future.isSome) (k.toLookupOutput s : Mpc F _) := by
  obtain ⟨l, left⟩ := ready.rs1.arithmetic 64
  obtain ⟨r, right⟩ := ready.rs2.arithmetic 64
  obtain ⟨a, wideL⟩ := ready.rs1.arithmetic (2 * x.bits)
  obtain ⟨b, wideR⟩ := ready.rs2.arithmetic (2 * x.bits)
  have three : ∀ {α β γ : Type} {m : Mpc F α} {f : α → Mpc F β} {g : α → β → Mpc F γ} {out : γ →
    FutureRep3Ring F x.bits},
      Ensures (fun future => future.isSome) (do
        let a ← m; let b ← f a; let c ← g a b; return some (out c)) :=
    Ensures.after fun _ => Ensures.after fun _ => Ensures.after fun _ => Ensures.pure rfl
  unfold toLookupOutput
  cases k with
  | VirtualAssertValidUnsignedRemainder => exact three
  | VirtualAssertValidDiv0 =>
    simp only [Rep3Cycle.toInstructionInputs, kind, right]
    exact three
  | VirtualChangeDivisor | VirtualChangeDivisorW =>
    simp only [Rep3Cycle.toInstructionInputs, kind, left, right]
    exact Ensures.after fun _ => three
  | VirtualAssertMulUNoOverflow =>
    simp only [Rep3Cycle.toInstructionInputs, kind, wideL, wideR]
    exact three

/-- The queries of the other instructions in the trace do not panic. -/
def OthersRun (others : OutputQuery F x) (cycles : List (TraceCycle x)) : Prop :=
  ∀ e ∈ cycles, DivisionCheck.ofKind e.1 = none →
    Ensures (fun future => future.isSome) (others e.1 e.2)

section

variable {others : OutputQuery F x} {cycles : List (TraceCycle x)} {i : Nat} {k : DivisionCheck}
  {s : Rep3Cycle x} {c : Cycle}

/-- Whatever else is in the trace, the output of a division check opens to `sharedOutput`. -/
theorem DivisionCheck.output_opens (found : cycles[i]? = some (k.kind, s))
    (sharing : s.SharingOf k.kind c) (ready : ∀ e ∈ cycles, e.2.Ready)
    (runs : OthersRun others cycles) :
    Ensures (fun out => ∃ shares v, out = some shares ∧ shares[i]? = some v ∧
        SumShares v ((k.sharedOutput x c s.rs2.mixed).toNat : F))
      (computeLookupOutputs (withDivisionChecks others) cycles) := by
  have table : k.kind.hasLookupTable = true := by cases k <;> rfl
  refine computeLookupOutputs_spec found table (fun e inside => ?_) ?_
  · unfold withDivisionChecks
    cases check : ofKind e.1 with
    | none => exact runs e inside check
    | some k' => exact k'.toLookupOutput_runs (ready e inside)
  · rw [withDivisionChecks, ofKind_kind]
    refine (k.toLookupOutput_spec sharing (ready _ (List.mem_of_getElem? found))).imp fun out ⟨f,
      same, stands⟩ g found => ?_
    cases same.symm.trans found
    exact stands

/-- Whatever the other instructions of the trace do, the check opens to a specified output exactly
when its own shared value is one. -/
theorem opensToPlaintext_iff (large : LargeField F) (found : cycles[i]? = some (k.kind, s))
    (sharing : s.SharingOf k.kind c) (ready : ∀ e ∈ cycles, e.2.Ready)
    (runs : OthersRun others cycles) :
    Ensures (OpensToPlaintext k c i x) (computeLookupOutputs (withDivisionChecks others) cycles) ↔
      k.Specified x c (k.sharedOutput x c s.rs2.mixed) := by
  have opened := DivisionCheck.output_opens found sharing ready runs
  constructor
  · intro plaintext
    obtain ⟨coins⟩ := coins_exist (F := F)
    obtain ⟨shares, v, same, at_i, opens⟩ := opened coins
    obtain ⟨shares', v', out, same', at_i', specified, opens'⟩ := plaintext coins
    cases same.symm.trans same'
    cases at_i.symm.trans at_i'
    have equal :=
      large _ _ out.isLt (k.sharedOutput x c s.rs2.mixed).isLt (opens'.opens.symm.trans opens.opens)
    exact BitVec.eq_of_toNat_eq equal ▸ specified
  · intro specified
    exact opened.imp fun out ⟨shares, v, same, at_i, opens⟩ =>
      ⟨shares, v, _, same, at_i, specified, opens⟩

/-- The output of a division check, in any trace and for any sharing, is the plaintext output and
the entry of its table exactly where `Agrees` says. -/
theorem division_output_iff (large : LargeField F) (supported : k.kind.supported x = true)
    (found : cycles[i]? = some (k.kind, s)) (sharing : s.SharingOf k.kind c)
    (ready : ∀ e ∈ cycles, e.2.Ready) (runs : OthersRun others cycles) :
    Ensures (OpensToPlaintext k c i x) (computeLookupOutputs (withDivisionChecks others) cycles) ↔
      k.Agrees x c s.rs2.mixed :=
  (opensToPlaintext_iff large found sharing ready runs).trans
    (DivisionCheck.specified_sharedOutput_iff supported sharing.rs1.small sharing.rs2.small _)

end

/-- A trace of one division check whose registers are public. -/
def publicCheck (x : Xlen) (k : DivisionCheck) (c : Cycle) : List (TraceCycle x) :=
  [(k.kind, c.allPublic x)]

def noOthers : OutputQuery Int x := fun _ _ => pure none

theorem publicCheck_ready (k : DivisionCheck) (c : Cycle) : ∀ e ∈ publicCheck x k c, e.2.Ready := by
  intro e inside
  cases List.mem_singleton.mp inside
  exact ⟨trivial, trivial⟩

theorem publicCheck_runs (k : DivisionCheck) (c : Cycle) :
    OthersRun noOthers (publicCheck x k c) := by
  intro e inside other
  cases List.mem_singleton.mp inside
  rw [DivisionCheck.ofKind_kind] at other
  cases other

/-- A register that the parties share, with its cast. -/
theorem isRegister_reshare {v : BitVec 64} {own : Preprocessing.PartyID → BitVec x.bits}
    {cast : Preprocessing.PartyID → BitVec (2 * x.bits)} (small : v.toNat < 2 ^ x.bits)
    (opens : parity own = v.setWidth x.bits)
    (wide : total cast = (v.setWidth x.bits).setWidth (2 * x.bits)) :
    (Rep3Operand.shared (.reshare own) (some (.reshare cast)) none).IsRegister v := by
  refine ⟨small, .shared ⟨replicated_reshare _,
    opens⟩ (fun a same => ?_) (fun _ none => nomatch none), fun _ other => nomatch other⟩
  cases same
  exact ⟨replicated_reshare _, wide⟩

/-- The remainder 3 of a division by 5, both secret. -/
def secretRemainder : Rep3Cycle .rv64 where
  rs1 := .shared (.reshare fun | .ID0 => 9 | .ID1 => 12 | .ID2 => 6)
    (some (.reshare fun | .ID0 => 7 | .ID1 => 11 | .ID2 => -15)) none
  rs2 := .shared (.reshare fun | .ID0 => 8 | .ID1 => 1 | .ID2 => 12)
    (some (.reshare fun | .ID0 => 20 | .ID1 => -4 | .ID2 => -11)) none

theorem division_output_iff_remainder :
    Ensures (OpensToPlaintext .VirtualAssertValidUnsignedRemainder { rs1 := 3, rs2 := 5 } 0 .rv64)
      (computeLookupOutputs (withDivisionChecks noOthers)
        [(DivisionCheck.VirtualAssertValidUnsignedRemainder.kind, secretRemainder)]) := by
  have sharing : secretRemainder.SharingOf DivisionCheck.VirtualAssertValidUnsignedRemainder.kind
      { rs1 := 3, rs2 := 5 } :=
    ⟨isRegister_reshare (by decide) (by decide) (by decide),
      isRegister_reshare (by decide) (by decide) (by decide), rfl, rfl, fun other => nomatch other⟩
  refine (division_output_iff largeField_int rfl rfl sharing (fun e inside => ?_)
    fun e inside other => ?_).mpr (by unfold DivisionCheck.Agrees; decide)
  · cases List.mem_singleton.mp inside
    exact ⟨rfl, rfl⟩
  · cases List.mem_singleton.mp inside
    cases other

/-- `ChangeDivisor` with dividend 0 and the divisor 2, shared as 1 + 1 + 0. -/
def sharedDivisor : Rep3Cycle .rv64 where
  rs2 :=
    .shared (.promoteToTrivialShare 2) (some (.reshare fun | .ID0 => 1 | .ID1 => 1 | .ID2 => 0))
    none

/-- Division by zero with remainder 1; the quotient of a division by zero in the 64-bit build; a
divisor that is shared. -/
theorem division_output_differs :
    ¬ Ensures (OpensToPlaintext .VirtualAssertValidUnsignedRemainder { rs1 := 1 } 0 .rv32)
        (computeLookupOutputs (withDivisionChecks noOthers)
          (publicCheck .rv32 .VirtualAssertValidUnsignedRemainder { rs1 := 1 })) ∧
    ¬ Ensures (OpensToPlaintext .VirtualAssertValidDiv0 { rs2 := 0xFFFFFFFFFFFFFFFF } 0 .rv64)
        (computeLookupOutputs (withDivisionChecks noOthers)
          (publicCheck .rv64 .VirtualAssertValidDiv0 { rs2 := 0xFFFFFFFFFFFFFFFF })) ∧
    ¬ Ensures (OpensToPlaintext .VirtualChangeDivisor { rs2 := 2 } 0 .rv64)
        (computeLookupOutputs (withDivisionChecks noOthers)
          [(.VirtualChangeDivisor, sharedDivisor)]) := by
  refine ⟨fun opens => ?_, fun opens => ?_, fun opens => ?_⟩
  · have specified := (opensToPlaintext_iff largeField_int rfl
      (Cycle.sharingOf_allPublic _ (by decide) (by decide) (by decide)) (publicCheck_ready _ _)
        (publicCheck_runs _ _)).mp opens
    exact absurd specified.output (by decide)
  · have specified := (opensToPlaintext_iff largeField_int rfl
      (Cycle.sharingOf_allPublic _ (by decide) (by decide) (by decide)) (publicCheck_ready _ _)
        (publicCheck_runs _ _)).mp opens
    exact absurd specified.output (by decide)
  · have sharing : sharedDivisor.SharingOf DivisionCheck.VirtualChangeDivisor.kind { rs2 := 2 } :=
      ⟨.of_opened (v := 0) (by decide), ⟨by decide, .shared (XorShares.promote 2) (fun a same => by
        cases same
        exact ⟨replicated_reshare _, by decide⟩) (fun _ none => nomatch none),
          fun _ other => nomatch other⟩, rfl, rfl,
        fun other => nomatch other⟩
    have ready : ∀ e ∈ [(InstructionKind.VirtualChangeDivisor, sharedDivisor)], e.2.Ready := by
      intro e inside
      cases List.mem_singleton.mp inside
      exact ⟨trivial, rfl⟩
    have runs : OthersRun noOthers [(InstructionKind.VirtualChangeDivisor, sharedDivisor)] := by
      intro e inside other
      cases List.mem_singleton.mp inside
      cases other
    have specified := (opensToPlaintext_iff largeField_int rfl sharing ready runs).mp opens
    exact absurd specified.output (by decide)

end Output

end ProviaVM.Instruction
