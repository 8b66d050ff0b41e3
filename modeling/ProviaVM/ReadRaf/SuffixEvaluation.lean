import ProviaVM.ReadRaf.SuffixBatch

/-! # Evaluation of the suffixes of a table

`Suffixes::suffix_mle` (`jolt-core/src/zkvm/lookup_table/suffixes`) on the public lookup
bits, and `evaluate_suffix_for_table` (`provia-worker/src/zkvm/suffixes`) on batches of
public and shared ones. Tables whose suffixes read the bits as one word get them in the
ring `T` of the phase; for all others the two operands are taken apart into `T::Half`. -/
namespace ProviaVM.ReadRaf
open Instruction Rep3 Preprocessing Sumcheck

/-! ## The plaintext suffixes -/

def LookupBits.split (b : LookupBits) (suffixLen : Nat) : LookupBits × LookupBits :=
  (.new (b.bits >>> suffixLen) (b.len - suffixLen), .new (b.bits % (1#128 <<< suffixLen)) suffixLen)

def swapBytes (v : BitVec 32) : BitVec 32 :=
  let byte (i : Nat) : BitVec 32 := (v >>> (8 * i)) &&& 0xff#32
  (byte 0 <<< 24) ||| (byte 1 <<< 16) ||| (byte 2 <<< 8) ||| byte 3

/-- `rev8w`: the bytes of each 32-bit word are reversed. -/
def rev8w (v : BitVec 64) : BitVec 64 :=
  let lo := swapBytes (v.setWidth 32)
  let hi := swapBytes ((v >>> 32).setWidth 32)
  lo.setWidth 64 + hi.setWidth 64 <<< 32

def u64OfBool (c : Bool) : BitVec 64 := if c then 1 else 0

def xorRotSuffix (rotation : Nat) (b : LookupBits) : BitVec 64 :=
  let (x, y) := b.uninterleave
  (x.toU64 ^^^ y.toU64).rotateRight rotation

def xorRotWSuffix (rotation : Nat) (b : LookupBits) : BitVec 64 :=
  let (x, y) := b.uninterleave
  ((x.toU64.setWidth 32 ^^^ y.toU64.setWidth 32).rotateRight rotation).setWidth 64

def Suffixes.suffixMle (x : Xlen) (b : LookupBits) : Suffixes → BitVec 64
  | .One => 1
  | .And =>
    let (l, r) := b.uninterleave
    l.toU64 &&& r.toU64
  | .NotAnd =>
    let (l, r) := b.uninterleave
    l.toU64 &&& ~~~r.toU64
  | .Or =>
    let (l, r) := b.uninterleave
    l.toU64 ||| r.toU64
  | .Xor =>
    let (l, r) := b.uninterleave
    l.toU64 ^^^ r.toU64
  | .RightOperand => b.uninterleave.2.toU64
  | .RightOperandW => (b.uninterleave.2.toU64.setWidth 32).setWidth 64
  | .ChangeDivisor =>
    let (l, r) := b.uninterleave
    u64OfBool (powerU64 r.len - 1 == r.toU64 && l.toU64 == 0)
  | .ChangeDivisorW =>
    let (l, r) := b.uninterleave
    let yLen := min r.len (x.bits / 2)
    u64OfBool (powerU64 yLen - 1 == (r.toU64.setWidth 32).setWidth 64 &&
      (l.toU64.setWidth 32).setWidth 64 == 0)
  | .UpperWord => (b.bits >>> x.bits).setWidth 64
  | .LowerWord => (b.bits % (1#128 <<< x.bits)).setWidth 64
  | .LowerHalfWord => (b.bits % (1#128 <<< (x.bits / 2))).setWidth 64
  | .LessThan =>
    let (l, r) := b.uninterleave
    u64OfBool (l.toU64 < r.toU64)
  | .GreaterThan =>
    let (l, r) := b.uninterleave
    u64OfBool (l.toU64 > r.toU64)
  | .Eq =>
    let (l, r) := b.uninterleave
    u64OfBool (l.bits == r.bits)
  | .LeftOperandIsZero => u64OfBool (b.uninterleave.1.toU64 == 0)
  | .RightOperandIsZero => u64OfBool (b.uninterleave.2.toU64 == 0)
  | .Lsb => if b.len = 0 then 1 else (b.bits &&& 1).setWidth 64
  | .DivByZero =>
    let (divisor, quotient) := b.uninterleave
    u64OfBool (divisor.toU64 == 0 && quotient.toU64 == powerU64 quotient.len - 1)
  | .Pow2 => if b.len = 0 then 1 else powerU64 (b.split x.bits.log2).2.toU64.toNat
  | .Pow2W => if b.len = 0 then 1 else powerU64 (b.split 5).2.toU64.toNat
  | .Rev8W => rev8w (b.bits.setWidth 64)
  | .RightShiftPadding =>
    if b.len = 0 then 1 else powerU64 (x.bits - 1 - (b.split x.bits.log2).2.toU64.toNat)
  | .TwoLsb => u64OfBool (b.len == 0 || b.bits &&& 3 == 0)
  | .SignExtensionUpperHalf =>
    let half := x.bits / 2
    if half ≤ b.len then
      if (b.bits >>> (half - 1)) &&& 1 = 1 then (powerU64 half - 1) <<< half else 0
    else 1
  | .SignExtensionRightOperand =>
    if x.bits ≤ b.len then
      if (b.bits >>> (x.bits - 2)) &&& 1 = 1 then BitVec.ofNat 64 (2 ^ x.bits - 2 ^ (x.bits / 2))
      else 0
    else 1
  | .LeftShiftWHelper => (1#32 <<< (b.uninterleave.2.leadingOnes % 32)).setWidth 64
  | .OverflowBitsZero => u64OfBool (b.bits >>> x.bits == 0)
  | .XorRot16 => xorRotSuffix 16 b
  | .XorRot24 => xorRotSuffix 24 b
  | .XorRot32 => xorRotSuffix 32 b
  | .XorRot63 => xorRotSuffix 63 b
  | .XorRotW7 => xorRotWSuffix 7 b
  | .XorRotW8 => xorRotWSuffix 8 b
  | .XorRotW12 => xorRotWSuffix 12 b
  | .XorRotW16 => xorRotWSuffix 16 b
  | .RightShift => (ReadRaf.suffixMle x b .RightShift).getD 0
  | .RightShiftHelper => (ReadRaf.suffixMle x b .RightShiftHelper).getD 0
  | .SignExtension => (ReadRaf.suffixMle x b .SignExtension).getD 0
  | .LeftShift => (ReadRaf.suffixMle x b .LeftShift).getD 0
  | .RightShiftW => (ReadRaf.suffixMle x b .RightShiftW).getD 0
  | .RightShiftWHelper => (ReadRaf.suffixMle x b .RightShiftWHelper).getD 0
  | .LeftShiftW => (ReadRaf.suffixMle x b .LeftShiftW).getD 0

def Suffixes.plain (F : Type) [CommRing F] (x : Xlen) (b : LookupBits) (suffix : Suffixes) : F :=
  ((suffix.suffixMle x b).toNat : F)

/-! ## Operands in the half ring -/

section Uninterleaved

variable {F : Type} [CommRing F] {w : Nat}

/-- `T::Half::try_from(y)` for a public operand; the operands of a phase fit. -/
def intoHalf (w : Nat) (y : BitVec 64) : BitVec w := y.setWidth w

/-- `x ^ y` for a right operand that is public or shared. -/
def xorEntry (x : View (BitVec w)) : BitVec 64 ⊕ View (BitVec w) → View (BitVec w)
  | .inl yp => xorPublic x (intoHalf w yp)
  | .inr y => x.map₂ (· ^^^ ·) y

def koggeStoneCarriesMany (p g : List (View (BitVec w))) : Mpc F (List (View (BitVec 1))) := do
  let (_, c) ← koggeStoneInnerWithCarryMany p g
  return c

/-- One element of `ge_many_mixed`: the propagate word, and the generate word or the operands of the
AND it needs. -/
def geRow (swap : Bool) (x : View (BitVec w)) :
    BitVec 64 ⊕ View (BitVec w) →
      View (BitVec w) × (View (BitVec w) ⊕ View (BitVec w) × View (BitVec w))
  | .inl yp =>
    let y := intoHalf w yp
    if swap then
      let xNeg := x.map (~~~·)
      (xorPublic xNeg y, .inl (xNeg.map (· &&& y)))
    else (xorPublic x (~~~y), .inl (x.map (· &&& ~~~y)))
  | .inr y =>
    if swap then
      let xNeg := x.map (~~~·)
      (y.map₂ (· ^^^ ·) xNeg, .inr (y, xNeg))
    else
      let yNeg := y.map (~~~·)
      (x.map₂ (· ^^^ ·) yNeg, .inr (x, yNeg))

/-- `ge_many_mixed`: `x >= y`, or `y >= x` with `swap`; only the shared right operands take part in
the AND. -/
def geManyMixed (swap : Bool) (xs : List (View (BitVec w))) (right : MixedBatch (BitVec 64) w) :
    Mpc F (List (View (BitVec 1))) := do
  let rows := xs.zipWith (geRow swap) right.entries
  let p := rows.map Prod.fst
  let shared := (rows.map Prod.snd).filterMap Sum.getRight?
  let andResults ← andMany (shared.map Prod.fst) (shared.map Prod.snd)
  let g := Slots.weave (rows.map Prod.snd) andResults
  let g := g.zipWith (fun g p => g.map₂ (· ^^^ ·) (p.map (· &&& 1#w))) p
  koggeStoneCarriesMany p g

variable (h : RingType) (indices : List Nat)

/-- An entry of a mixed batch: the result for a public right operand, the operands for a shared
one. -/
def bitwiseRow (localFn : View (BitVec w) → BitVec 64 → View (BitVec w))
    (ix : Nat × View (BitVec w)) :
    BitVec 64 ⊕ View (BitVec w) → Nat × View (BitVec w) ⊕ Nat × View (BitVec w) × View (BitVec w)
  | .inl yp => .inl (ix.1, localFn ix.2 yp)
  | .inr y => .inr (ix.1, ix.2, y)

/-- The part of `eval_bitwise_mixed` for the shared entries of a mixed batch. -/
def bitwiseShared
    (mpcFn : List (View (BitVec h.width)) → List (View (BitVec h.width)) →
      Mpc F (List (View (BitVec h.width))))
    (shared : List (Nat × View (BitVec h.width) × View (BitVec h.width)))
    (out : SuffixFutureBatch F) :
    Mpc F (SuffixFutureBatch F) :=
  if shared.isEmpty then pure out
  else do
    let result ← mpcFn (shared.map (·.2.1)) (shared.map (·.2.2))
    return out.extendB2aRing h (shared.map Prod.fst) result

def evalBitwiseMixed (xs : List (View (BitVec h.width))) (right : MixedBatch (BitVec 64) h.width)
    (localFn : View (BitVec h.width) → BitVec 64 → View (BitVec h.width))
    (mpcFn : List (View (BitVec h.width)) → List (View (BitVec h.width)) →
      Mpc F (List (View (BitVec h.width))))
    (out : SuffixFutureBatch F) : Mpc F (SuffixFutureBatch F) :=
  match right with
  | .pub ys => pure (out.extendB2aRing h indices (xs.zipWith localFn ys))
  | .shared ys => do
    let result ← mpcFn xs ys
    return out.extendB2aRing h indices result
  | .mixed mixed =>
    let rows := (indices.zip xs).zipWith (bitwiseRow localFn) mixed
    let locals := rows.filterMap Sum.getLeft?
    bitwiseShared h mpcFn (rows.filterMap Sum.getRight?)
      (out.extendB2aRing h (locals.map Prod.fst) (locals.map Prod.snd))

/-- An entry of a mixed batch: the finished value of a public right operand, or the shared one. -/
def rightRow (publicVal : BitVec 64 → F) (i : Nat) :
    BitVec 64 ⊕ View (BitVec w) → Nat × Rep3Value F ⊕ Nat × View (BitVec w)
  | .inl yp => .inl (i, .pub (publicVal yp))
  | .inr y => .inr (i, y)

def rightShared
    (push : List Nat → List (View (BitVec w)) → SuffixFutureBatch F → Mpc F (SuffixFutureBatch F))
    (shared : List (Nat × View (BitVec w))) (out : SuffixFutureBatch F) :
    Mpc F (SuffixFutureBatch F) :=
  if shared.isEmpty then pure out else push (shared.map Prod.fst) (shared.map Prod.snd) out

/-- The suffixes that read the right operand alone: `publicVal` for a public one, `push` for the
shared ones. -/
def evalRight (publicVal : BitVec 64 → F)
    (push : List Nat → List (View (BitVec w)) → SuffixFutureBatch F → Mpc F (SuffixFutureBatch F))
    (right : MixedBatch (BitVec 64) w) (out : SuffixFutureBatch F) : Mpc F (SuffixFutureBatch F) :=
  match right with
  | .pub ys => pure (out.extendReady indices (ys.map fun y => .pub (publicVal y)))
  | .shared ys => push indices ys out
  | .mixed mixed =>
    let rows := indices.zipWith (rightRow publicVal) mixed
    let ready := rows.filterMap Sum.getLeft?
    rightShared push (rows.filterMap Sum.getRight?)
      (out.extendReady (ready.map Prod.fst) (ready.map Prod.snd))

def evalXor (xs : List (View (BitVec h.width))) (right : MixedBatch (BitVec 64) h.width)
    (out : SuffixFutureBatch F) :
    SuffixFutureBatch F := out.extendB2aRing h indices (xs.zipWith xorEntry right.entries)

def evalEq (xs : List (View (BitVec w))) (right : MixedBatch (BitVec 64) w)
    (out : SuffixFutureBatch F) :
    Mpc F (SuffixFutureBatch F) := do
  let diff := xs.zipWith xorEntry right.entries
  let eqBits ← isZeroMany diff
  return out.extendBitinject indices eqBits

def evalRightIsZero (right : MixedBatch (BitVec 64) w) (out : SuffixFutureBatch F) :
    Mpc F (SuffixFutureBatch F) :=
  evalRight indices (fun y => if y = 0 then 1 else 0)
    (fun indices ys out => do return out.extendBitinject indices (← isZeroMany ys)) right out

/-- `(1 << n) - 1` in the ring, all ones where `n` is its width or more. -/
def allOnes (w n : Nat) : BitVec w := BitVec.ofNat w (2 ^ min n w - 1)

/-- The common part of `eval_div_by_zero`, `eval_change_divisor` and `eval_change_divisor_w`: one
zero test for the left operands and the right ones against all ones, and the AND of the two
halves. -/
def bothZero (first second : List (View (BitVec w))) (out : SuffixFutureBatch F) :
    Mpc F (SuffixFutureBatch F) := do
  let combinedResult ← isZeroMany (first ++ second)
  let result ← andMany (combinedResult.take first.length) (combinedResult.drop first.length)
  return out.extendBitinject indices result

def evalDivByZero (suffixLen : Nat) (xs ys : List (View (BitVec w))) (out : SuffixFutureBatch F) :
    Mpc F (SuffixFutureBatch F) :=
  let qXor := ys.map (xorPublic · (allOnes w (suffixLen / 2)))
  bothZero indices xs qXor out

def evalChangeDivisor (suffixLen : Nat) (xs ys : List (View (BitVec w)))
    (out : SuffixFutureBatch F) :
    Mpc F (SuffixFutureBatch F) :=
  let yXor := ys.map (xorPublic · (allOnes w (suffixLen / 2)))
  bothZero indices yXor xs out

def toU32Share (s : View (BitVec w)) : View (BitVec 32) := s.map (BitVec.setWidth 32)

def evalChangeDivisorW (x : Xlen) (suffixLen : Nat) (xs ys : List (View (BitVec w)))
    (out : SuffixFutureBatch F) :
    Mpc F (SuffixFutureBatch F) :=
  let yLen := min (suffixLen / 2) (x.bits / 2)
  let yXor := (ys.map toU32Share).map (xorPublic · (allOnes 32 yLen))
  bothZero indices yXor (xs.map toU32Share) out

def evalTwoLsb (xs ys : List (View (BitVec w))) (out : SuffixFutureBatch F) :
    Mpc F (SuffixFutureBatch F) := do
  let xLsb := xs.map fun x => x.map (BitVec.setWidth 1)
  let yLsb := ys.map fun y => y.map (BitVec.setWidth 1)
  let xOrY ← orMany xLsb yLsb
  return out.extendBitinject indices (xOrY.map fun b => b.map (~~~·))

/-- `eval_xor_rot_uninterleaved`: the words are rotated within the half ring. -/
def evalXorRotUninterleaved (rotation : Nat) (xs ys : List (View (BitVec h.width)))
    (out : SuffixFutureBatch F) :
    SuffixFutureBatch F :=
  let k := h.width
  let rot := rotation % k
  out.extendB2aRing h indices (xs.zipWith (fun x y =>
    let xored := x.map₂ (· ^^^ ·) y
    (xored.map fun a : BitVec _ => a >>> rot).map₂ (· ^^^ ·) (xored.map fun a : BitVec _ =>
      a <<< (k - rot))) ys)

def evalXorRotWUninterleaved (rotation : Nat) (xs ys : List (View (BitVec h.width)))
    (out : SuffixFutureBatch F) :
    SuffixFutureBatch F :=
  let rot := rotation % 32
  let rotated := xs.zipWith (fun x y =>
    let xored := (toU32Share x).map₂ (· ^^^ ·) (toU32Share y)
    (xored.map fun a : BitVec 32 => a >>> rot).map₂ (· ^^^ ·) (xored.map fun a : BitVec 32 =>
      a <<< (32 - rot))) ys
  if 32 ≤ h.width then out.extendB2aRing h indices (rotated.map fun r =>
    r.map (BitVec.setWidth h.width))
  else out.extendB2aRing .u32 indices rotated

def evalRightOperandW (right : MixedBatch (BitVec 64) h.width) (out : SuffixFutureBatch F) :
    Mpc F (SuffixFutureBatch F) :=
  evalRight indices (fun y => ((y &&& 0xffffffff#64).toNat : F))
    (fun indices ys out => pure (out.extendB2aRing h indices
      (if 32 ≤ h.width then ys.map fun y => y.map (· &&& BitVec.ofNat _ (2 ^ 32 - 1)) else ys)))
        right out

def evalSignExtensionRightOperand (x : Xlen) (suffixLen : Nat) (right : MixedBatch (BitVec 64) w)
    (out : SuffixFutureBatch F) : Mpc F (SuffixFutureBatch F) :=
  if suffixLen < x.bits then pure (out.extendReady indices (indices.map fun _ => .pub 1))
  else
    let signBitPos := x.bits / 2 - 1
    let weight : F := ((2 ^ x.bits - 2 ^ (x.bits / 2) : Nat) : F)
    evalRight indices (fun y => if (y >>> signBitPos) &&& 1 = 1 then weight else 0)
      (fun indices ys out => pure (out.extendBitinjectScaled indices
        (ys.map fun y => (y.map fun a : BitVec w => a >>> signBitPos).map (BitVec.setWidth 1))
          weight)) right out

/-- The futures of the arms whose right operand is public, pushed one by one. -/
def pushFutures (out : SuffixFutureBatch F) (futures : List (SuffixFuture F h.width)) :
    SuffixFutureBatch F :=
  (indices.zip futures).foldl (fun out f => match f.2 with
    | .ready v => out.extendReady [f.1] [.pub v]
    | .b2aRing x => out.extendB2aRing h [f.1] [x]) out

end Uninterleaved

section Arms

variable {F : Type} [CommRing F] (x : Xlen) (t : Uninterleavable) (suffixLen : Nat)

/-- The arms of `eval_suffix_uninterleaved`, for left operands that are shared; `none` is a
panic. -/
def evalSharedLeft (suffix : Suffixes) (indices : List Nat) (xs : List (View (BitVec t.half.width)))
    (right : MixedBatch (BitVec 64) t.half.width) (out : SuffixFutureBatch F) :
    Option (Mpc F (SuffixFutureBatch F)) :=
  let h := t.half
  match suffix with
  | .And =>
      some (evalBitwiseMixed h indices xs right (fun x yp => x.map (· &&& intoHalf _ yp))
      andMany out)
  | .NotAnd =>
    some (evalBitwiseMixed h indices xs right (fun x yp => x.map (· &&& ~~~intoHalf _ yp))
      (fun xs ys => andMany xs (ys.map fun y => y.map (~~~·))) out)
  | .Xor => some (pure (evalXor h indices xs right out))
  | .Or =>
    some (evalBitwiseMixed h indices xs right
      (fun x yp => xorPublic (x.map (· &&& ~~~intoHalf _ yp)) (intoHalf _ yp)) orMany out)
  | .RightOperand =>
    some (evalRight indices (fun y => (y.toNat : F))
      (fun indices ys out => pure (out.extendB2aRing h indices ys)) right out)
  | .RightOperandW => some (evalRightOperandW h indices right out)
  | .Lsb =>
    some (evalRight indices (fun y => ((y &&& 1).toNat : F))
      (fun indices ys out =>
        pure (out.extendBitinject indices (ys.map fun y => y.map (BitVec.setWidth 1)))) right out)
  | .LessThan => some do
    let geBits ← geManyMixed false xs right
    return out.extendBitinject indices (geBits.map fun b => b.map (~~~·))
  | .GreaterThan => some do
    let geBits ← geManyMixed true xs right
    return out.extendBitinject indices (geBits.map fun b => b.map (~~~·))
  | .Eq => some (evalEq indices xs right out)
  | .LeftOperandIsZero => some do
    let eqBits ← isZeroMany xs
    return out.extendBitinject indices eqBits
  | .RightOperandIsZero => some (evalRightIsZero indices right out)
  | .DivByZero => right.asShared.map fun ys => evalDivByZero indices suffixLen xs ys out
  | .TwoLsb => right.asShared.map fun ys => evalTwoLsb indices xs ys out
  | .ChangeDivisor => right.asShared.map fun ys => evalChangeDivisor indices suffixLen xs ys out
  | .ChangeDivisorW => right.asShared.map fun ys => evalChangeDivisorW indices x suffixLen xs ys out
  | .SignExtensionRightOperand => some (evalSignExtensionRightOperand indices x suffixLen right out)
  | .XorRot16 => right.asShared.map fun ys => pure (evalXorRotUninterleaved h indices 16 xs ys out)
  | .XorRot24 => right.asShared.map fun ys => pure (evalXorRotUninterleaved h indices 24 xs ys out)
  | .XorRot32 => right.asShared.map fun ys => pure (evalXorRotUninterleaved h indices 32 xs ys out)
  | .XorRot63 => right.asShared.map fun ys => pure (evalXorRotUninterleaved h indices 63 xs ys out)
  | .XorRotW7 => right.asShared.map fun ys => pure (evalXorRotWUninterleaved h indices 7 xs ys out)
  | .XorRotW8 => right.asShared.map fun ys => pure (evalXorRotWUninterleaved h indices 8 xs ys out)
  | .XorRotW12 => right.asShared.map fun ys =>
      pure (evalXorRotWUninterleaved h indices 12 xs ys out)
  | .XorRotW16 => right.asShared.map fun ys =>
      pure (evalXorRotWUninterleaved h indices 16 xs ys out)
  | .RightShiftPadding => right.asPublic.map fun ys =>
    let shift (yp : BitVec 64) : Nat := yp.toNat % 2 ^ min x.bits.log2 (suffixLen / 2)
    pure (out.extendReady indices (ys.map fun yp => .pub ((2 ^ (x.bits - 1 - shift yp) : Nat) : F)))
  | .LeftShiftWHelper => right.asPublic.map fun ys =>
    let lo (yp : BitVec 64) : Nat := (LookupBits.new (yp.setWidth 128) (suffixLen / 2)).leadingOnes
    pure (out.extendReady indices (ys.map fun yp =>
      .pub (((powerU64 (lo yp)).setWidth 32).toNat : F)))
  | .RightShift | .RightShiftHelper | .SignExtension | .LeftShift | .RightShiftW
  | .RightShiftWHelper | .LeftShiftW => do
    let ys ← right.asPublic
    let futures ← (xs.zip ys).mapM fun v => evalShiftSuffix x t suffixLen v.1 v.2 suffix
    return pure (pushFutures h indices out futures)
  | .One | .UpperWord | .LowerWord | .LowerHalfWord | .Pow2 | .Pow2W | .SignExtensionUpperHalf
  | .OverflowBitsZero
  | .Rev8W => none

def plainPair (F : Type) [CommRing F] (suffix : Suffixes) (xp yp : BitVec 64) : F :=
  suffix.plain F x (.new (interleaveBits xp yp) suffixLen)

/-- `eval_suffix_uninterleaved`. A public left operand comes with a public right one, and both go
through `suffix_mle`. -/
def SuffixFutureBatch.evalSuffixUninterleaved (suffix : Suffixes)
    (left right : MixedBatch (BitVec 64) t.half.width) (base : Nat) (out : SuffixFutureBatch F) :
    Option (Mpc F (SuffixFutureBatch F)) :=
  match left with
  | .pub xs => do
    let ys ← right.asPublic
    let vals := xs.zipWith (fun xp yp => Rep3Value.pub (plainPair x suffixLen F suffix xp yp)) ys
    return pure (out.extendReady (List.range' base vals.length) vals)
  | .shared xs =>
    if xs.isEmpty then some (pure out)
    else evalSharedLeft x t suffixLen suffix (List.range' base xs.length) xs right out
  | .mixed xs => do
    let rows ← ((xs.zip right.entries).zipIdx base).mapM fun row => match row with
      | ((.inl xp, .inl yp), i) =>
          some (Sum.inl (i, Rep3Value.pub (plainPair x suffixLen F suffix xp yp)))
      | ((.inl _, .inr _), _) => none
      | ((.inr l, _), i) => some (Sum.inr (i, l))
    let ready := rows.filterMap Sum.getLeft?
    let shared := rows.filterMap Sum.getRight?
    let out := out.extendReady (ready.map Prod.fst) (ready.map Prod.snd)
    let right := right.restrict (xs.map Sum.isRight)
    if shared.isEmpty then return pure out
    evalSharedLeft x t suffixLen suffix (shared.map Prod.fst) (shared.map Prod.snd) right out

/-! ## Bits in the full ring -/

/-- `suffix_mask`: the low `suffix_len` bits of a lookup index. -/
def suffixMask : BitVec (2 * x.bits) :=
  if 2 * x.bits ≤ suffixLen then BitVec.allOnes _ else 1#(2 * x.bits) <<< suffixLen - 1

def plainIndex (F : Type) [CommRing F] (suffix : Suffixes) (p : BitVec (2 * x.bits)) : F :=
  suffix.plain F x (.new ((p &&& suffixMask x suffixLen).setWidth 128) suffixLen)

/-- `split_interleaved_public`: the public entries are pushed, the shared ones are returned with
their slots. -/
def splitInterleavedPublic (suffix : Suffixes)
    (bits : MixedBatch (BitVec (2 * x.bits)) t.ring.width) (base : Nat)
    (out : SuffixFutureBatch F) : List (Nat × View (BitVec t.ring.width)) × SuffixFutureBatch F :=
  let rows := (bits.entries.zipIdx base).map fun row => match row.1 with
    | .inl p => Sum.inl (row.2, Rep3Value.pub (plainIndex x suffixLen F suffix p))
    | .inr s => Sum.inr (row.2, s)
  let ready := rows.filterMap Sum.getLeft?
  (rows.filterMap Sum.getRight?, out.extendReady (ready.map Prod.fst) (ready.map Prod.snd))

/-- `LowerWord` and `LowerHalfWord`: the low `n` bits, in the half ring where they fit. -/
def evalLowBits (n : Nat) (indices : List Nat) (bits : List (View (BitVec t.ring.width)))
    (out : SuffixFutureBatch F) :
    SuffixFutureBatch F :=
  let masked := if t.ring.width ≤ n then bits
    else bits.map fun b => b.map (· &&& BitVec.ofNat _ (2 ^ n - 1))
  if min n t.ring.width ≤ t.half.width then
    out.extendB2aRing t.half indices (masked.map fun b => b.map (BitVec.setWidth _))
  else out.extendB2aRing t.ring indices masked

/-- The shared arm of `Rev8W`: the bytes of the low 32 bits are put in reverse order. -/
def reverseBytes {w : Nat} (b : View (BitVec w)) : View (BitVec 32) :=
  let v := toU32Share b
  let byte (i : Nat) : View (BitVec 32) :=
    (v.map fun a : BitVec 32 => a >>> (8 * i)).map (· &&& 0xff#32)
  let placed (i n : Nat) : View (BitVec 32) := (byte i).map fun a : BitVec 32 => a <<< n
  (((placed 0 24).map₂ (· ^^^ ·) (placed 1 16)).map₂ (· ^^^ ·) (placed 2 8)).map₂ (· ^^^ ·) (byte 3)

/-- The shift amount is compared with every possible one, and the powers of two are added up with
the results as weights. -/
def evalPow2FromShiftBitsReady {w : Nat} (shiftVals : List (View (BitVec w))) (numBits : Nat) :
    Mpc F (List (View F)) := do
  let tableSize := 2 ^ numBits
  let xored := shiftVals.flatMap fun shift => (List.range tableSize).map fun s =>
    xorPublic shift (BitVec.ofNat w s)
  let eqBits ← isZeroMany xored
  let eqField ← bitInjectFromBitsToFieldMany eqBits
  let weighted (j s : Nat) : View F :=
    (eqField.getD (j * tableSize + s) fun _ => ⟨0, 0⟩).map (· * ((2 ^ s : Nat) : F))
  return (List.range shiftVals.length).map fun j =>
    (List.range tableSize).foldl (fun acc s => acc.map₂ (· + ·) (weighted j s)) fun _ => ⟨0, 0⟩

/-- The shared arm of `Pow2` and `Pow2W`: the low `numBits` bits are the shift amount. -/
def evalPow2 (numBits : Nat) (indices : List Nat) (bits : List (View (BitVec t.ring.width)))
    (out : SuffixFutureBatch F) :
    Mpc F (SuffixFutureBatch F) := do
  let shifts := bits.map fun b => b.map (· &&& BitVec.ofNat _ (2 ^ numBits - 1))
  let result ← evalPow2FromShiftBitsReady shifts numBits
  return out.extendReady indices (result.map .shared)

/-- The arms of `eval_suffix_interleaved`, for the shared entries; `none` is a panic. -/
def evalSharedBits (suffix : Suffixes) (indices : List Nat)
    (bits : List (View (BitVec t.ring.width))) (out : SuffixFutureBatch F) :
    Option (Mpc F (SuffixFutureBatch F)) :=
  match suffix with
  | .UpperWord => some <| pure <|
    if t.ring.width ≤ x.bits then out.extendReady indices (bits.map fun _ => .pub 0)
    else
      let shifted := bits.map fun b => b.map fun a : BitVec _ => a >>> x.bits
      if t.ring.width - x.bits ≤ t.half.width then
        out.extendB2aRing t.half indices (shifted.map fun b => b.map (BitVec.setWidth _))
      else out.extendB2aRing t.ring indices shifted
  | .LowerWord => some (pure (evalLowBits t x.bits indices bits out))
  | .LowerHalfWord => some (pure (evalLowBits t (x.bits / 2) indices bits out))
  | .Rev8W => some <| pure <|
    let reversed := bits.map reverseBytes
    if 32 ≤ t.half.width then out.extendB2aRing t.half indices (reversed.map fun r =>
      r.map (BitVec.setWidth _))
    else out.extendB2aRing .u32 indices reversed
  | .Pow2 => some (evalPow2 t (min x.bits.log2 suffixLen) indices bits out)
  | .Pow2W => some (evalPow2 t (min 5 suffixLen) indices bits out)
  | .SignExtensionUpperHalf => some <| pure <|
    let half := x.bits / 2
    if suffixLen < half then out.extendReady indices (bits.map fun _ => .pub 1)
    else
      let signBitPos := half - 1
      let weight : F := (((2 ^ half - 1) * 2 ^ half : Nat) : F)
      out.extendBitinjectScaled indices
        (bits.map fun b => (b.map fun a : BitVec _ => a >>> signBitPos).map (BitVec.setWidth 1))
          weight
  | .OverflowBitsZero =>
    if t.ring.width ≤ x.bits then some (pure (out.extendReady indices (bits.map fun _ => .pub 1)))
    else some do
      let upper := bits.map fun b => b.map fun a : BitVec _ => a >>> x.bits
      let eqBits ← isZeroMany upper
      return out.extendBitinject indices eqBits
  | _ => none

def SuffixFutureBatch.evalSuffixInterleaved (suffix : Suffixes)
    (bits : MixedBatch (BitVec (2 * x.bits)) t.ring.width) (base : Nat)
    (out : SuffixFutureBatch F) : Option (Mpc F (SuffixFutureBatch F)) :=
  let (shared, out) := splitInterleavedPublic x t suffixLen suffix bits base out
  if shared.isEmpty then some (pure out)
  else evalSharedBits x t suffixLen suffix (shared.map Prod.fst) (shared.map Prod.snd) out

/-! ## The suffixes of a table -/

inductive SuffixBitsBatch where
  | uninterleaved (left right : MixedBatch (BitVec 64) t.half.width)
  | interleaved (bits : MixedBatch (BitVec (2 * x.bits)) t.ring.width)

def SuffixBitsBatch.len {x : Xlen} {t : Uninterleavable} : SuffixBitsBatch x t → Nat
  | uninterleaved left _ => left.entries.length
  | interleaved bits => bits.entries.length

def evaluateSuffixForTable (suffix : Suffixes) (data : SuffixBitsBatch x t) (base : Nat)
    (out : SuffixFutureBatch F) :
    Option (Mpc F (SuffixFutureBatch F)) :=
  if suffix = .One then
    some (pure (out.extendReady (List.range' base data.len) (List.replicate data.len (.pub 1))))
  else match data with
    | .uninterleaved left right =>
        SuffixFutureBatch.evalSuffixUninterleaved x t suffixLen suffix left right base out
    | .interleaved bits =>
        SuffixFutureBatch.evalSuffixInterleaved x t suffixLen suffix bits base out

/-- The batch that `table_suffixes_mle` builds of the lookup indices of a table with interleaved
data. -/
def interleavedData (indices : List (BitVec (2 * x.bits) ⊕ View (BitVec (2 * x.bits)))) :
    SuffixBitsBatch x t :=
  .interleaved (.classify (indices.map fun index => match index with
    | .inl p => .inl (p &&& suffixMask x suffixLen)
    | .inr s => .inr ((s.map (· &&& suffixMask x suffixLen)).map (BitVec.setWidth t.ring.width))))

end Arms

end ProviaVM.ReadRaf
