import Mathlib.Data.BitVec
import ProviaVM.Lib.ParallelPrefix
import ProviaVM.Rep3.Share

/-! # Circuits on shared words

`rep3_ring/detail.rs`, `rep3_ring/binary.rs`, `rep3_ring/arithmetic.rs`,
`rep3_ring/conversion.rs`. Every circuit is modelled for one element: a `_many` function
of the source runs the same circuit on each element of a batch and packs the messages of
a round together. Each circuit has one specification lemma: what its result opens to. -/
namespace ProviaVM.Rep3
open Preprocessing ParallelPrefix BitVec

section Circuits

variable {F : Type} [Ring F] {w : Nat}
variable {x y : View (BitVec w)} {s t : BitVec w}

/-- `rand.random_elements`: a party's own draw and the draw of the party before it. -/
def randomElements (w : Nat) : Mpc F (View (BitVec w)) := fun c =>
  (.reshare fun p => BitVec.ofNat w (c.ring 0 p), { c with ring := fun n => c.ring (n + 1) })

/-- `rand.random_elements` combined by XOR: the masks of a binary resharing. -/
def binaryMask (w : Nat) : Mpc F (PartyID → BitVec w) := do
  let r ← randomElements w
  return fun p => (r p).a ^^^ (r p).b

/-- `masking_element`: the masks of an arithmetic resharing. -/
def maskingElement (w : Nat) : Mpc F (PartyID → BitVec w) := do
  let r ← randomElements w
  return fun p => (r p).a - (r p).b

theorem binaryMask_spec : Ensures (fun m => parity m = 0) (binaryMask w : Mpc F _) := by
  refine Ensures.bind (fun _ => replicated_reshare _) fun r replicated => Ensures.pure ?_
  apply eq_of_getLsbD_eq
  intro i _
  simp only [parity, replicated .ID0, replicated .ID1, replicated .ID2, PartyID.prev, getLsbD_xor]
  cases (r .ID0).a.getLsbD i <;> cases (r .ID1).a.getLsbD i <;> cases (r .ID2).a.getLsbD i <;> simp

theorem maskingElement_spec : Ensures (fun m => total m = 0) (maskingElement w : Mpc F _) := by
  refine Ensures.bind (fun _ => replicated_reshare _) fun r replicated => Ensures.pure ?_
  simp only [total, replicated .ID0, replicated .ID1, replicated .ID2, PartyID.prev]
  ring

/-- The masked local products are a sharing of the product. -/
theorem xorShares_products {mask : PartyID → BitVec w} (hx : XorShares x s) (hy : XorShares y t)
    (zero : parity mask = 0) :
    XorShares (.reshare fun p => (x p).localAnd (y p) ^^^ mask p) (s &&& t) := by
  refine ⟨replicated_reshare _, ?_⟩
  have products : parity (fun p => (x p).localAnd (y p) ^^^ mask p) =
      parity (fun p => (x p).localAnd (y p)) ^^^ parity mask := by
    simp only [parity]
    ac_rfl
  refine products.trans ?_
  rw [zero, ← hx.opens, ← hy.opens]
  apply eq_of_getLsbD_eq
  intro i _
  simp only [parity, Rep3Share.localAnd, hx.replicated .ID0, hx.replicated .ID1, hx.replicated .ID2,
    hy.replicated .ID0, hy.replicated .ID1, hy.replicated .ID2, PartyID.prev, getLsbD_xor,
      getLsbD_and]
  cases (x .ID0).a.getLsbD i <;> cases (x .ID1).a.getLsbD i <;> cases (x .ID2).a.getLsbD i <;>
    simp <;> grind

def and (x y : View (BitVec w)) : Mpc F (View (BitVec w)) := do
  let mask ← binaryMask w
  return .reshare fun p => (x p).localAnd (y p) ^^^ mask p

/-- The masked local products are XOR shares of the AND. -/
theorem and_spec (hx : XorShares x s) (hy : XorShares y t) :
    Ensures (XorShares · (s &&& t)) (and x y : Mpc F _) :=
  Ensures.bind binaryMask_spec fun _ zero => Ensures.pure (xorShares_products hx hy zero)

def mul (x y : View (BitVec w)) : Mpc F (View (BitVec w)) := do
  let mask ← maskingElement w
  return .reshare fun p => (x p).localMul (y p) + mask p

/-- The masked local products add up to the product. -/
theorem mul_spec (hx : SumShares x s) (hy : SumShares y t) :
    Ensures (SumShares · (s * t)) (mul x y : Mpc F _) := by
  refine Ensures.bind maskingElement_spec fun mask zero => Ensures.pure ⟨replicated_reshare _, ?_⟩
  have products : total (fun p => (x p).localMul (y p) + mask p) =
      total (fun p => (x p).localMul (y p)) + total mask := by
    simp only [total]
    ring
  refine products.trans ?_
  rw [zero, ← hx.opens, ← hy.opens]
  simp only [total, Rep3Share.localMul, hx.replicated .ID0, hx.replicated .ID1, hx.replicated .ID2,
    hy.replicated .ID0, hy.replicated .ID1, hy.replicated .ID2, PartyID.prev]
  ring

def andTwice (a b1 b2 : View (BitVec w)) : Mpc F (View (BitVec w) × View (BitVec w)) := do
  let mask1 ← binaryMask w
  let mask2 ← binaryMask w
  return (.reshare fun p => (b1 p).localAnd (a p) ^^^ mask1 p,
    .reshare fun p => (a p).localAnd (b2 p) ^^^ mask2 p)

/-- The body of `kogge_stone_loop` at `shift`. -/
def koggeStoneRound (shift : Nat) (pg : View (BitVec w) × View (BitVec w)) :
    Mpc F (View (BitVec w) × View (BitVec w)) := do
  let p_ := pg.1.map fun a : BitVec w => a <<< shift
  let g_ := pg.2.map fun a : BitVec w => a <<< shift
  let (r1, r2) ← andTwice pg.1 g_ p_
  return (r2, pg.2.map₂ (· ^^^ ·) r1)

def koggeStoneLoop :
    Nat → View (BitVec w) × View (BitVec w) → Mpc F (View (BitVec w) × View (BitVec w))
  | 0, pg => pure pg
  | d + 1, pg => do
    let pg ← koggeStoneLoop d pg
    koggeStoneRound (2 ^ d) pg

def SharesPair (x : View (BitVec w) × View (BitVec w)) (v : BitVec w × BitVec w) : Prop :=
  XorShares x.1 v.1 ∧ XorShares x.2 v.2

/-- One round on shares is one round of the plain prefix computation. -/
theorem koggeStoneRound_spec {n : Nat} {x : View (BitVec w) × View (BitVec w)}
    {v : BitVec w × BitVec w} (h : SharesPair x v) :
    Ensures (SharesPair · (round n v)) (koggeStoneRound n x : Mpc F _) := by
  obtain ⟨p, g⟩ := h
  refine Ensures.bind (P := (SharesPair · (v.2 <<< n &&& v.1, v.1 &&& v.1 <<< n))) ?_ ?_
  · refine Ensures.bind binaryMask_spec fun _ zero1 => Ensures.bind binaryMask_spec fun _ zero2 =>
      Ensures.pure ?_
    exact ⟨xorShares_products (g.shiftLeft n) p zero1, xorShares_products p (p.shiftLeft n) zero2⟩
  · rintro ⟨r1, r2⟩ ⟨h1, h2⟩
    rw [BitVec.and_comm] at h1
    exact Ensures.pure ⟨h2, g.xor h1⟩

theorem koggeStoneLoop_spec {p g : BitVec w} (hp : XorShares x p) (hg : XorShares y g) (d : Nat) :
    Ensures (SharesPair · (rounds d (p, g))) (koggeStoneLoop d (x, y) : Mpc F _) := by
  induction d with
  | zero => exact Ensures.pure ⟨hp, hg⟩
  | succ d ih => exact Ensures.bind ih fun _ pg => koggeStoneRound_spec pg

/-- `low_depth_binary_add`. The number of rounds is `T::K.ilog2()`. -/
def lowDepthBinaryAdd (x y : View (BitVec w)) : Mpc F (View (BitVec w)) := do
  let p := x.map₂ (· ^^^ ·) y
  let g ← and x y
  let (_, g) ← koggeStoneLoop w.log2 (p, g)
  return (g.map fun a : BitVec w => a <<< 1).map₂ (· ^^^ ·) p

/-- The words of the source have a power of two as their width (`bitlen.is_power_of_two()`). -/
class PowerOfTwo (w : Nat) : Prop where
  eq : w = 2 ^ w.log2

instance : PowerOfTwo 1 := ⟨by decide⟩
instance : PowerOfTwo 8 := ⟨by decide⟩
instance : PowerOfTwo 16 := ⟨by decide⟩
instance : PowerOfTwo 32 := ⟨by decide +kernel⟩
instance : PowerOfTwo 64 := ⟨by decide +kernel⟩
instance : PowerOfTwo 128 := ⟨by decide +kernel⟩

theorem lowDepthBinaryAdd_spec [PowerOfTwo w] (hx : XorShares x s) (hy : XorShares y t) :
    Ensures (XorShares · (s + t)) (lowDepthBinaryAdd x y : Mpc F _) := by
  refine Ensures.bind (and_spec hx hy) fun g hg =>
    Ensures.bind (koggeStoneLoop_spec (hx.xor hy) hg _) fun pg carries => Ensures.pure ?_
  rw [← sum_eq (Nat.le_of_eq PowerOfTwo.eq)]
  exact (carries.2.shiftLeft 1).xor (hx.xor hy)

def getBit (x : View (BitVec w)) (i : Nat) : View (BitVec 1) :=
  x.map fun a => BitVec.ofBool (a.getLsbD i)

theorem XorShares.getBit (h : XorShares x s) (i : Nat) :
    XorShares (getBit x i) (BitVec.ofBool (s.getLsbD i)) :=
  h.linear fun a b => by simp

/-- The carry of `low_depth_binary_sub_with_carry`, which is `unsigned_ge_many`. -/
def ge (x1 x2 : View (BitVec w)) : Mpc F (View (BitVec 1)) := do
  let x2 := x2.map (~~~·)
  let p := x1.map₂ (· ^^^ ·) x2
  let g ← and x1 x2
  let g := g.map₂ (· ^^^ ·) (p.map (· &&& 1#w))
  let (_, g) ← koggeStoneLoop w.log2 (p, g)
  return getBit g (w - 1)

def lt (x1 x2 : View (BitVec w)) : Mpc F (View (BitVec 1)) := do
  let c ← ge x1 x2
  return c.map (~~~·)

theorem ge_spec [PowerOfTwo w] (hx : XorShares x s) (hy : XorShares y t) :
    Ensures (XorShares · (BitVec.ofBool !(s.ult t))) (ge x y : Mpc F _) := by
  have pos : 0 < w := by rw [PowerOfTwo.eq (w := w)]; exact Nat.two_pow_pos _
  have p := hx.xor hy.not
  refine Ensures.bind (and_spec hx hy.not) fun g hg => ?_
  have generated : XorShares (g.map₂ (· ^^^ ·) ((x.map₂ (· ^^^ ·) (y.map (~~~·))).map (· &&& 1#w)))
      (generate s (~~~t) true) := by
    have one : BitVec.setWidth w (BitVec.ofBool true) = 1#w := by
      apply eq_of_toNat_eq
      simp
    rw [generate, one]
    exact hg.xor (p.and_public 1#w)
  refine Ensures.bind (koggeStoneLoop_spec p generated _) fun pg carries => Ensures.pure ?_
  rw [← carryOut_not (Nat.le_of_eq PowerOfTwo.eq) pos]
  exact carries.2.getBit _

theorem lt_spec [PowerOfTwo w] (hx : XorShares x s) (hy : XorShares y t) :
    Ensures (XorShares · (BitVec.ofBool (s.ult t))) (lt x y : Mpc F _) := by
  refine Ensures.bind (ge_spec hx hy) fun c hc => Ensures.pure ?_
  have flipped : ~~~(BitVec.ofBool !(s.ult t)) = BitVec.ofBool (s.ult t) := by cases s.ult t <;> rfl
  rw [← flipped]
  exact hc.not

/-- The loop of `is_zero_many`: from `len = 2 ^ d` down to one bit. -/
def isZeroLoop : Nat → View (BitVec w) → Mpc F (View (BitVec w))
  | 0, x => pure x
  | d + 1, x => do
    let mask := lowMask w (2 ^ d)
    let x ← and (x.map (· &&& mask)) ((x.map fun a : BitVec w => a >>> 2 ^ d).map (· &&& mask))
    isZeroLoop d x

def isZero (x : View (BitVec w)) : Mpc F (View (BitVec 1)) := do
  let x ← isZeroLoop w.log2 (x.map (~~~·))
  return getBit x 0

theorem isZeroLoop_spec (d : Nat) : ∀ {x : View (BitVec w)} {s : BitVec w}, XorShares x s →
    Ensures (XorShares · (andTree d s)) (isZeroLoop d x : Mpc F _) := by
  induction d with
  | zero => exact fun h => Ensures.pure h
  | succ d ih =>
    intro x s h
    exact Ensures.bind (and_spec (h.and_public _) ((h.shiftRight _).and_public _)) fun _ next =>
      ih next

theorem isZero_spec [PowerOfTwo w] (h : XorShares x s) :
    Ensures (XorShares · (BitVec.ofBool (decide (s = 0)))) (isZero x : Mpc F _) := by
  refine Ensures.bind (isZeroLoop_spec _ h.not) fun _ tree => Ensures.pure ?_
  rw [← andTree_not PowerOfTwo.eq]
  exact tree.getBit 0

def or (x y : View (BitVec w)) : Mpc F (View (BitVec w)) := do
  let xor := x.map₂ (· ^^^ ·) y
  let and ← and x y
  return xor.map₂ (· ^^^ ·) and

theorem xor_xor_and (s t : BitVec w) : s ^^^ t ^^^ (s &&& t) = s ||| t := by
  apply eq_of_getLsbD_eq
  intro i _
  simp only [getLsbD_xor, getLsbD_and, getLsbD_or]
  cases s.getLsbD i <;> cases t.getLsbD i <;> rfl

theorem or_spec (hx : XorShares x s) (hy : XorShares y t) :
    Ensures (XorShares · (s ||| t)) (or x y : Mpc F _) := by
  refine Ensures.bind (and_spec hx hy) fun _ both => Ensures.pure ?_
  rw [← xor_xor_and]
  exact (hx.xor hy).xor both

/-- `binary::cmux`: the selection is bit by bit, `c` must repeat its bit at every position that is
to be selected. -/
def cmux (c xt xf : View (BitVec w)) : Mpc F (View (BitVec w)) := do
  let xor := xf.map₂ (· ^^^ ·) xt
  let and ← and c xor
  return and.map₂ (· ^^^ ·) xf

theorem cmux_spec {c xt xf : View (BitVec w)} {f : BitVec w} (hc : XorShares c s)
    (ht : XorShares xt t) (hf : XorShares xf f) :
    Ensures (XorShares · ((s &&& (f ^^^ t)) ^^^ f)) (cmux c xt xf : Mpc F _) :=
  Ensures.bind (and_spec hc (hf.xor ht)) fun _ chosen => Ensures.pure (chosen.xor hf)

/-- `conversion::a2b`: party 1 reshares the sum of the components of parties 0 and 1, the
component of party 2 is an XOR sharing as it stands. -/
def a2b (x : View (BitVec w)) : Mpc F (View (BitVec w)) := do
  let r ← binaryMask w
  let x01 : View (BitVec w) := .reshare fun
    | .ID0 => r .ID0
    | .ID1 => ((x .ID1).a + (x .ID1).b) ^^^ r .ID1
    | .ID2 => r .ID2
  let x2 : View (BitVec w) := fun
    | .ID0 => ⟨0, (x .ID0).b⟩
    | .ID1 => ⟨0, 0⟩
    | .ID2 => ⟨(x .ID2).a, 0⟩
  lowDepthBinaryAdd x01 x2

/-- What one party holds in clear and masks becomes an XOR sharing. -/
theorem XorShares.of_masked {own r : PartyID → BitVec w} {v : BitVec w} (zero : parity r = 0)
    (masked : parity own = v ^^^ parity r) : XorShares (.reshare own) v :=
  ⟨replicated_reshare _, by
    rw [zero] at masked
    exact masked.trans xor_zero⟩

/-- The sum of the components of parties 0 and 1, masked by party 1. -/
def a2bSum (x : View (BitVec w)) (r : PartyID → BitVec w) : View (BitVec w) := .reshare fun
  | .ID0 => r .ID0
  | .ID1 => ((x .ID1).a + (x .ID1).b) ^^^ r .ID1
  | .ID2 => r .ID2

/-- The component of party 2 with zeros for the others. -/
def a2bRest (x : View (BitVec w)) : View (BitVec w)
  | .ID0 => ⟨0, (x .ID0).b⟩
  | .ID1 => ⟨0, 0⟩
  | .ID2 => ⟨(x .ID2).a, 0⟩

theorem a2bSum_shares (x : View (BitVec w)) {r : PartyID → BitVec w} (zero : parity r = 0) :
    XorShares (a2bSum x r) ((x .ID1).a + (x .ID1).b) := by
  refine .of_masked zero ?_
  simp only [parity]
  ac_rfl

theorem a2bRest_shares (h : Replicated x) : XorShares (a2bRest x) (x .ID2).a := by
  refine ⟨fun p => ?_, by simp [parity, a2bRest]⟩
  cases p
  · exact h .ID0
  · rfl
  · rfl

theorem a2b_total (h : SumShares x s) :
    ((x .ID1).a + (x .ID1).b) + (x .ID2).a = s := by
  rw [← h.opens, total, h.replicated .ID1, PartyID.prev, add_comm (x .ID0).a]

/-- Two additive parts are shared as their sum, the third as it is, and an adder joins them. -/
theorem a2b_spec [PowerOfTwo w] (h : SumShares x s) :
    Ensures (XorShares · s) (a2b x : Mpc F _) := by
  refine Ensures.bind binaryMask_spec fun r zero => ?_
  rw [← a2b_total h]
  exact lowDepthBinaryAdd_spec (a2bSum_shares x zero) (a2bRest_shares h.replicated)

def addPublic (shared : View (BitVec w)) (value : BitVec w) : View (BitVec w)
  | .ID0 => { shared .ID0 with a := (shared .ID0).a + value }
  | .ID1 => { shared .ID1 with b := (shared .ID1).b + value }
  | .ID2 => shared .ID2

theorem SumShares.addPublic {v : View (BitVec w)} (h : SumShares v t) (value : BitVec w) :
    SumShares (addPublic v value) (t + value) where
  replicated p := by
    cases p
    · exact h.replicated .ID0
    · exact congrArg (· + value) (h.replicated .ID1)
    · exact h.replicated .ID2
  opens := by
    rw [← h.opens]
    simp only [total, Rep3.addPublic]
    ring

def eq (x y : View (BitVec w)) : Mpc F (View (BitVec 1)) := do
  let bits ← a2b (x.map₂ (· - ·) y)
  isZero bits

theorem eq_spec [PowerOfTwo w] (hx : SumShares x s) (hy : SumShares y t) :
    Ensures (XorShares · (BitVec.ofBool (decide (s = t)))) (eq x y : Mpc F _) := by
  refine Ensures.bind (a2b_spec (hx.sub hy)) fun bits hbits => ?_
  have zero : decide (s = t) = decide (s - t = 0) := by simp only [sub_eq_zero]
  rw [zero]
  exact isZero_spec hbits

/-- A draw that a pair of parties shares (`rngs.bitcomp1` of parties 1 and 2, `rngs.bitcomp2` of
parties 0 and 2). -/
def bitcomp (w : Nat) : Mpc F (BitVec w) := fun c =>
  (BitVec.ofNat w (c.ring 0 .ID2), { c with ring := fun n => c.ring (n + 1) })

/-- `conversion::b2a`: the parties that know `k2` and `k3` hold their negations, the value plus
`k2 + k3` is opened to parties 0 and 1. -/
def b2a (x : View (BitVec w)) : Mpc F (View (BitVec w)) := do
  let r ← binaryMask w
  let k2 ← bitcomp w
  let k3 ← bitcomp w
  let y : View (BitVec w) := .reshare fun
    | .ID0 => r .ID0
    | .ID1 => r .ID1
    | .ID2 => (k2 + k3) ^^^ r .ID2
  let z ← lowDepthBinaryAdd x y
  return fun
    | .ID0 => ⟨(z .ID0).a ^^^ (z .ID0).b ^^^ (z .ID2).b, -k3⟩
    | .ID1 => ⟨-k2, (z .ID1).a ^^^ (z .ID1).b ^^^ (z .ID0).b⟩
    | .ID2 => ⟨-k3, -k2⟩

def b2aMask (k : BitVec w × BitVec w) (r : PartyID → BitVec w) : View (BitVec w) := .reshare fun
  | .ID0 => r .ID0
  | .ID1 => r .ID1
  | .ID2 => (k.1 + k.2) ^^^ r .ID2

/-- The masked value as parties 0 and 1 open it, and the negated masks. -/
def b2aResult (k : BitVec w × BitVec w) (z : View (BitVec w)) : View (BitVec w)
  | .ID0 => ⟨(z .ID0).a ^^^ (z .ID0).b ^^^ (z .ID2).b, -k.2⟩
  | .ID1 => ⟨-k.1, (z .ID1).a ^^^ (z .ID1).b ^^^ (z .ID0).b⟩
  | .ID2 => ⟨-k.2, -k.1⟩

theorem b2aMask_shares (k : BitVec w × BitVec w) {r : PartyID → BitVec w} (zero : parity r = 0) :
    XorShares (b2aMask k r) (k.1 + k.2) := by
  refine .of_masked zero ?_
  simp only [parity]
  ac_rfl

theorem b2aResult_shares {k : BitVec w × BitVec w} {z : View (BitVec w)}
    (hz : XorShares z (s + (k.1 + k.2))) :
    SumShares (b2aResult k z) s := by
  -- parties 0 and 1 open the same masked value, each from a different missing component
  have at0 : (z .ID0).a ^^^ (z .ID0).b ^^^ (z .ID2).b = s + (k.1 + k.2) := by
    rw [← hz.opens, hz.replicated .ID0, hz.replicated .ID2, parity, PartyID.prev, PartyID.prev]
    ac_rfl
  have at1 : (z .ID1).a ^^^ (z .ID1).b ^^^ (z .ID0).b = s + (k.1 + k.2) := by
    rw [← hz.opens, hz.replicated .ID0, hz.replicated .ID1, parity, PartyID.prev, PartyID.prev]
    ac_rfl
  refine ⟨fun p => ?_, ?_⟩
  · cases p
    · rfl
    · exact at1.trans at0.symm
    · rfl
  · simp only [total, b2aResult, at0]
    ring

theorem b2a_spec [PowerOfTwo w] (h : XorShares x s) :
    Ensures (SumShares · s) (b2a x : Mpc F _) := by
  refine Ensures.bind binaryMask_spec fun r zero => Ensures.after fun k2 => Ensures.after fun k3 =>
    ?_
  exact Ensures.bind (lowDepthBinaryAdd_spec h (b2aMask_shares (k2, k3) zero)) fun z hz =>
    Ensures.pure (b2aResult_shares hz)

def upcastFromBinary (v : Nat) (x : View (BitVec w)) : Mpc F (View (BitVec v)) :=
  b2a (x.map (BitVec.setWidth v))

theorem upcastFromBinary_spec {v : Nat} [PowerOfTwo v] (h : XorShares x s) :
    Ensures (SumShares · (s.setWidth v)) (upcastFromBinary v x : Mpc F _) := b2a_spec (h.setWidth v)

/-- `downcast` of an arithmetic share: the excess bits of the components are dropped. -/
theorem SumShares.downcast {v : Nat} (fits : v ≤ w) (h : SumShares x s) :
    SumShares (x.map (BitVec.setWidth v)) (s.setWidth v) where
  replicated := h.replicated.map _
  opens := by
    rw [← h.opens, total, total, setWidth_add _ _ fits, setWidth_add _ _ fits]
    rfl

end Circuits

end ProviaVM.Rep3
