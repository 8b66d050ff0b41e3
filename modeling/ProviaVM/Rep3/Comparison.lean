import ProviaVM.Rep3.Batches

/-! # Unsigned comparison of shared words

`rep3_ring/detail.rs` from `low_depth_binary_sub_with_carry` on, and the comparisons of
`rep3_ring/arithmetic.rs`. Each circuit seeds the carry tree with the propagate and
generate words of one addition: `x + ~y + 1`, or `x + (2 ^ w - y)` where `y` is public.
What the tree returns is said once, for every seed; a circuit then only has to name the
addition it seeds. -/
namespace ProviaVM.Rep3
open Preprocessing ParallelPrefix List BitVec

section Single

variable {F : Type} [Ring F] {w : Nat}
variable {x y : View (BitVec w)} {s t : BitVec w}

def xorPublic (shared : View (BitVec w)) (value : BitVec w) : View (BitVec w)
  | .ID0 => { shared .ID0 with a := (shared .ID0).a ^^^ value }
  | .ID1 => { shared .ID1 with b := (shared .ID1).b ^^^ value }
  | .ID2 => shared .ID2

theorem XorShares.xorPublic (h : XorShares x s) (value : BitVec w) :
    XorShares (xorPublic x value) (s ^^^ value) where
  replicated p := by
    cases p
    · exact h.replicated .ID0
    · exact congrArg (· ^^^ value) (h.replicated .ID1)
    · exact h.replicated .ID2
  opens := by
    rw [← h.opens]
    simp only [parity, Rep3.xorPublic]
    ac_rfl

def koggeStoneInnerWithCarry (p g : View (BitVec w)) :
    Mpc F (View (BitVec w) × View (BitVec 1)) := do
  let (_, g) ← koggeStoneLoop w.log2 (p, g)
  let c := getBit g (w - 1)
  return ((g.map fun a : BitVec w => a <<< 1).map₂ (· ^^^ ·) p, c)

def lowDepthBinarySubWithCarry (x1 x2 : View (BitVec w)) :
    Mpc F (View (BitVec w) × View (BitVec 1)) := do
  let x2 := x2.map (~~~·)
  let p := x1.map₂ (· ^^^ ·) x2
  let g ← and x1 x2
  let g := g.map₂ (· ^^^ ·) (p.map (· &&& 1#w))
  let (res, c) ← koggeStoneInnerWithCarry p g
  return (xorPublic res 1#w, c)

def lowDepthBinarySubByConstWithCarry (x1 : View (BitVec w)) (x2 : BitVec w) :
    Mpc F (View (BitVec w) × View (BitVec 1)) := do
  let x2' := ~~~x2 + 1#w
  let p := xorPublic x1 x2'
  let g := x1.map (· &&& x2')
  let (res, c) ← koggeStoneInnerWithCarry p g
  return (res, if x2 = 0 then c.map (~~~·) else c)

def lowDepthBinarySubFromConstWithCarry (x1 : BitVec w) (x2 : View (BitVec w)) :
    Mpc F (View (BitVec w) × View (BitVec 1)) := do
  let x2 := x2.map (~~~·)
  let p := xorPublic x2 x1
  let g := x2.map (· &&& x1)
  let g := g.map₂ (· ^^^ ·) (p.map (· &&& 1#w))
  let (res, c) ← koggeStoneInnerWithCarry p g
  return (xorPublic res 1#w, c)

/-- `unsigned_ge`: the operands are additive sharings. -/
def unsignedGe (x y : View (BitVec w)) : Mpc F (View (BitVec 1)) := do
  let aBits ← a2b x
  let bBits ← a2b y
  let (_, r) ← lowDepthBinarySubWithCarry aBits bBits
  return r

def unsignedGeConstLhs (x : BitVec w) (y : View (BitVec w)) : Mpc F (View (BitVec 1)) := do
  let bBits ← a2b y
  let (_, r) ← lowDepthBinarySubFromConstWithCarry x bBits
  return r

def unsignedGeConstRhs (x : View (BitVec w)) (y : BitVec w) : Mpc F (View (BitVec 1)) := do
  let aBits ← a2b x
  let (_, r) ← lowDepthBinarySubByConstWithCarry aBits y
  return r

/-- The bit that is one exactly if `t ≤ s` as integers. -/
def geBit (s t : BitVec w) : BitVec 1 := BitVec.ofBool (decide (t.toNat ≤ s.toNat))

def carryWord (w : Nat) (cin : Bool) : BitVec w := BitVec.setWidth w (BitVec.ofBool cin)

theorem carryWord_true : carryWord w true = 1#w := eq_of_toNat_eq (by simp [carryWord])

theorem carryWord_false : carryWord w false = 0#w := by simp [carryWord]

theorem geBit_eq (s t : BitVec w) : geBit s t = BitVec.ofBool !(s.ult t) := by
  rw [geBit, BitVec.ult, ← decide_not, decide_eq_decide.mpr Nat.not_lt.symm]

theorem geBit_not (s t : BitVec w) : geBit s t = BitVec.ofBool (BitVec.carry w s (~~~t) true) := by
  rw [geBit_eq, ult_eq_not_carry, Bool.not_not]

/-- The seed of a tree that adds `a`, `b` and the carry-in. -/
structure Seeds (a b : BitVec w) (cin : Bool) (p g : View (BitVec w)) : Prop where
  propagate : XorShares p (a ^^^ b)
  generate : XorShares g (generate a b cin)

variable {a b : BitVec w} {p g : View (BitVec w)}

/-- A seed without carry-in, from the product of the operands. -/
theorem Seeds.plain (hp : XorShares p (a ^^^ b)) (hg : XorShares g (a &&& b)) :
    Seeds a b false p g := ⟨hp, generate_false a b ▸ hg⟩

/-- A seed with carry-in one: the lowest bit of the propagate word joins the generate word. -/
theorem Seeds.carried (hp : XorShares p (a ^^^ b)) (hg : XorShares g (a &&& b)) :
    Seeds a b true p (g.map₂ (· ^^^ ·) (p.map (· &&& 1#w))) := by
  refine ⟨hp, ?_⟩
  rw [ParallelPrefix.generate, ← carryWord, carryWord_true]
  exact hg.xor (hp.and_public 1#w)

/-- What the tree returns: the sum without the carry-in that its lowest bit still lacks, and the
carry. -/
structure Adds (a b : BitVec w) (cin : Bool) (r : View (BitVec w) × View (BitVec 1)) : Prop where
  sum : XorShares r.1 (a + b + carryWord w cin ^^^ carryWord w cin)
  carry : XorShares r.2 (BitVec.ofBool (BitVec.carry w a b cin))

theorem PowerOfTwo.pos [PowerOfTwo w] : 0 < w := by
  rw [PowerOfTwo.eq (w := w)]
  exact Nat.two_pow_pos _

section Tree

variable [PowerOfTwo w] {a b : BitVec w} {cin : Bool} {p : View (BitVec w)}
  {pg : View (BitVec w) × View (BitVec w)}

theorem SharesPair.sum
    (carries : SharesPair pg (rounds w.log2 (a ^^^ b, ParallelPrefix.generate a b cin)))
    (hp : XorShares p (a ^^^ b)) :
    XorShares ((pg.2.map fun a : BitVec w => a <<< 1).map₂ (· ^^^ ·) p)
      (a + b + carryWord w cin ^^^ carryWord w cin) := by
  rw [carryWord, ← sum_carry_eq cin (Nat.le_of_eq PowerOfTwo.eq), xor_assoc, BitVec.xor_self,
    xor_zero]
  exact (carries.2.shiftLeft 1).xor hp

theorem SharesPair.carry
    (carries : SharesPair pg (rounds w.log2 (a ^^^ b, ParallelPrefix.generate a b cin))) :
    XorShares (getBit pg.2 (w - 1)) (BitVec.ofBool (BitVec.carry w a b cin)) := by
  rw [← carryOut_eq cin (Nat.le_of_eq PowerOfTwo.eq) PowerOfTwo.pos]
  exact carries.2.getBit _

end Tree

theorem koggeStoneInnerWithCarry_spec [PowerOfTwo w] {cin : Bool} (seed : Seeds a b cin p g) :
    Ensures (Adds a b cin) (koggeStoneInnerWithCarry p g : Mpc F _) :=
  Ensures.bind (koggeStoneLoop_spec seed.propagate seed.generate _) fun _ carries =>
    Ensures.pure ⟨carries.sum seed.propagate, carries.carry⟩

structure Compares (s t : BitVec w) (r : View (BitVec w) × View (BitVec 1)) : Prop where
  difference : XorShares r.1 (s - t)
  bit : XorShares r.2 (geBit s t)

/-- The sum of `s`, `~t` and one is the difference, once its lowest bit has got the carry-in. -/
theorem sub_of_not {z : View (BitVec w)}
    (h : XorShares z (s + ~~~t + carryWord w true ^^^ carryWord w true)) :
    XorShares (xorPublic z 1#w) (s - t) := by
  have difference : s - t = (s + ~~~t + 1#w ^^^ 1#w) ^^^ 1#w := by
    rw [xor_assoc, BitVec.xor_self, xor_zero, BitVec.add_assoc, ← neg_eq_not_add,
      BitVec.sub_eq_add_neg]
  rw [difference, ← carryWord_true]
  exact h.xorPublic _

/-- A tree that adds `s`, `~t` and one compares `s` with `t`. -/
theorem Adds.compares_not {r : View (BitVec w) × View (BitVec 1)} (h : Adds s (~~~t) true r) :
    Compares s t (xorPublic r.1 1#w, r.2) := by
  refine ⟨sub_of_not h.sum, ?_⟩
  rw [geBit_not]
  exact h.carry

/-- The two's complement of zero cuts a carry off, which is put back. -/
theorem XorShares.geBit_of_neg {c : View (BitVec 1)}
    (h : XorShares c (BitVec.ofBool (BitVec.carry w s (~~~t + 1#w) false))) :
    XorShares (if t = 0 then c.map (~~~·) else c) (geBit s t) := by
  by_cases zero : t = 0
  · subst zero
    have cut : BitVec.carry w s (~~~(0 : BitVec w) + 1#w) false = false := by
      rw [← neg_eq_not_add]
      simpa using carry_zero_right s
    have one : geBit s 0 = ~~~(BitVec.ofBool false) := by simp [geBit]
    rw [one, ← cut]
    exact h.not
  · rw [if_neg zero, geBit_eq, ← carry_neg zero]
    exact h

/-- A tree that adds `s` and the two's complement of `t` compares `s` with `t`. -/
theorem Adds.compares_neg {r : View (BitVec w) × View (BitVec 1)}
    (h : Adds s (~~~t + 1#w) false r) :
    Compares s t (r.1, if t = 0 then r.2.map (~~~·) else r.2) := by
  refine ⟨?_, h.carry.geBit_of_neg⟩
  have difference : s - t = s + (~~~t + 1#w) + 0#w ^^^ 0#w := by
    rw [xor_zero, BitVec.add_zero, ← neg_eq_not_add, BitVec.sub_eq_add_neg]
  rw [difference, ← carryWord_false]
  exact h.sum

theorem lowDepthBinarySubWithCarry_spec [PowerOfTwo w] (hx : XorShares x s) (hy : XorShares y t) :
    Ensures (Compares s t) (lowDepthBinarySubWithCarry x y : Mpc F _) :=
  Ensures.bind (and_spec hx hy.not) fun _ both =>
    Ensures.bind (koggeStoneInnerWithCarry_spec (.carried (hx.xor hy.not) both)) fun _ added =>
      Ensures.pure added.compares_not

theorem lowDepthBinarySubByConstWithCarry_spec [PowerOfTwo w] (hx : XorShares x s) (t : BitVec w) :
    Ensures (Compares s t) (lowDepthBinarySubByConstWithCarry x t : Mpc F _) :=
  Ensures.bind (koggeStoneInnerWithCarry_spec (.plain (hx.xorPublic _) (hx.and_public _)))
    fun _ added =>
    Ensures.pure added.compares_neg

theorem lowDepthBinarySubFromConstWithCarry_spec [PowerOfTwo w] (s : BitVec w)
    (hy : XorShares y t) :
    Ensures (Compares s t) (lowDepthBinarySubFromConstWithCarry s y : Mpc F _) := by
  have propagate := hy.not.xorPublic s
  have generate := hy.not.and_public s
  rw [BitVec.xor_comm] at propagate
  rw [BitVec.and_comm] at generate
  exact Ensures.bind (koggeStoneInnerWithCarry_spec (.carried propagate generate)) fun _ added =>
    Ensures.pure added.compares_not

theorem unsignedGe_spec [PowerOfTwo w] (hx : SumShares x s) (hy : SumShares y t) :
    Ensures (XorShares · (geBit s t)) (unsignedGe x y : Mpc F _) :=
  Ensures.bind (a2b_spec hx) fun _ hx => Ensures.bind (a2b_spec hy) fun _ hy =>
    Ensures.bind (lowDepthBinarySubWithCarry_spec hx hy) fun _ compared => Ensures.pure compared.bit

theorem unsignedGeConstLhs_spec [PowerOfTwo w] (s : BitVec w) (hy : SumShares y t) :
    Ensures (XorShares · (geBit s t)) (unsignedGeConstLhs s y : Mpc F _) :=
  Ensures.bind (a2b_spec hy) fun _ hy =>
    Ensures.bind (lowDepthBinarySubFromConstWithCarry_spec s hy) fun _ compared =>
      Ensures.pure compared.bit

theorem unsignedGeConstRhs_spec [PowerOfTwo w] (hx : SumShares x s) (t : BitVec w) :
    Ensures (XorShares · (geBit s t)) (unsignedGeConstRhs x t : Mpc F _) :=
  Ensures.bind (a2b_spec hx) fun _ hx =>
    Ensures.bind (lowDepthBinarySubByConstWithCarry_spec hx t) fun _ compared =>
      Ensures.pure compared.bit

end Single

section Many

variable {F : Type} [Ring F] {w : Nat}

def koggeStoneInnerWithCarryMany (p g : List (View (BitVec w))) :
    Mpc F (List (View (BitVec w)) × List (View (BitVec 1))) := do
  let pgs ← koggeStoneLoopMany w.log2 (p.zip g)
  let c := pgs.map fun pg => getBit pg.2 (w - 1)
  return (pgs.zipWith (fun pg p => (pg.2.map fun a : BitVec w => a <<< 1).map₂ (· ^^^ ·) p) p, c)

def lowDepthBinarySubWithCarryMany (x1 x2 : List (View (BitVec w))) :
    Mpc F (List (View (BitVec w)) × List (View (BitVec 1))) := do
  let x2 := x2.map (·.map (~~~·))
  let p := x1.zipWith (fun x1 x2 => x1.map₂ (· ^^^ ·) x2) x2
  let g ← andMany x1 x2
  let g := g.zipWith (fun g p => g.map₂ (· ^^^ ·) (p.map (· &&& 1#w))) p
  let (res, c) ← koggeStoneInnerWithCarryMany p g
  return (res.map (xorPublic · 1#w), c)

/-- `unsigned_ge_many`: the operands are XOR sharings. -/
def unsignedGeMany (xBits yBits : List (View (BitVec w))) : Mpc F (List (View (BitVec 1))) := do
  let (_, r) ← lowDepthBinarySubWithCarryMany xBits yBits
  return r

def unsignedGeConstRhsMany (xBits : List (View (BitVec w))) (yConsts : List (BitVec w)) :
    Mpc F (List (View (BitVec 1))) := do
  let negYs := yConsts.map fun y => ~~~y + 1#w
  let g := xBits.zipWith (fun x ny => x.map (· &&& ny)) negYs
  let p := xBits.zipWith xorPublic negYs
  let (_, carries) ← koggeStoneInnerWithCarryMany p g
  return carries.zipWith (fun c y => if y = 0 then c.map (~~~·) else c) yConsts

def unsignedGeConstLhsMany (xConsts : List (BitVec w)) (yBits : List (View (BitVec w))) :
    Mpc F (List (View (BitVec 1))) := do
  let yNeg := yBits.map (·.map (~~~·))
  let p := yNeg.zipWith xorPublic xConsts
  let g := yNeg.zipWith (fun yn xc => yn.map (· &&& xc)) xConsts
  let g := g.zipWith (fun g p => g.map₂ (· ^^^ ·) (p.map (· &&& 1#w))) p
  let (_, c) ← koggeStoneInnerWithCarryMany p g
  return c

variable {γ : Type} {items : List γ} {a b : γ → BitVec w}
variable {y : List (View (BitVec w))} {t : List (BitVec w)}

/-- Each element of the batch is added on its own. -/
theorem koggeStoneInnerWithCarryMany_spec [PowerOfTwo w] {cin : Bool} {p g : List (View (BitVec w))}
    (propagate : Forall₂ (fun p c => XorShares p (a c ^^^ b c)) p items)
    (seeds : Forall₂ (fun g c => XorShares g (generate (a c) (b c) cin)) g items) :
    Ensures (fun r =>
      Forall₂ (fun z c => XorShares z (a c + b c + carryWord w cin ^^^ carryWord w cin)) r.1 items ∧
        Forall₂ (fun z c => XorShares z (BitVec.ofBool (BitVec.carry w (a c) (b c) cin))) r.2 items)
      (koggeStoneInnerWithCarryMany p g : Mpc F _) := by
  have start := forall₂_zipWith_same (f := Prod.mk)
    (T := fun pg c => SharesPair pg (a c ^^^ b c, generate (a c) (b c) cin))
      (fun _ _ _ hp hg => ⟨hp, hg⟩) propagate seeds
  refine Ensures.bind (koggeStoneLoopMany_spec start _) fun pgs carries => ?_
  have sums := forall₂_zipWith_same
    (T := fun z c => XorShares z (a c + b c + carryWord w cin ^^^ carryWord w cin))
    (f := fun (pg : View (BitVec w) × View (BitVec w)) p =>
      (pg.2.map fun a : BitVec w => a <<< 1).map₂ (· ^^^ ·) p)
    (fun pg p c carried hp => SharesPair.sum carried hp) carries propagate
  have bits : Forall₂ (fun z c => XorShares z (BitVec.ofBool (BitVec.carry w (a c) (b c) cin)))
      (pgs.map fun pg => getBit pg.2 (w - 1)) items := by
    rw [forall₂_map_left_iff]
    exact carries.imp fun pg c carried => SharesPair.carry carried
  exact Ensures.pure ⟨sums, bits⟩

theorem forall₂_not (h : Forall₂ XorShares y t) :
    Forall₂ (fun y d => XorShares y (~~~d)) (y.map (·.map (~~~·))) t := by
  rw [forall₂_map_left_iff]
  exact h.imp fun _ _ one => one.not

/-- The seeds of a batch with carry-in one. -/
theorem forall₂_carried {p g : List (View (BitVec w))}
    (propagate : Forall₂ (fun p c => XorShares p (a c ^^^ b c)) p items)
    (products : Forall₂ (fun g c => XorShares g (a c &&& b c)) g items) :
    Forall₂ (fun g c => XorShares g (generate (a c) (b c) true))
      (g.zipWith (fun g p => g.map₂ (· ^^^ ·) (p.map (· &&& 1#w))) p) items :=
  forall₂_zipWith_same (fun _ p c hg (hp : XorShares p (a c ^^^ b c)) =>
    (Seeds.carried hp hg).generate) products propagate

variable {x : List (View (BitVec w))} {s : List (BitVec w)}

theorem lowDepthBinarySubWithCarryMany_spec [PowerOfTwo w] (hx : Forall₂ XorShares x s)
    (hy : Forall₂ XorShares y t) :
    Ensures (fun r => Forall₂ XorShares r.1 (List.zipWith (· - ·) s t) ∧
      Forall₂ XorShares r.2 (List.zipWith geBit s t)) (lowDepthBinarySubWithCarryMany x y :
        Mpc F _) := by
  have propagate := forall₂_zipWith
    (T := fun p (c : BitVec w × BitVec w) => XorShares p (c.1 ^^^ ~~~c.2))
      (fun _ _ _ _ hx hy => hx.xor hy) hx (forall₂_not hy)
  refine Ensures.bind (andMany_spec hx (forall₂_not hy)) fun g products => ?_
  refine Ensures.bind (koggeStoneInnerWithCarryMany_spec propagate
    (forall₂_carried propagate products)) fun r added => ?_
  refine Ensures.pure ⟨forall₂_zip_values ?_, forall₂_zip_values ?_⟩
  · rw [forall₂_map_left_iff]
    exact added.1.imp fun z c sum => sub_of_not sum
  · refine added.2.imp fun z c bit => ?_
    rw [geBit_not]
    exact bit

theorem unsignedGeMany_spec [PowerOfTwo w] (hx : Forall₂ XorShares x s)
    (hy : Forall₂ XorShares y t) :
    Ensures (Forall₂ XorShares · (List.zipWith geBit s t)) (unsignedGeMany x y : Mpc F _) :=
  Ensures.bind (lowDepthBinarySubWithCarryMany_spec hx hy) fun _ compared => Ensures.pure compared.2

/-- The public operands of a batch, element by element. -/
theorem forall₂_zip_right {α : Type} : ∀ {s t : List α}, s.length = t.length →
    Forall₂ (fun y (c : α × α) => y = c.2) t (s.zip t)
  | [], [], _ => .nil
  | _ :: _, _ :: _, same => .cons rfl (forall₂_zip_right (Nat.succ.inj same))

/-- A batch compared with public right sides; the carry is negated where the constant is 0. -/
theorem unsignedGeConstRhsMany_spec [PowerOfTwo w] (hx : Forall₂ XorShares x s)
    (same : s.length = t.length) :
    Ensures (Forall₂ XorShares · (List.zipWith geBit s t))
      (unsignedGeConstRhsMany x t : Mpc F _) := by
  have constants : Forall₂ (fun ny y => ny = ~~~y + 1#w) (t.map fun y => ~~~y + 1#w) t := by
    rw [forall₂_map_left_iff]
    exact forall₂_same.mpr fun _ _ => rfl
  have propagate := forall₂_zipWith
    (T := fun p (c : BitVec w × BitVec w) => XorShares p (c.1 ^^^ (~~~c.2 + 1#w)))
    (fun _ _ _ _ hx negated => by rw [negated]; exact hx.xorPublic _) hx constants
  have seeds := forall₂_zipWith (f := fun x ny => x.map (· &&& ny))
    (T := fun p (c : BitVec w × BitVec w) => XorShares p (generate c.1 (~~~c.2 + 1#w) false))
    (fun _ _ _ _ hx negated => by rw [negated, generate_false]; exact hx.and_public _) hx constants
  refine Ensures.bind (koggeStoneInnerWithCarryMany_spec propagate seeds) fun r added =>
    Ensures.pure ?_
  refine forall₂_zip_values (forall₂_zipWith_same (fun _ _ c bit right => ?_) added.2
    (forall₂_zip_right same))
  rw [right]
  exact bit.geBit_of_neg

/-- A batch compared with public left sides: the carry of `x + ~y + 1`. -/
theorem unsignedGeConstLhsMany_spec [PowerOfTwo w] (s : List (BitVec w))
    (hy : Forall₂ XorShares y t) :
    Ensures (Forall₂ XorShares · (List.zipWith geBit s t))
      (unsignedGeConstLhsMany s y : Mpc F _) := by
  have constants : Forall₂ (fun x (c : BitVec w) => x = c) s s := forall₂_same.mpr fun _ _ => rfl
  have propagate := forall₂_zipWith
    (T := fun p (c : BitVec w × BitVec w) => XorShares p (c.2 ^^^ ~~~c.1))
    (fun _ _ _ _ hy same => by rw [same, BitVec.xor_comm]; exact hy.xorPublic _) (forall₂_not hy)
      constants
  have products := forall₂_zipWith
    (T := fun p (c : BitVec w × BitVec w) => XorShares p (c.2 &&& ~~~c.1))
    (fun _ _ _ _ hy same => by rw [same, BitVec.and_comm]; exact hy.and_public _) (forall₂_not hy)
      constants
  refine Ensures.bind (koggeStoneInnerWithCarryMany_spec propagate
    (forall₂_carried propagate products))
    fun r added => Ensures.pure ?_
  rw [← zipWith_comm]
  refine forall₂_zip_values (added.2.imp fun z c bit => ?_)
  rw [geBit_not]
  exact bit

end Many

/-! ## The comparisons of `rep3_ring/arithmetic.rs` -/

namespace Arithmetic

section Definitions

variable {F : Type} [Ring F] {w : Nat}

def ge (lhs rhs : View (BitVec w)) : Mpc F (View (BitVec 1)) := unsignedGe lhs rhs

def geMany (lhs rhs : List (View (BitVec w))) : Mpc F (List (View (BitVec 1))) :=
  unsignedGeMany lhs rhs

def gePublic (lhs : View (BitVec w)) (rhs : BitVec w) : Mpc F (View (BitVec 1)) :=
  unsignedGeConstRhs lhs rhs

/-- `lt`: `sub_public_by_shared` of one, in the ring of one bit. -/
def lt (lhs rhs : View (BitVec w)) : Mpc F (View (BitVec 1)) := do
  let tmp ← ge lhs rhs
  return addPublic (tmp.map (-·)) 1

def ltMany (lhs rhs : List (View (BitVec w))) : Mpc F (List (View (BitVec 1))) := do
  let tmp ← geMany lhs rhs
  return tmp.map (·.map (~~~·))

def ltPublic (lhs : View (BitVec w)) (rhs : BitVec w) : Mpc F (View (BitVec 1)) := do
  let tmp ← gePublic lhs rhs
  return tmp.map (~~~·)

def le (lhs rhs : View (BitVec w)) : Mpc F (View (BitVec 1)) := ge rhs lhs

def lePublic (lhs : View (BitVec w)) (rhs : BitVec w) : Mpc F (View (BitVec 1)) :=
  unsignedGeConstLhs rhs lhs

def gt (lhs rhs : View (BitVec w)) : Mpc F (View (BitVec 1)) := do
  let tmp ← le lhs rhs
  return tmp.map (~~~·)

def gtPublic (lhs : View (BitVec w)) (rhs : BitVec w) : Mpc F (View (BitVec 1)) := do
  let tmp ← lePublic lhs rhs
  return tmp.map (~~~·)

end Definitions

section Specifications

variable {F : Type} [Ring F] {w : Nat} [PowerOfTwo w] {x y : View (BitVec w)} {s t : BitVec w}

omit [PowerOfTwo w] in
theorem not_geBit (s t : BitVec w) : ~~~(geBit s t) = BitVec.ofBool (s.ult t) := by
  rw [geBit, BitVec.ult, decide_eq_decide.mpr Nat.not_le.symm, decide_not]
  cases decide (t.toNat ≤ s.toNat) <;> rfl

omit [PowerOfTwo w] in
/-- One minus a bit, on XOR sharings of it. -/
theorem flipped {c : View (BitVec 1)} {v : BitVec 1} (h : XorShares c v) :
    XorShares (addPublic (c.map (-·)) 1) (~~~v) where
  replicated p := by
    cases p
    · exact congrArg (-·) (h.replicated .ID0)
    · exact congrArg (-· + 1) (h.replicated .ID1)
    · exact congrArg (-·) (h.replicated .ID2)
  opens := by
    rw [← h.opens]
    simp only [parity, addPublic, View.map, Rep3Share.map]
    generalize (c .ID0).a = a
    generalize (c .ID1).a = b
    generalize (c .ID2).a = d
    revert a b d
    decide

/-- The strict comparisons are exact on the sharings they are written for: `lt_many` takes XOR
sharings, the others take additive ones. -/
theorem strict_comparisons_exact (hx : SumShares x s) (hy : SumShares y t)
    {xs ys : List (View (BitVec w))} {ss ts : List (BitVec w)} (hxs : Forall₂ XorShares xs ss)
    (hys : Forall₂ XorShares ys ts) :
    Ensures (XorShares · (BitVec.ofBool (s.ult t))) (lt x y : Mpc F _) ∧
      Ensures (XorShares · (BitVec.ofBool (s.ult t))) (ltPublic x t : Mpc F _) ∧
      Ensures (XorShares · (BitVec.ofBool (t.ult s))) (gt x y : Mpc F _) ∧
      Ensures (XorShares · (BitVec.ofBool (t.ult s))) (gtPublic x t : Mpc F _) ∧
      Ensures (Forall₂ XorShares · (List.zipWith (fun s t => BitVec.ofBool (s.ult t)) ss ts))
        (ltMany xs ys : Mpc F _) := by
  simp only [← not_geBit]
  refine ⟨?_, ?_, ?_, ?_, ?_⟩
  · exact Ensures.bind (unsignedGe_spec hx hy) fun _ bit => Ensures.pure (flipped bit)
  · exact Ensures.bind (unsignedGeConstRhs_spec hx t) fun _ bit => Ensures.pure bit.not
  · exact Ensures.bind (unsignedGe_spec hy hx) fun _ bit => Ensures.pure bit.not
  · exact Ensures.bind (unsignedGeConstLhs_spec t hx) fun _ bit => Ensures.pure bit.not
  · refine Ensures.bind (unsignedGeMany_spec hxs hys) fun _ bits => Ensures.pure ?_
    rw [← List.map_zipWith, forall₂_map_left_iff, forall₂_map_right_iff]
    exact bits.imp fun _ _ bit => bit.not

theorem strict_comparisons_exact_u8 :
    Ensures (XorShares · 1) (lt (.promoteToTrivialShare 6#8) (.promoteToTrivialShare 7#8) :
      Mpc Int _) ∧
      Ensures (Forall₂ XorShares · [1])
        (ltMany [.promoteToTrivialShare 6#8] [.promoteToTrivialShare 7#8] : Mpc Int _) := by
  obtain ⟨first, -, -, -, last⟩ := strict_comparisons_exact (F := Int) (.promote 6#8) (.promote 7#8)
    (.cons (.promote 6#8) .nil) (.cons (.promote 7#8) .nil)
  exact ⟨first, last⟩

end Specifications

end Arithmetic

section Exact

variable {F : Type} [Ring F] {w : Nat}

/-- Every comparison is exact on the sharings it is written for: single elements come as additive
sharings, which are converted, the circuits below and the batched comparisons take XOR sharings. -/
theorem comparison_exact [PowerOfTwo w] :
    (∀ {x y : View (BitVec w)} {s t : BitVec w}, SumShares x s → SumShares y t → ∀ coins : Coins F,
      XorShares (unsignedGe x y coins).1 (geBit s t) ∧
        XorShares (unsignedGeConstRhs x t coins).1 (geBit s t) ∧
        XorShares (unsignedGeConstLhs s y coins).1 (geBit s t)) ∧
    (∀ {x y : View (BitVec w)} {s t : BitVec w}, XorShares x s → XorShares y t → ∀ coins : Coins F,
      XorShares (lowDepthBinarySubWithCarry x y coins).1.2 (geBit s t) ∧
        XorShares (lowDepthBinarySubByConstWithCarry x t coins).1.2 (geBit s t) ∧
        XorShares (lowDepthBinarySubFromConstWithCarry s y coins).1.2 (geBit s t)) ∧
    ∀ {x y : List (View (BitVec w))} {s t : List (BitVec w)}, Forall₂ XorShares x s →
      Forall₂ XorShares y t → s.length = t.length → ∀ coins : Coins F,
        Forall₂ XorShares (unsignedGeMany x y coins).1 (List.zipWith geBit s t) ∧
          Forall₂ XorShares (unsignedGeConstRhsMany x t coins).1 (List.zipWith geBit s t) ∧
          Forall₂ XorShares (unsignedGeConstLhsMany s y coins).1 (List.zipWith geBit s t) := by
  refine ⟨fun hx hy coins => ⟨?_, ?_, ?_⟩, fun hx hy coins => ⟨?_, ?_, ?_⟩,
    fun hx hy same coins => ⟨?_, ?_, ?_⟩⟩
  · exact unsignedGe_spec hx hy coins
  · exact unsignedGeConstRhs_spec hx _ coins
  · exact unsignedGeConstLhs_spec _ hy coins
  · exact (lowDepthBinarySubWithCarry_spec hx hy coins).bit
  · exact (lowDepthBinarySubByConstWithCarry_spec hx _ coins).bit
  · exact (lowDepthBinarySubFromConstWithCarry_spec _ hy coins).bit
  · exact unsignedGeMany_spec hx hy coins
  · exact unsignedGeConstRhsMany_spec hx same coins
  · exact unsignedGeConstLhsMany_spec _ hy coins

/-- Bytes at the ends of the range, and a pair of which one is smaller and one equal. -/
theorem comparison_exact_u8 :
    (∀ coins : Coins Int, XorShares (unsignedGeConstRhs (.promoteToTrivialShare 7#8) 0 coins).1 1) ∧
    (∀ coins : Coins Int, XorShares (unsignedGeConstLhs 255 (.promoteToTrivialShare 7#8) coins).1
      1) ∧
    (∀ coins : Coins Int, XorShares
      (lowDepthBinarySubWithCarry (.promoteToTrivialShare 6#8) (.promoteToTrivialShare 7#8)
        coins).1.2 0) ∧
    ∀ coins : Coins Int, Forall₂ XorShares
      (unsignedGeMany [.promoteToTrivialShare 6#8, .promoteToTrivialShare 9#8]
        [.promoteToTrivialShare 7#8, .promoteToTrivialShare 9#8] coins).1 [0, 1] :=
  ⟨fun coins => (comparison_exact.1 (.promote 7#8) (.promote 0#8) coins).2.1,
    fun coins => (comparison_exact.1 (.promote 255#8) (.promote 7#8) coins).2.2,
    fun coins => (comparison_exact.2.1 (.promote 6#8) (.promote 7#8) coins).1,
    fun coins => (comparison_exact.2.2 (s := [6#8, 9#8]) (t := [7#8, 9#8])
      (.cons (.promote _) (.cons (.promote _) .nil)) (.cons (.promote _) (.cons (.promote _) .nil))
        rfl coins).1⟩

def threeOnes : View (BitVec 8) := fun _ => ⟨1, 1⟩

/-- Given XOR sharings, `unsigned_ge` compares the sums of the components: `1 ≥ 2`. -/
theorem unsignedGe_of_xorShares :
    XorShares threeOnes 1 ∧ XorShares (.promoteToTrivialShare 2#8) 2 ∧
      ¬ ∃ coins : Coins Int, XorShares (unsignedGe threeOnes (.promoteToTrivialShare 2#8) coins).1
        (geBit 1#8 2#8) := by
  refine ⟨⟨fun _ => rfl, by decide⟩, .promote 2#8, ?_⟩
  rintro ⟨coins, wrong⟩
  have sums : SumShares threeOnes 3#8 := ⟨fun _ => rfl, by decide⟩
  have two : SumShares (.promoteToTrivialShare 2#8) 2#8 := .promote 2#8
  have right := unsignedGe_spec sums two coins
  have bits : geBit 3#8 2#8 = geBit 1#8 2#8 := right.opens.symm.trans wrong.opens
  exact absurd bits (by decide)

end Exact

end ProviaVM.Rep3
