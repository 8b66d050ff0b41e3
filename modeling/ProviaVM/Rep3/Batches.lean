import ProviaVM.Rep3.Circuits

/-! # The carry tree on batches

`rep3_ring/detail.rs`, the functions that end in `_many`. A batch goes through a round
as a whole before the next round starts, so the masks of an element are not drawn one
after the other as they are for a single element. What the parties hold of a batch is a
list of views: the lists of the three parties have one length. -/
namespace ProviaVM.Rep3
open Preprocessing ParallelPrefix List

section Lists

variable {α β γ δ ε : Type} {R : α → γ → Prop} {S : β → δ → Prop}

/-- Two batches combined element by element. -/
theorem forall₂_zipWith {T : ε → γ × δ → Prop} {f : α → β → ε}
    (one : ∀ a b c d, R a c → S b d → T (f a b) (c, d)) :
    ∀ {as : List α} {bs : List β} {cs : List γ} {ds : List δ}, Forall₂ R as cs → Forall₂ S bs ds →
      Forall₂ T (List.zipWith f as bs) (cs.zip ds)
  | _, _, _, _, .nil, _ => by simp
  | _, _, _, _, .cons _ _, .nil => by simp
  | _, _, _, _, .cons first firsts, .cons second seconds =>
    .cons (one _ _ _ _ first second) (forall₂_zipWith one firsts seconds)

/-- Two results for the elements of one batch, combined element by element. -/
theorem forall₂_zipWith_same {S : β → γ → Prop} {T : ε → γ → Prop} {f : α → β → ε}
    (one : ∀ a b c, R a c → S b c → T (f a b) c) :
    ∀ {as : List α} {bs : List β} {cs : List γ}, Forall₂ R as cs → Forall₂ S bs cs →
      Forall₂ T (List.zipWith f as bs) cs
  | _, _, _, .nil, .nil => .nil
  | _, _, _, .cons first firsts, .cons second seconds =>
    .cons (one _ _ _ first second) (forall₂_zipWith_same one firsts seconds)

/-- The values of a batch written as a function of its operands. -/
theorem forall₂_zip_values {P : ε → β → Prop} {g : γ → δ → β} {es : List ε} {cs : List γ}
    {ds : List δ} (h : Forall₂ (fun e c => P e (g c.1 c.2)) es (cs.zip ds)) :
    Forall₂ P es (List.zipWith g cs ds) := by
  rw [← map_uncurry_zip_eq_zipWith, forall₂_map_right_iff]
  exact h

end Lists

section Batches

variable {F : Type} [Ring F] {w : Nat}

def andMany (a b : List (View (BitVec w))) : Mpc F (List (View (BitVec w))) :=
  (a.zip b).mapM fun v => and v.1 v.2

/-- `kogge_stone_loop_many`: `d` rounds, each on the whole batch of propagate and generate words. -/
def koggeStoneLoopMany : Nat → List (View (BitVec w) × View (BitVec w)) →
    Mpc F (List (View (BitVec w) × View (BitVec w)))
  | 0, pgs => pure pgs
  | d + 1, pgs => do
    let pgs ← koggeStoneLoopMany d pgs
    pgs.mapM (koggeStoneRound (2 ^ d))

def lowDepthBinaryAddMany (x1 x2 : List (View (BitVec w))) : Mpc F (List (View (BitVec w))) := do
  let p := x1.zipWith (fun x1 x2 => x1.map₂ (· ^^^ ·) x2) x2
  let g ← andMany x1 x2
  let pgs ← koggeStoneLoopMany w.log2 (p.zip g)
  return pgs.zipWith (fun pg p => (pg.2.map fun a : BitVec w => a <<< 1).map₂ (· ^^^ ·) p) p

variable {γ : Type} {items : List γ}
variable {x y : List (View (BitVec w))} {f : γ → BitVec w}

theorem andMany_spec {δ : Type} {cs : List γ} {ds : List δ} {g : δ → BitVec w}
    (hx : Forall₂ (fun x c => XorShares x (f c)) x cs)
    (hy : Forall₂ (fun y d => XorShares y (g d)) y ds) :
    Ensures (Forall₂ (fun z c => XorShares z (f c.1 &&& g c.2)) · (cs.zip ds))
      (andMany x y : Mpc F _) := by
  have operands : Forall₂ (fun v (c : γ × δ) => XorShares v.1 (f c.1) ∧
      XorShares v.2 (g c.2)) (x.zip y) (cs.zip ds) :=
    forall₂_zipWith (fun _ _ _ _ hx hy => ⟨hx, hy⟩) hx hy
  exact Ensures.mapM (fun v c h => and_spec h.1 h.2) operands

/-- The rounds act on every element of the batch as they do on one element. -/
theorem koggeStoneLoopMany_spec {start : γ → BitVec w × BitVec w}
    {pgs : List (View (BitVec w) × View (BitVec w))}
    (h : Forall₂ (fun pg c => SharesPair pg (start c)) pgs items) (d : Nat) :
    Ensures (Forall₂ (fun pg c => SharesPair pg (rounds d (start c))) · items)
      (koggeStoneLoopMany d pgs : Mpc F _) := by
  induction d with
  | zero => exact Ensures.pure h
  | succ d ih =>
    refine Ensures.bind ih fun pgs carried => ?_
    exact Ensures.mapM (fun pg c shares => koggeStoneRound_spec shares) carried

/-- The batched adder adds pair by pair. -/
theorem lowDepthBinaryAddMany_spec [PowerOfTwo w] {s t : List (BitVec w)}
    (hx : Forall₂ XorShares x s) (hy : Forall₂ XorShares y t) :
    Ensures (Forall₂ XorShares · (List.zipWith (· + ·) s t))
      (lowDepthBinaryAddMany x y : Mpc F _) := by
  have propagate : Forall₂ (fun p (c : BitVec w × BitVec w) => XorShares p (c.1 ^^^ c.2))
      (x.zipWith (fun x y => x.map₂ (· ^^^ ·) y) y) (s.zip t) :=
    forall₂_zipWith (fun _ _ _ _ hx hy => hx.xor hy) hx hy
  refine Ensures.bind (andMany_spec hx hy) fun g generated => ?_
  have start := forall₂_zipWith_same (f := Prod.mk)
    (T := fun pg (c : BitVec w × BitVec w) => SharesPair pg (c.1 ^^^ c.2, c.1 &&& c.2))
    (fun _ _ _ hp hg => ⟨hp, hg⟩) propagate generated
  refine Ensures.bind (koggeStoneLoopMany_spec start _) fun pgs carries => Ensures.pure ?_
  refine forall₂_zip_values (forall₂_zipWith_same (fun pg p c carried hp => ?_) carries propagate)
  rw [← sum_eq (Nat.le_of_eq PowerOfTwo.eq)]
  exact (carried.2.shiftLeft 1).xor hp

/-- `andMany` where both operands belong to the same items. -/
theorem andMany_items {g : γ → BitVec w} (hx : Forall₂ (fun x c => XorShares x (f c)) x items)
    (hy : Forall₂ (fun y c => XorShares y (g c)) y items) :
    Ensures (Forall₂ (fun z c => XorShares z (f c &&& g c)) · items) (andMany x y : Mpc F _) := by
  have operands : Forall₂ (fun v c => XorShares v.1 (f c) ∧ XorShares v.2 (g c)) (x.zip y) items :=
    forall₂_zipWith_same (fun _ _ _ hx hy => ⟨hx, hy⟩) hx hy
  exact Ensures.mapM (fun v c h => and_spec h.1 h.2) operands

def orMany (a b : List (View (BitVec w))) : Mpc F (List (View (BitVec w))) := do
  let xor := a.zipWith (fun a b => a.map₂ (· ^^^ ·) b) b
  let and ← andMany a b
  return xor.zipWith (fun x a => x.map₂ (· ^^^ ·) a) and

theorem orMany_items {g : γ → BitVec w} (hx : Forall₂ (fun x c => XorShares x (f c)) x items)
    (hy : Forall₂ (fun y c => XorShares y (g c)) y items) :
    Ensures (Forall₂ (fun z c => XorShares z (f c ||| g c)) · items) (orMany x y : Mpc F _) := by
  refine Ensures.bind (andMany_items hx hy) fun both products => Ensures.pure ?_
  have xors := forall₂_zipWith_same
    (T := fun z c => XorShares z (f c ^^^ g c)) (fun _ _ _ hx hy => hx.xor hy) hx hy
  refine forall₂_zipWith_same (fun x a c hx ha => ?_) xors products
  rw [← xor_xor_and]
  exact hx.xor ha

/-- A local operation on every element of a batch. -/
theorem forall₂_map_shares {v : Nat} {k : BitVec w → BitVec v}
    {g : View (BitVec w) → View (BitVec v)} (one : ∀ {x s}, XorShares x s → XorShares (g x) (k s))
    {xs : List (View (BitVec w))} (h : Forall₂ (fun x c => XorShares x (f c)) xs items) :
    Forall₂ (fun x c => XorShares x (k (f c))) (xs.map g) items := by
  rw [forall₂_map_left_iff]
  exact h.imp fun _ _ shares => one shares

/-- The loop of `is_zero_many`: every round is one `and_many` of the two halves of the words. -/
def isZeroLoopMany : Nat → List (View (BitVec w)) → Mpc F (List (View (BitVec w)))
  | 0, xs => pure xs
  | d + 1, xs => do
    let mask := lowMask w (2 ^ d)
    let a := xs.map fun x => x.map (· &&& mask)
    let b := xs.map fun x => (x.map fun a : BitVec w => a >>> 2 ^ d).map (· &&& mask)
    let xs ← andMany a b
    isZeroLoopMany d xs

def isZeroMany (xs : List (View (BitVec w))) : Mpc F (List (View (BitVec 1))) := do
  let xs ← isZeroLoopMany w.log2 (xs.map fun x => x.map (~~~·))
  return xs.map (getBit · 0)

/-- One folding of the whole batch per level of the tree. -/
theorem isZeroLoopMany_spec (d : Nat) {xs : List (View (BitVec w))}
    (h : Forall₂ (fun x c => XorShares x (f c)) xs items) :
    Ensures (Forall₂ (fun x c => XorShares x (andTree d (f c))) · items)
      (isZeroLoopMany d xs : Mpc F _) := by
  induction d generalizing xs f with
  | zero => exact Ensures.pure h
  | succ d ih =>
    have low := forall₂_map_shares (fun shares => shares.and_public (lowMask w (2 ^ d))) h
    have high :=
      forall₂_map_shares (fun shares => (shares.shiftRight (2 ^ d)).and_public (lowMask w (2 ^ d)))
      h
    exact Ensures.bind (andMany_items low high) fun _ next => ih next

theorem isZeroMany_spec [PowerOfTwo w] {xs : List (View (BitVec w))}
    (h : Forall₂ (fun x c => XorShares x (f c)) xs items) :
    Ensures (Forall₂ (fun z c => XorShares z (BitVec.ofBool (decide (f c = 0)))) · items)
      (isZeroMany xs : Mpc F _) := by
  have negated := forall₂_map_shares (fun shares => shares.not) h
  refine Ensures.bind (isZeroLoopMany_spec _ negated) fun _ tree => Ensures.pure ?_
  rw [forall₂_map_left_iff]
  refine tree.imp fun x c hx => ?_
  rw [← andTree_not PowerOfTwo.eq]
  exact hx.getBit 0

/-- The adder opens to the sum, for one element and for a batch, whatever the parties draw. -/
theorem low_depth_binary_add_correct [PowerOfTwo w] :
    (∀ {x y : View (BitVec w)} {s t : BitVec w}, XorShares x s → XorShares y t → ∀ coins : Coins F,
      XorShares (lowDepthBinaryAdd x y coins).1 (s + t)) ∧
    ∀ {x y : List (View (BitVec w))} {s t : List (BitVec w)}, Forall₂ XorShares x s →
      Forall₂ XorShares y t → ∀ coins : Coins F,
        Forall₂ XorShares (lowDepthBinaryAddMany x y coins).1 (List.zipWith (· + ·) s t) :=
  ⟨fun hx hy => lowDepthBinaryAdd_spec hx hy, fun hx hy => lowDepthBinaryAddMany_spec hx hy⟩

/-- Sums of bytes that wrap around. -/
theorem low_depth_binary_add_correct_u8 :
    Ensures (XorShares · 44#8) (lowDepthBinaryAdd (.promoteToTrivialShare 200)
      (.promoteToTrivialShare 100) : Mpc Int _) ∧
    Ensures (Forall₂ XorShares · [44#8, 0#8])
      (lowDepthBinaryAddMany [.promoteToTrivialShare 200, .promoteToTrivialShare 255]
        [.promoteToTrivialShare 100, .promoteToTrivialShare 1] : Mpc Int _) :=
  ⟨fun coins => low_depth_binary_add_correct.1 (.promote 200#8) (.promote 100#8) coins,
    fun coins => low_depth_binary_add_correct.2
      (.cons (.promote _) (.cons (.promote _) .nil)) (.cons (.promote _) (.cons (.promote _) .nil))
        coins⟩

end Batches

end ProviaVM.Rep3
