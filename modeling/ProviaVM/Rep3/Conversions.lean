import ProviaVM.Rep3.FieldCast

/-! # Conversions between arithmetic and binary sharings

`rep3_ring/conversion.rs`: `a2b_many` and `b2a_many` on whole batches, beside the single
`a2b` and `b2a`. The carry tree runs `ilog2` of the width many rounds, which is enough
for the widths it asserts. -/
namespace ProviaVM.Rep3.Conversions
open Preprocessing List

section Rings

variable {F : Type} [Ring F] {w : Nat}

def a2bMany (xs : List (View (BitVec w))) : Mpc F (List (View (BitVec w))) := do
  let rs ← xs.mapM fun _ => binaryMask w
  lowDepthBinaryAddMany (xs.zipWith a2bSum rs) (xs.map a2bRest)

def b2aMany (xs : List (View (BitVec w))) : Mpc F (List (View (BitVec w))) := do
  let rs ← xs.mapM fun _ => binaryMask w
  let ks ← xs.mapM fun _ => do
    let k2 ← bitcomp w
    let k3 ← bitcomp w
    return (k2, k3)
  let zs ← lowDepthBinaryAddMany xs (ks.zipWith b2aMask rs)
  return ks.zipWith b2aResult zs

/-- The operands of the adder of a batch. -/
theorem a2b_operands :
    ∀ {xs : List (View (BitVec w))} {ss : List (BitVec w)} {rs : List (PartyID → BitVec w)},
    Forall₂ SumShares xs ss → Forall₂ (fun r _ => parity r = 0) rs ss →
      ∃ t u, Forall₂ XorShares (xs.zipWith a2bSum rs) t ∧ Forall₂ XorShares (xs.map a2bRest) u ∧
        List.zipWith (· + ·) t u = ss
  | _, _, _, .nil, .nil => ⟨[], [], .nil, .nil, rfl⟩
  | _, _, _, .cons first later, .cons zero zeros => by
    obtain ⟨t, u, sums, rests, total⟩ := a2b_operands later zeros
    exact ⟨_ :: t, _ :: u, .cons (a2bSum_shares _ zero) sums,
      .cons (a2bRest_shares first.replicated) rests, congrArg₂ _ (a2b_total first) total⟩

theorem a2bMany_spec [PowerOfTwo w] {xs : List (View (BitVec w))} {ss : List (BitVec w)}
    (h : Forall₂ SumShares xs ss) :
    Ensures (Forall₂ XorShares · ss) (a2bMany xs : Mpc F _) := by
  refine Ensures.bind (Ensures.mapM (fun _ _ _ => binaryMask_spec) h) fun rs zeros => ?_
  obtain ⟨t, u, sums, rests, total⟩ := a2b_operands h zeros
  rw [← total]
  exact lowDepthBinaryAddMany_spec sums rests

theorem b2a_masks :
    ∀ {ss : List (BitVec w)} {rs : List (PartyID → BitVec w)} {ks : List (BitVec w × BitVec w)},
    Forall₂ (fun r _ => parity r = 0) rs ss → Forall₂ (fun _ _ => True) ks ss →
      Forall₂ XorShares (ks.zipWith b2aMask rs) (ks.map fun k => k.1 + k.2)
  | _, _, _, .nil, .nil => .nil
  | _, _, _, .cons zero zeros, .cons _ known =>
    .cons (b2aMask_shares _ zero) (b2a_masks zeros known)

theorem b2a_results :
    ∀ {ss : List (BitVec w)} {zs : List (View (BitVec w))} {ks : List (BitVec w × BitVec w)},
    Forall₂ (fun _ _ => True) ks ss →
      Forall₂ XorShares zs (ss.zipWith (· + ·) (ks.map fun k => k.1 + k.2)) →
      Forall₂ SumShares (ks.zipWith b2aResult zs) ss
  | _, _, _, .nil, .nil => .nil
  | _, _, _, .cons _ known, .cons opened later =>
    .cons (b2aResult_shares opened) (b2a_results known later)

theorem b2aMany_spec [PowerOfTwo w] {xs : List (View (BitVec w))} {ss : List (BitVec w)}
    (h : Forall₂ XorShares xs ss) :
    Ensures (Forall₂ SumShares · ss) (b2aMany xs : Mpc F _) := by
  refine Ensures.bind (Ensures.mapM (fun _ _ _ => binaryMask_spec) h) fun rs zeros => ?_
  refine Ensures.bind (Ensures.mapM (S := fun _ _ => True) (fun _ _ _ _ => trivial) h)
    fun ks known => ?_
  exact Ensures.bind (lowDepthBinaryAddMany_spec h (b2a_masks zeros known)) fun zs opened =>
    Ensures.pure (b2a_results known opened)

/-- Both conversions keep the value, for one element and for a batch, so that each undoes the
other. -/
theorem conversions_keep_value [PowerOfTwo w] :
    (∀ {x : View (BitVec w)} {s : BitVec w}, SumShares x s →
      Ensures (XorShares · s) (a2b x : Mpc F _) ∧
        Ensures (SumShares · s) (a2b x >>= b2a : Mpc F _)) ∧
    (∀ {x : View (BitVec w)} {s : BitVec w}, XorShares x s →
      Ensures (SumShares · s) (b2a x : Mpc F _) ∧
        Ensures (XorShares · s) (b2a x >>= a2b : Mpc F _)) ∧
    (∀ {xs : List (View (BitVec w))} {ss : List (BitVec w)}, Forall₂ SumShares xs ss →
      Ensures (Forall₂ XorShares · ss) (a2bMany xs : Mpc F _)) ∧
    ∀ {xs : List (View (BitVec w))} {ss : List (BitVec w)}, Forall₂ XorShares xs ss →
      Ensures (Forall₂ SumShares · ss) (b2aMany xs : Mpc F _) :=
  ⟨fun h => ⟨a2b_spec h, Ensures.bind (a2b_spec h) fun _ => b2a_spec⟩,
    fun h => ⟨b2a_spec h, Ensures.bind (b2a_spec h) fun _ => a2b_spec⟩, a2bMany_spec, b2aMany_spec⟩

theorem conversions_keep_value_u8 :
    Ensures (SumShares · 200#8) (b2a (.promoteToTrivialShare 200) : Mpc Int _) :=
  (conversions_keep_value.2.1 (XorShares.promote 200#8)).1

def zeroCoins : Coins Int where
  ring _ _ := 0
  field _ _ := 0
  edaBits _ _ := ⟨0, fun _ => 0, fun _ => 0, by simp⟩
  daBits _ := ⟨false, false, fun _ => ⟨0, 0⟩, fun _ => rfl, by simp [total]⟩

/-- In the ring of 34 bits the carry of `2 ^ 34 - 1 + 0 + 1` does not reach the last bit. -/
theorem a2b_u34_differs : ¬ ∀ {x : View (BitVec 34)} {s : BitVec 34}, SumShares x s →
    Ensures (XorShares · s) (a2b x : Mpc Int _) := by
  intro keeps
  let x : View (BitVec 34) := .reshare (PartyID.rec 0x3FFFFFFFF 0 1)
  have opens := (keeps (x := x) (s := 0) ⟨replicated_reshare _, by decide⟩ zeroCoins).opens
  exact absurd opens (by decide +kernel)

end Rings

end ProviaVM.Rep3.Conversions
