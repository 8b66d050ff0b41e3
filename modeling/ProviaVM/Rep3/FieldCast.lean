import Mathlib.Algebra.BigOperators.Ring.Finset
import Mathlib.Tactic.LinearCombination
import ProviaVM.Rep3.Batches

/-! # From shared words to shared field elements

`r2f_b2a_preproc_many_into` (`rep3_ring/casts.rs`) converts an XOR-shared word with an
edaBit, `bit_inject_field_preproc_many` (`rep3_ring/conversion.rs`) a bit with a daBit.
`FutureRep3Ring` (`provia-worker/src/utils/future_ring.rs`) is a result whose conversion
is still to be done; fulfilling it opens to the value it stands for. -/
namespace ProviaVM.Rep3
open Preprocessing

theorem sum_testBit (x n : Nat) :
    ∑ i ∈ Finset.range n, 2 ^ i * (x.testBit i).toNat = x % 2 ^ n := by
  induction n with
  | zero => simp [Nat.mod_one]
  | succ n ih => rw [Finset.sum_range_succ, ih, Nat.mod_pow_succ, Nat.toNat_testBit]

section Casts

variable {F : Type} [CommRing F] {K : Nat}

def takeEdaBit (K : Nat) : Mpc F (EdaBit F K) := fun c =>
  (c.edaBits K 0,
    { c with edaBits := fun k n => if k = K then c.edaBits k (n + 1) else c.edaBits k n })

def takeDaBit : Mpc F (DaBit F) :=
  fun c => (c.daBits 0, { c with daBits := fun n => c.daBits (n + 1) })

def maskingFieldElement : Mpc F (PartyID → F) := fun c =>
  (fun p => c.field 0 p - c.field 0 p.prev, { c with field := fun n => c.field (n + 1) })

theorem maskingFieldElement_spec :
    Ensures (fun z => total z = 0) (maskingFieldElement : Mpc F _) := by
  intro c
  simp only [maskingFieldElement, total, PartyID.prev]
  ring

/-- The loop over the bits: `pow2[i] * (if beta_bit { -alpha } else { alpha })`. -/
def signedSum (beta : BitVec K) (alpha : Nat → F) : F :=
  ∑ i ∈ Finset.range K, 2 ^ i * (if beta.getLsbD i then -alpha i else alpha i)

/-- `r2f_b2a_preproc_many_into` on one element. -/
def r2fB2aPreproc (x : View (BitVec K)) : Mpc F (View F) := do
  let eda ← takeEdaBit K
  let m := (x .ID0).a ^^^ (x .ID0).b ^^^ eda.gamma
  let z ← maskingFieldElement
  let beta1 := m ^^^ (x .ID1).a
  let beta2 := m ^^^ (x .ID2).b
  return .reshare fun
    | .ID0 => z .ID0
    | .ID1 => (signedSum beta1 eda.alpha1 + (beta1.toNat : F)) + z .ID1
    | .ID2 => signedSum beta2 eda.alpha2 + z .ID2

/-- Flipping the sign of a mask bit where the masked bit is set recovers the bit. -/
theorem signedSum_related (eda : EdaBit F K) (s : BitVec K) :
    signedSum (s ^^^ eda.gamma) eda.alpha1 + signedSum (s ^^^ eda.gamma) eda.alpha2 +
      ((s ^^^ eda.gamma).toNat : F) = (s.toNat : F) := by
  have value : ∀ v : BitVec K, (v.toNat : F) = ∑ i ∈ Finset.range K,
      2 ^ i * ((v.getLsbD i).toNat : F) := by
    intro v
    have bits := sum_testBit v.toNat K
    rw [Nat.mod_eq_of_lt v.isLt] at bits
    conv_lhs => rw [← bits]
    push_cast
    rfl
  rw [value, value, signedSum, signedSum, ← Finset.sum_add_distrib, ← Finset.sum_add_distrib]
  refine Finset.sum_congr rfl fun i inside => ?_
  have related := eda.related i (Finset.mem_range.mp inside)
  rw [BitVec.getLsbD_xor]
  cases s.getLsbD i <;> cases hg : eda.gamma.getLsbD i <;>
    simp only [hg, Bool.toNat_true, Bool.toNat_false] at related <;> simp
  · linear_combination (2 : F) ^ i * related
  · linear_combination -(2 : F) ^ i * related
  · linear_combination -(2 : F) ^ i * related
  · linear_combination (2 : F) ^ i * related

theorem r2fB2aPreproc_spec {x : View (BitVec K)} {s : BitVec K} (h : XorShares x s) :
    Ensures (SumShares · (s.toNat : F)) (r2fB2aPreproc x : Mpc F _) := by
  refine Ensures.after fun eda => ?_
  refine Ensures.bind maskingFieldElement_spec fun z zero => Ensures.pure ⟨replicated_reshare _, ?_⟩
  have beta1 : (x .ID0).a ^^^ (x .ID0).b ^^^ eda.gamma ^^^ (x .ID1).a = s ^^^ eda.gamma := by
    rw [← h.opens, h.replicated .ID0, parity]
    ac_rfl
  have beta2 : (x .ID0).a ^^^ (x .ID0).b ^^^ eda.gamma ^^^ (x .ID2).b = s ^^^ eda.gamma := by
    rw [h.replicated .ID2]
    exact beta1
  simp only [total, View.reshare, beta1, beta2] at zero ⊢
  linear_combination signedSum_related eda s + zero

/-- `bit_inject_field_preproc_many` on one element: `m0` and `m1` are the broadcast bits. -/
def bitInjectFieldPreproc (x : View (BitVec 1)) : Mpc F (View F) := do
  let batch ← takeDaBit
  let bit (v : BitVec 1) : Bool := v.getLsbD 0
  let m0 := bit (x .ID0).a ^^ bit (x .ID0).b ^^ batch.gamma
  let m1 := bit (x .ID1).a ^^ batch.theta
  let sign (sigma : Bool) : F := if sigma then -1 else 1
  let sigma0 := m1 ^^ bit (x .ID0).a ^^ bit (x .ID0).b ^^ batch.gamma
  let beta1 := m0 ^^ bit (x .ID1).a
  let beta2 := m0 ^^ bit (x .ID2).b
  return fun
    | .ID0 => ⟨(batch.v .ID0).a * sign sigma0, (batch.v .ID0).b * sign sigma0⟩
    | .ID1 => ⟨(batch.v .ID1).a * sign (beta1 ^^ batch.theta) + (beta1.toNat : F),
        (batch.v .ID1).b * sign (beta1 ^^ batch.theta)⟩
    | .ID2 => ⟨(batch.v .ID2).a * sign (beta2 ^^ batch.theta),
        (batch.v .ID2).b * sign (beta2 ^^ batch.theta) + (beta2.toNat : F)⟩

/-- One masked bit each from P0 and P1 tells every party the sign of its daBit share. -/
theorem bitInjectFieldPreproc_spec {x : View (BitVec 1)} {s : Bool}
    (h : XorShares x (BitVec.ofBool s)) :
    Ensures (SumShares · (s.toNat : F)) (bitInjectFieldPreproc x : Mpc F _) := by
  refine Ensures.after fun batch => Ensures.pure ?_
  have opens : s = ((x .ID0).a.getLsbD 0 ^^ (x .ID1).a.getLsbD 0 ^^ (x .ID2).a.getLsbD 0) := by
    have bit := congrArg (·.getLsbD 0) h.opens
    simpa [parity] using bit.symm
  have b0 : (x .ID0).b = (x .ID2).a := h.replicated .ID0
  have b2 : (x .ID2).b = (x .ID1).a := h.replicated .ID2
  -- `beta` is the bit masked by `gamma`, and all parties see the same `sigma`
  have beta1 :
    ((x .ID0).a.getLsbD 0 ^^ (x .ID0).b.getLsbD 0 ^^ batch.gamma ^^ (x .ID1).a.getLsbD 0) =
      (s ^^ batch.gamma) := by
    rw [opens, b0]
    simp only [Bool.xor_assoc, Bool.xor_comm, Bool.xor_left_comm]
  have beta2 :
    ((x .ID0).a.getLsbD 0 ^^ (x .ID0).b.getLsbD 0 ^^ batch.gamma ^^ (x .ID2).b.getLsbD 0) =
      (s ^^ batch.gamma) := by
    rw [b2]
    exact beta1
  have sigma0 :
    ((x .ID1).a.getLsbD 0 ^^ batch.theta ^^ (x .ID0).a.getLsbD 0 ^^ (x .ID0).b.getLsbD 0 ^^
      batch.gamma) = (s ^^ batch.gamma ^^ batch.theta) := by
    rw [opens, b0]
    simp only [Bool.xor_assoc, Bool.xor_comm, Bool.xor_left_comm]
  simp only [beta1, beta2, sigma0]
  refine ⟨fun p => ?_, ?_⟩
  · cases p
    · simp only [PartyID.prev, batch.related.replicated .ID0]
    · simp only [PartyID.prev, batch.related.replicated .ID1]
    · simp only [PartyID.prev, batch.related.replicated .ID2]
  · have sum := batch.related.opens
    simp only [total] at sum ⊢
    cases s <;> cases hg : batch.gamma <;> cases ht : batch.theta <;> simp [hg, ht] at sum ⊢ <;>
      first | linear_combination sum | linear_combination -sum

def arithmeticXor (x y : View F) : Mpc F (View F) := do
  let z ← maskingFieldElement
  return .reshare fun p => (x p).a + (y p).a - 2 * ((x p).localMul (y p) + z p)

theorem arithmeticXor_spec {x y : View F} {s t : F} (hx : SumShares x s) (hy : SumShares y t) :
    Ensures (SumShares · (s + t - 2 * (s * t))) (arithmeticXor x y : Mpc F _) := by
  refine Ensures.bind maskingFieldElement_spec fun z zero => Ensures.pure ⟨replicated_reshare _, ?_⟩
  have product := total_localMul hx hy
  have first := hx.opens
  have second := hy.opens
  simp only [total, View.reshare] at zero product first second ⊢
  linear_combination first + second - 2 * product - 2 * zero

/-- The component of one party as a field share of its own: the other two components are zero. -/
def fieldComponent (x : View (BitVec 1)) (owner : PartyID) : View F := fun p =>
  ⟨if p = owner then ((x p).a.toNat : F) else 0, if p.prev = owner then ((x p).b.toNat : F) else 0⟩

theorem fieldComponent_shares {x : View (BitVec 1)} (h : Replicated x) (owner : PartyID) :
    SumShares (fieldComponent x owner : View F) (((x owner).a.toNat : Nat) : F) := by
  refine ⟨fun p => ?_, ?_⟩
  · simp only [fieldComponent, h p]
  · cases owner <;> simp [total, fieldComponent]

def bitInjectFromBitsToFieldMany (xs : List (View (BitVec 1))) : Mpc F (List (View F)) := do
  let d ← xs.mapM fun x => arithmeticXor (fieldComponent x .ID0) (fieldComponent x .ID1)
  (d.zip xs).mapM fun v => arithmeticXor v.1 (fieldComponent v.2 .ID2)

theorem cast_xor_bits (s t : BitVec 1) :
    ((s ^^^ t).toNat : F) = s.toNat + t.toNat - 2 * (s.toNat * t.toNat) := by
  have bits : ∀ v : BitVec 1, v = 0 ∨ v = 1 := by decide
  rcases bits s with rfl | rfl <;> rcases bits t with rfl | rfl <;> simp
  norm_num

/-- The whole batch, in the order of its entries. -/
theorem bitInjectFromBitsToFieldMany_spec {ι : Type} {bit : ι → BitVec 1}
    {xs : List (View (BitVec 1))} {items : List ι}
    (h : List.Forall₂ (fun x c => XorShares x (bit c)) xs items) :
    Ensures (List.Forall₂ (fun z c => SumShares z ((bit c).toNat : F)) · items)
      (bitInjectFromBitsToFieldMany xs) := by
  -- each element is tracked together with its own sharing
  have own : List.Forall₂ (fun x v => x = v.1 ∧ XorShares v.1 (bit v.2)) xs (xs.zip items) := by
    induction h with
    | nil => exact .nil
    | cons first _ ih => exact .cons ⟨rfl, first⟩ ih
  have step : ∀ (x : View (BitVec 1)) (v : View (BitVec 1) × ι), x = v.1 ∧ XorShares v.1 (bit v.2) →
      Ensures (SumShares · (((v.1 .ID0).a ^^^ (v.1 .ID1).a).toNat : F))
        (arithmeticXor (fieldComponent x .ID0) (fieldComponent x .ID1)) := by
    rintro _ v ⟨rfl, shares⟩
    rw [cast_xor_bits]
    exact arithmeticXor_spec (fieldComponent_shares shares.replicated _)
      (fieldComponent_shares shares.replicated _)
  refine Ensures.bind (Ensures.mapM step own) fun d firsts => ?_
  have pairs : List.Forall₂ (fun (w : View F × View (BitVec 1)) (v : View (BitVec 1) × ι) =>
      SumShares w.1 (((v.1 .ID0).a ^^^ (v.1 .ID1).a).toNat : F) ∧ w.2 = v.1 ∧
        XorShares v.1 (bit v.2))
      (d.zip xs) (xs.zip items) :=
        forall₂_zipWith_same (fun _ _ _ first own => ⟨first, own⟩) firsts own
  have last : ∀ (w : View F × View (BitVec 1)) (v : View (BitVec 1) × ι),
      SumShares w.1 (((v.1 .ID0).a ^^^ (v.1 .ID1).a).toNat : F) ∧ w.2 = v.1 ∧
        XorShares v.1 (bit v.2) →
      Ensures (SumShares · ((bit v.2).toNat : F))
        (arithmeticXor w.1 (fieldComponent w.2 .ID2)) := by
    rintro ⟨w, x⟩ v ⟨first, rfl, shares⟩
    rw [← shares.opens, parity, cast_xor_bits]
    exact arithmeticXor_spec first (fieldComponent_shares shares.replicated _)
  have values := Ensures.mapM last pairs
  refine values.imp fun zs opened => ?_
  have names : (xs.zip items).map Prod.snd = items := List.map_snd_zip h.length_eq.ge
  rw [← names, List.forall₂_map_right_iff]
  exact opened

/-- `FutureRep3Ring` into the field: a finished share, or an operation on a word of `K` bits. -/
inductive FutureRep3Ring (F : Type) (K : Nat) where
  | ready (x : View F)
  | bitInject (x : View (BitVec 1))
  | castToField (x : View (BitVec K))
  | castToFieldB2A (x : View (BitVec K))

/-- `fulfill_batched_with_pool` on one future. -/
def FutureRep3Ring.fulfill : FutureRep3Ring F K → Mpc F (View F)
  | .ready x => pure x
  | .bitInject x => bitInjectFieldPreproc x
  | .castToField x => do
    let binary ← a2b x
    r2fB2aPreproc binary
  | .castToFieldB2A x => r2fB2aPreproc x

inductive FutureRep3Ring.StandsFor : FutureRep3Ring F K → F → Prop
  | ready {x : View F} {s : F} (h : SumShares x s) : StandsFor (.ready x) s
  | bitInject {x : View (BitVec 1)} {s : Bool} (h : XorShares x (BitVec.ofBool s)) :
    StandsFor (.bitInject x) (s.toNat : F)
  | castToField {x : View (BitVec K)} {s : BitVec K} (h : SumShares x s) :
    StandsFor (.castToField x) (s.toNat : F)
  | castToFieldB2A {x : View (BitVec K)} {s : BitVec K} (h : XorShares x s) :
    StandsFor (.castToFieldB2A x) (s.toNat : F)

theorem FutureRep3Ring.fulfill_spec [PowerOfTwo K] {x : FutureRep3Ring F K} {s : F}
    (h : x.StandsFor s) :
    Ensures (SumShares · s) x.fulfill := by
  cases h with
  | ready h => exact Ensures.pure h
  | bitInject h => exact bitInjectFieldPreproc_spec h
  | castToField h => exact Ensures.bind (a2b_spec h) fun _ binary => r2fB2aPreproc_spec binary
  | castToFieldB2A h => exact r2fB2aPreproc_spec h

end Casts

end ProviaVM.Rep3
