import ProviaVM.Poly.OneHotCommit
import ProviaVM.Poly.SplitEq

/-! # The opening reduction of a shared one-hot polynomial

`Rep3OneHotPolynomialProverOpening` of `one_hot_polynomial.rs`: the sumcheck of
`ra(k, j) * eq(r_address, k) * eq(r_cycle, j)`. The address rounds use a table `G` of the
cycle weights at each address, the cycle rounds the lookups `H` of the bound addresses. The
parties run the same computation on their shares. -/
namespace ProviaVM.Poly
open Preprocessing Rep3 Scatter Multilinear GruenSplitEqPolynomial Finset List Option Nat Prod

variable {F : Type} [Field F]

namespace OneHotShare

/-! ## The table of the address rounds -/

def chunkSize (threads : Nat) (self : OneHotShare F) : Nat :=
  let t := self.maskedIndicesC.length
  let numChunks := max 1 (min threads.nextPowerOfTwo t)
  max 1 (t / numChunks)

def chunkCount (threads : Nat) (self : OneHotShare F) : Nat :=
  (self.maskedIndicesC.length + self.chunkSize threads - 1) / self.chunkSize threads

def chunkLength (threads : Nat) (self : OneHotShare F) (chunkIndex : Nat) : Nat :=
  min (self.chunkSize threads) (self.maskedIndicesC.length - chunkIndex * self.chunkSize threads)

/-- Weights of the cycles by masked index, for a single rotation slot. -/
def histogram (threads : Nat) (self : OneHotShare F) (eqCycle : List F) : List F :=
  (List.range (self.chunkCount threads)).foldl (fun acc chunkIndex =>
    let chunkStart := chunkIndex * self.chunkSize threads
    List.zipWith (· + ·) acc (scatter (self.chunkLength threads chunkIndex)
      (fun offset => self.masked (chunkStart + offset))
      (fun offset => eqCycle.getD (chunkStart + offset) 0) (List.replicate self.K 0)))
        (List.replicate self.K 0)

def histogramSlots (threads : Nat) (self : OneHotShare F) (eqCycle : List F) : List (List F) :=
  (List.range (self.chunkCount threads)).foldl (fun acc chunkIndex =>
    let chunkStart := chunkIndex * self.chunkSize threads
    List.zipWith (List.zipWith (· + ·)) acc (scatterRows (self.chunkLength threads chunkIndex)
      (fun offset => self.slotted (chunkStart + offset))
        (fun offset => eqCycle.getD (chunkStart + offset) 0)
      (List.replicate self.numRotationSlots (List.replicate self.K 0))))
    (List.replicate self.numRotationSlots (List.replicate self.K 0))

/-- Address `k` of one slot: `Σ_c g_c[c] * e_field[c ^ k]`. -/
def slotEntry (self : OneHotShare F) (gC : List F) (slot k : Nat) : Rep3Share F :=
  ∑ c ∈ Finset.range self.K,
    gC.getD c 0 • (self.randOhvEFields.getD slot []).getD
      (BitVec.ofNat 8 c ^^^ BitVec.ofNat 8 k).toNat 0

/-- `compute_g_from_masked_indices`; `none` is a failed assertion. -/
def computeGFromMaskedIndices (threads : Nat) (self : OneHotShare F) (eqCycle : List F) :
    Option (List (Rep3Share F)) :=
  if eqCycle.length ≠ self.maskedIndicesC.length then none
  else if self.randOhvEFields.isEmpty ∨ ¬ self.randOhvEFields.all (fun e => e.length = self.K) then
    none
  else if self.numRotationSlots = 1 then
    some ((List.range self.K).map fun k => self.slotEntry (self.histogram threads eqCycle) 0 k)
  else
    let gC := self.histogramSlots threads eqCycle
    some ((List.range self.K).map fun k => ∑ slot ∈ Finset.range gC.length,
      self.slotEntry (gC.getD slot []) slot k)

end OneHotShare

/-! ## The prover -/

/-- `EqAddressState`: `B` is `eq(r_address, ·)` with the bound coordinates, `expanding` is the table
of the challenges. -/
structure EqAddressState (F : Type) where
  B : List F
  expanding : List F

structure EqCycleState (F : Type) where
  D : GruenSplitEqPolynomial F
  w : List F
  numVariablesBound : Nat

/-- `Rep3OneHotPolynomialProverOpening` as one party holds it. -/
structure ProverOpening (F : Type) where
  polynomial : OneHotShare F
  G : List (Rep3Share F)
  H : Rep3RaPolynomial (Rep3Share F)
  eqAddressState : EqAddressState F
  eqCycleState : EqCycleState F

def tryInverse [DecidableEq F] (x : F) : Option F := if x = 0 then none else some x⁻¹

def expand (r : F) (values : List F) : List F := values.flatMap fun v => [v - r * v, r * v]

section Rounds

variable {M : Type} [AddCommGroup M] [Module F M]

/-- What one address contributes to the inner sums at 0 and 2, by the bit of the round. -/
def addressStep (G : List M) (expanding : List F) (unbound kPrime half : Nat) (inner : M × M)
    (step : Nat) : Option (M × M) := do
  let k := kPrime + step * half
  let gK ← G[k]?
  let fK ← expanding[k >>> unbound]?
  let gTimesF := fK • gK
  return if (k >>> (unbound - 1)) &&& 1 = 0 then (inner.1 + gTimesF, inner.2 - gTimesF)
    else (inner.1, inner.2 + (gTimesF + gTimesF))

/-- An address round of `compute_prover_message`. -/
def addressMessage (B expanding : List F) (G : List M) (logK round : Nat) : Option (M × M) :=
  let unbound := logK - round
  let half := B.length / 2
  sumM half fun kPrime => do
    let eval0 ← B[kPrime]?
    let eval1 ← B[kPrime + half]?
    let eval2 := eval1 + (eval1 - eval0)
    -- `G.iter().enumerate().skip(k_prime).step_by(half)`
    let inner ← (List.range ((G.length - kPrime + half - 1) / half)).foldlM
      (addressStep G expanding unbound kPrime half) (0, 0)
    return (eval0 • inner.1, eval2 • inner.2)

end Rounds

namespace ProverOpening

/-- `Rep3OneHotPolynomialProverOpening::new`; `none` is a failed assertion or a panic. -/
def new (threads : Nat) (polynomial : OneHotShare F) (rAddress rCycle : List F) :
    Option (ProverOpening F) :=
  if polynomial.K ≠ 2 ^ rAddress.length ∨ polynomial.maskedIndicesC.length ≠ 2 ^ rCycle.length then
    none
  else do
    let G ← polynomial.computeGFromMaskedIndices threads (eqEvals rCycle)
    let D ← GruenSplitEqPolynomial.new rCycle
    return { polynomial, G, H := .none, eqAddressState := ⟨eqEvals rAddress, [1]⟩,
             eqCycleState := ⟨D, rCycle, 0⟩ }

variable [DecidableEq F]

/-- `compute_prover_message_shared`: the party's additive shares of the round polynomial at 0 and
2. -/
def computeProverMessageShared (self : ProverOpening F) (round : Nat) (previousClaim : F) :
    Option (F × F) :=
  let logK := self.polynomial.K.log2
  if round < logK then do
    let (eval0, eval2) ← addressMessage self.eqAddressState.B self.eqAddressState.expanding
      self.G logK round
    return (intoAdditive eval0, intoAdditive eval2)
  else do
    let [eqRAddressClaim] := self.eqAddressState.B | none
    let q0 ← self.eqCycleState.D.innerSum self.H.getBoundCoeff
    let invEqR ← tryInverse eqRAddressClaim
    let previousNorm := previousClaim * invEqR
    let currentScalar := self.eqCycleState.D.currentScalar
    let wi ← self.eqCycleState.w[self.eqCycleState.numVariablesBound]?
    let eqEval1 := currentScalar * wi
    let eqEval0 := currentScalar - eqEval1
    let eqM := eqEval1 - eqEval0
    let eqEval2 := eqEval1 + eqM
    let eval0 := intoAdditive (eqEval0 • q0)
    let eval1 := previousNorm - eval0
    let invEq1 ← tryInverse eqEval1
    let q1 := eval1 * invEq1
    let q2 := q1 + q1 - intoAdditive q0
    let eval2 := q2 * eqEval2
    return (eval0 * eqRAddressClaim, eval2 * eqRAddressClaim)

/-- `Rep3RaPolynomial::new` or `new_shifted` on the tables of the bound addresses. -/
def lookups (polynomial : OneHotShare F) (tables : List (List (Rep3Share F))) :
    Option (Rep3RaPolynomial (Rep3Share F)) :=
  if polynomial.numRotationSlots = 1 then do
    return .round1 (← tables.head?) polynomial.maskedIndicesC
  else do
    let coeffs ← (polynomial.maskedIndicesC.zip polynomial.rotationSlotByCycle).mapM fun
      | (some i, some slot) => do (← tables[slot]?)[i.toNat]?
      | _ => some 0
    Rep3RaPolynomial.dense coeffs

/-- `bind`; `none` is a failed assertion or a panic. -/
def bind (arch : TargetArch) (self : ProverOpening F) (r : F) (round : Nat) :
    Option (ProverOpening F) :=
  let logK := self.polynomial.K.log2
  if round < logK then
    let self := { self with
      eqAddressState := ⟨bindTop r self.eqAddressState.B, expand r self.eqAddressState.expanding⟩ }
    if round = logK - 1 then
      if self.eqAddressState.expanding.length ≠ self.polynomial.K then none
      else do
        let tables ← self.polynomial.shiftedTables arch self.eqAddressState.expanding
        let H ← lookups self.polynomial tables
        return { self with H, G := [] }
    else some self
  else do
    let D ← self.eqCycleState.D.bind r
    let H ← self.H.bindParallel r
    let numVariablesBound := self.eqCycleState.numVariablesBound + 1
    return { self with H, eqCycleState := { self.eqCycleState with D, numVariablesBound } }

def finalSumcheckClaim (self : ProverOpening F) : Option (Rep3Share F) := self.H.finalSumcheckClaim

def reached (arch : TargetArch) (threads : Nat) (polynomial : OneHotShare F)
    (rAddress rCycle challenges : List F) :
    Option (ProverOpening F) := do
  let start ← new threads polynomial rAddress rCycle
  challenges.zipIdx.foldlM (fun self challenge => self.bind arch challenge.1 challenge.2) start

end ProverOpening

/-! ## The table is a sharing of the cycle weights -/

variable {κ : Nat} {poly : PartyID → OneHotShare F} {ks : List (Option Nat)} {slot mask : Nat → Nat}
  {slots : Nat}

section Table

omit [Field F] in
theorem OneHotShare.chunkSize_pos (threads : Nat) (self : OneHotShare F) :
    0 < self.chunkSize threads := by
  exact lt_max_of_lt_left Nat.one_pos

theorem OneHotShare.getD_histogram (threads : Nat) (self : OneHotShare F) (eqCycle : List F)
    {c : Nat} (inside : c < self.K) :
    (self.histogram threads eqCycle).getD c 0 =
      ∑ j ∈ Finset.range self.maskedIndicesC.length, if self.masked j = some c then eqCycle.getD j 0
        else 0 := by
  rw [histogram, getD_foldl_zipWith (fun s _ => by simp [length_scatter]) (length_replicate ..)
    inside, getD_replicate _ inside, zero_add,
    ← sum_chunks (t := self.maskedIndicesC.length) (self.chunkSize_pos threads)]
  refine Finset.sum_congr rfl fun i _ => ?_
  rw [getD_scatter _ _ _ (by rw [length_replicate]; exact inside), getD_replicate _ inside,
    zero_add]
  rfl

theorem OneHotShare.getD_histogramSlots (threads : Nat) (self : OneHotShare F) (eqCycle : List F)
    {s c : Nat} (own : s < self.numRotationSlots) (inside : c < self.K) :
    ((self.histogramSlots threads eqCycle).getD s []).getD c 0 =
      ∑ j ∈ Finset.range self.maskedIndicesC.length, if self.slotted j = some (s, c) then
        eqCycle.getD j 0 else 0 := by
  rw [histogramSlots, getD_foldl_rows (fun i _ => by simp [length_scatterRows])
    (length_replicate ..) own, getD_replicate _ own,
    getD_foldl_zipWith (fun i _ => length_scatterRows_zero _ _ _ own) (length_replicate ..) inside,
    getD_replicate _ inside, zero_add,
      ← sum_chunks (t := self.maskedIndicesC.length) (self.chunkSize_pos threads)]
  exact Finset.sum_congr rfl fun i _ => getD_scatterRows_zero _ _ _ own inside

theorem OneHotShare.length_histogramSlots (threads : Nat) (self : OneHotShare F)
    (eqCycle : List F) :
    (self.histogramSlots threads eqCycle).length = self.numRotationSlots := by
  exact length_foldl_zipWith (fun i _ => by simp [length_scatterRows]) (length_replicate ..)

def weightAt (ks : List (Option Nat)) (eqCycle : List F) (k : Nat) : F :=
  ∑ j ∈ Finset.range ks.length, if ks.getD j none = some k then eqCycle.getD j 0 else 0

variable (rep : Represents κ poly ks slot mask slots)
include rep

/-- A weight counts at the address that its masked index hides. -/
theorem slotEntry_shares {s k : Nat} (own : s < slots) (inside : k < 2 ^ κ)
    (gC : List F) : SumShares (fun p => (poly p).slotEntry gC s k) (gC.getD (k ^^^ mask s) 0) := by
  obtain ⟨maskIn, shares⟩ := rep.masks s own
  have wide : 2 ^ κ ≤ 2 ^ 8 := Nat.pow_le_pow_right (by omega) rep.width
  have each : ∀ c ∈ Finset.range (2 ^ κ), SumShares
      (fun p =>
        gC.getD c 0 • ((poly p).randOhvEFields.getD s []).getD
        (BitVec.ofNat 8 c ^^^ BitVec.ofNat 8 k).toNat 0)
      (gC.getD c 0 * if c ^^^ k = mask s then 1 else 0) := by
    intro c small
    have below := Finset.mem_range.mp small
    have index : (BitVec.ofNat 8 c ^^^ BitVec.ofNat 8 k).toNat = c ^^^ k := by
      rw [BitVec.toNat_xor, BitVec.toNat_ofNat, BitVec.toNat_ofNat, mod_eq_of_lt (by omega),
        mod_eq_of_lt (by omega)]
    have bound : c ^^^ k < 2 ^ κ := xor_lt_two_pow below inside
    have entry :=
      shares.entry (show c ^^^ k < (oneHot (2 ^ κ) (mask s) : List F).length by
      rw [length_oneHot]; exact bound)
    rw [getD_oneHot _ bound] at entry
    rw [index]
    exact entry.smul _
  have sum := SumShares.sum (Finset.range (2 ^ κ)) each
  have value : ∑ c ∈ Finset.range (2 ^ κ), gC.getD c 0 * (if c ^^^ k = mask s then (1 : F) else 0) =
      gC.getD (k ^^^ mask s) 0 := by
    rw [sum_eq_single (k ^^^ mask s)]
    · rw [if_pos (by rw [Nat.xor_comm k, xor_xor_cancel_right]), mul_one]
    · intro c _ other
      rw [if_neg, mul_zero]
      intro same
      exact other (by rw [← same, Nat.xor_comm c, xor_xor_cancel_left])
    · intro outside
      exact absurd (Finset.mem_range.mpr (xor_lt_two_pow inside maskIn)) outside
  rw [value] at sum
  simpa only [OneHotShare.slotEntry, rep.size] using sum

theorem Represents.histogram_eq (threads : Nat) (eqCycle : List F) (p q : PartyID) :
    (poly p).histogram threads eqCycle = (poly q).histogram threads eqCycle := by
  simp only [OneHotShare.histogram, OneHotShare.chunkCount, OneHotShare.chunkLength,
    OneHotShare.chunkSize, rep.cycles, rep.opened, rep.size]

theorem Represents.histogramSlots_eq (threads : Nat) (eqCycle : List F) (p q : PartyID) :
    (poly p).histogramSlots threads eqCycle = (poly q).histogramSlots threads eqCycle := by
  simp only [OneHotShare.histogramSlots, OneHotShare.chunkCount, OneHotShare.chunkLength,
    OneHotShare.chunkSize, rep.cycles, rep.slotted, rep.size, rep.slotCount]

/-- The histograms of all threads and slots, unmasked and added, share the cycle weights of every
address. -/
theorem computeG_shares (threads : Nat) {eqCycle : List F}
    (cycles : eqCycle.length = ks.length) :
    ∃ entry : PartyID → Nat → Rep3Share F,
      (∀ p, (poly p).computeGFromMaskedIndices threads eqCycle =
        some ((List.range (2 ^ κ)).map (entry p))) ∧
      ∀ k < 2 ^ κ, SumShares (fun p => entry p k) (weightAt ks eqCycle k) := by
  have assertion : ∀ p, ¬ eqCycle.length ≠ (poly p).maskedIndicesC.length := fun p => by
    rw [rep.cycles, cycles]; simp
  by_cases single : slots = 1
  · have own : 0 < slots := rep.positive
    refine ⟨fun p k => (poly p).slotEntry ((poly .ID0).histogram threads eqCycle) 0 k,
      fun p => ?_, fun k inside => ?_⟩
    · rw [OneHotShare.computeGFromMaskedIndices, if_neg (assertion p),
        if_neg (rep.fields_checked p), if_pos (by rw [rep.slotCount, single]), rep.size,
        rep.histogram_eq threads eqCycle p .ID0]
    · have maskIn := (rep.masks 0 own).1
      have value : weightAt ks eqCycle k =
          ((poly .ID0).histogram threads eqCycle).getD (k ^^^ mask 0) 0 := by
        rw [OneHotShare.getD_histogram _ _ _ (by rw [rep.size]; exact xor_lt_two_pow inside maskIn),
          rep.cycles]
        refine Finset.sum_congr rfl fun j _ => if_congr ?_ rfl rfl
        rw [rep.opened]
        cases active : ks.getD j none with
        | none => simp
        | some k' =>
          have zero : slot j = 0 := by
            have := (rep.active .ID0 j k' active).2.1
            omega
          simp [zero]
      rw [value]
      exact slotEntry_shares rep own inside _
  · refine ⟨fun p k => ∑ s ∈ Finset.range slots,
      (poly p).slotEntry (((poly .ID0).histogramSlots threads eqCycle).getD s []) s k,
      fun p => ?_, fun k inside => ?_⟩
    · rw [OneHotShare.computeGFromMaskedIndices, if_neg (assertion p),
        if_neg (rep.fields_checked p), if_neg (by rw [rep.slotCount]; exact single), rep.size,
        rep.histogramSlots_eq threads eqCycle p .ID0]
      simp only [OneHotShare.length_histogramSlots, rep.slotCount]
    · have value : weightAt ks eqCycle k = ∑ s ∈ Finset.range slots,
          (((poly .ID0).histogramSlots threads eqCycle).getD s []).getD (k ^^^ mask s) 0 := by
        have each : ∀ s ∈ Finset.range slots,
          (((poly .ID0).histogramSlots threads eqCycle).getD s []).getD (k ^^^ mask s) 0 =
            ∑ j ∈ Finset.range ks.length, if ks.getD j none = some k ∧ slot j = s then
              eqCycle.getD j 0 else 0 := by
          intro s own
          have own := Finset.mem_range.mp own
          rw [OneHotShare.getD_histogramSlots _ _ _ (by rw [rep.slotCount]; exact own)
            (by rw [rep.size]; exact xor_lt_two_pow inside (rep.masks s own).1), rep.cycles]
          exact Finset.sum_congr rfl fun j _ => if_congr (rep.meets .ID0 j s) rfl rfl
        rw [Finset.sum_congr rfl each, sum_comm]
        refine Finset.sum_congr rfl fun j _ => ?_
        by_cases active : ks.getD j none = some k
        · have own := (rep.active .ID0 j k active).2.1
          simp only [active, true_and, if_true]
          rw [Finset.sum_ite_eq, if_pos (Finset.mem_range.mpr own)]
        · simp only [active, false_and, if_false, Finset.sum_const_zero]
      rw [value]
      exact SumShares.sum _ fun s own => slotEntry_shares rep (Finset.mem_range.mp own) inside _

end Table

/-! ## Address rounds -/

theorem expand_eqEvals (r : F) (rs : List F) : expand r (eqEvals rs) = eqEvals (rs ++ [r]) := by
  rw [eqEvals, eqEvals, foldl_append, foldl_cons]
  exact congrArg (List.flatMap · _) (funext fun v => by rw [mul_comm])

section AddressRound

variable {M : Type} [AddCommGroup M] [Module F M]

def addressTerm (r : List F) (g : Nat → M) (m a h : Nat) : M × M :=
  let gTimesF := (eqEvals r).getD (h / 2) 0 • g (h * 2 ^ m + a)
  if h % 2 = 0 then (gTimesF, -gTimesF) else (0, gTimesF + gTimesF)

/-- One step of the address fold adds what the entry contributes to the values at 0 and 2. -/
theorem addressStep_eq {r : List F} {m a h : Nat} (g : Nat → M) (place : a < 2 ^ m)
    (below : h < 2 ^ (r.length + 1)) (acc : M × M) :
    addressStep ((List.range (2 ^ (r.length + (m + 1)))).map g) (eqEvals r) (m + 1) a
      (2 ^ m) acc h =
      some (acc + addressTerm r g m a h) := by
  have inside : h * 2 ^ m + a < 2 ^ (r.length + (m + 1)) := by
    have := Nat.mul_le_mul_right (2 ^ m) (succ_le_of_lt below)
    rw [succ_mul, ← pow_add, show r.length + 1 + m = r.length + (m + 1) by omega] at this
    omega
  have high : (h * 2 ^ m + a) >>> m = h := by
    rw [Nat.shiftRight_eq_div_pow, Nat.mul_comm, Nat.mul_add_div (Nat.two_pow_pos m),
      Nat.div_eq_of_lt place, Nat.add_zero]
  have half : (h * 2 ^ m + a) >>> (m + 1) = h / 2 := by
    rw [Nat.shiftRight_add, high, Nat.shiftRight_one]
  have small : h / 2 < 2 ^ r.length := by omega
  rw [addressStep, Nat.add_comm a, half, Nat.add_sub_cancel, high, Nat.and_one_is_mod, getElem?_map,
    List.getElem?_range inside, getElem?_eqEvals small]
  simp only [Option.map_some, Option.bind_eq_bind, Option.bind_some, Option.pure_def, addressTerm]
  by_cases even : h % 2 = 0
  · simp only [even, sub_eq_add_neg]
    rfl
  · simp only [even, if_false]
    rw [mk_add_mk, add_zero]

/-- The inner sums are the values of the bound table at 0 and 2. -/
theorem sum_addressTerm (r : List F) (g : Nat → M) (m a : Nat) :
    ∑ h ∈ Finset.range (2 ^ (r.length + 1)),
      addressTerm r g m a h = (bound m g (r ++ [0]) a, bound m g (r ++ [2]) a) := by
  have pair : ∀ h, addressTerm r g m a (h * 2) + addressTerm r g m a (h * 2 + 1) =
      ((eqEvals r).getD h 0 • ((1 - 0 : F) • g (2 * h * 2 ^ m + a) +
        (0 : F) • g ((2 * h + 1) * 2 ^ m + a)),
        (eqEvals r).getD h 0 • ((1 - 2 : F) • g (2 * h * 2 ^ m + a) +
          (2 : F) • g ((2 * h + 1) * 2 ^ m + a))) := by
    intro h
    rw [addressTerm, addressTerm, if_pos (by omega), if_neg (by omega), show h * 2 / 2 = h by omega,
      show (h * 2 + 1) / 2 = h by omega, Nat.mul_comm h 2, mk_add_mk]
    congr 1 <;> module
  rw [pow_succ, sum_blocks]
  simp only [Finset.sum_range_succ, Finset.sum_range_zero, zero_add, add_zero, pair]
  rw [bound, bound, extend_snoc, extend_snoc, extend_eq_sum, extend_eq_sum]
  exact Prod.ext fst_sum snd_sum

/-- An address round sends the round polynomial at 0 and 2. -/
theorem addressMessage_eq {r : List F} {m : Nat} (eA : Nat → F) (g : Nat → M) :
    addressMessage ((List.range (2 ^ (m + 1))).map (bound (m + 1) eA r)) (eqEvals r)
      ((List.range (2 ^ (r.length + (m + 1)))).map g) (r.length + (m + 1)) r.length =
      some (∑ a ∈ Finset.range (2 ^ m), bound m eA (r ++ [0]) a • bound m g (r ++ [0]) a,
        ∑ a ∈ Finset.range (2 ^ m), bound m eA (r ++ [2]) a • bound m g (r ++ [2]) a) := by
  have half : 2 ^ (m + 1) / 2 = 2 ^ m := by omega
  have steps :
      ∀ a < 2 ^ m, (2 ^ (r.length + (m + 1)) - a + 2 ^ m - 1) / 2 ^ m = 2 ^ (r.length + 1) := by
    intro a below
    rw [show r.length + (m + 1) = m + (r.length + 1) by omega, pow_add]
    have positive := Nat.two_pow_pos (r.length + 1)
    have large := Nat.mul_le_mul_left (2 ^ m) positive
    rw [show 2 ^ m * 2 ^ (r.length + 1) - a + 2 ^ m - 1 =
      2 ^ m * 2 ^ (r.length + 1) + (2 ^ m - 1 - a) by
      omega, Nat.mul_add_div (Nat.two_pow_pos m), Nat.div_eq_of_lt (by omega), Nat.add_zero]
  rw [addressMessage]
  simp only [length_map, length_range, half, Nat.add_sub_cancel_left]
  rw [sumM_some (v := fun a => (bound m eA (r ++ [0]) a • bound m g (r ++ [0]) a,
    bound m eA (r ++ [2]) a • bound m g (r ++ [2]) a))]
  · exact congrArg some (Prod.ext fst_sum snd_sum)
  · intro a below
    have entry : ∀ i < 2 ^ (m + 1), ((List.range (2 ^ (m + 1))).map (bound (m + 1) eA r))[i]? =
        some (bound (m + 1) eA r i) := by
      intro i inside
      rw [getElem?_map, List.getElem?_range inside]
      rfl
    have zero : bound m eA (r ++ [0]) a = bound (m + 1) eA r a := by rw [bound_snoc]; module
    have two : bound m eA (r ++ [2]) a =
        bound (m + 1) eA r (a + 2 ^ m) +
          (bound (m + 1) eA r (a + 2 ^ m) - bound (m + 1) eA r a) := by
      rw [bound_snoc, Nat.add_comm a]
      module
    rw [steps a below, foldlM_add (fun h small acc => addressStep_eq g below small acc),
      sum_addressTerm, entry a (by omega), entry (a + 2 ^ m) (by omega), zero, two]
    simp

end AddressRound

/-! ## Cycle rounds -/

section Meaning

/-- A representation whose slots are listed for every cycle. -/
structure Openable (κ : Nat) (poly : PartyID → OneHotShare F) (ks : List (Option Nat))
    (slot mask : Nat → Nat) (slots : Nat) : Prop
    extends Represents κ poly ks slot mask slots where
  rows : ∀ p, (poly p).rotationSlotByCycle.length = ks.length

/-- `eq(r_address, k) * eq(r_cycle, j)` at the index of `(k, j)`. -/
def eqWeight (rAddress rCycle : List F) (i : Nat) : F :=
  (eqEvals rAddress).getD (i / 2 ^ rCycle.length) 0 * (eqEvals rCycle).getD (i % 2 ^ rCycle.length)
    0

/-- The sum of `ra(k, j) * eq(r_address, k) * eq(r_cycle, j)` with the first variables bound to
`r`. -/
def openingSum (ks : List (Option Nat)) (rAddress rCycle r : List F) : F :=
  sumAt (rAddress.length + rCycle.length) (oneHotCoeff F ks) (eqWeight rAddress rCycle) r

/-- With the address bound to `u`, the polynomial has `eq(k_j, u)` at cycle `j`. -/
theorem bound_oneHotCoeff (rep : Represents κ poly ks slot mask slots) {u : List F}
    (full : u.length = κ) {τ : Nat} (cycles : ks.length = 2 ^ τ) {j : Nat} (inside : j < 2 ^ τ) :
    bound τ (oneHotCoeff F ks) u j = (ks.getD j none).elim 0 fun k => (eqEvals u).getD k 0 := by
  rw [bound_eq_mle, mle_eq_sum, ← rep.sum_active j, full]
  refine Finset.sum_congr rfl fun k _ => ?_
  simp [← cycles, oneHotCoeff_block ks k (by rw [cycles]; exact inside)]

/-- While the address is bound, the sum is about the cycle weights at each address. -/
theorem openingSum_address {rAddress rCycle r : List F} (cycles : ks.length = 2 ^ rCycle.length)
    (short : r.length ≤ rAddress.length) :
    openingSum ks rAddress rCycle r =
      sumAt rAddress.length (weightAt ks (eqEvals rCycle)) (fun k => (eqEvals rAddress).getD k 0)
        r := by
  have weights : (fun k => ∑ j ∈ Finset.range (2 ^ rCycle.length),
    oneHotCoeff F ks (k * 2 ^ rCycle.length + j) *
      (eqEvals rCycle).getD j 0) = weightAt ks (eqEvals rCycle) := by
    funext k
    rw [weightAt, cycles]
    refine Finset.sum_congr rfl fun j inside => ?_
    simp [← cycles, oneHotCoeff_block ks k (by rw [cycles]; exact Finset.mem_range.mp inside)]
  rw [← weights]
  exact sumAt_high _ _ _ (fun k => (eqEvals rAddress).getD k 0) (fun j => (eqEvals rCycle).getD j 0)
    short

/-- Once the address is bound, the sum is about the lookups. -/
theorem openingSum_cycle {rAddress rCycle u s : List F} (full : u.length = rAddress.length)
    (short : s.length ≤ rCycle.length) :
    openingSum ks rAddress rCycle (u ++ s) =
      eqAt rAddress u * sumAt rCycle.length (bound rCycle.length (oneHotCoeff F ks) u)
        (fun j => (eqEvals rCycle).getD j 0) s := by
  rw [← mle_eqEvals full.symm]
  exact sumAt_low _ _ _ (fun k => (eqEvals rAddress).getD k 0) (fun j => (eqEvals rCycle).getD j 0)
    full short

end Meaning

section Gruen

/-- The lookups at one value of the coordinate of the round, against the later coordinates. -/
def innerAt (rCycle s : List F) (m : Nat) (h : Nat → F) (offset : Nat) : F :=
  ∑ j ∈ Finset.range (2 ^ m), (eqEvals (rCycle.drop (s.length + 1))).getD j 0 *
    bound (m + 1) h s (offset + j)

/-- The sum of a cycle round is a linear equality factor times a linear inner sum. -/
theorem sumAt_cycle {rCycle s : List F} {m : Nat} (left : rCycle.length = s.length + (m + 1))
    (h : Nat → F) (x : F) :
    sumAt rCycle.length h (fun j => (eqEvals rCycle).getD j 0) (s ++ [x]) =
      eqAt (rCycle.take s.length) s *
        (1 - rCycle.getD s.length 0 - x + rCycle.getD s.length 0 * x + rCycle.getD s.length 0 * x) *
        ((1 - x) * innerAt rCycle s m h 0 + x * innerAt rCycle s m h (2 ^ m)) := by
  have short : s.length < rCycle.length := by omega
  have front : rCycle.take (s.length + 1) = rCycle.take s.length ++ [rCycle.getD s.length 0] := by
    rw [List.take_add_one, List.getElem?_eq_getElem short, List.getD_eq_getElem _ _ short]
    rfl
  have table : ∀ a < 2 ^ m, bound m (fun j => (eqEvals rCycle).getD j 0) (s ++ [x]) a =
      eqAt (rCycle.take s.length) s *
        (1 - rCycle.getD s.length 0 - x + rCycle.getD s.length 0 * x + rCycle.getD s.length 0 * x) *
        (eqEvals (rCycle.drop (s.length + 1))).getD a 0 := by
    intro a inside
    have rest : (rCycle.drop (s.length + 1)).length = m := by rw [length_drop]; omega
    have split := bound_eqEvals (w := rCycle.take (s.length + 1)) (s := s ++ [x])
      (by rw [length_take, length_append, length_singleton]; omega) (rCycle.drop (s.length + 1))
      (by rw [rest]; exact inside)
    rwa [take_append_drop, rest, front, eqAt_snoc (by rw [length_take]; omega)] at split
  rw [sumAt_snoc h _ left, innerAt, innerAt, mul_sum, mul_sum, ← sum_add_distrib, mul_sum]
  refine Finset.sum_congr rfl fun a inside => ?_
  rw [table a (Finset.mem_range.mp inside), bound_snoc, Nat.zero_add, smul_eq_mul, smul_eq_mul]
  ring

end Gruen

/-! ## The run of a party -/

section Run

namespace ProverOpening

/-- A prover in an address round, after the challenges `r`. -/
def addressState (polynomial : OneHotShare F) (entry : Nat → Rep3Share F)
    (rAddress rCycle r : List F) : ProverOpening F where
  polynomial := polynomial
  G := (List.range (2 ^ rAddress.length)).map entry
  H := .none
  eqAddressState := ⟨(List.range (2 ^ (rAddress.length - r.length))).map
    (bound (rAddress.length - r.length) (fun k => (eqEvals rAddress).getD k 0) r), eqEvals r⟩
  eqCycleState := ⟨.boundTo rCycle [], rCycle, 0⟩

/-- A prover in a cycle round, after the challenges `u` for the address and `s` for the cycle. -/
def cycleState (polynomial : OneHotShare F) (H : List F → Rep3RaPolynomial (Rep3Share F))
    (rAddress rCycle u s : List F) :
    ProverOpening F where
  polynomial := polynomial
  G := []
  H := H s
  eqAddressState := ⟨[eqAt rAddress u], eqEvals u⟩
  eqCycleState := ⟨.boundTo rCycle s, rCycle, s.length⟩

variable {polynomial : OneHotShare F} {entry : Nat → Rep3Share F} {rAddress rCycle : List F}

/-- A prover over no cycle variables cannot be built; otherwise it starts in the address phase. -/
theorem new_eq {threads : Nat} (size : polynomial.K = 2 ^ rAddress.length)
    (cycles : polynomial.maskedIndicesC.length = 2 ^ rCycle.length)
    (table : polynomial.computeGFromMaskedIndices threads (eqEvals rCycle) =
      some ((List.range (2 ^ rAddress.length)).map entry)) :
    new threads polynomial rAddress rCycle =
      if rCycle.length = 0 then none
        else some (addressState polynomial entry rAddress rCycle []) := by
  have B :
    (List.range (2 ^ rAddress.length)).map
    (bound rAddress.length (fun k => (eqEvals rAddress).getD k 0) ([] : List F)) =
      eqEvals rAddress := by
    refine ext_getElem (by simp [length_eqEvals]) fun k _ inside => ?_
    rw [getElem_map, getElem_range, bound_nil, List.getD_eq_getElem _ _ inside]
  rw [new, if_neg (by rw [size, cycles]; simp), table]
  by_cases empty : rCycle.length = 0
  · obtain rfl := length_eq_zero_iff.mp empty
    rfl
  · rw [if_neg empty, GruenSplitEqPolynomial.new_eq (by omega), addressState, length_nil,
      Nat.sub_zero, B]
    rfl

/-- The lookup of a cycle in the tables of the bound addresses. -/
def lookupShare (polynomial : OneHotShare F) (tables : List (List (Rep3Share F))) (j : Nat) :
    Rep3Share F :=
  match polynomial.slotted j with
  | some (s, c) => (tables.getD s []).getD c 0
  | none => 0

/-- Tables of the bound addresses that the parties share. -/
structure TablesShared (κ : Nat) (u : List F) (mask : Nat → Nat) (slots : Nat)
    (tables : PartyID → List (List (Rep3Share F))) : Prop where
  full : u.length = κ
  shifted : ∀ s < slots, VecShares (fun p => (tables p).getD s []) (xorShifted (mask s) (eqEvals u))

namespace TablesShared

/-- The lookups of a party with the first cycle coordinates bound to `s`. -/
def lookupsBound (slots τ : Nat) (polynomial : OneHotShare F) (tables : List (List (Rep3Share F)))
    (s : List F) :
    Rep3RaPolynomial (Rep3Share F) :=
  if slots = 1 then .lookupsAt (tables.getD 0 []) polynomial.maskedIndicesC τ
    (lookupShare polynomial tables) s
  else .vectorAt τ (lookupShare polynomial tables) s

variable {u : List F} {tables : PartyID → List (List (Rep3Share F))} {τ : Nat}

theorem finalSumcheckClaim_eq (polynomial : OneHotShare F) (tables : List (List (Rep3Share F)))
    {s : List F} (full : s.length = τ) :
    (lookupsBound slots τ polynomial tables s).finalSumcheckClaim =
      if slots ≠ 1 ∨ 3 ≤ τ then some (bound 0 (lookupShare polynomial tables) s 0) else none := by
  rw [lookupsBound]
  by_cases single : slots = 1
  · rw [if_pos single, Rep3RaPolynomial.finalSumcheckClaim_lookupsAt _ _ _ full]
    exact if_congr (by simp [single]) rfl rfl
  · rw [if_neg single, if_pos (Or.inl single), Rep3RaPolynomial.finalSumcheckClaim_vectorAt _ full]

section

variable (shared : TablesShared κ u mask slots tables)
include shared

theorem length (p : PartyID) {s : Nat} (own : s < slots) :
    ((tables p).getD s []).length = 2 ^ κ := by
  rw [(shared.shifted s own).length p, length_xorShifted, length_eqEvals, shared.full]

theorem present (p : PartyID) {s : Nat} (own : s < slots) :
    (tables p)[s]? = some ((tables p).getD s []) := by
  by_cases inside : s < (tables p).length
  · rw [List.getElem?_eq_getElem inside, List.getD_eq_getElem _ _ inside]
  · have length := shared.length p own
    rw [getD_eq_default _ _ (by omega)] at length
    exact absurd length (Nat.two_pow_pos κ).ne

/-- The lookups are a sharing of the polynomial with the address bound. -/
theorem lookup_shares (rep : Represents κ poly ks slot mask slots) (cycles : ks.length = 2 ^ τ)
    {j : Nat} (inside : j < 2 ^ τ) :
    SumShares (fun p => lookupShare (poly p) (tables p) j) (bound τ (oneHotCoeff F ks) u j) := by
  rw [bound_oneHotCoeff rep shared.full cycles inside]
  simp only [lookupShare, rep.slotted]
  cases active : ks.getD j none with
  | none => exact ⟨fun _ => rfl, by simp [total, show (0 : Rep3Share F).a = 0 from rfl]⟩
  | some k =>
    obtain ⟨kIn, own, -⟩ := rep.active .ID0 j k active
    have index : k ^^^ mask (slot j) < (eqEvals u).length := by
      rw [length_eqEvals, shared.full]
      exact xor_lt_two_pow kIn (rep.masks _ own).1
    have entry := (shared.shifted _ own).entry (by rw [length_xorShifted]; exact index)
    rw [getD_xorShifted _ index, xor_xor_cancel_right] at entry
    exact entry

end

/-- One slot: the table is looked up lazily. -/
theorem lookUp_eq (shared : TablesShared κ u mask 1 tables) (rep : Represents κ poly ks slot mask 1)
    (p : PartyID) {j : Nat} (inside : j < ks.length) :
    lookUp ((tables p).getD 0 []) (poly p).maskedIndicesC j =
      some (lookupShare (poly p) (tables p) j) := by
  have bound : j < (poly p).maskedIndicesC.length := by rw [rep.cycles]; exact inside
  have raw : (poly p).maskedIndicesC[j]? = some ((poly p).maskedIndicesC.getD j none) := by
    rw [List.getElem?_eq_getElem bound, List.getD_eq_getElem _ _ bound]
  have opened := rep.opened p j
  rw [OneHotShare.masked] at opened
  rw [lookUp, raw, lookupShare, rep.slotted]
  cases active : ks.getD j none with
  | none =>
    rw [active, map_none, map_eq_none_iff] at opened
    rw [opened]
    rfl
  | some k =>
    obtain ⟨kIn, own, -⟩ := rep.active p j k active
    obtain zero : slot j = 0 := by omega
    rw [active, Option.map_some, map_eq_some_iff] at opened
    obtain ⟨i, at_, value⟩ := opened
    have short : k ^^^ mask 0 < ((tables p).getD 0 []).length := by
      rw [shared.length p (by omega)]
      exact xor_lt_two_pow kIn (rep.masks 0 (by omega)).1
    simp only [at_, Option.bind_eq_bind, Option.bind_some, Option.map_some, zero, value]
    rw [List.getElem?_eq_getElem short, List.getD_eq_getElem _ _ short]

variable (shared : TablesShared κ u mask slots tables) (rep : Openable κ poly ks slot mask slots)
include shared rep

/-- Several slots: the coefficients are looked up at once. -/
theorem coeffs_eq (p : PartyID) :
    (((poly p).maskedIndicesC.zip (poly p).rotationSlotByCycle).mapM fun
      | (some i, some slot) => do (← (tables p)[slot]?)[i.toNat]?
      | _ => some (0 : Rep3Share F)) =
        some ((List.range ks.length).map (lookupShare (poly p) (tables p))) := by
  have rows :
    (poly p).maskedIndicesC.zip (poly p).rotationSlotByCycle = (List.range ks.length).map fun j =>
      ((poly p).maskedIndicesC.getD j none, (poly p).rotationSlotByCycle.getD j none) := by
    refine ext_getElem (by simp [rep.cycles, rep.rows]) fun j inside _ => ?_
    rw [length_zip, rep.cycles, rep.rows, Nat.min_self] at inside
    rw [getElem_zip, getElem_map, getElem_range,
      List.getD_eq_getElem _ _ (by rw [rep.cycles]; exact inside),
      List.getD_eq_getElem _ _ (by rw [rep.rows]; exact inside)]
  rw [rows, mapM_map]
  refine Run.mapM_some fun j _ => ?_
  have opened := rep.opened p j
  rw [OneHotShare.masked] at opened
  rw [lookupShare, rep.slotted]
  cases active : ks.getD j none with
  | none =>
    rw [active, map_none, map_eq_none_iff] at opened
    simp only [Function.comp_apply, opened, map_none]
  | some k =>
    obtain ⟨kIn, own, slotAt⟩ := rep.active p j k active
    rw [active, Option.map_some, map_eq_some_iff] at opened
    obtain ⟨i, at_, value⟩ := opened
    have short : k ^^^ mask (slot j) < ((tables p).getD (slot j) []).length := by
      rw [shared.length p own]
      exact xor_lt_two_pow kIn (rep.masks _ own).1
    simp only [Function.comp_apply, at_, slotAt, shared.present p own, Option.bind_eq_bind,
      Option.bind_some, Option.map_some, value]
    rw [List.getElem?_eq_getElem short, List.getD_eq_getElem _ _ short]

theorem lookups_eq (cycles : ks.length = 2 ^ τ) (p : PartyID) :
    lookups (poly p) (tables p) = some (lookupsBound slots τ (poly p) (tables p) []) := by
  by_cases single : slots = 1
  · have head : (tables p).head? = some ((tables p).getD 0 []) := by
      rw [head?_eq_getElem?]
      exact shared.present p rep.positive
    rw [lookups, if_pos (by rw [rep.slotCount, single]), head, lookupsBound, if_pos single]
    rfl
  · rw [lookups, if_neg (by rw [rep.slotCount]; exact single), shared.coeffs_eq rep p,
      lookupsBound, if_neg single, Rep3RaPolynomial.vectorAt, length_nil, Nat.sub_zero, ← cycles]
    simp only [Option.bind_eq_bind, Option.bind_some, Rep3RaPolynomial.dense, length_map,
      length_range]
    rw [if_neg (by rw [cycles]; exact (Nat.two_pow_pos τ).ne')]
    exact congrArg (fun l => some (Rep3RaPolynomial.roundN l)) (map_congr_left fun j _ =>
      (bound_nil ..).symm)

theorem lookupsBound_binds (cycles : ks.length = 2 ^ τ) (p : PartyID) :
    Rep3RaPolynomial.BindsTo τ (lookupShare (poly p) (tables p))
      (lookupsBound slots τ (poly p) (tables p)) := by
  by_cases single : slots = 1
  · subst single
    have same : lookupsBound 1 τ (poly p) (tables p) =
        .lookupsAt ((tables p).getD 0 []) (poly p).maskedIndicesC τ
          (lookupShare (poly p) (tables p)) := rfl
    exact Rep3RaPolynomial.lookupsAt_binds (by rw [rep.cycles, cycles])
      fun j inside => shared.lookUp_eq rep.toRepresents p (by rw [cycles]; exact inside)
  · have same : lookupsBound slots τ (poly p) (tables p) =
        .vectorAt τ (lookupShare (poly p) (tables p)) := by
      funext s
      rw [lookupsBound, if_neg single]
    rw [same]
    exact Rep3RaPolynomial.vectorAt_binds ..

end TablesShared

variable [DecidableEq F] (arch : TargetArch)

theorem bind_address {r : List F} (size : polynomial.K = 2 ^ rAddress.length)
    (more : r.length + 1 < rAddress.length) (x : F) :
    (addressState polynomial entry rAddress rCycle r).bind arch x r.length =
      some (addressState polynomial entry rAddress rCycle (r ++ [x])) := by
  obtain ⟨m, left⟩ : ∃ m, rAddress.length = r.length + (m + 1) :=
    ⟨rAddress.length - r.length - 1, by omega⟩
  have before : rAddress.length - r.length = m + 1 := by omega
  have after : rAddress.length - (r ++ [x]).length = m := by
    rw [length_append, length_singleton]; omega
  simp only [bind, addressState, size, log2_two_pow]
  rw [if_pos (by omega), if_neg (by omega), before, after, bindTop_bound, expand_eqEvals]

/-- The last address round builds the lookups. -/
theorem bind_last {r : List F} (size : polynomial.K = 2 ^ rAddress.length)
    (last : r.length + 1 = rAddress.length) (x : F) {tables : List (List (Rep3Share F))}
    (shifted : polynomial.shiftedTables arch (eqEvals (r ++ [x])) = some tables)
    {H : List F → Rep3RaPolynomial (Rep3Share F)}
    (start : lookups polynomial tables = some (H [])) :
    (addressState polynomial entry rAddress rCycle r).bind arch x r.length =
      some (cycleState polynomial H rAddress rCycle (r ++ [x]) []) := by
  have full : (r ++ [x]).length = rAddress.length := by simp [last]
  have before : rAddress.length - r.length = 0 + 1 := by omega
  have claim :
      bound 0 (fun k => (eqEvals rAddress).getD k 0) (r ++ [x]) 0 = eqAt rAddress (r ++ [x]) := by
    rw [bound_eq_mle, ← mle_eqEvals full.symm]
    simp
  simp only [bind, addressState, size, log2_two_pow]
  rw [if_pos (by omega), if_pos (by omega), before, bindTop_bound, expand_eqEvals, length_eqEvals,
    full, if_neg (by simp), shifted]
  simp only [Option.bind_eq_bind, Option.bind_some, start, pow_zero, List.range_one, List.map_cons,
    claim]
  rfl

theorem bind_cycle {u s : List F} (size : polynomial.K = 2 ^ rAddress.length)
    {x : Nat → Rep3Share F} {H : List F → Rep3RaPolynomial (Rep3Share F)}
    (binds : Rep3RaPolynomial.BindsTo rCycle.length x H) (more : s.length < rCycle.length) (r : F) :
    (cycleState polynomial H rAddress rCycle u s).bind arch r (rAddress.length + s.length) =
      some (cycleState polynomial H rAddress rCycle u (s ++ [r])) := by
  simp only [bind, cycleState, size, log2_two_pow]
  rw [bind_boundTo more, binds.step more]
  simp

theorem reached_snoc (threads : Nat) (polynomial : OneHotShare F)
    (rAddress rCycle challenges : List F) (r : F) :
    reached arch threads polynomial rAddress rCycle (challenges ++ [r]) =
      (reached arch threads polynomial rAddress rCycle challenges).bind fun self =>
        self.bind arch r challenges.length := by
  rw [reached, reached]
  cases new threads polynomial rAddress rCycle with
  | none => rfl
  | some start =>
    simp [zipIdx_append]

/-! ## Messages -/

section Messages

variable {rAddress rCycle : List F} (two : (2 : F) ≠ 0)
include two

/-- The parties' messages of an address round. -/
theorem message_address {entry : PartyID → Nat → Rep3Share F}
    (sizes : ∀ p, (poly p).K = 2 ^ rAddress.length) (cycles : ks.length = 2 ^ rCycle.length)
    (entries : ∀ k < 2 ^ rAddress.length,
      SumShares (fun p => entry p k) (weightAt ks (eqEvals rCycle) k)) {r : List F}
    (more : r.length < rAddress.length) (claim : PartyID → F) :
    ∃ out : PartyID → F × F,
      (∀ p, (addressState (poly p) (entry p) rAddress rCycle r).computeProverMessageShared
        r.length (claim p) = some (out p)) ∧
      total (fun p => (out p).1) = openingSum ks rAddress rCycle (r ++ [0]) ∧
      total (fun p => (out p).2) = openingSum ks rAddress rCycle (r ++ [2]) := by
  obtain ⟨m, left⟩ : ∃ m, rAddress.length = r.length + (m + 1) :=
    ⟨rAddress.length - r.length - 1, by omega⟩
  have rest : rAddress.length - r.length = m + 1 := by omega
  let eA : Nat → F := fun k => (eqEvals rAddress).getD k 0
  let value (x : F) (p : PartyID) : Rep3Share F :=
    ∑ a ∈ Finset.range (2 ^ m), bound m eA (r ++ [x]) a • bound m (entry p) (r ++ [x]) a
  have shared : ∀ x, SumShares (value x) (openingSum ks rAddress rCycle (r ++ [x])) := by
    intro x
    have length : (r ++ [x]).length + m = rAddress.length := by
      rw [length_append, length_singleton]; omega
    rw [openingSum_address cycles (by omega), sumAt_snoc _ _ left]
    refine SumShares.sum _ fun a inside => ?_
    rw [mul_comm]
    refine (SumShares.bound (fun k below => ?_) (Finset.mem_range.mp inside)).smul _
    exact entries k (by rwa [length] at below)
  refine ⟨fun p => (intoAdditive (value 0 p), intoAdditive (value 2 p)), fun p => ?_,
    intoAdditive_total two (shared 0), intoAdditive_total two (shared 2)⟩
  simp only [computeProverMessageShared, addressState, sizes, log2_two_pow, if_pos more, rest]
  rw [left, addressMessage_eq eA (entry p)]
  rfl

/-- The parties' messages of a cycle round. -/
theorem message_cycle {u : List F} {x : PartyID → Nat → Rep3Share F}
    {H : PartyID → List F → Rep3RaPolynomial (Rep3Share F)}
    (sizes : ∀ p, (poly p).K = 2 ^ rAddress.length) (full : u.length = rAddress.length)
    (binds : ∀ p, Rep3RaPolynomial.BindsTo rCycle.length (x p) (H p))
    (shares : ∀ j < 2 ^ rCycle.length,
      SumShares (fun p => x p j) (bound rCycle.length (oneHotCoeff F ks) u j))
    {s : List F} (more : s.length < rCycle.length) (addressFactor : eqAt rAddress u ≠ 0)
    (cycleFactor : eqAt (rCycle.take s.length) s * rCycle.getD s.length 0 ≠ 0) {claim : PartyID → F}
    (previous : total claim = openingSum ks rAddress rCycle (u ++ s)) :
    ∃ out : PartyID → F × F,
      (∀ p, (cycleState (poly p) (H p) rAddress rCycle u s).computeProverMessageShared
        (rAddress.length + s.length) (claim p) =
        some (out p)) ∧
      total (fun p => (out p).1) = openingSum ks rAddress rCycle (u ++ s ++ [0]) ∧
      total (fun p => (out p).2) = openingSum ks rAddress rCycle (u ++ s ++ [2]) := by
  obtain ⟨m, left⟩ : ∃ m, rCycle.length = s.length + (m + 1) :=
    ⟨rCycle.length - s.length - 1, by omega⟩
  have rest : rCycle.length - s.length = m + 1 := by omega
  let h : Nat → F := bound rCycle.length (oneHotCoeff F ks) u
  let E := eqAt rAddress u
  let scalar := eqAt (rCycle.take s.length) s
  let wi := rCycle.getD s.length 0
  let Q0 := innerAt rCycle s m h 0
  let Q1 := innerAt rCycle s m h (2 ^ m)
  -- the round polynomial
  have round : ∀ y, openingSum ks rAddress rCycle (u ++ s ++ [y]) =
      E * (scalar * (1 - wi - y + wi * y + wi * y) * ((1 - y) * Q0 + y * Q1)) := by
    intro y
    rw [append_assoc, openingSum_cycle full (by rw [length_append, length_singleton]; omega),
      sumAt_cycle left]
  have claimed : total claim = E * ((scalar - scalar * wi) * Q0 + scalar * wi * Q1) := by
    have sum :=
      sumAt_zero_add_one (n := rAddress.length + rCycle.length) (oneHotCoeff F ks)
      (eqWeight rAddress rCycle)
      (r := u ++ s) (by rw [length_append]; omega)
    have zero := round 0
    have one := round 1
    rw [openingSum] at zero one
    rw [previous, openingSum, ← sum, zero, one]
    ring
  -- the parties' inner sums
  let q0 (p : PartyID) : Rep3Share F :=
    ∑ j ∈ Finset.range (2 ^ m), (eqEvals (rCycle.drop (s.length + 1))).getD j 0 •
      bound (m + 1) (x p) s j
  have inner : ∀ p, (boundTo rCycle s).innerSum (H p s).getBoundCoeff = some (q0 p) := by
    intro p
    refine innerSum_boundTo left fun j inside => ?_
    rw [(binds p).coeff more.le (by rw [rest]; omega), rest]
  have shared : SumShares q0 Q0 := by
    refine SumShares.sum _ fun j inside => ?_
    have below := Finset.mem_range.mp inside
    rw [Nat.zero_add]
    refine (SumShares.bound (fun i small => ?_) (by omega)).smul _
    exact shares i (by rwa [← left] at small)
  have wiAt : rCycle[s.length]? = some wi := by
    rw [List.getElem?_eq_getElem more]
    exact congrArg some (List.getD_eq_getElem _ _ more).symm
  let l0 := scalar - scalar * wi
  let l1 := scalar * wi
  let l2 := l1 + (l1 - l0)
  have scaled : total (fun p => intoAdditive (l0 • q0 p)) = l0 * Q0 :=
    intoAdditive_total two (shared.smul l0)
  have opened : total (fun p => intoAdditive (q0 p)) = Q0 := intoAdditive_total two shared
  refine ⟨fun p => (intoAdditive (l0 • q0 p) * E,
    (((claim p * E⁻¹ - intoAdditive (l0 • q0 p)) * l1⁻¹ +
    (claim p * E⁻¹ - intoAdditive (l0 • q0 p)) * l1⁻¹ - intoAdditive (q0 p)) * l2) * E),
      fun p => ?_, ?_, ?_⟩
  · simp only [computeProverMessageShared, cycleState, sizes, log2_two_pow]
    rw [if_neg (by omega), inner p]
    have current : (boundTo rCycle s).currentScalar = scalar := rfl
    simp only [Option.bind_eq_bind, Option.bind_some, tryInverse, if_neg addressFactor,
      wiAt, current]
    rw [if_neg cycleFactor]
    rfl
  · rw [total_mul, scaled, round 0]
    ring
  · have normed : total claim * E⁻¹ - l0 * Q0 = Q1 * l1 := by
      rw [claimed, mul_comm E, mul_inv_cancel_right₀ addressFactor]
      ring
    simp only [total_mul, total_sub, total_add, scaled, opened, normed]
    rw [mul_inv_cancel_right₀ cycleFactor, round 2]
    ring

omit two in
/-- Without address rounds there are no lookups. -/
theorem message_none {polynomial : OneHotShare F} {entry : Nat → Rep3Share F}
    (size : polynomial.K = 2 ^ rAddress.length) (none : rAddress.length = 0)
    (more : 0 < rCycle.length) (claim : F) :
    (addressState polynomial entry rAddress rCycle []).computeProverMessageShared 0 claim =
      Option.none := by
  have missing : (boundTo rCycle []).innerSum
      (Rep3RaPolynomial.none : Rep3RaPolynomial (Rep3Share F)).getBoundCoeff = Option.none :=
    innerSum_none more fun _ => rfl
  simp only [computeProverMessageShared, addressState, size, log2_two_pow]
  rw [none]
  simp only [missing]
  rfl

end Messages

/-! ## Whole runs -/

section Reached

variable {rAddress rCycle : List F} {threads : Nat} {polynomial : OneHotShare F}
  {entry : Nat → Rep3Share F} (size : polynomial.K = 2 ^ rAddress.length)
  (start : new threads polynomial rAddress rCycle =
    some (addressState polynomial entry rAddress rCycle []))
include size start

theorem reached_address {r : List F} (short : r.length ≤ rAddress.length - 1) :
    reached arch threads polynomial rAddress rCycle r =
      some (addressState polynomial entry rAddress rCycle r) := by
  induction r using List.reverseRecOn with
  | nil =>
    rw [reached, start]
    rfl
  | append_singleton r x ih =>
    rw [length_append, length_singleton] at short
    rw [reached_snoc, ih (by omega), Option.bind_some, bind_address arch size (by omega)]

/-- After the address variables the prover is in the cycle phase, over the shifted tables. -/
theorem reached_cycle {u : List F} (full : u.length = rAddress.length)
    (nonempty : 0 < rAddress.length) {tables : List (List (Rep3Share F))}
    (shifted : polynomial.shiftedTables arch (eqEvals u) = some tables)
    {H : List F → Rep3RaPolynomial (Rep3Share F)} (built : lookups polynomial tables = some (H []))
    {x : Nat → Rep3Share F} (binds : Rep3RaPolynomial.BindsTo rCycle.length x H) {s : List F}
    (short : s.length ≤ rCycle.length) :
    reached arch threads polynomial rAddress rCycle (u ++ s) =
      some (cycleState polynomial H rAddress rCycle u s) := by
  induction s using List.reverseRecOn with
  | nil =>
    obtain ⟨r, y, rfl⟩ : ∃ r y, u = r ++ [y] := by
      rcases eq_nil_or_concat u with rfl | split
      · rw [length_nil] at full
        omega
      · simpa using split
    rw [length_append, length_singleton] at full
    rw [append_nil, reached_snoc, reached_address arch size start (by omega), Option.bind_some,
      bind_last arch size full y shifted built]
  | append_singleton s y ih =>
    rw [length_append, length_singleton] at short
    rw [← append_assoc, reached_snoc, ih (by omega), Option.bind_some, length_append, full,
      bind_cycle arch size binds (by omega)]

end Reached

end ProverOpening

end Run

/-! ## The reduction -/

section Reduction

variable [DecidableEq F]

/-- The factors that the cycle rounds invert are not zero. -/
structure FactorsNonzero (rAddress rCycle challenges : List F) : Prop where
  address : eqAt rAddress (challenges.take rAddress.length) ≠ 0
  cycle : ∀ i < rCycle.length, eqAt (rCycle.take i) ((challenges.drop rAddress.length).take i) *
    rCycle.getD i 0 ≠ 0

/-- Every round sends the round polynomial at 0 and 2, and the last claim is the evaluation at the
challenges. -/
structure ReducesOpening (arch : TargetArch) (threads : Nat) (poly : PartyID → OneHotShare F)
    (ks : List (Option Nat)) (rAddress rCycle challenges : List F) : Prop where
  messages : ∀ i < rAddress.length + rCycle.length, ∀ claim : PartyID → F,
    total claim = openingSum ks rAddress rCycle (challenges.take i) →
    ∃ out : PartyID → F × F,
      (∀ p, (ProverOpening.reached arch threads (poly p) rAddress rCycle (challenges.take i)).bind
        (·.computeProverMessageShared i (claim p)) = some (out p)) ∧
      total (fun p => (out p).1) = openingSum ks rAddress rCycle (challenges.take i ++ [0]) ∧
      total (fun p => (out p).2) = openingSum ks rAddress rCycle (challenges.take i ++ [2])
  final : ∃ out : View F,
    (∀ p, (ProverOpening.reached arch threads (poly p) rAddress rCycle challenges).bind
      (·.finalSumcheckClaim) = some (out p)) ∧
    SumShares out (mle challenges (oneHotCoeff F ks))

variable {poly : PartyID → OneHotShare F} {ks : List (Option Nat)} {slot mask : Nat → Nat}
  {slots : Nat} {rAddress rCycle challenges : List F}

open ProverOpening

/-- What the parties hold along a run with the given challenges. -/
structure PartyRuns (arch : TargetArch) (threads : Nat) (poly : PartyID → OneHotShare F)
    (ks : List (Option Nat)) (mask : Nat → Nat) (slots : Nat) (rAddress rCycle challenges : List F)
    (entry : PartyID → Nat → Rep3Share F) (tables : PartyID → List (List (Rep3Share F))) :
    Prop where
  start : ∀ p, new threads (poly p) rAddress rCycle =
    if rCycle.length = 0 then none else some (addressState (poly p) (entry p) rAddress rCycle [])
  entries :
    ∀ k < 2 ^ rAddress.length, SumShares (fun p => entry p k) (weightAt ks (eqEvals rCycle) k)
  shared : TablesShared rAddress.length (challenges.take rAddress.length) mask slots tables
  shifted :
    ∀ p, (poly p).shiftedTables arch (eqEvals (challenges.take rAddress.length)) = some (tables p)

theorem exists_partyRuns (arch : TargetArch) (threads : Nat)
    (rep : Openable rAddress.length poly ks slot mask slots) (two : (2 : F) ≠ 0)
    (cycles : ks.length = 2 ^ rCycle.length) (rounds : rAddress.length ≤ challenges.length) :
    ∃ entry tables, PartyRuns arch threads poly ks mask slots rAddress rCycle challenges
      entry tables := by
  have full : (challenges.take rAddress.length).length = rAddress.length := by
    rw [length_take]; omega
  obtain ⟨entry, tabled, entries⟩ := computeG_shares rep.toRepresents threads
    (show (eqEvals rCycle).length = ks.length by rw [length_eqEvals, cycles])
  obtain ⟨tables, runs, shifted⟩ := shiftedTables_spec arch rep.toRepresents (pow_ne_zero _ two)
    (show (eqEvals (challenges.take rAddress.length)).length =
      2 ^ rAddress.length by rw [length_eqEvals, full])
  exact ⟨entry, tables, fun p => new_eq (rep.size p) (by rw [rep.cycles, cycles]) (tabled p),
    entries, ⟨full, shifted⟩, runs⟩

namespace PartyRuns

variable {arch : TargetArch} {threads : Nat} {entry : PartyID → Nat → Rep3Share F}
  {tables : PartyID → List (List (Rep3Share F))}
  (run : PartyRuns arch threads poly ks mask slots rAddress rCycle challenges entry tables)
  (rep : Openable rAddress.length poly ks slot mask slots) (hasCycle : 1 ≤ rCycle.length)
include run rep hasCycle

theorem address {r : List F} (short : r.length ≤ rAddress.length - 1) (p : PartyID) :
    reached arch threads (poly p) rAddress rCycle r =
      some (addressState (poly p) (entry p) rAddress rCycle r) :=
  reached_address arch (rep.size p) (by rw [run.start, if_neg (by omega)]) short

variable (hasAddress : 1 ≤ rAddress.length) (cycles : ks.length = 2 ^ rCycle.length)
include hasAddress cycles

theorem cycle {s : List F} (short : s.length ≤ rCycle.length) (p : PartyID) :
    reached arch threads (poly p) rAddress rCycle (challenges.take rAddress.length ++ s) =
      some (cycleState (poly p) (TablesShared.lookupsBound slots rCycle.length (poly p) (tables p))
        rAddress rCycle
        (challenges.take rAddress.length) s) :=
  reached_cycle arch (rep.size p) (by rw [run.start, if_neg (by omega)]) run.shared.full
    hasAddress (run.shifted p)
    (run.shared.lookups_eq rep cycles p) (run.shared.lookupsBound_binds rep cycles p) short

variable (rounds : challenges.length = rAddress.length + rCycle.length)
include rounds

theorem final (p : PartyID) :
    (reached arch threads (poly p) rAddress rCycle challenges).bind (·.finalSumcheckClaim) =
      if slots ≠ 1 ∨ 3 ≤ rCycle.length then
        some (bound 0 (lookupShare (poly p) (tables p)) (challenges.drop rAddress.length) 0)
      else none := by
  have late : (challenges.drop rAddress.length).length = rCycle.length := by rw [length_drop]; omega
  have reached := run.cycle rep hasCycle hasAddress cycles late.le p
  rw [take_append_drop] at reached
  simp [reached, finalSumcheckClaim, cycleState, TablesShared.finalSumcheckClaim_eq _ _ late]

omit hasAddress in
/-- The final claims of the parties share the evaluation at the challenges. -/
theorem final_shares :
    SumShares (fun p => bound 0 (lookupShare (poly p) (tables p)) (challenges.drop rAddress.length)
      0)
    (mle challenges (oneHotCoeff F ks)) := by
  have late : (challenges.drop rAddress.length).length = rCycle.length := by rw [length_drop]; omega
  have value : mle challenges (oneHotCoeff F ks) =
      bound 0 (bound rCycle.length (oneHotCoeff F ks) (challenges.take rAddress.length))
        (challenges.drop rAddress.length) 0 := by
    rw [bound_eq_mle, ← late]
    simp only [pow_zero, Nat.mul_one, Nat.add_zero]
    rw [← mle_append_bound, take_append_drop]
  rw [value]
  refine SumShares.bound (fun j below => ?_) (by simp)
  exact run.shared.lookup_shares rep.toRepresents cycles (by rwa [late] at below)

/-- In both phases the two values a party sends add up to the plaintext round polynomial at 0 and
2. -/
theorem messages (two : (2 : F) ≠ 0) (factors : FactorsNonzero rAddress rCycle challenges) {i : Nat}
    (inside : i < rAddress.length + rCycle.length) {claim : PartyID → F}
    (previous : total claim = openingSum ks rAddress rCycle (challenges.take i)) :
    ∃ out : PartyID → F × F,
      (∀ p, (reached arch threads (poly p) rAddress rCycle (challenges.take i)).bind
        (·.computeProverMessageShared i (claim p)) = some (out p)) ∧
      total (fun p => (out p).1) = openingSum ks rAddress rCycle (challenges.take i ++ [0]) ∧
      total (fun p => (out p).2) = openingSum ks rAddress rCycle (challenges.take i ++ [2]) := by
  rcases Nat.lt_or_ge i rAddress.length with early | late
  · have length : (challenges.take i).length = i := by rw [length_take]; omega
    have sent :=
      message_address two (fun p => rep.size p) cycles run.entries (r := challenges.take i)
      (by omega) claim
    simp only [run.address rep hasCycle (show (challenges.take i).length ≤
      rAddress.length - 1 by omega)]
    rwa [length] at sent
  · -- the address challenges and the first ones for the cycle
    obtain ⟨n, rfl⟩ := Nat.exists_eq_add_of_le late
    have length : ((challenges.drop rAddress.length).take n).length = n := by
      rw [length_take, length_drop]; omega
    rw [take_add] at previous ⊢
    have sent :=
      message_cycle two (fun p => rep.size p) run.shared.full
      (fun p => run.shared.lookupsBound_binds rep cycles p)
      (fun j below => run.shared.lookup_shares rep.toRepresents cycles below)
      (by omega) factors.address (by rw [length]; exact factors.cycle n (by omega)) previous
    simp only [run.cycle rep hasCycle hasAddress cycles
      (show ((challenges.drop rAddress.length).take n).length ≤ rCycle.length by
      omega)]
    rwa [length] at sent

end PartyRuns

/-- The reduction is right exactly when there is an address round and a cycle round, and a single
slot has three cycle rounds. -/
theorem oneHot_opening_reduces_iff (arch : TargetArch) (threads : Nat)
    (rep : Openable rAddress.length poly ks slot mask slots) (two : (2 : F) ≠ 0)
    (cycles : ks.length = 2 ^ rCycle.length)
    (rounds : challenges.length = rAddress.length + rCycle.length)
    (factors : FactorsNonzero rAddress rCycle challenges) :
    ReducesOpening arch threads poly ks rAddress rCycle challenges ↔
      1 ≤ rAddress.length ∧ 1 ≤ rCycle.length ∧ (slots ≠ 1 ∨ 3 ≤ rCycle.length) := by
  obtain ⟨entry, tables, run⟩ :=
    exists_partyRuns arch threads rep two cycles (show rAddress.length ≤ challenges.length by omega)
  constructor
  · rintro ⟨messages, out, finals, -⟩
    have last := finals .ID0
    have hasCycle : 1 ≤ rCycle.length := by
      by_contra none
      rw [reached, run.start, if_pos (by omega)] at last
      cases last
    have hasAddress : 1 ≤ rAddress.length := by
      by_contra none
      obtain ⟨sent, runs, -⟩ :=
        messages 0 (by omega) (fun p => if p = .ID0 then openingSum ks rAddress rCycle [] else 0)
        (by simp [total])
      have first := runs .ID0
      rw [take_zero, run.address rep hasCycle (by simp), Option.bind_some,
        message_none (rep.size _) (by omega) hasCycle] at first
      cases first
    refine ⟨hasAddress, hasCycle, ?_⟩
    by_contra shallow
    rw [run.final rep hasCycle hasAddress cycles rounds, if_neg shallow] at last
    cases last
  · rintro ⟨hasAddress, hasCycle, deep⟩
    exact ⟨fun i inside claim previous =>
      run.messages rep hasCycle hasAddress cycles rounds two factors inside previous,
      _, fun p => by rw [run.final rep hasCycle hasAddress cycles rounds, if_pos deep],
      run.final_shares rep hasCycle cycles rounds⟩

/-- Both cycles active, each opened under a mask of its own, over the 16 addresses of a
`RandOHV`. -/
def twoSlots (p : PartyID) : OneHotShare ℚ where
  K := 2 ^ 4
  maskedIndicesC := [some 0, some 0]
  rotationSlotByCycle := [some 0, some 1]
  randOhvEFields := [promotedAt (oneHot (2 ^ 4) 1) p, promotedAt (oneHot (2 ^ 4) 0) p]

theorem twoSlots_openable : Openable 4 twoSlots [some 1, some 0] id (fun s => 1 - s) 2 where
  width := by decide
  size _ := rfl
  positive := by decide
  slotCount _ := rfl
  cycles _ := rfl
  rows _ := rfl
  opened _ j := by
    match j with
    | 0 => rfl
    | 1 => rfl
    | j + 2 => rfl
  active _ j k found := by
    match j, found with
    | 0, found =>
      obtain rfl : 1 = k := Option.some.inj found
      exact ⟨by decide, by decide, rfl⟩
    | 1, found =>
      obtain rfl : 0 = k := Option.some.inj found
      exact ⟨by decide, by decide, rfl⟩
    | j + 2, found => simp at found
  masks s inside := by
    match s, inside with
    | 0, _ => exact ⟨by decide, promotedAt_shares _⟩
    | 1, _ => exact ⟨by decide, promotedAt_shares _⟩

theorem factorsNonzero_ones : FactorsNonzero [(1 : ℚ), 1, 1, 1] [1] [1, 1, 1, 1, 1] where
  address := by simp [eqAt]
  cycle i inside := by
    obtain rfl : i = 0 := by simpa using inside
    simp [eqAt]

theorem oneHot_opening_reduces_twoSlots :
    ReducesOpening .x86_64 4 twoSlots [some 1, some 0] [(1 : ℚ), 1, 1, 1] [1] [1, 1, 1, 1, 1] :=
  (oneHot_opening_reduces_iff .x86_64 4
    (show Openable [(1 : ℚ), 1, 1, 1].length twoSlots _ _ _ 2 from twoSlots_openable)
    (by norm_num) rfl rfl factorsNonzero_ones).mpr ⟨by decide, by decide, Or.inl (by decide)⟩

/-- One slot: an active cycle at address 1 under the mask 1, and an idle one. -/
def oneSlot (p : PartyID) : OneHotShare ℚ where
  K := 2 ^ 4
  maskedIndicesC := [some 0, none]
  rotationSlotByCycle := [some 0, none]
  randOhvEFields := [promotedAt (oneHot (2 ^ 4) 1) p]

theorem oneSlot_openable : Openable 4 oneSlot [some 1, none] (fun _ => 0) (fun _ => 1) 1 where
  width := by decide
  size _ := rfl
  positive := by decide
  slotCount _ := rfl
  cycles _ := rfl
  rows _ := rfl
  opened _ j := by
    match j with
    | 0 => rfl
    | 1 => rfl
    | j + 2 => rfl
  active _ j k found := by
    match j, found with
    | 0, found =>
      obtain rfl : 1 = k := Option.some.inj found
      exact ⟨by decide, by decide, rfl⟩
    | 1, found => cases found
    | j + 2, found => simp at found
  masks s inside := by
    obtain rfl : s = 0 := by omega
    exact ⟨by decide, promotedAt_shares _⟩

/-- With one slot the lookups stay lazy for three cycle rounds; after the single round of two cycles
the final claim is refused. -/
theorem oneHot_opening_oneSlot_fails :
    Openable 4 oneSlot [some 1, none] (fun _ => 0) (fun _ => 1) 1 ∧
      FactorsNonzero [(1 : ℚ), 1, 1, 1] [1] [1, 1, 1, 1, 1] ∧
      ¬ ReducesOpening .x86_64 4 oneSlot [some 1, none] [(1 : ℚ), 1, 1, 1] [1] [1, 1, 1, 1, 1] := by
  have rep :
      Openable [(1 : ℚ), 1, 1, 1].length oneSlot [some 1, none] (fun _ => 0) (fun _ => 1) 1 :=
    oneSlot_openable
  refine ⟨rep, factorsNonzero_ones, fun reduces => ?_⟩
  obtain ⟨entry, tables, run⟩ :
    ∃ entry tables, PartyRuns .x86_64 4 oneSlot [some 1, none] (fun _ => 1) 1
      [(1 : ℚ), 1, 1, 1] [1] [1, 1, 1, 1, 1] entry tables :=
    exists_partyRuns .x86_64 4 rep (by norm_num) rfl (by decide)
  obtain ⟨out, finals, -⟩ := reduces.final
  have last := finals .ID0
  rw [run.final rep (by decide) (by decide) rfl rfl, if_neg (by decide)] at last
  cases last

end Reduction

end ProviaVM.Poly
