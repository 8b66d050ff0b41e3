import ProviaVM.Preprocessing.LazySources
import ProviaVM.Rep3.Share

/-! # One-hot polynomials with opened masked indices

`Rep3OneHotPolynomial::from_indices` of `provia-worker/src/poly/one_hot_polynomial.rs`.
The index of a cycle is opened under a mask whose one-hot vector is shared; the masks of
one polynomial are a batch of the pool, and active cycles use them in rotation. -/
namespace ProviaVM.Poly
open Preprocessing Rep3 ByteFile List Option

/-- `RAND_OHV_ROTATIONS`: absent, or a text with the number it parses to. -/
inductive RotationsVar where
  | unset
  | raw (parsed : Option Nat)

/-- `rand_ohv_rotation_count`; `none` is the panic. -/
def randOhvRotationCount : RotationsVar → Option Nat
  | .unset => some 1
  | .raw (some v) => if v ∈ [1, 2, 4, 8, 16] then some v else none
  | .raw none => none

section

variable {F : Type}

/-- `LazyRandOhvs` as the three parties hold it in step: the shares by position. -/
structure RandOhvPool (F : Type) where
  total : Nat
  cursor : Nat
  r : Nat → View (BitVec 8)
  e : Nat → View F

/-- `RandOhvBatch` of the three parties. -/
structure RandOhvs (F : Type) where
  rShares : List (View (BitVec 8))
  eFieldsFlat : List (View F)

def RandOhvPool.takeBatch (s : RandOhvPool F) (n : Nat) : Option (RandOhvs F × RandOhvPool F) :=
  if s.total < s.cursor + n then none
  else some (⟨(List.range n).map fun i => s.r (s.cursor + i),
    (List.range (n * randOhvK)).map fun i => s.e (s.cursor * randOhvK + i)⟩,
      { s with cursor := s.cursor + n })

/-- `Rep3OneHotPolynomial`, as built by `from_indices`; `rShares` is kept in test builds. -/
structure Rep3OneHotPolynomial (F : Type) where
  K : Nat
  maskedIndicesC : PartyID → List (Option (BitVec 8))
  rotationSlotByCycle : List (Option Nat)
  randOhvEFields : List (List (View F))
  rShares : List (View (BitVec 8))

/-- The loop over the cycles, from the given active ordinal: the masked active shares and the
slots. -/
def maskActive (rotationCount : Nat) (rShares : List (View (BitVec 8))) :
    Nat → List (Option (View (BitVec 8))) → Option (List (View (BitVec 8)) × List (Option Nat))
  | _, [] => some ([], [])
  | ordinal, none :: rest => do
    let (masked, slots) ← maskActive rotationCount rShares ordinal rest
    return (masked, none :: slots)
  | ordinal, some k :: rest => do
    let slot := ordinal % rotationCount
    let r ← rShares[slot]?
    let (masked, slots) ← maskActive rotationCount rShares (ordinal + 1) rest
    return (k.map₂ (· ^^^ ·) r :: masked, some slot :: slots)

/-- `binary::open_vec`: a party receives the second component of the party before it. -/
def openVec {w : Nat} (shares : List (View (BitVec w))) : PartyID → List (BitVec w) := fun p =>
  shares.map fun x => (x p).a ^^^ (x p).b ^^^ (x p.prev).b

/-- The opened values back at the active cycles; `none` is the panic of `expect`. -/
def atActive {α β : Type} : List (Option α) → List β → Option (List (Option β))
  | [], _ => some []
  | none :: rest, opened => do
    let tail ← atActive rest opened
    return none :: tail
  | some _ :: rest, c :: opened => do
    let tail ← atActive rest opened
    return some c :: tail
  | some _ :: _, [] => none

def atActiveAll {α β : Type} (indices : List (Option α)) (opened : PartyID → List β) :
    Option (PartyID → List (Option β)) := do
  let c0 ← atActive indices (opened .ID0)
  let c1 ← atActive indices (opened .ID1)
  let c2 ← atActive indices (opened .ID2)
  return fun
    | .ID0 => c0
    | .ID1 => c1
    | .ID2 => c2

/-- `from_indices`; `none` is a panic or an error. -/
def fromIndices (rotationCount K : Nat) (indices : List (Option (View (BitVec 8))))
    (pool : RandOhvPool F) :
    Option (Rep3OneHotPolynomial F × RandOhvPool F) :=
  if ¬ K.isPowerOfTwo ∨ ¬ K ≤ 1 <<< 8 then none
  else do
    let (batch, pool) ← pool.takeBatch rotationCount
    if batch.eFieldsFlat.length ≠ rotationCount * K then none
    else
      let eFields :=
        (List.range rotationCount).map fun slot => (batch.eFieldsFlat.drop (slot * K)).take K
      let (masked, slots) ← maskActive rotationCount batch.rShares 0 indices
      let maskedIndicesC ← atActiveAll indices (openVec masked)
      return (⟨K, maskedIndicesC, slots, eFields, batch.rShares⟩, pool)

/-- The polynomials `InstructionRa(0)`, `InstructionRa(1)`, …, one after the other from one pool. -/
def fromIndicesAll (rotationCount K : Nat) :
    List (List (Option (View (BitVec 8)))) → RandOhvPool F →
      Option (List (Rep3OneHotPolynomial F) × RandOhvPool F)
  | [], pool => some ([], pool)
  | indices :: rest, pool => do
    let (poly, pool) ← fromIndices rotationCount K indices pool
    let (polys, pool) ← fromIndicesAll rotationCount K rest pool
    return (poly :: polys, pool)

end

/-- The position of an active cycle among the active cycles. -/
def activeOrdinal {α : Type} (indices : List (Option α)) (j : Nat) : Nat :=
  (indices.take j).countP Option.isSome

/-- What the parties open: each active index under the mask of its slot. -/
def maskedIndices {w : Nat} (rotationCount : Nat) (mask : Nat → BitVec w) :
    Nat → List (Option (BitVec w)) → List (Option (BitVec w))
  | _, [] => []
  | ordinal, none :: rest => none :: maskedIndices rotationCount mask ordinal rest
  | ordinal, some k :: rest =>
    some (k ^^^ mask (ordinal % rotationCount)) ::
      maskedIndices rotationCount mask (ordinal + 1) rest

def slotsOf {α : Type} (rotationCount : Nat) : Nat → List (Option α) → List (Option Nat)
  | _, [] => []
  | ordinal, none :: rest => none :: slotsOf rotationCount ordinal rest
  | ordinal, some _ :: rest =>
    some (ordinal % rotationCount) :: slotsOf rotationCount (ordinal + 1) rest

/-- The parties hold a sharing of each active index, and agree on which cycles are active. -/
inductive IndexShares {w : Nat} : Option (View (BitVec w)) → Option (BitVec w) → Prop
  | idle : IndexShares none none
  | active {x : View (BitVec w)} {k : BitVec w} (h : XorShares x k) : IndexShares (some x) (some k)

theorem XorShares.opened {w : Nat} {x : View (BitVec w)} {k : BitVec w} (h : XorShares x k)
    (p : PartyID) :
    (x p).a ^^^ (x p).b ^^^ (x p.prev).b = k := by
  rw [h.replicated p, h.replicated p.prev, ← h.opens, parity]
  cases p <;> simp only [PartyID.prev] <;> ac_rfl

section Spec

variable {F : Type} {rotationCount : Nat} {pool : RandOhvPool F} {mask : Nat → BitVec 8}

/-- Slots are handed to the active cycles in turn, and each index is opened under the mask of its
slot. -/
theorem maskActive_spec {rShares : List (View (BitVec 8))} (positive : 0 < rotationCount)
    (masks : ∀ slot < rotationCount, ∃ r, rShares[slot]? = some r ∧ XorShares r (mask slot)) :
    ∀ {indices : List (Option (View (BitVec 8)))} {ks : List (Option (BitVec 8))} (ordinal : Nat),
      Forall₂ IndexShares indices ks →
      ∃ masked, maskActive rotationCount rShares ordinal indices =
        some (masked, slotsOf rotationCount ordinal ks) ∧
        ∀ p, atActive indices (openVec masked p) =
          some (maskedIndices rotationCount mask ordinal ks)
  | _, _, _, .nil => ⟨[], rfl, fun _ => rfl⟩
  | none :: _, none :: _, ordinal, .cons .idle rest => by
    obtain ⟨masked, loop, opened⟩ := maskActive_spec positive masks ordinal rest
    refine ⟨masked, by rw [maskActive, loop]; rfl, fun p => ?_⟩
    rw [atActive, opened p]
    rfl
  | some k :: _, some v :: _, ordinal, .cons (.active h) rest => by
    obtain ⟨masked, loop, opened⟩ := maskActive_spec positive masks (ordinal + 1) rest
    obtain ⟨r, found, hr⟩ := masks (ordinal % rotationCount) (Nat.mod_lt _ positive)
    refine ⟨k.map₂ (· ^^^ ·) r :: masked, by rw [maskActive, found, loop]; rfl, fun p => ?_⟩
    rw [openVec, map_cons, XorShares.opened (h.xor hr) p, atActive]
    have tail := opened p
    rw [openVec] at tail
    rw [tail]
    rfl

theorem RandOhvPool.takeBatch_spec (enough : pool.cursor + rotationCount ≤ pool.total) :
    ∃ batch, pool.takeBatch rotationCount =
      some (batch, { pool with cursor := pool.cursor + rotationCount }) ∧
      batch.eFieldsFlat.length = rotationCount * randOhvK ∧
      ∀ slot < rotationCount, batch.rShares[slot]? = some (pool.r (pool.cursor + slot)) := by
  refine ⟨_, by rw [takeBatch, if_neg (by omega)], by simp, fun slot inside => ?_⟩
  simp [inside]

/-- The polynomial opens the indices `ks` under the masks of the pool from position `start` on. -/
structure BuiltFrom (rotationCount : Nat) (pool : RandOhvPool F) (mask : Nat → BitVec 8)
    (start : Nat) (poly : Rep3OneHotPolynomial F) (ks : List (Option (BitVec 8))) : Prop where
  opened : ∀ p, poly.maskedIndicesC p =
    maskedIndices rotationCount (fun slot => mask (start + slot)) 0 ks
  slots : poly.rotationSlotByCycle = slotsOf rotationCount 0 ks
  shares : ∀ slot < rotationCount, poly.rShares[slot]? = some (pool.r (start + slot))

/-- Building one polynomial takes the next masks of the pool and opens the indices under them. -/
theorem fromIndices_spec {indices : List (Option (View (BitVec 8)))} {ks : List (Option (BitVec 8))}
    (positive : 0 < rotationCount) (enough : pool.cursor + rotationCount ≤ pool.total)
    (masks : ∀ i < pool.total, XorShares (pool.r i) (mask i)) (h : Forall₂ IndexShares indices ks) :
    ∃ poly, fromIndices rotationCount randOhvK indices pool =
        some (poly, { pool with cursor := pool.cursor + rotationCount }) ∧
      BuiltFrom rotationCount pool mask pool.cursor poly ks := by
  obtain ⟨batch, take, len, shares⟩ := RandOhvPool.takeBatch_spec enough
  obtain ⟨masked, loop, opened⟩ := maskActive_spec positive (fun slot inside =>
    (⟨_, shares slot inside, masks _ (by omega)⟩ :
      ∃ r, batch.rShares[slot]? = some r ∧ XorShares r (mask (pool.cursor + slot)))) 0 h
  have valid : ¬ (¬ Nat.isPowerOfTwo randOhvK ∨ ¬ randOhvK ≤ 1 <<< 8) := by decide
  have all : atActiveAll indices (openVec masked) =
      some fun _ => maskedIndices rotationCount (fun slot => mask (pool.cursor + slot)) 0 ks := by
    rw [atActiveAll, opened .ID0, opened .ID1, opened .ID2]
    exact congrArg some (funext fun p => by cases p <;> rfl)
  let eFields :=
    (List.range rotationCount).map fun slot =>
    (batch.eFieldsFlat.drop (slot * randOhvK)).take randOhvK
  refine ⟨⟨randOhvK, _, _, eFields, batch.rShares⟩, ?_, fun _ => rfl, rfl, shares⟩
  rw [fromIndices, take]
  simp only [bind_eq_bind, bind_some, len, ne_eq, loop, all]
  rfl

/-- The polynomials take consecutive batches of the pool. -/
theorem fromIndicesAll_spec (positive : 0 < rotationCount) :
    ∀ {family : List (List (Option (View (BitVec 8))))} {secrets : List (List (Option (BitVec 8)))}
      {pool : RandOhvPool F}, (∀ i < pool.total, XorShares (pool.r i) (mask i)) →
      pool.cursor + secrets.length * rotationCount ≤ pool.total →
      Forall₂ (Forall₂ IndexShares) family secrets →
      ∃ polys, fromIndicesAll rotationCount randOhvK family pool =
          some (polys, { pool with cursor := pool.cursor + secrets.length * rotationCount }) ∧
        polys.length = secrets.length ∧
        ∀ {d poly ks}, polys[d]? = some poly → secrets[d]? = some ks →
          BuiltFrom rotationCount pool mask (pool.cursor + d * rotationCount) poly ks
  | [], [], pool, _, _, .nil => ⟨[], by simp [fromIndicesAll], rfl, fun h => nomatch h⟩
  | indices :: family, ks :: secrets, pool, masks, enough, .cons head tail => by
    rw [length_cons, Nat.succ_mul] at enough
    obtain ⟨poly, built, first⟩ := fromIndices_spec positive (by omega) masks head
    obtain ⟨polys, rest, len, others⟩ := @fromIndicesAll_spec positive _ _
      { pool with cursor := pool.cursor + rotationCount } masks (by simp only; omega) tail
    refine ⟨poly :: polys, ?_, by simp [len], fun {d} => ?_⟩
    · rw [fromIndicesAll, built]
      simp only [bind_eq_bind, bind_some, rest]
      simp only [length_cons, Nat.succ_mul, Nat.add_assoc, Nat.add_comm rotationCount]
      rfl
    · cases d with
      | zero =>
        intro poly' ks' atPoly atKs
        cases atPoly
        cases atKs
        simpa using first
      | succ d =>
        intro poly' ks' atPoly atKs
        have other := others atPoly atKs
        have start : pool.cursor + rotationCount + d * rotationCount =
            pool.cursor + (d + 1) * rotationCount := by
          rw [Nat.succ_mul]
          omega
        rw [← start]
        exact ⟨other.opened, other.slots, other.shares⟩

end Spec

end ProviaVM.Poly
