import ProviaVM.Preprocessing.EdaBits

/-! # What an edaBit index means

Regeneration seeks into the two ChaCha streams, so the material of index `i` is a
function of the seeds and `i` alone: the mask components `g1`, `g2` and the field
samples `alpha1`. The lemmas say that every path that generates material, at P0 and P1
and for P0's messages to P2, for any base and any length, produces these values. -/
namespace ProviaVM.Preprocessing
open ByteFile RawElem

section Stream

variable {F : Type} [NatCast F]

def fieldAt (c : ChaCha) (seed : Seed) (pos off : Nat) : F :=
  ((fromLeBytes (c.streamSlice seed pos (off + 8) 8) <<< 64 |||
    fromLeBytes (c.streamSlice seed pos off 8) : Nat) : F)

/-- A sample parsed from a piece of the stream is the sample at its absolute offset. -/
theorem parseField_streamSlice {c : ChaCha} {seed : Seed} {pos off n start : Nat} {x : F}
    (h : parseField (c.streamSlice seed pos off n) start = .ok x) :
    x = fieldAt c seed pos (off + start) := by
  unfold parseField at h
  split at h
  case isFalse => cases h
  rename_i fits
  rw [ChaCha.length_streamSlice] at fits
  have lo := c.slice_streamSlice seed pos off n start 8 (by omega)
  have hi := c.slice_streamSlice seed pos off n (start + 8) 8 (by omega)
  rw [lo, hi] at h
  cases h
  rfl

variable (K : Nat) [RawElem (BitVec K)]

/-- The mask component of item `i` on the stream that also carries the samples. -/
def interleavedMask (c : ChaCha) (seed : Seed) (pos fieldBytes i : Nat) : BitVec K :=
  ringFromLeBytes K (c.streamSlice seed pos (i * stride K fieldBytes) (size (BitVec K)))

/-- The mask component of item `i` on the stream that carries masks only. -/
def packedMask (c : ChaCha) (seed : Seed) (pos i : Nat) : BitVec K :=
  ringFromLeBytes K (c.streamSlice seed pos (i * size (BitVec K)) (size (BitVec K)))

/-- `alpha1` of flat element `e`, that is of item `e / K` and bit `e % K`. -/
def alpha1At (F : Type) [NatCast F] (c : ChaCha) (seed : Seed) (pos fieldBytes e : Nat) : F :=
  fieldAt c seed pos (e / K * stride K fieldBytes + size (BitVec K) + e % K * fieldBytes)

theorem alpha1At_shift {c : ChaCha} {seed : Seed} {pos fieldBytes base e : Nat} (wide : 0 < K) :
    fieldAt c seed pos (base * stride K fieldBytes +
        (e / K * stride K fieldBytes + size (BitVec K) + e % K * fieldBytes)) =
      alpha1At K F c seed pos fieldBytes (base * K + e) := by
  have item : (base * K + e) / K = base + e / K := by
    rw [Nat.add_comm, Nat.add_mul_div_right _ _ wide, Nat.add_comm]
  have bit : (base * K + e) % K = e % K := by
    simp
  rw [alpha1At, item, bit, Nat.add_mul, Nat.add_assoc, Nat.add_assoc, Nat.add_assoc]

end Stream

section Batch

variable {F : Type} [NatCast F] {K : Nat} [RawElem (BitVec K)]
variable {c : ChaCha} {base n fieldBytes : Nat}

/-- The seed and position of the stream P0 and P1 share, as the party holds them. -/
def interleavedSeed (seed1 : Seed) (pos1 : Nat) (seed2 : Seed) (pos2 : Nat) (p : PartyID) :
    Seed × Nat :=
  if p = .ID0 then (seed1, pos1) else (seed2, pos2)

/-- The mask handed out for item `i`: P0's `g1 ^ g2`, zero elsewhere. -/
def gammaAt (K : Nat) [RawElem (BitVec K)] (c : ChaCha) (seed1 : Seed) (pos1 : Nat) (seed2 : Seed)
    (pos2 fieldBytes : Nat) (p : PartyID) (i : Nat) : BitVec K :=
  if p = .ID0 then interleavedMask K c seed1 pos1 fieldBytes i ^^^ packedMask K c seed2 pos2 i
  else 0

/-- The items `base .. base + n` of a source, as index functions give them. -/
def itemsAt (F : Type) [NatCast F] (K : Nat) [RawElem (BitVec K)] (c : ChaCha) (seed1 : Seed)
    (pos1 : Nat) (seed2 : Seed) (pos2 fieldBytes : Nat) (p : PartyID) (base n : Nat) :
    EdaBitsBatch F K :=
  let s := interleavedSeed seed1 pos1 seed2 pos2 p
  ⟨(List.range n).map fun i => gammaAt K c seed1 pos1 seed2 pos2 fieldBytes p (base + i),
    (List.range (n * K)).map fun e => alpha1At K F c s.1 s.2 fieldBytes (base * K + e)⟩

/-- Record `i` of a run of `n` records of `w` bytes, cut out of the stream at record `base`. -/
theorem slice_record {seed : Seed} {pos i w m : Nat} (inside : i < n) (fits : m ≤ w) :
    slice (i * w) m (c.streamSlice seed pos (base * w) (n * w)) =
      c.streamSlice seed pos ((base + i) * w) m := by
  have room : i * w + m ≤ n * w := by
    calc i * w + m ≤ i * w + w := Nat.add_le_add_left fits _
      _ = (i + 1) * w := by rw [Nat.add_mul, Nat.one_mul]
      _ ≤ n * w := Nat.mul_le_mul_right _ inside
  rw [c.slice_streamSlice _ _ _ _ _ _ room, Nat.add_mul]

theorem size_le_stride (K fieldBytes : Nat) [RawElem (BitVec K)] :
    size (BitVec K) ≤ stride K fieldBytes := Nat.le_add_right _ _

/-- P0's mask of record `i`, cut out of its two streams. -/
theorem mask_record {seed1 seed2 : Seed} {pos1 pos2 i : Nat} (inside : i < n) :
    ringFromLeBytes K (slice (i * stride K fieldBytes) (size (BitVec K))
        (c.streamSlice seed1 pos1 (base * stride K fieldBytes) (n * stride K fieldBytes))) ^^^
      ringFromLeBytes K (slice (i * size (BitVec K)) (size (BitVec K))
        (c.streamSlice seed2 pos2 (base * size (BitVec K)) (n * size (BitVec K)))) =
      interleavedMask K c seed1 pos1 fieldBytes (base + i) ^^^
        packedMask K c seed2 pos2 (base + i) := by
  rw [slice_record inside (size_le_stride K fieldBytes), slice_record inside (Nat.le_refl _)]
  rfl

/-- The samples parsed out of a run of records are those of the absolute elements. -/
theorem samples_eq {seed : Seed} {pos : Nat} {xs : List F}
    (h : (List.range (n * K)).mapM (fun idx => parseField (F := F)
        (c.streamSlice seed pos (base * stride K fieldBytes) (n * stride K fieldBytes))
        (idx / K * stride K fieldBytes + size (BitVec K) + idx % K * fieldBytes)) = .ok xs) :
    xs = (List.range (n * K)).map fun e => alpha1At K F c seed pos fieldBytes (base * K + e) := by
  refine Run.mapM_ok (fun e member x parsed => ?_) h
  have wide : 0 < K := Nat.pos_of_ne_zero fun zero => by
    subst zero
    simp at member
  rw [parseField_streamSlice parsed, alpha1At_shift K wide]

/-- Regeneration from any base gives the items of the requested indices. -/
theorem generateIntoFromState_eq {seed1 seed2 : Seed} {pos1 pos2 : Nat} {p : PartyID}
    {b : EdaBitsBatch F K}
    (h : generateIntoFromState c seed1 pos1 seed2 pos2 fieldBytes p base n = .ok b) :
    b = itemsAt F K c seed1 pos1 seed2 pos2 fieldBytes p base n := by
  unfold generateIntoFromState at h
  split at h
  · rename_i zero
    cases h
    simp [itemsAt, zero]
  by_cases isP0 : p = .ID0
  · simp only [isP0, ChaCha.seekAndGenerate_eq] at h
    obtain ⟨alphas, parsed, last⟩ := Run.bind_ok.mp h
    cases last
    rw [samples_eq parsed]
    simp only [itemsAt, interleavedSeed, isP0, if_true, EdaBitsBatch.mk.injEq, and_true]
    apply List.map_congr_left
    intro i member
    exact mask_record (List.mem_range.mp member)
  · simp only [isP0, ChaCha.seekAndGenerate_eq] at h
    obtain ⟨alphas, parsed, last⟩ := Run.bind_ok.mp h
    cases last
    rw [samples_eq parsed]
    simp only [itemsAt, interleavedSeed, gammaAt, isP0]
    simp

/-- A run of items is its first `k` items and the rest. -/
theorem itemsAt_append {seed1 seed2 : Seed} {pos1 pos2 k : Nat} {p : PartyID} (le : k ≤ n) :
    EdaBitsBatch.mk
        ((itemsAt F K c seed1 pos1 seed2 pos2 fieldBytes p base k).gammas ++
          (itemsAt F K c seed1 pos1 seed2 pos2 fieldBytes p (base + k) (n - k)).gammas)
        ((itemsAt F K c seed1 pos1 seed2 pos2 fieldBytes p base k).alphasFlat ++
          (itemsAt F K c seed1 pos1 seed2 pos2 fieldBytes p (base + k) (n - k)).alphasFlat) =
      itemsAt F K c seed1 pos1 seed2 pos2 fieldBytes p base n := by
  obtain ⟨m, rfl⟩ := Nat.exists_eq_add_of_le le
  simp only [itemsAt, Nat.add_sub_cancel_left, Nat.add_mul, List.range_add, List.map_append,
    List.map_map, Function.comp_def, Nat.add_assoc]

end Batch

end ProviaVM.Preprocessing
