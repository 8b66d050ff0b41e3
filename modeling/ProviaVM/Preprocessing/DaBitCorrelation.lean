import ProviaVM.Preprocessing.EdaBitCorrelation
import ProviaVM.Preprocessing.StoreKinds
import ProviaVM.Rep3.Share

/-! # The daBit correlation across the three parties

`dabits.rs` and the daBit phases of `pool.rs`. P0 and P1 share a stream with the samples
`alpha1` and `r1` of every daBit, P0 and P2 one with half of the mask `gamma`, P1 and P2 one
with `theta`. P1 regenerates its material, P0 keeps `s20` and P2 keeps `s20` and `s12`, which
the parties computed and sent when the daBits were made. One index means one position on the
streams and one place in the stores; `DaLock` is that invariant. Whatever is handed out is
then a function of the index alone, and the relation `v = (-1)^theta * gamma` holds for it.

A chunk of items never has more elements than one message, so it is passed as one list. -/
namespace ProviaVM.Preprocessing
open ByteFile RawElem Rep3 Run BackingStore List

section Model

variable {F : Type} [Ring F] [RawElem F]

def negOnePow (F : Type) [Ring F] (theta : Bool) : F := if theta then -1 else 1

def fieldOfBit (F : Type) [NatCast F] (bit : Bool) : F := ((if bit then 1 else 0 : Nat) : F)

/-- P0's message: the second additive part of the mask, from the bytes of its two streams. -/
def dabitAlpha2 (s1 g2 : List UInt8) (num fb : Nat) : Except IoError (List F) :=
  (List.range num).mapM fun i => do
    let gbit := ((s1.getD (i * LazyDaBits.daStride fb) 0 ^^^ g2.getD i 0) &&& 1) != 0
    let alpha1 : F ← parseField s1 (i * LazyDaBits.daStride fb + 1)
    return fieldOfBit F gbit - alpha1

/-- P1's message, from the bytes of its two streams. -/
def dabitS12 (thetaBytes s2 : List UInt8) (num fb : Nat) : Except IoError (List F) :=
  (List.range num).mapM fun i => do
    let theta := (thetaBytes.getD i 0 &&& 1) != 0
    let alpha1 : F ← parseField s2 (i * LazyDaBits.daStride fb + 1)
    let r1 : F ← parseField s2 (i * LazyDaBits.daStride fb + 1 + fb)
    return negOnePow F theta * alpha1 - r1

/-- P2's message: the signs applied to what P0 sent. -/
def dabitS20 (thetaBytes : List UInt8) (alpha2 : List F) : List F :=
  alpha2.zipWith (fun a t => negOnePow F ((t &&& 1) != 0) * a) thetaBytes

/-- `dabit_alpha2_seed_chunk`, also the inline computation of an extension. -/
def dabitAlpha2SeedChunk (c : ChaCha) (r : Rep3Rand) (startItem num fb : Nat) :
    Except IoError (List F) :=
  if num = 0 then .ok []
  else dabitAlpha2
    (c.seekAndGenerate r.seed1 r.pos1 (startItem * LazyDaBits.daStride fb)
      (num * LazyDaBits.daStride fb))
    (c.seekAndGenerate r.seed2 r.pos2 startItem num) num fb

/-- `dabit_s12_seed_chunk`: P1 has `theta` on its first stream and the samples on its second. -/
def dabitS12SeedChunk (c : ChaCha) (r : Rep3Rand) (startItem num fb : Nat) :
    Except IoError (List F) :=
  if num = 0 then .ok []
  else dabitS12 (c.seekAndGenerate r.seed1 r.pos1 startItem num)
    (c.seekAndGenerate r.seed2 r.pos2 (startItem * LazyDaBits.daStride fb)
      (num * LazyDaBits.daStride fb)) num fb

def dabitS20FromThetaSeed (c : ChaCha) (r : Rep3Rand) (startItem : Nat) (alpha2 : List F) :
    List F :=
  if alpha2.isEmpty then [] else dabitS20 (c.seekAndGenerate r.seed2 r.pos2 startItem alpha2.length)
    alpha2

namespace LazyDaBits

/-- `LazyDaBits::empty`; `fb` is the byte length of the field's modulus. -/
def empty (fb : Nat) (p : PartyID) : LazyDaBits F :=
  ⟨List.replicate 32 0, 0, List.replicate 32 0, 0, fb, p, 0, 0, .empty, none⟩

def newWithStore (r : Rep3Rand) (total fb : Nat) (stored : BackingStore F) (p : PartyID) :
    LazyDaBits F :=
  ⟨r.seed1, r.pos1, r.seed2, r.pos2, fb, p, total, 0, stored, none⟩

def new (r : Rep3Rand) (total fb : Nat) (stored : List F) (p : PartyID) : LazyDaBits F :=
  newWithStore r total fb (fromVec stored) p

/-- The seed snapshots of a source, `extension_seeds`. -/
def rand (s : LazyDaBits F) : Rep3Rand := ⟨s.seed1, s.pos1, s.seed2, s.pos2⟩

def applyExtension (s : LazyDaBits F) (d : Disk) (deficit : Nat) (storedExt : List F) :
    Except IoError (LazyDaBits F × Disk) := do
  if deficit = 0 then return (s, d)
  let (stored, d) ← LazyEdaBits.extendStore s.stored d storedExt
  return ({ s with stored := stored, total := s.total + deficit }, d)

end LazyDaBits

/-- The daBit sources of the three parties and their disks. -/
structure DaParties (F : Type) where
  source : PartyID → LazyDaBits F
  disk : PartyID → Disk

def perParty {α : Type} (x0 x1 x2 : α) : PartyID → α
  | .ID0 => x0
  | .ID1 => x1
  | .ID2 => x2

/-- `random_dabits_lazy` at the three parties, each from a fork of its generators. -/
def randomDabitsLazy (c : ChaCha) (fb num : Nat) (rand : PartyID → Rep3Rand)
    (disk : PartyID → Disk) :
    Except IoError (DaParties F) := do
  if num = 0 then return ⟨LazyDaBits.empty fb, disk⟩
  let r0 := ((rand .ID0).fork c).1
  let r1 := ((rand .ID1).fork c).1
  let r2 := ((rand .ID2).fork c).1
  let st := LazyDaBits.daStride fb
  let alpha2 : List F ← dabitAlpha2 (c.fillBytes r0.seed1 r0.pos1 (num * st))
    (c.fillBytes r0.seed2 r0.pos2 num) num fb
  let s12 ← dabitS12 (c.fillBytes r1.seed1 r1.pos1 num) (c.fillBytes r1.seed2 r1.pos2 (num * st))
    num fb
  let s20 := dabitS20 (c.fillBytes r2.seed2 r2.pos2 num) alpha2
  return ⟨perParty (.new r0 num fb s20 .ID0) (.new r1 num fb [] .ID1)
    (.new r2 num fb (BackingStore.interleave s20 s12) .ID2), disk⟩

/-- The last of the six forks `preprocess_pool_base` makes. -/
def daRand (c : ChaCha) (r : Rep3Rand) : Rep3Rand :=
  ((((((r.fork c).2.fork c).2.fork c).2.fork c).2.fork c).2.fork c).1

/-- One chunk of the daBit phase of `preprocess_pool_base`: P0 and P1 send their parts to P2,
which stores both and sends `s20` back for P0 to store. -/
def fillChunk (c : ChaCha) (fb num maxItems : Nat) (r : PartyID → Rep3Rand)
    (at_ : (BackingStore F × Disk) × (BackingStore F × Disk)) (offset : Nat) :
    Except IoError ((BackingStore F × Disk) × (BackingStore F × Disk)) := do
  let items := min (num - offset) maxItems
  let alpha2 ← dabitAlpha2SeedChunk c (r .ID0) offset items fb
  let s12 ← dabitS12SeedChunk c (r .ID1) offset items fb
  let s20 := dabitS20FromThetaSeed c (r .ID2) offset alpha2
  let at2 ← at_.2.1.writeInterleavedAt at_.2.2 offset s20 s12
  let at0 ← at_.1.1.writeBytesAt at_.1.2 offset (bytesOf s20)
  return (at0, at2)

/-- The daBit part of `preprocess_pool_base`. -/
def preprocessDabits (c : ChaCha) (cfg : PoolCfg) (fb : Nat) (dir : String) (num : Nat)
    (rand : PartyID → Rep3Rand) (disk : PartyID → Disk) : Except IoError (DaParties F) := do
  let r := fun p => daRand c (rand p)
  let made0 := createFileBackedSized F (disk .ID0) ⟨dir, .dabitsStored⟩ num
  let made2 := createFileBackedSized F (disk .ID2) ⟨dir, .dabitsStored⟩ (num * 2)
  let ((stored0, d0), (stored2, d2)) ←
    (stepBy num (max cfg.maxMsgElems 1)).foldlM (fillChunk c fb num (max cfg.maxMsgElems 1) r)
      (made0, made2)
  let (src0, d0) ← (LazyDaBits.newWithStore (r .ID0) num fb stored0 .ID0).save d0 dir
  let (src1, d1) ← (LazyDaBits.new (F := F) (r .ID1) num fb [] .ID1).save (disk .ID1) dir
  let (src2, d2) ← (LazyDaBits.newWithStore (r .ID2) num fb stored2 .ID2).save d2 dir
  return ⟨perParty src0 src1 src2, perParty d0 d1 d2⟩

namespace DaParties

def rand (s : DaParties F) : PartyID → Rep3Rand := fun p => (s.source p).rand

/-- One chunk of the daBit phase of `extend_pool_batched_base`; `old` is the total of each
party before the first chunk. -/
def extendChunk (c : ChaCha) (fb : Nat) (old : PartyID → Nat) (deficit maxItems : Nat)
    (s : DaParties F) (done : Nat) :
    Except IoError (DaParties F) := do
  let items := min (deficit - done) maxItems
  let alpha2 ← dabitAlpha2SeedChunk c (s.source .ID0).rand (old .ID0 + done) items fb
  let s12 ← dabitS12SeedChunk c (s.source .ID1).rand (old .ID1 + done) items fb
  let s20 := dabitS20FromThetaSeed c (s.source .ID2).rand (old .ID2 + done) alpha2
  let (src2, d2) ← (s.source .ID2).applyExtension (s.disk .ID2) items
    (BackingStore.interleave s20 s12)
  let (src0, d0) ← (s.source .ID0).applyExtension (s.disk .ID0) items s20
  return ⟨perParty src0 (s.source .ID1) src2, perParty d0 (s.disk .ID1) d2⟩

/-- The daBit part of `extend_pool_batched_base`. P1 counts the new items once, at the end. -/
def extend (c : ChaCha) (cfg : PoolCfg) (fb deficit : Nat) (s : DaParties F) :
    Except IoError (DaParties F) := do
  if deficit = 0 then return s
  let old := fun p => (s.source p).total
  let s ← (stepBy deficit (max cfg.maxMsgElems 1)).foldlM
    (extendChunk c fb old deficit (max cfg.maxMsgElems 1)) s
  let (src1, d1) ← (s.source .ID1).applyExtension (s.disk .ID1) deficit []
  return ⟨perParty (s.source .ID0) src1 (s.source .ID2), perParty (s.disk .ID0) d1 (s.disk .ID2)⟩

/-- `take_batch(n)` at every party. -/
def take (c : ChaCha) (os : PartyID → Os) (n : Nat) (s : DaParties F) :
    Except IoError ((PartyID → DaBitBatch F) × DaParties F) := do
  let (b0, src0, ws0) ← (s.source .ID0).takeBatch c (os .ID0) (s.disk .ID0) n
  let (b1, src1, ws1) ← (s.source .ID1).takeBatch c (os .ID1) (s.disk .ID1) n
  let (b2, src2, ws2) ← (s.source .ID2).takeBatch c (os .ID2) (s.disk .ID2) n
  return (perParty b0 b1 b2, ⟨perParty src0 src1 src2,
    perParty ((s.disk .ID0).applyAll ws0) ((s.disk .ID1).applyAll ws1)
      ((s.disk .ID2).applyAll ws2)⟩)

end DaParties

/-- What the parties do together after the daBits were made. -/
inductive DaOp where
  | extend (cfg : PoolCfg) (deficit : Nat)
  | take (os : PartyID → Os) (n : Nat)

def DaBitBatch.append (b b' : DaBitBatch F) : DaBitBatch F :=
  ⟨b.gammas ++ b'.gammas, b.thetas ++ b'.thetas, b.vShares ++ b'.vShares⟩

/-- A run: the parties, and everything each of them was handed so far. -/
structure DaRun (F : Type) where
  parties : DaParties F
  handed : PartyID → DaBitBatch F

def DaRun.start (s : DaParties F) : DaRun F := ⟨s, fun _ => ⟨[], [], []⟩⟩

def DaRun.step (c : ChaCha) (fb : Nat) (s : DaRun F) : DaOp → Except IoError (DaRun F)
  | .extend cfg deficit => do
    let parties ← s.parties.extend c cfg fb deficit
    return { s with parties := parties }
  | .take os n => do
    let (batch, parties) ← s.parties.take c os n
    return ⟨parties, fun p => (s.handed p).append (batch p)⟩

def DaOp.taken : DaOp → Nat
  | .extend _ _ => 0
  | .take _ n => n

end Model

section Index

variable {F : Type} [Ring F] (c : ChaCha) (fb : Nat) (r : PartyID → Rep3Rand) (i : Nat)

/-- The mask bit of daBit `i`, as P0 derives it. -/
def daGammaBit : Bool :=
  ((c.streamByte (r .ID0).seed1 (r .ID0).pos1 (i * LazyDaBits.daStride fb) ^^^
    c.streamByte (r .ID0).seed2 (r .ID0).pos2 i) &&& 1) != 0

/-- The sign bit of daBit `i`, as P1 derives it. -/
def daThetaBit : Bool := (c.streamByte (r .ID1).seed1 (r .ID1).pos1 i &&& 1) != 0

variable (F)

/-- P0's and P1's sample of the mask. -/
def daAlpha1 : F := fieldAt c (r .ID0).seed1 (r .ID0).pos1 (i * LazyDaBits.daStride fb + 1)

/-- The component of `v` that P0 and P1 share. -/
def daR1 : F := fieldAt c (r .ID0).seed1 (r .ID0).pos1 (i * LazyDaBits.daStride fb + 1 + fb)

def daAlpha2 : F := fieldOfBit F (daGammaBit c fb r i) - daAlpha1 F c fb r i

/-- The component of `v` that P1 and P2 share. -/
def daS12 : F := negOnePow F (daThetaBit c r i) * daAlpha1 F c fb r i - daR1 F c fb r i

/-- The component of `v` that P2 and P0 share. -/
def daS20 : F := negOnePow F (daThetaBit c r i) * daAlpha2 F c fb r i

/-- The components add up to `(-1)^theta * gamma`. -/
theorem daComponents_add :
    daR1 F c fb r i + daS12 F c fb r i + daS20 F c fb r i =
      negOnePow F (daThetaBit c r i) * fieldOfBit F (daGammaBit c fb r i) := by
  rw [daS12, daS20, daAlpha2, mul_sub]
  abel

/-- What a party is handed for the indices `base .. base + n`. -/
def daBatchAt (p : PartyID) (base n : Nat) : DaBitBatch F where
  gammas := (List.range n).map fun i => p = .ID0 && daGammaBit c fb r (base + i)
  thetas := (List.range n).map fun i => p ≠ .ID0 && daThetaBit c r (base + i)
  vShares := (List.range n).map fun i =>
    match p with
    | .ID0 => (daR1 F c fb r (base + i), daS20 F c fb r (base + i))
    | .ID1 => (daS12 F c fb r (base + i), daR1 F c fb r (base + i))
    | .ID2 => (daS20 F c fb r (base + i), daS12 F c fb r (base + i))

end Index

section Chunks

variable {F : Type} [Ring F] {c : ChaCha} {fb : Nat} {r : PartyID → Rep3Rand} {n base : Nat}

theorem getD_streamSlice {seed : Seed} {pos off i : Nat} (inside : i < n) :
    (c.streamSlice seed pos off n).getD i 0 = c.streamByte seed pos (off + i) := by
  simp [ChaCha.streamSlice, inside]

theorem fillBytes_eq (c : ChaCha) (seed : Seed) (pos n : Nat) :
    c.fillBytes seed pos n = c.streamSlice seed pos 0 n := by
  simp [ChaCha.fillBytes, ChaCha.streamSlice]

/-- The place of a record of the shared stream in a piece of it. -/
theorem record_inside {i : Nat} (inside : i < n) :
    i * LazyDaBits.daStride fb < n * LazyDaBits.daStride fb :=
  Nat.mul_lt_mul_of_pos_right inside (by unfold LazyDaBits.daStride; omega)

theorem record_add (base i : Nat) :
    base * LazyDaBits.daStride fb + i * LazyDaBits.daStride fb =
      (base + i) * LazyDaBits.daStride fb :=
  (Nat.add_mul _ _ _).symm

theorem dabitAlpha2_eq {xs : List F}
    (h :
      dabitAlpha2
    (c.streamSlice (r .ID0).seed1 (r .ID0).pos1 (base * LazyDaBits.daStride fb)
      (n * LazyDaBits.daStride fb))
      (c.streamSlice (r .ID0).seed2 (r .ID0).pos2 base n) n fb = .ok xs) :
    xs = (List.range n).map fun i => daAlpha2 F c fb r (base + i) := by
  refine mapM_ok (fun i member x parsed => ?_) h
  have inside := mem_range.mp member
  obtain ⟨alpha1, sample, last⟩ := bind_ok.mp parsed
  cases last
  rw [getD_streamSlice (record_inside inside), getD_streamSlice inside,
    parseField_streamSlice sample, ← Nat.add_assoc, record_add]
  rfl

/-- The generators of P1 and P2, as seen from the party they are shared with. -/
theorem Correlated.shared (seeds : Correlated r) :
    (r .ID1).seed2 = (r .ID0).seed1 ∧ (r .ID1).pos2 = (r .ID0).pos1 ∧
      (r .ID2).seed2 = (r .ID1).seed1 ∧ (r .ID2).pos2 = (r .ID1).pos1 :=
  ⟨(seeds .ID0).1.symm, (seeds .ID0).2.symm, (seeds .ID1).1.symm, (seeds .ID1).2.symm⟩

theorem dabitS12_eq (seeds : Correlated r) {xs : List F}
    (h : dabitS12 (c.streamSlice (r .ID1).seed1 (r .ID1).pos1 base n)
      (c.streamSlice (r .ID1).seed2 (r .ID1).pos2 (base * LazyDaBits.daStride fb)
      (n * LazyDaBits.daStride fb)) n fb = .ok xs) :
    xs = (List.range n).map fun i => daS12 F c fb r (base + i) := by
  obtain ⟨seed2, pos2, -, -⟩ := seeds.shared
  rw [seed2, pos2] at h
  refine mapM_ok (fun i member x parsed => ?_) h
  have inside := mem_range.mp member
  obtain ⟨alpha1, sample, parsed⟩ := bind_ok.mp parsed
  obtain ⟨r1, sample', last⟩ := bind_ok.mp parsed
  cases last
  rw [getD_streamSlice inside, parseField_streamSlice sample, parseField_streamSlice sample',
    ← Nat.add_assoc, ← Nat.add_assoc, ← Nat.add_assoc, record_add]
  rfl

theorem dabitS20_eq (seeds : Correlated r) (base n : Nat) :
    dabitS20 (c.streamSlice (r .ID2).seed2 (r .ID2).pos2 base n) ((List.range n).map fun i =>
      daAlpha2 F c fb r (base + i)) =
      (List.range n).map fun i => daS20 F c fb r (base + i) := by
  obtain ⟨-, -, seed2, pos2⟩ := seeds.shared
  rw [seed2, pos2, dabitS20, ChaCha.streamSlice, zipWith_map, zipWith_self]
  rfl

/-- The three messages of a chunk that starts at item `base`. -/
theorem chunk_eq (seeds : Correlated r) {alpha2 s12 : List F}
    (sent0 : dabitAlpha2SeedChunk c (r .ID0) base n fb = .ok alpha2)
    (sent1 : dabitS12SeedChunk c (r .ID1) base n fb = .ok s12) :
    dabitS20FromThetaSeed c (r .ID2) base alpha2 =
      (List.range n).map (fun i => daS20 F c fb r (base + i)) ∧
      s12 = (List.range n).map fun i => daS12 F c fb r (base + i) := by
  unfold dabitAlpha2SeedChunk at sent0
  unfold dabitS12SeedChunk at sent1
  split at sent0
  · rename_i zero
    rw [if_pos zero] at sent1
    cases sent0
    cases sent1
    subst zero
    exact ⟨rfl, rfl⟩
  rename_i some_
  rw [if_neg some_] at sent1
  simp only [ChaCha.seekAndGenerate_eq] at sent0 sent1
  have alphas := dabitAlpha2_eq sent0
  have length : alpha2.length = n := by simp [alphas]
  have nonempty : ¬ alpha2.isEmpty = true := by
    rw [isEmpty_iff_length_eq_zero, length]
    exact some_
  refine ⟨?_, dabitS12_eq seeds sent1⟩
  simp [dabitS20FromThetaSeed, ChaCha.seekAndGenerate_eq, alphas, dabitS20_eq seeds]

end Chunks

section Pairs

variable {α : Type}

def pairs (f g : Nat → α) (n : Nat) : List α := (List.range n).flatMap fun i => [f i, g i]

theorem length_pairs (f g : Nat → α) (n : Nat) : (pairs f g n).length = 2 * n := by
  simp [pairs, Nat.mul_comm]

theorem pairs_add (f g : Nat → α) (m n : Nat) :
    pairs f g (m + n) = pairs f g m ++ pairs (fun i => f (m + i)) (fun i => g (m + i)) n := by
  simp only [pairs, range_add, flatMap_append, flatMap_map]

theorem interleave_map (f g : Nat → α) (n : Nat) :
    BackingStore.interleave ((List.range n).map f) ((List.range n).map g) = pairs f g n := by
  simp only [BackingStore.interleave, pairs, zip_map', flatMap_map]

/-- The interleaved write of two sequences. -/
theorem writeInterleavedAt_map [RawElem α] (store : BackingStore α) (d : Disk) (start : Nat)
    (f g : Nat → α) (n : Nat) :
    store.writeInterleavedAt d start ((List.range n).map f) ((List.range n).map g) =
      store.writeAt d (start * 2) (pairs f g n) := by
  unfold writeInterleavedAt
  rw [if_neg (by simp), interleave_map]
  split
  · rename_i nothing
    obtain rfl : n = 0 := by simpa using nothing
    rfl
  · rfl

theorem pairUp_pairs (f g : Nat → α) (n : Nat) :
    pairUp n (pairs f g n) = .ok ((List.range n).map fun i => (f i, g i)) := by
  induction n generalizing f g with
  | zero => rfl
  | succ n ih =>
    have first :
        pairs f g (n + 1) = f 0 :: g 0 :: pairs (fun i => f (i + 1)) (fun i => g (i + 1)) n := by
      simp only [pairs, range_succ_eq_map, flatMap_cons, flatMap_map, cons_append, nil_append]
    rw [first, pairUp, ih, range_succ_eq_map, map_cons, map_map]
    rfl

/-- Items of an interleaved list by their index. -/
theorem slice_pairs (f g : Nat → α) {base n total : Nat} (inside : base + n ≤ total) :
    ((pairs f g total).drop (base * 2)).take (2 * n) =
      pairs (fun i => f (base + i)) (fun i => g (base + i)) n := by
  obtain ⟨rest, rfl⟩ := Nat.exists_eq_add_of_le inside
  rw [Nat.add_assoc, pairs_add, drop_left' (by rw [length_pairs, Nat.mul_comm]), pairs_add,
    take_left' (length_pairs _ _ _)]

theorem slice_map_range (f : Nat → α) {base n total : Nat} (inside : base + n ≤ total) :
    (((List.range total).map f).drop base).take n = (List.range n).map fun i => f (base + i) := by
  obtain ⟨rest, rfl⟩ := Nat.exists_eq_add_of_le inside
  have first : ((List.range base).map f).length = base := by simp
  have second : ((List.range n).map fun i => f (base + i)).length = n := by simp
  simp only [range_add]
  simp

end Pairs

section Stores

variable {α : Type} [RawElem α] {s : StoreSys α} {xs : List α} {consumed : Nat → Prop}

/-- A store that stands for a list, `Empty` for the empty one, ready to be extended. -/
structure Keeps (s : StoreSys α) (xs : List α) (consumed : Nat → Prop) : Prop where
  kept : s.store = .empty ∧ xs = [] ∨ Holds s xs consumed
  atEnd : AppendsAtEnd s.store

theorem Keeps.fromVec (xs : List α) (d : Disk) (consumed : Nat → Prop) :
    Keeps ⟨fromVec xs, d⟩ xs consumed := by
  cases xs with
  | nil => exact ⟨Or.inl ⟨rfl, rfl⟩, trivial⟩
  | cons x xs => exact ⟨Or.inr (Holds.of_vector _ _ _), trivial⟩

theorem Keeps.read (h : Keeps s xs consumed) {start stop : Nat} (ordered : start ≤ stop)
    (inside : stop ≤ xs.length) (fresh : ∀ e, start ≤ e → e < stop → ¬ consumed e) {ys : List α}
    (read : s.store.readConsume s.disk start stop = .ok ys) :
    ys = (xs.drop start).take (stop - start) := by
  rcases h.kept with ⟨empty, rfl⟩ | holds
  · rw [empty] at read
    cases read
    simp
  · have same := readConsume_eq holds fresh
    rw [read, sliceOf, if_pos ⟨ordered, inside⟩] at same
    exact Option.some.inj same

theorem Keeps.extend (h : Keeps s xs consumed) {ys : List α} {store : BackingStore α} {d : Disk}
    (extended : LazyEdaBits.extendStore s.store s.disk ys = .ok (store, d)) :
    Keeps ⟨store, d⟩ (xs ++ ys) consumed := by
  rcases h.kept with ⟨empty, rfl⟩ | holds
  · rw [empty, LazyEdaBits.extendStore] at extended
    split at extended
    · rename_i nothing
      cases extended
      exact ⟨Or.inl ⟨rfl, by simpa using nothing⟩, trivial⟩
    · cases extended
      exact ⟨Or.inr (Holds.of_vector _ _ _), trivial⟩
  · have grown :
        Becomes s (s.change (LazyEdaBits.extendStore s.store s.disk ys)) (xs ++ ys) consumed :=
      extend_becomes holds fun _ => h.atEnd
    rw [extended] at grown
    exact ⟨Or.inr grown.holds, grown.atEnd h.atEnd⟩

/-- Taking a range: the cursor is written, then the range is consumed. -/
theorem Keeps.take (h : Keeps s xs consumed) {consumed' : Nat → Prop} {os : Os}
    {start stop cursor : Nat} {metaPath : Option Path} (more : ∀ e, consumed e → consumed' e)
    (spent : ∀ e, start ≤ e → e < stop → consumed' e) :
    Keeps ⟨s.store, s.disk.applyAll (persistTo metaPath cursor ++ s.store.consume os start stop)⟩
      xs consumed' := by
  refine ⟨?_, h.atEnd⟩
  rcases h.kept with empty | holds
  · exact Or.inl empty
  · refine Or.inr (holds.applyAll more fun e _ fresh path _ w member => ?_)
    rcases mem_append.mp member with header | zeroing
    · exact spares_of_mem_persistTo header
    · exact holds.consume_spares (fun within => fresh (spent e within.2.1 within.2.2)) zeroing

end Stores

section Takes

variable {F : Type} [Ring F] [RawElem F] {c : ChaCha} {fb : Nat} {r : PartyID → Rep3Rand}
  {src src' : LazyDaBits F} {os : Os} {d : Disk} {n total : Nat} {b : DaBitBatch F}
  {ws : List Write}

theorem lowBits_streamSlice (seed : Seed) (pos base n : Nat) :
    LazyDaBits.lowBits (c.streamSlice seed pos base n) =
      (List.range n).map fun i => (c.streamByte seed pos (base + i) &&& 1) != 0 := by
  simp [LazyDaBits.lowBits, ChaCha.streamSlice]

/-- P1 has no store: its batch comes from its two streams and nothing is written. -/
theorem takeBatch_p1 (seeds : Correlated r) (party : src.partyId = .ID1)
    (bytes : src.fieldBytes = fb) (rand : src.rand = r .ID1)
    (h : src.takeBatch c os d n = .ok (b, src', ws)) :
    src.cursor + n ≤ src.total ∧ b = daBatchAt F c fb r .ID1 src.cursor n ∧
      src' = { src with cursor := src.cursor + n } ∧ ws = [] := by
  obtain ⟨shared2, sharedPos2, -, -⟩ := seeds.shared
  have seed1 : src.seed1 = (r .ID1).seed1 := congrArg Rep3Rand.seed1 rand
  have pos1 : src.pos1 = (r .ID1).pos1 := congrArg Rep3Rand.pos1 rand
  have seed2 : src.seed2 = (r .ID0).seed1 := (congrArg Rep3Rand.seed2 rand).trans shared2
  have pos2 : src.pos2 = (r .ID0).pos1 := (congrArg Rep3Rand.pos2 rand).trans sharedPos2
  unfold LazyDaBits.takeBatch at h
  split at h
  · cases h
  simp only [party, bytes, seed1, pos1, seed2, pos2, ChaCha.seekAndGenerate_eq,
    lowBits_streamSlice] at h
  obtain ⟨vShares, computed, last⟩ := bind_ok.mp h
  cases last
  refine ⟨by omega, ?_, by simp only [party, bytes, seed1, pos1, seed2, pos2], rfl⟩
  have values : vShares = (List.range n).map fun i =>
      (daS12 F c fb r (src.cursor + i), daR1 F c fb r (src.cursor + i)) := by
    refine mapM_ok (fun i member x parsed => ?_) computed
    have inside := mem_range.mp member
    obtain ⟨alpha1, sample, parsed⟩ := bind_ok.mp parsed
    obtain ⟨r1, sample', last⟩ := bind_ok.mp parsed
    cases last
    have theta :
      ((List.range n).map fun i =>
      (c.streamByte (r .ID1).seed1 (r .ID1).pos1 (src.cursor + i) &&& 1) != 0).getD i false =
        daThetaBit c r (src.cursor + i) := by
      simp [inside, daThetaBit]
    rw [theta, parseField_streamSlice sample, parseField_streamSlice sample', ← Nat.add_assoc,
      ← Nat.add_assoc, ← Nat.add_assoc, record_add]
    rfl
  rw [values, daBatchAt]
  simp only [DaBitBatch.mk.injEq]
  exact ⟨by simp, by simp [daThetaBit]⟩

/-- P0 regenerates its masks and `r1`, and reads `s20`. -/
theorem takeBatch_p0 (party : src.partyId = .ID0) (bytes : src.fieldBytes = fb)
    (rand : src.rand = r .ID0)
    (kept : Keeps ⟨src.stored, d⟩ ((List.range src.total).map (daS20 F c fb r)) (· < src.cursor))
    (h : src.takeBatch c os d n = .ok (b, src', ws)) :
    src.cursor + n ≤ src.total ∧ b = daBatchAt F c fb r .ID0 src.cursor n ∧
      src' = { src with cursor := src.cursor + n } ∧
      ws = persistTo src.metaPath (src.cursor + n) ++
        src.stored.consume os src.cursor (src.cursor + n) := by
  have seed1 : src.seed1 = (r .ID0).seed1 := congrArg Rep3Rand.seed1 rand
  have pos1 : src.pos1 = (r .ID0).pos1 := congrArg Rep3Rand.pos1 rand
  have seed2 : src.seed2 = (r .ID0).seed2 := congrArg Rep3Rand.seed2 rand
  have pos2 : src.pos2 = (r .ID0).pos2 := congrArg Rep3Rand.pos2 rand
  unfold LazyDaBits.takeBatch at h
  split at h
  · cases h
  have available : src.cursor + n ≤ src.total := by omega
  simp only [party, bytes, seed1, pos1, seed2, pos2, ChaCha.seekAndGenerate_eq] at h
  obtain ⟨stored, read, h⟩ := bind_ok.mp h
  obtain ⟨r1s, parsed, h⟩ := bind_ok.mp h
  obtain ⟨vShares, zipped, last⟩ := bind_ok.mp h
  cases last
  refine ⟨available, ?_, by simp only [party, bytes, seed1, pos1, seed2, pos2], rfl⟩
  have s20 :=
    kept.read (Nat.le_add_right _ n) (by simpa using available) (fun e low _ => Nat.not_lt.mpr low)
    (unwrapOrPanic_ok.mp read)
  rw [Nat.add_sub_cancel_left, slice_map_range _ available] at s20
  have r1 : r1s = (List.range n).map fun i => daR1 F c fb r (src.cursor + i) := by
    refine mapM_ok (fun i member x sample => ?_) parsed
    rw [parseField_streamSlice sample, ← Nat.add_assoc, ← Nat.add_assoc, record_add]
    rfl
  have values : vShares = (List.range n).map fun i =>
      (daR1 F c fb r (src.cursor + i), daS20 F c fb r (src.cursor + i)) := by
    unfold zipShares at zipped
    split at zipped
    · cases zipped
      rw [r1, s20, take_of_length_le (by simp), take_of_length_le (by simp), zip_map']
    · cases zipped
  rw [values, daBatchAt]
  simp only [DaBitBatch.mk.injEq]
  constructor
  · apply map_congr_left
    intro i member
    have inside := mem_range.mp member
    rw [getD_streamSlice (record_inside inside), getD_streamSlice inside, record_add]
    simp [daGammaBit]
  · simp

/-- P2 regenerates `theta` and reads its two components. -/
theorem takeBatch_p2 (seeds : Correlated r) (party : src.partyId = .ID2) (rand : src.rand = r .ID2)
    (kept : Keeps ⟨src.stored, d⟩ (pairs (daS20 F c fb r) (daS12 F c fb r) src.total)
      (· < src.cursor * 2))
    (h : src.takeBatch c os d n = .ok (b, src', ws)) :
    src.cursor + n ≤ src.total ∧ b = daBatchAt F c fb r .ID2 src.cursor n ∧
      src' = { src with cursor := src.cursor + n } ∧
      ws = persistTo src.metaPath (src.cursor + n) ++
        src.stored.consume os (src.cursor * 2) (src.cursor * 2 + 2 * n) := by
  obtain ⟨-, -, shared2, sharedPos2⟩ := seeds.shared
  have seed2 : src.seed2 = (r .ID1).seed1 := (congrArg Rep3Rand.seed2 rand).trans shared2
  have pos2 : src.pos2 = (r .ID1).pos1 := (congrArg Rep3Rand.pos2 rand).trans sharedPos2
  unfold LazyDaBits.takeBatch at h
  split at h
  · cases h
  have available : src.cursor + n ≤ src.total := by omega
  simp only [party, seed2, pos2, ChaCha.seekAndGenerate_eq, lowBits_streamSlice] at h
  obtain ⟨stored, read, h⟩ := bind_ok.mp h
  obtain ⟨vShares, paired, last⟩ := bind_ok.mp h
  cases last
  refine ⟨available, ?_, by simp only [party, seed2, pos2], rfl⟩
  have both :=
    kept.read (Nat.le_add_right _ (2 * n)) (by rw [length_pairs]; omega)
    (fun e low _ => Nat.not_lt.mpr low)
    (unwrapOrPanic_ok.mp read)
  rw [Nat.add_sub_cancel_left, slice_pairs _ _ available] at both
  rw [both, pairUp_pairs] at paired
  cases paired
  rw [daBatchAt]
  simp only [DaBitBatch.mk.injEq]
  exact ⟨by simp, by simp [daThetaBit]⟩

end Takes

/-- Invariant rule for a chunk loop: the invariant speaks of the number of items done. -/
theorem foldlM_stepBy {σ : Type} {f : σ → Nat → Except IoError σ} {n step : Nat}
    (positive : 0 < step) (inv : Nat → σ → Prop)
    (keeps : ∀ done s s', done < n → inv done s → f s done = .ok s' →
      inv (done + min (n - done) step) s')
    {s s' : σ} (start : inv 0 s) (h : (stepBy n step).foldlM f s = .ok s') : inv n s' := by
  -- after `k` chunks `min (k * step) n` items are done
  have upTo : ∀ k ≤ (n + step - 1) / step, ∀ s',
    ((List.range k).map (· * step)).foldlM f s = .ok s' →
      inv (min (k * step) n) s' := by
    intro k
    induction k with
    | zero =>
      intro _ s' h
      cases h
      rwa [Nat.zero_mul]
    | succ k ih =>
      intro le s' h
      rw [range_succ, map_append, foldlM_append] at h
      obtain ⟨mid, before, last⟩ := bind_ok.mp h
      obtain ⟨_, chunk, done⟩ := bind_ok.mp last
      cases done
      have begun : k * step < n := by
        have := (Nat.le_div_iff_mul_le positive).mp le
        rw [Nat.add_mul] at this
        omega
      have held := ih (by omega) mid before
      rw [Nat.min_eq_left (Nat.le_of_lt begun)] at held
      have next := keeps (k * step) mid _ begun held chunk
      rwa [show k * step + min (n - k * step) step =
        min ((k + 1) * step) n by rw [Nat.add_mul]; omega] at next
  have all := upTo _ (Nat.le_refl _) s' h
  have covered : n ≤ (n + step - 1) / step * step := by
    have := Nat.div_add_mod (n + step - 1) step
    have := Nat.mod_lt (n + step - 1) positive
    rw [Nat.mul_comm]
    omega
  rwa [Nat.min_eq_right covered] at all

section InStep

variable {F : Type} [Ring F] [RawElem F] {c : ChaCha} {fb : Nat} {r : PartyID → Rep3Rand}

def perItem : PartyID → Nat
  | .ID0 => 1
  | .ID1 => 0
  | .ID2 => 2

/-- What a party stores for the items `base .. base + n`. -/
def daStoredAt (F : Type) [Ring F] (c : ChaCha) (fb : Nat) (r : PartyID → Rep3Rand) (p : PartyID)
    (base n : Nat) : List F :=
  match p with
  | .ID0 => (List.range n).map fun i => daS20 F c fb r (base + i)
  | .ID1 => []
  | .ID2 => pairs (fun i => daS20 F c fb r (base + i)) (fun i => daS12 F c fb r (base + i)) n

omit [RawElem F] in
theorem daStoredAt_add (p : PartyID) (base m n : Nat) :
    daStoredAt F c fb r p base (m + n) = daStoredAt F c fb r p base m ++
      daStoredAt F c fb r p (base + m) n := by
  cases p with
  | ID0 => simp only [daStoredAt, range_add, map_append, map_map, Function.comp_def, Nat.add_assoc]
  | ID1 => rfl
  | ID2 => simp only [daStoredAt, pairs_add, Nat.add_assoc]

/-- A source in step: generators `r p`, `taken` items taken and `made` made, with the stored
components of every index that is not taken yet. -/
structure DaSource (c : ChaCha) (fb : Nat) (r : PartyID → Rep3Rand) (p : PartyID) (taken made : Nat)
    (src : LazyDaBits F) (d : Disk) : Prop where
  rand : src.rand = r p
  bytes : src.fieldBytes = fb
  party : src.partyId = p
  cursor : src.cursor = taken
  total : src.total = made
  kept : Keeps ⟨src.stored, d⟩ (daStoredAt F c fb r p 0 made) (· < taken * perItem p)

namespace DaSource

variable {p : PartyID} {taken made : Nat} {src src' : LazyDaBits F} {d d' : Disk}

/-- A take hands out the items behind the cursor. -/
theorem take (seeds : Correlated r) (held : DaSource c fb r p taken made src d) {os : Os} {n : Nat}
    {b : DaBitBatch F} {ws : List Write} (h : src.takeBatch c os d n = .ok (b, src', ws)) :
    b = daBatchAt F c fb r p taken n ∧ DaSource c fb r p (taken + n) made src' (d.applyAll ws) := by
  obtain ⟨rand, bytes, party, rfl, rfl, kept⟩ := held
  cases p with
  | ID0 =>
    have stored :
        Keeps ⟨src.stored, d⟩ ((List.range src.total).map (daS20 F c fb r)) (· < src.cursor) := by
      simpa [daStoredAt, perItem] using kept
    obtain ⟨-, rfl, rfl, rfl⟩ := takeBatch_p0 party bytes rand stored h
    refine ⟨rfl, rand, bytes, party, rfl, rfl, kept.take (fun e below => ?_) fun e _ high => ?_⟩
    · simp only [perItem] at below ⊢
      omega
    · simp only [perItem]
      omega
  | ID1 =>
    obtain ⟨-, rfl, rfl, rfl⟩ := takeBatch_p1 seeds party bytes rand h
    exact ⟨rfl, rand, bytes, party, rfl, rfl, by simpa [perItem] using kept⟩
  | ID2 =>
    have stored : Keeps ⟨src.stored, d⟩ (pairs (daS20 F c fb r) (daS12 F c fb r) src.total)
        (· < src.cursor * 2) := by
      simpa [daStoredAt, perItem] using kept
    obtain ⟨-, rfl, rfl, rfl⟩ := takeBatch_p2 seeds party rand stored h
    refine ⟨rfl, rand, bytes, party, rfl, rfl, kept.take (fun e below => ?_) fun e _ high => ?_⟩
    · simp only [perItem] at below ⊢
      omega
    · simp only [perItem]
      omega

/-- `apply_extension` with the components of the next items. -/
theorem applyExtension (held : DaSource c fb r p taken made src d) {n : Nat}
    (h : src.applyExtension d n (daStoredAt F c fb r p made n) = .ok (src', d')) :
    DaSource c fb r p taken (made + n) src' d' := by
  obtain ⟨rand, bytes, party, cursor, rfl, kept⟩ := held
  unfold LazyDaBits.applyExtension at h
  split at h
  · rename_i zero
    cases h
    subst zero
    exact ⟨rand, bytes, party, cursor, rfl, kept⟩
  · obtain ⟨⟨stored, d₁⟩, extended, last⟩ := bind_ok.mp h
    cases last
    refine ⟨rand, bytes, party, cursor, rfl, ?_⟩
    rw [daStoredAt_add, Nat.zero_add]
    exact kept.extend extended

end DaSource

def DaLock (c : ChaCha) (fb : Nat) (r : PartyID → Rep3Rand) (taken : Nat) (made : PartyID → Nat)
    (s : DaParties F) : Prop :=
  ∀ p, DaSource c fb r p taken (made p) (s.source p) (s.disk p)

namespace DaLock

variable {taken : Nat} {made : PartyID → Nat} {s s' : DaParties F}

theorem take (seeds : Correlated r) (lock : DaLock c fb r taken made s) {os : PartyID → Os}
    {n : Nat} {b : PartyID → DaBitBatch F} (h : s.take c os n = .ok (b, s')) :
    (∀ p, b p = daBatchAt F c fb r p taken n) ∧ DaLock c fb r (taken + n) made s' := by
  obtain ⟨⟨b0, src0, ws0⟩, take0, h⟩ := bind_ok.mp h
  obtain ⟨⟨b1, src1, ws1⟩, take1, h⟩ := bind_ok.mp h
  obtain ⟨⟨b2, src2, ws2⟩, take2, last⟩ := bind_ok.mp h
  cases last
  have at0 := (lock .ID0).take seeds take0
  have at1 := (lock .ID1).take seeds take1
  have at2 := (lock .ID2).take seeds take2
  constructor
  · intro p
    cases p with
    | ID0 => exact at0.1
    | ID1 => exact at1.1
    | ID2 => exact at2.1
  · intro p
    cases p with
    | ID0 => exact at0.2
    | ID1 => exact at1.2
    | ID2 => exact at2.2

/-- One chunk of an extension: P0 and P2 go from `old + done` items on, P1 waits for the end. -/
theorem extendChunk (seeds : Correlated r) {old done deficit maxItems : Nat}
    (lock : DaLock c fb r taken (perParty (old + done) old (old + done)) s)
    (h : s.extendChunk c fb (fun _ => old) deficit maxItems done = .ok s') :
    DaLock c fb r taken (perParty (old + (done + min (deficit - done) maxItems)) old
      (old + (done + min (deficit - done) maxItems))) s' := by
  unfold DaParties.extendChunk at h
  simp only [(lock _).rand] at h
  obtain ⟨alpha2, sent0, h⟩ := bind_ok.mp h
  obtain ⟨s12, sent1, h⟩ := bind_ok.mp h
  obtain ⟨⟨src2, d2⟩, ext2, h⟩ := bind_ok.mp h
  obtain ⟨⟨src0, d0⟩, ext0, last⟩ := bind_ok.mp h
  cases last
  obtain ⟨s20Eq, s12Eq⟩ := chunk_eq seeds sent0 sent1
  rw [s20Eq] at ext0
  rw [s20Eq, s12Eq, interleave_map] at ext2
  rw [← Nat.add_assoc]
  intro p
  cases p with
  | ID0 => exact (lock .ID0).applyExtension ext0
  | ID1 => exact lock .ID1
  | ID2 => exact (lock .ID2).applyExtension ext2

/-- An extension in step adds the next items at every party. -/
theorem extend (seeds : Correlated r) {cfg : PoolCfg} {old deficit : Nat}
    (lock : DaLock c fb r taken (fun _ => old) s) (h : s.extend c cfg fb deficit = .ok s') :
    DaLock c fb r taken (fun _ => old + deficit) s' := by
  unfold DaParties.extend at h
  split at h
  · rename_i zero
    cases h
    rwa [zero]
  have totals : (fun p => (s.source p).total) = fun _ => old := funext fun p => (lock p).total
  rw [totals] at h
  obtain ⟨mid, loop, h⟩ := bind_ok.mp h
  obtain ⟨⟨src1, d1⟩, ext1, last⟩ := bind_ok.mp h
  cases last
  have begun : DaLock c fb r taken (perParty (old + 0) old (old + 0)) s := by
    intro p
    cases p <;> exact lock _
  have filled := foldlM_stepBy (Nat.lt_of_lt_of_le Nat.one_pos (Nat.le_max_right _ _))
    (fun done s => DaLock c fb r taken (perParty (old + done) old (old + done)) s)
    (fun done s s' _ before chunk => before.extendChunk seeds chunk) begun loop
  intro p
  cases p with
  | ID0 => exact filled .ID0
  | ID1 => exact (filled .ID1).applyExtension ext1
  | ID2 => exact filled .ID2

end DaLock

end InStep

section Fill

variable {α : Type} [RawElem α] {xs data : List α} {start : Nat}

omit [RawElem α] in
/-- Writing a part of a list over itself changes nothing. -/
theorem overwrite_part (part : data = (xs.drop start).take data.length)
    (inside : start + data.length ≤ xs.length) :
    overwrite start data xs = xs := by
  rcases eq_or_ne data [] with rfl | some_
  · rfl
  have sized : (overwrite start data xs).length = xs.length := by
    rw [length_overwrite some_]
    omega
  apply ext_getElem?
  intro e
  rcases Nat.lt_or_ge e xs.length with known | beyond
  · by_cases within : start ≤ e ∧ e < start + data.length
    · obtain ⟨low, high⟩ := within
      obtain ⟨i, rfl⟩ := Nat.exists_eq_add_of_le low
      have small : i < data.length := by omega
      rw [getElem?_overwrite_inside small, part, getElem?_take_of_lt small, getElem?_drop]
    · exact getElem?_overwrite_outside known (by omega)
  · rw [getElem?_eq_none (by omega), getElem?_eq_none beyond]

/-- A file on its way to hold `xs`: the elements below `start` are written, and the append offset
is where the next one goes. -/
def FilledTo (xs : List α) (path : Path) (start : Nat) (at_ : BackingStore α × Disk) : Prop :=
  at_.1 = .fileBacked path xs.length (start * size α) ∧ Holds ⟨at_.1, at_.2⟩ xs (start ≤ ·)

theorem filledTo_created (xs : List α) (path : Path) (d : Disk) :
    FilledTo xs path 0 (createFileBackedSized α d path xs.length) := by
  refine ⟨by rw [Nat.zero_mul]; rfl, ?_⟩
  exact Holds.of_file 0 ⟨_, Disk.set_same _ _ _, length_setLen _ _⟩ fun e _ unwritten =>
    absurd (Nat.zero_le e) unwritten

/-- Writing the next part at its offset fills the file further. -/
theorem FilledTo.writeAt {path : Path} {at_ at' : BackingStore α × Disk}
    (h : FilledTo xs path start at_) (part : data = (xs.drop start).take data.length)
    (inside : start + data.length ≤ xs.length)
    (written : at_.1.writeAt at_.2 start data = .ok at') :
    FilledTo xs path (start + data.length) at' := by
  obtain ⟨store, d⟩ := at_
  obtain ⟨rfl, holds⟩ := h
  rcases eq_or_ne data [] with rfl | some_
  · cases written
    exact ⟨rfl, holds⟩
  rw [writeAt_fileBacked some_] at written
  obtain ⟨d', done, last⟩ := bind_ok.mp written
  cases last
  have next : max (start * size α) (start * size α + (bytesOf data).length) =
      (start + data.length) * size α := by
    rw [length_bytesOf, Nat.add_mul]
    omega
  rw [next]
  refine ⟨rfl, ?_⟩
  have after : Holds ⟨.fileBacked path xs.length ((start + data.length) * size α),
    d'⟩ (overwrite start data xs)
      (writtenOver (start ≤ ·) start data.length) := holds_fileWrite holds some_ done
  rw [overwrite_part part inside] at after
  exact after.mono fun e _ ⟨low, outside⟩ => by omega

/-- A filled file that is saved under its own name, and a header written beside it. -/
theorem FilledTo.saved {path : Path} (metaFile : Path) {at_ : BackingStore α × Disk} {m : MetaData}
    (h : FilledTo xs path xs.length at_) (other : path ≠ metaFile) :
    saveStore at_.1 at_.2 path = .ok at_.2 ∧
      Keeps ⟨at_.1, writeMeta at_.2 metaFile m⟩ xs (· < 0) := by
  obtain ⟨store, d⟩ := at_
  obtain ⟨rfl, holds⟩ := h
  constructor
  · unfold saveStore
    split
    · rfl
    · exact if_pos rfl
  · refine ⟨Or.inr ((holds.mono fun e inside full => absurd inside (Nat.not_lt.mpr full)).congr ?_),
      rfl⟩
    intro q own
    cases own
    exact Disk.set_ne _ other

end Fill

section Production

variable {F : Type} [Ring F] [RawElem F] {c : ChaCha} {fb num : Nat} {rand : PartyID → Rep3Rand}
  {disk : PartyID → Disk} {s : DaParties F}

theorem DaSource.new (r : PartyID → Rep3Rand) (p : PartyID) (d : Disk) :
    DaSource c fb r p 0 num (LazyDaBits.new (r p) num fb (daStoredAt F c fb r p 0 num) p) d :=
  ⟨rfl, rfl, rfl, rfl, rfl, Keeps.fromVec _ _ _⟩

/-- `random_dabits_lazy` leaves the parties in step. -/
theorem randomDabitsLazy_lock (seeds : Correlated rand)
    (h : randomDabitsLazy c fb num rand disk = .ok s) :
    ∃ r, Correlated r ∧ DaLock c fb r 0 (fun _ => num) s := by
  unfold randomDabitsLazy at h
  split at h
  · rename_i zero
    cases h
    subst zero
    refine ⟨fun _ => ⟨List.replicate 32 0, 0, List.replicate 32 0, 0⟩, fun p => ⟨rfl, rfl⟩,
      fun p => ?_⟩
    refine ⟨rfl, rfl, rfl, rfl, rfl, ⟨Or.inl ⟨rfl, ?_⟩, trivial⟩⟩
    cases p <;> rfl
  let r := fun p => ((rand p).fork c).1
  have correlated : Correlated r := (seeds.fork c).1
  obtain ⟨alpha2, sent0, h⟩ := bind_ok.mp h
  obtain ⟨s12, sent1, last⟩ := bind_ok.mp h
  simp only [fillBytes_eq] at sent0 sent1 last
  have alphas : alpha2 = (List.range num).map fun i => daAlpha2 F c fb r (0 + i) :=
    dabitAlpha2_eq (by rw [Nat.zero_mul]; exact sent0)
  have s12Eq : s12 = (List.range num).map fun i => daS12 F c fb r (0 + i) :=
    dabitS12_eq correlated (by rw [Nat.zero_mul]; exact sent1)
  have s20Eq : dabitS20 (c.streamSlice (r .ID2).seed2 (r .ID2).pos2 0 num) alpha2 =
      (List.range num).map fun i => daS20 F c fb r (0 + i) := by
    rw [alphas, dabitS20_eq correlated]
  rw [s20Eq, s12Eq, interleave_map] at last
  cases last
  refine ⟨r, correlated, fun p => ?_⟩
  cases p <;> exact DaSource.new r _ _

theorem Correlated.daRand (seeds : Correlated rand) (c : ChaCha) :
    Correlated fun p => daRand c (rand p) :=
  have after1 := (seeds.fork c).2
  have after2 := (after1.fork c).2
  have after3 := (after2.fork c).2
  have after4 := (after3.fork c).2
  have after5 := (after4.fork c).2
  (after5.fork c).1

variable {r : PartyID → Rep3Rand}

omit [RawElem F] in
/-- What a party stores for a run of items is the part of its store at their place. -/
theorem daStoredAt_part (p : PartyID) {base n : Nat} (inside : base + n ≤ num) :
    daStoredAt F c fb r p base n =
      ((daStoredAt F c fb r p 0 num).drop (base * perItem p)).take
        (daStoredAt F c fb r p base n).length := by
  obtain ⟨rest, rfl⟩ := Nat.exists_eq_add_of_le inside
  have first : (daStoredAt F c fb r p 0 base).length = base * perItem p := by
    cases p <;> simp [daStoredAt, perItem, length_pairs, Nat.mul_comm]
  rw [Nat.add_assoc, daStoredAt_add, drop_left' first, daStoredAt_add, Nat.zero_add, take_left' rfl]

omit [RawElem F] in
theorem length_daStoredAt (p : PartyID) (base n : Nat) :
    (daStoredAt F c fb r p base n).length = n * perItem p := by
  cases p <;> simp [daStoredAt, perItem, length_pairs, Nat.mul_comm]

/-- The files of P0 and P2 while the chunk loop runs. -/
def FillState (F : Type) [Ring F] [RawElem F] (c : ChaCha) (fb num : Nat) (r : PartyID → Rep3Rand)
    (path : Path) (done : Nat) (at_ : (BackingStore F × Disk) × (BackingStore F × Disk)) : Prop :=
  FilledTo (daStoredAt F c fb r .ID0 0 num) path (done * perItem .ID0) at_.1 ∧
    FilledTo (daStoredAt F c fb r .ID2 0 num) path (done * perItem .ID2) at_.2

/-- A chunk writes the components of its items at their place. -/
theorem FillState.chunk (seeds : Correlated r) {path : Path} {done maxItems : Nat}
    {at_ at' : (BackingStore F × Disk) × (BackingStore F × Disk)} (begun : done < num)
    (h : FillState F c fb num r path done at_)
    (chunk : fillChunk c fb num maxItems r at_ done = .ok at') :
    FillState F c fb num r path (done + min (num - done) maxItems) at' := by
  have inside : done + min (num - done) maxItems ≤ num := by omega
  unfold fillChunk at chunk
  generalize min (num - done) maxItems = items at chunk inside ⊢
  obtain ⟨alpha2, sent0, chunk⟩ := bind_ok.mp chunk
  obtain ⟨s12, sent1, chunk⟩ := bind_ok.mp chunk
  obtain ⟨at2, write2, chunk⟩ := bind_ok.mp chunk
  obtain ⟨at0, write0, last⟩ := bind_ok.mp chunk
  cases last
  obtain ⟨s20Eq, s12Eq⟩ := chunk_eq seeds sent0 sent1
  have place : ∀ p, done * perItem p + (daStoredAt F c fb r p done items).length =
      (done + items) * perItem p := by
    intro p
    rw [length_daStoredAt, Nat.add_mul]
  have fits : ∀ p, done * perItem p + (daStoredAt F c fb r p done items).length ≤
      (daStoredAt F c fb r p 0 num).length := by
    intro p
    rw [place, length_daStoredAt]
    exact Nat.mul_le_mul_right _ inside
  constructor
  · rw [s20Eq, writeBytesAt_bytesOf] at write0
    have written :
        at_.1.1.writeAt at_.1.2 (done * perItem .ID0) (daStoredAt F c fb r .ID0 done items) =
        .ok at0 := by
      rw [show done * perItem .ID0 = done from Nat.mul_one done]
      exact write0
    have next := h.1.writeAt (daStoredAt_part .ID0 inside) (fits .ID0) written
    rwa [place .ID0] at next
  · rw [s20Eq, s12Eq, writeInterleavedAt_map] at write2
    have next := h.2.writeAt (daStoredAt_part .ID2 inside) (fits .ID2) write2
    rwa [place .ID2] at next

/-- A filled store makes a source in step once it is saved. -/
theorem DaSource.saved {p : PartyID} {dir : String} {stored : BackingStore F} {d d' : Disk}
    {src : LazyDaBits F}
    (filled : FilledTo (daStoredAt F c fb r p 0 num) ⟨dir, .dabitsStored⟩ (num * perItem p) (stored,
      d))
    (h : (LazyDaBits.newWithStore (r p) num fb stored p).save d dir = .ok (src, d')) :
    DaSource c fb r p 0 num src d' := by
  rw [← length_daStoredAt (F := F) p 0 num] at filled
  obtain ⟨_, saved, last⟩ := bind_ok.mp h
  cases last
  obtain ⟨unchanged, kept⟩ := filled.saved (LazyDaBits.metaFile dir) (by simp [LazyDaBits.metaFile])
  obtain rfl := Except.ok.inj (unchanged.symm.trans saved)
  refine ⟨rfl, rfl, rfl, rfl, rfl, ?_⟩
  rw [Nat.zero_mul]
  exact kept

/-- The pool path leaves the parties in step. -/
theorem preprocessDabits_lock {cfg : PoolCfg} {dir : String} (seeds : Correlated rand)
    (h : preprocessDabits c cfg fb dir num rand disk = .ok s) :
    ∃ r, Correlated r ∧ DaLock c fb r 0 (fun _ => num) s := by
  have correlated := seeds.daRand c
  unfold preprocessDabits at h
  generalize (fun p => daRand c (rand p)) = r at h correlated
  obtain ⟨⟨⟨stored0, d0⟩, stored2, d2⟩, loop, h⟩ := bind_ok.mp h
  obtain ⟨⟨src0, d0'⟩, save0, h⟩ := bind_ok.mp h
  obtain ⟨⟨src1, d1'⟩, save1, h⟩ := bind_ok.mp h
  obtain ⟨⟨src2, d2'⟩, save2, last⟩ := bind_ok.mp h
  cases last
  have begun : FillState F c fb num r ⟨dir, .dabitsStored⟩ 0
      (createFileBackedSized F (disk .ID0) ⟨dir, .dabitsStored⟩ num,
        createFileBackedSized F (disk .ID2) ⟨dir, .dabitsStored⟩ (num * 2)) := by
    have first := filledTo_created (daStoredAt F c fb r .ID0 0 num) ⟨dir, .dabitsStored⟩ (disk .ID0)
    have second :=
      filledTo_created (daStoredAt F c fb r .ID2 0 num) ⟨dir, .dabitsStored⟩ (disk .ID2)
    rw [length_daStoredAt] at first second
    rw [show num * perItem .ID0 = num from Nat.mul_one num] at first
    exact ⟨first, second⟩
  have filled := foldlM_stepBy (Nat.lt_of_lt_of_le Nat.one_pos (Nat.le_max_right _ _))
    (fun done at_ => FillState F c fb num r ⟨dir, .dabitsStored⟩ done at_)
    (fun done at_ at' small before chunk => before.chunk correlated small chunk) begun loop
  refine ⟨r, correlated, fun p => ?_⟩
  cases p with
  | ID0 => exact DaSource.saved filled.1 save0
  | ID1 =>
    obtain ⟨_, saved, last⟩ := bind_ok.mp save1
    cases last
    exact ⟨rfl, rfl, rfl, rfl, rfl, Keeps.fromVec [] _ _⟩
  | ID2 => exact DaSource.saved filled.2 save2

end Production

section Relation

variable {F : Type} [Ring F] [RawElem F] {c : ChaCha} {fb : Nat} {r : PartyID → Rep3Rand}

/-- The XOR sharing of `theta` of item `i`: P1 and P2 are handed the component they share and have
zero as the other, P0 is handed both of its own. -/
def thetaView (b : PartyID → DaBitBatch F) (i : Nat) : View (BitVec 1)
  | .ID0 =>
    ⟨BitVec.ofBool ((b .ID0).thetas.getD i false), BitVec.ofBool ((b .ID0).thetas.getD i false)⟩
  | .ID1 => ⟨BitVec.ofBool ((b .ID1).thetas.getD i false), 0⟩
  | .ID2 => ⟨0, BitVec.ofBool ((b .ID2).thetas.getD i false)⟩

def vView (b : PartyID → DaBitBatch F) (i : Nat) : View F := fun p =>
  ⟨((b p).vShares.getD i (0, 0)).1, ((b p).vShares.getD i (0, 0)).2⟩

/-- The relation of Protocol Π₁ for item `i` of three batches. -/
structure DaBitRelation (b : PartyID → DaBitBatch F) (i : Nat) (theta gamma : Bool) : Prop where
  thetas : XorShares (thetaView b i) (BitVec.ofBool theta)
  gammas : ∀ p, (b p).gammas[i]? = some (p = .ID0 && gamma)
  v : SumShares (vView b i) (negOnePow F theta * fieldOfBit F gamma)

omit [RawElem F] in
/-- The items the index functions describe are daBits. -/
theorem daBatchAt_related {n i : Nat} (inside : i < n) :
    DaBitRelation (fun p => daBatchAt F c fb r p 0 n) i (daThetaBit c r i)
      (daGammaBit c fb r i) where
  thetas := by
    refine ⟨fun p => ?_, ?_⟩
    · cases p <;> simp [thetaView, daBatchAt, PartyID.prev, inside]
    · simp [parity, thetaView, daBatchAt, inside]
  gammas := by
    intro p
    simp [daBatchAt, inside]
  v := by
    refine ⟨fun p => ?_, ?_⟩
    · cases p <;> simp [vView, daBatchAt, PartyID.prev, inside]
    · rw [← daComponents_add]
      simp [total, vView, daBatchAt, inside]

omit [RawElem F] in
theorem daBatchAt_append (p : PartyID) (m n : Nat) :
    (daBatchAt F c fb r p 0 m).append (daBatchAt F c fb r p m n) =
      daBatchAt F c fb r p 0 (m + n) := by
  cases p <;>
    simp only [daBatchAt, DaBitBatch.append, range_add, map_append, map_map, Function.comp_def,
      Nat.zero_add]

/-- A run in step: what was handed out are the items up to the cursor. -/
structure DaRunInv (c : ChaCha) (fb : Nat) (r : PartyID → Rep3Rand) (taken : Nat) (s : DaRun F) :
    Prop where
  lock : ∃ made : Nat, DaLock c fb r taken (fun _ => made) s.parties
  handed : ∀ p, s.handed p = daBatchAt F c fb r p 0 taken

theorem DaRunInv.step (seeds : Correlated r) {taken : Nat} {s s' : DaRun F}
    (inv : DaRunInv c fb r taken s) {op : DaOp} (h : s.step c fb op = .ok s') :
    DaRunInv c fb r (taken + op.taken) s' := by
  obtain ⟨⟨made, lock⟩, handed⟩ := inv
  cases op with
  | extend cfg deficit =>
    obtain ⟨parties, extended, last⟩ := bind_ok.mp h
    cases last
    exact ⟨⟨_, lock.extend seeds extended⟩, handed⟩
  | take os n =>
    obtain ⟨⟨batch, parties⟩, took, last⟩ := bind_ok.mp h
    cases last
    obtain ⟨batches, next⟩ := lock.take seeds took
    refine ⟨⟨made, next⟩, fun p => ?_⟩
    change (s.handed p).append (batch p) = _
    rw [handed, batches, daBatchAt_append]
    rfl

theorem DaRunInv.run (seeds : Correlated r) {taken : Nat} {s s' : DaRun F} {ops : List DaOp}
    (inv : DaRunInv c fb r taken s) (ran : Run.run (DaRun.step c fb) s ops = .ok s') :
    DaRunInv c fb r (taken + (ops.map DaOp.taken).sum) s' := by
  induction ops generalizing s taken with
  | nil =>
    cases ran
    exact inv
  | cons op ops ih =>
    obtain ⟨mid, first, rest⟩ := run_cons ran
    have after := ih (inv.step seeds first) rest
    rwa [Nat.add_assoc] at after

/-- Make daBits on either path with correlated generators, then extend and take in any order, the
same at all parties: what a party was handed depends on the streams and the number of items alone,
and every item is a daBit. -/
theorem daBits_correlated {num : Nat} {rand : PartyID → Rep3Rand} {disk : PartyID → Disk}
    {s₀ : DaParties F} {s : DaRun F} {ops : List DaOp} (seeds : Correlated rand)
    (made : randomDabitsLazy c fb num rand disk = .ok s₀ ∨
      ∃ cfg dir, preprocessDabits c cfg fb dir num rand disk = .ok s₀)
    (ran : Run.run (DaRun.step c fb) (DaRun.start s₀) ops = .ok s) :
    (∀ p, s.handed p = daBatchAt F c fb s₀.rand p 0 (ops.map DaOp.taken).sum) ∧
      ∀ i < (ops.map DaOp.taken).sum,
        DaBitRelation s.handed i (daThetaBit c s₀.rand i) (daGammaBit c fb s₀.rand i) := by
  obtain ⟨r, correlated, lock⟩ : ∃ r, Correlated r ∧ DaLock c fb r 0 (fun _ => num) s₀ := by
    rcases made with fresh | ⟨cfg, dir, pool⟩
    · exact randomDabitsLazy_lock seeds fresh
    · exact preprocessDabits_lock seeds pool
  have same : s₀.rand = r := funext fun p => (lock p).rand
  have begun : DaRunInv c fb r 0 (DaRun.start s₀) := ⟨⟨num, lock⟩, fun p => rfl⟩
  have after := (begun.run correlated ran).handed
  rw [Nat.zero_add] at after
  rw [same, funext after]
  exact ⟨fun _ => rfl, fun i inside => daBatchAt_related inside⟩

end Relation

/-- Two daBits from the pool path; one is taken, two are added and the other three taken. -/
theorem daBits_correlated_afterExtension :
    ∃ (s₀ : DaParties (ZMod 251)) (s : DaRun (ZMod 251)),
      preprocessDabits countingRng smallCfg 16 "pool" 2 (fun _ => ⟨[], 0, [], 0⟩)
        (fun _ _ => none) = .ok s₀ ∧
        Run.run (DaRun.step countingRng 16) (DaRun.start s₀)
          [.take (fun _ _ => .punchHole) 1, .extend smallCfg 2, .take (fun _ _ => .punchHole) 3] =
            .ok s ∧
        ∀ i < 4, DaBitRelation s.handed i (daThetaBit countingRng s₀.rand i)
          (daGammaBit countingRng 16 s₀.rand i) := by
  obtain ⟨s, done⟩ := exists_ok_of_isOk (x := (do
    let s₀ ← preprocessDabits (F := ZMod 251) countingRng smallCfg 16 "pool" 2
      (fun _ => ⟨[], 0, [], 0⟩) (fun _ _ => none)
    Run.run (DaRun.step countingRng 16) (DaRun.start s₀)
      [.take (fun _ _ => .punchHole) 1, .extend smallCfg 2, .take (fun _ _ => .punchHole) 3]))
        (by decide +kernel)
  obtain ⟨s₀, made, ran⟩ := bind_ok.mp done
  have seeds : Correlated fun _ => ⟨[], 0, [], 0⟩ := fun _ => ⟨rfl, rfl⟩
  exact ⟨s₀, s, made, ran, (daBits_correlated seeds (Or.inr ⟨_, _, made⟩) ran).2⟩

end ProviaVM.Preprocessing
