import ProviaVM.Preprocessing.EdaBits

/-! # The other lazy sources and their common interface

`edabits.rs` (`LazyEdaBitsRing`), `dabits.rs` (`LazyDaBits`), `rand_ohv.rs`
(`LazyRandOhvs`), `wrap_mask.rs` (`LazyWrapMasks`) and `dapoint.rs`
(`LazyDaPoints`). The six kinds keep a cursor in the same metadata format but differ
in when they write it: each `takeBatch` below lists its durable writes in the order
of the source. `LazySource` is the sum of the six kinds. -/
namespace ProviaVM.Preprocessing
open ByteFile RawElem

/-- Index the two component lists at `0 .. n`; a short list panics. -/
def zipShares {α : Type} (n : Nat) (a b : List α) : Except IoError (List (α × α)) :=
  if n ≤ a.length ∧ n ≤ b.length then .ok ((a.take n).zip (b.take n)) else .error .panicked

/-- Split an interleaved `[a₀, b₀, a₁, b₁, …]` list into `n` share pairs. -/
def pairUp {α : Type} : Nat → List α → Except IoError (List (α × α))
  | 0, _ => .ok []
  | n + 1, a :: b :: rest => do
    let tail ← pairUp n rest
    return (a, b) :: tail
  | _ + 1, _ => .error .panicked

/-- The stores of a source are reloaded only when it holds items. -/
def loadStoreIf (α : Type) [RawElem α] (present : Bool) (d : Disk) (path : Path) :
    Except IoError (BackingStore α) :=
  if present then BackingStore.loadFromFile α d path else .ok .empty

/-- A store is saved only when it holds elements. -/
def saveStore {α : Type} [RawElem α] (store : BackingStore α) (d : Disk) (path : Path) :
    Except IoError Disk :=
  if store.isEmpty then .ok d else store.saveToFile d path

section RandOhvs

/-- `RAND_OHV_K`, the length of one one-hot vector. -/
def randOhvK : Nat := 16

structure LazyRandOhvs (F : Type) where
  total : Nat
  cursor : Nat
  partyId : PartyID
  metaPath : Option Path
  rA : BackingStore UInt8
  rB : BackingStore UInt8
  eAFlat : BackingStore F
  eBFlat : BackingStore F
  deriving DecidableEq, Repr

structure RandOhvBatch (F : Type) where
  rShares : List (UInt8 × UInt8)
  eFieldsFlat : List (F × F)
  deriving DecidableEq, Repr

variable {F : Type} [RawElem F]

namespace LazyRandOhvs

def metaFile (dir : String) : Path := ⟨dir, .randOhvMeta⟩

def takeBatch (s : LazyRandOhvs F) (os : Os) (d : Disk) (n : Nat) :
    Except IoError (RandOhvBatch F × LazyRandOhvs F × List Write) := do
  if s.total < s.cursor + n then
    .error (.need n (s.total - s.cursor) s.cursor s.total)
  else if n = 0 then return (⟨[], []⟩, s, [])
  else do
    let eStart := s.cursor * randOhvK
    let eEnd := eStart + n * randOhvK
    let rA ← s.rA.readConsume d s.cursor (s.cursor + n)
    let rB ← s.rB.readConsume d s.cursor (s.cursor + n)
    let eA ← s.eAFlat.readConsume d eStart eEnd
    let eB ← s.eBFlat.readConsume d eStart eEnd
    let rShares ← zipShares n rA rB
    let eFields ← zipShares (n * randOhvK) eA eB
    return (⟨rShares, eFields⟩, { s with cursor := s.cursor + n },
      persistTo s.metaPath (s.cursor + n) ++
        s.rA.consume os s.cursor (s.cursor + n) ++ s.rB.consume os s.cursor (s.cursor + n) ++
        s.eAFlat.consume os eStart eEnd ++ s.eBFlat.consume os eStart eEnd)

/-- `save` takes `&self`: it does not record the metadata path. -/
def save (s : LazyRandOhvs F) (d : Disk) (dir : String) :
    Except IoError (LazyRandOhvs F × Disk) := do
  let d ← saveStore s.rA d ⟨dir, .randOhvRA⟩
  let d ← saveStore s.rB d ⟨dir, .randOhvRB⟩
  let d ← saveStore s.eAFlat d ⟨dir, .randOhvEA⟩
  let d ← saveStore s.eBFlat d ⟨dir, .randOhvEB⟩
  return (s, writeMeta d (metaFile dir)
    ⟨List.replicate 32 0, 0, List.replicate 32 0, 0, s.total, partyIdToByte s.partyId,
      s.cursor, size F⟩)

/-- `load`; a missing metadata file gives the empty source. -/
def load (F : Type) [RawElem F] (d : Disk) (dir : String) (partyId : PartyID) :
    Except IoError (LazyRandOhvs F) := do
  if d (metaFile dir) = none then return ⟨0, 0, partyId, none, .empty, .empty, .empty, .empty⟩
  let m ← readMeta d (metaFile dir)
  assertParty m partyId
  let rA ← loadStoreIf UInt8 (0 < m.total) d ⟨dir, .randOhvRA⟩
  let rB ← loadStoreIf UInt8 (0 < m.total) d ⟨dir, .randOhvRB⟩
  let eA ← loadStoreIf F (0 < m.total) d ⟨dir, .randOhvEA⟩
  let eB ← loadStoreIf F (0 < m.total) d ⟨dir, .randOhvEB⟩
  return ⟨m.total, m.cursor, partyId, some (metaFile dir), rA, rB, eA, eB⟩

end LazyRandOhvs

end RandOhvs

section DaBits

structure LazyDaBits (F : Type) where
  seed1 : Seed
  pos1 : Nat
  seed2 : Seed
  pos2 : Nat
  fieldBytes : Nat
  partyId : PartyID
  total : Nat
  cursor : Nat
  stored : BackingStore F
  metaPath : Option Path
  deriving DecidableEq, Repr

structure DaBitBatch (F : Type) where
  gammas : List Bool
  thetas : List Bool
  vShares : List (F × F)
  deriving DecidableEq, Repr

variable {F : Type} [Ring F] [RawElem F]

namespace LazyDaBits

def metaFile (dir : String) : Path := ⟨dir, .dabitsMeta⟩

def lowBits (bytes : List UInt8) : List Bool := bytes.map fun b => (b &&& 1) != 0

/-- Bytes of one daBit on the stream P0 shares with P1. -/
def daStride (fieldBytes : Nat) : Nat := 1 + 2 * fieldBytes

/-- `take_batch`. P2 and P0 read what they received, write the cursor and then reclaim;
P1 regenerates everything and only moves the cursor in memory. -/
def takeBatch (s : LazyDaBits F) (c : ChaCha) (os : Os) (d : Disk) (n : Nat) :
    Except IoError (DaBitBatch F × LazyDaBits F × List Write) := do
  if s.total < s.cursor + n then .error (.need n (s.total - s.cursor) s.cursor s.total)
  else
    let fb := s.fieldBytes
    let moved := { s with cursor := s.cursor + n }
    let st := daStride fb
    match s.partyId with
    | .ID2 => do
      let thetas := lowBits (c.seekAndGenerate s.seed2 s.pos2 s.cursor n)
      let base := s.cursor * 2
      let stored ← unwrapOrPanic (s.stored.readConsume d base (base + 2 * n))
      let vShares ← pairUp n stored
      return (⟨List.replicate n false, thetas, vShares⟩, moved,
        persistTo s.metaPath moved.cursor ++ s.stored.consume os base (base + 2 * n))
    | .ID0 => do
      let s1 := c.seekAndGenerate s.seed1 s.pos1 (s.cursor * st) (n * st)
      let g2 := c.seekAndGenerate s.seed2 s.pos2 s.cursor n
      let gammas := (List.range n).map fun i => ((s1.getD (i * st) 0 ^^^ g2.getD i 0) &&& 1) != 0
      let stored ← unwrapOrPanic (s.stored.readConsume d s.cursor (s.cursor + n))
      let r1s ← (List.range n).mapM fun i => parseField (F := F) s1 (i * st + 1 + fb)
      let vShares ← zipShares n r1s stored
      return (⟨gammas, List.replicate n false, vShares⟩, moved,
        persistTo s.metaPath moved.cursor ++ s.stored.consume os s.cursor (s.cursor + n))
    | .ID1 => do
      let thetas := lowBits (c.seekAndGenerate s.seed1 s.pos1 s.cursor n)
      let s2 := c.seekAndGenerate s.seed2 s.pos2 (s.cursor * st) (n * st)
      let vShares ← (List.range n).mapM fun i => do
        let alpha1 : F ← parseField s2 (i * st + 1)
        let r1 : F ← parseField s2 (i * st + 1 + fb)
        let v1 := (if thetas.getD i false then -1 else 1) * alpha1
        return (v1 - r1, r1)
      return (⟨List.replicate n false, thetas, vShares⟩, moved, [])

def save (s : LazyDaBits F) (d : Disk) (dir : String) : Except IoError (LazyDaBits F × Disk) := do
  let d ← saveStore s.stored d ⟨dir, .dabitsStored⟩
  return ({ s with metaPath := some (metaFile dir) }, writeMeta d (metaFile dir)
    ⟨s.seed1, s.pos1, s.seed2, s.pos2, s.total, partyIdToByte s.partyId, s.cursor, s.fieldBytes⟩)

def load (F : Type) [RawElem F] (d : Disk) (dir : String) (partyId : PartyID) :
    Except IoError (LazyDaBits F) := do
  let m ← readMeta d (metaFile dir)
  assertParty m partyId
  let stored ← loadStoreIf F (0 < m.total && partyId != .ID1) d ⟨dir, .dabitsStored⟩
  return ⟨m.seed1, m.pos1, m.seed2, m.pos2, m.fieldBytes, partyId, m.total, m.cursor, stored,
    some (metaFile dir)⟩

end LazyDaBits

end DaBits

section RingEdaBits

structure LazyEdaBitsRing (K : Nat) where
  seed1 : Seed
  pos1 : Nat
  seed2 : Seed
  pos2 : Nat
  total : Nat
  cursor : Nat
  alpha2Flat : BackingStore (BitVec K)
  partyId : PartyID
  metaPath : Option Path
  deriving DecidableEq, Repr

variable {K : Nat} [RawElem (BitVec K)]

namespace LazyEdaBitsRing

def metaFile (K : Nat) (dir : String) : Path := ⟨dir, .ringEdabitsMeta K⟩

/-- `take_batch`. P2 writes the cursor and reclaims; P0 and P1 regenerate and only move
the cursor in memory. Both streams of P0 advance by a whole stride per item. -/
def takeBatch (s : LazyEdaBitsRing K) (c : ChaCha) (os : Os) (d : Disk) (n : Nat) :
    Except IoError (EdaBitsBatch (BitVec K) K × LazyEdaBitsRing K × List Write) := do
  if s.total < s.cursor + n then .error (.need n (s.total - s.cursor) s.cursor s.total)
  else if n = 0 then return (⟨[], []⟩, s, [])
  else
    let moved := { s with cursor := s.cursor + n }
    if s.partyId = .ID2 then do
      let start := s.cursor * K
      let alphas ← s.alpha2Flat.readConsume d start (start + n * K)
      return (⟨List.replicate n 0, alphas⟩, moved,
        persistTo s.metaPath moved.cursor ++ s.alpha2Flat.consume os start (start + n * K))
    else
      let tBytes := size (BitVec K)
      let st := (1 + K) * tBytes
      let interleaved :=
        if s.partyId = .ID0 then c.seekAndGenerate s.seed1 s.pos1 (s.cursor * st) (n * st)
        else c.seekAndGenerate s.seed2 s.pos2 (s.cursor * st) (n * st)
      let g2 := if s.partyId = .ID0 then c.seekAndGenerate s.seed2 s.pos2 (s.cursor * st) (n * st)
        else []
      let gammas :=
        if s.partyId = .ID0 then
          (List.range n).map fun i =>
            ringFromLeBytes K (slice (i * st) tBytes interleaved) ^^^
              ringFromLeBytes K (slice (i * st) tBytes g2)
        else List.replicate n 0
      let alphas := (List.range (n * K)).map fun idx =>
        ringFromLeBytes K (slice (idx / K * st + tBytes + idx % K * tBytes) tBytes interleaved)
      return (⟨gammas, alphas⟩, moved, [])

def save (s : LazyEdaBitsRing K) (d : Disk) (dir : String) :
    Except IoError (LazyEdaBitsRing K × Disk) := do
  let d ← saveStore s.alpha2Flat d ⟨dir, .ringEdabitsAlpha2 K⟩
  return ({ s with metaPath := some (metaFile K dir) }, writeMeta d (metaFile K dir)
    ⟨s.seed1, s.pos1, s.seed2, s.pos2, s.total, partyIdToByte s.partyId, s.cursor, size (BitVec K)⟩)

def load (K : Nat) [RawElem (BitVec K)] (d : Disk) (dir : String) (partyId : PartyID) :
    Except IoError (LazyEdaBitsRing K) := do
  if d (metaFile K dir) = none then
    return ⟨List.replicate 32 0, 0, List.replicate 32 0, 0, 0, 0, .empty, partyId, none⟩
  let m ← readMeta d (metaFile K dir)
  assertParty m partyId
  let alpha2 ← loadStoreIf (BitVec K) (partyId == .ID2 && 0 < m.total) d ⟨dir, .ringEdabitsAlpha2 K⟩
  return ⟨m.seed1, m.pos1, m.seed2, m.pos2, m.total, m.cursor, alpha2, partyId,
    some (metaFile K dir)⟩

end LazyEdaBitsRing

end RingEdaBits

section WrapMasks

structure LazyWrapMasks (K : Nat) where
  seed1 : Seed
  pos1 : Nat
  seed2 : Seed
  pos2 : Nat
  total : Nat
  cursor : Nat
  maskArithFlat : BackingStore (BitVec K)
  partyId : PartyID
  metaPath : Option Path
  deriving DecidableEq, Repr

structure WrapMaskBatch (K : Nat) where
  r0Bin : List (Bool × Bool)
  r1Bin : List (Bool × Bool)
  maskArith : List (BitVec K × BitVec K)
  deriving DecidableEq, Repr

variable {K : Nat} [RawElem (BitVec K)]

/-- The `i`-th `Bit` drawn from the stream at word `pos`: the top bit of one word. -/
def ChaCha.bitDraw (c : ChaCha) (seed : Seed) (pos i : Nat) : Bool :=
  decide (2 ^ 31 ≤ (c.word seed (pos + i)).toNat)

namespace LazyWrapMasks

def metaFile (dir : String) : Path := ⟨dir, .wrapMasksMeta⟩

/-- The binary shares drawn at the stream indices `start .. start + n`. -/
def bitShares (s : LazyWrapMasks K) (c : ChaCha) (start n : Nat) : List (Bool × Bool) :=
  (List.range n).map fun i =>
    (c.bitDraw s.seed1 s.pos1 (start + i), c.bitDraw s.seed2 s.pos2 (start + i))

/-- `take_batch`: every party reads its stored shares, writes the cursor, then reclaims.
The `r1` bits follow all `total` `r0` bits on the stream. -/
def takeBatch (s : LazyWrapMasks K) (c : ChaCha) (os : Os) (d : Disk) (n : Nat) :
    Except IoError (WrapMaskBatch K × LazyWrapMasks K × List Write) := do
  if s.total < s.cursor + n then .error (.need n (s.total - s.cursor) s.cursor s.total)
  else if n = 0 then return (⟨[], [], []⟩, s, [])
  else do
    let start := s.cursor * 2
    let flat ← unwrapOrPanic (s.maskArithFlat.readConsume d start (start + n * 2))
    let maskArith ← pairUp n flat
    let moved := { s with cursor := s.cursor + n }
    return (⟨s.bitShares c s.cursor n, s.bitShares c (s.total + s.cursor) n, maskArith⟩, moved,
      persistTo s.metaPath moved.cursor ++ s.maskArithFlat.consume os start (start + n * 2))

def save (s : LazyWrapMasks K) (d : Disk) (dir : String) :
    Except IoError (LazyWrapMasks K × Disk) := do
  let d ← saveStore s.maskArithFlat d ⟨dir, .wrapMasksData⟩
  return ({ s with metaPath := some (metaFile dir) }, writeMeta d (metaFile dir)
    ⟨s.seed1, s.pos1, s.seed2, s.pos2, s.total, partyIdToByte s.partyId, s.cursor, size (BitVec K)⟩)

def load (K : Nat) [RawElem (BitVec K)] (d : Disk) (dir : String) (partyId : PartyID) :
    Except IoError (LazyWrapMasks K) := do
  if d (metaFile dir) = none then
    return ⟨List.replicate 32 0, 0, List.replicate 32 0, 0, 0, 0, .empty, partyId, none⟩
  let m ← readMeta d (metaFile dir)
  assertParty m partyId
  let flat ← loadStoreIf (BitVec K) (0 < m.total) d ⟨dir, .wrapMasksData⟩
  return ⟨m.seed1, m.pos1, m.seed2, m.pos2, m.total, m.cursor, flat, partyId, some (metaFile dir)⟩

end LazyWrapMasks

end WrapMasks

section DaPoints

structure LazyDaPoints (C : Type) where
  total : Nat
  cursor : Nat
  gammas : List Bool
  alphas : BackingStore C
  partyId : PartyID
  metaPath : Option Path
  numColumns : Option Nat
  deriving DecidableEq, Repr

structure DaPointsBatch (C : Type) where
  gammas : List Bool
  alphas : List C
  deriving DecidableEq, Repr

variable {C : Type} [Zero C] [RawElem C]

namespace LazyDaPoints

def metaFile (dir : String) : Path := ⟨dir, .dapointsMeta⟩

/-- `take_batch`. P1 and P2 reclaim the points before the cursor is written. -/
def takeBatch (s : LazyDaPoints C) (os : Os) (d : Disk) (n : Nat) :
    Except IoError (DaPointsBatch C × LazyDaPoints C × List Write) := do
  if s.total < s.cursor + n then .error (.need n (s.total - s.cursor) s.cursor s.total)
  else if n = 0 then return (⟨[], []⟩, s, [])
  else do
    let start := s.cursor
    let stop := start + n
    let moved := { s with cursor := s.cursor + n }
    if s.partyId = .ID0 then
      if s.gammas.length < stop then .error .panicked
      else return (⟨(s.gammas.drop start).take n, List.replicate n 0⟩, moved,
        persistTo s.metaPath moved.cursor)
    else do
      let points ← s.alphas.readConsume d start stop
      return (⟨List.replicate n false, points⟩, moved,
        s.alphas.consume os start stop ++ persistTo s.metaPath moved.cursor)

/-- The data file of `save`: P0's bits, one byte each, or the other parties' points. -/
def saveData (s : LazyDaPoints C) (d : Disk) (dir : String) : Except IoError Disk :=
  if s.partyId = .ID0 then
    if s.gammas.isEmpty then .ok d
    else .ok (d.set ⟨dir, .dapointsData⟩ (.data (s.gammas.map fun g => if g then 1 else 0)))
  else saveStore s.alphas d ⟨dir, .dapointsData⟩

/-- `save` takes `&self`: it does not record the metadata path. -/
def save (s : LazyDaPoints C) (d : Disk) (dir : String) :
    Except IoError (LazyDaPoints C × Disk) := do
  let d ← s.saveData d dir
  return (s, writeMeta d (metaFile dir)
    ⟨List.replicate 32 0, s.numColumns.getD 0, List.replicate 32 0, 0, s.total,
      partyIdToByte s.partyId, s.cursor, size C⟩)

def load (C : Type) [RawElem C] (d : Disk) (dir : String) (partyId : PartyID) :
    Except IoError (LazyDaPoints C) := do
  if d (metaFile dir) = none then return ⟨0, 0, [], .empty, partyId, none, none⟩
  let m ← readMeta d (metaFile dir)
  assertParty m partyId
  let loaded := fun gammas alphas => LazyDaPoints.mk (C := C) m.total m.cursor gammas alphas partyId
    (some (metaFile dir)) (some m.pos1)
  if m.total = 0 then return loaded [] .empty
  else if partyId = .ID0 then
    match d ⟨dir, .dapointsData⟩ with
    | some (.data b) => return loaded (b.map (· != 0)) .empty
    | _ => .error (.notFound ⟨dir, .dapointsData⟩)
  else do
    let alphas ← BackingStore.loadFromFile C d ⟨dir, .dapointsData⟩
    return loaded [] alphas

end LazyDaPoints

end DaPoints

inductive SourceKind where
  | edaBits | edaBitsRing | daBits | randOhvs | wrapMasks | daPoints
  deriving DecidableEq, Repr

/-- A lazy source of any kind, over one field, one curve group and one ring width. -/
inductive LazySource (F C : Type) (K : Nat) where
  | edaBits (s : LazyEdaBits F K)
  | edaBitsRing (s : LazyEdaBitsRing K)
  | daBits (s : LazyDaBits F)
  | randOhvs (s : LazyRandOhvs F)
  | wrapMasks (s : LazyWrapMasks K)
  | daPoints (s : LazyDaPoints C)
  deriving DecidableEq, Repr

namespace LazySource

variable {F C : Type} [Ring F] [Zero C] [RawElem F] [RawElem C] {K : Nat} [RawElem (BitVec K)]

def kind : LazySource F C K → SourceKind
  | .edaBits _ => .edaBits
  | .edaBitsRing _ => .edaBitsRing
  | .daBits _ => .daBits
  | .randOhvs _ => .randOhvs
  | .wrapMasks _ => .wrapMasks
  | .daPoints _ => .daPoints

def cursor : LazySource F C K → Nat
  | .edaBits s => s.cursor
  | .edaBitsRing s => s.cursor
  | .daBits s => s.cursor
  | .randOhvs s => s.cursor
  | .wrapMasks s => s.cursor
  | .daPoints s => s.cursor

def total : LazySource F C K → Nat
  | .edaBits s => s.total
  | .edaBitsRing s => s.total
  | .daBits s => s.total
  | .randOhvs s => s.total
  | .wrapMasks s => s.total
  | .daPoints s => s.total

def partyId : LazySource F C K → PartyID
  | .edaBits s => s.partyId
  | .edaBitsRing s => s.partyId
  | .daBits s => s.partyId
  | .randOhvs s => s.partyId
  | .wrapMasks s => s.partyId
  | .daPoints s => s.partyId

def metaPath : LazySource F C K → Option Path
  | .edaBits s => s.metaPath
  | .edaBitsRing s => s.metaPath
  | .daBits s => s.metaPath
  | .randOhvs s => s.metaPath
  | .wrapMasks s => s.metaPath
  | .daPoints s => s.metaPath

/-- The metadata file of a source kind in a directory. -/
def metaFile (K : Nat) : SourceKind → String → Path
  | .edaBits => LazyEdaBits.metaFile K
  | .edaBitsRing => LazyEdaBitsRing.metaFile K
  | .daBits => LazyDaBits.metaFile
  | .randOhvs => LazyRandOhvs.metaFile
  | .wrapMasks => LazyWrapMasks.metaFile
  | .daPoints => LazyDaPoints.metaFile

/-- `take_batch(n)` of the source's kind, without the batch it hands out. -/
def takeBatch (c : ChaCha) (os : Os) (d : Disk) (n : Nat) :
    LazySource F C K → Except IoError (LazySource F C K × List Write)
  | .edaBits s => do let (_, s, w) ← s.takeBatch c os d n; return (.edaBits s, w)
  | .edaBitsRing s => do let (_, s, w) ← s.takeBatch c os d n; return (.edaBitsRing s, w)
  | .daBits s => do let (_, s, w) ← s.takeBatch c os d n; return (.daBits s, w)
  | .randOhvs s => do let (_, s, w) ← s.takeBatch os d n; return (.randOhvs s, w)
  | .wrapMasks s => do let (_, s, w) ← s.takeBatch c os d n; return (.wrapMasks s, w)
  | .daPoints s => do let (_, s, w) ← s.takeBatch os d n; return (.daPoints s, w)

/-- `save(dir)` of the source's kind. -/
def save (d : Disk) (dir : String) : LazySource F C K → Except IoError (LazySource F C K × Disk)
  | .edaBits s => do let (s, d) ← s.save d dir; return (.edaBits s, d)
  | .edaBitsRing s => do let (s, d) ← s.save d dir; return (.edaBitsRing s, d)
  | .daBits s => do let (s, d) ← s.save d dir; return (.daBits s, d)
  | .randOhvs s => do let (s, d) ← s.save d dir; return (.randOhvs s, d)
  | .wrapMasks s => do let (s, d) ← s.save d dir; return (.wrapMasks s, d)
  | .daPoints s => do let (s, d) ← s.save d dir; return (.daPoints s, d)

/-- `load(dir, party_id)` of a kind. Only `LazyEdaBits::load` can change the disk: it
removes the files of a stale precache. -/
def load (F C : Type) [RawElem F] [RawElem C] (K : Nat) [RawElem (BitVec K)] (kind : SourceKind)
    (d : Disk) (dir : String) (partyId : PartyID) : Except IoError (LazySource F C K × Disk) :=
  match kind with
  | .edaBits => do let (s, d) ← LazyEdaBits.load F K d dir partyId; return (.edaBits s, d)
  | .edaBitsRing => do return (.edaBitsRing (← LazyEdaBitsRing.load K d dir partyId), d)
  | .daBits => do return (.daBits (← LazyDaBits.load F d dir partyId), d)
  | .randOhvs => do return (.randOhvs (← LazyRandOhvs.load F d dir partyId), d)
  | .wrapMasks => do return (.wrapMasks (← LazyWrapMasks.load K d dir partyId), d)
  | .daPoints => do return (.daPoints (← LazyDaPoints.load C d dir partyId), d)

/-- `Drop`: three kinds write the cursor back, the other three have no `Drop`. -/
def drop : LazySource F C K → List Write
  | .edaBits s => persistTo s.metaPath s.cursor
  | .daBits s => persistTo s.metaPath s.cursor
  | .randOhvs s => persistTo s.metaPath s.cursor
  | .edaBitsRing _ | .wrapMasks _ | .daPoints _ => []

end LazySource

end ProviaVM.Preprocessing
