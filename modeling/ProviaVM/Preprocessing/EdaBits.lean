import ProviaVM.Preprocessing.Rng

/-! # The lazy edaBit source

`mpc-core/src/preprocessing/edabits.rs`, `LazyEdaBits<T, F>`. P0 and P1 keep seeds
and regenerate; P2 keeps the received alpha2 elements; P0 and P1 may additionally
hold a precache, a window of regenerated items written to disk.

Ring elements of width `T::K` are `BitVec K`, and `size_of::<T>()` is the raw size
of that type. Each function returns what the source function returns, together
with the new source and either the new disk or, for consumption, the list of
durable writes. -/
namespace ProviaVM.Preprocessing
open ByteFile RawElem

/-- `EdaBitsBatch`: the binary masks and the flat per-bit field shares. -/
structure EdaBitsBatch (F : Type) (K : Nat) where
  gammas : List (BitVec K)
  alphasFlat : List F
  deriving DecidableEq, Repr

inductive EdaBitsStorageMode where
  | none
  | p2Authoritative
  | p01Precache (startCursor len : Nat)
  deriving DecidableEq, Repr

structure LazyEdaBits (F : Type) (K : Nat) where
  seed1 : Seed
  pos1 : Nat
  seed2 : Seed
  pos2 : Nat
  total : Nat
  fieldBytes : Nat
  cursor : Nat
  alphasFlatStore : BackingStore F
  storageMode : EdaBitsStorageMode
  gammaStore : BackingStore (BitVec K)
  partyId : PartyID
  metaPath : Option Path
  deriving DecidableEq, Repr

/-- What finalisation needs to know about a reservation. The consume ranges are offsets into the
stores held at reservation time. -/
structure EdabitsReserveRange where
  cursorBase : Nat
  len : Nat
  alphaConsume : Option (Nat × Nat)
  gammaConsume : Option (Nat × Nat)
  deriving DecidableEq, Repr

structure EdaBitsRangeView (F : Type) (K : Nat) where
  startCursor : Nat
  len : Nat
  partyId : PartyID
  fieldBytes : Nat
  cachedStartCursor : Nat
  cachedLen : Nat
  storeStartCursor : Nat
  alphaView : Option (BackingStore F)
  gammaView : Option (BackingStore (BitVec K))
  seed1 : Seed
  pos1 : Nat
  seed2 : Seed
  pos2 : Nat
  deriving DecidableEq, Repr

structure EdaBitsReservation (F : Type) (K : Nat) where
  root : EdaBitsRangeView F K
  reserveRange : EdabitsReserveRange
  deriving DecidableEq, Repr

section Generation

variable {F : Type} [NatCast F] {K : Nat} [RawElem (BitVec K)]

/-- Bytes of one item on the stream P0 shares with P1: the mask, then `K` field samples. -/
def stride (K : Nat) [RawElem (BitVec K)] (fieldBytes : Nat) : Nat :=
  size (BitVec K) + K * fieldBytes

def ringFromLeBytes (K : Nat) (b : List UInt8) : BitVec K := BitVec.ofNat K (fromLeBytes b)

/-- `generate_into_from_state`: regenerate the items `cursorBase .. cursorBase + n`. P0 seeks both
streams, P1 only the one it shares with P0. -/
def generateIntoFromState (c : ChaCha) (seed1 : Seed) (pos1 : Nat) (seed2 : Seed) (pos2 : Nat)
    (fieldBytes : Nat) (partyId : PartyID) (cursorBase n : Nat) :
    Except IoError (EdaBitsBatch F K) := do
  if n = 0 then return ⟨[], []⟩
  let tBytes := size (BitVec K)
  let st := stride K fieldBytes
  let interleaved :=
    if partyId = .ID0 then c.seekAndGenerate seed1 pos1 (cursorBase * st) (n * st)
    else c.seekAndGenerate seed2 pos2 (cursorBase * st) (n * st)
  let g2Bytes :=
    if partyId = .ID0 then c.seekAndGenerate seed2 pos2 (cursorBase * tBytes) (n * tBytes) else []
  let gammas :=
    if partyId = .ID0 then
      (List.range n).map fun i =>
        ringFromLeBytes K (slice (i * st) tBytes interleaved) ^^^
          ringFromLeBytes K (slice (i * tBytes) tBytes g2Bytes)
    else List.replicate n 0
  let alphas ← (List.range (n * K)).mapM fun idx =>
    parseField interleaved (idx / K * st + tBytes + idx % K * fieldBytes)
  return ⟨gammas, alphas⟩

end Generation

namespace LazyEdaBits

variable {F : Type} [NatCast F] [RawElem F] {K : Nat} [RawElem (BitVec K)]

def remaining (s : LazyEdaBits F K) : Nat := s.total - s.cursor

/-- The `ensure!` that opens `take_batch_into` and `reserve_range`. -/
def ensureAvailable (s : LazyEdaBits F K) (n : Nat) : Except IoError Unit :=
  if s.cursor + n ≤ s.total then .ok () else .error (.need n s.remaining s.cursor s.total)

def metaFile (K : Nat) (dir : String) : Path := ⟨dir, .edabitsMeta K⟩
def authoritativeAlphaPath (K : Nat) (dir : String) : Path := ⟨dir, .edabitsAlpha2 K⟩
def precacheAlphaPath (K : Nat) (dir : String) : Path := ⟨dir, .edabitsPrecacheAlpha K⟩
def precacheGammaPath (K : Nat) (dir : String) : Path := ⟨dir, .edabitsPrecacheGamma K⟩
def precacheMetaPath (K : Nat) (dir : String) : Path := ⟨dir, .edabitsPrecacheMeta K⟩

def persistCursor (s : LazyEdaBits F K) : List Write := persistTo s.metaPath s.cursor

/-- `take_store_range_into`: read the range, then reclaim it. -/
def takeStoreRangeInto {α : Type} [RawElem α] (store : BackingStore α) (os : Os) (d : Disk)
    (start stop : Nat) : Except IoError (List α × List Write) := do
  let xs ← store.readConsumeIntoSlice d start stop (stop - start)
  return (xs, store.consume os start stop)

def generateInto (s : LazyEdaBits F K) (c : ChaCha) (cursorBase n : Nat) :
    Except IoError (EdaBitsBatch F K) :=
  generateIntoFromState c s.seed1 s.pos1 s.seed2 s.pos2 s.fieldBytes s.partyId cursorBase n

/-- `fill_precache_into`: the items served from the precache window, with the writes that
reclaim them. -/
def fillPrecacheInto (s : LazyEdaBits F K) (os : Os) (d : Disk) (cursorBase n : Nat) :
    Except IoError (EdaBitsBatch F K × List Write) :=
  match s.storageMode with
  | .p01Precache startCursor len =>
    if cursorBase < startCursor ∨ startCursor + len ≤ cursorBase then .ok (⟨[], []⟩, [])
    else do
      let cached := min (startCursor + len - cursorBase) n
      let alphaStart := (cursorBase - startCursor) * K
      let (alphas, alphaWrites) ← unwrapOrPanic
        (takeStoreRangeInto s.alphasFlatStore os d alphaStart (alphaStart + cached * K))
      match s.partyId with
      | .ID0 => do
        let gammaStart := cursorBase - startCursor
        let (gammas, gammaWrites) ← unwrapOrPanic
          (takeStoreRangeInto s.gammaStore os (d.applyAll alphaWrites) gammaStart
            (gammaStart + cached))
        return (⟨gammas, alphas⟩, alphaWrites ++ gammaWrites)
      | _ => return (⟨List.replicate cached 0, alphas⟩, alphaWrites)
  | _ => .ok (⟨[], []⟩, [])

def takeBatch (s : LazyEdaBits F K) (c : ChaCha) (os : Os) (d : Disk) (n : Nat) :
    Except IoError (EdaBitsBatch F K × LazyEdaBits F K × List Write) := do
  s.ensureAvailable n
  if n = 0 then return (⟨[], []⟩, s, [])
  let moved := { s with cursor := s.cursor + n }
  if s.partyId = .ID2 then
    let (alphas, writes) ← unwrapOrPanic
      (takeStoreRangeInto s.alphasFlatStore os d (s.cursor * K) (s.cursor * K + n * K))
    return (⟨List.replicate n 0, alphas⟩, moved, writes ++ moved.persistCursor)
  let (cached, writes) ← s.fillPrecacheInto os d s.cursor n
  let precached := cached.gammas.length
  let rest ← s.generateInto c (s.cursor + precached) (n - precached)
  return (⟨cached.gammas ++ rest.gammas, cached.alphasFlat ++ rest.alphasFlat⟩, moved,
    writes ++ moved.persistCursor)

/-- `reserve_range`: the source is only read. -/
def reserveRange (s : LazyEdaBits F K) (n : Nat) : Except IoError (EdaBitsReservation F K) := do
  s.ensureAvailable n
  let view :=
    EdaBitsRangeView.mk (F := F) (K := K) s.cursor n s.partyId s.fieldBytes 0 0 0 none none
    s.seed1 s.pos1 s.seed2 s.pos2
  match s.storageMode with
  | .p2Authoritative =>
    return ⟨{ view with
        cachedStartCursor := s.cursor
        cachedLen := n
        storeStartCursor := 0
        alphaView := some s.alphasFlatStore },
      ⟨s.cursor, n, some (s.cursor * K, s.cursor * K + n * K), none⟩⟩
  | .p01Precache startCursor len =>
    let cached :=
      if s.cursor < startCursor ∨ startCursor + len ≤ s.cursor then 0
      else min (startCursor + len - s.cursor) n
    let alphaStart := (s.cursor - startCursor) * K
    let gammaStart := s.cursor - startCursor
    return ⟨{ view with
        cachedStartCursor := startCursor
        cachedLen := len
        storeStartCursor := startCursor
        alphaView := if 0 < cached then some s.alphasFlatStore else none
        gammaView := if 0 < cached ∧ s.partyId = .ID0 then some s.gammaStore else none },
      ⟨s.cursor, n, if 0 < cached then some (alphaStart, alphaStart + cached * K) else none,
        if 0 < cached then some (gammaStart, gammaStart + cached) else none⟩⟩
  | .none => return ⟨view, ⟨s.cursor, n, none, none⟩⟩

/-- Reclaim the range a reservation recorded, if it recorded one. -/
def consumeRange {α : Type} [RawElem α] (store : BackingStore α) (os : Os) :
    Option (Nat × Nat) → List Write
  | some (start, stop) => store.consume os start stop
  | none => []

/-- `finalize_reserved_range`, in a build without debug assertions. -/
def finalizeReservedRange (s : LazyEdaBits F K) (os : Os) (range : EdabitsReserveRange) :
    LazyEdaBits F K × List Write :=
  let moved := { s with cursor := s.cursor + range.len }
  (moved, consumeRange s.alphasFlatStore os range.alphaConsume ++
    consumeRange s.gammaStore os range.gammaConsume ++ moved.persistCursor)

end LazyEdaBits

namespace EdaBitsReservation

variable {F : Type} {K : Nat}

def rangeView (r : EdaBitsReservation F K) (start len : Nat) : EdaBitsRangeView F K :=
  { r.root with startCursor := r.root.startCursor + start, len := len }

end EdaBitsReservation

namespace EdaBitsRangeView

variable {F : Type} [NatCast F] [RawElem F] {K : Nat} [RawElem (BitVec K)]

/-- Leading items of the view in the cached window. The `usize` subtraction underflows when the view
starts beyond the window: that panics or, with overflow checks off, wraps and is rejected by the
store's range check. -/
def cachedItems (v : EdaBitsRangeView F K) : Except IoError Nat :=
  if v.cachedLen = 0 ∨ v.startCursor < v.cachedStartCursor then .ok 0
  else if v.cachedStartCursor + v.cachedLen < v.startCursor then .error .panicked
  else .ok (min (v.cachedStartCursor + v.cachedLen - v.startCursor) v.len)

/-- Read a range through a view; a missing view is an error. -/
def readView {α : Type} [RawElem α] (view : Option (BackingStore α)) (d : Disk)
    (start stop outLen : Nat) :
    Except IoError (List α) :=
  match view with
  | some store => store.readIntoSlice d start stop outLen
  | none => .error .missingView

/-- The part of `fill_into_par_safe` that reads the `cached` items of the window. -/
def fillFromCache (v : EdaBitsRangeView F K) (d : Disk) (cached : Nat) :
    Except IoError (EdaBitsBatch F K) :=
  if cached = 0 then .ok ⟨[], []⟩
  else do
    let alphaStart := (v.startCursor - v.storeStartCursor) * K
    let alphas ← readView v.alphaView d alphaStart (alphaStart + cached * K) (cached * K)
    match v.partyId with
    | .ID0 => do
      let gammaStart := v.startCursor - v.storeStartCursor
      let gammas ← readView v.gammaView d gammaStart (gammaStart + cached) cached
      return ⟨gammas, alphas⟩
    | _ => return ⟨List.replicate cached 0, alphas⟩

def fillInto (v : EdaBitsRangeView F K) (c : ChaCha) (d : Disk) :
    Except IoError (EdaBitsBatch F K) := do
  if v.len = 0 then return ⟨[], []⟩
  let cached ← v.cachedItems
  let fromCache ← v.fillFromCache d cached
  if cached < v.len then
    if v.partyId = .ID2 then
      .error (.p2CoverageMissing v.startCursor (v.startCursor + v.len))
    else do
      let rest ← generateIntoFromState c v.seed1 v.pos1 v.seed2 v.pos2 v.fieldBytes v.partyId
        (v.startCursor + cached) (v.len - cached)
      return ⟨fromCache.gammas ++ rest.gammas, fromCache.alphasFlat ++ rest.alphasFlat⟩
  else return fromCache

end EdaBitsRangeView

structure FileBackedWriter where
  path : Path
  len : Nat
  deriving DecidableEq, Repr

def FileBackedWriter.writeAt {α : Type} [RawElem α] (w : FileBackedWriter) (d : Disk) (start : Nat)
    (xs : List α) : Except IoError Disk :=
  if xs.isEmpty then .ok d
  else if w.len < start + xs.length then .error (.writeExceedsLen (start + xs.length) w.len)
  else match d w.path with
    | some (.data b) =>
        .ok (d.set w.path (.data (ByteFile.writeAt (start * size α) (bytesOf xs) b)))
    | _ => .error (.notFound w.path)

def stepBy (n step : Nat) : List Nat := (List.range ((n + step - 1) / step)).map (· * step)

namespace LazyEdaBits

variable {F : Type} [NatCast F] [RawElem F] {K : Nat} [RawElem (BitVec K)]

def currentPrecacheMeta (s : LazyEdaBits F K) (startCursor len : Nat) : EdaBitsPrecacheMeta :=
  ⟨s.seed1, s.pos1, s.seed2, s.pos2, s.fieldBytes, s.total, startCursor, len,
    partyIdToByte s.partyId⟩

def precacheMetaMatches (s : LazyEdaBits F K) (m : EdaBitsPrecacheMeta) (requested cursor : Nat) :
    Bool :=
  m.partyIdByte == partyIdToByte s.partyId && m.seed1 == s.seed1 && m.pos1 == s.pos1 &&
    m.seed2 == s.seed2 && m.pos2 == s.pos2 && m.fieldBytes == s.fieldBytes && m.total == s.total &&
    m.startCursor == cursor && decide (requested ≤ m.len)

def hasMatchingPrecache (s : LazyEdaBits F K) (requested : Nat) : Bool :=
  let requested := min requested s.remaining
  if requested = 0 then false
  else match s.storageMode with
    | .p01Precache startCursor len =>
      if startCursor ≠ s.cursor ∨ len < requested then false
      else if s.alphasFlatStore.len < requested * K then false
      else if s.partyId = .ID0 ∧ s.gammaStore.len < requested then false
      else true
    | _ => false

def clearPrecacheRuntime (s : LazyEdaBits F K) : LazyEdaBits F K :=
  if s.partyId = .ID2 then { s with storageMode := .p2Authoritative, gammaStore := .empty }
  else { s with storageMode := .none, alphasFlatStore := .empty, gammaStore := .empty }

def clearPrecacheFiles (s : LazyEdaBits F K) (d : Disk) (dir : String) : LazyEdaBits F K × Disk :=
  if s.partyId = .ID2 then (s, d)
  else (s.clearPrecacheRuntime,
    ((d.remove (precacheAlphaPath K dir)).remove (precacheGammaPath K dir)).remove
      (precacheMetaPath K dir))

def clearPrecacheFilesIfPresent (s : LazyEdaBits F K) (d : Disk) : LazyEdaBits F K × Disk :=
  match s.metaPath with
  | some path => s.clearPrecacheFiles d path.dir
  | none => (s.clearPrecacheRuntime, d)

/-- `load_precache`. A header file of another kind reads as a broken precache header. -/
def loadPrecache (s : LazyEdaBits F K) (d : Disk) (dir : String) :
    Except IoError (LazyEdaBits F K × Disk) :=
  if s.partyId = .ID2 then .ok (s, d)
  else match d (precacheMetaPath K dir) with
    | none => .ok (s, d)
    | some (.precacheMeta m) =>
      if !s.precacheMetaMatches m m.len s.cursor then .ok (s.clearPrecacheFiles d dir)
      else match d (precacheAlphaPath K dir) with
        | none => .ok (s.clearPrecacheFiles d dir)
        | some _ => do
          let alphas ← BackingStore.loadFromFile F d (precacheAlphaPath K dir)
          if alphas.len < m.len * K then return s.clearPrecacheFiles d dir
          let mode := EdaBitsStorageMode.p01Precache m.startCursor m.len
          if s.partyId = .ID0 then
            match d (precacheGammaPath K dir) with
            | none => return { s with alphasFlatStore := alphas }.clearPrecacheFiles d dir
            | some _ =>
              let gammas ← BackingStore.loadFromFile (BitVec K) d (precacheGammaPath K dir)
              if gammas.len < m.len then
                return { s with alphasFlatStore := alphas }.clearPrecacheFiles d dir
              return ({ s with
                alphasFlatStore := alphas, gammaStore := gammas, storageMode := mode }, d)
          else
            return ({ s with alphasFlatStore := alphas, gammaStore := .empty, storageMode := mode },
              d)
    | some _ => .ok (s.clearPrecacheFiles d dir)

/-- The data file of `save`: written only for a nonempty P2 store. -/
def saveAlpha (s : LazyEdaBits F K) (d : Disk) (dir : String) : Except IoError Disk :=
  if s.storageMode = .p2Authoritative ∧ ¬ s.alphasFlatStore.isEmpty then
    s.alphasFlatStore.saveToFile d (authoritativeAlphaPath K dir)
  else .ok d

/-- `save`: the P2 data file first, then the metadata. -/
def save (s : LazyEdaBits F K) (d : Disk) (dir : String) :
    Except IoError (LazyEdaBits F K × Disk) := do
  let d ← s.saveAlpha d dir
  let d := writeMeta d (metaFile K dir)
    ⟨s.seed1, s.pos1, s.seed2, s.pos2, s.total, partyIdToByte s.partyId, s.cursor, s.fieldBytes⟩
  return ({ s with metaPath := some (metaFile K dir) }, d)

/-- The store a loading party starts from: P2's received elements, checked to be long
enough, and nothing elsewhere. -/
def loadStore (F : Type) [RawElem F] (K : Nat) (d : Disk) (dir : String) (partyId : PartyID)
    (m : MetaData) : Except IoError (BackingStore F × EdaBitsStorageMode) :=
  if partyId = .ID2 ∧ 0 < m.total then do
    let store ← BackingStore.loadFromFile F d (authoritativeAlphaPath K dir)
    if store.len < m.total * K then .error (.alphaStoreTooShort store.len (m.total * K) m.total)
    else .ok (store, .p2Authoritative)
  else .ok (.empty, .none)

/-- `load`. A party byte other than the caller's fails the source's `assert_eq!`. -/
def load (F : Type) [RawElem F] (K : Nat) [RawElem (BitVec K)] (d : Disk) (dir : String)
    (partyId : PartyID) : Except IoError (LazyEdaBits F K × Disk) := do
  let m ← readMeta d (metaFile K dir)
  assertParty m partyId
  let (store, mode) ← loadStore F K d dir partyId m
  loadPrecache
    { seed1 := m.seed1
      pos1 := m.pos1
      seed2 := m.seed2
      pos2 := m.pos2
      total := m.total
      fieldBytes := m.fieldBytes
      cursor := m.cursor
      alphasFlatStore := store
      storageMode := mode
      gammaStore := .empty
      partyId := partyId
      metaPath := some (metaFile K dir) } d dir

/-- `BackingStore::extend` on the alpha store, used by `apply_extension`. -/
def extendStore (store : BackingStore F) (d : Disk) (additional : List F) :
    Except IoError (BackingStore F × Disk) :=
  if additional.isEmpty then .ok (store, d)
  else match store with
    | .inMemory v => .ok (.inMemory (v ++ additional), d)
    | .fileBacked path len appendOffset =>
      match d path with
      | some (.data b) =>
        .ok (.fileBacked path (len + additional.length)
          (appendOffset + (bytesOf additional).length),
          d.set path (.data (ByteFile.writeAt appendOffset (bytesOf additional) b)))
      | _ => .error .panicked
    | .empty => .ok (.inMemory additional, d)

def applyExtension (s : LazyEdaBits F K) (d : Disk) (deficit : Nat) (alpha2Ext : List F) :
    Except IoError (LazyEdaBits F K × Disk) := do
  if deficit = 0 then return (s, d)
  let (store, d) ← extendStore s.alphasFlatStore d alpha2Ext
  let grown := { s with alphasFlatStore := store, total := s.total + deficit }
  if s.partyId ≠ .ID2 then return grown.clearPrecacheFilesIfPresent d
  return (grown, d)

/-- Items per generated precache chunk: about 96 MiB of alphas, at least 16 Ki items. -/
def precacheChunkLen (F : Type) [RawElem F] (K requested : Nat) : Nat :=
  let alphaBytesPerItem := max (K * size F) 1
  min requested (max (max (96 * 1024 * 1024 / alphaBytesPerItem) (16 * 1024)) 1)

/-- One iteration of the chunk loop of `prepare_precache`. -/
def precacheChunk (s : LazyEdaBits F K) (c : ChaCha) (alphaWriter : FileBackedWriter)
    (gammaWriter : Option FileBackedWriter) (requested chunkLen : Nat) (d : Disk) (offset : Nat) :
    Except IoError Disk := do
  let batch ← s.generateInto c (s.cursor + offset) (min (requested - offset) chunkLen)
  let d ← alphaWriter.writeAt d (offset * K) batch.alphasFlat
  match gammaWriter with
  | some writer => writer.writeAt d offset batch.gammas
  | none => return d

def preparePrecache (s : LazyEdaBits F K) (c : ChaCha) (d : Disk) (dir : String) (requested : Nat) :
    Except IoError (LazyEdaBits F K × Disk) := do
  if s.partyId = .ID2 ∨ requested = 0 ∨ s.remaining = 0 then return s.clearPrecacheFiles d dir
  if s.remaining < requested then
    .error (.precacheRequest requested s.remaining s.cursor s.total)
  else if s.hasMatchingPrecache requested then return (s, d)
  else do
    let (alphaStore, d) :=
      BackingStore.createFileBackedSized F d (precacheAlphaPath K dir) (requested * K)
    let (gammaStore, d) :=
      if s.partyId = .ID0 then
        BackingStore.createFileBackedSized (BitVec K) d (precacheGammaPath K dir) requested
      else (.empty, d.remove (precacheGammaPath K dir))
    let gammaWriter :=
      if s.partyId = .ID0 then some (FileBackedWriter.mk (precacheGammaPath K dir) requested)
      else none
    let chunkLen := precacheChunkLen F K requested
    let d ← (stepBy requested chunkLen).foldlM
      (s.precacheChunk c ⟨precacheAlphaPath K dir, requested * K⟩ gammaWriter requested chunkLen) d
    let d :=
      d.set (precacheMetaPath K dir) (.precacheMeta (s.currentPrecacheMeta s.cursor requested))
    return ({ s with
        alphasFlatStore := alphaStore
        gammaStore := gammaStore
        storageMode := .p01Precache s.cursor requested }, d)

/-- `Drop` writes the cursor back once more. -/
def drop (s : LazyEdaBits F K) : List Write := s.persistCursor

end LazyEdaBits

end ProviaVM.Preprocessing
