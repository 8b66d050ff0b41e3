import ProviaVM.Preprocessing.PrecacheWindow
import ProviaVM.Preprocessing.CursorPersistence

/-! # The precache is invisible

A lazy edaBit source with its disk, driven by any interleaving of `prepare_precache`,
takes, reservations and their finalisation, extensions, saves and loads. `CacheInv` says
that the window on disk, and the one in use, holds the regenerated items from the cursor
on. It survives every operation as long as one directory is used and a reservation is
finalised in the state it was made in; then whatever is handed out is what regeneration
gives, or at P2 what the plain store holds. -/
namespace ProviaVM.Preprocessing
open ByteFile RawElem LazyEdaBits Run List

/-- What a driver does with one source. Filling only reads: a reservation borrows the source, so
nothing happens between `reserve_range` and the fills. -/
inductive PrecacheOp (F : Type) where
  | prepare (dir : String) (requested : Nat)
  | take (os : Os) (n : Nat)
  | reserve (n : Nat)
  | finalize (os : Os) (i : Nat)
  | extend (deficit : Nat) (alpha2Ext : List F)
  | save (dir : String)
  | load (dir : String) (dropRuns : Bool)

def PrecacheOp.isPrepare {F : Type} : PrecacheOp F → Bool
  | .prepare .. => true
  | _ => false

/-- The source, its disk, and the reserved ranges that are not finalised yet. -/
structure PrecacheSys (F : Type) (K : Nat) where
  src : LazyEdaBits F K
  disk : Disk
  reserved : List EdabitsReserveRange

section Plain

variable {F : Type} [Ring F] [RawElem F] {K : Nat} [RawElem (BitVec K)]

/-- The batch for the items `base .. base + n` without a precache: regenerated from the seeds of the
source `o` the run began with, or at P2 read from the plain store. -/
def LazyEdaBits.HandsOutPlain (o : LazyEdaBits F K) (c : ChaCha) (s : LazyEdaBits F K) (d : Disk)
    (base n : Nat) (b : EdaBitsBatch F K) : Prop :=
  if s.partyId = .ID2 then b.gammas = List.replicate n 0 ∧
    b.alphasFlat.map some = (List.range (n * K)).map fun e =>
      storedAt s.alphasFlatStore d (base * K + e)
  else b = o.regenerated c base n

theorem takeBatch_plain_of_P2 {o s s' : LazyEdaBits F K} {c : ChaCha} {os : Os} {d : Disk} {n : Nat}
    {b : EdaBitsBatch F K} {ws : List Write} (isP2 : s.partyId = .ID2)
    (h : s.takeBatch c os d n = .ok (b, s', ws)) : o.HandsOutPlain c s d s.cursor n b := by
  rw [HandsOutPlain, if_pos isP2]
  unfold LazyEdaBits.takeBatch at h
  obtain ⟨_, -, h⟩ := bind_ok.mp h
  split at h
  · rename_i zero
    cases h
    simp [zero]
  obtain ⟨⟨alphas, writes⟩, took, last⟩ := bind_ok.mp h
  cases last
  obtain ⟨read, -⟩ := takeStoreRangeInto_ok (unwrapOrPanic_ok.mp took)
  have stored := readConsumeIntoSlice_stored read
  rw [Nat.add_sub_cancel_left] at stored
  exact ⟨rfl, stored⟩

/-- P2 fills a reserved range from the store, or fails. -/
theorem fillInto_plain_of_P2 {o s : LazyEdaBits F K} {c : ChaCha} {d : Disk}
    (isP2 : s.partyId = .ID2) (noWindow : ∀ start len, s.storageMode ≠ .p01Precache start len)
    {n start len : Nat} {r : EdaBitsReservation F K} {b : EdaBitsBatch F K}
    (reserved : s.reserveRange n = .ok r) (h : (r.rangeView start len).fillInto c d = .ok b) :
    o.HandsOutPlain c s d (s.cursor + start) len b := by
  rw [HandsOutPlain, if_pos isP2]
  obtain ⟨cursor, -, -, -, -, -, party⟩ := reserveRange_root reserved
  have stores : r.root.storeStartCursor = 0 ∧
      ∀ store, r.root.alphaView = some store → store = s.alphasFlatStore := by
    unfold reserveRange at reserved
    obtain ⟨_, -, reserved⟩ := bind_ok.mp reserved
    cases mode : s.storageMode with
    | none =>
      simp only [mode] at reserved
      cases reserved
      exact ⟨rfl, fun _ view => by cases view⟩
    | p2Authoritative =>
      simp only [mode] at reserved
      cases reserved
      exact ⟨rfl, fun _ view => (Option.some.inj view).symm⟩
    | p01Precache a l => exact absurd mode (noWindow a l)
  unfold EdaBitsRangeView.fillInto at h
  split at h
  · rename_i zero
    replace zero : len = 0 := zero
    cases h
    simp [zero]
  obtain ⟨k, counted, h⟩ := bind_ok.mp h
  obtain ⟨cached, read, h⟩ := bind_ok.mp h
  have party' : (r.rangeView start len).partyId = .ID2 := party.trans isP2
  split at h
  · cases h
  rename_i full
  cases h
  obtain ⟨le, -⟩ := cachedItems_ok counted
  have all : k = len := Nat.le_antisymm le (Nat.not_lt.mp full)
  subst all
  have served := fillFromCache_served read
  refine ⟨served.zeros (by rw [party']; decide), ?_⟩
  have first : (r.rangeView start k).startCursor - (r.rangeView start k).storeStartCursor =
      s.cursor + start := by
    simp [EdaBitsReservation.rangeView, stores.1, cursor]
  rcases Nat.eq_zero_or_pos k with rfl | positive
  · rw [served.nothing rfl]
    simp
  · have readAlpha := served.alphas positive
    rw [first] at readAlpha
    exact readView_stored stores.2 readAlpha

end Plain

namespace PrecacheSys

variable {F : Type} [Ring F] [RawElem F] {K : Nat} [RawElem (BitVec K)]

def step (c : ChaCha) (s : PrecacheSys F K) : PrecacheOp F → Except IoError (PrecacheSys F K)
  | .prepare dir requested => do
    let (src, disk) ← s.src.preparePrecache c s.disk dir requested
    return { s with src, disk }
  | .take os n => do
    let (_, src, writes) ← s.src.takeBatch c os s.disk n
    return { s with src, disk := s.disk.applyAll writes }
  | .reserve n => do
    let r ← s.src.reserveRange n
    return { s with reserved := s.reserved ++ [r.reserveRange] }
  | .finalize os i =>
    match s.reserved[i]? with
    | none => .error .panicked
    | some range =>
      let (src, writes) := s.src.finalizeReservedRange os range
      .ok ⟨src, s.disk.applyAll writes, s.reserved.eraseIdx i⟩
  | .extend deficit alpha2Ext => do
    let (src, disk) ← s.src.applyExtension s.disk deficit alpha2Ext
    return { s with src, disk }
  | .save dir => do
    let (src, disk) ← s.src.save s.disk dir
    return { s with src, disk }
  | .load dir dropRuns => do
    let disk := if dropRuns then s.disk.applyAll s.src.drop else s.disk
    let (src, disk) ← LazyEdaBits.load F K disk dir s.src.partyId
    return { s with src, disk }

/-- One directory is used, and a reservation is finalised in the state it was made in: reserving
again would give the same range. -/
def Orderly (dir : String) (s : PrecacheSys F K) : PrecacheOp F → Prop
  | .prepare dir' _ | .save dir' | .load dir' _ => dir' = dir
  | .finalize _ i => ∀ range, s.reserved[i]? = some range →
      ∃ r, s.src.reserveRange range.len = .ok r ∧ r.reserveRange = range
  | .take .. | .reserve _ | .extend .. => True

end PrecacheSys

section Invariant

variable {F : Type} [Ring F] [RawElem F] {K : Nat} [RawElem (BitVec K)]
variable {c : ChaCha} {dir : String} {s s' o : LazyEdaBits F K} {d d' : Disk} {n : Nat}

/-- A header that no load of the directory can accept any more: the pool has grown since. -/
def Outgrown (dir : String) (s : LazyEdaBits F K) (d : Disk) (m : EdaBitsPrecacheMeta) : Prop :=
  m.total < s.total ∧ ∀ h, d (metaFile K dir) = some (.header h) → m.total < h.total

/-- The cursor the directory records is the one in memory, once the source has been saved. -/
def CursorRecorded (dir : String) (s : LazyEdaBits F K) (d : Disk) : Prop :=
  (s.metaPath = none ∧ ∀ h, d (metaFile K dir) ≠ some (.header h)) ∨
    (s.metaPath = some (metaFile K dir) ∧
      cursorAt d (metaFile K dir) = some s.cursor)

/-- P2 has no window; P0 and P1 use none or the one on disk; and a window on disk lies within the
material and holds the regenerated items from the cursor on, unless it is outgrown. -/
structure CacheInv (c : ChaCha) (dir : String) (s : LazyEdaBits F K) (d : Disk) : Prop where
  noWindow : s.partyId = .ID2 → ∀ start len, s.storageMode ≠ .p01Precache start len
  runtime : s.partyId ≠ .ID2 → s.storageMode = .none ∨ ∃ m, RuntimeWindow c dir s d m
  onDisk : s.partyId ≠ .ID2 → ∀ m, d (precacheMetaPath K dir) = some (.precacheMeta m) →
    Outgrown dir s d m ∨ (m.total ≤ s.total ∧ (0 < m.len ∧ m.startCursor + m.len ≤ m.total) ∧
      WindowRight F K c d dir s.partyId m s.cursor)
  recorded : CursorRecorded dir s d

/-- The path names of a directory are all different. -/
theorem paths_ne (K : Nat) (dir : String) :
    metaFile K dir ≠ precacheAlphaPath K dir ∧
      metaFile K dir ≠ precacheGammaPath K dir ∧
      metaFile K dir ≠ precacheMetaPath K dir := by
  simp [metaFile, precacheAlphaPath, precacheGammaPath,
    precacheMetaPath]

variable {os : Os}

/-- Reclaiming `k` items of the window at the cursor spares what follows them. -/
theorem RuntimeWindow.spares {m : EdaBitsPrecacheMeta} (window : RuntimeWindow c dir s d m)
    {k : Nat} (start : m.startCursor ≤ s.cursor) (le : k ≤ n) {w : Write}
    (member : w ∈ s.alphasFlatStore.consume os ((s.cursor - m.startCursor) * K)
      ((s.cursor - m.startCursor) * K + k * K) ++
      s.gammaStore.consume os (s.cursor - m.startCursor) (s.cursor - m.startCursor + k)) :
    (∀ e, (s.cursor + n - m.startCursor) * K ≤ e → Spares F (precacheAlphaPath K dir) e w) ∧
      ∀ i, s.cursor + n - m.startCursor ≤ i → Spares (BitVec K) (precacheGammaPath K dir) i w := by
  rcases mem_append.mp member with fromAlpha | fromGamma
  · refine ⟨fun e low => spares_of_mem_consume fromAlpha (Or.inr ?_),
      fun i _ => spares_of_mem_consume_other fromAlpha ?_⟩
    · rw [← Nat.add_mul]
      exact Nat.le_trans (Nat.mul_le_mul_right K (by omega)) low
    · rw [window.alphaStore]
      simp [precacheAlphaPath, precacheGammaPath]
  · by_cases isP0 : s.partyId = .ID0
    · refine ⟨fun e _ => spares_of_mem_consume_other fromGamma ?_,
        fun i low => spares_of_mem_consume fromGamma (Or.inr (by omega))⟩
      rw [window.gammaStore isP0]
      simp [precacheAlphaPath, precacheGammaPath]
    · rw [window.noGamma isP0] at fromGamma
      cases fromGamma

/-- Moving the cursor, with writes that reclaim items of the window at the cursor. -/
theorem CacheInv.advance (inv : CacheInv c dir s d) (os : Os) {reclaim : List Write}
    (only : LazySource.OnlyReclaims reclaim)
    (idle : s.partyId ≠ .ID2 → s.storageMode = .none → reclaim = [])
    (within : ∀ m, RuntimeWindow c dir s d m → ∀ w ∈ reclaim, m.startCursor ≤ s.cursor ∧ ∃ k ≤ n,
      w ∈ s.alphasFlatStore.consume os ((s.cursor - m.startCursor) * K)
      ((s.cursor - m.startCursor) * K + k * K) ++
      s.gammaStore.consume os (s.cursor - m.startCursor) (s.cursor - m.startCursor + k)) :
    CacheInv c dir { s with cursor := s.cursor + n }
      (d.applyAll (reclaim ++ persistTo s.metaPath (s.cursor + n))) := by
  -- a window that was right stays right, whether or not it is the one in use
  have windowKept : s.partyId ≠ .ID2 → ∀ m, d (precacheMetaPath K dir) = some (.precacheMeta m) →
      WindowRight F K c d dir s.partyId m s.cursor →
      WindowRight F K c (d.applyAll (reclaim ++ persistTo s.metaPath (s.cursor + n)))
        dir s.partyId m
        (s.cursor + n) := by
    intro notP2 m found right
    have spared : ∀ w ∈ reclaim, (∀ e, (s.cursor + n - m.startCursor) * K ≤ e →
      Spares F (precacheAlphaPath K dir) e w) ∧
        ∀ i, s.cursor + n - m.startCursor ≤ i →
          Spares (BitVec K) (precacheGammaPath K dir) i w := by
      intro w reclaimed
      rcases inv.runtime notP2 with none_ | ⟨m', window⟩
      · rw [idle notP2 none_] at reclaimed
        cases reclaimed
      · obtain rfl : m' = m := by simpa using window.found.symm.trans found
        obtain ⟨start, k, le, inWindow⟩ := within m' window w reclaimed
        exact window.spares start le inWindow
    refine right.applyAll (Nat.le_add_right _ _) (fun e low w member => ?_)
      (fun isP0 i low w member => ?_)
    · rcases mem_append.mp member with reclaimed | persisted
      · exact (spared w reclaimed).1 e low
      · exact spares_of_mem_persistTo persisted
    · rcases mem_append.mp member with reclaimed | persisted
      · exact (spared w reclaimed).2 i low
      · exact spares_of_mem_persistTo persisted
  refine ⟨inv.noWindow, fun notP2 => ?_, fun notP2 m found => ?_, ?_⟩
  · rcases inv.runtime notP2 with none_ | ⟨m, window⟩
    · exact Or.inl none_
    · exact Or.inr ⟨m, (precacheMeta_applyAll _).mpr window.found, window.mode, window.seeds,
        window.alphaStore, window.gammaStore, window.noGamma,
        windowKept notP2 m window.found window.right⟩
  · have found₀ := (precacheMeta_applyAll _).mp found
    rcases inv.onDisk notP2 m found₀ with ⟨grown, headers⟩ | ⟨total, positive, right⟩
    · refine Or.inl ⟨grown, fun h header => ?_⟩
      obtain ⟨h₀, header₀, same⟩ := header_of_applyAll header
      rw [same]
      exact headers h₀ header₀
    · exact Or.inr ⟨total, positive, windowKept notP2 m found₀ right⟩
  · rcases inv.recorded with ⟨unsaved, noHeader⟩ | ⟨saved, cursor⟩
    · refine Or.inl ⟨unsaved, fun h header => ?_⟩
      obtain ⟨h₀, header₀, -⟩ := header_of_applyAll header
      exact noHeader h₀ header₀
    · refine Or.inr ⟨saved, ?_⟩
      rw [Disk.applyAll_append, cursorAt_persistTo (cursorAt_onlyReclaims only cursor),
        if_pos saved]

/-- Taking moves the cursor past items of the window; those from the new cursor on are untouched. -/
theorem CacheInv.take {b : EdaBitsBatch F K} {ws : List Write} (inv : CacheInv c dir s d)
    (h : s.takeBatch c os d n = .ok (b, s', ws)) : CacheInv c dir s' (d.applyAll ws) := by
  obtain ⟨-, rfl, rfl⟩ := takeBatch_spec h
  rcases Nat.eq_zero_or_pos n with rfl | positive
  · exact inv
  have writes : s.takeWrites os n = s.takeReclaim os n ++ persistTo s.metaPath (s.cursor + n) :=
    if_neg (Nat.pos_iff_ne_zero.mp positive)
  rw [writes]
  refine inv.advance os (LazySource.onlyReclaims_takeReclaim s os n) (fun notP2 mode => ?_)
    fun m window w member => ?_
  · simp only [takeReclaim, if_neg notP2, mode]
  · have notP2 : s.partyId ≠ .ID2 := fun isP2 => inv.noWindow isP2 _ _ window.mode
    simp only [takeReclaim, if_neg notP2, window.mode] at member
    split at member
    · cases member
    refine ⟨by omega, min (m.startCursor + m.len - s.cursor) n, Nat.min_le_right _ _, ?_⟩
    rcases mem_append.mp member with fromAlpha | fromGamma
    · exact mem_append_left _ fromAlpha
    · split at fromGamma
      · exact mem_append_right _ fromGamma
      · cases fromGamma

/-- Finalising a reservation that would be made the same way again. -/
theorem CacheInv.finalize {r : EdaBitsReservation F K} (inv : CacheInv c dir s d)
    (reserved : s.reserveRange n = .ok r) (len : r.reserveRange.len = n) :
    CacheInv c dir (s.finalizeReservedRange os r.reserveRange).1
      (d.applyAll (s.finalizeReservedRange os r.reserveRange).2) := by
  unfold reserveRange at reserved
  obtain ⟨_, -, reserved⟩ := bind_ok.mp reserved
  refine inv.advance os ((LazySource.onlyReclaims_consumeRange _ _ _).append
    (LazySource.onlyReclaims_consumeRange _ _ _))
    (fun notP2 mode => ?_) fun m window w member => ?_
  · simp only [mode] at reserved
    cases reserved
    rfl
  · simp only [window.mode] at reserved
    cases reserved
    by_cases outside : s.cursor < m.startCursor ∨ m.startCursor + m.len ≤ s.cursor
    · simp [outside, consumeRange] at member
    · rw [if_neg outside] at member
      refine ⟨by omega, min (m.startCursor + m.len - s.cursor) n, Nat.min_le_right _ _, ?_⟩
      split at member
      · exact member
      · simp [consumeRange] at member

/-- Clearing the precache of the directory. -/
theorem CacheInv.clear
    (noWindow : s.partyId = .ID2 → ∀ start len, s.storageMode ≠ .p01Precache start len)
    (recorded : CursorRecorded dir s d) :
    CacheInv c dir (s.clearPrecacheFiles d dir).1 (s.clearPrecacheFiles d dir).2 := by
  obtain ⟨notAlpha, notGamma, notMeta⟩ := paths_ne K dir
  unfold clearPrecacheFiles clearPrecacheRuntime
  by_cases isP2 : s.partyId = .ID2
  · rw [if_pos isP2]
    exact ⟨noWindow, fun notP2 => absurd isP2 notP2, fun notP2 => absurd isP2 notP2, recorded⟩
  · simp only [if_neg isP2]
    refine ⟨fun yes => absurd yes isP2, fun _ => Or.inl rfl, fun _ m found => ?_, ?_⟩
    · rw [Disk.remove_same] at found
      cases found
    · have same : ((d.remove (precacheAlphaPath K dir)).remove
          (precacheGammaPath K dir)).remove (precacheMetaPath K dir)
          (metaFile K dir) = d (metaFile K dir) := by
        rw [Disk.remove_ne notMeta, Disk.remove_ne notGamma, Disk.remove_ne notAlpha]
      unfold CursorRecorded at recorded ⊢
      rw [same, cursorAt_congr same]
      exact recorded

/-- A window that was just prepared holds what would be regenerated. -/
theorem CacheInv.prepare {requested : Nat} (inv : CacheInv c dir s d)
    (h : s.preparePrecache c d dir requested = .ok (s', d')) : CacheInv c dir s' d' := by
  obtain ⟨notAlpha, notGamma, notMeta⟩ := paths_ne K dir
  rcases preparePrecache_spec h with cleared | ⟨rfl, rfl⟩ |
    ⟨notP2, bounds, ⟨gammas, rfl, gammaStore⟩, header, right, frame⟩
  · have after := @CacheInv.clear F _ _ K _ c dir s d inv.noWindow inv.recorded
    rw [← cleared] at after
    exact after
  · exact inv
  · refine ⟨fun isP2 => absurd isP2 notP2,
      fun _ => Or.inr ⟨_, header, rfl, ⟨rfl, rfl, rfl, rfl, rfl⟩, rfl, ?_, ?_, right⟩,
      fun _ m found => ?_, ?_⟩
    · intro isP0
      rw [gammaStore, if_pos isP0]
      rfl
    · intro notP0
      rw [gammaStore, if_neg notP0]
    · obtain rfl : s.currentPrecacheMeta s.cursor requested = m := by
        simpa using header.symm.trans found
      exact Or.inr ⟨Nat.le_refl _, bounds, right⟩
    · have same := frame _ notAlpha notGamma notMeta
      have recorded := inv.recorded
      unfold CursorRecorded at recorded ⊢
      rw [same, cursorAt_congr same]
      exact recorded

omit [Ring F] in
/-- Appending to a store changes a data file at most. -/
theorem extendStore_frame {store store' : BackingStore F} {additional : List F}
    (h : extendStore store d additional = .ok (store', d')) (q : Path) :
    d' q = d q ∨ (∃ b, d q = some (.data b)) ∧ ∃ b, d' q = some (.data b) := by
  unfold extendStore at h
  split at h
  · cases h
    exact Or.inl rfl
  split at h
  · cases h
    exact Or.inl rfl
  · split at h
    · rename_i _ path _ _ _ b found
      cases h
      rcases eq_or_ne q path with rfl | different
      · exact Or.inr ⟨⟨b, found⟩, _, Disk.set_same _ _ _⟩
      · exact Or.inl (Disk.set_ne _ different)
    · cases h
  · cases h
    exact Or.inl rfl

omit [Ring F] [RawElem F] [RawElem (BitVec K)] in
/-- Only the metadata file of the directory matters. -/
theorem CursorRecorded.congr (h : CursorRecorded dir s d)
    (same : d' (metaFile K dir) = d (metaFile K dir) ∨
      (∃ b, d (metaFile K dir) = some (.data b)) ∧
        ∃ b, d' (metaFile K dir) = some (.data b)) : CursorRecorded dir s d' := by
  unfold CursorRecorded at h ⊢
  rcases same with same | ⟨⟨b, before⟩, b', after⟩
  · rw [same, cursorAt_congr same]
    exact h
  · rcases h with ⟨unsaved, -⟩ | ⟨-, cursor⟩
    · exact Or.inl ⟨unsaved, fun m header => by simp [after] at header⟩
    · simp [cursorAt, before] at cursor

/-- An extension drops the window; files that stay behind have too small a total to be loaded. -/
theorem CacheInv.extend {deficit : Nat} {alpha2Ext : List F} (inv : CacheInv c dir s d)
    (h : s.applyExtension d deficit alpha2Ext = .ok (s', d')) :
    CacheInv c dir s' d' := by
  unfold applyExtension at h
  split at h
  · cases h
    exact inv
  obtain ⟨⟨store, d₁⟩, extended, h⟩ := bind_ok.mp h
  have frame := extendStore_frame extended
  have recorded :
      CursorRecorded dir { s with alphasFlatStore := store, total := s.total + deficit } d₁ :=
    CursorRecorded.congr inv.recorded (frame _)
  dsimp only at h
  split at h
  · rename_i notP2
    have cleared := Except.ok.inj h
    unfold clearPrecacheFilesIfPresent at cleared
    split at cleared
    · rename_i path pathOf
      have same : path.dir = dir := by
        rcases inv.recorded with ⟨unsaved, -⟩ | ⟨saved, -⟩
        · simp [unsaved] at pathOf
        · obtain rfl := Option.some.inj (saved.symm.trans pathOf)
          rfl
      have after := @CacheInv.clear F _ _ K _ c dir
        { s with alphasFlatStore := store, total := s.total + deficit } d₁
        (fun isP2 => absurd isP2 notP2) recorded
      rw [same] at cleared
      rw [cleared] at after
      exact after
    · -- the files stay, but no later load can accept them
      rename_i pathOf
      have noHeader : ∀ h, d (metaFile K dir) ≠ some (.header h) := by
        rcases inv.recorded with ⟨-, noHeader⟩ | ⟨saved, -⟩
        · exact noHeader
        · simp [saved] at pathOf
      cases cleared
      unfold clearPrecacheRuntime
      rw [if_neg notP2]
      refine ⟨fun isP2 => absurd isP2 notP2, fun _ => Or.inl rfl,
        fun _ m found => Or.inl ⟨?_, fun h header => ?_⟩, recorded⟩
      · have found₀ : d (precacheMetaPath K dir) = some (.precacheMeta m) := by
          rcases frame (precacheMetaPath K dir) with same | ⟨-, b, after⟩
          · exact same.symm.trans found
          · simp [after] at found
        show m.total < s.total + deficit
        rcases inv.onDisk notP2 m found₀ with ⟨grown, -⟩ | ⟨le, -⟩
        · omega
        · omega
      · rcases frame (metaFile K dir) with same | ⟨-, b, after⟩
        · exact absurd (same.symm.trans header) (noHeader h)
        · simp [after] at header
  · rename_i isP2
    replace isP2 : s.partyId = .ID2 := not_not.mp isP2
    cases h
    exact ⟨inv.noWindow, fun notP2 => absurd isP2 notP2, fun notP2 => absurd isP2 notP2, recorded⟩

/-- Saving records the cursor in the metadata and touches no file of the window. -/
theorem CacheInv.save (inv : CacheInv c dir s d) (h : s.save d dir = .ok (s', d')) :
    CacheInv c dir s' d' := by
  obtain ⟨rfl, header, -, frame⟩ := save_ok h
  have precacheFile : ∀ q : Path, q = precacheAlphaPath K dir ∨
      q = precacheGammaPath K dir ∨ q = precacheMetaPath K dir → d' q = d q := by
    rintro q (rfl | rfl | rfl)
    · exact frame _ (by simp [metaFile, precacheAlphaPath])
        (by simp [authoritativeAlphaPath, precacheAlphaPath])
    · exact frame _ (by simp [metaFile, precacheGammaPath])
        (by simp [authoritativeAlphaPath, precacheGammaPath])
    · exact frame _ (by simp [metaFile, precacheMetaPath])
        (by simp [authoritativeAlphaPath, precacheMetaPath])
  have kept : ∀ {m}, WindowRight F K c d dir s.partyId m s.cursor →
      WindowRight F K c d' dir s.partyId m s.cursor :=
    fun right => right.congr (precacheFile _ (Or.inl rfl)) (precacheFile _ (Or.inr (Or.inl rfl)))
  have metaKept := precacheFile _ (Or.inr (Or.inr rfl))
  refine ⟨inv.noWindow, fun notP2 => ?_, fun notP2 m found => ?_,
    Or.inr ⟨rfl, cursorAt_header header⟩⟩
  · rcases inv.runtime notP2 with none_ | ⟨m, w⟩
    · exact Or.inl none_
    · exact Or.inr ⟨m, metaKept.trans w.found, w.mode, w.seeds, w.alphaStore, w.gammaStore,
        w.noGamma, kept w.right⟩
  · rcases inv.onDisk notP2 m (metaKept.symm.trans found) with ⟨grown, -⟩ | ⟨le, positive, right⟩
    · refine Or.inl ⟨grown, fun h' header' => ?_⟩
      rw [header] at header'
      cases header'
      exact grown
    · exact Or.inr ⟨le, positive, kept right⟩

/-- Loading accepts the window on disk only if it fits the metadata; otherwise the source
regenerates. -/
theorem CacheInv.load (wide : 0 < K) (inv : CacheInv c dir s d)
    (h : LazyEdaBits.load F K d dir s.partyId = .ok (s', d')) : CacheInv c dir s' d' := by
  simp only [LazyEdaBits.load, bind_ok] at h
  obtain ⟨m, header, _, -, ⟨store, mode⟩, stored, loaded⟩ := h
  have header := readMeta_ok.mp header
  have cursor : m.cursor = s.cursor := by
    rcases inv.recorded with ⟨-, noHeader⟩ | ⟨-, cursor⟩
    · exact absurd header (noHeader m)
    · simpa [cursorAt, header] using cursor
  have modes : mode = .p2Authoritative ∨ mode = .none := by
    unfold loadStore at stored
    split at stored
    · obtain ⟨_, -, checked⟩ := bind_ok.mp stored
      split at checked
      · cases checked
      · cases checked
        exact Or.inl rfl
    · cases stored
      exact Or.inr rfl
  generalize made :
    LazyEdaBits.mk m.seed1 m.pos1 m.seed2 m.pos2 m.total m.fieldBytes m.cursor store mode .empty
    s.partyId (some (metaFile K dir)) = s₀ at loaded
  have party : s₀.partyId = s.partyId := by rw [← made]
  have total : s₀.total = m.total := by rw [← made]
  have cursor₀ : s₀.cursor = s.cursor := by rw [← made, cursor]
  have noWindow : ∀ start len, s₀.storageMode ≠ .p01Precache start len := by
    rw [← made]
    rcases modes with rfl | rfl <;> simp
  have recorded : CursorRecorded dir s₀ d := by
    rw [← made]
    exact Or.inr ⟨rfl, cursorAt_header header⟩
  by_cases isP2 : s₀.partyId = .ID2
  · simp only [loadPrecache, if_pos isP2] at loaded
    cases loaded
    exact ⟨fun _ => noWindow, fun notP2 => absurd isP2 notP2, fun notP2 => absurd isP2 notP2,
      recorded⟩
  rcases loadPrecache_cases isP2 loaded with ⟨missing, rfl, rfl⟩ | ⟨a, cleared⟩ |
    ⟨pm, alphas, gammas, found, matches_, loadedAlpha, longAlpha, loadedGamma, noGamma, rfl, rfl⟩
  · refine ⟨fun _ => noWindow, fun _ => Or.inl ?_, fun _ m found => ?_, recorded⟩
    · unfold loadStore at stored
      rw [if_neg fun both => isP2 (party.trans both.1)] at stored
      cases stored
      rw [← made]
    · rw [missing] at found
      cases found
  · have after :=
      @CacheInv.clear F _ _ K _ c dir { s₀ with alphasFlatStore := a } d
      (fun _ => noWindow) recorded
    rw [← cleared] at after
    exact after
  · simp only [precacheMetaMatches, Bool.and_eq_true, beq_iff_eq] at matches_
    obtain ⟨⟨⟨⟨⟨⟨⟨⟨-, seed1⟩, pos1⟩, seed2⟩, pos2⟩, fieldBytes⟩, sameTotal⟩, start⟩, -⟩ := matches_
    -- an outgrown header has another total than the metadata
    obtain ⟨⟨positive, fits⟩, right⟩ : (0 < pm.len ∧ pm.startCursor + pm.len ≤ pm.total) ∧
        WindowRight F K c d' dir s₀.partyId pm s₀.cursor := by
      rcases inv.onDisk (party ▸ isP2) pm found with ⟨-, grown⟩ | ⟨-, bounds, right⟩
      · exact absurd (grown m header) (by omega)
      · exact ⟨bounds, by rw [party, cursor₀]; exact right⟩
    refine ⟨fun yes => absurd yes isP2,
      fun _ => Or.inr ⟨pm, found, rfl, ⟨seed1, pos1, seed2, pos2, fieldBytes⟩, ?_, ?_,
      noGamma, right⟩, fun _ m' found' => ?_, recorded⟩
    · exact storePath_loadFromFile loadedAlpha
        (Nat.lt_of_lt_of_le (Nat.mul_pos positive wide) longAlpha)
    · intro isP0
      obtain ⟨loadedGamma, longGamma⟩ := loadedGamma isP0
      exact storePath_loadFromFile loadedGamma (Nat.lt_of_lt_of_le positive longGamma)
    · obtain rfl : pm = m' := by simpa using found.symm.trans found'
      exact Or.inr ⟨Nat.le_of_eq sameTotal, ⟨positive, fits⟩, right⟩

/-- What regeneration depends on: the seeds with their positions, the sampling width and the
party. -/
def LazyEdaBits.origin (s : LazyEdaBits F K) : Seed × Nat × Seed × Nat × Nat × PartyID :=
  (s.seed1, s.pos1, s.seed2, s.pos2, s.fieldBytes, s.partyId)

omit [RawElem F] in
theorem regenerated_congr (same : s.origin = o.origin) (c : ChaCha) (base n : Nat) :
    s.regenerated c base n = o.regenerated c base n := by
  simp only [LazyEdaBits.origin, Prod.mk.injEq] at same
  obtain ⟨seed1, pos1, seed2, pos2, fieldBytes, party⟩ := same
  simp only [regenerated, seed1, pos1, seed2, pos2, fieldBytes, party]

/-- The source and the metadata of the directory still have the seeds of `o`. -/
structure SameOrigin (o : LazyEdaBits F K) (dir : String) (s : LazyEdaBits F K) (d : Disk) :
    Prop where
  source : s.origin = o.origin
  header : ∀ h, d (metaFile K dir) = some (.header h) →
    (h.seed1, h.pos1, h.seed2, h.pos2, h.fieldBytes, o.partyId) = o.origin

omit [Ring F] [RawElem F] [RawElem (BitVec K)] in
theorem SameOrigin.applyAll (ws : List Write) (own : SameOrigin o dir s d)
    (same : s'.origin = s.origin) :
    SameOrigin o dir s' (d.applyAll ws) := by
  refine ⟨same.trans own.source, fun h header => ?_⟩
  obtain ⟨h₀, header₀, sameHeader⟩ := header_of_applyAll header
  rw [sameHeader]
  exact own.header h₀ header₀

omit [Ring F] [RawElem F] [RawElem (BitVec K)] in
/-- A step that leaves the seeds alone and adds no metadata. -/
theorem SameOrigin.congr (own : SameOrigin o dir s d) (same : s'.origin = s.origin)
    (headers : ∀ h, d' (metaFile K dir) = some (.header h) →
      d (metaFile K dir) = some (.header h)) : SameOrigin o dir s' d' :=
  ⟨same.trans own.source, fun h header => own.header h (headers h header)⟩

omit [Ring F] [RawElem F] [RawElem (BitVec K)] in
theorem SameOrigin.clear {dir' : String} (own : SameOrigin o dir s d)
    (cleared : (s', d') = s.clearPrecacheFiles d dir') : SameOrigin o dir s' d' := by
  obtain ⟨⟨a, mode, g, same⟩, frame⟩ := clearPrecacheFiles_frame s d dir'
  rw [← cleared] at same frame
  have source : s'.origin = s.origin := by
    rw [show s' = _ from same]
    rfl
  exact own.congr source fun h header => (frame _ ⟨K, rfl⟩).symm.trans header

omit [Ring F] [RawElem (BitVec K)] in
theorem SameOrigin.extend {deficit : Nat} {alpha2Ext : List F} (own : SameOrigin o dir s d)
    (h : s.applyExtension d deficit alpha2Ext = .ok (s', d')) : SameOrigin o dir s' d' := by
  unfold applyExtension at h
  split at h
  · cases h
    exact own
  obtain ⟨⟨store, d₁⟩, extended, h⟩ := bind_ok.mp h
  have grown :
      SameOrigin o dir { s with alphasFlatStore := store, total := s.total + deficit } d₁ := by
    refine own.congr rfl fun h header => ?_
    rcases extendStore_frame extended (metaFile K dir) with same | ⟨-, b, after⟩
    · exact same.symm.trans header
    · simp [after] at header
  dsimp only at h
  split at h
  · have cleared := Except.ok.inj h
    unfold clearPrecacheFilesIfPresent at cleared
    split at cleared
    · exact grown.clear cleared.symm
    · cases cleared
      unfold clearPrecacheRuntime
      split <;> exact ⟨grown.source, grown.header⟩
  · cases h
    exact grown

end Invariant

namespace PrecacheSys

variable {F : Type} [Ring F] [RawElem F] {K : Nat} [RawElem (BitVec K)]
variable {c : ChaCha} {dir : String} {s s' : PrecacheSys F K}

/-- No operation changes the seeds, in memory or in the directory. -/
theorem step_sameOrigin {o : LazyEdaBits F K} {op : PrecacheOp F} (orderly : s.Orderly dir op)
    (own : SameOrigin o dir s.src s.disk) (h : s.step c op = .ok s') :
    SameOrigin o dir s'.src s'.disk := by
  cases op with
  | prepare dir' requested =>
    obtain ⟨⟨src, disk⟩, prepared, last⟩ := bind_ok.mp h
    cases last
    cases orderly
    rcases preparePrecache_spec prepared with cleared | ⟨rfl, rfl⟩ | ⟨-, -, ⟨g, rfl, -⟩,
      -, -, frame⟩
    · exact own.clear cleared
    · exact own
    · obtain ⟨notAlpha, notGamma, notMeta⟩ := paths_ne K dir
      exact own.congr rfl fun h header => (frame _ notAlpha notGamma notMeta).symm.trans header
  | take os n =>
    obtain ⟨⟨b, src, ws⟩, took, last⟩ := bind_ok.mp h
    cases last
    obtain ⟨-, rfl, -⟩ := takeBatch_spec took
    exact own.applyAll ws rfl
  | reserve n =>
    obtain ⟨r, -, last⟩ := bind_ok.mp h
    cases last
    exact own
  | finalize os i =>
    simp only [step] at h
    split at h
    · cases h
    · cases h
      exact own.applyAll _ rfl
  | extend deficit alpha2Ext =>
    obtain ⟨⟨src, disk⟩, extended, last⟩ := bind_ok.mp h
    cases last
    exact own.extend extended
  | save dir' =>
    obtain ⟨⟨src, disk⟩, saved, last⟩ := bind_ok.mp h
    cases last
    cases orderly
    obtain ⟨rfl, header, -⟩ := save_ok saved
    refine ⟨own.source, fun h found => ?_⟩
    cases header.symm.trans found
    rw [← own.source]
    simp [LazyEdaBits.origin, show o.partyId = s.src.partyId from
      congrArg (·.2.2.2.2.2) own.source.symm]
  | load dir' dropRuns =>
    obtain ⟨⟨src, disk⟩, loaded, last⟩ := bind_ok.mp h
    cases last
    cases orderly
    have dropped :
        SameOrigin o dir s.src (if dropRuns then s.disk.applyAll s.src.drop else s.disk) := by
      split
      · exact own.applyAll _ rfl
      · exact own
    obtain ⟨m, header, loaded⟩ := bind_ok.mp loaded
    obtain ⟨_, -, loaded⟩ := bind_ok.mp loaded
    obtain ⟨⟨store, mode⟩, -, loaded⟩ := bind_ok.mp loaded
    obtain ⟨⟨a, mode', g, rfl⟩, frame⟩ := loadPrecache_frame loaded
    have party : s.src.partyId = o.partyId := congrArg (·.2.2.2.2.2) own.source
    have seeds := dropped.header m (readMeta_ok.mp header)
    refine ⟨?_, fun h found => dropped.header h ((frame _ ⟨K, rfl⟩).symm.trans found)⟩
    rw [← seeds, ← party]
    rfl

/-- Every orderly operation keeps the window right. -/
theorem step_cacheInv {op : PrecacheOp F} (wide : 0 < K) (orderly : s.Orderly dir op)
    (inv : CacheInv c dir s.src s.disk) (h : s.step c op = .ok s') :
    CacheInv c dir s'.src s'.disk := by
  cases op with
  | prepare dir' requested =>
    obtain ⟨⟨src, disk⟩, prepared, last⟩ := bind_ok.mp h
    cases last
    cases orderly
    exact inv.prepare prepared
  | take os n =>
    obtain ⟨⟨b, src, ws⟩, took, last⟩ := bind_ok.mp h
    cases last
    exact inv.take took
  | reserve n =>
    obtain ⟨r, -, last⟩ := bind_ok.mp h
    cases last
    exact inv
  | finalize os i =>
    simp only [step] at h
    split at h
    · cases h
    · rename_i range found
      cases h
      obtain ⟨r, reserved, rfl⟩ := orderly range found
      exact inv.finalize reserved rfl
  | extend deficit alpha2Ext =>
    obtain ⟨⟨src, disk⟩, extended, last⟩ := bind_ok.mp h
    cases last
    exact inv.extend extended
  | save dir' =>
    obtain ⟨⟨src, disk⟩, saved, last⟩ := bind_ok.mp h
    cases last
    cases orderly
    exact inv.save saved
  | load dir' dropRuns =>
    obtain ⟨⟨src, disk⟩, loaded, last⟩ := bind_ok.mp h
    cases last
    cases orderly
    have dropped :
        CacheInv c dir s.src (if dropRuns then s.disk.applyAll s.src.drop else s.disk) := by
      split
      · exact @CacheInv.advance F _ _ K _ c dir s.src s.disk 0 inv (fun _ => .punchHole) []
          (fun _ member => absurd member not_mem_nil)
          (fun _ _ => rfl) fun _ _ _ member => absurd member not_mem_nil
      · exact inv
    exact dropped.load wide loaded

structure Fresh (dir : String) (s : PrecacheSys F K) : Prop where
  noWindow : ∀ start len, s.src.storageMode ≠ .p01Precache start len
  unused : s.src.partyId ≠ .ID2 → s.src.storageMode = .none
  noFiles : ∀ m, s.disk (precacheMetaPath K dir) ≠ some (.precacheMeta m)
  recorded : CursorRecorded dir s.src s.disk
  own : SameOrigin s.src dir s.src s.disk

theorem Fresh.cacheInv (c : ChaCha) (fresh : s.Fresh dir) : CacheInv c dir s.src s.disk :=
  ⟨fun _ => fresh.noWindow, fun notP2 => Or.inl (fresh.unused notP2),
    fun _ m found => absurd found (fresh.noFiles m), fresh.recorded⟩

/-- At P2 `prepare_precache` does nothing. -/
theorem step_prepare_of_P2 {requested : Nat} (isP2 : s.src.partyId = .ID2)
    (h : s.step c (.prepare dir requested) = .ok s') : s' = s := by
  obtain ⟨⟨src, disk⟩, prepared, last⟩ := bind_ok.mp h
  cases last
  rw [preparePrecache, if_pos (Or.inl isP2), clearPrecacheFiles, if_pos isP2] at prepared
  cases prepared
  rfl

/-- At P2 a run and the run without its `prepare_precache` calls reach the same state. -/
theorem run_without_prepare {o : LazyEdaBits F K} (isP2 : o.partyId = .ID2)
    {ops : List (PrecacheOp F)} (own : SameOrigin o dir s.src s.disk)
    (orderly : AllSteps (step c) (Orderly dir) s ops) (h : Run.run (step c) s ops = .ok s') :
    Run.run (step c) s (ops.filter fun op => !op.isPrepare) = .ok s' := by
  induction ops generalizing s with
  | nil => exact h
  | cons op ops ih =>
    obtain ⟨next, first, rest⟩ := run_cons h
    have after := ih (step_sameOrigin orderly.1 own first) (orderly.2 next first) rest
    have party : s.src.partyId = .ID2 := (congrArg (·.2.2.2.2.2) own.source).trans isP2
    cases op with
    | prepare dir' requested =>
      obtain rfl := step_prepare_of_P2 party first
      exact after
    | take | reserve | finalize | extend | save | load =>
      simp only [filter_cons, PrecacheOp.isPrepare, Bool.not_false, if_true, Run.run, first]
      exact after

/-- An orderly run from a fresh state keeps the windows right and the seeds those of the start. -/
theorem run_cacheInv (wide : 0 < K) {s₀ : PrecacheSys F K} {ops : List (PrecacheOp F)}
    (fresh : s₀.Fresh dir) (orderly : AllSteps (step c) (Orderly dir) s₀ ops)
    (h : Run.run (step c) s₀ ops = .ok s) :
    CacheInv c dir s.src s.disk ∧ SameOrigin s₀.src dir s.src s.disk := by
  have keeps : ∀ (s : PrecacheSys F K) op s', s.Orderly dir op →
      CacheInv c dir s.src s.disk ∧ SameOrigin s₀.src dir s.src s.disk → s.step c op = .ok s' →
      CacheInv c dir s'.src s'.disk ∧ SameOrigin s₀.src dir s'.src s'.disk :=
    fun s op s' good before stepped =>
      ⟨step_cacheInv wide good before.1 stepped, step_sameOrigin good before.2 stepped⟩
  exact run_invariant keeps orderly ⟨fresh.cacheInv c, fresh.own⟩ h

/-- In every orderly run from a fresh state, every batch taken and every part of a reserved range
that is filled is the one handed out without a precache. -/
theorem precache_invisible {c : ChaCha} {dir : String} (wide : 0 < K) {s₀ s : PrecacheSys F K}
    {ops : List (PrecacheOp F)} (fresh : s₀.Fresh dir)
    (orderly : AllSteps (step c) (Orderly dir) s₀ ops) (h : Run.run (step c) s₀ ops = .ok s) :
    (s₀.src.partyId = .ID2 → Run.run (step c) s₀ (ops.filter fun op => !op.isPrepare) = .ok s) ∧
      (∀ os n b src ws, s.src.takeBatch c os s.disk n = .ok (b, src, ws) →
        s₀.src.HandsOutPlain c s.src s.disk s.src.cursor n b) ∧
      ∀ n r, s.src.reserveRange n = .ok r → ∀ start len b,
        (r.rangeView start len).fillInto c s.disk = .ok b →
        s₀.src.HandsOutPlain c s.src s.disk (s.src.cursor + start) len b := by
  obtain ⟨inv, own⟩ := run_cacheInv wide fresh orderly h
  refine ⟨fun isP2 => run_without_prepare isP2 fresh.own orderly h, fun os n b src ws took => ?_,
    fun n r reserved start len b filled => ?_⟩
  · by_cases isP2 : s.src.partyId = .ID2
    · exact takeBatch_plain_of_P2 isP2 took
    · rw [HandsOutPlain, if_neg isP2, ← regenerated_congr own.source]
      refine takeBatch_regenerated isP2 (fun b ws served => ?_) took
      rcases inv.runtime isP2 with mode | ⟨m, window⟩
      · exact fillPrecacheInto_of_none c mode served
      · exact window.fillPrecacheInto_eq isP2 served
  · by_cases isP2 : s.src.partyId = .ID2
    · exact fillInto_plain_of_P2 isP2 (inv.noWindow isP2) reserved filled
    · rw [HandsOutPlain, if_neg isP2, ← regenerated_congr own.source]
      rcases inv.runtime isP2 with mode | ⟨m, window⟩
      · exact fillInto_regenerated_of_none isP2 mode reserved filled
      · exact window.fillInto_eq isP2 reserved filled

/-- A keystream that counts, so that no regenerated item is zero. -/
def countingRng : ChaCha := ⟨fun _ pos => UInt32.ofNat (pos + 1)⟩

/-- P1 with four items of eight bits, not saved yet. -/
def fourItems : PrecacheSys (ZMod 251) 8 :=
  ⟨⟨[], 0, [], 0, 4, 16, 0, .empty, .none, .empty, .ID1, none⟩, fun _ => none, []⟩

theorem fourItems_fresh (dir : String) : fourItems.Fresh dir := by
  refine ⟨fun _ _ => by
    simp [fourItems], fun _ => rfl, fun _ => ?_, Or.inl ⟨rfl, fun _ => ?_⟩,
    ⟨rfl, fun _ found => ?_⟩⟩
  · simp [fourItems]
  · simp [fourItems]
  · cases found

/-- The state after a run from `fourItems`, and the batch a take of `n` items then hands out. -/
def runThenTake (ops : List (PrecacheOp (ZMod 251))) (n : Nat) :
    Except IoError (PrecacheSys (ZMod 251) 8 × EdaBitsBatch (ZMod 251) 8) := do
  let s ← Run.run (step countingRng) fourItems ops
  let (b, _) ← s.src.takeBatch countingRng (fun _ => .punchHole) s.disk n
  return (s, b)

/-- A take that straddles the end of a window that was saved and loaded again. -/
theorem precache_invisible_straddling : ∃ s b,
    runThenTake [.save "pool", .prepare "pool" 2, .load "pool" true,
      .take (fun _ => .punchHole) 1] 2 = .ok (s, b) ∧
      s.src.storageMode = .p01Precache 0 2 ∧ s.src.cursor = 1 ∧
      fourItems.src.HandsOutPlain countingRng s.src s.disk s.src.cursor 2 b := by
  have result :
    (runThenTake [.save "pool", .prepare "pool" 2, .load "pool" true, .take (fun _ => .punchHole) 1]
      2).toOption.map (fun r => (r.1.src.storageMode, r.1.src.cursor)) =
        some (.p01Precache 0 2, 1) := by
    decide +kernel
  cases done : runThenTake [.save "pool", .prepare "pool" 2, .load "pool" true,
    .take (fun _ => .punchHole) 1] 2 with
  | error e =>
    rw [done] at result
    cases result
  | ok r =>
    rw [done] at result
    obtain ⟨s, ran, rest⟩ := bind_ok.mp done
    obtain ⟨⟨b, src, ws⟩, took, last⟩ := bind_ok.mp rest
    cases last
    obtain ⟨mode, cursor⟩ := Prod.mk.inj (Option.some.inj result)
    have orderly : AllSteps (step countingRng) (Orderly "pool") fourItems
        [.save "pool", .prepare "pool" 2, .load "pool" true, .take (fun _ => .punchHole) 1] :=
      ⟨rfl, fun _ _ => ⟨rfl, fun _ _ => ⟨rfl, fun _ _ => ⟨trivial, fun _ _ => trivial⟩⟩⟩⟩
    exact ⟨s, b, rfl, mode, cursor,
      (precache_invisible (by decide) (fourItems_fresh "pool") orderly ran).2.1 _ _ _ _ _ took⟩

/-- Two runs that are not orderly, each with a take that hands out zero: saved to two directories, a
source moves its cursor in one and reclaims the window of the other, which a load takes up; and a
reservation finalised after the window was rebuilt reclaims an item further on. -/
theorem precache_hands_out_zeros :
    (runThenTake [.save "a", .prepare "a" 2, .save "b", .take (fun _ => .punchHole) 1,
      .load "a" true]
      1).toOption.map (fun r => (r.1.src.cursor, r.2.alphasFlat)) =
        some (0, [0, 0, 0, 0, 0, 0, 0, 0]) ∧
    (runThenTake [.prepare "a" 4, .take (fun _ => .punchHole) 1, .reserve 1, .prepare "a" 3,
      .finalize (fun _ => .punchHole) 0] 1).toOption.map
        (fun r => (r.1.src.cursor, r.2.alphasFlat)) =
        some (2, [0, 0, 0, 0, 0, 0, 0, 0]) ∧
    (fourItems.src.regenerated countingRng 0 1).alphasFlat = [45, 4, 214, 173, 132, 91, 50, 9] ∧
    (fourItems.src.regenerated countingRng 2 1).alphasFlat =
      [86, 245, 153, 61, 220, 128, 36, 195] := by
  decide +kernel

end PrecacheSys

end ProviaVM.Preprocessing
