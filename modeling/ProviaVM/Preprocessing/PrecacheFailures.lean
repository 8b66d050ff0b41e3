import ProviaVM.Preprocessing.RangeViews

/-! # Stopping inside `prepare_precache`

`edabits.rs`, `prepare_precache` as the sequence of writes it makes. It stops after any
number of them, when one fails or the process dies. The source in memory is the one before
the call until the last write is made, and its stores read through open handles: a file that
is truncated under them is seen truncated, one whose name is removed is still read. A later
`load` goes by the names.

The window is rebuilt in place. A source that is serving from its window loses it with the
first write; and when the header on disk is one that a load accepts and the new window is at
least as long, a load takes up the file that was only sized so far. -/
namespace ProviaVM.Preprocessing
open ByteFile RawElem LazyEdaBits EdaBitsBatch BackingStore Run List Disk

/-- One write of `prepare_precache`. The header is written field by field; until the last of
them it reads as broken, which `truncate` on its path stands for. -/
inductive PrecacheWrite where
  | truncate (path : Path)
  | setLen (path : Path) (bytes : Nat)
  | write (path : Path) (off : Nat) (bytes : List UInt8)
  | remove (path : Path)
  | header (path : Path) (m : EdaBitsPrecacheMeta)

namespace PrecacheWrite

def onData (d : Disk) (path : Path) (f : List UInt8 → List UInt8) : Disk :=
  match d path with
  | some (.data b) => d.set path (.data (f b))
  | _ => d

def onNames (d : Disk) : PrecacheWrite → Disk
  | .truncate path => d.set path (.data [])
  | .setLen path bytes => onData d path (ByteFile.setLen bytes)
  | .write path off bytes => onData d path (ByteFile.writeAt off bytes)
  | .remove path => d.remove path
  | .header path m => d.set path (.precacheMeta m)

/-- The effect on the files as handles opened before see them. -/
def onHandles (d : Disk) : PrecacheWrite → Disk
  | .remove _ => d
  | w => onNames d w

end PrecacheWrite

section Log

variable {F : Type} [Ring F] [RawElem F] {K : Nat} [RawElem (BitVec K)]

/-- `create_file_backed_sized`: truncate, then reserve the capacity. -/
def createLog (α : Type) [RawElem α] (path : Path) (capacity : Nat) : List PrecacheWrite :=
  [.truncate path, .setLen path (capacity * size α)]

namespace LazyEdaBits

/-- The writes that make the two data files before the loop. -/
def filesLog (s : LazyEdaBits F K) (dir : String) (requested : Nat) : List PrecacheWrite :=
  createLog F (precacheAlphaPath K dir) (requested * K) ++
    if s.partyId = .ID0 then createLog (BitVec K) (precacheGammaPath K dir) requested
    else [.remove (precacheGammaPath K dir)]

def chunkLog (s : LazyEdaBits F K) (c : ChaCha) (dir : String) (requested off : Nat) :
    List PrecacheWrite :=
  let batch :=
    s.regenerated c (s.cursor + off) (min (requested - off) (precacheChunkLen F K requested))
  .write (precacheAlphaPath K dir) (off * K * size F) (bytesOf batch.alphasFlat) ::
    if s.partyId = .ID0 then
      [.write (precacheGammaPath K dir) (off * size (BitVec K)) (bytesOf batch.gammas)]
    else []

/-- The writes that replace the data files, in order. -/
def dataLog (s : LazyEdaBits F K) (c : ChaCha) (dir : String) (requested : Nat) :
    List PrecacheWrite :=
  s.filesLog dir requested ++
    (stepBy requested (precacheChunkLen F K requested)).flatMap (s.chunkLog c dir requested)

def headerLog (s : LazyEdaBits F K) (dir : String) (requested : Nat) : List PrecacheWrite :=
  [.truncate (precacheMetaPath K dir),
    .header (precacheMetaPath K dir) (s.currentPrecacheMeta s.cursor requested)]

/-- A new window is written: the request is neither empty nor too large, and not met yet. -/
def Rebuilds (s : LazyEdaBits F K) (requested : Nat) : Prop :=
  s.partyId ≠ .ID2 ∧ 0 < requested ∧ requested ≤ s.remaining ∧
    s.hasMatchingPrecache requested = false

instance (s : LazyEdaBits F K) (requested : Nat) : Decidable (s.Rebuilds requested) :=
  inferInstanceAs (Decidable (_ ∧ _ ∧ _ ∧ _))

def prepareLog (s : LazyEdaBits F K) (c : ChaCha) (dir : String) (requested : Nat) :
    List PrecacheWrite :=
  if s.Rebuilds requested then s.dataLog c dir requested ++ s.headerLog dir requested
  else if s.partyId ≠ .ID2 ∧ (requested = 0 ∨ s.remaining = 0) then
    [.remove (precacheAlphaPath K dir), .remove (precacheGammaPath K dir),
      .remove (precacheMetaPath K dir)]
  else []

end LazyEdaBits

end Log

/-! ## The log is what `prepare_precache` does -/

section Complete

variable {F : Type} [Ring F] [RawElem F] {K : Nat} [RawElem (BitVec K)]
variable {d d₀ : Disk} {n off requested : Nat} {s : LazyEdaBits F K} {c : ChaCha} {dir : String}

open PrecacheWrite

def named (d : Disk) (log : List PrecacheWrite) : Disk := applyAll onNames d log

/-- Replay writes as handles opened before see them. -/
def held (d : Disk) (log : List PrecacheWrite) : Disk := applyAll onHandles d log

theorem named_append (d : Disk) (xs ys : List PrecacheWrite) :
    named d (xs ++ ys) = named (named d xs) ys :=
  applyAll_append _ _ _ _

theorem onData_data {path : Path} {b : List UInt8} (f : List UInt8 → List UInt8)
    (found : d path = some (.data b)) :
    onData d path f = d.set path (.data (f b)) := by
  simp only [onData, found]

theorem set_set (d : Disk) (path : Path) (x y : Content) :
    (d.set path x).set path y = d.set path y := by
  simp [Disk.set]

theorem named_createLog (α : Type) [RawElem α] (d : Disk) (path : Path) (capacity : Nat) :
    named d (createLog α path capacity) = (createFileBackedSized α d path capacity).2 := by
  have made : (d.set path (.data [])) path = some (.data []) := set_same _ _ _
  simp [named, createLog, onNames, Run.applyAll, onData_data _ made, set_set, createFileBackedSized]

/-- A write through a writer is the logged write. -/
theorem writeAt_logged {α : Type} [RawElem α] {w : FileBackedWriter} {start : Nat} {xs : List α}
    (some_ : xs ≠ []) (fits : start + xs.length ≤ w.len) (room : FileHas α d w.path w.len) :
    w.writeAt d start xs = .ok (onNames d (.write w.path (start * size α) (bytesOf xs))) := by
  obtain ⟨b, found, -⟩ := room
  have notEmpty : xs.isEmpty = false := by simpa using some_
  simp only [FileBackedWriter.writeAt, notEmpty, Bool.false_eq_true, if_false,
    if_neg (Nat.not_lt.mpr fits), found, onNames, onData_data _ found]

theorem stepBy_lt {step : Nat} (positive : 0 < step) (member : off ∈ stepBy n step) : off < n := by
  obtain ⟨i, inside, rfl⟩ := mem_map.mp member
  have below := mem_range.mp inside
  rw [Nat.lt_div_iff_mul_lt positive] at below
  omega

/-- The data files while they are filled: they have their size, every element is blank still or
the regenerated one, and no other file has changed. -/
structure PartFilled (s : LazyEdaBits F K) (c : ChaCha) (dir : String) (requested : Nat)
    (d₀ d : Disk) : Prop where
  alphaFile : FileHas F d (precacheAlphaPath K dir) (requested * K)
  gammaFile : s.partyId = .ID0 → FileHas (BitVec K) d (precacheGammaPath K dir) requested
  frame : ∀ q, q ≠ precacheAlphaPath K dir → q ≠ precacheGammaPath K dir → d q = d₀ q
  alphas : ∀ e < requested * K, fileElem F d (precacheAlphaPath K dir) e = some (blank F) ∨
    fileElem F d (precacheAlphaPath K dir) e = some (s.alphaBehind c e)
  gammas : s.partyId = .ID0 → ∀ i < requested,
    fileElem (BitVec K) d (precacheGammaPath K dir) i = some (blank (BitVec K)) ∨
      fileElem (BitVec K) d (precacheGammaPath K dir) i = some (s.gammaBehind c i)

/-- A logged write of consecutive values of `f`, at the place where they belong. -/
theorem write_values {α : Type} [RawElem α] {path : Path} {start k : Nat} (f : Nat → α)
    (some_ : 0 < k) (fits : start + k ≤ n) (room : FileHas α d path n) :
    ∃ d',
      d' =
      onNames d (.write path (start * size α)
      (bytesOf ((List.range k).map fun i => f (start + i)))) ∧
      FileBackedWriter.writeAt ⟨path, n⟩ d start ((List.range k).map fun i => f (start + i)) =
        .ok d' ∧
      FileHas α d' path n ∧ (∀ q, q ≠ path → d' q = d q) ∧
      ∀ e, fileElem α d' path e = some (f e) ∨ fileElem α d' path e = fileElem α d path e := by
  have notNil : ((List.range k).map fun i => f (start + i)) ≠ [] := by
    simp only [ne_eq, map_eq_nil_iff, range_eq_nil]
    omega
  have length : start + ((List.range k).map fun i => f (start + i)).length ≤ n := by
    simpa using fits
  have logged := writeAt_logged (w := ⟨path, n⟩) notNil length room
  obtain ⟨room', frame, new, old⟩ := writeAt_values logged room
  refine ⟨_, rfl, logged, room', frame, fun e => ?_⟩
  by_cases inside : start ≤ e ∧ e < start + k
  · exact Or.inl (new e inside.1 inside.2)
  · exact Or.inr (old e inside)

/-- A chunk of alphas is written over blank elements, so an interruption after it leaves the file
part filled. -/
theorem PartFilled.alphaWrite (part : PartFilled s c dir requested d₀ d) (wide : 0 < K)
    (some_ : 0 < n) (within : off + n ≤ requested) :
    ∃ d', d' = onNames d (.write (precacheAlphaPath K dir) (off * K * size F)
        (bytesOf (s.regenerated c (s.cursor + off) n).alphasFlat)) ∧
      FileBackedWriter.writeAt ⟨precacheAlphaPath K dir, requested * K⟩ d (off * K)
        (s.regenerated c (s.cursor + off) n).alphasFlat = .ok d' ∧
          PartFilled s c dir requested d₀ d' := by
  have flat : off * K + n * K ≤ requested * K := by
    rw [← Nat.add_mul]
    exact Nat.mul_le_mul_right K within
  obtain ⟨d', rfl, written, room, frame, values⟩ :=
    write_values (s.alphaBehind c) (Nat.mul_pos some_ wide) flat part.alphaFile
  rw [regenerated_alphas]
  have gammaSame := frame _ (gammaPath_ne_alphaPath K dir)
  refine ⟨_, rfl, written, room, fun isP0 => ?_, fun q notAlpha notGamma => ?_, fun e inside => ?_,
    fun isP0 i inside => ?_⟩
  · exact (part.gammaFile isP0).congr gammaSame
  · exact (frame q notAlpha).trans (part.frame q notAlpha notGamma)
  · rcases values e with new | old
    · exact Or.inr new
    · rw [old]
      exact part.alphas e inside
  · rw [fileElem_congr gammaSame]
    exact part.gammas isP0 i inside

/-- The same for the masks of P0. -/
theorem PartFilled.gammaWrite (part : PartFilled s c dir requested d₀ d) (isP0 : s.partyId = .ID0)
    (some_ : 0 < n) (within : off + n ≤ requested) :
    ∃ d', d' = onNames d (.write (precacheGammaPath K dir) (off * size (BitVec K))
        (bytesOf (s.regenerated c (s.cursor + off) n).gammas)) ∧
      FileBackedWriter.writeAt ⟨precacheGammaPath K dir, requested⟩ d off
        (s.regenerated c (s.cursor + off) n).gammas = .ok d' ∧
          PartFilled s c dir requested d₀ d' := by
  obtain ⟨d', rfl, written, room, frame, values⟩ :=
    write_values (s.gammaBehind c) some_ within (part.gammaFile isP0)
  rw [regenerated_gammas]
  have alphaSame := frame _ (gammaPath_ne_alphaPath K dir).symm
  refine ⟨_, rfl, written, part.alphaFile.congr alphaSame, fun _ => room,
    fun q notAlpha notGamma => ?_, fun e inside => ?_, fun _ i inside => ?_⟩
  · exact (frame q notGamma).trans (part.frame q notAlpha notGamma)
  · rw [fileElem_congr alphaSame]
    exact part.alphas e inside
  · rcases values i with new | old
    · exact Or.inr new
    · rw [old]
      exact part.gammas isP0 i inside

omit [Ring F] [RawElem (BitVec K)] in
/-- The number of items of the chunk at `off`. -/
theorem chunk_bounds (inside : off < requested) :
    0 < min (requested - off) (precacheChunkLen F K requested) ∧
      off + min (requested - off) (precacheChunkLen F K requested) ≤ requested := by
  have step := @precacheChunkLen_pos F _ K requested (by omega)
  omega

/-- Every write of a chunk keeps the files part filled. -/
theorem PartFilled.chunkWrite (part : PartFilled s c dir requested d₀ d) (wide : 0 < K)
    (inside : off < requested) {w : PrecacheWrite} (member : w ∈ s.chunkLog c dir requested off) :
    PartFilled s c dir requested d₀ (onNames d w) := by
  obtain ⟨some_, within⟩ := chunk_bounds (F := F) inside
  unfold chunkLog at member
  rcases mem_cons.mp member with rfl | member
  · obtain ⟨_, rfl, -, after⟩ := part.alphaWrite wide some_ within
    exact after
  · by_cases isP0 : s.partyId = .ID0
    · rw [if_pos isP0, mem_singleton] at member
      obtain ⟨_, rfl, -, after⟩ := part.gammaWrite isP0 some_ within
      rw [member]
      exact after
    · rw [if_neg isP0] at member
      cases member

/-- One iteration of the loop makes the logged writes. -/
theorem PartFilled.precacheChunk (part : PartFilled s c dir requested d₀ d) (wide : 0 < K)
    (spaced : 16 ≤ s.fieldBytes) (inside : off < requested) :
    s.precacheChunk c ⟨precacheAlphaPath K dir, requested * K⟩
        (if s.partyId = .ID0 then some ⟨precacheGammaPath K dir, requested⟩ else none) requested
        (precacheChunkLen F K requested) d off = .ok (named d (s.chunkLog c dir requested off)) ∧
      PartFilled s c dir requested d₀ (named d (s.chunkLog c dir requested off)) := by
  obtain ⟨some_, within⟩ := chunk_bounds (F := F) inside
  unfold LazyEdaBits.precacheChunk chunkLog
  generalize min (requested - off) (precacheChunkLen F K requested) = n at some_ within
  have generated : s.generateInto c (s.cursor + off) n = .ok (s.regenerated c (s.cursor + off) n) :=
    generateIntoFromState_of_spaced c s.partyId spaced _ _
  obtain ⟨d₁, made₁, written₁, part₁⟩ := part.alphaWrite wide some_ within
  by_cases isP0 : s.partyId = .ID0
  · obtain ⟨d₂, made₂, written₂, part₂⟩ := part₁.gammaWrite isP0 some_ within
    have replay : named d [.write (precacheAlphaPath K dir) (off * K * size F)
          (bytesOf (s.regenerated c (s.cursor + off) n).alphasFlat),
        .write (precacheGammaPath K dir) (off * size (BitVec K))
          (bytesOf (s.regenerated c (s.cursor + off) n).gammas)] =
          d₂ := by
      rw [made₂, made₁]
      rfl
    simp only [if_pos isP0]
    rw [replay]
    exact ⟨bind_ok.mpr ⟨_, generated, bind_ok.mpr ⟨d₁, written₁, written₂⟩⟩, part₂⟩
  · simp only [if_neg isP0]
    have replay : named d [.write (precacheAlphaPath K dir) (off * K * size F)
        (bytesOf (s.regenerated c (s.cursor + off) n).alphasFlat)] = d₁ := by
      rw [made₁]
      rfl
    rw [replay]
    exact ⟨bind_ok.mpr ⟨_, generated, bind_ok.mpr ⟨d₁, written₁, rfl⟩⟩, part₁⟩

theorem PartFilled.loop (wide : 0 < K) (spaced : 16 ≤ s.fieldBytes) {offs : List Nat}
    (inside : ∀ off ∈ offs, off < requested) (part : PartFilled s c dir requested d₀ d) :
    offs.foldlM (s.precacheChunk c ⟨precacheAlphaPath K dir, requested * K⟩
        (if s.partyId = .ID0 then some ⟨precacheGammaPath K dir, requested⟩ else none) requested
        (precacheChunkLen F K requested)) d =
          .ok (named d (offs.flatMap (s.chunkLog c dir requested))) := by
  induction offs generalizing d with
  | nil => rfl
  | cons off offs ih =>
    obtain ⟨chunk, part'⟩ := part.precacheChunk wide spaced (inside off mem_cons_self)
    rw [flatMap_cons, named_append]
    exact bind_ok.mpr ⟨_, chunk, ih (fun o member => inside o (mem_cons_of_mem _ member)) part'⟩

omit [Ring F] in
/-- The files after the writes before the loop. -/
theorem named_filesLog (s : LazyEdaBits F K) (d : Disk) (dir : String) (requested : Nat) :
    named d (s.filesLog dir requested) = s.precacheFiles d dir requested := by
  unfold filesLog precacheFiles
  rw [named_append, named_createLog]
  split
  · rw [named_createLog]
  · rfl

theorem partFilled_filesLog (s : LazyEdaBits F K) (c : ChaCha) (d : Disk) (dir : String)
    (requested : Nat) :
    PartFilled s c dir requested d (named d (s.filesLog dir requested)) := by
  obtain ⟨alphaFile, gammaFile, frame⟩ := precacheFiles_spec s d dir requested
  rw [named_filesLog]
  exact ⟨⟨_, alphaFile, length_setLen _ _⟩, fun isP0 => ⟨_, gammaFile isP0, length_setLen _ _⟩,
    frame, fun e inside => Or.inl (fileElem_sized inside alphaFile),
    fun isP0 i inside => Or.inl (fileElem_sized inside (gammaFile isP0))⟩

/-- A rebuild that is not stopped leaves the files that the log gives. -/
theorem preparePrecache_rebuild (dir : String) (wide : 0 < K) (spaced : 16 ≤ s.fieldBytes)
    (rebuilds : s.Rebuilds requested) (c : ChaCha) (d : Disk) :
    ∃ s', s.preparePrecache c d dir requested =
      .ok (s', named d (s.dataLog c dir requested ++ s.headerLog dir requested)) := by
  obtain ⟨notP2, positive, available, unmatched⟩ := rebuilds
  have wanted : ¬ (s.partyId = .ID2 ∨ requested = 0 ∨ s.remaining = 0) := by
    rintro (isP2 | zero | none_)
    · exact notP2 isP2
    · omega
    · omega
  have start := partFilled_filesLog s c d dir requested
  have loop := start.loop wide spaced fun off member =>
    stepBy_lt (precacheChunkLen_pos (F := F) (K := K) positive) member
  have header : ∀ d₁, named d₁ (s.headerLog dir requested) =
      d₁.set (precacheMetaPath K dir) (.precacheMeta (s.currentPrecacheMeta s.cursor requested)) :=
        fun d₁ =>
    set_set d₁ _ _ _
  rw [preparePrecache_eq wanted (Nat.not_lt.mpr available) (by simp [unmatched]), dataLog,
    named_append, named_append, header]
  rw [named_filesLog] at loop ⊢
  exact ⟨_, bind_ok.mpr ⟨_, loop, rfl⟩⟩

end Complete

/-! ## What is handed out -/

section HandsOut

variable {F : Type} [Ring F] [RawElem F] {K : Nat} [RawElem (BitVec K)]
variable {s : LazyEdaBits F K} {c : ChaCha} {d : Disk} {n : Nat}

/-- The source `s` hands out, from the cursor of `o` on, what the seeds of `o` give. -/
structure HandsOut (o : LazyEdaBits F K) (c : ChaCha) (s : LazyEdaBits F K) (d : Disk) : Prop where
  cursor : s.cursor = o.cursor
  take : ∀ os n, s.cursor + n ≤ s.total →
    ∃ s' ws, s.takeBatch c os d n = .ok (o.regenerated c s.cursor n, s', ws)

def LazyEdaBits.InWindow (s : LazyEdaBits F K) : Prop :=
  match s.storageMode with
  | .p01Precache first len => first ≤ s.cursor ∧ s.cursor < first + len
  | _ => False

theorem takeBatch_zero {os : Os} (available : s.cursor + 0 ≤ s.total) :
    s.takeBatch c os d 0 = .ok (s.regenerated c s.cursor 0, s, []) := by
  have nothing : s.regenerated c s.cursor 0 = ⟨[], []⟩ := by simp [regenerated, itemsAt]
  rw [nothing, takeBatch, ensureAvailable, if_pos available]
  rfl

/-- A take succeeds when what the window serves is a beginning of the regenerated items. -/
theorem takeBatch_of_served {os : Os} {k : Nat} {ws : List Write} (notP2 : s.partyId ≠ .ID2)
    (spaced : 16 ≤ s.fieldBytes) (available : s.cursor + n ≤ s.total) (le : k ≤ n)
    (served : s.fillPrecacheInto os d s.cursor n = .ok (s.regenerated c s.cursor k, ws)) :
    ∃ s' ws', s.takeBatch c os d n = .ok (s.regenerated c s.cursor n, s', ws') := by
  rcases Nat.eq_zero_or_pos n with rfl | positive
  · exact ⟨s, [], takeBatch_zero available⟩
  unfold takeBatch ensureAvailable
  rw [if_pos available, if_neg (Nat.ne_of_gt positive), if_neg notP2]
  have length : (s.regenerated c s.cursor k).gammas.length = k := by simp [regenerated, itemsAt]
  have generated : s.generateInto c (s.cursor + (s.regenerated c s.cursor k).gammas.length)
      (n - (s.regenerated c s.cursor k).gammas.length) =
        .ok (s.regenerated c (s.cursor + k) (n - k)) := by
    rw [length]
    exact generateIntoFromState_of_spaced c s.partyId spaced _ _
  have joined : EdaBitsBatch.mk
      ((s.regenerated c s.cursor k).gammas ++ (s.regenerated c (s.cursor + k) (n - k)).gammas)
      ((s.regenerated c s.cursor k).alphasFlat ++
        (s.regenerated c (s.cursor + k) (n - k)).alphasFlat) =
        s.regenerated c s.cursor n := itemsAt_append le
  rw [← joined]
  exact ⟨_, _, bind_ok.mpr ⟨(), rfl, bind_ok.mpr ⟨_, served, bind_ok.mpr ⟨_, generated, rfl⟩⟩⟩⟩

/-- A source that is not in its window regenerates, whatever the files hold. -/
theorem fillPrecacheInto_outside (outside : ¬ s.InWindow) (c : ChaCha) (os : Os) (d : Disk)
    (n : Nat) :
    s.fillPrecacheInto os d s.cursor n = .ok (s.regenerated c s.cursor 0, []) := by
  have nothing : s.regenerated c s.cursor 0 = ⟨[], []⟩ := by simp [regenerated, itemsAt]
  rw [nothing]
  unfold fillPrecacheInto
  cases mode : s.storageMode with
  | none | p2Authoritative => rfl
  | p01Precache first len =>
    have away : s.cursor < first ∨ first + len ≤ s.cursor := by
      simp only [LazyEdaBits.InWindow, mode] at outside
      omega
    simp only [if_pos away]

theorem readFile_of_stored {α : Type} [RawElem α] {path : Path} {start : Nat} (some_ : 0 < n)
    (last : ∃ x : α, fileElem α d path (start + n - 1) = some x) :
    ∃ xs : List α, readFile d path start (start + n) = .ok xs := by
  obtain ⟨x, stored⟩ := last
  unfold fileElem at stored
  split at stored
  · rename_i b found
    split at stored
    · rename_i room
      have fits : start * size α + n * size α ≤ b.length := by
        rw [← Nat.add_mul]
        exact Nat.le_trans (Nat.mul_le_mul_right _ (by omega)) room
      refine ⟨elems b start (start + n - start), ?_⟩
      simp only [readFile, found, readExact, Nat.add_sub_cancel_left, if_neg (Nat.ne_of_gt some_),
        if_pos fits]
    · cases stored
  · cases stored

theorem readConsumeIntoSlice_of_path {α : Type} [RawElem α] {store : BackingStore α} {path : Path}
    {start : Nat} (own : storePath store = some path) :
    store.readConsumeIntoSlice d start (start + n) n = readFile d path start (start + n) := by
  cases store with
  | inMemory v => cases own
  | empty => cases own
  | fileBacked p len append =>
    cases own
    have sized : ¬ (n ≠ start + n - start) := by omega
    simp [readConsumeIntoSlice]

/-- A right window serves the items of a take that lie in it. -/
theorem RuntimeWindow.fillPrecacheInto_isOk {dir : String} {m : EdaBitsPrecacheMeta}
    (w : RuntimeWindow c dir s d m) (wide : 0 < K) (notP2 : s.partyId ≠ .ID2) (os : Os)
    (positive : 0 < n) :
    ∃ b ws, s.fillPrecacheInto os d s.cursor n = .ok (b, ws) := by
  unfold fillPrecacheInto
  simp only [w.mode]
  split
  · exact ⟨_, _, rfl⟩
  have some_ : 0 < min (m.startCursor + m.len - s.cursor) n := by omega
  have within : s.cursor - m.startCursor + min (m.startCursor + m.len - s.cursor) n ≤ m.len := by
    omega
  generalize min (m.startCursor + m.len - s.cursor) n = k at some_ within
  have flat : (s.cursor - m.startCursor) * K + k * K ≤ m.len * K := by
    rw [← Nat.add_mul]
    exact Nat.mul_le_mul_right K within
  have flatSome := Nat.mul_pos some_ wide
  obtain ⟨alphas, readAlpha⟩ := readFile_of_stored flatSome ⟨_, w.right.alphas
    ((s.cursor - m.startCursor) * K + k * K - 1) (by omega) (by omega)⟩
  have tookAlpha : takeStoreRangeInto s.alphasFlatStore os d ((s.cursor - m.startCursor) * K)
      ((s.cursor - m.startCursor) * K + k * K) = .ok (alphas, s.alphasFlatStore.consume os
        ((s.cursor - m.startCursor) * K) ((s.cursor - m.startCursor) * K + k * K)) := by
    refine bind_ok.mpr ⟨alphas, ?_, rfl⟩
    simp [readConsumeIntoSlice_of_path w.alphaStore, readAlpha]
  rw [tookAlpha]
  cases party : s.partyId with
  | ID0 =>
    obtain ⟨gammas, readGamma⟩ := readFile_of_stored some_ ⟨_, w.right.gammas party
      (s.cursor - m.startCursor + k - 1) (by omega) (by omega)⟩
    have kept : ∀ path, storePath s.gammaStore = some path →
      d.applyAll (s.alphasFlatStore.consume os
        ((s.cursor - m.startCursor) * K) ((s.cursor - m.startCursor) * K + k * K)) path =
          d path := by
      intro path own
      apply applyAll_consume_ne
      rw [w.gammaStore party] at own
      rw [w.alphaStore, ← own]
      exact fun clash => gammaPath_ne_alphaPath K dir (Option.some.inj clash).symm
    have tookGamma : takeStoreRangeInto s.gammaStore os (d.applyAll (s.alphasFlatStore.consume os
        ((s.cursor - m.startCursor) * K) ((s.cursor - m.startCursor) * K + k * K)))
          (s.cursor - m.startCursor)
        (s.cursor - m.startCursor + k) =
          .ok (gammas, s.gammaStore.consume os (s.cursor - m.startCursor)
          (s.cursor - m.startCursor + k)) := by
      refine bind_ok.mpr ⟨gammas, ?_, rfl⟩
      simp [readConsumeIntoSlice_congr kept, readConsumeIntoSlice_of_path (w.gammaStore party),
        readGamma]
    exact ⟨⟨gammas, alphas⟩, _, bind_ok.mpr ⟨_, rfl,
      bind_ok.mpr ⟨_, unwrapOrPanic_ok.mpr tookGamma, rfl⟩⟩⟩
  | ID1 => exact ⟨_, _, rfl⟩
  | ID2 => exact absurd party notP2

/-- A source with a right window, or not in a window, hands out the regenerated items. -/
theorem handsOut_of_window (dir : String) (wide : 0 < K) (notP2 : s.partyId ≠ .ID2)
    (spaced : 16 ≤ s.fieldBytes) (window : s.InWindow → ∃ m, RuntimeWindow c dir s d m) :
    HandsOut s c s d := by
  refine ⟨rfl, fun os n available => ?_⟩
  by_cases inside : s.InWindow
  · rcases Nat.eq_zero_or_pos n with rfl | positive
    · exact ⟨s, [], takeBatch_zero available⟩
    obtain ⟨m, w⟩ := window inside
    obtain ⟨b, ws, served⟩ := w.fillPrecacheInto_isOk wide notP2 os positive
    obtain ⟨k, le, rfl⟩ := w.fillPrecacheInto_eq notP2 served
    exact takeBatch_of_served notP2 spaced available le served
  · exact takeBatch_of_served notP2 spaced available (Nat.zero_le n)
      (fillPrecacheInto_outside inside c os d n)

end HandsOut

/-! ## Loading after a stop -/

section Loads

variable {F : Type} [Ring F] [RawElem F] {K : Nat} [RawElem (BitVec K)]

/-- The source a load builds from the metadata before it looks for a window, at P0 and P1. -/
def LazyEdaBits.ofHeader (F : Type) (K : Nat) (h : MetaData) (dir : String) (p : PartyID) :
    LazyEdaBits F K :=
  { seed1 := h.seed1
    pos1 := h.pos1
    seed2 := h.seed2
    pos2 := h.pos2
    total := h.total
    fieldBytes := h.fieldBytes
    cursor := h.cursor
    alphasFlatStore := .empty
    storageMode := .none
    gammaStore := .empty
    partyId := p
    metaPath := some (metaFile K dir) }

/-- A load of the directory goes by the window header `m`: it is there and matches the metadata. -/
def Accepted (F : Type) (K : Nat) (d : Disk) (dir : String) (p : PartyID)
    (m : EdaBitsPrecacheMeta) : Prop :=
  d (precacheMetaPath K dir) = some (.precacheMeta m) ∧ ∃ h, d (metaFile K dir) = some (.header h) ∧
    assertParty h p = .ok () ∧ (ofHeader F K h dir p).precacheMetaMatches m m.len h.cursor = true

variable {dir : String}

omit [Ring F] [RawElem F] [RawElem (BitVec K)] in
theorem matches_ofHeader {h : MetaData} {p : PartyID} {m : EdaBitsPrecacheMeta}
    (yes : (ofHeader F K h dir p).precacheMetaMatches m m.len h.cursor = true) :
    m.seed1 = h.seed1 ∧ m.pos1 = h.pos1 ∧ m.seed2 = h.seed2 ∧ m.pos2 = h.pos2 ∧
      m.fieldBytes = h.fieldBytes ∧
      m.total = h.total ∧ m.startCursor = h.cursor := by
  simp only [precacheMetaMatches, Bool.and_eq_true, beq_iff_eq] at yes
  obtain ⟨⟨⟨⟨⟨⟨⟨⟨-, seed1⟩, pos1⟩, seed2⟩, pos2⟩, fieldBytes⟩, total⟩, start⟩, -⟩ := yes
  exact ⟨seed1, pos1, seed2, pos2, fieldBytes, total, start⟩

omit [Ring F] [RawElem F] [RawElem (BitVec K)] in
theorem clearPrecacheFiles_source {s : LazyEdaBits F K} {d : Disk} (notP2 : s.partyId ≠ .ID2) :
    (s.clearPrecacheFiles d dir).1 =
      { s with storageMode := .none, alphasFlatStore := .empty, gammaStore := .empty } := by
  simp only [clearPrecacheFiles, clearPrecacheRuntime, if_neg notP2]

/-- The metadata of the directory, if there is any, is that of the source. -/
def HeaderOf (o : LazyEdaBits F K) (d : Disk) (dir : String) : Prop :=
  ∀ h, d (metaFile K dir) = some (.header h) → h.cursor = o.cursor ∧
    (h.seed1, h.pos1, h.seed2, h.pos2, h.fieldBytes, o.partyId) = o.origin

/-- The files are as long as the window header says. -/
structure LongEnough (F : Type) [RawElem F] (K : Nat) [RawElem (BitVec K)] (d : Disk) (dir : String)
    (p : PartyID) (m : EdaBitsPrecacheMeta) : Prop where
  alphas : ∃ store : BackingStore F, loadFromFile F d (precacheAlphaPath K dir) = .ok store ∧
    m.len * K ≤ store.len
  gammas : p = .ID0 → ∃ store : BackingStore (BitVec K),
    loadFromFile (BitVec K) d (precacheGammaPath K dir) = .ok store ∧ m.len ≤ store.len

/-- The directory is that of the source, and every window that a load takes up is right. -/
structure LoadsRight (o : LazyEdaBits F K) (c : ChaCha) (d : Disk) (dir : String) : Prop where
  header : HeaderOf o d dir
  right : ∀ m, Accepted F K d dir o.partyId m → LongEnough F K d dir o.partyId m →
    WindowRight F K c d dir o.partyId m o.cursor

/-- A load hands out the regenerated items if every window it takes up is right. -/
theorem handsOut_of_load {o s : LazyEdaBits F K} {c : ChaCha} {d d' : Disk} (wide : 0 < K)
    (notP2 : o.partyId ≠ .ID2) (spaced : 16 ≤ o.fieldBytes) (loads : LoadsRight o c d dir)
    (h : LazyEdaBits.load F K d dir o.partyId = .ok (s, d')) : HandsOut o c s d' := by
  simp only [LazyEdaBits.load, bind_ok] at h
  obtain ⟨m, found, _, asserted, ⟨store, mode⟩, stored, loaded⟩ := h
  have found := readMeta_ok.mp found
  obtain ⟨cursor, seeds⟩ := loads.header m found
  rw [loadStore, if_neg fun both => notP2 both.1] at stored
  cases stored
  have same : ∀ s' : LazyEdaBits F K, s'.origin = (ofHeader F K m dir o.partyId).origin →
      s'.cursor = m.cursor → HandsOut s' c s' d' → HandsOut o c s' d' := by
    intro s' origin at_ out
    refine ⟨at_.trans cursor, fun os n available => ?_⟩
    have equal := regenerated_congr (origin.trans seeds) c s'.cursor n
    rw [← equal]
    exact out.take os n available
  have width : 16 ≤ m.fieldBytes := by
    simp only [LazyEdaBits.origin, Prod.mk.injEq] at seeds
    rw [seeds.2.2.2.2.1]
    exact spaced
  have party : (ofHeader F K m dir o.partyId).partyId ≠ .ID2 := notP2
  rcases loadPrecache_cases party loaded with ⟨-, rfl, -⟩ | ⟨a, cleared⟩ |
    ⟨pm, alphas, gammas, there, matches_, loadedAlpha, longAlpha, loadedGamma, noGamma, rfl, rfl⟩
  · exact same _ rfl rfl (handsOut_of_window dir wide notP2 width fun inside => inside.elim)
  · have none_ : s = ofHeader F K m dir o.partyId := by
      exact (congrArg Prod.fst cleared).trans (clearPrecacheFiles_source notP2)
    subst none_
    exact same _ rfl rfl (handsOut_of_window dir wide notP2 width fun inside => inside.elim)
  · refine same _ rfl rfl (handsOut_of_window dir wide notP2 width fun inside => ⟨pm, ?_⟩)
    have accepted : Accepted F K d' dir o.partyId pm := ⟨there, m, found, asserted, matches_⟩
    have window :=
      loads.right pm accepted ⟨⟨alphas, loadedAlpha, longAlpha⟩,
      fun isP0 => ⟨gammas, loadedGamma isP0⟩⟩
    obtain ⟨seed1, pos1, seed2, pos2, fieldBytes, -, start⟩ := matches_ofHeader matches_
    rw [← cursor] at window
    have some_ : 0 < pm.len := by
      have bounds : pm.startCursor ≤ m.cursor ∧ m.cursor < pm.startCursor + pm.len := inside
      omega
    refine ⟨there, rfl, ⟨seed1, pos1, seed2, pos2, fieldBytes⟩, ?_, fun isP0 => ?_, noGamma, window⟩
    · exact storePath_loadFromFile loadedAlpha
        (Nat.lt_of_lt_of_le (Nat.mul_pos some_ wide) longAlpha)
    · exact storePath_loadFromFile (loadedGamma isP0).1
        (Nat.lt_of_lt_of_le some_ (loadedGamma isP0).2)

end Loads

/-! ## The files after a stop -/

section Stops

open PrecacheWrite

variable {F : Type} [Ring F] [RawElem F] {K : Nat} [RawElem (BitVec K)]
variable {s : LazyEdaBits F K} {c : ChaCha} {dir : String} {requested : Nat} {d : Disk}
  {m : EdaBitsPrecacheMeta}

/-- A file on its way to hold the values `f`: truncated, or of full size with every element blank
or right. -/
def Refilling {α : Type} [RawElem α] (d : Disk) (path : Path) (n : Nat) (f : Nat → α) : Prop :=
  d path = some (.data []) ∨ FileHas α d path n ∧
    ∀ e < n, fileElem α d path e = some (blank α) ∨ fileElem α d path e = some (f e)

/-- The data files after some of the writes that replace them. -/
structure Replacing (s : LazyEdaBits F K) (c : ChaCha) (dir : String) (requested : Nat)
    (d₀ d : Disk) : Prop where
  frame : ∀ q, q ≠ precacheAlphaPath K dir → q ≠ precacheGammaPath K dir → d q = d₀ q
  alphas : Refilling d (precacheAlphaPath K dir) (requested * K) (s.alphaBehind c)
  gammas : s.partyId = .ID0 → d (precacheGammaPath K dir) = d₀ (precacheGammaPath K dir) ∨
    Refilling d (precacheGammaPath K dir) requested (s.gammaBehind c)

variable {d₀ : Disk} {α : Type} {d' : Disk} {path : Path} {n : Nat}

/-- Neither header is one of the files that are replaced. -/
theorem Replacing.headers (h : Replacing s c dir requested d₀ d) :
    d (precacheMetaPath K dir) = d₀ (precacheMetaPath K dir) ∧
      d (metaFile K dir) = d₀ (metaFile K dir) :=
  ⟨h.frame _ (by simp [precacheMetaPath, precacheAlphaPath])
    (by simp [precacheMetaPath, precacheGammaPath]),
    h.frame _ (by simp [metaFile, precacheAlphaPath]) (by simp [metaFile, precacheGammaPath])⟩

theorem PartFilled.replacing (part : PartFilled s c dir requested d₀ d) :
    Replacing s c dir requested d₀ d :=
  ⟨part.frame, Or.inr ⟨part.alphaFile, part.alphas⟩,
    fun isP0 => Or.inr (Or.inr ⟨part.gammaFile isP0, part.gammas isP0⟩)⟩

theorem Refilling.congr [RawElem α] {f : Nat → α} (h : Refilling d path n f)
    (same : d' path = d path) :
    Refilling d' path n f := by
  rcases h with empty_ | ⟨file, values⟩
  · exact Or.inl (same.trans empty_)
  · refine Or.inr ⟨file.congr same, fun e inside => ?_⟩
    rw [fileElem_congr same]
    exact values e inside

theorem Replacing.truncateGammas (h : Replacing s c dir requested d₀ d) :
    Replacing s c dir requested d₀ (d.set (precacheGammaPath K dir) (.data [])) :=
  ⟨fun q notAlpha notGamma => (set_ne _ notGamma).trans (h.frame q notAlpha notGamma),
    h.alphas.congr (set_ne _ (gammaPath_ne_alphaPath K dir).symm),
      fun _ => Or.inr (Or.inl (set_same _ _ _))⟩

/-- Stopped anywhere while the files are created, the disk is untouched or being replaced. -/
theorem filesLog_stop (s : LazyEdaBits F K) (c : ChaCha) (d : Disk) (dir : String)
    (requested k : Nat) :
    named d ((s.filesLog dir requested).take k) = d ∨
      Replacing s c dir requested d (named d ((s.filesLog dir requested).take k)) := by
  have ne := gammaPath_ne_alphaPath K dir
  have whole := partFilled_filesLog s c d dir requested
  have sized :
      Replacing s c dir requested d (named d
      (createLog F (precacheAlphaPath K dir) (requested * K))) := by
    rw [named_createLog]
    have file :=
      set_same d (precacheAlphaPath K dir) (.data (ByteFile.setLen (requested * K * size F) []))
    exact ⟨fun q notAlpha _ => set_ne _ notAlpha,
      Or.inr ⟨⟨_, file, length_setLen _ _⟩, fun e inside => Or.inl (fileElem_sized inside file)⟩,
      fun _ => Or.inl (set_ne _ ne)⟩
  match k with
  | 0 => exact Or.inl rfl
  | 1 =>
    exact Or.inr ⟨fun q notAlpha _ => set_ne _ notAlpha, Or.inl (set_same _ _ _),
      fun _ => Or.inl (set_ne _ ne)⟩
  | 2 => exact Or.inr sized
  | k + 3 =>
    refine Or.inr ?_
    by_cases all : (s.filesLog dir requested).length ≤ k + 3
    · rw [take_of_length_le all]
      exact whole.replacing
    · -- P0 has truncated the file of the masks
      have isP0 : s.partyId = .ID0 := by
        by_contra other
        simp [filesLog, createLog, other] at all
      obtain rfl : k = 0 := by simpa [filesLog, createLog, isP0] using all
      have third : (s.filesLog dir requested).take 3 =
        createLog F (precacheAlphaPath K dir) (requested * K) ++
          [.truncate (precacheGammaPath K dir)] := by
        simp [filesLog, createLog, if_pos isP0]
      rw [third]
      exact sized.truncateGammas

/-- After any number of the writes that replace the data files. -/
theorem dataLog_stop (wide : 0 < K) (positive : 0 < requested) (c : ChaCha) (d : Disk)
    (dir : String) (k : Nat) :
    named d ((s.dataLog c dir requested).take k) = d ∨
      Replacing s c dir requested d (named d ((s.dataLog c dir requested).take k)) := by
  unfold dataLog
  rcases Nat.le_total k (s.filesLog dir requested).length with early | late
  · rw [take_append_of_le_length early]
    exact filesLog_stop s c d dir requested k
  · obtain ⟨j, rfl⟩ := Nat.exists_eq_add_of_le late
    rw [take_length_add_append, named_append]
    refine Or.inr (PartFilled.replacing ?_)
    -- each write of the loop keeps the files part filled
    have keeps :
      ∀ w ∈ ((stepBy requested (precacheChunkLen F K requested)).flatMap
      (s.chunkLog c dir requested)).take j,
        ∀ d', PartFilled s c dir requested d d' →
          PartFilled s c dir requested d (onNames d' w) := by
      intro w member d' part
      obtain ⟨off, inLoop, inChunk⟩ := mem_flatMap.mp (mem_of_mem_take member)
      exact part.chunkWrite wide (stepBy_lt (precacheChunkLen_pos positive) inLoop) inChunk
    exact applyAll_invariant keeps (partFilled_filesLog s c d dir requested)

/-- Every item of the window reads as a blank element. -/
structure LazyEdaBits.BlankItems (s : LazyEdaBits F K) (c : ChaCha) (n : Nat) : Prop where
  alphas : ∀ e < n * K, s.alphaBehind c e = blank F
  gammas : s.partyId = .ID0 → ∀ i < n, s.gammaBehind c i = blank (BitVec K)

theorem len_loadFromFile [RawElem α] {b : List UInt8} {store : BackingStore α}
    (found : d path = some (.data b)) (h : loadFromFile α d path = .ok store) :
    store.len = b.length / size α := by
  simp only [loadFromFile, found] at h
  split at h
  · rename_i zero
    cases h
    simp [BackingStore.len, zero]
  split at h
  · cases h
  · cases h
    rfl

/-- A load from a file that is being refilled is not longer than the refilled file; with blank old
values every element of a file of the wanted length is right. -/
theorem Refilling.loaded [RawElem α] {len : Nat} {f : Nat → α} {store : BackingStore α}
    (h : Refilling d path n f) (loaded : loadFromFile α d path = .ok store)
    (long : len ≤ store.len) :
    len ≤ n ∧ ((∀ e < len, f e = blank α) → ∀ e < len, fileElem α d path e = some (f e)) := by
  rcases h with empty_ | ⟨⟨b, found, sized⟩, values⟩
  · have zero := len_loadFromFile empty_ loaded
    simp only [length_nil, Nat.zero_div] at zero
    exact ⟨by omega, fun _ e inside => by omega⟩
  · have full := len_loadFromFile found loaded
    rw [sized, Nat.mul_div_cancel _ size_pos] at full
    refine ⟨by omega, fun blanks e inside => ?_⟩
    rcases values e (by omega) with old | new
    · rw [old, blanks e inside]
    · exact new

omit [Ring F] [RawElem F] [RawElem (BitVec K)] in
/-- A window header that a load goes by is of the source's seeds and begins at its cursor. -/
theorem Accepted.source (accepted : Accepted F K d dir s.partyId m) (header : HeaderOf s d dir) :
    m.seed1 = s.seed1 ∧ m.pos1 = s.pos1 ∧ m.seed2 = s.seed2 ∧ m.pos2 = s.pos2 ∧
      m.fieldBytes = s.fieldBytes ∧
      m.startCursor = s.cursor := by
  obtain ⟨-, h, found, -, matches_⟩ := accepted
  obtain ⟨seed1, pos1, seed2, pos2, fieldBytes, -, start⟩ := matches_ofHeader matches_
  obtain ⟨cursor, origin⟩ := header h found
  simp only [LazyEdaBits.origin, Prod.mk.injEq] at origin
  obtain ⟨seed1', pos1', seed2', pos2', fieldBytes', -⟩ := origin
  exact ⟨seed1.trans seed1', pos1.trans pos1', seed2.trans seed2', pos2.trans pos2',
    fieldBytes.trans fieldBytes', start.trans cursor⟩

/-- A window header that a load goes by describes the items behind the cursor. -/
theorem windowRight_of_behind (header : HeaderOf s d dir)
    (accepted : Accepted F K d dir s.partyId m)
    (alphas : ∀ e < m.len * K, fileElem F d (precacheAlphaPath K dir) e = some (s.alphaBehind c e))
    (gammas : s.partyId = .ID0 → ∀ i < m.len,
      fileElem (BitVec K) d (precacheGammaPath K dir) i = some (s.gammaBehind c i)) :
    WindowRight F K c d dir s.partyId m s.cursor := by
  obtain ⟨seed1, pos1, seed2, pos2, fieldBytes, start⟩ := accepted.source header
  refine ⟨fun e _ inside => ?_, fun isP0 i _ inside => ?_⟩
  · rw [alphas e inside, alphaBehind, seed1, pos1, seed2, pos2, fieldBytes, start]
  · rw [gammas isP0 i inside, gammaBehind, isP0, seed1, pos1, seed2, pos2, fieldBytes, start]

/-- A source of P0 or P1 with its directory: a window in use is right, the metadata is the source's,
and a window a load would go by is right and within the material. -/
structure CachedState (c : ChaCha) (dir : String) (s : LazyEdaBits F K) (d : Disk) : Prop where
  notP2 : s.partyId ≠ .ID2
  spaced : 16 ≤ s.fieldBytes
  runtime : s.InWindow → ∃ m, RuntimeWindow c dir s d m
  header : HeaderOf s d dir
  fits : ∀ m, Accepted F K d dir s.partyId m → m.startCursor + m.len ≤ m.total
  right : ∀ m, Accepted F K d dir s.partyId m → WindowRight F K c d dir s.partyId m s.cursor

/-- The states of orderly runs are such states: a header that a load goes by is not outgrown. -/
theorem CacheInv.cachedState (inv : CacheInv c dir s d) (own : SameOrigin s dir s d)
    (notP2 : s.partyId ≠ .ID2) (spaced : 16 ≤ s.fieldBytes) : CachedState c dir s d := by
  have header : HeaderOf s d dir := by
    intro h found
    refine ⟨?_, own.header h found⟩
    rcases inv.recorded with ⟨-, noHeader⟩ | ⟨-, cursor⟩
    · exact absurd found (noHeader h)
    · exact Option.some.inj ((cursorAt_header found).symm.trans cursor)
  have current : ∀ m, Accepted F K d dir s.partyId m → m.startCursor + m.len ≤ m.total ∧
      WindowRight F K c d dir s.partyId m s.cursor := by
    rintro m ⟨there, h, found, -, matches_⟩
    rcases inv.onDisk notP2 m there with ⟨-, grown⟩ | ⟨-, ⟨-, fits⟩, right⟩
    · have total := (matches_ofHeader matches_).2.2.2.2.2.1
      exact absurd (grown h found) (by omega)
    · exact ⟨fits, right⟩
  refine ⟨notP2, spaced, fun inside => ?_, header, fun m accepted => (current m accepted).1,
    fun m accepted => (current m accepted).2⟩
  rcases inv.runtime notP2 with none_ | window
  · simp only [InWindow, none_] at inside
  · exact window

/-- Wherever `prepare_precache` stops, the source in memory and every load of the directory hand
out the regenerated items. -/
def SurvivesStops (c : ChaCha) (dir : String) (s : LazyEdaBits F K) (d : Disk) (requested : Nat) :
    Prop :=
  ∀ k, HandsOut s c s (held d ((s.prepareLog c dir requested).take k)) ∧
    ∀ s' d', LazyEdaBits.load F K (named d ((s.prepareLog c dir requested).take k)) dir s.partyId =
      .ok (s', d') → HandsOut s c s' d'

theorem CachedState.loadsRight (state : CachedState c dir s d) : LoadsRight s c d dir :=
  ⟨state.header, fun m accepted _ => state.right m accepted⟩

/-- While the data files are replaced, a window that a load goes by is right if it is longer than
the new one, so not taken up, or blank. -/
theorem Replacing.windowRight (h : Replacing s c dir requested d d') (wide : 0 < K)
    (state : CachedState c dir s d)
    (safe : ∀ m, Accepted F K d dir s.partyId m → requested < m.len ∨ s.BlankItems c m.len)
    (accepted : Accepted F K d' dir s.partyId m) (long : LongEnough F K d' dir s.partyId m) :
    WindowRight F K c d' dir s.partyId m s.cursor := by
  obtain ⟨metaSame, headerSame⟩ := h.headers
  have before : Accepted F K d dir s.partyId m := by
    obtain ⟨there, hd, found, rest⟩ := accepted
    exact ⟨metaSame ▸ there, hd, headerSame ▸ found, rest⟩
  obtain ⟨alphaStore, loadedAlpha, longAlpha⟩ := long.alphas
  obtain ⟨flat, alphas⟩ := h.alphas.loaded loadedAlpha longAlpha
  rcases safe m before with longer | blanks
  · exact absurd (Nat.le_of_mul_le_mul_right flat wide) (Nat.not_le.mpr longer)
  refine windowRight_of_behind (fun hd found => state.header hd (headerSame ▸ found))
    accepted (alphas blanks.alphas)
    fun isP0 i inside => ?_
  rcases h.gammas isP0 with old | refilling
  · -- the masks are still those of the old window
    obtain ⟨seed1, pos1, seed2, pos2, fieldBytes, start⟩ := before.source state.header
    rw [fileElem_congr old, (state.right m before).gammas isP0 i (by omega) inside, gammaBehind,
      isP0, seed1, pos1, seed2, pos2, fieldBytes, start]
  · obtain ⟨gammaStore, loadedGamma, longGamma⟩ := long.gammas isP0
    exact (refilling.loaded loadedGamma longGamma).2 (blanks.gammas isP0) i inside

omit [Ring F] [RawElem F] [RawElem (BitVec K)] in
/-- The metadata file is none of the files `prepare_precache` writes. -/
theorem headerOf_congr (header : HeaderOf s d dir)
    (same : d' (metaFile K dir) = d (metaFile K dir)) :
    HeaderOf s d' dir :=
  fun h found => header h (same ▸ found)

/-- After any number of writes of a rebuild, a load finds a right window, if the old one was no
longer than the new one only when it was blank. -/
theorem rebuild_windowRight (wide : 0 < K) (state : CachedState c dir s d)
    (rebuilds : s.Rebuilds requested)
    (safe : ∀ m, Accepted F K d dir s.partyId m → requested < m.len ∨ s.BlankItems c m.len)
    (k : Nat) :
    LoadsRight s c (named d ((s.dataLog c dir requested ++ s.headerLog dir requested).take k))
      dir := by
  obtain ⟨-, positive, -, -⟩ := id rebuilds
  have dataStop := dataLog_stop (s := s) wide positive c d dir
  generalize replayed :
    named d ((s.dataLog c dir requested ++ s.headerLog dir requested).take k) = d'
  rcases Nat.lt_or_ge (s.dataLog c dir requested).length k with late | early
  · obtain ⟨j, rfl⟩ := Nat.exists_eq_add_of_lt late
    have dataHeader :
        named d (s.dataLog c dir requested) (metaFile K dir) = d (metaFile K dir) := by
      have all := dataStop (s.dataLog c dir requested).length
      rw [take_length] at all
      rcases all with same | replacing
      · rw [same]
      · exact replacing.headers.2
    have notMeta : metaFile K dir ≠ precacheMetaPath K dir := by simp [metaFile, precacheMetaPath]
    have replay :
        d' = named (named d (s.dataLog c dir requested))
        ((s.headerLog dir requested).take (j + 1)) := by
      rw [← replayed, Nat.add_assoc, take_length_add_append, named_append]
    cases j with
    | zero =>
      -- the header is broken
      have torn : d' = (named d (s.dataLog c dir requested)).set (precacheMetaPath K dir)
        (.data []) := replay
      rw [torn]
      refine ⟨headerOf_congr state.header ((set_ne _ notMeta).trans dataHeader),
        fun m accepted _ => ?_⟩
      obtain ⟨there, -⟩ := accepted
      rw [set_same] at there
      cases there
    | succ j =>
      have written : d' = (named d (s.dataLog c dir requested)).set (precacheMetaPath K dir)
          (.precacheMeta (s.currentPrecacheMeta s.cursor requested)) := by
        rw [replay, take_of_length_le (by simp [headerLog])]
        exact set_set _ _ _ _
      have complete : d' = named d (s.dataLog c dir requested ++ s.headerLog dir requested) := by
        rw [written, named_append]
        exact (set_set _ _ _ _).symm
      have sameHeader : d' (metaFile K dir) = d (metaFile K dir) := by
        rw [written]
        exact (set_ne _ notMeta).trans dataHeader
      refine ⟨headerOf_congr state.header sameHeader, fun m accepted _ => ?_⟩
      obtain ⟨s', prepared⟩ := preparePrecache_rebuild dir wide state.spaced rebuilds c d
      rw [← complete] at prepared
      rcases preparePrecache_spec prepared with cleared | ⟨-, same⟩ | ⟨-, -, -, there, right, -⟩
      · have gone := congrArg (fun r => r.2 (precacheMetaPath K dir)) cleared
        simp only [clearPrecacheFiles, if_neg state.notP2, remove_same] at gone
        rw [accepted.1] at gone
        cases gone
      · rw [same] at accepted ⊢
        exact state.right m accepted
      · have newest := accepted.1.symm.trans there
        simp only [Option.some.injEq, Content.precacheMeta.injEq] at newest
        rw [newest]
        exact right
  · -- the header is still the old one
    have replay : d' = named d ((s.dataLog c dir requested).take k) := by
      rw [← replayed, take_append_of_le_length early]
    rw [replay]
    rcases dataStop k with same | replacing
    · rw [same]
      exact state.loadsRight
    · exact ⟨headerOf_congr state.header replacing.headers.2,
        fun m accepted long => replacing.windowRight wide state safe accepted long⟩

/-- After any number of the removals that clear the window, a load finds none. -/
theorem clear_windowRight (state : CachedState c dir s d) (k : Nat) :
    LoadsRight s c (named d ([PrecacheWrite.remove (precacheAlphaPath K dir),
      .remove (precacheGammaPath K dir), .remove (precacheMetaPath K dir)].take k)) dir := by
  cases k with
  | zero => exact state.loadsRight
  | succ k =>
    -- the removal of the alphas comes first
    have keeps : ∀ w ∈ [PrecacheWrite.remove (precacheGammaPath K dir),
      .remove (precacheMetaPath K dir)].take k,
        ∀ e : Disk, e (precacheAlphaPath K dir) = none ∧ e (metaFile K dir) = d (metaFile K dir) →
          onNames e w (precacheAlphaPath K dir) = none ∧ onNames e w (metaFile K dir) =
            d (metaFile K dir) := by
      intro w member e before
      have either := mem_of_mem_take member
      simp only [mem_cons, not_mem_nil, or_false] at either
      rcases either with rfl | rfl
      · exact ⟨(remove_ne (by simp [precacheAlphaPath, precacheGammaPath])).trans before.1,
          (remove_ne (by simp [metaFile, precacheGammaPath])).trans before.2⟩
      · exact ⟨(remove_ne (by simp [precacheAlphaPath, precacheMetaPath])).trans before.1,
          (remove_ne (by simp [metaFile, precacheMetaPath])).trans before.2⟩
    have first : onNames d (.remove (precacheAlphaPath K dir)) (precacheAlphaPath K dir) = none ∧
        onNames d (.remove (precacheAlphaPath K dir)) (metaFile K dir) = d (metaFile K dir) :=
      ⟨remove_same _ _, remove_ne (by simp [metaFile, precacheAlphaPath])⟩
    obtain ⟨gone, sameHeader⟩ := applyAll_invariant keeps first
    refine ⟨headerOf_congr state.header sameHeader, fun m _ long => ?_⟩
    obtain ⟨store, loaded, -⟩ := long.alphas
    change loadFromFile F (applyAll onNames (onNames d _) _) _ = _ at loaded
    simp only [loadFromFile, gone] at loaded
    cases loaded

/-- A source that serves from its window fails once the file is truncated. -/
theorem not_handsOut_truncated (w : RuntimeWindow c dir s d m) (wide : 0 < K)
    (notP2 : s.partyId ≠ .ID2) (inside : s.InWindow) (available : s.cursor + 1 ≤ s.total) :
    ¬ HandsOut s c s (d.set (precacheAlphaPath K dir) (.data [])) := by
  intro out
  obtain ⟨s', ws, taken⟩ := out.take (fun _ => .punchHole) 1 available
  unfold takeBatch at taken
  obtain ⟨_, -, taken⟩ := bind_ok.mp taken
  rw [if_neg notP2] at taken
  obtain ⟨⟨b, ws'⟩, filled, -⟩ := bind_ok.mp taken
  have bounds : m.startCursor ≤ s.cursor ∧ s.cursor < m.startCursor + m.len := by
    simpa only [LazyEdaBits.InWindow, w.mode] using inside
  have here : ¬ (s.cursor < m.startCursor ∨ m.startCursor + m.len ≤ s.cursor) := by omega
  simp only [fillPrecacheInto, w.mode, if_neg here] at filled
  obtain ⟨⟨alphas, writes⟩, took, -⟩ := bind_ok.mp filled
  obtain ⟨read, -⟩ := takeStoreRangeInto_ok (unwrapOrPanic_ok.mp took)
  rw [Nat.add_sub_cancel_left, readConsumeIntoSlice_of_path w.alphaStore] at read
  have wanted : 0 < min (m.startCursor + m.len - s.cursor) 1 * K * size F :=
    Nat.mul_pos (Nat.mul_pos (by omega) wide) size_pos
  have some_ : min (m.startCursor + m.len - s.cursor) 1 * K ≠ 0 :=
    Nat.ne_of_gt (Nat.mul_pos (by omega) wide)
  have short :
      ¬ ((s.cursor - m.startCursor) * K * size F + min (m.startCursor + m.len - s.cursor) 1 *
      K * size F ≤ 0) := by
    omega
  simp only [readFile, set_same, readExact, Nat.add_sub_cancel_left, length_nil, if_neg some_,
    if_neg short] at read
  cases read

omit [Ring F] in
/-- `load_precache` takes up a window whose header matches and whose files are long enough. -/
theorem loadPrecache_of_matches (notP2 : s.partyId ≠ .ID2)
    (there : d (precacheMetaPath K dir) = some (.precacheMeta m))
    (matches_ : s.precacheMetaMatches m m.len s.cursor = true) (wide : 0 < K) (positive : 0 < n)
    (long : m.len ≤ n) (alphaFile : FileHas F d (precacheAlphaPath K dir) (n * K))
    (gammaFile : s.partyId = .ID0 → FileHas (BitVec K) d (precacheGammaPath K dir) n) :
    s.loadPrecache d dir = .ok ({ s with
      alphasFlatStore := .fileBacked (precacheAlphaPath K dir) (n * K) (n * K * size F)
      gammaStore :=
        if s.partyId = .ID0 then .fileBacked (precacheGammaPath K dir) n (n * size (BitVec K))
        else .empty
      storageMode := .p01Precache m.startCursor m.len }, d) := by
  have alphas := loadFromFile_of_fileHas (Nat.mul_pos positive wide) alphaFile
  obtain ⟨b, alphaFound, -⟩ := alphaFile
  have longAlpha :
      ¬ (BackingStore.fileBacked (α := F) (precacheAlphaPath K dir) (n * K) (n * K * size F)).len <
      m.len * K :=
    Nat.not_lt.mpr (Nat.mul_le_mul_right K long)
  have longGamma :
      ¬ (BackingStore.fileBacked (α := BitVec K) (precacheGammaPath K dir) n
      (n * size (BitVec K))).len < m.len :=
    Nat.not_lt.mpr long
  unfold loadPrecache
  simp only [if_neg notP2, there, matches_, alphaFound]
  refine bind_ok.mpr ⟨_, alphas, ?_⟩
  rw [if_neg longAlpha]
  by_cases isP0 : s.partyId = .ID0
  · have gammas := loadFromFile_of_fileHas positive (gammaFile isP0)
    obtain ⟨g, gammaFound, -⟩ := gammaFile isP0
    simp only [if_pos isP0, gammaFound]
    refine bind_ok.mpr ⟨_, gammas, ?_⟩
    rw [if_neg longGamma]
    rfl
  · simp only [if_neg isP0]
    rfl

/-- A load that goes by an old header and takes up files that were only sized hands out blanks. -/
theorem blank_of_load (wide : 0 < K) (state : CachedState c dir s d) (positive : 0 < requested)
    (accepted : Accepted F K d dir s.partyId m) (covered : m.len ≤ requested)
    (out : ∀ s' d', LazyEdaBits.load F K (named d (s.filesLog dir requested)) dir s.partyId =
      .ok (s', d') →
      HandsOut s c s' d') : s.BlankItems c m.len := by
  have part := partFilled_filesLog s c d dir requested
  obtain ⟨alphaFile, gammaFile, -⟩ := precacheFiles_spec s d dir requested
  rw [named_filesLog] at part out
  generalize s.precacheFiles d dir requested = d' at part alphaFile gammaFile out
  have fits := state.fits m accepted
  obtain ⟨there, h, found, asserted, matches_⟩ := accepted
  obtain ⟨-, -, -, -, -, total, start⟩ := matches_ofHeader matches_
  obtain ⟨metaSame, headerSame⟩ := part.replacing.headers
  have there' := metaSame.trans there
  have found' := headerSame.trans found
  have party : (ofHeader F K h dir s.partyId).partyId ≠ .ID2 := state.notP2
  have window :=
    loadPrecache_of_matches party there' matches_ wide positive covered part.alphaFile
    part.gammaFile
  have loaded : LazyEdaBits.load F K d' dir s.partyId = .ok ({ ofHeader F K h dir s.partyId with
      alphasFlatStore :=
        .fileBacked (precacheAlphaPath K dir) (requested * K) (requested * K * size F)
      gammaStore := if s.partyId = .ID0 then
        .fileBacked (precacheGammaPath K dir) requested (requested * size (BitVec K)) else .empty
      storageMode := .p01Precache m.startCursor m.len }, d') := by
    have plain : loadStore F K d' dir s.partyId h = .ok (.empty, .none) := by
      rw [loadStore, if_neg fun both => state.notP2 both.1]
    exact bind_ok.mpr ⟨h, readMeta_ok.mpr found',
      bind_ok.mpr ⟨(), asserted, bind_ok.mpr ⟨_, plain, window⟩⟩⟩
  rcases Nat.eq_zero_or_pos m.len with zero | some_
  · exact ⟨fun e inside => by simp [zero] at inside, fun _ i inside => by simp [zero] at inside⟩
  have handed := out _ _ loaded
  have cursor : h.cursor = s.cursor := handed.cursor
  obtain ⟨s', ws, taken⟩ := handed.take (fun _ => .punchHole) m.len (by simp only [ofHeader]; omega)
  obtain ⟨stored, rest, joined, read, generated⟩ :=
    takeBatch_parts (backed_of_load loaded) some_ taken
  have here : ¬ (h.cursor < m.startCursor ∨ m.startCursor + m.len ≤ h.cursor) := by omega
  have count : min (m.startCursor + m.len - h.cursor) m.len = m.len := by omega
  simp only [storedItems, ofHeader, if_neg state.notP2, if_neg here, count,
    Nat.sub_self] at read generated
  have nothing : rest = ⟨[], []⟩ := (Except.ok.inj generated).symm
  simp only [ofHeader, nothing, append, append_nil, cursor] at joined
  have offset : h.cursor - m.startCursor = 0 := by omega
  have alphas := regenerated_alphas s c 0 m.len
  have gammas := regenerated_gammas s c 0 m.len
  simp only [Nat.add_zero, joined] at alphas gammas
  constructor
  · have values := readConsumeIntoSlice_stored (read.alphas some_)
    simp only [storeOffset, offset, Nat.zero_mul, Nat.zero_add, alphas, map_map] at values
    intro e inside
    have value := map_inj_left.mp values e (mem_range.mpr inside)
    have within := Nat.lt_of_lt_of_le inside (Nat.mul_le_mul_right K covered)
    exact Option.some.inj (value.trans (fileElem_sized within alphaFile))
  · intro isP0 i inside
    have values := readConsumeIntoSlice_stored (read.gammas some_ isP0)
    simp only [storeOffset, offset, Nat.zero_add, gammas, map_map, if_pos isP0] at values
    have value := map_inj_left.mp values i (mem_range.mpr inside)
    exact Option.some.inj (value.trans
      (fileElem_sized (Nat.lt_of_lt_of_le inside covered) (gammaFile isP0)))

theorem held_removals {log : List PrecacheWrite} (removals : ∀ w ∈ log, ∃ path, w = .remove path) :
    held d log = d := by
  have keeps : ∀ w ∈ log, ∀ e : Disk, e = d → onHandles e w = d := by
    intro w member e same
    obtain ⟨path, rfl⟩ := removals w member
    exact same
  exact applyAll_invariant keeps rfl

/-- Without a rebuild files are removed at most. -/
theorem prepareLog_removes (kept : ¬ s.Rebuilds requested) {w : PrecacheWrite}
    (member : w ∈ s.prepareLog c dir requested) :
    ∃ path, w = .remove path := by
  rw [prepareLog, if_neg kept] at member
  split at member
  · simp only [mem_cons, not_mem_nil, or_false] at member
    rcases member with rfl | rfl | rfl <;> exact ⟨_, rfl⟩
  · cases member

/-- Stopped after any number of its writes, `prepare_precache` leaves the source and every load with
the regenerated items exactly when it rebuilds no window, or the source serves from none and a load
would not take up one that the new window covers, unless it is blank. -/
theorem preparePrecache_stop_iff {s : LazyEdaBits F K} {c : ChaCha} {dir : String} {d : Disk}
    (wide : 0 < K) (state : CachedState c dir s d) (requested : Nat) :
    SurvivesStops c dir s d requested ↔ (s.Rebuilds requested → ¬ s.InWindow ∧
        ∀ m, Accepted F K d dir s.partyId m → requested < m.len ∨ s.BlankItems c m.len) := by
  constructor
  · intro survives rebuilds
    obtain ⟨-, positive, available, -⟩ := id rebuilds
    have log : s.prepareLog c dir requested = s.dataLog c dir requested ++
      s.headerLog dir requested := if_pos rebuilds
    refine ⟨fun inside => ?_, fun m accepted => ?_⟩
    · obtain ⟨m, window⟩ := state.runtime inside
      have first := (survives 1).1
      rw [log] at first
      have room : s.cursor + 1 ≤ s.total := by
        simp only [remaining] at available
        omega
      exact not_handsOut_truncated window wide state.notP2 inside room first
    · rcases Nat.lt_or_ge requested m.len with longer | covered
      · exact Or.inl longer
      · have loads := (survives (s.filesLog dir requested).length).2
        rw [log, dataLog, append_assoc, take_left] at loads
        exact Or.inr (blank_of_load wide state positive accepted covered loads)
  · intro safe k
    have stops : ¬ s.InWindow ∨ held d ((s.prepareLog c dir requested).take k) = d := by
      by_cases rebuilds : s.Rebuilds requested
      · exact Or.inl (safe rebuilds).1
      · exact Or.inr (held_removals fun w member =>
          prepareLog_removes rebuilds (mem_of_mem_take member))
    have loads : LoadsRight s c (named d ((s.prepareLog c dir requested).take k)) dir := by
      by_cases rebuilds : s.Rebuilds requested
      · rw [prepareLog, if_pos rebuilds]
        exact rebuild_windowRight wide state rebuilds (safe rebuilds).2 k
      · rw [prepareLog, if_neg rebuilds]
        split
        · exact clear_windowRight state k
        · rw [take_nil]
          exact state.loadsRight
    refine ⟨handsOut_of_window dir wide state.notP2 state.spaced fun inside => ?_,
      fun s' d' loaded => ?_⟩
    · rcases stops with outside | same
      · exact absurd inside outside
      · rw [same]
        exact state.runtime inside
    · exact handsOut_of_load wide state.notP2 state.spaced loads loaded

end Stops

namespace PrecacheSys

/-- Every state that an orderly run of P0 or P1 from a fresh one reaches is a cached state. -/
theorem run_cachedState {F : Type} [Ring F] [RawElem F] {K : Nat} [RawElem (BitVec K)] {c : ChaCha}
    {dir : String} (wide : 0 < K) {s₀ s : PrecacheSys F K} {ops : List (PrecacheOp F)}
    (fresh : s₀.Fresh dir) (notP2 : s₀.src.partyId ≠ .ID2) (spaced : 16 ≤ s₀.src.fieldBytes)
    (orderly : AllSteps (step c) (Orderly dir) s₀ ops) (h : run (step c) s₀ ops = .ok s) :
    CachedState c dir s.src s.disk := by
  obtain ⟨inv, source, header⟩ := run_cacheInv wide fresh orderly h
  have party : s.src.partyId = s₀.src.partyId := congrArg (·.2.2.2.2.2) source
  have width : s.src.fieldBytes = s₀.src.fieldBytes := congrArg (·.2.2.2.2.1) source
  refine inv.cachedState ⟨rfl, fun h found => ?_⟩ (party ▸ notP2) (width ▸ spaced)
  rw [source, party]
  exact header h found

/-- The state that a run from `fourItems` reaches, if it can be evaluated to one. -/
theorem fourItems_reaches {ops : List (PrecacheOp (ZMod 251))}
    {test : PrecacheSys (ZMod 251) 8 → Bool}
    (orderly : AllSteps (step countingRng) (Orderly "pool") fourItems ops)
    (result : (run (step countingRng) fourItems ops).toOption.any test = true) :
    ∃ s, run (step countingRng) fourItems ops = .ok s ∧ test s = true ∧
      CachedState countingRng "pool" s.src s.disk := by
  cases ran : run (step countingRng) fourItems ops with
  | error e =>
    rw [ran] at result
    cases result
  | ok s =>
    rw [ran] at result
    exact ⟨s, rfl, result,
      run_cachedState (by decide) (fourItems_fresh "pool") (by decide) (by decide) orderly ran⟩

/-- Two windows that `prepare_precache` finds. The source serves from the first: a request that it
meets writes nothing, and a request for none removes the files. The second was used up and is
stale: two items are prepared over it. -/
theorem preparePrecache_stop_windows :
    (∃ s, run (step countingRng) fourItems [.save "pool", .prepare "pool" 2] = .ok s ∧
      s.src.InWindow ∧ (s.src.prepareLog countingRng "pool" 0).length = 3 ∧
      SurvivesStops countingRng "pool" s.src s.disk 0 ∧
      SurvivesStops countingRng "pool" s.src s.disk 2) ∧
    ∃ s m, run (step countingRng) fourItems
        [.save "pool", .prepare "pool" 1, .take (fun _ => .punchHole) 1] = .ok s ∧
      s.disk (precacheMetaPath 8 "pool") = some (.precacheMeta m) ∧ m.startCursor < s.src.cursor ∧
      s.src.Rebuilds 2 ∧ SurvivesStops countingRng "pool" s.src s.disk 2 := by
  constructor
  · obtain ⟨s, ran, test, state⟩ := @fourItems_reaches [.save "pool", .prepare "pool" 2]
      (fun s => s.src.storageMode = .p01Precache 0 2 ∧ s.src.cursor = 0 ∧
        (s.src.prepareLog countingRng "pool" 0).length = 3 ∧ ¬ s.src.Rebuilds 2)
      ⟨rfl, fun _ _ => ⟨rfl, fun _ _ => trivial⟩⟩ (by decide +kernel)
    obtain ⟨mode, cursor, removes, matching⟩ := of_decide_eq_true test
    refine ⟨s, ran, ?_, removes, (preparePrecache_stop_iff (by decide) state 0).mpr fun rebuilds =>
      ?_, (preparePrecache_stop_iff (by decide) state 2).mpr fun rebuilds =>
      absurd rebuilds matching⟩
    · simp [InWindow, mode, cursor]
    · exact absurd rebuilds.2.1 (Nat.lt_irrefl 0)
  · obtain ⟨s, ran, test, state⟩ := @fourItems_reaches
      [.save "pool", .prepare "pool" 1, .take (fun _ => .punchHole) 1]
      (fun s => s.src.storageMode = .p01Precache 0 1 ∧ s.src.cursor = 1 ∧ s.src.Rebuilds 2 ∧
        s.disk (precacheMetaPath 8 "pool") = some (.precacheMeta ⟨[], 0, [], 0, 16, 4, 0, 1, 1⟩))
      ⟨rfl, fun _ _ => ⟨rfl, fun _ _ => ⟨trivial, fun _ _ => trivial⟩⟩⟩ (by decide +kernel)
    obtain ⟨mode, cursor, rebuilds, there⟩ := of_decide_eq_true test
    refine ⟨s, _, ran, there, by rw [cursor]; decide, rebuilds,
      (preparePrecache_stop_iff (by decide) state 2).mpr fun _ => ⟨?_, fun m accepted => ?_⟩⟩
    · simp [InWindow, mode, cursor]
    · -- the header on disk starts before the cursor, so no load goes by it
      have start := (accepted.source state.header).2.2.2.2.2
      obtain rfl := Content.precacheMeta.inj (Option.some.inj (there.symm.trans accepted.1))
      exact absurd (start.trans cursor) (by decide)

/-- The next item's alphas after `prepare_precache` for two items, over a window of one, stopped
after `k` writes: from the source in memory, and from one that is loaded. -/
def afterStop (k : Nat) : Option (Option (List (ZMod 251)) × Option (List (ZMod 251))) :=
  (run (step countingRng) fourItems [.save "pool", .prepare "pool" 1]).toOption.map fun s =>
    let log := (s.src.prepareLog countingRng "pool" 2).take k
    let loaded := LazyEdaBits.load (ZMod 251) 8 (named s.disk log) "pool" s.src.partyId
    ((s.src.takeBatch countingRng (fun _ => .punchHole) (held s.disk log) 1).toOption.map
      (·.1.alphasFlat),
      (loaded >>= fun r => r.1.takeBatch countingRng (fun _ => .punchHole) r.2 1).toOption.map
        (·.1.alphasFlat))

/-- After the first write the source in memory has lost the item; after the second it and every
load hand out zeros. -/
theorem preparePrecache_stopped :
    afterStop 0 = some (some [45, 4, 214, 173, 132, 91, 50, 9],
      some [45, 4, 214, 173, 132, 91, 50, 9]) ∧
      afterStop 1 = some (none, some [45, 4, 214, 173, 132, 91, 50, 9]) ∧
      afterStop 2 = some (some [0, 0, 0, 0, 0, 0, 0, 0], some [0, 0, 0, 0, 0, 0, 0, 0]) := by
  decide +kernel

end PrecacheSys

end ProviaVM.Preprocessing
