import ProviaVM.Preprocessing.Generation
import ProviaVM.Preprocessing.StoreContents
import ProviaVM.Preprocessing.Consumption

/-! # The precache window

`edabits.rs`: `prepare_precache` writes a window of regenerated items to files;
`take_batch_into` and the range views splice what the window holds with freshly
regenerated items. `WindowRight` says that the files hold, from a cursor on, exactly the
items regeneration would give. Then what is handed out does not show the window. -/
namespace ProviaVM.Preprocessing
open ByteFile RawElem LazyEdaBits Run Disk

variable {F : Type} [Ring F] [RawElem F] {K : Nat} [RawElem (BitVec K)]
variable {c : ChaCha} {d d' : Disk} {dir : String} {m : EdaBitsPrecacheMeta} {ws : List Write}
  {s : LazyEdaBits F K} {n start k : Nat} {b : EdaBitsBatch F K} {r : EdaBitsReservation F K}

/-- The files of directory `dir` hold the items of the window that `m` describes, from `cursor`
on. The masks are stored by P0 only. -/
structure WindowRight (F : Type) [Ring F] [RawElem F] (K : Nat) [RawElem (BitVec K)] (c : ChaCha)
    (d : Disk) (dir : String) (p : PartyID) (m : EdaBitsPrecacheMeta) (cursor : Nat) : Prop where
  alphas : ∀ e, (cursor - m.startCursor) * K ≤ e → e < m.len * K →
    fileElem F d (precacheAlphaPath K dir) e =
      some (alpha1At K F c (interleavedSeed m.seed1 m.pos1 m.seed2 m.pos2 p).1
        (interleavedSeed m.seed1 m.pos1 m.seed2 m.pos2 p).2 m.fieldBytes (m.startCursor * K + e))
  gammas : p = .ID0 → ∀ i, cursor - m.startCursor ≤ i → i < m.len →
    fileElem (BitVec K) d (precacheGammaPath K dir) i =
      some (gammaAt K c m.seed1 m.pos1 m.seed2 m.pos2 m.fieldBytes .ID0 (m.startCursor + i))

variable {p : PartyID} {cursor : Nat}

theorem WindowRight.congr (h : WindowRight F K c d dir p m cursor)
    (alpha : d' (precacheAlphaPath K dir) = d (precacheAlphaPath K dir))
    (gamma : d' (precacheGammaPath K dir) = d (precacheGammaPath K dir)) :
    WindowRight F K c d' dir p m cursor :=
  ⟨fun e low high => (fileElem_congr alpha e).trans (h.alphas e low high),
    fun isP0 i low high => (fileElem_congr gamma i).trans (h.gammas isP0 i low high)⟩

theorem WindowRight.later {cursor' : Nat} (h : WindowRight F K c d dir p m cursor)
    (le : cursor ≤ cursor') :
    WindowRight F K c d dir p m cursor' := by
  have sub : cursor - m.startCursor ≤ cursor' - m.startCursor := Nat.sub_le_sub_right le _
  exact ⟨fun e low => h.alphas e (Nat.le_trans (Nat.mul_le_mul_right K sub) low),
    fun isP0 i low => h.gammas isP0 i (Nat.le_trans sub low)⟩

/-- Writes that spare the elements from `cursor'` on. -/
theorem WindowRight.applyAll {cursor' : Nat} (h : WindowRight F K c d dir p m cursor)
    (le : cursor ≤ cursor') (alphas : ∀ e, (cursor' - m.startCursor) * K ≤ e → ∀ w ∈ ws,
      Spares F (precacheAlphaPath K dir) e w)
    (gammas : p = .ID0 → ∀ i, cursor' - m.startCursor ≤ i → ∀ w ∈ ws,
      Spares (BitVec K) (precacheGammaPath K dir) i w) :
    WindowRight F K c (d.applyAll ws) dir p m cursor' := by
  have right := h.later le
  refine ⟨fun e low high => ?_, fun isP0 i low high => ?_⟩
  · have kept := @storedAt_applyAll F _ d e (.fileBacked (precacheAlphaPath K dir) 0 0) ws
      (fun path own w member => by
        cases own
        exact alphas e low w member)
    exact kept.trans (right.alphas e low high)
  · have kept := @storedAt_applyAll (BitVec K) _ d i (.fileBacked (precacheGammaPath K dir) 0 0) ws
      (fun path own w member => by
        cases own
        exact gammas isP0 i low w member)
    exact kept.trans (right.gammas isP0 i low high)

section Prepare

omit [RawElem F] in
def LazyEdaBits.regenerated (s : LazyEdaBits F K) (c : ChaCha) (base n : Nat) : EdaBitsBatch F K :=
  itemsAt F K c s.seed1 s.pos1 s.seed2 s.pos2 s.fieldBytes s.partyId base n

/-- The alphas a source regenerates, by their place behind the cursor. -/
def LazyEdaBits.alphaBehind (s : LazyEdaBits F K) (c : ChaCha) (e : Nat) : F :=
  alpha1At K F c (interleavedSeed s.seed1 s.pos1 s.seed2 s.pos2 s.partyId).1
    (interleavedSeed s.seed1 s.pos1 s.seed2 s.pos2 s.partyId).2 s.fieldBytes (s.cursor * K + e)

/-- The masks a source regenerates, by their place behind the cursor. -/
def LazyEdaBits.gammaBehind (s : LazyEdaBits F K) (c : ChaCha) (i : Nat) : BitVec K :=
  gammaAt K c s.seed1 s.pos1 s.seed2 s.pos2 s.fieldBytes s.partyId (s.cursor + i)

omit [RawElem F] in
theorem regenerated_alphas (s : LazyEdaBits F K) (c : ChaCha) (off n : Nat) :
    (s.regenerated c (s.cursor + off) n).alphasFlat = (List.range (n * K)).map fun e =>
      s.alphaBehind c (off * K + e) := by
  simp only [regenerated, itemsAt, alphaBehind, Nat.add_mul, Nat.add_assoc]

omit [RawElem F] in
theorem regenerated_gammas (s : LazyEdaBits F K) (c : ChaCha) (off n : Nat) :
    (s.regenerated c (s.cursor + off) n).gammas = (List.range n).map fun i =>
      s.gammaBehind c (off + i) := by
  simp only [regenerated, itemsAt, gammaBehind, Nat.add_assoc]

theorem gammaPath_ne_alphaPath (K : Nat) (dir : String) :
    precacheGammaPath K dir ≠ precacheAlphaPath K dir := by
  simp [precacheGammaPath, precacheAlphaPath]

omit [RawElem F] in
theorem generateInto_eq {base : Nat} (h : s.generateInto c base n = .ok b) :
    b = itemsAt F K c s.seed1 s.pos1 s.seed2 s.pos2 s.fieldBytes s.partyId base n :=
  generateIntoFromState_eq h

/-- Every item below `n` lies in a chunk of the loop. -/
theorem exists_mem_stepBy {step i : Nat} (positive : 0 < step) (inside : i < n) :
    ∃ off ∈ stepBy n step, off ≤ i ∧ i < off + min (n - off) step := by
  refine ⟨i / step * step, ?_, Nat.div_mul_le_self i step, ?_⟩
  · refine List.mem_map.mpr ⟨i / step, List.mem_range.mpr ?_, rfl⟩
    rw [Nat.div_lt_iff_lt_mul positive]
    have upper : n ≤ (n + step - 1) / step * step := by
      have mod := Nat.div_add_mod (n + step - 1) step
      have small := Nat.mod_lt (n + step - 1) positive
      rw [Nat.mul_comm] at mod
      omega
    omega
  · have mod := Nat.div_add_mod i step
    have small := Nat.mod_lt i positive
    rw [Nat.mul_comm] at mod
    omega

variable {requested : Nat}

omit [Ring F] [RawElem (BitVec K)] in
theorem precacheChunkLen_pos (positive : 0 < requested) : 0 < precacheChunkLen F K requested := by
  unfold precacheChunkLen
  dsimp only
  omega

/-- A write of consecutive values of `f`, at the place where they belong. -/
theorem writeAt_values {α : Type} [RawElem α] {w : FileBackedWriter} {f : Nat → α}
    (h : w.writeAt d start ((List.range n).map fun i => f (start + i)) = .ok d')
    (room : FileHas α d w.path w.len) :
    FileHas α d' w.path w.len ∧ (∀ q, q ≠ w.path → d' q = d q) ∧
      (∀ e, start ≤ e → e < start + n → fileElem α d' w.path e = some (f e)) ∧
      ∀ e, ¬ (start ≤ e ∧ e < start + n) → fileElem α d' w.path e = fileElem α d w.path e := by
  obtain ⟨room', frame, set, kept⟩ := writeAt_ok h room
  refine ⟨room', frame, fun e low high => ?_, fun e outside => kept e ?_⟩
  · have value := set (e - start) (by simp; omega)
    simpa [Nat.add_sub_cancel' low] using value
  · simp only [List.length_map, List.length_range]
    omega

/-- What the chunk loop of `prepare_precache` establishes: both files have their size, other files
are untouched, and every element outside the chunks to come is the regenerated one. -/
structure ChunksDone (s : LazyEdaBits F K) (c : ChaCha) (dir : String) (requested chunkLen : Nat)
    (d₀ : Disk) (rest : List Nat) (d : Disk) : Prop where
  alphaFile : FileHas F d (precacheAlphaPath K dir) (requested * K)
  gammaFile : s.partyId = .ID0 → FileHas (BitVec K) d (precacheGammaPath K dir) requested
  frame : ∀ q, q ≠ precacheAlphaPath K dir → q ≠ precacheGammaPath K dir → d q = d₀ q
  alphas : ∀ e < requested * K,
    (∀ off ∈ rest, ¬ (off * K ≤ e ∧ e < off * K + min (requested - off) chunkLen * K)) →
    fileElem F d (precacheAlphaPath K dir) e =
      some (alpha1At K F c (interleavedSeed s.seed1 s.pos1 s.seed2 s.pos2 s.partyId).1
        (interleavedSeed s.seed1 s.pos1 s.seed2 s.pos2 s.partyId).2 s.fieldBytes (s.cursor * K + e))
  gammas : s.partyId = .ID0 → ∀ i < requested,
    (∀ off ∈ rest, ¬ (off ≤ i ∧ i < off + min (requested - off) chunkLen)) →
    fileElem (BitVec K) d (precacheGammaPath K dir) i =
      some (gammaAt K c s.seed1 s.pos1 s.seed2 s.pos2 s.fieldBytes .ID0 (s.cursor + i))

/-- One pass of the chunk loop: the chunk at `off` is done and the chunks before it stay. -/
theorem ChunksDone.step {chunkLen off : Nat} {d₀ : Disk} {rest : List Nat}
    (before : ChunksDone s c dir requested chunkLen d₀ (off :: rest) d)
    (h : s.precacheChunk c ⟨precacheAlphaPath K dir, requested * K⟩
      (if s.partyId = .ID0 then some ⟨precacheGammaPath K dir, requested⟩ else none)
      requested chunkLen d off = .ok d') : ChunksDone s c dir requested chunkLen d₀ rest d' := by
  unfold precacheChunk at h
  obtain ⟨batch, generated, h⟩ := bind_ok.mp h
  obtain ⟨d₁, alphaWritten, h⟩ := bind_ok.mp h
  obtain rfl : batch = s.regenerated c (s.cursor + off) (min (requested - off) chunkLen) :=
    generateInto_eq generated
  rw [regenerated_alphas] at alphaWritten
  obtain ⟨alphaFile, alphaFrame, alphaNew, alphaOld⟩ := writeAt_values alphaWritten before.alphaFile
  have apart := gammaPath_ne_alphaPath K dir
  -- the alpha elements do not depend on whether masks are written as well
  have alphas₁ : ∀ e < requested * K,
      (∀ o ∈ rest, ¬ (o * K ≤ e ∧ e < o * K + min (requested - o) chunkLen * K)) →
      fileElem F d₁ (precacheAlphaPath K dir) e = some (s.alphaBehind c e) := by
    intro e inside notLater
    by_cases here : off * K ≤ e ∧ e < off * K + min (requested - off) chunkLen * K
    · exact alphaNew e here.1 here.2
    · exact (alphaOld e here).trans (before.alphas e inside
        (List.forall_mem_cons.mpr ⟨here, notLater⟩))
  by_cases isP0 : s.partyId = .ID0
  · rw [if_pos isP0] at h
    have gammaWritten : FileBackedWriter.writeAt ⟨precacheGammaPath K dir, requested⟩ d₁ off
        (s.regenerated c (s.cursor + off) (min (requested - off) chunkLen)).gammas = .ok d' := h
    rw [regenerated_gammas] at gammaWritten
    obtain ⟨gammaFile, gammaFrame, gammaNew, gammaOld⟩ :=
      writeAt_values gammaWritten ((before.gammaFile isP0).congr (alphaFrame _ apart))
    have alphaSame := gammaFrame _ apart.symm
    refine ⟨alphaFile.congr alphaSame, fun _ => gammaFile, fun q notAlpha notGamma => ?_,
      fun e inside notLater => (fileElem_congr alphaSame e).trans (alphas₁ e inside notLater),
      fun _ i inside notLater => ?_⟩
    · exact (gammaFrame q notGamma).trans
        ((alphaFrame q notAlpha).trans (before.frame q notAlpha notGamma))
    · by_cases here : off ≤ i ∧ i < off + min (requested - off) chunkLen
      · rw [gammaNew i here.1 here.2, gammaBehind, isP0]
      · rw [gammaOld i here, fileElem_congr (alphaFrame _ apart) i]
        exact before.gammas isP0 i inside (List.forall_mem_cons.mpr ⟨here, notLater⟩)
  · rw [if_neg isP0] at h
    cases h
    exact ⟨alphaFile, fun yes => absurd yes isP0,
      fun q notAlpha notGamma => (alphaFrame q notAlpha).trans (before.frame q notAlpha notGamma),
        alphas₁,
      fun yes => absurd yes isP0⟩

/-- The disk with the files that `prepare_precache` makes before its loop. -/
def LazyEdaBits.precacheFiles (s : LazyEdaBits F K) (d : Disk) (dir : String) (requested : Nat) :
    Disk :=
  let d := (BackingStore.createFileBackedSized F d (precacheAlphaPath K dir) (requested * K)).2
  if s.partyId = .ID0 then
    (BackingStore.createFileBackedSized (BitVec K) d (precacheGammaPath K dir) requested).2
  else d.remove (precacheGammaPath K dir)

omit [Ring F] in
theorem precacheFiles_spec (s : LazyEdaBits F K) (d : Disk) (dir : String) (requested : Nat) :
    s.precacheFiles d dir requested (precacheAlphaPath K dir) =
      some (.data (setLen (requested * K * size F) [])) ∧
      (s.partyId = .ID0 → s.precacheFiles d dir requested (precacheGammaPath K dir) =
        some (.data (setLen (requested * size (BitVec K)) []))) ∧
      ∀ q, q ≠ precacheAlphaPath K dir → q ≠ precacheGammaPath K dir →
        s.precacheFiles d dir requested q = d q := by
  have ne := (gammaPath_ne_alphaPath K dir).symm
  by_cases isP0 : s.partyId = .ID0
  · simp only [precacheFiles, if_pos isP0]
    exact ⟨(set_ne _ ne).trans (set_same _ _ _), fun _ => set_same _ _ _,
      fun q notAlpha notGamma => (set_ne _ notGamma).trans (set_ne _ notAlpha)⟩
  · simp only [precacheFiles, if_neg isP0]
    exact ⟨(remove_ne ne).trans (set_same _ _ _), fun yes => absurd yes isP0,
      fun q notAlpha notGamma => (remove_ne notGamma).trans (set_ne _ notAlpha)⟩

/-- A request that is neither empty, nor too large, nor met already. -/
theorem preparePrecache_eq (wanted : ¬ (s.partyId = .ID2 ∨ requested = 0 ∨ s.remaining = 0))
    (available : ¬ s.remaining < requested) (unmatched : ¬ s.hasMatchingPrecache requested = true)
    (c : ChaCha) (d : Disk) (dir : String) : s.preparePrecache c d dir requested = (do
      let d₁ ← (stepBy requested (precacheChunkLen F K requested)).foldlM
        (s.precacheChunk c ⟨precacheAlphaPath K dir, requested * K⟩
          (if s.partyId = .ID0 then some ⟨precacheGammaPath K dir, requested⟩ else none)
          requested (precacheChunkLen F K requested)) (s.precacheFiles d dir requested)
      return ({ s with
          alphasFlatStore := .fileBacked (precacheAlphaPath K dir) (requested * K) 0
          gammaStore := if s.partyId = .ID0 then .fileBacked (precacheGammaPath K dir) requested 0
            else .empty
          storageMode := .p01Precache s.cursor requested },
        d₁.set (precacheMetaPath K dir)
          (.precacheMeta (s.currentPrecacheMeta s.cursor requested)))) := by
  unfold preparePrecache precacheFiles
  rw [if_neg wanted, if_neg available, if_neg unmatched]
  by_cases isP0 : s.partyId = .ID0
  · simp only [if_pos isP0]
    rfl
  · simp only [if_neg isP0]
    rfl

/-- `prepare_precache` clears the window, leaves a matching one alone, or writes the window of
the next `requested` items. -/
theorem preparePrecache_spec {s' : LazyEdaBits F K}
    (h : s.preparePrecache c d dir requested = .ok (s', d')) :
    (s', d') = s.clearPrecacheFiles d dir ∨ (s' = s ∧ d' = d) ∨
      (s.partyId ≠ .ID2 ∧ (0 < requested ∧ s.cursor + requested ≤ s.total) ∧
        (∃ gammaStore, s' = { s with
            alphasFlatStore := .fileBacked (precacheAlphaPath K dir) (requested * K) 0
            gammaStore := gammaStore
            storageMode := .p01Precache s.cursor requested } ∧
          gammaStore = if s.partyId = .ID0 then
            .fileBacked (precacheGammaPath K dir) requested 0 else .empty) ∧
        d' (precacheMetaPath K dir) =
          some (.precacheMeta (s.currentPrecacheMeta s.cursor requested)) ∧
        WindowRight F K c d' dir s.partyId (s.currentPrecacheMeta s.cursor requested) s.cursor ∧
        ∀ q, q ≠ precacheAlphaPath K dir → q ≠ precacheGammaPath K dir →
          q ≠ precacheMetaPath K dir → d' q = d q) := by
  by_cases wanted : s.partyId = .ID2 ∨ requested = 0 ∨ s.remaining = 0
  · rw [preparePrecache, if_pos wanted] at h
    exact Or.inl (Except.ok.inj h).symm
  by_cases few : s.remaining < requested
  · rw [preparePrecache, if_neg wanted, if_pos few] at h
    cases h
  by_cases matched : s.hasMatchingPrecache requested = true
  · rw [preparePrecache, if_neg wanted, if_neg few, if_pos matched] at h
    cases h
    exact Or.inr (Or.inl ⟨rfl, rfl⟩)
  rw [preparePrecache_eq wanted few matched] at h
  obtain ⟨d₁, written, last⟩ := bind_ok.mp h
  cases last
  have notP2 : s.partyId ≠ .ID2 := fun isP2 => wanted (Or.inl isP2)
  have positive : 0 < requested := Nat.pos_of_ne_zero fun zero => wanted (Or.inr (Or.inl zero))
  have available : s.cursor + requested ≤ s.total := by
    simp only [remaining] at few
    omega
  refine Or.inr (Or.inr ⟨notP2, ⟨positive, available⟩, ?_⟩)
  obtain ⟨alphaFile, gammaFile, frame⟩ := precacheFiles_spec s d dir requested
  have start : ChunksDone s c dir requested (precacheChunkLen F K requested)
    (s.precacheFiles d dir requested)
      (stepBy requested (precacheChunkLen F K requested)) (s.precacheFiles d dir requested) := by
    have step := @precacheChunkLen_pos F _ K requested positive
    refine ⟨⟨_, alphaFile, length_setLen _ _⟩, fun isP0 => ⟨_, gammaFile isP0, length_setLen _ _⟩,
      fun q _ _ => rfl, fun e inside notLater => ?_, fun _ i inside notLater => ?_⟩
    · have wide : 0 < K := Nat.pos_of_ne_zero fun zero => by
        subst zero
        omega
      have item : e / K < requested := Nat.div_lt_of_lt_mul (by rw [Nat.mul_comm]; exact inside)
      obtain ⟨off, member, low, high⟩ := exists_mem_stepBy step item
      refine absurd ⟨?_, ?_⟩ (notLater off member)
      · exact Nat.le_trans (Nat.mul_le_mul_right K low) (Nat.div_mul_le_self e K)
      · rw [← Nat.add_mul]
        calc e < (e / K + 1) * K := by rw [Nat.mul_comm]; exact Nat.lt_mul_div_succ e wide
          _ ≤ _ := Nat.mul_le_mul_right K high
    · obtain ⟨off, member, bounds⟩ := exists_mem_stepBy step inside
      exact absurd bounds (notLater off member)
  have done := foldlM_invariant (ChunksDone s c dir requested (precacheChunkLen F K requested) _)
    (fun _ _ _ _ before stepped => before.step stepped) start written
  refine ⟨⟨_, rfl, rfl⟩, set_same _ _ _, ?_, fun q notAlpha notGamma notMeta => ?_⟩
  · have right :
        WindowRight F K c d₁ dir s.partyId (s.currentPrecacheMeta s.cursor requested) s.cursor :=
      ⟨fun e _ high => done.alphas e high fun _ none_ => absurd none_ List.not_mem_nil,
        fun isP0 i _ high => done.gammas isP0 i high fun _ none_ => absurd none_ List.not_mem_nil⟩
    exact right.congr (set_ne _ (by simp [precacheAlphaPath, precacheMetaPath]))
      (set_ne _ (by simp [precacheGammaPath, precacheMetaPath]))
  · rw [set_ne _ notMeta, done.frame q notAlpha notGamma, frame q notAlpha notGamma]

end Prepare

section Reads

/-- The window a P0 or P1 source has loaded: it is the one on disk, made from the source's own
seeds, and right from the cursor on. -/
structure RuntimeWindow (c : ChaCha) (dir : String) (s : LazyEdaBits F K) (d : Disk)
    (m : EdaBitsPrecacheMeta) :
    Prop where
  found : d (precacheMetaPath K dir) = some (.precacheMeta m)
  mode : s.storageMode = .p01Precache m.startCursor m.len
  seeds : m.seed1 = s.seed1 ∧ m.pos1 = s.pos1 ∧ m.seed2 = s.seed2 ∧ m.pos2 = s.pos2 ∧
    m.fieldBytes = s.fieldBytes
  alphaStore : storePath s.alphasFlatStore = some (precacheAlphaPath K dir)
  gammaStore : s.partyId = .ID0 → storePath s.gammaStore = some (precacheGammaPath K dir)
  noGamma : s.partyId ≠ .ID0 → s.gammaStore = .empty
  right : WindowRight F K c d dir s.partyId m s.cursor

/-- Alphas read out of the window are the regenerated ones. -/
theorem RuntimeWindow.alphas_eq (w : RuntimeWindow c dir s d m) {first : Nat}
    (low : s.cursor ≤ first) (start : m.startCursor ≤ first)
    (stop : first + k ≤ m.startCursor + m.len) {xs : List F}
    (read : xs.map some = (List.range (k * K)).map fun e =>
      storedAt s.alphasFlatStore d ((first - m.startCursor) * K + e)) :
    xs = (s.regenerated c first k).alphasFlat := by
  obtain ⟨seed1, pos1, seed2, pos2, fieldBytes⟩ := w.seeds
  refine eq_of_stored read fun e small => ?_
  have behind : (s.cursor - m.startCursor) * K ≤ (first - m.startCursor) * K + e :=
    Nat.le_trans (Nat.mul_le_mul_right K (Nat.sub_le_sub_right low _)) (Nat.le_add_right _ _)
  have inside : (first - m.startCursor) * K + e < m.len * K := by
    calc (first - m.startCursor) * K + e < (first - m.startCursor) * K + k * K :=
             Nat.add_lt_add_left small _
      _ = (first - m.startCursor + k) * K := (Nat.add_mul _ _ _).symm
      _ ≤ m.len * K := Nat.mul_le_mul_right K (by omega)
  have flat : m.startCursor * K + ((first - m.startCursor) * K + e) = first * K + e := by
    rw [← Nat.add_assoc, ← Nat.add_mul, Nat.add_sub_cancel' start]
  rw [storedAt_of_path w.alphaStore, w.right.alphas _ behind inside, flat, seed1, pos1,
    seed2, pos2, fieldBytes]

/-- Masks read out of the window by P0 are the regenerated ones. -/
theorem RuntimeWindow.gammas_eq (w : RuntimeWindow c dir s d m) (isP0 : s.partyId = .ID0)
    {first : Nat} (low : s.cursor ≤ first) (start : m.startCursor ≤ first)
    (stop : first + k ≤ m.startCursor + m.len) {xs : List (BitVec K)}
    (read : xs.map some = (List.range k).map fun i =>
      storedAt s.gammaStore d (first - m.startCursor + i)) :
    xs = (s.regenerated c first k).gammas := by
  obtain ⟨seed1, pos1, seed2, pos2, fieldBytes⟩ := w.seeds
  have values : (s.regenerated c first k).gammas = (List.range k).map fun i =>
      gammaAt K c s.seed1 s.pos1 s.seed2 s.pos2 s.fieldBytes .ID0 (first + i) := by
    simp only [regenerated, itemsAt, isP0]
  rw [values]
  refine eq_of_stored read fun i small => ?_
  have index : m.startCursor + (first - m.startCursor + i) = first + i := by omega
  rw [storedAt_of_path (w.gammaStore isP0), w.right.gammas isP0 _ (by omega) (by omega),
    index, seed1, pos1, seed2, pos2, fieldBytes]

omit [RawElem F] in
theorem regenerated_gammas_zero {base : Nat} (notP0 : s.partyId ≠ .ID0) :
    (s.regenerated c base n).gammas = List.replicate n 0 := by
  simp only [regenerated, itemsAt, gammaAt, if_neg notP0]
  simp

variable {os : Os}

/-- What `fill_precache_into` serves is a prefix of what regeneration gives. -/
theorem RuntimeWindow.fillPrecacheInto_eq (w : RuntimeWindow c dir s d m) (notP2 : s.partyId ≠ .ID2)
    (h : s.fillPrecacheInto os d s.cursor n = .ok (b, ws)) :
    ∃ k ≤ n, b = s.regenerated c s.cursor k := by
  simp only [fillPrecacheInto, w.mode] at h
  split at h
  · cases h
    exact ⟨0, Nat.zero_le n, by simp [regenerated, itemsAt]⟩
  have start : m.startCursor ≤ s.cursor := by omega
  refine ⟨min (m.startCursor + m.len - s.cursor) n, Nat.min_le_right _ _, ?_⟩
  have stop : s.cursor + min (m.startCursor + m.len - s.cursor) n ≤ m.startCursor + m.len := by
    omega
  obtain ⟨⟨alphas, alphaWrites⟩, tookAlpha, rest⟩ := bind_ok.mp h
  obtain ⟨readAlpha, rfl⟩ := takeStoreRangeInto_ok (unwrapOrPanic_ok.mp tookAlpha)
  have stored := readConsumeIntoSlice_stored readAlpha
  rw [Nat.add_sub_cancel_left] at stored
  have alphasEq := w.alphas_eq (Nat.le_refl _) start stop stored
  cases party : s.partyId with
  | ID0 =>
    simp only [party] at rest
    obtain ⟨⟨gammas, gammaWrites⟩, tookGamma, last⟩ := bind_ok.mp rest
    obtain ⟨readGamma, rfl⟩ := takeStoreRangeInto_ok (unwrapOrPanic_ok.mp tookGamma)
    cases last
    -- the masks are read after the alphas were reclaimed, from another file
    have apart : storePath s.alphasFlatStore ≠ some (precacheGammaPath K dir) := by
      rw [w.alphaStore]
      simp [precacheGammaPath, precacheAlphaPath]
    have storedGamma := readConsumeIntoSlice_stored readGamma
    rw [Nat.add_sub_cancel_left] at storedGamma
    have unchanged : ∀ e, storedAt s.gammaStore (d.applyAll (s.alphasFlatStore.consume os
        ((s.cursor - m.startCursor) * K) ((s.cursor - m.startCursor) * K +
          min (m.startCursor + m.len - s.cursor) n * K))) e = storedAt s.gammaStore d e := by
      intro e
      apply storedAt_applyAll
      intro path own wr member
      rw [w.gammaStore party] at own
      cases own
      exact spares_of_mem_consume_other member apart
    simp only [unchanged] at storedGamma
    rw [alphasEq, w.gammas_eq party (Nat.le_refl _) start stop storedGamma]
  | ID1 =>
    simp only [party] at rest
    cases rest
    have zeros : (s.regenerated c s.cursor (min (m.startCursor + m.len - s.cursor) n)).gammas =
        List.replicate _ 0 :=
      regenerated_gammas_zero (by simp [party])
    rw [alphasEq, ← zeros]
  | ID2 => exact absurd party notP2

/-- Without a window nothing is served from it. -/
theorem fillPrecacheInto_of_none (c : ChaCha) (mode : s.storageMode = .none)
    (h : s.fillPrecacheInto os d s.cursor n = .ok (b, ws)) :
    ∃ k ≤ n, b = s.regenerated c s.cursor k := by
  simp only [fillPrecacheInto, mode] at h
  cases h
  exact ⟨0, Nat.zero_le n, by simp [regenerated, itemsAt]⟩

/-- A take splices what the window serves with regenerated items; if the former is a prefix of
the regenerated items, so is the whole. -/
theorem takeBatch_regenerated {s' : LazyEdaBits F K} (notP2 : s.partyId ≠ .ID2)
    (served : ∀ b ws, s.fillPrecacheInto os d s.cursor n = .ok (b, ws) →
      ∃ k ≤ n, b = s.regenerated c s.cursor k) (h : s.takeBatch c os d n = .ok (b, s', ws)) :
    b = s.regenerated c s.cursor n := by
  unfold LazyEdaBits.takeBatch at h
  obtain ⟨_, -, h⟩ := bind_ok.mp h
  split at h
  · rename_i zero
    cases h
    simp [regenerated, itemsAt, zero]
  obtain ⟨⟨cached, writes⟩, filled, h⟩ := bind_ok.mp h
  obtain ⟨rest, generated, last⟩ := bind_ok.mp h
  cases last
  obtain ⟨k, le, rfl⟩ := served _ _ filled
  have length : (s.regenerated c s.cursor k).gammas.length = k := by simp [regenerated, itemsAt]
  rw [length] at generated
  rw [generateInto_eq generated]
  exact itemsAt_append le

end Reads

section Views

open EdaBitsRangeView

/-- What a view reads from its stores for the `k` items the window covers. -/
structure ServedFromCache (v : EdaBitsRangeView F K) (d : Disk) (k : Nat) (b : EdaBitsBatch F K) :
    Prop where
  alphas : 0 < k → readView v.alphaView d ((v.startCursor - v.storeStartCursor) * K)
    ((v.startCursor - v.storeStartCursor) * K + k * K) (k * K) = .ok b.alphasFlat
  gammas : 0 < k → v.partyId = .ID0 → readView v.gammaView d (v.startCursor - v.storeStartCursor)
    (v.startCursor - v.storeStartCursor + k) k = .ok b.gammas
  zeros : v.partyId ≠ .ID0 → b.gammas = List.replicate k 0
  nothing : k = 0 → b = ⟨[], []⟩

variable {v : EdaBitsRangeView F K} {len : Nat}

omit [Ring F] in
theorem fillFromCache_served (h : v.fillFromCache d k = .ok b) : ServedFromCache v d k b := by
  unfold fillFromCache at h
  split at h
  · rename_i zero
    cases h
    subst zero
    exact ⟨fun positive => absurd positive (Nat.lt_irrefl 0),
      fun positive => absurd positive (Nat.lt_irrefl 0), fun _ => rfl, fun _ => rfl⟩
  rename_i nonzero
  obtain ⟨alphas, readAlpha, read⟩ := bind_ok.mp h
  cases party : v.partyId with
  | ID0 =>
    simp only [party] at read
    obtain ⟨gammas, readGamma, last⟩ := bind_ok.mp read
    cases last
    exact ⟨fun _ => readAlpha, fun _ _ => readGamma, fun notP0 => absurd party notP0,
      fun zero => absurd zero nonzero⟩
  | ID1 | ID2 =>
    simp only [party] at read
    cases read
    exact ⟨fun _ =>
      readAlpha, fun _ isP0 => by
      simp [party] at isP0, fun _ => rfl, fun zero => absurd zero nonzero⟩

omit [RawElem (BitVec K)] [Ring F] [RawElem F] in
/-- The number of items a view finds in its window. -/
theorem cachedItems_ok (h : v.cachedItems = .ok k) :
    k ≤ v.len ∧ (0 < k → v.cachedStartCursor ≤ v.startCursor ∧
      v.startCursor + k ≤ v.cachedStartCursor + v.cachedLen) := by
  unfold cachedItems at h
  split at h
  · cases h
    omega
  split at h
  · cases h
  · cases h
    omega

theorem readView_stored {α : Type} [RawElem α] {view : Option (BackingStore α)}
    {store : BackingStore α} {xs : List α} (own : ∀ other, view = some other → other = store)
    (h : readView view d start (start + n) n = .ok xs) :
    xs.map some = (List.range n).map fun i => storedAt store d (start + i) := by
  unfold readView at h
  split at h
  · rename_i other
    have stored := readIntoSlice_stored h
    rw [own other rfl, Nat.add_sub_cancel_left] at stored
    exact stored
  · cases h

/-- A view of P0 or P1 whose cached part is a prefix of the regenerated items gives the
regenerated items. -/
theorem fillInto_regenerated
    (seeds : v.seed1 = s.seed1 ∧ v.pos1 = s.pos1 ∧ v.seed2 = s.seed2 ∧ v.pos2 = s.pos2 ∧
      v.fieldBytes = s.fieldBytes ∧ v.partyId = s.partyId)
    (served : ∀ k cached, v.cachedItems = .ok k → ServedFromCache v d k cached →
      cached = s.regenerated c v.startCursor k) (notP2 : s.partyId ≠ .ID2)
    (h : v.fillInto c d = .ok b) :
    b = s.regenerated c v.startCursor v.len := by
  obtain ⟨seed1, pos1, seed2, pos2, fieldBytes, party⟩ := seeds
  unfold fillInto at h
  split at h
  · rename_i zero
    cases h
    simp [regenerated, itemsAt, zero]
  obtain ⟨k, counted, h⟩ := bind_ok.mp h
  obtain ⟨cached, read, h⟩ := bind_ok.mp h
  obtain ⟨le, -⟩ := cachedItems_ok counted
  have cachedEq := served k cached counted (fillFromCache_served read)
  rw [party] at h
  split at h
  · obtain ⟨rest, generated, last⟩ := bind_ok.mp h
    cases last
    rw [generateIntoFromState_eq generated, cachedEq, seed1, pos1, seed2, pos2, fieldBytes]
    exact itemsAt_append le
  · cases h
    rw [cachedEq, show k = v.len by omega]

omit [Ring F] [RawElem F] [RawElem (BitVec K)] in
/-- What every reservation takes over from the source. -/
theorem reserveRange_root (h : s.reserveRange n = .ok r) :
    r.root.startCursor = s.cursor ∧ r.root.seed1 = s.seed1 ∧ r.root.pos1 = s.pos1 ∧
      r.root.seed2 = s.seed2 ∧
      r.root.pos2 = s.pos2 ∧ r.root.fieldBytes = s.fieldBytes ∧ r.root.partyId = s.partyId := by
  unfold reserveRange at h
  obtain ⟨_, -, h⟩ := bind_ok.mp h
  split at h <;> cases h <;> exact ⟨rfl, rfl, rfl, rfl, rfl, rfl, rfl⟩

omit [Ring F] [RawElem F] [RawElem (BitVec K)] in
theorem reserveRange_window (mode : s.storageMode = .p01Precache start len)
    (h : s.reserveRange n = .ok r) :
    r.root.cachedStartCursor = start ∧ r.root.cachedLen = len ∧ r.root.storeStartCursor = start ∧
      (∀ store, r.root.alphaView = some store → store = s.alphasFlatStore) ∧
      ∀ store, r.root.gammaView = some store → store = s.gammaStore := by
  unfold reserveRange at h
  obtain ⟨_, -, h⟩ := bind_ok.mp h
  simp only [mode] at h
  cases h
  refine ⟨rfl, rfl, rfl, fun store view => ?_, fun store view => ?_⟩
  · exact (Option.some.inj (Option.ite_none_right_eq_some.mp view).2).symm
  · exact (Option.some.inj (Option.ite_none_right_eq_some.mp view).2).symm

/-- A reserved range of P0 or P1, filled piecewise from the window and the seeds. -/
theorem RuntimeWindow.fillInto_eq (w : RuntimeWindow c dir s d m) (notP2 : s.partyId ≠ .ID2)
    (reserved : s.reserveRange n = .ok r) (h : (r.rangeView start len).fillInto c d = .ok b) :
    b = s.regenerated c (s.cursor + start) len := by
  obtain ⟨cursor, seeds⟩ := reserveRange_root reserved
  obtain ⟨windowStart, windowLen, storeStart, alphaView, gammaView⟩ :=
    reserveRange_window w.mode reserved
  have first : (r.rangeView start len).startCursor = s.cursor + start := by
    simp only [EdaBitsReservation.rangeView, cursor]
  rw [← first]
  refine fillInto_regenerated seeds (fun k cached counted fromCache => ?_) notP2 h
  obtain ⟨-, inWindow⟩ := cachedItems_ok counted
  rcases Nat.eq_zero_or_pos k with rfl | positive
  · rw [fromCache.nothing rfl]
    simp [regenerated, itemsAt]
  obtain ⟨low, high⟩ := inWindow positive
  have behind : s.cursor ≤ (r.rangeView start len).startCursor := by omega
  have store : (r.rangeView start len).storeStartCursor = m.startCursor := storeStart
  replace low : m.startCursor ≤ (r.rangeView start len).startCursor := windowStart ▸ low
  replace high : (r.rangeView start len).startCursor + k ≤ m.startCursor + m.len := by
    rw [← windowStart, ← windowLen]
    exact high
  have alphas :
      cached.alphasFlat = (s.regenerated c (r.rangeView start len).startCursor k).alphasFlat := by
    have read := fromCache.alphas positive
    rw [store] at read
    exact w.alphas_eq behind low high (readView_stored alphaView read)
  have gammas : cached.gammas = (s.regenerated c (r.rangeView start len).startCursor k).gammas := by
    by_cases isP0 : s.partyId = .ID0
    · have read := fromCache.gammas positive (seeds.2.2.2.2.2.trans isP0)
      rw [store] at read
      exact w.gammas_eq isP0 behind low high (readView_stored gammaView read)
    · have notP0 : (r.rangeView start len).partyId ≠ .ID0 :=
        fun yes => isP0 (seeds.2.2.2.2.2.symm.trans yes)
      rw [fromCache.zeros notP0, regenerated_gammas_zero isP0]
  calc cached = ⟨cached.gammas, cached.alphasFlat⟩ := rfl
    _ = s.regenerated c (r.rangeView start len).startCursor k := by rw [alphas, gammas]

/-- Without a window everything is regenerated. -/
theorem fillInto_regenerated_of_none (notP2 : s.partyId ≠ .ID2) (mode : s.storageMode = .none)
    (reserved : s.reserveRange n = .ok r) (h : (r.rangeView start len).fillInto c d = .ok b) :
    b = s.regenerated c (s.cursor + start) len := by
  obtain ⟨cursor, seeds⟩ := reserveRange_root reserved
  have first : (r.rangeView start len).startCursor = s.cursor + start := by
    simp only [EdaBitsReservation.rangeView, cursor]
  have noWindow : (r.rangeView start len).cachedLen = 0 := by
    unfold reserveRange at reserved
    obtain ⟨_, -, reserved⟩ := bind_ok.mp reserved
    simp only [mode] at reserved
    cases reserved
    rfl
  rw [← first]
  refine fillInto_regenerated seeds (fun k cached counted fromCache => ?_) notP2 h
  have zero : k = 0 := by
    simp only [cachedItems, noWindow] at counted
    exact (Except.ok.inj counted).symm
  subst zero
  rw [fromCache.nothing rfl]
  simp [regenerated, itemsAt]

end Views

end ProviaVM.Preprocessing
