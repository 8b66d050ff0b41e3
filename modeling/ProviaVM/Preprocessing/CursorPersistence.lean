import ProviaVM.Preprocessing.Consumption

/-! # The cursor across restarts

One system is a lazy source of any of the six kinds with its disk. It saves to
directories, takes batches and restarts by loading the directory it saved to last; a
restart may or may not run `Drop`. The result says in which runs the reloaded
cursor is the cursor the source had in memory, so that no element is handed out
twice and parties that took the same amounts still agree. -/
namespace ProviaVM.Preprocessing
open ByteFile RawElem LazySource Run Disk

def cursorAt (d : Disk) (p : Path) : Option Nat :=
  match d p with
  | some (.header m) => some m.cursor
  | _ => none

variable {d : Disk} {p : Path} {v : Nat}

theorem cursorAt_header {m : MetaData} (h : d p = some (.header m)) :
    cursorAt d p = some m.cursor := by
  simp [cursorAt, h]

theorem cursorAt_some (h : cursorAt d p = some v) : ∃ m, d p = some (.header m) ∧ m.cursor = v := by
  unfold cursorAt at h
  split at h
  · rename_i m found
    exact ⟨m, found, by simpa using h⟩
  · cases h

theorem cursorAt_congr {e : Disk} (h : d p = e p) : cursorAt d p = cursorAt e p := by
  simp [cursorAt, h]

theorem cursorAt_onlyReclaims {ws : List Write} (only : OnlyReclaims ws)
    (h : cursorAt d p = some v) :
    cursorAt (d.applyAll ws) p = some v := by
  have keeps : ∀ w ∈ ws, ∀ e : Disk, cursorAt e p = some v → cursorAt (e.apply w) p = some v := by
    intro w member e held
    obtain ⟨path, off, len, rfl⟩ := only w member
    obtain ⟨m, found, same⟩ := cursorAt_some held
    exact (cursorAt_header (zeroBytes_meta.mpr found)).trans (congrArg some same)
  exact applyAll_invariant keeps h

theorem cursorAt_persistTo {c : Nat} {mp : Option Path} (h : cursorAt d p = some v) :
    cursorAt (d.applyAll (persistTo mp c)) p = some (if mp = some p then c else v) := by
  cases mp with
  | none => simpa [persistTo] using h
  | some q =>
    obtain ⟨m, found, same⟩ := cursorAt_some h
    by_cases here : q = p
    · subst here
      simp only [if_true]
      exact cursorAt_header (updateCursor_same c found)
    · have different : p ≠ q := fun eq => here eq.symm
      simp only [persistTo, applyAll_singleton, Disk.apply, Option.some.injEq, here]
      rw [cursorAt_congr (updateCursor_ne c different)]
      exact h

theorem cursorAt_persistTo_same {c : Nat} {mp : Option Path} (h : cursorAt d p = some c) :
    cursorAt (d.applyAll (persistTo mp c)) p = some c := by
  rw [cursorAt_persistTo h, ite_self]

namespace LazyEdaBits

variable {F : Type} [RawElem F] {K : Nat} [RawElem (BitVec K)]

omit [RawElem F] [RawElem (BitVec K)] in
theorem clearPrecacheFiles_frame (s : LazyEdaBits F K) (d : Disk) (dir : String) :
    (∃ a m g, (s.clearPrecacheFiles d dir).1 =
      { s with alphasFlatStore := a, storageMode := m, gammaStore := g }) ∧
    ∀ q, (∃ k, q.name = .edabitsMeta k) → (s.clearPrecacheFiles d dir).2 q = d q := by
  unfold clearPrecacheFiles clearPrecacheRuntime
  split
  · exact ⟨⟨_, _, _, rfl⟩, fun _ _ => rfl⟩
  · refine ⟨⟨_, _, _, rfl⟩, ?_⟩
    rintro ⟨qdir, qname⟩ ⟨k, rfl : qname = _⟩
    dsimp only
    rw [remove_ne (by simp [precacheMetaPath]), remove_ne (by simp [precacheGammaPath]),
      remove_ne (by simp [precacheAlphaPath])]

/-- Everything a successful `load_precache` can have done at P0 or P1: no header, a cleared
precache, or a header that matched and two files of its length. -/
theorem loadPrecache_cases {s s' : LazyEdaBits F K} {d d' : Disk} {dir : String}
    (notP2 : s.partyId ≠ .ID2) (h : s.loadPrecache d dir = .ok (s', d')) :
    (d (precacheMetaPath K dir) = none ∧ s' = s ∧ d' = d) ∨
      (∃ a, (s', d') = { s with alphasFlatStore := a }.clearPrecacheFiles d dir) ∨
      ∃ m alphas gammas, d (precacheMetaPath K dir) = some (.precacheMeta m) ∧
        s.precacheMetaMatches m m.len s.cursor = true ∧
        BackingStore.loadFromFile F d (precacheAlphaPath K dir) = .ok alphas ∧
          m.len * K ≤ alphas.len ∧
        (s.partyId = .ID0 → BackingStore.loadFromFile (BitVec K) d (precacheGammaPath K dir) =
          .ok gammas ∧
          m.len ≤ gammas.len) ∧
        (s.partyId ≠ .ID0 → gammas = .empty) ∧
        s' = { s with
          alphasFlatStore := alphas
          gammaStore := gammas
          storageMode := .p01Precache m.startCursor m.len } ∧ d' = d := by
  unfold loadPrecache at h
  rw [if_neg notP2] at h
  split at h
  · rename_i missing
    cases h
    exact Or.inl ⟨missing, rfl, rfl⟩
  · rename_i m found
    split at h
    · exact Or.inr (Or.inl ⟨_, (Except.ok.inj h).symm⟩)
    rename_i differs
    have matches_ : s.precacheMetaMatches m m.len s.cursor = true := by simpa using differs
    split at h
    · exact Or.inr (Or.inl ⟨_, (Except.ok.inj h).symm⟩)
    obtain ⟨alphas, loadedAlpha, h⟩ := bind_ok.mp h
    split at h
    · exact Or.inr (Or.inl ⟨_, (Except.ok.inj h).symm⟩)
    split at h
    · split at h
      · exact Or.inr (Or.inl ⟨_, (Except.ok.inj h).symm⟩)
      obtain ⟨gammas, loadedGamma, h⟩ := bind_ok.mp h
      split at h
      · exact Or.inr (Or.inl ⟨_, (Except.ok.inj h).symm⟩)
      cases h
      exact Or.inr (Or.inr ⟨m, alphas, gammas, found, matches_, loadedAlpha, by omega,
        fun _ => ⟨loadedGamma, by omega⟩, fun notP0 => absurd ‹_› notP0, rfl, rfl⟩)
    · rename_i notP0
      cases h
      exact Or.inr (Or.inr ⟨m, alphas, .empty, found, matches_, loadedAlpha, by omega,
        fun isP0 => absurd isP0 notP0, fun _ => rfl, rfl, rfl⟩)
  · exact Or.inr (Or.inl ⟨_, (Except.ok.inj h).symm⟩)

/-- Loading a precache changes only the runtime precache fields and the precache files. -/
theorem loadPrecache_frame {s s' : LazyEdaBits F K} {d d' : Disk} {dir : String}
    (h : s.loadPrecache d dir = .ok (s', d')) :
    (∃ a m g, s' = { s with alphasFlatStore := a, storageMode := m, gammaStore := g }) ∧
    ∀ q, (∃ k, q.name = .edabitsMeta k) → d' q = d q := by
  by_cases isP2 : s.partyId = .ID2
  · unfold loadPrecache at h
    rw [if_pos isP2] at h
    cases h
    exact ⟨⟨_, _, _, rfl⟩, fun _ _ => rfl⟩
  rcases loadPrecache_cases isP2 h with ⟨-, rfl, rfl⟩ | ⟨a, cleared⟩ | ⟨m, alphas, gammas,
    -, -, -, -, -, -, rfl, rfl⟩
  · exact ⟨⟨_, _, _, rfl⟩, fun _ _ => rfl⟩
  · obtain ⟨⟨a', mode, g, same⟩, frame⟩ :=
      clearPrecacheFiles_frame { s with alphasFlatStore := a } d dir
    rw [← cleared] at same frame
    exact ⟨⟨a', mode, g, same⟩, frame⟩
  · exact ⟨⟨_, _, _, rfl⟩, fun _ _ => rfl⟩

end LazyEdaBits

namespace LazySource

variable {F C : Type} {K : Nat} {d : Disk}

/-- `Drop` writes at most the cursor the source has in memory. -/
theorem cursorAt_drop {src : LazySource F C K} {p : Path}
    (recorded : cursorAt d p = some src.cursor) :
    cursorAt (d.applyAll src.drop) p = some src.cursor := by
  cases src with
  | edaBits s => exact cursorAt_persistTo_same recorded
  | daBits s => exact cursorAt_persistTo_same recorded
  | randOhvs s => exact cursorAt_persistTo_same recorded
  | edaBitsRing s => exact recorded
  | wrapMasks s => exact recorded
  | daPoints s => exact recorded

variable [RawElem F] [RawElem C] [RawElem (BitVec K)]

/-- The kinds whose `save` takes `&mut self` and records the metadata path. -/
def saveRecordsPath : SourceKind → Bool
  | .randOhvs | .daPoints => false
  | _ => true

/-- A save leaves the source's cursor in the metadata file of the directory. -/
theorem save_spec {d' : Disk} {dir : String} {s s' : LazySource F C K}
    (h : s.save d dir = .ok (s', d')) :
    s'.cursor = s.cursor ∧ s'.kind = s.kind ∧ s'.partyId = s.partyId ∧
      cursorAt d' (metaFile K s.kind dir) = some s.cursor ∧
      s'.metaPath = if saveRecordsPath s.kind then some (metaFile K s.kind dir)
        else s.metaPath := by
  cases s with
  | edaBits | edaBitsRing | daBits | wrapMasks | daPoints =>
    obtain ⟨⟨t, e⟩, saved, last⟩ := bind_ok.mp h
    obtain ⟨d₁, -, done⟩ := bind_ok.mp saved
    cases done
    cases last
    exact ⟨rfl, rfl, rfl, cursorAt_header (set_same _ _ _), rfl⟩
  | randOhvs s =>
    obtain ⟨⟨t, e⟩, saved, last⟩ := bind_ok.mp h
    simp only [LazyRandOhvs.save, bind_ok] at saved
    obtain ⟨d₁, -, d₂, -, d₃, -, d₄, -, done⟩ := saved
    cases done
    cases last
    exact ⟨rfl, rfl, rfl, cursorAt_header (set_same _ _ _), rfl⟩

/-- A load of a directory with a metadata file restores the recorded cursor and records
the metadata path. -/
theorem load_spec {kind : SourceKind} {d' : Disk} {dir : String} {partyId : PartyID} {v : Nat}
    {s' : LazySource F C K} (recorded : cursorAt d (metaFile K kind dir) = some v)
    (h : load F C K kind d dir partyId = .ok (s', d')) :
    s'.cursor = v ∧ s'.kind = kind ∧ s'.partyId = partyId ∧
      s'.metaPath = some (metaFile K kind dir) ∧ cursorAt d' (metaFile K kind dir) = some v := by
  obtain ⟨m, found, same⟩ := cursorAt_some recorded
  cases kind with
  | edaBits =>
    obtain ⟨⟨t, e⟩, loaded, last⟩ := bind_ok.mp h
    simp only [LazyEdaBits.load, bind_ok] at loaded
    obtain ⟨m', header, _, -, ⟨store, mode⟩, -, loaded⟩ := loaded
    obtain rfl := readMeta_unique found header
    obtain ⟨⟨a, md, g, rfl⟩, frame⟩ := LazyEdaBits.loadPrecache_frame loaded
    cases last
    exact ⟨same, rfl, rfl, rfl, (cursorAt_congr (frame _ ⟨_, rfl⟩)).trans recorded⟩
  | edaBitsRing =>
    obtain ⟨t, loaded, last⟩ := bind_ok.mp h
    simp only [LazyEdaBitsRing.load, show d (LazyEdaBitsRing.metaFile K dir) = _ from found,
      reduceCtorEq, if_false, bind_ok] at loaded
    obtain ⟨m', header, _, -, store, -, done⟩ := loaded
    obtain rfl := readMeta_unique found header
    cases done
    cases last
    exact ⟨same, rfl, rfl, rfl, recorded⟩
  | daBits =>
    obtain ⟨t, loaded, last⟩ := bind_ok.mp h
    simp only [LazyDaBits.load, bind_ok] at loaded
    obtain ⟨m', header, _, -, store, -, done⟩ := loaded
    obtain rfl := readMeta_unique found header
    cases done
    cases last
    exact ⟨same, rfl, rfl, rfl, recorded⟩
  | randOhvs =>
    obtain ⟨t, loaded, last⟩ := bind_ok.mp h
    simp only [LazyRandOhvs.load, show d (LazyRandOhvs.metaFile dir) = _ from found, reduceCtorEq,
      if_false, bind_ok] at loaded
    obtain ⟨m', header, _, -, rA, -, rB, -, eA, -, eB, -, done⟩ := loaded
    obtain rfl := readMeta_unique found header
    cases done
    cases last
    exact ⟨same, rfl, rfl, rfl, recorded⟩
  | wrapMasks =>
    obtain ⟨t, loaded, last⟩ := bind_ok.mp h
    simp only [LazyWrapMasks.load, show d (LazyWrapMasks.metaFile dir) = _ from found,
      reduceCtorEq, if_false, bind_ok] at loaded
    obtain ⟨m', header, _, -, store, -, done⟩ := loaded
    obtain rfl := readMeta_unique found header
    cases done
    cases last
    exact ⟨same, rfl, rfl, rfl, recorded⟩
  | daPoints =>
    obtain ⟨t, loaded, last⟩ := bind_ok.mp h
    simp only [LazyDaPoints.load, show d (LazyDaPoints.metaFile dir) = _ from found] at loaded
    obtain ⟨m', header, loaded⟩ := bind_ok.mp loaded
    obtain rfl := readMeta_unique found header
    obtain ⟨_, -, loaded⟩ := bind_ok.mp loaded
    have fields : t.cursor = m.cursor ∧ t.partyId = partyId ∧
        t.metaPath = some (LazyDaPoints.metaFile dir) := by
      split at loaded
      · cases loaded
        exact ⟨rfl, rfl, rfl⟩
      split at loaded
      · split at loaded
        · cases loaded
          exact ⟨rfl, rfl, rfl⟩
        · cases loaded
      · obtain ⟨alphas, -, done⟩ := bind_ok.mp loaded
        cases done
        exact ⟨rfl, rfl, rfl⟩
    cases last
    exact ⟨fields.1.trans same, rfl, fields.2.1, fields.2.2, recorded⟩

/-- The metadata cursor after a persisted take, in terms of the one before it. -/
theorem cursorAt_takeWrites {src : LazySource F C K} {os : Os} {n : Nat} {p : Path} {v : Nat}
    (recorded : cursorAt d p = some v) : cursorAt (d.applyAll (src.takeWrites os n)) p =
      some (if src.persistsOnTake n = true ∧ src.metaPath = some p then src.cursor + n else v) := by
  rw [takeWrites_eq, Disk.applyAll_append]
  apply cursorAt_onlyReclaims (onlyReclaims_reclaimLast os n src)
  have first := cursorAt_onlyReclaims (onlyReclaims_reclaimFirst os n src) recorded
  cases persists : src.persistsOnTake n with
  | false => simpa using first
  | true => simpa using cursorAt_persistTo first

end LazySource

/-- What a driver does with one source: save it, take from it, or restart from the last directory. A
killed process does not run `Drop`. -/
inductive CursorOp where
  | save (dir : String)
  | take (os : Os) (n : Nat)
  | reload (dropRuns : Bool)

/-- A source with its disk, the directory of the last save, and the index ranges (start, length)
handed out since the first save, latest first. -/
structure CursorSys (F C : Type) (K : Nat) where
  src : LazySource F C K
  disk : Disk
  savedDir : Option String
  handedOut : List (Nat × Nat)

namespace CursorSys

variable {F C : Type} {K : Nat}

/-- A take that hands out elements after a save is persisted: the kind writes its cursor at this
party, to the metadata file of the saved directory. -/
def PersistedTake (s : CursorSys F C K) : CursorOp → Prop
  | .take _ n => ∀ dir, s.savedDir = some dir → 0 < n →
      s.src.persistsOnTake n = true ∧ s.src.metaPath = some (LazySource.metaFile K s.src.kind dir)
  | _ => True

/-- The amounts the takes of an operation list ask for. -/
def takeSizes : List CursorOp → Nat
  | [] => 0
  | .take _ n :: ops => n + takeSizes ops
  | _ :: ops => takeSizes ops

/-- After a save, the saved directory holds the cursor, and everything handed out so far
lies below it in disjoint ranges. -/
structure Persisted (s : CursorSys F C K) : Prop where
  recorded : ∀ dir, s.savedDir = some dir →
    cursorAt s.disk (LazySource.metaFile K s.src.kind dir) = some s.src.cursor
  below : ∀ r ∈ s.handedOut, r.1 + r.2 ≤ s.src.cursor
  disjoint : s.handedOut.Pairwise fun later earlier => earlier.1 + earlier.2 ≤ later.1

variable {s : CursorSys F C K} {c : ChaCha} {s' : CursorSys F C K}

theorem persisted_of_unsaved (unsaved : s.savedDir = none) (nothing : s.handedOut = []) :
    Persisted s := by
  refine ⟨?_, ?_, ?_⟩
  · intro dir saved
    rw [unsaved] at saved
    cases saved
  · rw [nothing]
    intro r member
    cases member
  · rw [nothing]
    exact List.Pairwise.nil

theorem Persisted.recorded_at_reload (h : Persisted s) {dir : String}
    (saved : s.savedDir = some dir) (dropRuns : Bool) :
    cursorAt (if dropRuns then s.disk.applyAll s.src.drop else s.disk)
      (LazySource.metaFile K s.src.kind dir) = some s.src.cursor := by
  split
  · exact LazySource.cursorAt_drop (h.recorded dir saved)
  · exact h.recorded dir saved

/-- The kinds and parties that write their cursor on every take and whose `save` records the path:
`LazyEdaBits`, `LazyWrapMasks`, `LazyDaBits` at P0 and P2, `LazyEdaBitsRing` at P2. -/
def alwaysPersists : LazySource F C K → Bool
  | .edaBits _ | .wrapMasks _ => true
  | .daBits s => s.partyId != .ID1
  | .edaBitsRing s => s.partyId == .ID2
  | .randOhvs _ | .daPoints _ => false

theorem alwaysPersists_congr {src src' : LazySource F C K} (kind : src'.kind = src.kind)
    (party : src'.partyId = src.partyId) : alwaysPersists src' = alwaysPersists src := by
  cases src <;> cases src' <;>
    simp_all [LazySource.kind, LazySource.partyId, alwaysPersists]

/-- The recorded metadata path is the one of the saved directory. -/
def PathRecorded (s : CursorSys F C K) : Prop :=
  ∀ dir, s.savedDir = some dir → s.src.metaPath = some (LazySource.metaFile K s.src.kind dir)

theorem persistedTake_of_alwaysPersists (always : alwaysPersists s.src = true)
    (path : PathRecorded s) (op : CursorOp) :
    s.PersistedTake op := by
  cases op with
  | save dir => trivial
  | reload dropRuns => trivial
  | take os n =>
    intro dir saved positive
    refine ⟨?_, path dir saved⟩
    have nonzero : n ≠ 0 := by omega
    cases src : s.src <;> simp_all [alwaysPersists, persistsOnTake]

variable [RawElem F] [RawElem C] [RawElem (BitVec K)] [Ring F] [Zero C]

def step (c : ChaCha) (s : CursorSys F C K) : CursorOp → Except IoError (CursorSys F C K)
  | .save dir => do
    let (src, disk) ← s.src.save s.disk dir
    return ⟨src, disk, some dir, s.handedOut⟩
  | .take os n => do
    let (src, writes) ← s.src.takeBatch c os s.disk n
    let handedOut := if s.savedDir = none then s.handedOut else (s.src.cursor, n) :: s.handedOut
    return ⟨src, s.disk.applyAll writes, s.savedDir, handedOut⟩
  | .reload dropRuns =>
    match s.savedDir with
    | none => .error (.notFound (LazySource.metaFile K s.src.kind ""))
    | some dir => do
      let disk := if dropRuns then s.disk.applyAll s.src.drop else s.disk
      let (src, disk) ← LazySource.load F C K s.src.kind disk dir s.src.partyId
      return ⟨src, disk, some dir, s.handedOut⟩

theorem persisted_save {dir : String} (before : Persisted s) (h : s.step c (.save dir) = .ok s') :
    Persisted s' ∧ s'.src.cursor = s.src.cursor := by
  obtain ⟨⟨src, disk⟩, saved, last⟩ := bind_ok.mp h
  obtain ⟨sameCursor, sameKind, -, recorded, -⟩ := LazySource.save_spec saved
  cases last
  refine ⟨⟨?_, ?_, before.disjoint⟩, sameCursor⟩
  · intro dir' same
    obtain rfl := Option.some.inj same
    rw [sameKind, sameCursor]
    exact recorded
  · intro r member
    exact sameCursor ▸ before.below r member

/-- A take that records its cursor keeps the directory in step and hands out a new range. -/
theorem persisted_take {os : Os} {n : Nat} (before : Persisted s)
    (persists : s.PersistedTake (.take os n)) (h : s.step c (.take os n) = .ok s') :
    Persisted s' ∧ s'.src.cursor = s.src.cursor + n := by
  obtain ⟨⟨src, writes⟩, taken, last⟩ := bind_ok.mp h
  obtain ⟨-, rfl, rfl⟩ := takeBatch_spec taken
  cases last
  refine ⟨⟨?_, ?_, ?_⟩, by simp⟩
  · intro dir saved
    have recorded := before.recorded dir saved
    simp only [setCursor_kind, setCursor_cursor]
    rw [LazySource.cursorAt_takeWrites recorded]
    rcases Nat.eq_zero_or_pos n with rfl | positive
    · simp
    · rw [if_pos (persists dir saved positive)]
  · intro r member
    simp only [setCursor_cursor]
    split at member
    · exact Nat.le_trans (before.below r member) (Nat.le_add_right _ _)
    · rcases List.mem_cons.mp member with rfl | earlier
      · exact Nat.le_refl _
      · exact Nat.le_trans (before.below r earlier) (Nat.le_add_right _ _)
  · split
    · exact before.disjoint
    · exact List.pairwise_cons.mpr ⟨before.below, before.disjoint⟩

theorem persisted_reload {dropRuns : Bool} (before : Persisted s)
    (h : s.step c (.reload dropRuns) = .ok s') :
    Persisted s' ∧ s'.src.cursor = s.src.cursor := by
  simp only [step] at h
  cases saved : s.savedDir with
  | none => simp [saved] at h
  | some dir =>
    simp only [saved] at h
    obtain ⟨⟨src, disk⟩, loaded, last⟩ := bind_ok.mp h
    have recorded := before.recorded_at_reload saved dropRuns
    obtain ⟨sameCursor, sameKind, -, -, after⟩ := LazySource.load_spec recorded loaded
    cases last
    refine ⟨⟨?_, ?_, before.disjoint⟩, sameCursor⟩
    · intro dir' same
      obtain rfl := Option.some.inj same
      rw [sameKind, sameCursor]
      exact after
    · intro r member
      exact sameCursor ▸ before.below r member

/-- One persisted step keeps the invariant and moves the cursor by what it takes. -/
theorem persisted_step {op : CursorOp} (good : s.PersistedTake op) (before : Persisted s)
    (h : s.step c op = .ok s') :
    Persisted s' ∧ s'.src.cursor = s.src.cursor + takeSizes [op] := by
  cases op with
  | save dir => exact persisted_save before h
  | take os n => exact persisted_take before good h
  | reload dropRuns => exact persisted_reload before h

/-- A run of persisted steps keeps the invariant and moves the cursor by all its takes. -/
theorem persisted_run {t : CursorSys F C K} {ops : List CursorOp}
    (good : AllSteps (step c) PersistedTake s ops) (before : Persisted s)
    (h : Run.run (step c) s ops = .ok t) :
    Persisted t ∧ t.src.cursor = s.src.cursor + takeSizes ops := by
  induction ops generalizing s with
  | nil =>
    cases h
    exact ⟨before, rfl⟩
  | cons op ops ih =>
    obtain ⟨next, first, rest⟩ := run_cons h
    obtain ⟨mid, moved⟩ := persisted_step good.1 before first
    obtain ⟨after, later⟩ := ih (good.2 next first) mid rest
    refine ⟨after, ?_⟩
    have split : takeSizes (op :: ops) = takeSizes [op] + takeSizes ops := by
      cases op <;> simp [takeSizes]
    omega

/-- In every run in which each take after a save is persisted, a restart finds the cursor of the
memory, no index is handed out twice, and parties that took the same amounts from the same start
agree after their restarts. -/
theorem cursor_survives_restart {c : PartyID → ChaCha} {s t : PartyID → CursorSys F C K}
    {ops : PartyID → List CursorOp} (fresh : ∀ p, (s p).savedDir = none ∧ (s p).handedOut = [])
    (sameStart : ∀ p q, (s p).src.cursor = (s q).src.cursor)
    (sameTakes : ∀ p q, takeSizes (ops p) = takeSizes (ops q))
    (persisted : ∀ p, AllSteps (step (c p)) PersistedTake (s p) (ops p))
    (runs : ∀ p, Run.run (step (c p)) (s p) (ops p) = .ok (t p)) :
    (∀ p dropRuns u, (t p).step (c p) (.reload dropRuns) = .ok u →
        u.src.cursor = (t p).src.cursor) ∧
      (∀ p, (t p).handedOut.Pairwise fun later earlier => earlier.1 + earlier.2 ≤ later.1) ∧
      (∀ p q dropP dropQ u v, (t p).step (c p) (.reload dropP) = .ok u →
        (t q).step (c q) (.reload dropQ) = .ok v → u.src.cursor = v.src.cursor) := by
  have reached : ∀ p, Persisted (t p) ∧ (t p).src.cursor = (s p).src.cursor + takeSizes (ops p) :=
    fun p => persisted_run (persisted p) (persisted_of_unsaved (fresh p).1 (fresh p).2) (runs p)
  have reload : ∀ p dropRuns u, (t p).step (c p) (.reload dropRuns) = .ok u →
      u.src.cursor = (t p).src.cursor :=
    fun p _ _ h => (persisted_reload (reached p).1 h).2
  refine ⟨reload, fun p => (reached p).1.disjoint, ?_⟩
  intro p q dropP dropQ u v hu hv
  rw [reload p dropP u hu, reload q dropQ v hv, (reached p).2, (reached q).2, sameStart p q,
    sameTakes p q]

/-- Kinds that always persist keep the path of the directory they were saved to. -/
theorem pathRecorded_step {op : CursorOp} (always : alwaysPersists s.src = true)
    (before : Persisted s) (path : PathRecorded s) (h : s.step c op = .ok s') :
    PathRecorded s' ∧ alwaysPersists s'.src = true := by
  cases op with
  | save dir =>
    obtain ⟨⟨src, disk⟩, saved, last⟩ := bind_ok.mp h
    obtain ⟨-, kind, party, -, recorded⟩ := LazySource.save_spec saved
    cases last
    refine ⟨?_, (alwaysPersists_congr kind party).trans always⟩
    intro dir' same
    obtain rfl := Option.some.inj same
    have records : LazySource.saveRecordsPath s.src.kind = true := by
      cases eq : s.src <;> simp_all [alwaysPersists, LazySource.kind, LazySource.saveRecordsPath]
    rw [recorded, if_pos records, kind]
  | take os n =>
    obtain ⟨⟨src, writes⟩, taken, last⟩ := bind_ok.mp h
    obtain ⟨-, rfl, rfl⟩ := takeBatch_spec taken
    cases last
    refine ⟨?_, (alwaysPersists_congr (by simp) (by simp)).trans always⟩
    intro dir saved
    simpa using path dir saved
  | reload dropRuns =>
    simp only [step] at h
    cases saved : s.savedDir with
    | none => simp [saved] at h
    | some dir =>
      simp only [saved] at h
      obtain ⟨⟨src, disk⟩, loaded, last⟩ := bind_ok.mp h
      have recorded := before.recorded_at_reload saved dropRuns
      obtain ⟨-, kind, party, recorded', -⟩ := LazySource.load_spec recorded loaded
      cases last
      refine ⟨?_, (alwaysPersists_congr kind party).trans always⟩
      intro dir' same
      obtain rfl := Option.some.inj same
      rw [recorded', kind]

/-- For those kinds and parties every run is a run of persisted steps. -/
theorem allSteps_persisted_of_alwaysPersists (always : alwaysPersists s.src = true)
    (before : Persisted s) (path : PathRecorded s) (ops : List CursorOp) :
    AllSteps (step c) PersistedTake s ops := by
  induction ops generalizing s with
  | nil => trivial
  | cons op ops ih =>
    have good := persistedTake_of_alwaysPersists always path op
    refine ⟨good, fun next first => ?_⟩
    obtain ⟨path', always'⟩ := pathRecorded_step always before path first
    exact ih always' (persisted_step good before first).1 path'

/-- The condition is exact: after a take of elements that is not persisted, a killed process
restarts with the cursor from before the take. -/
theorem restart_loses_unpersisted_take {u : CursorSys F C K} {os : Os} {n : Nat} {dir : String}
    (before : Persisted s) (saved : s.savedDir = some dir) (positive : 0 < n)
    (unpersisted : ¬ (s.src.persistsOnTake n = true ∧
      s.src.metaPath = some (LazySource.metaFile K s.src.kind dir)))
    (taken : s.step c (.take os n) = .ok s') (restarted : s'.step c (.reload false) = .ok u) :
    u.src.cursor = s.src.cursor ∧ u.src.cursor < s'.src.cursor := by
  obtain ⟨⟨src, writes⟩, take, last⟩ := bind_ok.mp taken
  obtain ⟨-, rfl, rfl⟩ := takeBatch_spec take
  cases last
  have recorded : cursorAt (s.disk.applyAll (s.src.takeWrites os n)) _ = _ :=
    LazySource.cursorAt_takeWrites (before.recorded dir saved)
  rw [if_neg unpersisted] at recorded
  simp only [step, saved, Bool.false_eq_true, if_false, setCursor_kind] at restarted
  obtain ⟨⟨src, disk⟩, loaded, last⟩ := bind_ok.mp restarted
  have sameCursor := (LazySource.load_spec recorded loaded).1
  cases last
  refine ⟨sameCursor, ?_⟩
  simp only [sameCursor, setCursor_cursor]
  omega

/-- A keystream of zeros, on which runs are evaluated. -/
def quietRng : ChaCha := ⟨fun _ _ => 0⟩

/-- A party with one wrap mask in memory and nothing on disk. -/
def wrapMasksAt (p : PartyID) : CursorSys (ZMod 251) (ZMod 251) 8 :=
  ⟨.wrapMasks ⟨[], 0, [], 0, 1, 0, .inMemory [3, 5], p, none⟩, fun _ => none, none, []⟩

/-- Wrap masks of one item, saved and taken by each of the three parties. -/
theorem cursor_survives_restart_wrapMasks :
    ∃ t : PartyID → CursorSys (ZMod 251) (ZMod 251) 8,
      (∀ p, Run.run (step quietRng) (wrapMasksAt p) [.save "pool", .take (fun _ => .punchHole) 1] =
        .ok (t p)) ∧
      (∀ p dropRuns u, (t p).step quietRng (.reload dropRuns) = .ok u →
        u.src.cursor = (t p).src.cursor) ∧
      (∀ p, (t p).handedOut.Pairwise fun later earlier => earlier.1 + earlier.2 ≤ later.1) ∧
      (∀ p q dropP dropQ u v, (t p).step quietRng (.reload dropP) = .ok u →
        (t q).step quietRng (.reload dropQ) = .ok v → u.src.cursor = v.src.cursor) := by
  have good : ∀ p, AllSteps (step quietRng) PersistedTake (wrapMasksAt p)
      [.save "pool", .take (fun _ => .punchHole) 1] := by
    intro p
    apply allSteps_persisted_of_alwaysPersists rfl (persisted_of_unsaved rfl rfl)
    intro dir saved
    cases saved
  have runs : ∀ p, ∃ t, Run.run (step quietRng) (wrapMasksAt p)
      [.save "pool", .take (fun _ => .punchHole) 1] = .ok t := fun p => ⟨_, rfl⟩
  obtain ⟨t, reached⟩ := Classical.skolem.mp runs
  exact ⟨t, reached, cursor_survives_restart (fun p => ⟨rfl, rfl⟩) (fun _ _ => rfl) (fun _ _ => rfl)
    good reached⟩

/-- Four systems with one element each: ring edaBits at P0, daBits at P1, and random one-hot
vectors and daPoints that were saved but not reloaded. -/
def rewindingSources : List (CursorSys (ZMod 251) (ZMod 251) 8) :=
  [⟨.edaBitsRing ⟨[], 0, [], 0, 1, 0, .empty, .ID0, none⟩, fun _ => none, none, []⟩,
    ⟨.daBits ⟨[], 0, [], 0, 16, .ID1, 1, 0, .empty, none⟩, fun _ => none, none, []⟩,
    ⟨.randOhvs ⟨1, 0, .ID0, none, .inMemory [7], .inMemory [9], .inMemory (List.replicate 16 1),
      .inMemory (List.replicate 16 2)⟩, fun _ => none, none, []⟩,
    ⟨.daPoints ⟨1, 0, [], .inMemory [4], .ID1, none, some 2⟩, fun _ => none, none, []⟩]

/-- Each of them, saved, asked for its only element and killed, restarts at cursor 0 and hands the
element out a second time. -/
theorem restart_rewinds_cursor :
    (rewindingSources.map fun s => (Run.run (step quietRng) s
        [.save "pool", .take (fun _ => .punchHole) 1]).map fun t => t.src.cursor) =
      [.ok 1, .ok 1, .ok 1, .ok 1] ∧
    (rewindingSources.map fun s => (Run.run (step quietRng) s
        [.save "pool", .take (fun _ => .punchHole) 1, .reload false]).map fun t => t.src.cursor) =
      [.ok 0, .ok 0, .ok 0, .ok 0] ∧
    (rewindingSources.map fun s => (Run.run (step quietRng) s
        [.save "pool", .take (fun _ => .punchHole) 1, .reload false,
          .take (fun _ => .punchHole) 1]).map fun t => t.handedOut) =
      [.ok [(0, 1), (0, 1)], .ok [(0, 1), (0, 1)], .ok [(0, 1), (0, 1)], .ok [(0, 1), (0, 1)]] :=
  ⟨rfl, rfl, rfl⟩

end CursorSys

end ProviaVM.Preprocessing
