import ProviaVM.Preprocessing.Pool

/-! # P2 stays in step with P0

P0 decides what it sends from the counts alone, P2 decides what it receives from the
store it has. `P2Holds` says what a P2 source has to hold: as many elements as its
total calls for, and P0's `alpha2` at every element that was not consumed. Receiving a
type keeps it when the store is file-backed, for any chunking and any number of lanes. -/
namespace ProviaVM.Preprocessing
open ByteFile RawElem Framed List Run EdaPool

section Holds

variable {F : Type} [RawElem F]

/-- A P2 source in step: its store has exactly the elements of `total` items, and the elements
of the items from `live` on are the values of `A`. -/
structure P2Holds {K : Nat} (A : Nat → F) (live : Nat) (src : LazyEdaBits F K) (d : Disk) :
    Prop where
  len : src.alphasFlatStore.len = src.total * K
  stored : ∀ e, live * K ≤ e → e < src.total * K → storedAt src.alphasFlatStore d e = some (A e)
  file : ∀ path len append, src.alphasFlatStore = .fileBacked path len append → FileHas F d path len

/-- The sources of the five types use different files. -/
def DistinctFiles (pool : EdaPool F) : Prop :=
  ∀ t t', t ≠ t' → ∀ path, storePath (pool t).alphasFlatStore = some path →
    storePath (pool t').alphasFlatStore ≠ some path

/-- Every P2 source in step, each in its own file. -/
structure P2Pool (A : RingType → Nat → F) (live : RingType → Nat) (pool : EdaPool F) (d : Disk) :
    Prop where
  holds : ∀ t, P2Holds (A t) (live t) (pool t) d
  distinct : DistinctFiles pool

theorem P2Holds.congr {K : Nat} {A : Nat → F} {live : Nat} {src : LazyEdaBits F K} {d d' : Disk}
    (h : P2Holds A live src d)
    (same : ∀ path, storePath src.alphasFlatStore = some path → d' path = d path) :
    P2Holds A live src d' := by
  refine ⟨h.len, fun e low high => ?_, fun path len append store => ?_⟩
  · rw [storedAt_congr same, h.stored e low high]
  · obtain ⟨b, found, sized⟩ := h.file path len append store
    exact ⟨b, (same path (by rw [store]; rfl)).trans found, sized⟩

theorem fileElem_setLen {d : Disk} {path : Path} {b : List UInt8} {len more e : Nat}
    (found : d path = some (.data b)) (sized : b.length = len * size F) (inside : e < len) :
    fileElem F (d.set path (.data (setLen ((len + more) * size F) b))) path e =
      fileElem F d path e := by
  have old : (e + 1) * size F ≤ b.length := by
    rw [sized]
    exact Nat.mul_le_mul_right _ inside
  have new : (e + 1) * size F ≤ (setLen ((len + more) * size F) b).length := by
    rw [length_setLen]
    exact Nat.mul_le_mul_right _ (by omega)
  rw [fileElem_data (Disk.set_same _ _ _) new, fileElem_data found old,
    elemAt_setLen (by omega) old]

end Holds

section Receive

variable {F : Type}

def typeFrames (cfg : PoolCfg) (ranges : RingType → List (Piece Lane)) (f : RingType → Nat → F)
    (t : RingType) (l : Lane) : List (List F) :=
  ((sentPieces cfg t.width (ranges t)).filter (·.lane = l)).map (Piece.data (f t))

/-- What P0 puts on the lanes for a list of types, type after type. -/
theorem sendTypes_eq {cfg : PoolCfg} {ranges : RingType → List (Piece Lane)}
    {f : RingType → Nat → F} {chunk : RingType → Nat → Nat → Except IoError (List F)}
    (chunkEq : ∀ t start len xs, chunk t start len = .ok xs →
      xs = (List.range (len * t.width)).map fun e => f t (start * t.width + e)) {ts : List RingType}
    {net net' : Net Lane F}
    (h : ts.foldlM (fun net t => sendRanges cfg t.width (chunk t) (ranges t) net) net = .ok net')
    (l : Lane) :
    net' l = net l ++ ts.flatMap fun t => typeFrames cfg ranges f t l := by
  induction ts generalizing net with
  | nil =>
    cases h
    simp
  | cons t ts ih =>
    obtain ⟨net₁, first, rest⟩ := bind_ok.mp h
    rw [ih rest, sendRanges_eq (chunkEq t) first, Net.sendAll_apply, append_assoc]
    rfl

variable [RawElem F]
variable {cfg : PoolCfg} {net net' : Net Lane F} {pool pool' : EdaPool F} {d d' : Disk}

variable {t : RingType} {deficit : Nat} {rest : Net Lane F}

/-- P2's part for one type with a file-backed store. -/
theorem extendReceiveType_file {path : Path} {len append : Nat} {f : Nat → F}
    (store : (pool t).alphasFlatStore = .fileBacked path len append) (file : FileHas F d path len)
    (inFlight : ∀ l, net l = ((sentPieces cfg t.width (segmentRanges cfg t.width deficit)).filter
      (·.lane = l)).map (Piece.data f) ++ rest l)
    (h : extendReceiveType cfg t deficit (net, pool, d) = .ok (net', pool', d')) : net' = rest ∧
      pool' = pool.set t { pool t with
        alphasFlatStore :=
          .fileBacked path (len + deficit * t.width) ((len + deficit * t.width) * size F)
        total := (pool t).total + deficit } ∧
      FileHas F d' path (len + deficit * t.width) ∧ (∀ q, q ≠ path → d' q = d q) ∧
      (∀ e < deficit * t.width, fileElem F d' path (len + e) = some (f e)) ∧
      ∀ e < len, fileElem F d' path e = fileElem F d path e := by
  obtain ⟨b, found, sized⟩ := file
  simp only [extendReceiveType, store, preExtendedWriter, found] at h
  obtain ⟨writer, extended, h⟩ := bind_ok.mp h
  cases extended
  obtain ⟨⟨net₁, d₁⟩, received, last⟩ := bind_ok.mp h
  cases last
  have grown : FileHas F (d.set path (.data (setLen ((len + deficit * t.width) * size F) b))) path
      (len + deficit * t.width) := ⟨_, Disk.set_same _ _ _, length_setLen _ _⟩
  obtain ⟨drained, file', frame, new, old⟩ := recvRanges_ok (cfg.maxItemsPerMsg_pos t.width)
    (segmentRanges_covers cfg t.width deficit) grown inFlight received
  refine ⟨drained, rfl, file', fun q different => ?_, new, fun e inside => ?_⟩
  · exact (frame q different).trans (Disk.set_ne _ different)
  · exact (old e inside).trans (fileElem_setLen found sized inside)

/-- The store of an extended P2 source: a file-backed store grows, any other stays. -/
def grownStore (store : BackingStore F) (additional : Nat) : BackingStore F :=
  match store with
  | .fileBacked path len _ => .fileBacked path (len + additional) ((len + additional) * size F)
  | other => other

def extendedSource {K : Nat} (deficit : Nat) (src : LazyEdaBits F K) : LazyEdaBits F K :=
  if deficit = 0 then src
  else { src with
    alphasFlatStore := grownStore src.alphasFlatStore (deficit * K)
    total := src.total + deficit }

theorem extendReceiveType_pool (positive : 0 < deficit)
    (h : extendReceiveType cfg t deficit (net, pool, d) = .ok (net', pool', d')) :
    pool' = pool.set t (extendedSource deficit (pool t)) := by
  unfold extendReceiveType at h
  obtain ⟨writer, extended, h⟩ := bind_ok.mp h
  unfold extendedSource grownStore
  rw [if_neg (Nat.pos_iff_ne_zero.mp positive)]
  cases store : (pool t).alphasFlatStore with
  | fileBacked path len append =>
    simp only [store, preExtendedWriter] at extended
    split at extended
    · cases extended
      obtain ⟨⟨net₁, d₁⟩, -, last⟩ := bind_ok.mp h
      cases last
      rfl
    · cases extended
  | inMemory | empty =>
    rw [store] at extended
    cases extended
    cases h
    simp only [← store]

/-- Whatever was received, an extension that succeeds at P2 leaves these sources. -/
theorem extendReceive_pool {deficits : RingType → Nat}
    (h : extendReceive cfg deficits (net, pool, d) = .ok (net', pool', d')) (t : RingType) :
    pool' t = extendedSource (deficits t) (pool t) := by
  let inv (ts : List RingType) (state : Net Lane F × EdaPool F × Disk) : Prop :=
    ts.Nodup ∧ (∀ t ∈ ts, 0 < deficits t) ∧
      ∀ t, state.2.1 t = if t ∈ ts then pool t else extendedSource (deficits t) (pool t)
  have keeps : ∀ t ts s s', inv (t :: ts) s → extendReceiveType cfg t (deficits t) s = .ok s' →
      inv ts s' := by
    rintro t ts ⟨net₁, pool₁, d₁⟩ ⟨net₂, pool₂, d₂⟩ ⟨nodup, positive, sources⟩ done
    obtain ⟨fresh, nodup⟩ := nodup_cons.mp nodup
    refine ⟨nodup, fun t' member => positive t' (mem_cons_of_mem _ member), fun t' => ?_⟩
    dsimp only
    rw [extendReceiveType_pool (positive t mem_cons_self) done]
    rcases eq_or_ne t' t with rfl | different
    · have mine := sources t'
      rw [if_pos mem_cons_self] at mine
      rw [set_same, if_neg fresh]
      exact congrArg _ mine
    · have others := sources t'
      simp only [mem_cons, different, false_or] at others
      rw [set_ne _ _ different, others]
  have start : inv (activeTypes deficits) (net, pool, d) := by
    refine ⟨List.Nodup.filter _ (by decide),
      fun t member => by simpa using (mem_filter.mp member).2, ?_⟩
    intro t
    split
    · rfl
    · rename_i inactive
      rw [extendedSource, if_pos (not_mem_activeTypes inactive)]
  have final := foldlM_invariant inv keeps start h
  exact (final.2.2 t).trans (if_neg (by simp))

/-- P2 appends what the lanes carry for one type: the file holds the longer material and the other
types keep theirs. -/
theorem P2Pool.extendType {A : RingType → Nat → F} {live : RingType → Nat} {path : Path}
    {len append : Nat} (ready : P2Pool A live pool d)
    (store : (pool t).alphasFlatStore = .fileBacked path len append)
    (inFlight : ∀ l, net l = ((sentPieces cfg t.width (segmentRanges cfg t.width deficit)).filter
      (·.lane = l)).map (Piece.data fun e => A t ((pool t).total * t.width + e)) ++ rest l)
    (h : extendReceiveType cfg t deficit (net, pool, d) = .ok (net', pool', d')) :
    net' = rest ∧ P2Pool A live pool' d' := by
  have held := ready.holds t
  have sized : len = (pool t).total * t.width := by simpa [store, BackingStore.len] using held.len
  obtain ⟨drained, rfl, file', frame, new, old⟩ :=
    extendReceiveType_file store (held.file path len append store) inFlight h
  have mine : storePath (pool t).alphasFlatStore = some path := by rw [store]; rfl
  refine ⟨drained, ?_, ?_⟩
  · intro t'
    rcases eq_or_ne t' t with rfl | different
    · rw [set_same]
      refine ⟨?_, fun e low high => ?_, fun q m append' same => ?_⟩
      · simp only [BackingStore.len]
        rw [sized, Nat.add_mul]
      · show fileElem F d' path e = some (A t' e)
        by_cases inOld : e < len
        · have before := held.stored e low (by omega)
          rw [store] at before
          exact (old e inOld).trans before
        · have added := new (e - len) (by
            rw [Nat.add_mul] at high
            omega)
          rw [show len + (e - len) = e by omega] at added
          rw [added]
          congr 2
          omega
      · cases same
        exact file'
    · rw [set_ne _ _ different]
      refine (ready.holds t').congr fun q own => frame q ?_
      rintro rfl
      exact ready.distinct t t' different.symm q mine own
  · -- the grown store is in the same file
    have paths : ∀ t', storePath (pool.set t { pool t with
        alphasFlatStore :=
          .fileBacked path (len + deficit * t.width) ((len + deficit * t.width) * size F)
        total := (pool t).total + deficit } t').alphasFlatStore =
          storePath (pool t').alphasFlatStore := by
      intro t'
      rcases eq_or_ne t' t with rfl | different
      · rw [set_same, mine]
        rfl
      · rw [set_ne _ _ different]
    intro t₁ t₂ different q own
    rw [paths] at own ⊢
    exact ready.distinct t₁ t₂ different q own

/-- A whole extension at P2 when every type that grows is file-backed: the lanes are drained and
every source is in step with its new total. -/
theorem extendReceive_ok {A : RingType → Nat → F} {live deficits : RingType → Nat}
    (ready : P2Pool A live pool d) (fileBacked : ∀ t, 0 < deficits t →
      ∃ path len append, (pool t).alphasFlatStore = .fileBacked path len append)
    (inFlight : ∀ l, net l = ((activeTypes deficits).flatMap fun t =>
      typeFrames cfg (fun t => segmentRanges cfg t.width (deficits t))
      (fun t e => A t ((pool t).total * t.width + e)) t l) ++ rest l)
    (h : extendReceive cfg deficits (net, pool, d) = .ok (net', pool', d')) :
    net' = rest ∧ P2Pool A live pool' d' := by
  let inv (ts : List RingType) (state : Net Lane F × EdaPool F × Disk) : Prop :=
    ts.Nodup ∧ P2Pool A live state.2.1 state.2.2 ∧
      (∀ t ∈ ts, 0 < deficits t ∧ state.2.1 t = pool t) ∧
      ∀ l, state.1 l = (ts.flatMap fun t =>
        typeFrames cfg (fun t => segmentRanges cfg t.width (deficits t))
          (fun t e => A t ((pool t).total * t.width + e)) t l) ++ rest l
  have keeps : ∀ t ts s s', inv (t :: ts) s → extendReceiveType cfg t (deficits t) s = .ok s' →
      inv ts s' := by
    rintro t ts ⟨net₁, pool₁, d₁⟩ ⟨net₂, pool₂, d₂⟩ ⟨nodup, ready₁, untouched, inFlight₁⟩ done
    dsimp only at ready₁ untouched inFlight₁
    obtain ⟨fresh, nodup⟩ := nodup_cons.mp nodup
    obtain ⟨positive, same⟩ := untouched t mem_cons_self
    obtain ⟨path, len, append, store⟩ := fileBacked t positive
    rw [← same] at store
    have head : ∀ l, net₁ l =
        ((sentPieces cfg t.width (segmentRanges cfg t.width (deficits t))).filter (·.lane = l)).map
          (Piece.data fun e => A t ((pool₁ t).total * t.width + e)) ++
        ((ts.flatMap fun t => typeFrames cfg (fun t => segmentRanges cfg t.width (deficits t))
          (fun t e => A t ((pool t).total * t.width + e)) t l) ++ rest l) := by
      intro l
      rw [inFlight₁ l, flatMap_cons, append_assoc, same]
      rfl
    obtain ⟨drained, ready₂⟩ := ready₁.extendType store head done
    refine ⟨nodup, ready₂, fun t' member => ?_, fun l => congrFun drained l⟩
    obtain ⟨positive', same'⟩ := untouched t' (mem_cons_of_mem _ member)
    refine ⟨positive', ?_⟩
    have different : t' ≠ t := fun equal => fresh (equal ▸ member)
    dsimp only
    rw [extendReceiveType_pool positive done, set_ne _ _ different, same']
  have start : inv (activeTypes deficits) (net, pool, d) :=
    ⟨List.Nodup.filter _ (by decide), ready,
      fun t member => ⟨by simpa using (mem_filter.mp member).2, rfl⟩, inFlight⟩
  obtain ⟨-, ready', -, left⟩ := foldlM_invariant inv keeps start h
  exact ⟨funext fun l => (left l).trans (nil_append _), ready'⟩

end Receive

section Parties

variable {F : Type} [Ring F] [RawElem F]
variable {deficits : RingType → Nat}

/-- The seeds of a source, as the generators they were taken from. -/
def LazyEdaBits.rand {K : Nat} (src : LazyEdaBits F K) : Rep3Rand :=
  ⟨src.seed1, src.pos1, src.seed2, src.pos2⟩

/-- `alpha2` of element `e` of type `t`, from P0's generators. -/
def alpha2Of (c : ChaCha) (fb : Nat) (r : RingType → Rep3Rand) (t : RingType) (e : Nat) : F :=
  alpha2At F t.width c (r t).seed1 (r t).pos1 (r t).seed2 (r t).pos2 fb e

variable {c : ChaCha} {cfg : PoolCfg} {fb : Nat}

omit [RawElem F] in
/-- P0's messages of an extension continue its stream at the old total. -/
theorem extendSend_eq {pool : EdaPool F} {net net' : Net Lane F}
    (h : extendSend c cfg fb deficits pool net = .ok net') (l : Lane) :
    net' l = net l ++ (activeTypes deficits).flatMap fun t =>
      typeFrames cfg (fun t => segmentRanges cfg t.width (deficits t))
        (fun t e => alpha2Of c fb (fun t => (pool t).rand) t ((pool t).total * t.width + e))
          t l := by
  refine sendTypes_eq (fun t start len xs generated => ?_) h l
  rw [edabitAlpha2Chunk_eq generated]
  apply map_congr_left
  intro e _
  rw [Nat.add_mul, Nat.add_assoc]
  rfl

/-- Every P2 store has the elements of its source's total, which is P0's; the elements of the items
from `live` on are P0's; and no message is left. -/
structure InStep (c : ChaCha) (fb : Nat) (live : RingType → Nat) (s : Parties F) : Prop where
  holds : ∀ t, P2Holds (alpha2Of c fb (fun t => (s.pool .ID0 t).rand) t) (live t) (s.pool .ID2 t)
    (s.disk .ID2)
  total : ∀ t, (s.pool .ID2 t).total = (s.pool .ID0 t).total
  drained : ∀ l, s.net l = []

/-- What `apply_extension` without data does to a source: the total grows, and the precache of
P0 and P1 is dropped. -/
def ExtendedFrom {K : Nat} (deficit : Nat) (src src' : LazyEdaBits F K) : Prop :=
  ∃ a m g, src' = { src with
      alphasFlatStore := a
      storageMode := m
      gammaStore := g
      total := src.total + deficit } ∧
    (src.partyId ≠ .ID2 → src.storageMode = .none → m = .none)

omit [Ring F] in
theorem applyExtension_extended {K : Nat} {src src' : LazyEdaBits F K} {d d' : Disk} {deficit : Nat}
    (h : src.applyExtension d deficit [] = .ok (src', d')) : ExtendedFrom deficit src src' := by
  unfold LazyEdaBits.applyExtension at h
  split at h
  · rename_i zero
    cases h
    exact ⟨_, _, _, by rw [zero, Nat.add_zero], fun _ same => same⟩
  split at h
  · rename_i notP2
    have done := congrArg Prod.fst (Except.ok.inj h)
    simp only [LazyEdaBits.clearPrecacheFilesIfPresent, LazyEdaBits.clearPrecacheFiles,
      LazyEdaBits.clearPrecacheRuntime, if_neg notP2] at done
    split at done
    · exact ⟨_, _, _, done.symm, fun _ _ => rfl⟩
    · exact ⟨_, _, _, done.symm, fun _ _ => rfl⟩
  · cases h
    exact ⟨_, _, _, rfl, fun _ same => same⟩

omit [Ring F] in
/-- An extension without received data touches each source by its own deficit alone. -/
theorem applyExtensions_extended {pool pool' : EdaPool F} {d d' : Disk}
    (h : applyExtensions deficits pool d = .ok (pool', d')) (t : RingType) :
    ExtendedFrom (deficits t) (pool t) (pool' t) := by
  let inv (ts : List RingType) (state : EdaPool F × Disk) : Prop :=
    ts.Nodup ∧ ∀ t, if t ∈ ts then state.1 t = pool t
      else ExtendedFrom (deficits t) (pool t) (state.1 t)
  have keeps : ∀ t ts s s', inv (t :: ts) s →
      (do let r ← (s.1 t).applyExtension s.2 (deficits t) []
          return (s.1.set t r.1, r.2) : Except IoError (EdaPool F × Disk)) = .ok s' →
            inv ts s' := by
    rintro t ts ⟨pool₁, d₁⟩ s' ⟨nodup, sources⟩ done
    obtain ⟨⟨src, d₂⟩, extended, last⟩ := bind_ok.mp done
    cases last
    obtain ⟨fresh, nodup⟩ := nodup_cons.mp nodup
    refine ⟨nodup, fun t' => ?_⟩
    have before := sources t'
    rcases eq_or_ne t' t with rfl | different
    · simp only [mem_cons] at before
      simp only [set_same, if_neg fresh]
      exact before ▸ applyExtension_extended extended
    · simp only [mem_cons, different, false_or] at before
      simp only [set_ne _ _ different]
      exact before
  have start : inv ringTypes (pool, d) := by
    refine ⟨by decide, fun t => ?_⟩
    have all : t ∈ ringTypes := by cases t <;> decide
    rw [if_pos all]
  exact (foldlM_invariant inv keeps start h).2 t

/-- The sources an extension leaves at the three parties. -/
theorem extendPool_sources {s s' : Parties F} (h : extendPool c cfg fb deficits s = .ok s')
    (t : RingType) :
    (∀ p, p ≠ .ID2 → ExtendedFrom (deficits t) (s.pool p t) (s'.pool p t)) ∧
      s'.pool .ID2 t = extendedSource (deficits t) (s.pool .ID2 t) := by
  unfold extendPool at h
  obtain ⟨net₁, -, h⟩ := bind_ok.mp h
  obtain ⟨⟨net₂, pool2, d2⟩, received, h⟩ := bind_ok.mp h
  obtain ⟨⟨pool0, d0⟩, extended0, h⟩ := bind_ok.mp h
  obtain ⟨⟨pool1, d1⟩, extended1, last⟩ := bind_ok.mp h
  cases last
  refine ⟨fun p notP2 => ?_, extendReceive_pool received t⟩
  cases p with
  | ID0 => exact applyExtensions_extended extended0 t
  | ID1 => exact applyExtensions_extended extended1 t
  | ID2 => exact absurd rfl notP2

/-- An extension that returns `Ok` at the three parties keeps them in step exactly when every
type that grows has a file-backed store at P2. -/
theorem extendPool_inStep_iff {live : RingType → Nat} {s s' : Parties F}
    (inStep : InStep c fb live s) (distinct : DistinctFiles (s.pool .ID2))
    (h : extendPool c cfg fb deficits s = .ok s') :
    InStep c fb live s' ↔ ∀ t, 0 < deficits t →
      ∃ path len append, (s.pool .ID2 t).alphasFlatStore = .fileBacked path len append := by
  unfold extendPool at h
  obtain ⟨net₁, sent, h⟩ := bind_ok.mp h
  obtain ⟨⟨net₂, pool2, d2⟩, received, h⟩ := bind_ok.mp h
  obtain ⟨⟨pool0, d0⟩, extended0, h⟩ := bind_ok.mp h
  obtain ⟨⟨pool1, d1⟩, extended1, last⟩ := bind_ok.mp h
  cases last
  constructor
  · intro after t positive
    -- a store that is not file-backed keeps its length while the total grows
    have len := (after.holds t).len
    have before := (inStep.holds t).len
    dsimp only at len
    rw [extendReceive_pool received t, extendedSource,
      if_neg (Nat.pos_iff_ne_zero.mp positive)] at len
    cases store : (s.pool .ID2 t).alphasFlatStore with
    | fileBacked path len append => exact ⟨path, len, append, rfl⟩
    | inMemory | empty =>
      rw [store] at before
      simp only [store, grownStore, Nat.add_mul] at len
      have wide : 0 < deficits t * t.width :=
        Nat.mul_pos positive (Nat.mul_pos (by decide) t.bytes_pos)
      omega
  · intro fileBacked
    have inFlight : ∀ l, net₁ l = ((activeTypes deficits).flatMap fun t =>
        typeFrames cfg (fun t => segmentRanges cfg t.width (deficits t))
          (fun t e => alpha2Of c fb (fun t => (s.pool .ID0 t).rand) t
            ((s.pool .ID2 t).total * t.width + e)) t l) ++ [] := by
      intro l
      rw [extendSend_eq sent l, inStep.drained l, nil_append, append_nil]
      simp only [inStep.total]
    obtain ⟨drained, ready⟩ :=
      extendReceive_ok ⟨inStep.holds, distinct⟩ fileBacked inFlight received
    have same0 : ∀ t, (pool0 t).rand = (s.pool .ID0 t).rand ∧
        (pool0 t).total = (s.pool .ID0 t).total + deficits t := by
      intro t
      obtain ⟨a, m, g, same, -⟩ := applyExtensions_extended extended0 t
      rw [same]
      exact ⟨rfl, rfl⟩
    have rands : (fun t => (pool0 t).rand) = fun t => (s.pool .ID0 t).rand :=
      funext fun t => (same0 t).1
    refine ⟨fun t => ?_, fun t => ?_, fun l => ?_⟩
    · rw [rands]
      exact ready.holds t
    · dsimp only
      rw [extendReceive_pool received t, (same0 t).2, extendedSource]
      split
      · rename_i zero
        simp [zero, inStep.total]
      · rw [inStep.total]
    · exact congrFun drained l

end Parties

end ProviaVM.Preprocessing
