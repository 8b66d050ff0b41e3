import ProviaVM.Preprocessing.PoolRuns

/-! # Extending a pool

What `preprocess_pool_base` leaves at P0 and P2, and the result of the pool modules: in
every state reached from there by takes, saves and loads at the three parties, an
extension that returns `Ok` leaves P2 in step with P0 exactly when every type that
grows has a file-backed store at P2. A type whose total was zero is reloaded as an
empty store, and then P0's messages stay in the channel. -/
namespace ProviaVM.Preprocessing
open ByteFile RawElem Framed List Disk Run

section Preprocess

variable {F : Type}

theorem preprocessRanges_covers (cfg : PoolCfg) (counts : RingType → Nat) (t : RingType) :
    CoversItems (preprocessRanges cfg counts t) (counts t) := by
  unfold preprocessRanges
  dsimp only
  split
  · intro i inside
    exact ⟨_, mem_singleton.mpr rfl, Nat.zero_le _, by simpa using inside⟩
  · exact segmentRanges_covers cfg t.width (counts t)

/-- P0's messages of the initial phase are its stream from the start. -/
theorem preprocessSend_eq [Ring F] {c : ChaCha} {cfg : PoolCfg} {fb : Nat} {counts : RingType → Nat}
    {r : Rep3Rand} {net net' : Net Lane F} (h : preprocessSend c cfg fb counts r net = .ok net')
    (l : Lane) :
    net' l = net l ++ (activeTypes counts).flatMap fun t =>
      typeFrames cfg (preprocessRanges cfg counts) (alpha2Of c fb (typeRand c r)) t l :=
  sendTypes_eq (fun _ _ _ _ generated => edabitAlpha2Chunk_eq generated) h l

variable [RawElem F]

/-- Creating the stores of all types leaves each type a file of its full size. -/
theorem createStores_file (dir : String) (counts : RingType → Nat) (d : Disk) (t : RingType) :
    FileHas F (createStores F dir counts d) (LazyEdaBits.authoritativeAlphaPath t.width dir)
      (counts t * t.width) := by
  have apart : ∀ {t t' : RingType}, t ≠ t' →
      LazyEdaBits.authoritativeAlphaPath t.width dir ≠
        LazyEdaBits.authoritativeAlphaPath t'.width dir :=
    fun different same =>
      RingType.width_ne different (by simpa [LazyEdaBits.authoritativeAlphaPath] using same)
  unfold createStores ringTypes BackingStore.createFileBackedSized
  refine ⟨setLen (counts t * t.width * size F) [], ?_, length_setLen _ _⟩
  simp only [foldl_cons, foldl_nil]
  cases t
  · rw [set_ne _ (apart (by decide)), set_ne _ (apart (by decide)), set_ne _ (apart (by decide)),
      set_ne _ (apart (by decide)), set_same]
  · rw [set_ne _ (apart (by decide)), set_ne _ (apart (by decide)), set_ne _ (apart (by decide)),
      set_same]
  · rw [set_ne _ (apart (by decide)), set_ne _ (apart (by decide)), set_same]
  · rw [set_ne _ (apart (by decide)), set_same]
  · simp

/-- The initial phase at P2: the lanes are drained and every file holds P0's stream. -/
theorem preprocessReceive_ok {A : RingType → Nat → F} {cfg : PoolCfg} {dir : String}
    {counts : RingType → Nat} {net net' : Net Lane F} {d d' : Disk}
    (files : ∀ t, FileHas F d (LazyEdaBits.authoritativeAlphaPath t.width dir) (counts t * t.width))
    (inFlight : ∀ l, net l = (activeTypes counts).flatMap fun t =>
      typeFrames cfg (preprocessRanges cfg counts) A t l)
    (h : preprocessReceive cfg dir counts (net, d) = .ok (net', d')) :
    (∀ l, net' l = []) ∧
      (∀ t, FileHas F d' (LazyEdaBits.authoritativeAlphaPath t.width dir) (counts t * t.width)) ∧
      ∀ t, ∀ e < counts t * t.width,
        fileElem F d' (LazyEdaBits.authoritativeAlphaPath t.width dir) e = some (A t e) := by
  let path (t : RingType) : Path := LazyEdaBits.authoritativeAlphaPath t.width dir
  let inv (ts : List RingType) (state : Net Lane F × Disk) : Prop :=
    ts.Nodup ∧ (∀ t, FileHas F state.2 (path t) (counts t * t.width)) ∧
      (∀ t, t ∉ ts → ∀ e < counts t * t.width, fileElem F state.2 (path t) e = some (A t e)) ∧
      ∀ l, state.1 l = ts.flatMap fun t => typeFrames cfg (preprocessRanges cfg counts) A t l
  have keeps : ∀ t ts s s', inv (t :: ts) s →
      recvRanges cfg t.width (cfg.storeBatchItems t.width) (preprocessRanges cfg counts t)
        ⟨path t, counts t * t.width⟩ 0 s = .ok s' → inv ts s' := by
    rintro t ts ⟨net₁, d₁⟩ ⟨net₂, d₂⟩ ⟨nodup, files₁, done₁, inFlight₁⟩ received
    obtain ⟨fresh, nodup⟩ := nodup_cons.mp nodup
    have head : ∀ l, net₁ l = ((sentPieces cfg t.width (preprocessRanges cfg counts t)).filter
        (·.lane = l)).map (Piece.data (A t)) ++
        ts.flatMap fun t => typeFrames cfg (preprocessRanges cfg counts) A t l :=
          fun l => inFlight₁ l
    obtain ⟨drained, file, frame, new, -⟩ := recvRanges_ok (cfg.storeBatchItems_pos t.width)
      (preprocessRanges_covers cfg counts t) (files₁ t) head received
    have others : ∀ {t'}, t' ≠ t → d₂ (path t') = d₁ (path t') := fun {t'} different => frame _ (by
      simpa [path, LazyEdaBits.authoritativeAlphaPath] using RingType.width_ne different)
    refine ⟨nodup, fun t' => ?_, fun t' notLater e inside => ?_, fun l => congrFun drained l⟩
    · rcases eq_or_ne t' t with rfl | different
      · exact file
      · obtain ⟨b, found, sized⟩ := files₁ t'
        exact ⟨b, (others different).trans found, sized⟩
    · rcases eq_or_ne t' t with rfl | different
      · simpa using new e inside
      · exact (fileElem_congr (others different) e).trans
          (done₁ t' (by simp [different, notLater]) e inside)
  have start : inv (activeTypes counts) (net, d) := by
    refine ⟨List.Nodup.filter _ (by decide), files, fun t inactive e inside => ?_, inFlight⟩
    rw [not_mem_activeTypes inactive, Nat.zero_mul] at inside
    exact absurd inside (Nat.not_lt_zero e)
  obtain ⟨-, files', done, left⟩ := foldlM_invariant inv keeps start h
  exact ⟨left, files', fun t => done t not_mem_nil⟩

end Preprocess

section Start

variable {F : Type} [Ring F] [RawElem F]

/-- The pool's `save` is the saves of the five types in turn. -/
theorem EdaPool.save_run {pool pool' : EdaPool F} {d d' : Disk} {dir : String} (c : ChaCha)
    (p : PartyID) (h : EdaPool.save pool d dir = .ok (pool', d')) :
    Run.run (PartyState.step c p) ⟨pool, d, fun _ => [],
      fun _ => 0⟩ (ringTypes.map fun t => .save t dir) =
      .ok ⟨pool', d', fun _ => [dir], fun _ => 0⟩ := by
  have general : ∀ (ts : List RingType) (s : PartyState F),
      ts.foldlM (fun (s : EdaPool F × Disk) t => do
        let r ← (s.1 t).save s.2 dir
        return (s.1.set t r.1, r.2)) (s.pool, s.disk) = .ok (pool', d') →
      Run.run (PartyState.step c p) s (ts.map fun t => .save t dir) =
        .ok ⟨pool', d', ts.foldl (fun dirs t => Function.update dirs t (dir :: dirs t)) s.dirs,
          s.taken⟩ := by
    intro ts
    induction ts with
    | nil =>
      intro s done
      cases done
      rfl
    | cons t ts ih =>
      intro s done
      obtain ⟨state, first, rest⟩ := bind_ok.mp done
      obtain ⟨⟨src, d₁⟩, saved, last⟩ := bind_ok.mp first
      cases last
      have stepped : s.step c p (.save t dir) = .ok { s with
          pool := s.pool.set t src
          disk := d₁
          dirs := Function.update s.dirs t (dir :: s.dirs t) } := bind_ok.mpr ⟨(src, d₁),
            saved, rfl⟩
      simp only [map_cons, Run.run, stepped]
      exact ih _ rest
  have all := general ringTypes ⟨pool, d, fun _ => [], fun _ => 0⟩ h
  have dirs : ringTypes.foldl (fun dirs t => Function.update dirs t (dir :: dirs t)) (fun _ => []) =
      fun _ => [dir] := by
    funext t
    cases t <;> rfl
  rw [dirs] at all
  exact all

/-- Sources held in memory: P2's are built from the elements P0 generates. -/
def memoryPool (c : ChaCha) (fb : Nat) (counts : RingType → Nat)
    (rand : PartyID → RingType → Rep3Rand) (p : PartyID) : EdaPool F := fun t =>
  .new (rand p t) (counts t) fb
    (if p = .ID2 then (List.range (counts t * t.width)).map (alpha2Of c fb (rand .ID0) t) else []) p

/-- The states a run starts from, with the directories saved there: what `preprocess_pool_base`
returns, or sources in memory, on any disks. -/
inductive Started (c : ChaCha) (fb : Nat) : Parties F → (RingType → List String) → Prop
  | preprocessed (cfg : PoolCfg) (dir : String) (counts : RingType → Nat) (rand : PartyID →
    Rep3Rand)
      (disk : PartyID → Disk) (s : Parties F) (h : preprocessPool c cfg fb dir counts rand disk =
        .ok s) :
      Started c fb s fun _ => [dir]
  | inMemory (counts : RingType → Nat) (rand : PartyID → RingType → Rep3Rand) (disk : PartyID →
    Disk) :
      Started c fb ⟨memoryPool c fb counts rand, disk, fun _ => []⟩ fun _ => []

/-- What every start has: P0's seeds and totals, and P2's elements for them. -/
theorem Started.kept {c : ChaCha} {fb : Nat} {s : Parties F} {dirs : RingType → List String}
    (start : Started c fb s dirs) : ∃ (r : RingType → Rep3Rand) (total : RingType → Nat),
      (∀ t, P0Kept (r t) (total t) (s.pool .ID0 t) (s.disk .ID0) (dirs t)) ∧
      (∀ t, P2Kept (alpha2Of c fb r t) 0 (total t) (s.pool .ID2 t) (s.disk .ID2) (dirs t)) ∧
      ∀ l, s.net l = [] := by
  cases start with
  | preprocessed cfg dir counts rand disk s h =>
    unfold preprocessPool at h
    obtain ⟨net₁, sent, h⟩ := bind_ok.mp h
    obtain ⟨⟨net₂, d₂⟩, received, h⟩ := bind_ok.mp h
    obtain ⟨⟨pool0, d0⟩, saved0, h⟩ := bind_ok.mp h
    obtain ⟨⟨pool1, d1⟩, -, h⟩ := bind_ok.mp h
    obtain ⟨⟨pool2, d2⟩, saved2, last⟩ := bind_ok.mp h
    cases last
    obtain ⟨drained, files, elements⟩ :=
      preprocessReceive_ok (createStores_file dir counts (disk .ID2))
      (fun l => preprocessSend_eq sent l) received
    refine ⟨typeRand c (rand .ID0), counts, ?_, ?_, drained⟩
    · refine P0Kept.run (EdaPool.save_run c .ID0 saved0) fun t => ?_
      exact ⟨rfl, rfl, fun _ none_ => absurd none_ not_mem_nil⟩
    · refine P2Kept.run (EdaPool.save_run c .ID2 saved2) fun t => ?_
      refine ⟨⟨rfl, fun e _ high => elements t e high, ?_⟩, rfl, rfl, fun _ => rfl, ?_,
        fun _ none_ => absurd none_ not_mem_nil, fun _ none_ => absurd none_ not_mem_nil⟩
      · rintro path len append same
        cases same
        exact files t
      · rintro path same
        cases same
        rfl
  | inMemory counts rand disk =>
    refine ⟨rand .ID0, counts, fun t => ⟨rfl, rfl, fun _ none_ => absurd none_ not_mem_nil⟩,
      fun t => ?_, fun _ => rfl⟩
    let xs : List F := (List.range (counts t * t.width)).map (alpha2Of c fb (rand .ID0) t)
    have store : (memoryPool c fb counts rand .ID2 t).alphasFlatStore = BackingStore.fromVec xs :=
      rfl
    have length : xs.length = counts t * t.width := by simp [xs]
    have cases_ : BackingStore.fromVec xs = .inMemory xs ∨ BackingStore.fromVec xs = .empty ∧
        xs = [] := by
      unfold BackingStore.fromVec
      split
      · exact Or.inr ⟨rfl, List.isEmpty_iff.mp (by assumption)⟩
      · exact Or.inl rfl
    have noFile : storePath (BackingStore.fromVec xs) = none := by
      rcases cases_ with memory | ⟨empty, -⟩
      · rw [memory]
        rfl
      · rw [empty]
        rfl
    have len : (BackingStore.fromVec xs).len = counts t * t.width := by
      rcases cases_ with memory | ⟨empty, nil⟩
      · rw [memory, ← length]
        rfl
      · rw [← length, nil]
        rfl
    refine ⟨⟨len, fun e _ high => ?_, fun path len append same => ?_⟩, rfl, rfl, fun _ => rfl,
      fun path own => ?_, fun _ none_ => absurd none_ not_mem_nil,
      fun _ none_ => absurd none_ not_mem_nil⟩
    · have inside : e < counts t * t.width := high
      rw [store]
      rcases cases_ with memory | ⟨-, nil⟩
      · rw [memory]
        simp [storedAt, xs, inside]
      · rw [nil] at length
        simp only [length_nil] at length
        omega
    · rw [store] at same
      rw [same] at noFile
      cases noFile
    · rw [store, noFile] at own
      cases own

end Start

section Reached

variable {F : Type} [Ring F] [RawElem F]

/-- From any state the parties reach on their own: an extension that succeeds at all of them leaves
P2's stores with the elements of the new totals, P0's `alpha2` at every item not handed out, and no
message, exactly when each type that grows is file-backed at P2. -/
theorem extendPool_inStep_iff_of_reached {c : ChaCha} {cfg : PoolCfg} {fb : Nat}
    {deficits : RingType → Nat} {s₀ s' : Parties F} {dirs : RingType → List String}
    (start : Started c fb s₀ dirs) {ops : PartyID → List PartyOp} {s : PartyID → PartyState F}
    (ran : ∀ p, Run.run (PartyState.step c p) ⟨s₀.pool p, s₀.disk p, dirs, fun _ => 0⟩ (ops p) =
      .ok (s p))
    (h : extendPool c cfg fb deficits ⟨fun p => (s p).pool, fun p => (s p).disk, s₀.net⟩ = .ok s') :
    InStep c fb (s .ID2).taken s' ↔ ∀ t, 0 < deficits t →
      ∃ path len append, ((s .ID2).pool t).alphasFlatStore = .fileBacked path len append := by
  obtain ⟨r, total, kept0, kept2, drained⟩ := start.kept
  have kept0 := P0Kept.run (ran .ID0) kept0
  have kept2 := P2Kept.run (ran .ID2) kept2
  have rands : (fun t => ((s .ID0).pool t).rand) = r := funext fun t => (kept0 t).rand
  have inStep : InStep c fb (s .ID2).taken ⟨fun p => (s p).pool, fun p => (s p).disk, s₀.net⟩ := by
    refine ⟨fun t => ?_, fun t => (kept2 t).sameTotal.trans (kept0 t).sameTotal.symm, drained⟩
    rw [rands]
    exact (kept2 t).holds
  have distinct : DistinctFiles (s .ID2).pool := by
    intro t t' different path own own'
    have names := ((kept2 t).name path own).symm.trans ((kept2 t').name path own')
    exact RingType.width_ne different (by simpa using names)
  exact extendPool_inStep_iff inStep distinct h

/-- Preprocess into a directory, let every party run, extend. -/
def preprocessRunExtend (c : ChaCha) (cfg : PoolCfg) (fb : Nat) (dir : String)
    (counts : RingType → Nat) (rand : PartyID → Rep3Rand) (disk : PartyID → Disk)
    (ops : PartyID → List PartyOp) (deficits : RingType → Nat) :
    Except IoError (Parties F × (PartyID → PartyState F) × Parties F) := do
  let s₀ ← preprocessPool c cfg fb dir counts rand disk
  let run p :=
    Run.run (PartyState.step c p) ⟨s₀.pool p, s₀.disk p, fun _ => [dir], fun _ => 0⟩ (ops p)
  let p0 ← run .ID0
  let p1 ← run .ID1
  let p2 ← run .ID2
  let s : PartyID → PartyState F := fun | .ID0 => p0 | .ID1 => p1 | .ID2 => p2
  let s' ← extendPool c cfg fb deficits ⟨fun p => (s p).pool, fun p => (s p).disk, s₀.net⟩
  return (s₀, s, s')

theorem preprocessRunExtend_ok {c : ChaCha} {cfg : PoolCfg} {fb : Nat} {dir : String}
    {counts : RingType → Nat} {rand : PartyID → Rep3Rand} {disk : PartyID → Disk}
    {ops : PartyID → List PartyOp} {deficits : RingType → Nat} {s₀ s' : Parties F}
    {s : PartyID → PartyState F}
    (h : preprocessRunExtend c cfg fb dir counts rand disk ops deficits = .ok (s₀, s, s')) :
    preprocessPool c cfg fb dir counts rand disk = .ok s₀ ∧
      (∀ p, Run.run (PartyState.step c p) ⟨s₀.pool p, s₀.disk p, fun _ => [dir],
        fun _ => 0⟩ (ops p) = .ok (s p)) ∧
      extendPool c cfg fb deficits ⟨fun p => (s p).pool, fun p => (s p).disk, s₀.net⟩ = .ok s' := by
  unfold preprocessRunExtend at h
  obtain ⟨s₁, made, h⟩ := bind_ok.mp h
  obtain ⟨p0, ran0, h⟩ := bind_ok.mp h
  obtain ⟨p1, ran1, h⟩ := bind_ok.mp h
  obtain ⟨p2, ran2, h⟩ := bind_ok.mp h
  obtain ⟨s₂, extended, last⟩ := bind_ok.mp h
  cases last
  refine ⟨made, fun p => ?_, extended⟩
  cases p
  · exact ran0
  · exact ran1
  · exact ran2

end Reached

/-- A keystream that counts, from a start that depends on the seed. -/
def countingRng : ChaCha := ⟨fun seed pos => UInt32.ofNat (seed.length + 7 * pos + 3)⟩

/-- One message holds eight elements and there are two lanes. -/
def smallCfg : PoolCfg := ⟨8, 16, 8, 2, by decide⟩

/-- `n` items of the smallest type and none of the others. -/
def onlyU8 (n : Nat) : RingType → Nat
  | .u8 => n
  | _ => 0

/-- One item, taken at every party; then two more: P2 is in step. -/
theorem extendPool_inStep_twoMore :
    ∃ (s₀ s' : Parties (ZMod 251)) (s : PartyID → PartyState (ZMod 251)),
    preprocessRunExtend countingRng smallCfg 16 "pool" (onlyU8 1) (fun _ => ⟨[], 0, [], 0⟩)
        (fun _ _ => none) (fun _ => [.take .u8 (fun _ => .punchHole) 1]) (onlyU8 2) =
          .ok (s₀, s, s') ∧
      InStep countingRng 16 (s .ID2).taken s' := by
  have result : (preprocessRunExtend (F := ZMod 251) countingRng smallCfg 16 "pool" (onlyU8 1)
      (fun _ => ⟨[], 0, [], 0⟩) (fun _ _ => none) (fun _ => [.take .u8 (fun _ => .punchHole) 1])
      (onlyU8 2)).toOption.map (fun r => ((r.2.1 .ID2).pool .u8).alphasFlatStore) =
      some (.fileBacked ⟨"pool", .edabitsAlpha2 8⟩ 8 0) := by decide +kernel
  cases done : preprocessRunExtend (F := ZMod 251) countingRng smallCfg 16 "pool" (onlyU8 1)
      (fun _ => ⟨[], 0, [], 0⟩) (fun _ _ => none) (fun _ => [.take .u8 (fun _ => .punchHole) 1])
        (onlyU8 2) with
  | error e =>
    rw [done] at result
    cases result
  | ok run =>
    obtain ⟨s₀, s, s'⟩ := run
    rw [done] at result
    obtain ⟨made, ran, extended⟩ := preprocessRunExtend_ok done
    refine ⟨s₀, s', s, rfl, ?_⟩
    rw [extendPool_inStep_iff_of_reached (.preprocessed _ _ _ _ _ _ made) ran extended]
    intro t grows
    cases t with
    | u8 => exact ⟨_, _, _, Option.some.inj result⟩
    | u16 | u32 | u64 | u128 => exact absurd grows (by decide)

/-- A reloaded pool of total zero is asked for one item. Every party returns `Ok`, P2 counts one
item, its store is empty, and P0's message is still there. -/
theorem extendPool_reloaded_not_inStep :
    ∃ (s₀ s' : Parties (ZMod 251)) (s : PartyID → PartyState (ZMod 251)),
      preprocessRunExtend CursorSys.quietRng smallCfg 16 "pool" (onlyU8 0) (fun _ => ⟨[], 0, [], 0⟩)
          (fun _ _ => none) (fun _ => [.load .u8 "pool" true]) (onlyU8 1) = .ok (s₀, s, s') ∧
        (s'.pool .ID2 .u8).total = 1 ∧ (s'.pool .ID2 .u8).alphasFlatStore = .empty ∧
        (s'.net .main).length = 1 ∧ ¬ InStep CursorSys.quietRng 16 (s .ID2).taken s' := by
  have result :
    (preprocessRunExtend (F := ZMod 251) CursorSys.quietRng smallCfg 16 "pool" (onlyU8 0)
      (fun _ => ⟨[], 0, [], 0⟩) (fun _ _ => none) (fun _ => [.load .u8 "pool" true])
        (onlyU8 1)).toOption.map
      (fun r => ((r.2.2.pool .ID2 .u8).total, (r.2.2.pool .ID2 .u8).alphasFlatStore,
        (r.2.2.net .main).length)) =
      some (1, .empty, 1) := by decide +kernel
  cases done : preprocessRunExtend (F := ZMod 251) CursorSys.quietRng smallCfg 16 "pool" (onlyU8 0)
      (fun _ => ⟨[], 0, [], 0⟩) (fun _ _ => none) (fun _ => [.load .u8 "pool" true]) (onlyU8 1) with
  | error e =>
    rw [done] at result
    cases result
  | ok run =>
    obtain ⟨s₀, s, s'⟩ := run
    rw [done] at result
    simp only [Except.toOption, Option.map_some, Option.some.injEq, Prod.mk.injEq] at result
    obtain ⟨total, store, left⟩ := result
    refine ⟨s₀, s', s, rfl, total, store, left, fun inStep => ?_⟩
    rw [inStep.drained .main] at left
    cases left

end ProviaVM.Preprocessing
