import ProviaVM.Preprocessing.PoolExtension

/-! # Pools between preprocessing and extension

After `preprocess_pool_base` each party works on its own: it takes edaBits, saves its
sources to directories and reloads them from directories it saved to. `P0Kept` and
`P2Kept` are what such a run keeps of P0's and P2's sources. The result says, for every
state reached in this way, when an extension leaves P2 in step with P0. -/
namespace ProviaVM.Preprocessing
open ByteFile RawElem Framed LazyEdaBits Function Run EdaPool

/-- What a party does with one edaBit source. `PreprocessingPool::save` and `load` do this for the
five types in turn. A killed process does not run `Drop`. -/
inductive PartyOp where
  | take (t : RingType) (os : Os) (n : Nat)
  | save (t : RingType) (dir : String)
  | load (t : RingType) (dir : String) (dropRuns : Bool)

/-- A party's sources and disk, the directories it saved each type to, and, for each type, the
end of the items it has handed out. -/
structure PartyState (F : Type) where
  pool : EdaPool F
  disk : Disk
  dirs : RingType → List String
  taken : RingType → Nat

namespace PartyState

variable {F : Type} [Ring F] [RawElem F]

def step (c : ChaCha) (p : PartyID) (s : PartyState F) : PartyOp → Except IoError (PartyState F)
  | .take t os n => do
    let (_, src, writes) ← (s.pool t).takeBatch c os s.disk n
    return { s with
      pool := s.pool.set t src
      disk := s.disk.applyAll writes
      taken := Function.update s.taken t (max (s.taken t) src.cursor) }
  | .save t dir => do
    let (src, disk) ← (s.pool t).save s.disk dir
    return { s with
      pool := s.pool.set t src
      disk := disk
      dirs := Function.update s.dirs t (dir :: s.dirs t) }
  | .load t dir dropRuns =>
    if dir ∈ s.dirs t then do
      let disk := if dropRuns then s.disk.applyAll (s.pool t).drop else s.disk
      let (src, disk) ← LazyEdaBits.load F t.width disk dir p
      return { s with pool := s.pool.set t src, disk := disk }
    else .error (.notFound (metaFile t.width dir))

end PartyState

section Kept

variable {F : Type} {K : Nat}

/-- The metadata file of a directory holds the seeds and the total of a source. -/
def HeaderHas (d : Disk) (path : Path) (r : Rep3Rand) (total : Nat) : Prop :=
  ∃ m, d path = some (.header m) ∧ ⟨m.seed1, m.pos1, m.seed2, m.pos2⟩ = r ∧ m.total = total

variable {d : Disk} {r : Rep3Rand} {total : Nat} {src : LazyEdaBits F K} {dirs : List String}
  {A : Nat → F} {live : Nat}

theorem HeaderHas.applyAll {path : Path} (ws : List Write) (h : HeaderHas d path r total) :
    HeaderHas (d.applyAll ws) path r total := by
  obtain ⟨m, found, seeds, sized⟩ := h
  obtain ⟨cursor, found'⟩ := header_applyAll ws found
  exact ⟨_, found', seeds, sized⟩

/-- P0's side: seeds and total are those of the start, in memory and in every saved
directory. -/
structure P0Kept (r : Rep3Rand) (total : Nat) (src : LazyEdaBits F K) (d : Disk)
    (dirs : List String) :
    Prop where
  rand : src.rand = r
  sameTotal : src.total = total
  headers : ∀ dir ∈ dirs, HeaderHas d (metaFile K dir) r total

theorem P0Kept.applyAll (h : P0Kept r total src d dirs) (ws : List Write) :
    P0Kept r total src (d.applyAll ws) dirs :=
  ⟨h.rand, h.sameTotal, fun dir saved => (h.headers dir saved).applyAll ws⟩

theorem P0Kept.congr {d' : Disk} (h : P0Kept r total src d dirs)
    (same : ∀ q, q.name = .edabitsMeta K → d' q = d q) :
    P0Kept r total src d' dirs := by
  refine ⟨h.rand, h.sameTotal, fun dir saved => ?_⟩
  obtain ⟨m, found, header⟩ := h.headers dir saved
  exact ⟨m, (same _ rfl).trans found, header⟩

variable [RawElem F]

/-- Writes that spare the elements from `live'` on keep a source in step behind `live'`. -/
theorem P2Holds.applyAll {live' : Nat} (h : P2Holds A live src d) {ws : List Write}
    (later : live ≤ live') (spares : ∀ path, storePath src.alphasFlatStore = some path →
      ∀ e, live' * K ≤ e → ∀ w ∈ ws, Spares F path e w) : P2Holds A live' src (d.applyAll ws) := by
  refine ⟨h.len, fun e low high => ?_, fun path len append store => ?_⟩
  · rw [storedAt_applyAll fun path own w member => spares path own e low w member]
    exact h.stored e (Nat.le_trans (Nat.mul_le_mul_right K later) low) high
  · exact fileHas_applyAll ws (h.file path len append store)

/-- P2's side: the source is in step at the start's total, its store has the file name of its type,
and every saved directory has the total and the elements from `live` on. -/
structure P2Kept (A : Nat → F) (live total : Nat) (src : LazyEdaBits F K) (d : Disk)
    (dirs : List String) :
    Prop where
  holds : P2Holds A live src d
  sameTotal : src.total = total
  party : src.partyId = .ID2
  mode : src.alphasFlatStore.len ≠ 0 → src.storageMode = .p2Authoritative
  name : ∀ path, storePath src.alphasFlatStore = some path → path.name = .edabitsAlpha2 K
  headers : ∀ dir ∈ dirs, ∃ m, d (metaFile K dir) = some (.header m) ∧ m.total = total
  files : ∀ dir ∈ dirs, 0 < total →
    FileHas F d (authoritativeAlphaPath K dir) (total * K) ∧
      ∀ e, live * K ≤ e → e < total * K →
        fileElem F d (authoritativeAlphaPath K dir) e = some (A e)

theorem P2Kept.applyAll {live' : Nat} (h : P2Kept A live total src d dirs) {ws : List Write}
    (later : live ≤ live')
    (spares : ∀ path, path.name = .edabitsAlpha2 K → ∀ e, live' * K ≤ e →
      ∀ w ∈ ws, Spares F path e w) :
    P2Kept A live' total src (d.applyAll ws) dirs := by
  have holds := h.holds.applyAll later fun path own => spares path (h.name path own)
  refine ⟨holds, h.sameTotal, h.party, h.mode, h.name, fun dir saved => ?_,
    fun dir saved some_ => ?_⟩
  · obtain ⟨m, found, sized⟩ := h.headers dir saved
    obtain ⟨cursor, found'⟩ := header_applyAll ws found
    exact ⟨_, found', sized⟩
  · obtain ⟨file, elements⟩ := h.files dir saved some_
    refine ⟨fileHas_applyAll ws file, fun e low high => ?_⟩
    have kept := @storedAt_applyAll F _ d e (.fileBacked (authoritativeAlphaPath K dir) 0 0) ws
      (fun path own w member => spares path (by cases own; rfl) e low w member)
    exact kept.trans (elements e (Nat.le_trans (Nat.mul_le_mul_right K later) low) high)

theorem P2Kept.congr {d' : Disk} (h : P2Kept A live total src d dirs)
    (same : ∀ q, q.name = .edabitsMeta K ∨ q.name = .edabitsAlpha2 K → d' q = d q) :
    P2Kept A live total src d' dirs := by
  refine ⟨h.holds.congr fun path own => same path (Or.inr (h.name path own)), h.sameTotal,
    h.party, h.mode, h.name, fun dir saved => ?_, fun dir saved some_ => ?_⟩
  · obtain ⟨m, found, sized⟩ := h.headers dir saved
    exact ⟨m, (same _ (Or.inl rfl)).trans found, sized⟩
  · obtain ⟨⟨b, found, sized⟩, elements⟩ := h.files dir saved some_
    have file : d' (authoritativeAlphaPath K dir) = d (authoritativeAlphaPath K dir) :=
      same _ (Or.inr rfl)
    exact ⟨⟨b, file.trans found, sized⟩,
      fun e low high => (fileElem_congr file e).trans (elements e low high)⟩

end Kept

section SaveLoad

variable {F : Type} [RawElem F] {K : Nat} [RawElem (BitVec K)]
variable {total : Nat} {src src' : LazyEdaBits F K} {d d' : Disk} {dirs : List String}
  {dir : String}

omit [RawElem (BitVec K)] in
theorem P0Kept.save {r : Rep3Rand} (kept : P0Kept r total src d dirs)
    (h : src.save d dir = .ok (src', d')) :
    P0Kept r total src' d' (dir :: dirs) := by
  obtain ⟨rfl, header, -, frame⟩ := save_ok h
  refine ⟨kept.rand, kept.sameTotal, fun dir' saved => ?_⟩
  rcases eq_or_ne dir' dir with rfl | different
  · exact ⟨_, header, kept.rand, kept.sameTotal⟩
  · have earlier : dir' ∈ dirs := by simpa [different] using saved
    obtain ⟨m, found, fields⟩ := kept.headers dir' earlier
    have same := frame (metaFile K dir') (by simp [metaFile, different])
      (by simp [metaFile, authoritativeAlphaPath])
    exact ⟨m, same.trans found, fields⟩

/-- The elements of a list written to a file. -/
theorem fileElem_bytesOf {path : Path} {v : List F} (found : d path = some (.data (bytesOf v)))
    {e : Nat} (inside : e < v.length) : fileElem F d path e = v[e]? := by
  have room : (e + 1) * size F ≤ (bytesOf v).length := by
    rw [length_bytesOf]
    exact Nat.mul_le_mul_right _ inside
  simp [fileElem_data found room, elemAt, elemBytes_bytesOf v e inside]

omit [RawElem (BitVec K)] in
/-- Saving a nonempty P2 store leaves its elements in the directory's file. -/
theorem saveAlpha_contents {d₁ : Disk}
    (file : ∀ path len append, src.alphasFlatStore = .fileBacked path len append →
      FileHas F d path len)
    (mode : src.storageMode = .p2Authoritative) (nonempty : src.alphasFlatStore.len ≠ 0)
    (h : src.saveAlpha d dir = .ok d₁) :
    FileHas F d₁ (authoritativeAlphaPath K dir) src.alphasFlatStore.len ∧
      ∀ e < src.alphasFlatStore.len,
        fileElem F d₁ (authoritativeAlphaPath K dir) e = storedAt src.alphasFlatStore d e := by
  have written : src.storageMode = .p2Authoritative ∧ ¬ src.alphasFlatStore.isEmpty :=
    ⟨mode, by simpa [BackingStore.isEmpty] using nonempty⟩
  unfold saveAlpha at h
  rw [if_pos written] at h
  cases store : src.alphasFlatStore with
  | empty =>
    rw [store] at nonempty
    exact absurd rfl nonempty
  | inMemory v =>
    rw [store] at h
    cases h
    exact ⟨⟨_, Disk.set_same _ _ _, length_bytesOf v⟩,
      fun e inside => fileElem_bytesOf (Disk.set_same _ _ _) inside⟩
  | fileBacked path len append =>
    rw [store] at h
    obtain ⟨b, found, sized⟩ := file path len append store
    simp only [BackingStore.saveToFile, found] at h
    split at h
    · rename_i same
      cases h
      subst same
      exact ⟨⟨b, found, sized⟩, fun e _ => rfl⟩
    · cases h
      refine ⟨⟨b, Disk.set_same _ _ _, sized⟩, fun e _ => ?_⟩
      simp only [fileElem, storedAt, Disk.set_same, found]

omit [RawElem (BitVec K)] in
/-- Saving copies the elements from `live` on into the new directory and records the total there. -/
theorem P2Kept.save {A : Nat → F} {live : Nat} (wide : 0 < K)
    (kept : P2Kept A live total src d dirs) (h : src.save d dir = .ok (src', d')) :
    P2Kept A live total src' d' (dir :: dirs) := by
  obtain ⟨rfl, header, ⟨d₁, saved, data⟩, frame⟩ := save_ok h
  have alphaData : d' (authoritativeAlphaPath K dir) = d₁ (authoritativeAlphaPath K dir) :=
    data _ (by simp [metaFile, authoritativeAlphaPath])
  -- the store's own file is not the metadata file, and is copied onto itself at most
  have own : ∀ path, storePath src.alphasFlatStore = some path → d' path = d path := by
    intro path isStore
    have notMeta : path ≠ metaFile K dir := by
      rintro rfl
      exact absurd (kept.name _ isStore) (by simp [metaFile])
    rcases eq_or_ne path (authoritativeAlphaPath K dir) with rfl | different
    · cases store : src.alphasFlatStore with
      | inMemory v => simp [store, storePath] at isStore
      | empty => simp [store, storePath] at isStore
      | fileBacked path len append =>
        rw [store] at isStore
        cases isStore
        rw [alphaData]
        unfold saveAlpha at saved
        split at saved
        · simp only [store, BackingStore.saveToFile] at saved
          cases saved
          rfl
        · cases saved
          rfl
    · exact frame path notMeta different
  have holds := kept.holds.congr own
  refine ⟨⟨holds.len, holds.stored, holds.file⟩, kept.sameTotal, kept.party, kept.mode, kept.name,
    fun dir' member => ?_, fun dir' member some_ => ?_⟩
  · rcases eq_or_ne dir' dir with rfl | different
    · exact ⟨_, header, kept.sameTotal⟩
    · obtain ⟨m', found, sized'⟩ := kept.headers dir' (by simpa [different] using member)
      have same := frame (metaFile K dir') (by simp [metaFile, different])
        (by simp [metaFile, authoritativeAlphaPath])
      exact ⟨m', same.trans found, sized'⟩
  · rcases eq_or_ne dir' dir with rfl | different
    · have len : src.alphasFlatStore.len = total * K := by rw [kept.holds.len, kept.sameTotal]
      have nonempty : src.alphasFlatStore.len ≠ 0 := by
        rw [len]
        exact Nat.pos_iff_ne_zero.mp (Nat.mul_pos some_ wide)
      obtain ⟨⟨b, found, length⟩, elements⟩ :=
        saveAlpha_contents kept.holds.file (kept.mode nonempty) nonempty saved
      refine ⟨⟨b, alphaData.trans found, by rw [length, len]⟩, fun e low high => ?_⟩
      rw [fileElem_congr alphaData, elements e (by rw [len]; exact high)]
      exact kept.holds.stored e low (by rw [kept.sameTotal]; exact high)
    · obtain ⟨⟨b, found, length⟩, elements⟩ :=
        kept.files dir' (by simpa [different] using member) some_
      have same := frame (authoritativeAlphaPath K dir')
        (by simp [metaFile, authoritativeAlphaPath])
        (by simp [authoritativeAlphaPath, different])
      exact ⟨⟨b, same.trans found, length⟩,
        fun e low high => (fileElem_congr same e).trans (elements e low high)⟩

/-- A party reloads the seeds and the total it saved, and no metadata file changes. -/
theorem P0Kept.load {r : Rep3Rand} {p : PartyID} (kept : P0Kept r total src d dirs)
    (saved : dir ∈ dirs) (h : LazyEdaBits.load F K d dir p = .ok (src', d')) :
    P0Kept r total src' d' dirs ∧ ∀ q, (∃ k, q.name = .edabitsMeta k) → d' q = d q := by
  obtain ⟨m, found, seeds, sized⟩ := kept.headers dir saved
  simp only [LazyEdaBits.load, bind_ok] at h
  obtain ⟨m', header, _, -, ⟨store, mode⟩, -, loaded⟩ := h
  obtain rfl := readMeta_unique found header
  obtain ⟨⟨a, md, g, rfl⟩, frame⟩ := loadPrecache_frame loaded
  have same : P0Kept r total src d' dirs := kept.congr fun q name => frame q ⟨K, name⟩
  exact ⟨⟨seeds, sized, same.headers⟩, frame⟩

/-- P2 reloads the elements it saved; a total of zero gives the empty store. -/
theorem P2Kept.load {A : Nat → F} {live : Nat} (wide : 0 < K)
    (kept : P2Kept A live total src d dirs) (saved : dir ∈ dirs)
    (h : LazyEdaBits.load F K d dir .ID2 = .ok (src', d')) :
    P2Kept A live total src' d' dirs ∧ d' = d := by
  obtain ⟨m, found, rfl⟩ := kept.headers dir saved
  simp only [LazyEdaBits.load, bind_ok] at h
  obtain ⟨m', header, _, -, ⟨store, mode⟩, stored, loaded⟩ := h
  obtain rfl := readMeta_unique found header
  cases loaded
  refine ⟨?_, rfl⟩
  unfold loadStore at stored
  split at stored
  · rename_i some_
    obtain ⟨loadedStore, read, checked⟩ := bind_ok.mp stored
    obtain ⟨⟨b, file, length⟩, elements⟩ := kept.files dir saved some_.2
    have unit : 0 < size F := size_pos
    have bytes : 0 < m.total * K * size F := Nat.mul_pos (Nat.mul_pos some_.2 wide) unit
    simp only [BackingStore.loadFromFile, file, length, Nat.mul_mod_left, Nat.mul_div_cancel _ unit,
      Nat.pos_iff_ne_zero.mp bytes] at read
    cases read
    split at checked
    · cases checked
    · cases checked
      refine ⟨⟨rfl, elements, ?_⟩, rfl, rfl, fun _ => rfl, ?_, kept.headers, kept.files⟩
      · rintro path len append same
        cases same
        exact ⟨b, file, length⟩
      · rintro path same
        cases same
        rfl
  · rename_i none_
    have zero : m.total = 0 := by
      by_contra nonzero
      exact none_ ⟨rfl, Nat.pos_of_ne_zero nonzero⟩
    cases stored
    refine ⟨⟨by simp [BackingStore.len, zero], fun e _ high => ?_, ?_⟩, rfl, rfl,
      fun nonempty => absurd rfl nonempty, ?_, kept.headers, kept.files⟩
    · simp [zero] at high
    · rintro path len append same
      cases same
    · rintro path same
      cases same

end SaveLoad

section Steps

theorem RingType.width_ne {t t' : RingType} (different : t ≠ t') : t.width ≠ t'.width := by
  cases t <;> cases t' <;> first | exact absurd rfl different | decide

theorem RingType.width_pos (t : RingType) : 0 < t.width := Nat.mul_pos (by decide) t.bytes_pos

variable {F : Type} [RawElem F]

/-- P2's writes spare the elements behind the cursor, and every other file. -/
theorem spares_of_mem_takeWrites {K : Nat} [RawElem (BitVec K)] {src : LazyEdaBits F K} {os : Os}
    {n e : Nat} {path : Path} {w : Write} (party : src.partyId = .ID2)
    (spared : (src.cursor + n) * K ≤ e ∨ storePath src.alphasFlatStore ≠ some path)
    (member : w ∈ src.takeWrites os n) : Spares F path e w := by
  unfold takeWrites takeReclaim at member
  split at member
  · cases member
  rcases List.mem_append.mp member with consumed | persisted
  · rcases spared with behind | other
    · exact spares_of_mem_consume consumed (Or.inr (by rwa [Nat.add_mul] at behind))
    · exact spares_of_mem_consume_other consumed other
  · exact spares_of_mem_persistTo persisted

variable [Ring F]
variable {c : ChaCha} {total : RingType → Nat} {s s' : PartyState F}

/-- P0's sources of all types keep their seeds and totals. -/
def AllP0Kept (r : RingType → Rep3Rand) (total : RingType → Nat) (s : PartyState F) : Prop :=
  ∀ t, P0Kept (r t) (total t) (s.pool t) s.disk (s.dirs t)

/-- P2's sources of all types are in step behind what was taken. -/
def AllP2Kept (A : RingType → Nat → F) (total : RingType → Nat) (s : PartyState F) : Prop :=
  ∀ t, P2Kept (A t) (s.taken t) (total t) (s.pool t) s.disk (s.dirs t)

/-- One step of P0 keeps the seeds and the totals of all types. -/
theorem P0Kept.step {p : PartyID} {r : RingType → Rep3Rand} {op : PartyOp}
    (kept : AllP0Kept r total s) (h : s.step c p op = .ok s') : AllP0Kept r total s' := by
  intro t'
  cases op with
  | take t os n =>
    obtain ⟨⟨b, src, ws⟩, taken, last⟩ := bind_ok.mp h
    cases last
    have before := (kept t').applyAll ws
    rcases eq_or_ne t' t with rfl | different
    · obtain ⟨-, rfl, -⟩ := takeBatch_spec taken
      dsimp only
      rw [set_same]
      exact ⟨before.rand, before.sameTotal, before.headers⟩
    · dsimp only
      rw [set_ne _ _ different]
      exact before
  | save t dir =>
    obtain ⟨⟨src, d⟩, saved, last⟩ := bind_ok.mp h
    cases last
    rcases eq_or_ne t' t with rfl | different
    · simp only [set_same, update_self]
      exact (kept t').save saved
    · simp only [set_ne _ _ different, update_of_ne different]
      obtain ⟨-, -, -, frame⟩ := save_ok saved
      refine (kept t').congr fun q name => frame q ?_ ?_
      · rintro rfl
        exact RingType.width_ne different.symm (by simpa [metaFile] using name)
      · rintro rfl
        simp [authoritativeAlphaPath] at name
  | load t dir dropRuns =>
    simp only [PartyState.step] at h
    split at h
    case isFalse => cases h
    rename_i saved
    obtain ⟨⟨src, d⟩, loaded, last⟩ := bind_ok.mp h
    cases last
    have dropped : ∀ t', P0Kept (r t') (total t') (s.pool t')
        (if dropRuns then s.disk.applyAll (s.pool t).drop else s.disk) (s.dirs t') := by
      intro t'
      split
      · exact (kept t').applyAll _
      · exact kept t'
    obtain ⟨reloaded, frame⟩ := (dropped t).load saved loaded
    rcases eq_or_ne t' t with rfl | different
    · dsimp only
      rw [set_same]
      exact reloaded
    · dsimp only
      rw [set_ne _ _ different]
      exact (dropped t').congr fun q name => frame q ⟨_, name⟩

/-- One step of P2 keeps every source in step behind what was taken. -/
theorem P2Kept.step {A : RingType → Nat → F} {op : PartyOp} (kept : AllP2Kept A total s)
    (h : s.step c .ID2 op = .ok s') :
    AllP2Kept A total s' := by
  intro t'
  cases op with
  | take t os n =>
    obtain ⟨⟨b, src, ws⟩, taken, last⟩ := bind_ok.mp h
    obtain ⟨-, rfl, rfl⟩ := takeBatch_spec taken
    cases last
    rcases eq_or_ne t' t with rfl | different
    · have spares : ∀ path, path.name = .edabitsAlpha2 t'.width →
          ∀ e, max (s.taken t') ((s.pool t').cursor + n) * t'.width ≤ e →
            ∀ w ∈ (s.pool t').takeWrites os n, Spares F path e w := by
        intro path _ e low w member
        have behind :=
          Nat.mul_le_mul_right t'.width (Nat.le_max_right (s.taken t') ((s.pool t').cursor + n))
        exact spares_of_mem_takeWrites (kept t').party (Or.inl (Nat.le_trans behind low)) member
      have after := (kept t').applyAll (Nat.le_max_left _ _) spares
      simp only [set_same, update_self]
      exact ⟨⟨after.holds.len, after.holds.stored, after.holds.file⟩, after.sameTotal,
        after.party, after.mode, after.name, after.headers, after.files⟩
    · simp only [set_ne _ _ different, update_of_ne different]
      refine (kept t').applyAll (Nat.le_refl _) fun path name e low w member =>
        spares_of_mem_takeWrites (kept t).party (Or.inr fun own => ?_) member
      have own' := (kept t).name path own
      rw [name] at own'
      exact RingType.width_ne different (by simpa using own')
  | save t dir =>
    obtain ⟨⟨src, d⟩, saved, last⟩ := bind_ok.mp h
    cases last
    rcases eq_or_ne t' t with rfl | different
    · simp only [set_same, update_self]
      exact (kept t').save t'.width_pos saved
    · simp only [set_ne _ _ different, update_of_ne different]
      obtain ⟨-, -, -, frame⟩ := save_ok saved
      refine (kept t').congr fun q name => frame q ?_ ?_
      · rintro rfl
        exact RingType.width_ne different.symm (by simpa [metaFile] using name)
      · rintro rfl
        exact RingType.width_ne different.symm (by simpa [authoritativeAlphaPath] using name)
  | load t dir dropRuns =>
    simp only [PartyState.step] at h
    split at h
    case isFalse => cases h
    rename_i saved
    obtain ⟨⟨src, d⟩, loaded, last⟩ := bind_ok.mp h
    cases last
    have dropped : ∀ t', P2Kept (A t') (s.taken t') (total t') (s.pool t')
        (if dropRuns then s.disk.applyAll (s.pool t).drop else s.disk) (s.dirs t') := by
      intro t'
      split
      · exact (kept t').applyAll (Nat.le_refl _) fun _ _ _ _ _ member =>
          spares_of_mem_persistTo member
      · exact kept t'
    obtain ⟨reloaded, rfl⟩ := (dropped t).load t.width_pos saved loaded
    rcases eq_or_ne t' t with rfl | different
    · dsimp only
      rw [set_same]
      exact reloaded
    · dsimp only
      rw [set_ne _ _ different]
      exact dropped t'

theorem P0Kept.run {p : PartyID} {r : RingType → Rep3Rand} {ops : List PartyOp}
    (h : Run.run (PartyState.step c p) s ops = .ok s') (kept : AllP0Kept r total s) :
    AllP0Kept r total s' :=
  run_keeps (fun _ _ _ before done => P0Kept.step before done) kept h

theorem P2Kept.run {A : RingType → Nat → F} {ops : List PartyOp}
    (h : Run.run (PartyState.step c .ID2) s ops = .ok s') (kept : AllP2Kept A total s) :
    AllP2Kept A total s' :=
  run_keeps (fun _ _ _ before done => P2Kept.step before done) kept h

end Steps

end ProviaVM.Preprocessing
