import ProviaVM.Preprocessing.LazySources

/-! # What one take, save or load does

For every source kind, one lemma gives the complete effect of a successful
`take_batch`: the cursor moves by `n`, nothing else in memory changes, and the
durable writes are exactly `takeWrites`. The lemmas for `save` and `load` give
the metadata they write and read. Everything later about cursors and crashes is
derived from these. -/
namespace ProviaVM.Preprocessing
open ByteFile RawElem Run

variable {os : Os} {d : Disk} {n : Nat} {w : List Write}

namespace LazyEdaBits

variable {F : Type} [RawElem F] {K : Nat} [RawElem (BitVec K)]

/-- The reclaim writes of a nonempty take: P2's store range, or the part of the request
that lies in the precache window. -/
def takeReclaim (s : LazyEdaBits F K) (os : Os) (n : Nat) : List Write :=
  if s.partyId = .ID2 then s.alphasFlatStore.consume os (s.cursor * K) (s.cursor * K + n * K)
  else match s.storageMode with
    | .p01Precache startCursor len =>
      if s.cursor < startCursor ∨ startCursor + len ≤ s.cursor then []
      else
        let cached := min (startCursor + len - s.cursor) n
        let alphaStart := (s.cursor - startCursor) * K
        let gammaStart := s.cursor - startCursor
        s.alphasFlatStore.consume os alphaStart (alphaStart + cached * K) ++
          (if s.partyId = .ID0 then s.gammaStore.consume os gammaStart (gammaStart + cached)
            else [])
    | _ => []

/-- The reclaim comes before the cursor write. -/
def takeWrites (s : LazyEdaBits F K) (os : Os) (n : Nat) : List Write :=
  if n = 0 then [] else s.takeReclaim os n ++ persistTo s.metaPath (s.cursor + n)

variable {s : LazyEdaBits F K}

theorem takeStoreRangeInto_ok {α : Type} [RawElem α] {store : BackingStore α} {start stop : Nat}
    {xs : List α} (h : takeStoreRangeInto store os d start stop = .ok (xs, w)) :
    store.readConsumeIntoSlice d start stop (stop - start) = .ok xs ∧
      w = store.consume os start stop := by
  unfold takeStoreRangeInto at h
  obtain ⟨ys, read, last⟩ := bind_ok.mp h
  cases last
  exact ⟨read, rfl⟩

/-- Filling from the window of P0 or P1 writes the reclaims of the read items and nothing else. -/
theorem fillPrecacheInto_writes {b : EdaBitsBatch F K} (notP2 : s.partyId ≠ .ID2)
    (h : s.fillPrecacheInto os d s.cursor n = .ok (b, w)) : w = s.takeReclaim os n := by
  unfold fillPrecacheInto at h
  unfold takeReclaim
  rw [if_neg notP2]
  cases mode : s.storageMode with
  | none =>
    simp only [mode] at h
    cases h
    rfl
  | p2Authoritative =>
    simp only [mode] at h
    cases h
    rfl
  | p01Precache startCursor len =>
    simp only [mode] at h ⊢
    split at h
    · rename_i outside
      cases h
      rw [if_pos outside]
    rename_i inside
    rw [if_neg inside]
    obtain ⟨⟨alphas, alphaWrites⟩, readAlpha, rest⟩ := bind_ok.mp h
    obtain ⟨-, rfl⟩ := takeStoreRangeInto_ok (unwrapOrPanic_ok.mp readAlpha)
    cases party : s.partyId with
    | ID0 =>
      simp only [party] at rest
      obtain ⟨⟨gammas, gammaWrites⟩, readGamma, last⟩ := bind_ok.mp rest
      obtain ⟨-, rfl⟩ := takeStoreRangeInto_ok (unwrapOrPanic_ok.mp readGamma)
      cases last
      simp
    | ID1 =>
      simp only [party] at rest
      cases rest
      simp
    | ID2 => exact absurd party notP2

variable [NatCast F]

theorem takeBatch_spec {s' : LazyEdaBits F K} {c : ChaCha} {b : EdaBitsBatch F K}
    (h : s.takeBatch c os d n = .ok (b, s', w)) :
    s.cursor + n ≤ s.total ∧ s' = { s with cursor := s.cursor + n } ∧ w = s.takeWrites os n := by
  unfold takeBatch ensureAvailable at h
  obtain ⟨_, ensured, h⟩ := bind_ok.mp h
  split at ensured
  case isFalse => cases ensured
  rename_i available
  split at h
  · rename_i zero
    cases h
    subst zero
    exact ⟨available, rfl, rfl⟩
  rename_i positive
  split at h
  · rename_i isP2
    obtain ⟨⟨alphas, writes⟩, read, last⟩ := bind_ok.mp h
    obtain ⟨-, rfl⟩ := takeStoreRangeInto_ok (unwrapOrPanic_ok.mp read)
    cases last
    exact ⟨available, rfl, by simp [takeWrites, takeReclaim, persistCursor, positive, isP2]⟩
  · rename_i notP2
    obtain ⟨⟨cached, writes⟩, fill, rest⟩ := bind_ok.mp h
    obtain ⟨generated, -, last⟩ := bind_ok.mp rest
    cases last
    refine ⟨available, rfl, ?_⟩
    rw [fillPrecacheInto_writes notP2 fill]
    simp [takeWrites, persistCursor, positive]

omit [RawElem (BitVec K)] [NatCast F] in
theorem saveAlpha_frame {d' : Disk} {dir : String} (h : s.saveAlpha d dir = .ok d') {q : Path}
    (other : q ≠ authoritativeAlphaPath K dir) : d' q = d q := by
  unfold saveAlpha BackingStore.saveToFile at h
  split at h
  · split at h
    · cases h
      exact Disk.set_ne _ other
    · split at h
      · cases h
        rfl
      split at h
      · cases h
        exact Disk.set_ne _ other
      · cases h
    · cases h
      rfl
  · cases h
    rfl

omit [RawElem (BitVec K)] [NatCast F] in
/-- `save` writes the metadata and changes the two files of its type in the directory. -/
theorem save_ok {s' : LazyEdaBits F K} {d' : Disk} {dir : String}
    (h : s.save d dir = .ok (s', d')) :
    s' = { s with metaPath := some (metaFile K dir) } ∧
      d' (metaFile K dir) = some (.header ⟨s.seed1, s.pos1, s.seed2, s.pos2, s.total,
        partyIdToByte s.partyId, s.cursor, s.fieldBytes⟩) ∧
      (∃ d₁, s.saveAlpha d dir = .ok d₁ ∧ ∀ q, q ≠ metaFile K dir → d' q = d₁ q) ∧
      ∀ q, q ≠ metaFile K dir → q ≠ authoritativeAlphaPath K dir → d' q = d q := by
  unfold save at h
  obtain ⟨d₁, saved, last⟩ := bind_ok.mp h
  cases last
  refine ⟨rfl, Disk.set_same _ _ _, ⟨d₁, saved, fun q other => Disk.set_ne _ other⟩, ?_⟩
  intro q notMeta notAlpha
  exact (Disk.set_ne _ notMeta).trans (saveAlpha_frame saved notAlpha)

end LazyEdaBits

namespace LazyRandOhvs

variable {F : Type} [RawElem F]

def takeWrites (s : LazyRandOhvs F) (os : Os) (n : Nat) : List Write :=
  if n = 0 then []
  else
    persistTo s.metaPath (s.cursor + n) ++
      s.rA.consume os s.cursor (s.cursor + n) ++ s.rB.consume os s.cursor (s.cursor + n) ++
      s.eAFlat.consume os (s.cursor * randOhvK) (s.cursor * randOhvK + n * randOhvK) ++
      s.eBFlat.consume os (s.cursor * randOhvK) (s.cursor * randOhvK + n * randOhvK)

theorem takeBatch_spec {s s' : LazyRandOhvs F} {b : RandOhvBatch F}
    (h : s.takeBatch os d n = .ok (b, s', w)) :
    s.cursor + n ≤ s.total ∧ s' = { s with cursor := s.cursor + n } ∧ w = s.takeWrites os n := by
  unfold takeBatch at h
  split at h
  · cases h
  split at h
  · rename_i zero
    cases h
    subst zero
    exact ⟨by omega, rfl, rfl⟩
  rename_i positive
  simp only [bind_ok] at h
  obtain ⟨rA, -, rB, -, eA, -, eB, -, rs, -, es, -, last⟩ := h
  cases last
  exact ⟨by omega, rfl, by simp [takeWrites, positive]⟩

end LazyRandOhvs

namespace LazyDaBits

variable {F : Type} [Ring F] [RawElem F]

/-- Elements P2 and P0 store per daBit. -/
def storedPerItem : PartyID → Nat
  | .ID2 => 2
  | _ => 1

/-- P1 writes nothing; the others write the cursor before they reclaim, also for `n = 0`. -/
def takeWrites (s : LazyDaBits F) (os : Os) (n : Nat) : List Write :=
  if s.partyId = .ID1 then []
  else
    let k := storedPerItem s.partyId
    persistTo s.metaPath (s.cursor + n) ++ s.stored.consume os (s.cursor * k) (s.cursor * k + k * n)

theorem takeBatch_spec {s s' : LazyDaBits F} {c : ChaCha} {b : DaBitBatch F}
    (h : s.takeBatch c os d n = .ok (b, s', w)) :
    s.cursor + n ≤ s.total ∧ s' = { s with cursor := s.cursor + n } ∧ w = s.takeWrites os n := by
  unfold takeBatch at h
  split at h
  · cases h
  cases party : s.partyId with
  | ID0 =>
    simp only [party, bind_ok] at h
    obtain ⟨stored, -, r1s, -, vShares, -, last⟩ := h
    cases last
    exact ⟨by omega, rfl, by simp [takeWrites, storedPerItem, party]⟩
  | ID1 =>
    simp only [party, bind_ok] at h
    obtain ⟨vShares, -, last⟩ := h
    cases last
    exact ⟨by omega, rfl, by simp [takeWrites, party]⟩
  | ID2 =>
    simp only [party, bind_ok] at h
    obtain ⟨stored, -, vShares, -, last⟩ := h
    cases last
    exact ⟨by omega, rfl, by simp [takeWrites, storedPerItem, party]⟩

end LazyDaBits

namespace LazyEdaBitsRing

variable {K : Nat} [RawElem (BitVec K)]

/-- Only P2 writes; the cursor goes first. -/
def takeWrites (s : LazyEdaBitsRing K) (os : Os) (n : Nat) : List Write :=
  if n = 0 ∨ s.partyId ≠ .ID2 then []
  else persistTo s.metaPath (s.cursor + n) ++
    s.alpha2Flat.consume os (s.cursor * K) (s.cursor * K + n * K)

theorem takeBatch_spec {s s' : LazyEdaBitsRing K} {c : ChaCha}
    {b : EdaBitsBatch (BitVec K) K} (h : s.takeBatch c os d n = .ok (b, s', w)) :
    s.cursor + n ≤ s.total ∧ s' = { s with cursor := s.cursor + n } ∧ w = s.takeWrites os n := by
  unfold takeBatch at h
  split at h
  · cases h
  split at h
  · rename_i zero
    cases h
    subst zero
    exact ⟨by omega, rfl, by simp [takeWrites]⟩
  rename_i positive
  split at h
  · rename_i isP2
    obtain ⟨alphas, -, last⟩ := bind_ok.mp h
    cases last
    exact ⟨by omega, rfl, by simp [takeWrites, positive, isP2]⟩
  · rename_i notP2
    cases h
    exact ⟨by omega, rfl, by simp [takeWrites, notP2]⟩

end LazyEdaBitsRing

namespace LazyWrapMasks

variable {K : Nat} [RawElem (BitVec K)]

def takeWrites (s : LazyWrapMasks K) (os : Os) (n : Nat) : List Write :=
  if n = 0 then []
  else persistTo s.metaPath (s.cursor + n) ++
    s.maskArithFlat.consume os (s.cursor * 2) (s.cursor * 2 + n * 2)

theorem takeBatch_spec {s s' : LazyWrapMasks K} {c : ChaCha} {b : WrapMaskBatch K}
    (h : s.takeBatch c os d n = .ok (b, s', w)) :
    s.cursor + n ≤ s.total ∧ s' = { s with cursor := s.cursor + n } ∧ w = s.takeWrites os n := by
  unfold takeBatch at h
  split at h
  · cases h
  split at h
  · rename_i zero
    cases h
    subst zero
    exact ⟨by omega, rfl, rfl⟩
  rename_i positive
  simp only [bind_ok] at h
  obtain ⟨flat, -, masks, -, last⟩ := h
  cases last
  exact ⟨by omega, rfl, by simp [takeWrites, positive]⟩

end LazyWrapMasks

namespace LazyDaPoints

variable {C : Type} [Zero C] [RawElem C]

/-- P1 and P2 reclaim before they write the cursor. -/
def takeWrites (s : LazyDaPoints C) (os : Os) (n : Nat) : List Write :=
  if n = 0 then []
  else (if s.partyId = .ID0 then [] else s.alphas.consume os s.cursor (s.cursor + n)) ++
    persistTo s.metaPath (s.cursor + n)

theorem takeBatch_spec {s s' : LazyDaPoints C} {b : DaPointsBatch C}
    (h : s.takeBatch os d n = .ok (b, s', w)) :
    s.cursor + n ≤ s.total ∧ s' = { s with cursor := s.cursor + n } ∧ w = s.takeWrites os n := by
  unfold takeBatch at h
  split at h
  · cases h
  split at h
  · rename_i zero
    cases h
    subst zero
    exact ⟨by omega, rfl, rfl⟩
  rename_i positive
  dsimp only at h
  split at h
  · rename_i isP0
    split at h
    · cases h
    cases h
    exact ⟨by omega, rfl, by simp [takeWrites, positive, isP0]⟩
  · rename_i notP0
    obtain ⟨points, -, last⟩ := bind_ok.mp h
    cases last
    exact ⟨by omega, rfl, by simp [takeWrites, positive, notP0]⟩

end LazyDaPoints

namespace LazySource

variable {F C : Type} {K : Nat}

def setCursor (value : Nat) : LazySource F C K → LazySource F C K
  | .edaBits s => .edaBits { s with cursor := value }
  | .edaBitsRing s => .edaBitsRing { s with cursor := value }
  | .daBits s => .daBits { s with cursor := value }
  | .randOhvs s => .randOhvs { s with cursor := value }
  | .wrapMasks s => .wrapMasks { s with cursor := value }
  | .daPoints s => .daPoints { s with cursor := value }

@[simp] theorem setCursor_cursor (v : Nat) (s : LazySource F C K) : (s.setCursor v).cursor = v := by
  cases s <;> rfl

@[simp] theorem setCursor_kind (v : Nat) (s : LazySource F C K) :
    (s.setCursor v).kind = s.kind := by
  cases s <;> rfl

@[simp] theorem setCursor_metaPath (v : Nat) (s : LazySource F C K) :
    (s.setCursor v).metaPath = s.metaPath := by
  cases s <;> rfl

@[simp] theorem setCursor_partyId (v : Nat) (s : LazySource F C K) :
    (s.setCursor v).partyId = s.partyId := by
  cases s <;> rfl

variable [RawElem F] [RawElem (BitVec K)]

def takeWrites [RawElem C] (os : Os) (n : Nat) : LazySource F C K → List Write
  | .edaBits s => s.takeWrites os n
  | .edaBitsRing s => s.takeWrites os n
  | .daBits s => s.takeWrites os n
  | .randOhvs s => s.takeWrites os n
  | .wrapMasks s => s.takeWrites os n
  | .daPoints s => s.takeWrites os n

/-- Whether a take of `n` by this source writes its cursor back. -/
def persistsOnTake (n : Nat) : LazySource F C K → Bool
  | .edaBits _ => n != 0
  | .edaBitsRing s => n != 0 && s.partyId == .ID2
  | .daBits s => s.partyId != .ID1
  | .randOhvs _ => n != 0
  | .wrapMasks _ => n != 0
  | .daPoints _ => n != 0

/-- Only reclaims: no cursor is written. -/
def OnlyReclaims (ws : List Write) : Prop := ∀ w ∈ ws, ∃ path off len, w = .zero path off len

theorem onlyReclaims_nil : OnlyReclaims [] := by
  intro w member
  cases member

theorem OnlyReclaims.append {xs ys : List Write} (hx : OnlyReclaims xs) (hy : OnlyReclaims ys) :
    OnlyReclaims (xs ++ ys) := by
  intro w member
  rcases List.mem_append.mp member with left | right
  · exact hx w left
  · exact hy w right

theorem OnlyReclaims.ite {p : Prop} [Decidable p] {ws : List Write} (h : OnlyReclaims ws) :
    OnlyReclaims (if p then [] else ws) := by
  split
  · exact onlyReclaims_nil
  · exact h

theorem onlyReclaims_consume {α : Type} [RawElem α] {store : BackingStore α} {start stop : Nat} :
    OnlyReclaims (store.consume os start stop) := by
  intro w member
  obtain ⟨path, _, _, off, n, -, rfl, -⟩ := BackingStore.mem_consume member
  exact ⟨path, off, n, rfl⟩

theorem onlyReclaims_consumeRange {α : Type} [RawElem α] (store : BackingStore α) (os : Os)
    (range : Option (Nat × Nat)) : OnlyReclaims (LazyEdaBits.consumeRange store os range) := by
  cases range with
  | none => exact onlyReclaims_nil
  | some r => exact onlyReclaims_consume

theorem onlyReclaims_takeReclaim (s : LazyEdaBits F K) (os : Os) (n : Nat) :
    OnlyReclaims (s.takeReclaim os n) := by
  unfold LazyEdaBits.takeReclaim
  split
  · exact onlyReclaims_consume
  split
  · split
    · exact onlyReclaims_nil
    apply OnlyReclaims.append onlyReclaims_consume
    split
    · exact onlyReclaims_consume
    · exact onlyReclaims_nil
  · exact onlyReclaims_nil

/-- The reclaims a take performs before it writes the cursor. -/
def reclaimFirst [RawElem C] (os : Os) (n : Nat) : LazySource F C K → List Write
  | .edaBits s => if n = 0 then [] else s.takeReclaim os n
  | .daPoints s =>
    if n = 0 ∨ s.partyId = .ID0 then [] else s.alphas.consume os s.cursor (s.cursor + n)
  | _ => []

/-- The reclaims a take performs after it wrote the cursor. -/
def reclaimLast (os : Os) (n : Nat) : LazySource F C K → List Write
  | .edaBitsRing s =>
    if n = 0 ∨ s.partyId ≠ .ID2 then []
    else s.alpha2Flat.consume os (s.cursor * K) (s.cursor * K + n * K)
  | .daBits s =>
    let k := LazyDaBits.storedPerItem s.partyId
    if s.partyId = .ID1 then [] else s.stored.consume os (s.cursor * k) (s.cursor * k + k * n)
  | .randOhvs s =>
    if n = 0 then []
    else
      s.rA.consume os s.cursor (s.cursor + n) ++ (s.rB.consume os s.cursor (s.cursor + n) ++
      (s.eAFlat.consume os (s.cursor * randOhvK) (s.cursor * randOhvK + n * randOhvK) ++
      s.eBFlat.consume os (s.cursor * randOhvK) (s.cursor * randOhvK + n * randOhvK)))
  | .wrapMasks s =>
    if n = 0 then [] else s.maskArithFlat.consume os (s.cursor * 2) (s.cursor * 2 + n * 2)
  | _ => []

theorem onlyReclaims_reclaimLast (os : Os) (n : Nat) (s : LazySource F C K) :
    OnlyReclaims (s.reclaimLast os n) := by
  unfold reclaimLast
  split
  · exact .ite onlyReclaims_consume
  · exact .ite onlyReclaims_consume
  · exact .ite (onlyReclaims_consume.append
      (onlyReclaims_consume.append (onlyReclaims_consume.append onlyReclaims_consume)))
  · exact .ite onlyReclaims_consume
  · exact onlyReclaims_nil

variable [RawElem C]

theorem onlyReclaims_reclaimFirst (os : Os) (n : Nat) (s : LazySource F C K) :
    OnlyReclaims (s.reclaimFirst os n) := by
  unfold reclaimFirst
  split
  · exact .ite (onlyReclaims_takeReclaim _ _ _)
  · exact .ite onlyReclaims_consume
  · exact onlyReclaims_nil

/-- The writes of a take are reclaims around at most one cursor write. -/
theorem takeWrites_eq (os : Os) (n : Nat) (s : LazySource F C K) :
    s.takeWrites os n = s.reclaimFirst os n ++
      (if s.persistsOnTake n then persistTo s.metaPath (s.cursor + n) else []) ++
        s.reclaimLast os n := by
  cases s with
  | edaBits s =>
    by_cases zero : n = 0 <;>
      simp [takeWrites, LazyEdaBits.takeWrites, reclaimFirst, reclaimLast, persistsOnTake, metaPath,
        cursor, zero]
  | edaBitsRing s =>
    by_cases zero : n = 0 <;> by_cases isP2 : s.partyId = .ID2 <;>
      simp [takeWrites, LazyEdaBitsRing.takeWrites, reclaimFirst, reclaimLast, persistsOnTake,
        metaPath, cursor, zero, isP2]
  | daBits s =>
    by_cases isP1 : s.partyId = .ID1 <;>
      simp [takeWrites, LazyDaBits.takeWrites, reclaimFirst, reclaimLast, persistsOnTake, metaPath,
        cursor, isP1]
  | randOhvs s =>
    by_cases zero : n = 0 <;>
      simp [takeWrites, LazyRandOhvs.takeWrites, reclaimFirst, reclaimLast, persistsOnTake,
        metaPath, cursor, zero]
  | wrapMasks s =>
    by_cases zero : n = 0 <;>
      simp [takeWrites, LazyWrapMasks.takeWrites, reclaimFirst, reclaimLast, persistsOnTake,
        metaPath, cursor, zero]
  | daPoints s =>
    by_cases zero : n = 0 <;>
      simp [takeWrites, LazyDaPoints.takeWrites, reclaimFirst, reclaimLast, persistsOnTake,
        metaPath, cursor, zero]

omit [RawElem F] [RawElem (BitVec K)] [RawElem C] in
theorem lift_take {β σ : Type} (kind : σ → LazySource F C K)
    {x : Except IoError (β × σ × List Write)} {t : σ} {s' : LazySource F C K} {fits : Prop}
    {ws : List Write} (spec : ∀ {b t' v}, x = .ok (b, t', v) → fits ∧ t' = t ∧ v = ws)
    (h : (do let (_, s, w) ← x; return (kind s, w)) = .ok (s', w)) :
    fits ∧ s' = kind t ∧ w = ws := by
  obtain ⟨⟨b, t, v⟩, take, last⟩ := bind_ok.mp h
  obtain ⟨le, rfl, rfl⟩ := spec take
  cases last
  exact ⟨le, rfl, rfl⟩

/-- The effect of a successful take, for every kind. -/
theorem takeBatch_spec [Ring F] [Zero C] {c : ChaCha} {s s' : LazySource F C K}
    (h : s.takeBatch c os d n = .ok (s', w)) :
    s.cursor + n ≤ s.total ∧ s' = s.setCursor (s.cursor + n) ∧ w = s.takeWrites os n := by
  cases s with
  | edaBits s => exact lift_take .edaBits LazyEdaBits.takeBatch_spec h
  | edaBitsRing s => exact lift_take .edaBitsRing LazyEdaBitsRing.takeBatch_spec h
  | daBits s => exact lift_take .daBits LazyDaBits.takeBatch_spec h
  | randOhvs s => exact lift_take .randOhvs LazyRandOhvs.takeBatch_spec h
  | wrapMasks s => exact lift_take .wrapMasks LazyWrapMasks.takeBatch_spec h
  | daPoints s => exact lift_take .daPoints LazyDaPoints.takeBatch_spec h

end LazySource

end ProviaVM.Preprocessing
