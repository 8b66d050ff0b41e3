import ProviaVM.Preprocessing.CursorPersistence

/-! # Crashes inside a consumption

A take or a finalised reservation performs durable writes one after the other; a
crash leaves some prefix of them on disk. Consumption is crash consistent when, after
every prefix, each stored element at or above the cursor on disk still has its
original bytes. What decides this is the order: bytes reclaimed before the cursor is
written belong to elements the disk still calls fresh. -/
namespace ProviaVM.Preprocessing
open ByteFile RawElem List

def byteAt (d : Disk) (p : Path) (b : Nat) : Option UInt8 :=
  match d p with
  | some (.data bs) => bs[b]?
  | _ => none

/-- Some write of the list zeroes byte `b` of the file. -/
def reclaims (ws : List Write) (p : Path) (b : Nat) : Bool :=
  ws.any fun
    | .zero q off len => decide (q = p ∧ off ≤ b ∧ b < off + len)
    | .cursor _ _ => false

theorem reclaims_zero_cons (q p : Path) (off len b : Nat) (ws : List Write) :
    reclaims (.zero q off len :: ws) p b =
      (decide (q = p ∧ off ≤ b ∧ b < off + len) || reclaims ws p b) := by
  simp [reclaims]

theorem reclaims_append (xs ys : List Write) (p : Path) (b : Nat) :
    reclaims (xs ++ ys) p b = (reclaims xs p b || reclaims ys p b) := by
  simp [reclaims]

variable {ws : List Write} {p : Path} {d : Disk}

theorem reclaims_take {k : Nat} {b : Nat} (h : reclaims (ws.take k) p b = true) :
    reclaims ws p b = true := by
  rw [← take_append_drop k ws, reclaims_append, h, Bool.true_or]

theorem byteAt_zeroBytes (d : Disk) (q p : Path) (off len b : Nat) :
    byteAt (d.zeroBytes q off len) p b =
      if q = p ∧ off ≤ b ∧ b < off + len then (byteAt d p b).map fun _ => 0 else byteAt d p b := by
  rcases eq_or_ne q p with rfl | different
  · unfold byteAt Disk.zeroBytes
    cases found : d q with
    | none => simp [found]
    | some content =>
      cases content with
      | data bs => simp [getElem?_zeroRange]
      | header m => simp [found]
      | precacheMeta m => simp [found]
  · have same : d.zeroBytes q off len p = d p := Disk.zeroBytes_ne off len different.symm
    rw [if_neg (fun h => different h.1)]
    simp [byteAt, same]

theorem byteAt_updateCursor (d : Disk) (q p : Path) (v b : Nat) :
    byteAt (d.updateCursor q v) p b = byteAt d p b := by
  rcases eq_or_ne q p with rfl | different
  · unfold byteAt Disk.updateCursor
    cases found : d q with
    | none => simp [found]
    | some content => cases content <;> simp [found]
  · simp [byteAt, Disk.updateCursor_ne v different.symm]

/-- A byte after a list of writes is zero if one of them reclaims it, else what it was. -/
theorem byteAt_applyAll (d : Disk) (ws : List Write) (p : Path) (b : Nat) :
    byteAt (d.applyAll ws) p b =
      if reclaims ws p b then (byteAt d p b).map fun _ => 0 else byteAt d p b := by
  induction ws generalizing d with
  | nil => simp [reclaims]
  | cons w ws ih =>
    have step : d.applyAll (w :: ws) = (d.apply w).applyAll ws := rfl
    rw [step, ih]
    cases w with
    | zero q off len =>
      rw [Disk.apply, byteAt_zeroBytes, reclaims_zero_cons]
      by_cases here : q = p ∧ off ≤ b ∧ b < off + len
      · cases byteAt d p b <;> simp [here]
      · simp [here]
    | cursor q v => simp [Disk.apply, byteAt_updateCursor, reclaims]

/-- The part of a store file that holds items: item `i`, for `base ≤ i < base + count`, has the
`width` bytes from `(i - base) * width` on. The file has room for `room` items. -/
structure Segment where
  path : Path
  base : Nat
  width : Nat
  count : Nat
  room : Nat
  deriving DecidableEq, Repr

namespace Segment

def Holds (seg : Segment) (i : Nat) : Prop := seg.base ≤ i ∧ i < seg.base + seg.count

def ByteOf (seg : Segment) (i b : Nat) : Prop :=
  (i - seg.base) * seg.width ≤ b ∧ b < (i - seg.base) * seg.width + seg.width

/-- Item `i` of the segment is among the `n` items from `cursor` on. A segment that begins after the
cursor is not used, and a file too short for the items in it is left alone. -/
def Taken (seg : Segment) (cursor n i : Nat) : Prop :=
  seg.Holds i ∧ seg.base ≤ cursor ∧ cursor ≤ i ∧ i < cursor + n ∧
    min (cursor + n) (seg.base + seg.count) ≤ seg.base + seg.room

/-- A byte belongs to one item. -/
theorem ByteOf.unique {seg : Segment} {i j b : Nat} (hi : seg.ByteOf i b) (hj : seg.ByteOf j b)
    (baseI : seg.base ≤ i) (baseJ : seg.base ≤ j) : i = j := by
  have below : ∀ {x y : Nat}, x * seg.width ≤ b → b < y * seg.width + seg.width → x ≤ y := by
    intro x y low high
    rw [← Nat.succ_mul] at high
    exact Nat.le_of_lt_succ (Nat.lt_of_mul_lt_mul_right (Nat.lt_of_le_of_lt low high))
  have forth := below hi.1 hj.2
  have back := below hj.1 hi.2
  omega

end Segment

/-- The segment of a file-backed store with `perItem` elements per item. -/
def storeSegment {α : Type} [RawElem α] (store : BackingStore α) (base perItem count : Nat) :
    List Segment :=
  match store with
  | .fileBacked path len _ => [⟨path, base, perItem * size α, count, len / perItem⟩]
  | _ => []

section Reclaims

theorem base_of_mem_storeSegment {α : Type} [RawElem α] {store : BackingStore α}
    {base perItem count : Nat} {seg : Segment}
    (member : seg ∈ storeSegment store base perItem count) :
    seg.base = base ∧ seg.count = count := by
  cases store with
  | inMemory | empty => cases member
  | fileBacked path len append =>
    obtain rfl := mem_singleton.mp member
    exact ⟨rfl, rfl⟩

variable {α : Type} [RawElem α] {store : BackingStore α} {start stop b : Nat}

/-- Byte `b` of the file lies in the elements `start..stop` of the store, which the store has. -/
def InRange (store : BackingStore α) (start stop : Nat) (p : Path) (b : Nat) : Prop :=
  match store with
  | .fileBacked path len _ =>
    path = p ∧ start ≤ stop ∧ stop ≤ len ∧ start * size α ≤ b ∧ b < stop * size α
  | _ => False

/-- Whatever the operating system does, only bytes of the range are reclaimed. -/
theorem inRange_of_reclaims {os : Os} (h : reclaims (store.consume os start stop) p b = true) :
    InRange store start stop p b := by
  obtain ⟨w, member, zeroes⟩ := any_eq_true.mp h
  obtain ⟨path, len, append, off, n, rfl, rfl, le, fits, low, high⟩ :=
    BackingStore.mem_consume member
  obtain ⟨rfl, above, below⟩ := of_decide_eq_true zeroes
  exact ⟨rfl, le, fits, by omega, by omega⟩

/-- Where holes can be punched, all of the range is reclaimed. -/
theorem reclaims_of_inRange (h : InRange store start stop p b) :
    reclaims (store.consume (fun _ => .punchHole) start stop) p b = true := by
  cases store with
  | inMemory | empty => cases h
  | fileBacked path len append =>
    obtain ⟨rfl, le, fits, above, below⟩ := h
    have span : start * size α + (stop - start) * size α = stop * size α := by
      rw [← Nat.add_mul, Nat.add_sub_cancel' le]
    have some_ : (stop - start) * size α ≠ 0 := by omega
    simp only [BackingStore.consume, if_neg (by omega : ¬ (stop < start ∨ len < stop)),
      if_neg some_, reclaims_zero_cons, Bool.or_eq_true, decide_eq_true_eq]
    exact Or.inl ⟨trivial, above, by omega⟩

/-- The elements of the items from `cursor` on that the segment holds. -/
theorem inRange_iff_taken {base cursor n perItem count : Nat} (begins : base ≤ cursor)
    (within : cursor ≤ base + count) :
    InRange store ((cursor - base) * perItem)
        ((cursor - base) * perItem + (min (cursor + n) (base + count) - cursor) * perItem) p b ↔
      ∃ seg ∈ storeSegment store base perItem count, seg.path = p ∧
        ∃ i, seg.Taken cursor n i ∧ seg.ByteOf i b := by
  generalize cached : min (cursor + n) (base + count) - cursor = k
  rw [← Nat.add_mul]
  cases store with
  | inMemory | empty => simp [InRange, storeSegment]
  | fileBacked path len append =>
    simp only [InRange, storeSegment, mem_singleton, exists_eq_left, Nat.mul_assoc]
    constructor
    · rintro ⟨rfl, -, fits, above, below⟩
      have wide : 0 < perItem * size α := by
        refine Nat.pos_of_ne_zero fun zero => ?_
        rw [zero, Nat.mul_zero] at below
        omega
      have items : 0 < perItem := Nat.pos_of_mul_pos_right wide
      have low := (Nat.le_div_iff_mul_le wide).mpr above
      have high := (Nat.div_lt_iff_lt_mul wide).mpr below
      have room := (Nat.le_div_iff_mul_le items).mpr fits
      refine ⟨rfl, base + b / (perItem * size α), ⟨⟨?_, ?_⟩, begins, ?_, ?_, ?_⟩, ?_⟩
      · exact Nat.le_add_right _ _
      · change _ < base + count
        omega
      · omega
      · omega
      · change min (cursor + n) (base + count) ≤ base + len / perItem
        omega
      · simp only [Segment.ByteOf, Nat.add_sub_cancel_left]
        exact ⟨Nat.div_mul_le_self _ _, Nat.lt_div_mul_add wide⟩
    · rintro ⟨rfl, i, ⟨⟨baseLe, inside⟩, -, low, high, room⟩, above, below⟩
      dsimp only at baseLe inside room above below
      have items : cursor - base + k ≤ len / perItem := by omega
      refine ⟨rfl, Nat.mul_le_mul_right _ (by omega), ?_, ?_, ?_⟩
      · exact Nat.le_trans (Nat.mul_le_mul_right _ items) (Nat.div_mul_le_self _ _)
      · exact Nat.le_trans (Nat.mul_le_mul_right _ (by omega)) above
      · rw [← Nat.succ_mul] at below
        exact Nat.lt_of_lt_of_le below (Nat.mul_le_mul_right _ (by omega))

end Reclaims

/-- Every item of the segments at or above `cursor` has the same bytes on both disks. -/
def FreshIntact (segs : List Segment) (cursor : Nat) (before after : Disk) : Prop :=
  ∀ seg ∈ segs, ∀ i, seg.Holds i → cursor ≤ i → ∀ b, seg.ByteOf i b →
    byteAt after seg.path b = byteAt before seg.path b

/-- After every prefix of the writes, the items at or above the cursor on disk are intact. Without a
metadata file there is no cursor to restart from. -/
def CrashConsistent (metaPath : Option Path) (segs : List Segment) (d : Disk) (ws : List Write) :
    Prop :=
  ∀ k p c, metaPath = some p → cursorAt (d.applyAll (ws.take k)) p = some c →
    FreshIntact segs c d (d.applyAll (ws.take k))

/-- Bytes of items at or above `cursor` that the writes reclaim are zero already. -/
def ReclaimsOnlyZeros (segs : List Segment) (cursor : Nat) (d : Disk) (ws : List Write) : Prop :=
  ∀ seg ∈ segs, ∀ i, seg.Holds i → cursor ≤ i → ∀ b, seg.ByteOf i b →
    reclaims ws seg.path b = true → ∀ x, byteAt d seg.path b = some x → x = 0

variable {segs : List Segment}

/-- Zeroing bytes changes nothing exactly when they are zero. -/
theorem freshIntact_applyAll_iff {cursor : Nat} :
    FreshIntact segs cursor d (d.applyAll ws) ↔ ReclaimsOnlyZeros segs cursor d ws := by
  constructor
  · intro intact seg member i holds fresh b byteOf reclaimed x found
    have same := intact seg member i holds fresh b byteOf
    rw [byteAt_applyAll, if_pos reclaimed, found] at same
    simpa using same.symm
  · intro zeros seg member i holds fresh b byteOf
    rw [byteAt_applyAll]
    split
    · rename_i reclaimed
      cases found : byteAt d seg.path b with
      | none => rfl
      | some x =>
        have zero := zeros seg member i holds fresh b byteOf reclaimed x found
        rw [zero]
        rfl
    · rfl

theorem ReclaimsOnlyZeros.take {cursor : Nat} (h : ReclaimsOnlyZeros segs cursor d ws) (k : Nat) :
    ReclaimsOnlyZeros segs cursor d (ws.take k) :=
  fun seg member i holds fresh b byteOf reclaimed =>
    h seg member i holds fresh b byteOf (reclaims_take reclaimed)

theorem cursorAt_apply_none (w : Write) (h : cursorAt d p = none) :
    cursorAt (d.apply w) p = none := by
  cases after : cursorAt (d.apply w) p with
  | none => rfl
  | some c =>
    obtain ⟨m, found, -⟩ := cursorAt_some after
    cases w with
    | zero q off len =>
      rw [cursorAt_header (Disk.zeroBytes_meta.mp found)] at h
      cases h
    | cursor q v =>
      rcases eq_or_ne p q with rfl | different
      · cases before : d p with
        | none => simp [Disk.apply, Disk.updateCursor, before] at found
        | some content =>
          cases content with
          | header m' =>
            rw [cursorAt_header before] at h
            cases h
          | data bs => simp [Disk.apply, Disk.updateCursor, before] at found
          | precacheMeta m' => simp [Disk.apply, Disk.updateCursor, before] at found
      · have same : d.updateCursor q v p = d p := Disk.updateCursor_ne v different
        rw [Disk.apply, same] at found
        rw [cursorAt_header found] at h
        cases h

/-- The writes of consumption create no metadata file. -/
theorem cursorAt_before {c' : Nat} (h : cursorAt (d.applyAll ws) p = some c') :
    ∃ c, cursorAt d p = some c := by
  cases before : cursorAt d p with
  | some c => exact ⟨c, rfl⟩
  | none =>
    have keeps : ∀ w ∈ ws, ∀ e : Disk, cursorAt e p = none → cursorAt (e.apply w) p = none :=
      fun w _ e held => cursorAt_apply_none w held
    have after : cursorAt (d.applyAll ws) p = none := Run.applyAll_invariant keeps before
    rw [after] at h
    cases h

theorem onlyReclaims_take (h : LazySource.OnlyReclaims ws) (k : Nat) :
    LazySource.OnlyReclaims (ws.take k) :=
  fun w member => h w (mem_of_mem_take member)

/-- Crash points of "reclaim, write the cursor, reclaim": before the cursor write the items above
the old cursor must survive the first reclaims, after it those above the new cursor all of them. -/
theorem crashConsistent_iff {first last : List Write} {newCursor : Nat}
    (onlyFirst : LazySource.OnlyReclaims first) (onlyLast : LazySource.OnlyReclaims last) :
    CrashConsistent (some p) segs d (first ++ persistTo (some p) newCursor ++ last) ↔
      ∀ c, cursorAt d p = some c →
        ReclaimsOnlyZeros segs c d first ∧ ReclaimsOnlyZeros segs newCursor d (first ++ last) := by
  have cursorLater : ∀ c k, cursorAt d p = some c →
      cursorAt (d.applyAll (first ++ persistTo (some p) newCursor ++ last.take k)) p =
        some newCursor := by
    intro c k recorded
    rw [Disk.applyAll_append]
    apply cursorAt_onlyReclaims (onlyReclaims_take onlyLast k)
    simp [cursorAt_persistTo (cursorAt_onlyReclaims onlyFirst recorded)]
  have reclaimsAll : ∀ (rest : List Write) (q : Path) (b : Nat),
      reclaims (first ++ persistTo (some p) newCursor ++ rest) q b =
        reclaims (first ++ rest) q b := by
    intro rest q b
    simp [reclaims, persistTo]
  constructor
  · intro consistent c recorded
    constructor
    · have prefixFirst := consistent first.length p c rfl
      rw [append_assoc, take_left] at prefixFirst
      exact freshIntact_applyAll_iff.mp (prefixFirst (cursorAt_onlyReclaims onlyFirst recorded))
    · have whole :=
        consistent (first ++ persistTo (some p) newCursor ++ last).length p newCursor rfl
      rw [take_length] at whole
      have cursorEnd := cursorLater c last.length recorded
      rw [take_length] at cursorEnd
      have zeros := freshIntact_applyAll_iff.mp (whole cursorEnd)
      intro seg member i holds fresh b byteOf reclaimed
      exact zeros seg member i holds fresh b byteOf (by rw [reclaimsAll]; exact reclaimed)
  · intro safe k p' c' same recorded
    obtain rfl := Option.some.inj same
    obtain ⟨c, start⟩ := cursorAt_before recorded
    obtain ⟨safeFirst, safeAll⟩ := safe c start
    rcases Nat.lt_or_ge first.length k with later | early
    · obtain ⟨j, rfl⟩ : ∃ j, k = first.length + (1 + j) := ⟨k - first.length - 1, by omega⟩
      have cut : (first ++ persistTo (some p) newCursor ++ last).take (first.length + (1 + j)) =
          first ++ persistTo (some p) newCursor ++ last.take j := by
        rw [append_assoc, take_length_add_append]
        simp [persistTo, Nat.add_comm 1 j]
      rw [cut] at recorded ⊢
      obtain rfl : newCursor = c' := by
        rw [cursorLater c j start] at recorded
        exact Option.some.inj recorded
      apply freshIntact_applyAll_iff.mpr
      intro seg member i holds fresh b byteOf reclaimed
      rw [reclaimsAll, reclaims_append, Bool.or_eq_true] at reclaimed
      apply safeAll seg member i holds fresh b byteOf
      rw [reclaims_append, Bool.or_eq_true]
      rcases reclaimed with inFirst | inLast
      · exact Or.inl inFirst
      · exact Or.inr (reclaims_take inLast)
    · have cut : (first ++ persistTo (some p) newCursor ++ last).take k = first.take k := by
        rw [append_assoc, take_append_of_le_length early]
      rw [cut] at recorded ⊢
      obtain rfl : c = c' := by
        rw [cursorAt_onlyReclaims (onlyReclaims_take onlyFirst k) start] at recorded
        exact Option.some.inj recorded
      exact freshIntact_applyAll_iff.mpr (safeFirst.take k)

/-- Nothing written is trivially consistent. -/
theorem crashConsistent_nil (metaPath : Option Path) (segs : List Segment) (d : Disk) :
    CrashConsistent metaPath segs d [] := by
  intro k p c _ _ seg _ i _ _ b _
  simp

inductive ConsumeOp where
  | take (n : Nat)
  | finalize (range : EdabitsReserveRange)
  deriving DecidableEq, Repr

namespace LazySource

variable {F C : Type} {K : Nat} [RawElem F] [RawElem (BitVec K)]

/-- The files that hold items of the source: P2's edaBit store or the precache window, and
the stores of the other kinds. -/
def segments [RawElem C] : LazySource F C K → List Segment
  | .edaBits s =>
    if s.partyId = .ID2 then storeSegment s.alphasFlatStore 0 K s.total
    else match s.storageMode with
      | .p01Precache startCursor len =>
        storeSegment s.alphasFlatStore startCursor K len ++
          if s.partyId = .ID0 then storeSegment s.gammaStore startCursor 1 len else []
      | _ => []
  | .edaBitsRing s => storeSegment s.alpha2Flat 0 K s.total
  | .daBits s => storeSegment s.stored 0 (LazyDaBits.storedPerItem s.partyId) s.total
  | .randOhvs s =>
    storeSegment s.rA 0 1 s.total ++ (storeSegment s.rB 0 1 s.total ++
      (storeSegment s.eAFlat 0 randOhvK s.total ++ storeSegment s.eBFlat 0 randOhvK s.total))
  | .wrapMasks s => storeSegment s.maskArithFlat 0 2 s.total
  | .daPoints s => storeSegment s.alphas 0 1 s.total

def consumeOp [RawElem C] [Ring F] [Zero C] (c : ChaCha) (os : Os) (d : Disk)
    (s : LazySource F C K) :
    ConsumeOp → Except IoError (LazySource F C K × List Write)
  | .take n => s.takeBatch c os d n
  | .finalize range =>
    match s with
    | .edaBits s =>
      let (s', writes) := s.finalizeReservedRange os range
      .ok (.edaBits s', writes)
    | _ => .error .panicked

def finalizeReclaim (os : Os) (range : EdabitsReserveRange) : LazySource F C K → List Write
  | .edaBits s =>
    LazyEdaBits.consumeRange s.alphasFlatStore os range.alphaConsume ++
      LazyEdaBits.consumeRange s.gammaStore os range.gammaConsume
  | _ => []

/-- The writes an operation makes before the cursor, the cursor it writes, and the writes it
makes after the cursor. -/
def opFirst [RawElem C] (os : Os) (s : LazySource F C K) : ConsumeOp → List Write
  | .take n => s.reclaimFirst os n
  | .finalize range => s.finalizeReclaim os range

def opCursor (s : LazySource F C K) : ConsumeOp → Nat
  | .take n => s.cursor + n
  | .finalize range => s.cursor + range.len

def opLast (os : Os) (s : LazySource F C K) : ConsumeOp → List Write
  | .take n => s.reclaimLast os n
  | .finalize _ => []

def opPersists (s : LazySource F C K) : ConsumeOp → Bool
  | .take n => s.persistsOnTake n
  | .finalize _ => true

theorem onlyReclaims_finalizeReclaim (os : Os) (range : EdabitsReserveRange)
    (s : LazySource F C K) :
    OnlyReclaims (s.finalizeReclaim os range) := by
  unfold finalizeReclaim
  split
  · exact (onlyReclaims_consumeRange _ _ _).append (onlyReclaims_consumeRange _ _ _)
  · exact onlyReclaims_nil

theorem onlyReclaims_opLast (os : Os) (s : LazySource F C K) (op : ConsumeOp) :
    OnlyReclaims (s.opLast os op) := by
  cases op with
  | take n => exact onlyReclaims_reclaimLast os n s
  | finalize range => exact onlyReclaims_nil

variable [RawElem C]

theorem onlyReclaims_opFirst (os : Os) (s : LazySource F C K) (op : ConsumeOp) :
    OnlyReclaims (s.opFirst os op) := by
  cases op with
  | take n => exact onlyReclaims_reclaimFirst os n s
  | finalize range => exact onlyReclaims_finalizeReclaim os range s

/-- An operation that does not write the cursor reclaims nothing. -/
theorem opWrites_nil_of_not_persists {os : Os} {s : LazySource F C K} {op : ConsumeOp}
    (h : s.opPersists op = false) : s.opFirst os op = [] ∧ s.opLast os op = [] := by
  cases op with
  | finalize range => cases h
  | take n =>
    cases s <;> simp_all [opPersists, persistsOnTake, opFirst, opLast, reclaimFirst, reclaimLast]

/-- The complete writes of a successful consuming operation. -/
theorem consumeOp_writes [Ring F] [Zero C] {c : ChaCha} {os : Os} {d : Disk}
    {s s' : LazySource F C K} {op : ConsumeOp} {ws : List Write}
    (h : s.consumeOp c os d op = .ok (s', ws)) :
    ws = s.opFirst os op ++
      (if s.opPersists op then persistTo s.metaPath (s.opCursor op) else []) ++ s.opLast os op := by
  cases op with
  | take n =>
    obtain ⟨-, -, rfl⟩ := takeBatch_spec h
    exact takeWrites_eq os n s
  | finalize range =>
    cases s with
    | edaBits s =>
      simp only [consumeOp, LazyEdaBits.finalizeReservedRange, Except.ok.injEq, Prod.mk.injEq] at h
      rw [← h.2]
      simp [opFirst, finalizeReclaim, opPersists, opCursor, opLast, LazyEdaBits.persistCursor,
        metaPath, cursor]
    | edaBitsRing s => cases h
    | daBits s => cases h
    | randOhvs s => cases h
    | wrapMasks s => cases h
    | daPoints s => cases h

/-- Reclaims before the cursor write hit only zero bytes of the elements at or above the cursor on
disk, and no reclaim of the operation a nonzero byte of one at or above the cursor it writes. -/
def ReclaimSafe (os : Os) (d : Disk) (s : LazySource F C K) (op : ConsumeOp) : Prop :=
  ∀ p c, s.metaPath = some p → cursorAt d p = some c →
    ReclaimsOnlyZeros s.segments c d (s.opFirst os op) ∧
      ReclaimsOnlyZeros s.segments (s.opCursor op) d (s.opFirst os op ++ s.opLast os op)

/-- The writes of an operation, as listed, are crash consistent exactly when its reclaims are
safe. -/
theorem opWrites_crashConsistent_iff (os : Os) (d : Disk) (s : LazySource F C K) (op : ConsumeOp) :
    CrashConsistent s.metaPath s.segments d (s.opFirst os op ++
        (if s.opPersists op then persistTo s.metaPath (s.opCursor op) else []) ++ s.opLast os op) ↔
      s.ReclaimSafe os d op := by
  cases path : s.metaPath with
  | none =>
    constructor
    · intro _ p c recorded
      rw [path] at recorded
      cases recorded
    · intro _ k p c recorded
      cases recorded
  | some p =>
    cases persists : s.opPersists op with
    | false =>
      obtain ⟨noFirst, noLast⟩ : s.opFirst os op = [] ∧ s.opLast os op = [] :=
        opWrites_nil_of_not_persists persists
      simp only [noFirst, noLast]
      refine ⟨fun _ p c _ _ => ?_, fun _ => crashConsistent_nil _ _ _⟩
      rw [noFirst, noLast]
      constructor <;>
      · intro seg _ i _ _ b _ reclaimed
        simp [reclaims] at reclaimed
    | true =>
      rw [if_pos rfl, crashConsistent_iff (onlyReclaims_opFirst os s op)
        (onlyReclaims_opLast os s op)]
      constructor
      · intro safe p' c recorded start
        obtain rfl := Option.some.inj (path.symm.trans recorded)
        exact safe c start
      · intro safe c start
        exact safe p c path start

/-- The kinds and parties that reclaim only what the cursor they have written excludes. -/
def PersistsFirst : LazySource F C K → Prop
  | .edaBits _ => False
  | .daPoints s => s.partyId = .ID0
  | .edaBitsRing _ | .daBits _ | .randOhvs _ | .wrapMasks _ => True

/-- Byte `b` of the file belongs to what the operation gives up: the stored items that a take hands
out, or the elements that were reserved. -/
def GivesUp (s : LazySource F C K) : ConsumeOp → Path → Nat → Prop
  | .take n, p, b => ∃ seg ∈ s.segments, seg.path = p ∧ ∃ i, seg.Taken s.cursor n i ∧ seg.ByteOf i b
  | .finalize range, p, b =>
    match s with
    | .edaBits s =>
      (∃ r, range.alphaConsume = some r ∧ InRange s.alphasFlatStore r.1 r.2 p b) ∨
        ∃ r, range.gammaConsume = some r ∧ InRange s.gammaStore r.1 r.2 p b
    | _ => False

/-- What the operation gives up of items that the cursor on disk, or the one it writes, calls fresh
is zero already. -/
def GivesUpZeros (d : Disk) (s : LazySource F C K) (op : ConsumeOp) : Prop :=
  ∀ p c, s.metaPath = some p → cursorAt d p = some c → ∀ seg ∈ s.segments, ∀ i, seg.Holds i →
    min c (s.opCursor op) ≤ i → ∀ b, seg.ByteOf i b → s.GivesUp op seg.path b →
      ∀ x, byteAt d seg.path b = some x → x = 0

variable {s : LazySource F C K} {op : ConsumeOp} {os : Os} {b : Nat}

theorem reclaims_consumeRange {α : Type} [RawElem α] {store : BackingStore α}
    {range : Option (Nat × Nat)}
    (h : reclaims (LazyEdaBits.consumeRange store os range) p b = true) :
    ∃ r, range = some r ∧ InRange store r.1 r.2 p b := by
  cases range with
  | none => cases h
  | some r => exact ⟨r, rfl, inRange_of_reclaims h⟩

theorem reclaims_consumeRange_punched {α : Type} [RawElem α] {store : BackingStore α}
    {range : Option (Nat × Nat)} (h : ∃ r, range = some r ∧ InRange store r.1 r.2 p b) :
    reclaims (LazyEdaBits.consumeRange store (fun _ => .punchHole) range) p b = true := by
  obtain ⟨r, rfl, inside⟩ := h
  exact reclaims_of_inRange inside

omit [RawElem C] [RawElem F] [RawElem (BitVec K)] in
/-- The elements of `n` items of a store that holds them all. -/
theorem inRange_iff_taken_whole {α : Type} [RawElem α] {store : BackingStore α}
    {cursor n total perItem : Nat} (fits : cursor + n ≤ total) :
    InRange store (cursor * perItem) (cursor * perItem + n * perItem) p b ↔
      ∃ seg ∈ storeSegment store 0 perItem total, seg.path = p ∧
        ∃ i, seg.Taken cursor n i ∧ seg.ByteOf i b := by
  rw [← inRange_iff_taken (Nat.zero_le cursor) (by omega), Nat.zero_add, Nat.min_eq_left fits,
    Nat.add_sub_cancel_left, Nat.sub_zero]

/-- What is reclaimed of `n` items belongs to one of them. -/
theorem taken_of_reclaims {α : Type} [RawElem α] {store : BackingStore α}
    {cursor n total perItem : Nat} (fits : cursor + n ≤ total)
    (h : reclaims (store.consume os (cursor * perItem) (cursor * perItem + n * perItem)) p b =
      true) :
    ∃ seg ∈ storeSegment store 0 perItem total, seg.path = p ∧
      ∃ i, seg.Taken cursor n i ∧ seg.ByteOf i b :=
  (inRange_iff_taken_whole fits).mp (inRange_of_reclaims h)

theorem taken_of_reclaims_one {α : Type} [RawElem α] {store : BackingStore α}
    {cursor n total : Nat} (fits : cursor + n ≤ total)
    (h : reclaims (store.consume os cursor (cursor + n)) p b = true) :
    ∃ seg ∈ storeSegment store 0 1 total, seg.path = p ∧
      ∃ i, seg.Taken cursor n i ∧ seg.ByteOf i b := by
  rw [← Nat.mul_one cursor, ← Nat.mul_one n] at h
  exact taken_of_reclaims fits h

omit [RawElem C] in
theorem base_of_mem_window {s : LazyEdaBits F K} {first len : Nat} {seg : Segment}
    (member : seg ∈ storeSegment s.alphasFlatStore first K len ++
      if s.partyId = .ID0 then storeSegment s.gammaStore first 1 len else []) :
    seg.base = first ∧ seg.count = len := by
  rcases mem_append.mp member with alpha | gamma
  · exact base_of_mem_storeSegment alpha
  · split at gamma
    · exact base_of_mem_storeSegment gamma
    · cases gamma

/-- The part of the window that `take_batch` reclaims is the items it hands out. -/
theorem takeReclaim_taken (os : Os) {s : LazyEdaBits F K} {n : Nat}
    (fits : s.cursor + n ≤ s.total) :
    (reclaims (s.takeReclaim os n) p b = true →
      (.edaBits s : LazySource F C K).GivesUp (.take n) p b) ∧
      ((.edaBits s : LazySource F C K).GivesUp (.take n) p b →
        reclaims (s.takeReclaim (fun _ => .punchHole) n) p b = true) := by
  unfold GivesUp segments LazyEdaBits.takeReclaim
  by_cases isP2 : s.partyId = .ID2
  · simp only [if_pos isP2]
    exact ⟨fun h => taken_of_reclaims fits h,
      fun h => reclaims_of_inRange ((inRange_iff_taken_whole fits).mpr h)⟩
  simp only [if_neg isP2]
  cases mode : s.storageMode with
  | none | p2Authoritative => simp [reclaims]
  | p01Precache first len =>
    dsimp only
    split
    · -- the cursor is outside the window
      rename_i outside
      refine ⟨fun h => (by cases h), ?_⟩
      rintro ⟨seg, member, -, i, ⟨⟨_, inside⟩, begins, low, _⟩, _⟩
      obtain ⟨base, count⟩ := base_of_mem_window member
      change s.cursor ≤ i at low
      change seg.base ≤ s.cursor at begins
      omega
    · rename_i inside
      have begins : first ≤ s.cursor := by omega
      have cached :
          min (first + len - s.cursor) n = min (s.cursor + n) (first + len) - s.cursor := by
        omega
      have alphas :=
        @inRange_iff_taken p F _ s.alphasFlatStore b first s.cursor n K len begins (by omega)
      have gammas :=
        @inRange_iff_taken p (BitVec K) _ s.gammaStore b first s.cursor n 1 len begins (by omega)
      simp only [Nat.mul_one] at gammas
      simp only [cached, reclaims_append, Bool.or_eq_true, mem_append, or_and_right, exists_or]
      constructor
      · rintro (inAlpha | inGamma)
        · exact Or.inl (alphas.mp (inRange_of_reclaims inAlpha))
        · split at inGamma
          · rename_i isP0
            rw [if_pos isP0]
            exact Or.inr (gammas.mp (inRange_of_reclaims inGamma))
          · cases inGamma
      · rintro (inAlpha | inGamma)
        · exact Or.inl (reclaims_of_inRange (alphas.mpr inAlpha))
        · split at inGamma
          · rename_i isP0
            rw [if_pos isP0]
            exact Or.inr (reclaims_of_inRange (gammas.mpr inGamma))
          · obtain ⟨seg, member, -⟩ := inGamma
            cases member

/-- A take reclaims, before or after the cursor, stored items that it hands out. -/
theorem givesUp_of_reclaims_take {n : Nat} (fits : s.cursor + n ≤ s.total)
    (h : reclaims (s.opFirst os (.take n) ++ s.opLast os (.take n)) p b = true) :
    s.GivesUp (.take n) p b := by
  cases s with
  | edaBits s =>
    simp only [opFirst, opLast, reclaimFirst, reclaimLast, append_nil] at h
    split at h
    · cases h
    · exact (takeReclaim_taken os fits).1 h
  | edaBitsRing s =>
    simp only [opFirst, opLast, reclaimFirst, reclaimLast, nil_append] at h
    split at h
    · cases h
    · exact taken_of_reclaims fits h
  | daBits s =>
    simp only [opFirst, opLast, reclaimFirst, reclaimLast, nil_append] at h
    split at h
    · cases h
    · rw [Nat.mul_comm (LazyDaBits.storedPerItem _) n] at h
      exact taken_of_reclaims fits h
  | randOhvs s =>
    simp only [opFirst, opLast, reclaimFirst, reclaimLast, nil_append] at h
    split at h
    · cases h
    simp only [reclaims_append, Bool.or_eq_true] at h
    simp only [GivesUp, segments, mem_append, or_and_right, exists_or]
    rcases h with inA | inB | inEA | inEB
    · exact Or.inl (taken_of_reclaims_one fits inA)
    · exact Or.inr (Or.inl (taken_of_reclaims_one fits inB))
    · exact Or.inr (Or.inr (Or.inl (taken_of_reclaims fits inEA)))
    · exact Or.inr (Or.inr (Or.inr (taken_of_reclaims fits inEB)))
  | wrapMasks s =>
    simp only [opFirst, opLast, reclaimFirst, reclaimLast, nil_append] at h
    split at h
    · cases h
    · exact taken_of_reclaims fits h
  | daPoints s =>
    simp only [opFirst, opLast, reclaimFirst, reclaimLast, append_nil] at h
    split at h
    · cases h
    · exact taken_of_reclaims_one fits h

variable [Ring F] [Zero C] {c : ChaCha} {s' : LazySource F C K}

/-- A consuming operation reclaims no more than it gives up. -/
theorem givesUp_of_reclaims (done : s.consumeOp c os d op = .ok (s', ws))
    (h : reclaims (s.opFirst os op ++ s.opLast os op) p b = true) : s.GivesUp op p b := by
  cases op with
  | take n =>
    obtain ⟨fits, -, -⟩ := takeBatch_spec done
    exact givesUp_of_reclaims_take fits h
  | finalize range =>
    cases s with
    | edaBits s =>
      simp only [opFirst, opLast, finalizeReclaim, append_nil, reclaims_append,
        Bool.or_eq_true] at h
      exact h.imp reclaims_consumeRange reclaims_consumeRange
    | edaBitsRing | daBits | randOhvs | wrapMasks | daPoints => cases done

/-- Where the cursor is written last, all that is given up is reclaimed before it. -/
theorem reclaims_of_givesUp (later : ¬ s.PersistsFirst)
    (done : s.consumeOp c (fun _ => .punchHole) d op = .ok (s', ws)) (h : s.GivesUp op p b) :
    reclaims (s.opFirst (fun _ => .punchHole) op) p b = true := by
  cases op with
  | take n =>
    obtain ⟨fits, -, -⟩ := takeBatch_spec done
    have some_ : n ≠ 0 := by
      obtain ⟨_, -, -, i, ⟨-, -, low, high, -⟩, -⟩ := h
      omega
    cases s with
    | edaBits s =>
      simp only [opFirst, reclaimFirst, if_neg some_]
      exact (takeReclaim_taken (fun _ => .punchHole) fits).2 h
    | daPoints s =>
      have notP0 : s.partyId ≠ .ID0 := later
      simp only [opFirst, reclaimFirst, some_, notP0, or_self, if_false]
      have inside := (inRange_iff_taken_whole fits).mpr h
      rw [Nat.mul_one, Nat.mul_one] at inside
      exact reclaims_of_inRange inside
    | edaBitsRing | daBits | randOhvs | wrapMasks => exact absurd trivial later
  | finalize range =>
    cases s with
    | edaBits s =>
      simp only [opFirst, finalizeReclaim, reclaims_append, Bool.or_eq_true]
      exact h.imp reclaims_consumeRange_punched reclaims_consumeRange_punched
    | edaBitsRing | daBits | randOhvs | wrapMasks | daPoints => cases done

/-- A source that writes its cursor first survives a crash at every point, whatever is on disk. -/
theorem take_crashConsistent_of_persistsFirst (separate : (s.segments.map Segment.path).Nodup)
    (persists : s.PersistsFirst) (done : s.consumeOp c os d op = .ok (s', ws)) :
    CrashConsistent s.metaPath s.segments d ws := by
  rw [consumeOp_writes done]
  refine (opWrites_crashConsistent_iff os d s op).mpr fun p c' _ _ => ?_
  cases op with
  | finalize range =>
    cases s with
    | edaBits s => exact persists.elim
    | edaBitsRing | daBits | randOhvs | wrapMasks | daPoints => cases done
  | take n =>
    have noFirst : s.opFirst os (.take n) = [] := by
      cases s with
      | edaBits s => exact persists.elim
      | daPoints s => exact if_pos (Or.inr persists)
      | edaBitsRing | daBits | randOhvs | wrapMasks => rfl
    constructor
    · rw [noFirst]
      intro seg _ i _ _ b _ reclaimed
      cases reclaimed
    · -- a byte that is reclaimed belongs to an item below the new cursor
      intro seg member i holds fresh b byteOf reclaimed
      obtain ⟨seg', member', path, j, taken, byteOf'⟩ := givesUp_of_reclaims done reclaimed
      obtain rfl : seg' = seg := inj_on_of_nodup_map separate member' member path
      obtain rfl := byteOf.unique byteOf' holds.1 taken.1.1
      exact absurd taken.2.2.2.1 (Nat.not_lt.mpr fresh)

def oneWrapMask : LazySource (ZMod 251) (ZMod 251) 8 :=
  .wrapMasks ⟨[], 0, [], 0, 1, 0, .fileBacked ⟨"pool", .wrapMasksData⟩ 2 2, .ID0,
    some ⟨"pool", .wrapMasksMeta⟩⟩

/-- A daPoint source of P1 whose metadata file already has the cursor after the next point. -/
def aheadDaPoint : LazySource (ZMod 251) (ZMod 251) 8 :=
  .daPoints ⟨2, 0, [], .fileBacked ⟨"pool", .dapointsData⟩ 2 2, .ID1, some ⟨"pool", .dapointsMeta⟩,
    some 1⟩

def freshDisk : Disk := fun path =>
  match path.name with
  | .wrapMasksData | .dapointsData => some (.data [3, 5])
  | .wrapMasksMeta => some (.header ⟨[], 0, [], 0, 1, 0, 0, 0⟩)
  | .dapointsMeta => some (.header ⟨[], 0, [], 0, 2, 1, 1, 0⟩)
  | _ => none

end LazySource

/-- A P2 edaBit source of width 8 with one item in a loaded store file. -/
def p2OneEdaBit : LazyEdaBits (ZMod 251) 8 :=
  ⟨[], 0, [], 0, 1, 16, 0, .fileBacked ⟨"pool", .edabitsAlpha2 8⟩ 8 8, .p2Authoritative,
    .empty, .ID2, some ⟨"pool", .edabitsMeta 8⟩⟩

def p1OnePrecached : LazyEdaBits (ZMod 251) 8 :=
  ⟨[], 0, [], 0, 1, 16, 0, .fileBacked ⟨"pool", .edabitsPrecacheAlpha 8⟩ 8 8, .p01Precache 0 1,
    .empty, .ID1, some ⟨"pool", .edabitsMeta 8⟩⟩

/-- A P1 daPoint source with one point in a loaded store file. -/
def p1OneDaPoint : LazyDaPoints (ZMod 251) :=
  ⟨1, 0, [], .fileBacked ⟨"pool", .dapointsData⟩ 1 1, .ID1, some ⟨"pool", .dapointsMeta⟩, some 1⟩

/-- Their disk: nonzero elements, and cursor 0 in both metadata files. -/
def oneItemDisk : Disk := fun path =>
  match path.name with
  | .edabitsAlpha2 8 | .edabitsPrecacheAlpha 8 => some (.data [1, 2, 3, 4, 5, 6, 7, 8])
  | .dapointsData => some (.data [9])
  | .edabitsMeta 8 | .dapointsMeta => some (.header ⟨[], 0, [], 0, 1, 2, 0, 16⟩)
  | _ => none

/-- What a crash after the first write of an operation on `oneItemDisk` leaves: the cursor, byte 0
of the data file, and that byte before. -/
def crashAfterFirstWrite (src : LazySource (ZMod 251) (ZMod 251) 8) (op : ConsumeOp)
    (dataFile metaFile : FileName) : Except IoError (Option Nat × Option UInt8 × Option UInt8) := do
  let (_, ws) ← src.consumeOp CursorSys.quietRng (fun _ => .punchHole) oneItemDisk op
  let crashed := oneItemDisk.applyAll (ws.take 1)
  return (cursorAt crashed ⟨"pool", metaFile⟩, byteAt crashed ⟨"pool", dataFile⟩ 0,
    byteAt oneItemDisk ⟨"pool", dataFile⟩ 0)

end ProviaVM.Preprocessing
