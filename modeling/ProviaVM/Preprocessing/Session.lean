import ProviaVM.Preprocessing.CursorPersistence
import ProviaVM.Lib.Interval

/-! # Reservation sessions over the edaBit sources of a pool

`mpc-core/src/preprocessing/pool.rs`, `ForkablePreprocessingSession`, with
`reserve_range` and `finalize_reserved_range` of `edabits.rs`. A reservation reads the
cursor and leaves it; finalisation moves it. The model keeps, beside the pool, a
log of every index range that was given out, so that overlap can be stated over a
whole run. -/
namespace ProviaVM.Preprocessing
open ByteFile RawElem Intervals Function

inductive RingType where
  | u8 | u16 | u32 | u64 | u128
  deriving DecidableEq, Repr

namespace RingType

def bytes : RingType → Nat
  | u8 => 1
  | u16 => 2
  | u32 => 4
  | u64 => 8
  | u128 => 16

/-- `T::K`. -/
def width (t : RingType) : Nat := 8 * t.bytes

theorem bytes_pos (t : RingType) : 0 < t.bytes := by
  cases t <;> decide

end RingType

/-- The `n` low bytes of a number, least significant first. -/
def toLeBytes : Nat → Nat → List UInt8
  | 0, _ => []
  | n + 1, v => UInt8.ofNat v :: toLeBytes n (v / 256)

theorem length_toLeBytes (n v : Nat) : (toLeBytes n v).length = n := by
  induction n generalizing v with
  | zero => rfl
  | succ n ih => simp [toLeBytes, ih]

theorem fromLeBytes_toLeBytes (n v : Nat) (fits : v < 256 ^ n) :
    fromLeBytes (toLeBytes n v) = v := by
  induction n generalizing v with
  | zero =>
    have zero : v = 0 := by simpa using fits
    rw [zero]
    rfl
  | succ n ih =>
    have high : v / 256 < 256 ^ n := by
      exact Nat.div_lt_of_lt_mul (by omega)
    have low : (UInt8.ofNat v).toNat = v % 256 := UInt8.toNat_ofNat'
    have step : fromLeBytes (toLeBytes (n + 1) v) =
        (UInt8.ofNat v).toNat + 256 * fromLeBytes (toLeBytes n (v / 256)) := rfl
    rw [step, ih _ high]
    omega

/-- `RingElement<T>` in memory: the little-endian bytes. -/
instance (t : RingType) : RawElem (BitVec t.width) where
  size := t.bytes
  size_pos := t.bytes_pos
  toBytes x := toLeBytes t.bytes x.toNat
  ofBytes b := BitVec.ofNat t.width (fromLeBytes b)
  length_toBytes x := length_toLeBytes t.bytes x.toNat
  ofBytes_toBytes x := by
    have fits : x.toNat < 256 ^ t.bytes := by
      have bound : x.toNat < 2 ^ (8 * t.bytes) := x.isLt
      rwa [pow_mul] at bound
    simp [fromLeBytes_toLeBytes _ _ fits]

/-- The edaBit sources of `PreprocessingPool`. -/
def EdaPool (F : Type) : Type := (t : RingType) → LazyEdaBits F t.width

namespace EdaPool

variable {F : Type}

def set (pool : EdaPool F) (t : RingType) (src : LazyEdaBits F t.width) : EdaPool F :=
  Function.update pool t src

@[simp] theorem set_same (pool : EdaPool F) (t : RingType) (src : LazyEdaBits F t.width) :
    pool.set t src t = src := by
  unfold set
  exact update_self ..

theorem set_ne (pool : EdaPool F) {t t' : RingType} (src : LazyEdaBits F t.width)
    (different : t' ≠ t) :
    pool.set t src t' = pool t' := by
  unfold set
  exact update_of_ne different ..

end EdaPool

/-- A pool with, at most, one open session, and the index ranges given out so far. -/
structure SessionSys (F : Type) where
  pool : EdaPool F
  disk : Disk
  /-- The reservations of the open session, in the order of `reserve_ranges`. -/
  session : List (Σ t : RingType, EdaBitsReservation F t.width)
  /-- Ranges of successful reservations and takes, the newest first. -/
  issued : RingType → List Interval
  /-- Items reserved and items finalised since the start. -/
  reserved : RingType → Nat
  finalized : RingType → Nat

inductive SessionOp where
  /-- `begin_forkable_session`; a session left open was dropped. -/
  | beginSession
  | reserve (t : RingType) (n : Nat)
  /-- Fill from the view `range_view(start, len)` of an open reservation. -/
  | fill (reservation start len : Nat)
  /-- `finalize_reserved_range` of one open reservation, in any order. -/
  | finalizeRange (reservation : Nat)
  | finalizeSuccess
  | take (t : RingType) (n : Nat)
  deriving DecidableEq, Repr

namespace SessionSys

variable {F : Type}

def log (s : SessionSys F) (t : RingType) (r : Interval) : RingType → List Interval :=
  Function.update s.issued t (r :: s.issued t)

def cursor (s : SessionSys F) (t : RingType) : Nat := (s.pool t).cursor

variable {n : Nat} {t : RingType} {rs : List (Σ t : RingType, EdaBitsReservation F t.width)}
  {base : RingType → Nat} {s : SessionSys F} {c : ChaCha} {os : Os}

/-- A successful reservation starts at the cursor, and its range records it. -/
theorem reserveRange_spec {K : Nat} [RawElem (BitVec K)] {src : LazyEdaBits F K}
    {r : EdaBitsReservation F K} (h : src.reserveRange n = .ok r) :
    src.cursor + n ≤ src.total ∧ r.reserveRange.cursorBase = src.cursor ∧
      r.reserveRange.len = n := by
  unfold LazyEdaBits.reserveRange LazyEdaBits.ensureAvailable at h
  obtain ⟨_, ensured, h⟩ := Run.bind_ok.mp h
  split at ensured
  case isFalse => cases ensured
  rename_i available
  split at h <;> cases h <;> exact ⟨available, rfl, rfl⟩

def owed (rs : List (Σ t : RingType, EdaBitsReservation F t.width)) (t : RingType) : Nat :=
  (rs.map fun r => if r.1 = t then r.2.reserveRange.len else 0).sum

theorem owed_cons (r : Σ t : RingType, EdaBitsReservation F t.width)
    (rs : List (Σ t : RingType, EdaBitsReservation F t.width)) (t : RingType) :
    owed (r :: rs) t = (if r.1 = t then r.2.reserveRange.len else 0) + owed rs t := by
  simp [owed]

theorem owed_append (rs : List (Σ t : RingType, EdaBitsReservation F t.width))
    (r : Σ t : RingType, EdaBitsReservation F t.width) (t : RingType) :
    owed (rs ++ [r]) t = owed rs t + if r.1 = t then r.2.reserveRange.len else 0 := by
  simp [owed]

theorem owed_eraseIdx {rs : List (Σ t : RingType, EdaBitsReservation F t.width)} {i : Nat}
    {r : Σ t : RingType, EdaBitsReservation F t.width} (found : rs[i]? = some r) (t : RingType) :
    owed rs t = owed (r :: rs.eraseIdx i) t := by
  obtain ⟨inside, rfl⟩ := List.getElem?_eq_some_iff.mp found
  have same := List.getElem_cons_eraseIdx_perm inside
  exact (List.Perm.sum_eq (same.map _)).symm

/-- The ranges given out since the cursors stood at `base` tile everything up to the cursor plus the
reserved items; `rs` are reservations that can still be finalised. -/
structure Tiled (base : RingType → Nat) (s : SessionSys F)
    (rs : List (Σ t : RingType, EdaBitsReservation F t.width)) : Prop where
  ordered : ∀ t, base t ≤ s.cursor t
  owedLe : ∀ t, s.finalized t + owed rs t ≤ s.reserved t
  tiles : ∀ t, Tiles (s.issued t) (base t) (s.cursor t + (s.reserved t - s.finalized t))

/-- A range given out at the cursor, with nothing reserved beyond it. -/
theorem Tiled.issue (h : Tiled base s rs) (clear : n = 0 ∨ s.reserved t = s.finalized t) :
    Tiles (⟨s.cursor t, n⟩ :: s.issued t) (base t)
      (s.cursor t + n + (s.reserved t - s.finalized t)) := by
  have tiles := h.tiles t
  rcases clear with rfl | same
  · exact tiles.cons_empty _
  · rw [same, Nat.sub_self] at tiles ⊢
    exact tiles.cons (h.ordered t) n

variable [RawElem F]

/-- `finalize_reserved_range` on the pool. -/
def finalizeOne (os : Os) (s : SessionSys F) (r : Σ t : RingType, EdaBitsReservation F t.width) :
    SessionSys F :=
  let (src, writes) := (s.pool r.1).finalizeReservedRange os r.2.reserveRange
  { s with
    pool := s.pool.set r.1 src
    disk := s.disk.applyAll writes
    finalized := Function.update s.finalized r.1 (s.finalized r.1 + r.2.reserveRange.len) }

/-- One call. A call that returns an error leaves the pool as it was; a panic ends the run. -/
def step [NatCast F] (c : ChaCha) (os : Os) (s : SessionSys F) :
    SessionOp → Except IoError (SessionSys F)
  | .beginSession => .ok { s with session := [] }
  | .reserve t n =>
    match (s.pool t).reserveRange n with
    | .error _ => .ok s
    | .ok r => .ok { s with
        session := s.session ++ [⟨t, r⟩]
        issued := s.log t ⟨r.reserveRange.cursorBase, r.reserveRange.len⟩
        reserved := Function.update s.reserved t (s.reserved t + r.reserveRange.len) }
  | .fill i start len =>
    match s.session[i]? with
    | none => .ok s
    | some r =>
      match (r.2.rangeView start len).fillInto c s.disk with
      | .error .panicked => .error .panicked
      | _ => .ok s
  | .finalizeRange i =>
    match s.session[i]? with
    | none => .ok s
    | some r => .ok (finalizeOne os { s with session := s.session.eraseIdx i } r)
  | .finalizeSuccess => .ok (s.session.foldl (finalizeOne os) { s with session := [] })
  | .take t n =>
    match (s.pool t).takeBatch c os s.disk n with
    | .error .panicked => .error .panicked
    | .error _ => .ok s
    | .ok (_, src, writes) => .ok { s with
        pool := s.pool.set t src
        disk := s.disk.applyAll writes
        issued := s.log t ⟨s.cursor t, n⟩ }

theorem finalizeOne_cursor (os : Os) (s : SessionSys F)
    (r : Σ t : RingType, EdaBitsReservation F t.width) (t : RingType) :
    (finalizeOne os s r).cursor t = s.cursor t + if r.1 = t then r.2.reserveRange.len else 0 := by
  obtain ⟨t', r⟩ := r
  rcases eq_or_ne t' t with rfl | different
  · simp [finalizeOne, cursor, LazyEdaBits.finalizeReservedRange]
  · simp [finalizeOne, cursor, EdaPool.set_ne _ _ different.symm, different]

/-- Finalising moves items from "reserved" to "below the cursor": the tiled range is the
same. -/
theorem Tiled.finalizeOne {r : Σ t : RingType, EdaBitsReservation F t.width}
    (h : Tiled base s (r :: rs)) (os : Os) :
    Tiled base (finalizeOne os s r) rs := by
  have finalized (t : RingType) : (SessionSys.finalizeOne os s r).finalized t =
      s.finalized t + if r.1 = t then r.2.reserveRange.len else 0 := by
    rcases eq_or_ne r.1 t with rfl | different
    · simp [SessionSys.finalizeOne]
    · simp [SessionSys.finalizeOne, different, different.symm]
  have room (t : RingType) := h.owedLe t
  simp only [owed_cons] at room
  constructor
  · intro t
    rw [finalizeOne_cursor]
    exact Nat.le_add_right_of_le (h.ordered t)
  · intro t
    rw [finalized]
    have room := room t
    show _ ≤ s.reserved t
    omega
  · intro t
    have sameEnd : (SessionSys.finalizeOne os s r).cursor t +
        ((SessionSys.finalizeOne os s r).reserved t - (SessionSys.finalizeOne os s r).finalized t) =
          s.cursor t + (s.reserved t - s.finalized t) := by
      rw [finalizeOne_cursor, finalized]
      have room := room t
      show _ + (s.reserved t - _) = _
      omega
    rw [sameEnd]
    exact h.tiles t

theorem Tiled.finalizeAll (h : Tiled base s rs) (os : Os) :
    Tiled base (rs.foldl (SessionSys.finalizeOne os) s) [] := by
  induction rs generalizing s with
  | nil => exact h
  | cons r rs ih => exact ih (h.finalizeOne os)

variable [NatCast F]

/-- The condition on a call: whatever was reserved from the source before has been finalised. -/
def FinalizedFirst (s : SessionSys F) : SessionOp → Prop
  | .reserve t n | .take t n => n = 0 ∨ s.reserved t = s.finalized t
  | _ => True

/-- A reservation issues the range behind the cursor when nothing reserved is left open. -/
theorem step_reserve {s' : SessionSys F} (clear : s.FinalizedFirst (.reserve t n))
    (h : Tiled base s s.session) (done : s.step c os (.reserve t n) = .ok s') :
    Tiled base s' s'.session := by
  unfold step at done
  dsimp only at done
  split at done
  · cases done
    exact h
  rename_i r reserved
  obtain ⟨-, start, len⟩ := reserveRange_spec reserved
  cases done
  constructor
  · exact h.ordered
  · intro t'
    rw [owed_append]
    have room := h.owedLe t'
    rcases eq_or_ne t t' with rfl | different
    · simp only [update_self, if_true]
      omega
    · simp only [update_of_ne different.symm, if_neg different]
      omega
  · intro t'
    rcases eq_or_ne t t' with rfl | different
    · have tiles := h.issue clear
      have sameEnd : s.cursor t + n + (s.reserved t - s.finalized t) =
          s.cursor t + (s.reserved t + n - s.finalized t) := by
        have room := h.owedLe t
        omega
      simp only [log, update_self, start, len]
      rw [sameEnd] at tiles
      exact tiles
    · simp only [log, update_of_ne different.symm]
      exact h.tiles t'

/-- A take issues its range and moves the cursor past it. -/
theorem step_take {s' : SessionSys F} (clear : s.FinalizedFirst (.take t n))
    (h : Tiled base s s.session) (done : s.step c os (.take t n) = .ok s') :
    Tiled base s' s'.session := by
  unfold step at done
  dsimp only at done
  split at done
  · cases done
  · cases done
    exact h
  rename_i b src writes taken
  obtain ⟨-, rfl, -⟩ := LazyEdaBits.takeBatch_spec taken
  cases done
  have moved (t' : RingType) : cursor { s with
      pool := s.pool.set t { s.pool t with cursor := (s.pool t).cursor + n }
      disk := s.disk.applyAll writes
      issued := s.log t ⟨s.cursor t, n⟩ } t' = s.cursor t' + if t = t' then n else 0 := by
    rcases eq_or_ne t t' with rfl | different
    · simp [cursor]
    · simp [cursor, EdaPool.set_ne _ _ different.symm, different]
  constructor
  · intro t'
    rw [moved]
    exact Nat.le_add_right_of_le (h.ordered t')
  · exact h.owedLe
  · intro t'
    rw [moved]
    rcases eq_or_ne t t' with rfl | different
    · simp only [log, update_self]
      exact h.issue clear
    · simp only [log, update_of_ne different.symm, if_neg different]
      exact h.tiles t'

/-- What every call keeps, when it comes after the finalisation of earlier reservations. -/
theorem step_tiled (s : SessionSys F) (op : SessionOp) (s' : SessionSys F)
    (clear : s.FinalizedFirst op) (h : Tiled base s s.session) (done : s.step c os op = .ok s') :
    Tiled base s' s'.session := by
  cases op with
  | reserve t n => exact step_reserve clear h done
  | take t n => exact step_take clear h done
  | beginSession =>
    cases done
    -- the dropped reservations stay reserved and are never finalised
    refine ⟨h.ordered, fun t => ?_, h.tiles⟩
    exact Nat.le_trans (Nat.add_le_add_left (Nat.zero_le _) _) (h.owedLe t)
  | fill i start len =>
    unfold step at done
    dsimp only at done
    split at done
    · cases done
      exact h
    split at done <;> cases done
    exact h
  | finalizeRange i =>
    unfold step at done
    dsimp only at done
    split at done
    · cases done
      exact h
    rename_i r found
    cases done
    have split :
        Tiled base { s with session := s.session.eraseIdx i } (r :: s.session.eraseIdx i) :=
      ⟨h.ordered, fun t => owed_eraseIdx found t ▸ h.owedLe t, h.tiles⟩
    exact split.finalizeOne os
  | finalizeSuccess =>
    cases done
    have whole : Tiled base { s with session := [] } s.session := ⟨h.ordered, h.owedLe, h.tiles⟩
    have empty : ∀ (rs : List (Σ t : RingType, EdaBitsReservation F t.width)) (s : SessionSys F),
        (rs.foldl (SessionSys.finalizeOne os) s).session = s.session := by
      intro rs
      induction rs with
      | nil => exact fun _ => rfl
      | cons r rs ih => exact fun s => ih _
    rw [empty]
    exact whole.finalizeAll os

/-- A pool before the first call: nothing given out or reserved, no open session. -/
structure Fresh (s : SessionSys F) : Prop where
  session : s.session = []
  issued : ∀ t, s.issued t = []
  reserved : ∀ t, s.reserved t = 0
  finalized : ∀ t, s.finalized t = 0

omit [RawElem F] [NatCast F] in
theorem Fresh.tiled (h : s.Fresh) : Tiled s.cursor s s.session := by
  constructor
  · exact fun t => Nat.le_refl _
  · intro t
    rw [h.session, h.reserved, h.finalized]
    exact Nat.le_refl _
  · intro t
    rw [h.issued, h.reserved, h.finalized]
    exact Tiles.nil _

/-- In every run in which a source is asked only after its earlier reservations were finalised, no
two ranges given out overlap, and every index the cursor passed was given out once. -/
theorem reservations_tile {c : ChaCha} {os : Os} {s s' : SessionSys F} {ops : List SessionOp}
    (fresh : s.Fresh) (clear : Run.AllSteps (step c os) FinalizedFirst s ops)
    (reached : Run.run (step c os) s ops = .ok s') (t : RingType) :
    (s'.issued t).Pairwise Interval.Disjoint ∧
      ∀ x, s.cursor t ≤ x → x < s'.cursor t → cover (s'.issued t) x = 1 := by
  have tiled : Tiled s.cursor s' s'.session :=
    Run.run_invariant step_tiled clear fresh.tiled reached
  refine ⟨(tiled.tiles t).pairwise_disjoint, fun x lower upper => ?_⟩
  exact (tiled.tiles t).cover_eq_one lower (Nat.lt_of_lt_of_le upper (Nat.le_add_right _ _))

/-- The condition is exact: as long as the ranges tile and some of them are not finalised, a call
that gives out more gives out the index at the cursor a second time. -/
theorem overlap_of_unfinalized {c : ChaCha} {os : Os} {s s' : SessionSys F} {op : SessionOp}
    (h : Tiled base s s.session) (positive : 0 < n) (outstanding : s.finalized t < s.reserved t)
    (call : op = .reserve t n ∨ op = .take t n) (done : s.step c os op = .ok s')
    (given : s'.issued t ≠ s.issued t) : cover (s'.issued t) (s.cursor t) = 2 := by
  have twice : cover (⟨s.cursor t, n⟩ :: s.issued t) (s.cursor t) = 2 := by
    rw [cover_cons, if_pos ⟨Nat.le_refl _, Nat.lt_add_of_pos_right positive⟩,
      (h.tiles t).cover_eq_one (h.ordered t) (by omega)]
  rcases call with rfl | rfl
  · unfold step at done
    dsimp only at done
    split at done
    · cases done
      exact absurd rfl given
    · rename_i r reserved
      obtain ⟨-, start, len⟩ := reserveRange_spec reserved
      cases done
      simp only [log, update_self, start, len]
      exact twice
  · unfold step at done
    dsimp only at done
    split at done
    · cases done
    · cases done
      exact absurd rfl given
    · cases done
      simp only [log, update_self]
      exact twice

def twoItems : SessionSys (ZMod 251) where
  pool t :=
    ⟨[], 0, [], 0, 2, 16, 0, .inMemory (List.replicate (2 * t.width) 5), .p2Authoritative,
    .empty, .ID2, none⟩
  disk _ := none
  session := []
  issued _ := []
  reserved _ := 0
  finalized _ := 0

/-- Two items, one reserved, filled and finalised, the other taken. -/
theorem reservations_tile_twoItems :
    ∃ s', Run.run (step CursorSys.quietRng (fun _ => .punchHole)) twoItems
        [.beginSession, .reserve .u8 1, .fill 0 0 1, .finalizeSuccess, .take .u8 1] = .ok s' ∧
      (s'.issued .u8).Pairwise Interval.Disjoint ∧
      ∀ x, twoItems.cursor .u8 ≤ x → x < s'.cursor .u8 → cover (s'.issued .u8) x = 1 := by
  have fresh : twoItems.Fresh := ⟨rfl, fun _ => rfl, fun _ => rfl, fun _ => rfl⟩
  have clear : Run.AllSteps (step CursorSys.quietRng (fun _ => .punchHole)) FinalizedFirst twoItems
      [.beginSession, .reserve .u8 1, .fill 0 0 1, .finalizeSuccess, .take .u8 1] := by
    refine ⟨trivial, fun s₁ h₁ => ⟨?_, fun s₂ h₂ => ⟨trivial, fun s₃ h₃ => ⟨trivial, fun s₄ h₄ =>
      ⟨?_, fun _ _ => trivial⟩⟩⟩⟩⟩
    · cases h₁
      exact Or.inr rfl
    · cases h₁
      cases h₂
      cases h₃
      cases h₄
      exact Or.inr rfl
  have reached : ∃ s', Run.run (step CursorSys.quietRng (fun _ => .punchHole)) twoItems
      [.beginSession, .reserve .u8 1, .fill 0 0 1, .finalizeSuccess, .take .u8 1] = .ok s' :=
        ⟨_, rfl⟩
  obtain ⟨s', reached⟩ := reached
  exact ⟨s', reached, reservations_tile fresh clear reached .u8⟩

/-- Two reservations in one session receive the same index, and after `finalize_success` the index
below the cursor was never given out. A session dropped before leaves its range to the next
caller. -/
theorem reservations_overlap :
    (Run.run (step CursorSys.quietRng (fun _ => .punchHole)) twoItems
        [.beginSession, .reserve .u8 1, .reserve .u8 1, .finalizeSuccess]).map
        (fun s => (s.issued .u8, s.cursor .u8, cover (s.issued .u8) 0, cover (s.issued .u8) 1)) =
      .ok ([⟨0, 1⟩, ⟨0, 1⟩], 2, 2, 0) ∧
    (Run.run (step CursorSys.quietRng (fun _ => .punchHole)) twoItems
        [.beginSession, .reserve .u8 1, .fill 0 0 1, .beginSession, .reserve .u8 1,
          .finalizeSuccess]).map (fun s => (s.issued .u8, s.cursor .u8)) =
      .ok ([⟨0, 1⟩, ⟨0, 1⟩], 1) := by
  exact ⟨rfl, rfl⟩

end SessionSys

end ProviaVM.Preprocessing
