import ProviaVM.Preprocessing.Precache
import ProviaVM.Preprocessing.Pool

/-! # Filling a reserved range piece by piece

`edabits.rs`: `EdaBitsReservation::range_view` hands out consecutive parts of a reserved
range, and `fill_into_par_safe` fills each of them from the window and the seeds. The parts
together are the batch that `take_batch` gives for the whole range, when no part begins
where the window cannot be used: beyond its end, or inside a window that begins after the
reserved range does. -/
namespace ProviaVM.Preprocessing
open ByteFile RawElem EdaBitsReservation BackingStore Run List

namespace EdaBitsBatch

variable {F : Type} {K : Nat}

def append (a b : EdaBitsBatch F K) : EdaBitsBatch F K :=
  ⟨a.gammas ++ b.gammas, a.alphasFlat ++ b.alphasFlat⟩

def cut (b : EdaBitsBatch F K) (start len : Nat) : EdaBitsBatch F K :=
  ⟨(b.gammas.drop start).take len, (b.alphasFlat.drop (start * K)).take (len * K)⟩

def Sized (b : EdaBitsBatch F K) (n : Nat) : Prop :=
  b.gammas.length = n ∧ b.alphasFlat.length = n * K

theorem cut_zero (b : EdaBitsBatch F K) (start : Nat) : b.cut start 0 = ⟨[], []⟩ := by
  simp [cut]

theorem cut_all {b : EdaBitsBatch F K} {n : Nat} (sized : b.Sized n) : b.cut 0 n = b := by
  obtain ⟨gammas, alphas⟩ := sized
  simp only [cut, Nat.zero_mul, drop_zero]
  rw [take_of_length_le (Nat.le_of_eq gammas), take_of_length_le (Nat.le_of_eq alphas)]

/-- Consecutive cuts in sequence are one cut. -/
theorem cut_append_cut (b : EdaBitsBatch F K) (start k m : Nat) :
    (b.cut start k).append (b.cut (start + k) m) = b.cut start (k + m) := by
  simp only [cut, append, Nat.add_mul, take_add, drop_drop]

/-- A cut of two batches in sequence, taken from each of them. -/
theorem append_cut {a b : EdaBitsBatch F K} {k : Nat} (sized : a.Sized k) (start len : Nat) :
    (a.append b).cut start len = (a.cut start len).append
      (b.cut (start - k) (len - (k - start))) := by
  obtain ⟨gammas, alphas⟩ := sized
  simp only [cut, append, drop_append, take_append, length_drop, gammas, alphas, Nat.sub_mul]

/-- Past the end of a batch there is nothing to cut. -/
theorem cut_min {a : EdaBitsBatch F K} {k : Nat} (sized : a.Sized k) (start len : Nat) :
    a.cut start (min (k - start) len) = a.cut start len := by
  obtain ⟨gammas, alphas⟩ := sized
  have short : (a.gammas.drop start).length = k - start := by simp [gammas]
  have flat : (a.alphasFlat.drop (start * K)).length = (k - start) * K := by
    rw [length_drop, alphas, Nat.sub_mul]
  simp only [cut, EdaBitsBatch.mk.injEq]
  rcases Nat.le_total (k - start) len with le | le
  · rw [Nat.min_eq_left le, ← flat, ← short, take_length, take_length,
      take_of_length_le (by rw [short]; exact le),
      take_of_length_le (by rw [flat]; exact Nat.mul_le_mul_right K le)]
    exact ⟨rfl, rfl⟩
  · rw [Nat.min_eq_right le]
    exact ⟨rfl, rfl⟩

end EdaBitsBatch

open EdaBitsBatch

section Regeneration

variable {F : Type} [NatCast F] {K : Nat} [RawElem (BitVec K)]
variable {fieldBytes : Nat}

theorem itemsAt_sized (c : ChaCha) (seed1 : Seed) (pos1 : Nat) (seed2 : Seed)
    (pos2 fieldBytes : Nat) (p : PartyID) (base n : Nat) :
    (itemsAt F K c seed1 pos1 seed2 pos2 fieldBytes p base n).Sized n := by
  simp [Sized, itemsAt]

variable {seed1 seed2 : Seed} {pos1 pos2 n : Nat}

/-- A cut of regenerated items is what regeneration gives from its first index. -/
theorem itemsAt_cut {c : ChaCha} {base i j : Nat} {p : PartyID} (inside : i + j ≤ n) :
    (itemsAt F K c seed1 pos1 seed2 pos2 fieldBytes p base n).cut i j =
      itemsAt F K c seed1 pos1 seed2 pos2 fieldBytes p (base + i) j := by
  obtain ⟨m, rfl⟩ := Nat.exists_eq_add_of_le inside
  have front : (itemsAt F K c seed1 pos1 seed2 pos2 fieldBytes p base (i + j + m)) =
      (itemsAt F K c seed1 pos1 seed2 pos2 fieldBytes p base i).append
        ((itemsAt F K c seed1 pos1 seed2 pos2 fieldBytes p (base + i) j).append
          (itemsAt F K c seed1 pos1 seed2 pos2 fieldBytes p (base + i + j) m)) := by
    have inner :=
      @itemsAt_append F _ K _ c (base + i) (j + m) fieldBytes seed1 seed2 pos1 pos2 j p (by omega)
    have outer :=
      @itemsAt_append F _ K _ c base (i + j + m) fieldBytes seed1 seed2 pos1 pos2 i p (by omega)
    rw [Nat.add_sub_cancel_left] at inner
    rw [show i + j + m - i = j + m by omega] at outer
    rw [← outer, ← inner]
    rfl
  have first := itemsAt_sized (F := F) (K := K) c seed1 pos1 seed2 pos2 fieldBytes p base i
  have second := itemsAt_sized (F := F) (K := K) c seed1 pos1 seed2 pos2 fieldBytes p (base + i) j
  rw [front, append_cut first, append_cut second, Nat.sub_self, Nat.sub_zero, Nat.sub_self,
    cut_zero, cut_all second]
  have nothing : (itemsAt F K c seed1 pos1 seed2 pos2 fieldBytes p base i).cut i j = ⟨[], []⟩ := by
    rw [← cut_min first, Nat.sub_self, Nat.zero_min, cut_zero]
  rw [nothing]
  simp [append]

omit [RawElem (BitVec K)] in
theorem parseField_fits {buf : List UInt8} {start : Nat} {x : F}
    (h : parseField buf start = .ok x) :
    start + 16 ≤ buf.length := by
  unfold parseField at h
  split at h
  · assumption
  · cases h

/-- A sample has its sixteen bytes inside its record when samples are that far apart. -/
theorem sample_fits {idx : Nat} (spaced : 16 ≤ fieldBytes) (inside : idx < n * K) :
    idx / K * stride K fieldBytes + size (BitVec K) + idx % K * fieldBytes + 16 ≤
      n * stride K fieldBytes := by
  have positive : 0 < K := Nat.pos_of_ne_zero fun zero => by simp [zero] at inside
  have item : idx / K + 1 ≤ n := Nat.div_lt_of_lt_mul (Nat.mul_comm n K ▸ inside)
  have bit : idx % K + 1 ≤ K := Nat.mod_lt idx positive
  have samples : idx % K * fieldBytes + 16 ≤ K * fieldBytes := by
    calc idx % K * fieldBytes + 16 ≤ idx % K * fieldBytes + fieldBytes :=
             Nat.add_le_add_left spaced _
      _ = (idx % K + 1) * fieldBytes := by rw [Nat.add_mul, Nat.one_mul]
      _ ≤ K * fieldBytes := Nat.mul_le_mul_right _ bit
  calc idx / K * stride K fieldBytes + size (BitVec K) + idx % K * fieldBytes + 16
      ≤ idx / K * stride K fieldBytes + stride K fieldBytes := by
        rw [Nat.add_assoc, Nat.add_assoc]
        exact Nat.add_le_add_left (Nat.add_le_add_left samples _) _
    _ = (idx / K + 1) * stride K fieldBytes := by rw [Nat.add_mul, Nat.one_mul]
    _ ≤ n * stride K fieldBytes := Nat.mul_le_mul_right _ item

/-- Regeneration succeeds when samples are at least as far apart as they are long. -/
theorem generateIntoFromState_of_spaced (c : ChaCha) (p : PartyID) (spaced : 16 ≤ fieldBytes)
    (base n : Nat) :
    (generateIntoFromState c seed1 pos1 seed2 pos2 fieldBytes p base n :
      Except IoError (EdaBitsBatch F K)) =
      .ok (itemsAt F K c seed1 pos1 seed2 pos2 fieldBytes p base n) := by
  obtain ⟨b, generated⟩ : ∃ b : EdaBitsBatch F K,
      generateIntoFromState c seed1 pos1 seed2 pos2 fieldBytes p base n = .ok b := by
    unfold generateIntoFromState
    split
    · exact ⟨_, rfl⟩
    simp only [ChaCha.seekAndGenerate_eq, bind_ok]
    have parsed : ∀ seed pos, ∃ ys : List F, (List.range (n * K)).mapM (fun idx => parseField
        (c.streamSlice seed pos (base * stride K fieldBytes) (n * stride K fieldBytes))
        (idx / K * stride K fieldBytes + size (BitVec K) + idx % K * fieldBytes)) = .ok ys := by
      refine fun seed pos => mapM_isOk_iff.mpr fun idx member => ⟨_, if_pos ?_⟩
      rw [ChaCha.length_streamSlice]
      exact sample_fits spaced (mem_range.mp member)
    split
    · obtain ⟨ys, h⟩ := parsed seed1 pos1
      exact ⟨_, ys, h, rfl⟩
    · obtain ⟨ys, h⟩ := parsed seed2 pos2
      exact ⟨_, ys, h, rfl⟩
  rw [generated, generateIntoFromState_eq generated]

/-- Regeneration of at least one item only succeeds then: the last sample ends the buffer. -/
theorem spaced_of_generateIntoFromState {c : ChaCha} {base : Nat} {p : PartyID}
    {b : EdaBitsBatch F K} (wide : 0 < K) (some_ : 0 < n)
    (h : generateIntoFromState c seed1 pos1 seed2 pos2 fieldBytes p base n = .ok b) :
    16 ≤ fieldBytes := by
  unfold generateIntoFromState at h
  rw [if_neg (Nat.ne_of_gt some_)] at h
  simp only [ChaCha.seekAndGenerate_eq] at h
  obtain ⟨ys, parsed, -⟩ := bind_ok.mp h
  have last : (n - 1) * K + (K - 1) ∈ List.range (n * K) := by
    rw [mem_range]
    calc (n - 1) * K + (K - 1) < (n - 1) * K + K := by omega
      _ = n * K := by rw [← Nat.succ_mul, Nat.succ_eq_add_one, Nat.sub_add_cancel some_]
  obtain ⟨y, one⟩ := mapM_isOk_iff.mp ⟨ys, parsed⟩ _ last
  have item : ((n - 1) * K + (K - 1)) / K = n - 1 := by
    rw [Nat.add_comm, Nat.add_mul_div_right _ _ wide, Nat.div_eq_of_lt (by omega), Nat.zero_add]
  have bit : ((n - 1) * K + (K - 1)) % K = K - 1 := by
    simp
  have fits := parseField_fits one
  have total : n * stride K fieldBytes = (n - 1) * stride K fieldBytes + size (BitVec K) +
    (K - 1) * fieldBytes +
      fieldBytes := by
    calc n * stride K fieldBytes = (n - 1) * stride K fieldBytes + stride K fieldBytes := by
          rw [← Nat.succ_mul, Nat.succ_eq_add_one, Nat.sub_add_cancel some_]
      _ = (n - 1) * stride K fieldBytes + (size (BitVec K) + ((K - 1) + 1) * fieldBytes) := by
          rw [Nat.sub_add_cancel wide]
          rfl
      _ = _ := by rw [Nat.add_mul, Nat.one_mul, Nat.add_assoc, Nat.add_assoc]
  have length :
    (if p = .ID0 then c.streamSlice seed1 pos1 (base * stride K fieldBytes)
    (n * stride K fieldBytes)
      else c.streamSlice seed2 pos2 (base * stride K fieldBytes) (n * stride K fieldBytes)).length =
        n * stride K fieldBytes := by
    split <;> exact ChaCha.length_streamSlice ..
  rw [length, item, bit] at fits
  omega

end Regeneration

section Stores

variable {α : Type} [RawElem α]
variable {store : BackingStore α} {d : Disk} {start n : Nat}

/-- A read succeeds on every file that is the same where the store keeps its elements. -/
theorem readConsumeIntoSlice_congr {d' : Disk}
    (same : ∀ path, storePath store = some path → d' path = d path) (start stop outLen : Nat) :
    store.readConsumeIntoSlice d' start stop outLen =
      store.readConsumeIntoSlice d start stop outLen := by
  cases store with
  | inMemory v => rfl
  | empty => rfl
  | fileBacked path len append =>
    simp only [readConsumeIntoSlice, readFile, same path rfl]

/-- Reclaiming a range of a store changes no other file. -/
theorem applyAll_consume_ne {os : Os} {stop : Nat} {q : Path} (other : storePath store ≠ some q) :
    d.applyAll (store.consume os start stop) q = d q := by
  have keeps : ∀ w ∈ store.consume os start stop, ∀ d' : Disk, d' q = d q → d'.apply w q = d q := by
    intro w member d' before
    obtain ⟨path, len, append, off, n, rfl, rfl, -⟩ := mem_consume member
    have ne : q ≠ path := fun eq => other (by rw [eq]; rfl)
    rw [Disk.apply, Disk.zeroBytes_ne off n ne, before]
  exact applyAll_invariant keeps rfl

variable {xs : List α} {i j : Nat}

theorem length_readConsumeIntoSlice
    (h : store.readConsumeIntoSlice d start (start + n) n = .ok xs) :
    xs.length = n := by
  have stored := congrArg List.length (readConsumeIntoSlice_stored h)
  simpa using stored

theorem elems_part {b : List UInt8} (inside : i + j ≤ n) :
    elems b (start + i) j = ((elems b start n : List α).drop i).take j := by
  apply ext_getElem
  · simp only [elems, length_map, length_range, length_take, length_drop]
    omega
  · intro k _ _
    simp only [elems, getElem_map, getElem_range, getElem_take, getElem_drop, Nat.add_assoc]

theorem readFile_part {path : Path} (h : readFile d path start (start + n) = .ok xs)
    (inside : i + j ≤ n) :
    readFile d path (start + i) (start + i + j) = .ok ((xs.drop i).take j) := by
  unfold readFile at h ⊢
  simp only [Nat.add_sub_cancel_left] at h ⊢
  rcases Nat.eq_zero_or_pos j with rfl | positive
  · simp
  rw [if_neg (Nat.ne_of_gt positive)]
  rw [if_neg (by omega)] at h
  split at h
  · rename_i b found
    split at h
    · rename_i bytes read
      cases h
      have room : start * size α + n * size α ≤ b.length := by
        unfold readExact at read
        split at read
        · assumption
        · cases read
      have fits : (start + i) * size α + j * size α ≤ b.length := by
        rw [← Nat.add_mul] at room ⊢
        exact Nat.le_trans (Nat.mul_le_mul_right _ (by omega)) room
      simp only [readExact, if_pos fits]
      exact congrArg Except.ok (elems_part inside)
    · cases h
  · cases h

/-- A view reads any part of a range that a take can read, when the store is known to be that
long. -/
theorem readIntoSlice_part (h : store.readConsumeIntoSlice d start (start + n) n = .ok xs)
    (long : start + n ≤ store.len) (inside : i + j ≤ n) :
    store.readIntoSlice d (start + i) (start + i + j) j = .ok ((xs.drop i).take j) := by
  have valid : store.validateRange (start + i) (start + i + j) = .ok () := by
    rw [validateRange, if_neg (by omega), if_neg (by omega)]
  have whole : ¬ (n ≠ start + n - start) := by omega
  have part : ¬ (j ≠ start + i + j - (start + i)) := by omega
  have ordered : ¬ start + n < start := by omega
  simp only [readConsumeIntoSlice, if_neg whole, if_neg ordered] at h
  simp only [readIntoSlice, if_neg part]
  cases store with
  | inMemory v =>
    obtain ⟨_, -, last⟩ := bind_ok.mp h
    cases last
    refine bind_ok.mpr ⟨(), valid, congrArg Except.ok ?_⟩
    rw [Nat.add_sub_cancel_left, drop_take, take_take, drop_drop,
      Nat.min_eq_left (by omega)]
  | fileBacked path len append => exact bind_ok.mpr ⟨(), valid, readFile_part h inside⟩
  | empty =>
    dsimp only at h
    split at h
    · cases h
    · cases h
      have nothing : j = 0 := by omega
      simp [nothing]

end Stores

namespace LazyEdaBits

variable {F : Type} [Ring F] [RawElem F] {K : Nat} [RawElem (BitVec K)]

/-- How many of the next `n` items a take reads from the store. -/
def storedItems (s : LazyEdaBits F K) (n : Nat) : Nat :=
  if s.partyId = .ID2 then n
  else match s.storageMode with
    | .p01Precache start len =>
      if s.cursor < start ∨ start + len ≤ s.cursor then 0 else min (start + len - s.cursor) n
    | _ => 0

def storeOffset (s : LazyEdaBits F K) : Nat :=
  match s.storageMode with
  | .p01Precache start _ => s.cursor - start
  | _ => s.cursor

/-- What every source satisfies from the start: the stores are as long as the window, or as what P2
received, and in different files; and only P2 has received material. -/
structure Backed (s : LazyEdaBits F K) : Prop where
  window : ∀ start len, s.storageMode = .p01Precache start len →
    s.partyId ≠ .ID2 ∧ len * K ≤ s.alphasFlatStore.len ∧ (s.partyId = .ID0 → len ≤ s.gammaStore.len)
  role : s.storageMode = .p2Authoritative → s.partyId = .ID2
  received : s.partyId = .ID2 → s.total * K ≤ s.alphasFlatStore.len
  apart : ∀ path, storePath s.alphasFlatStore = some path → storePath s.gammaStore ≠ some path

/-- The part of a taken batch that was read from the stores. -/
structure StoredPart (s : LazyEdaBits F K) (d : Disk) (k : Nat) (b : EdaBitsBatch F K) : Prop where
  alphas : 0 < k → s.alphasFlatStore.readConsumeIntoSlice d (s.storeOffset * K)
    (s.storeOffset * K + k * K) (k * K) =
    .ok b.alphasFlat
  gammas : 0 < k → s.partyId = .ID0 →
    s.gammaStore.readConsumeIntoSlice d s.storeOffset (s.storeOffset + k) k = .ok b.gammas
  zeros : s.partyId ≠ .ID0 → b.gammas = List.replicate k 0
  nothing : k = 0 → b = ⟨[], []⟩

variable {s : LazyEdaBits F K} {d : Disk} {b : EdaBitsBatch F K}

omit [Ring F] in
theorem StoredPart.sized {k : Nat} (part : s.StoredPart d k b) : b.Sized k := by
  rcases Nat.eq_zero_or_pos k with rfl | positive
  · rw [part.nothing rfl]
    simp [Sized]
  refine ⟨?_, length_readConsumeIntoSlice (part.alphas positive)⟩
  by_cases isP0 : s.partyId = .ID0
  · exact length_readConsumeIntoSlice (part.gammas positive isP0)
  · simp [part.zeros isP0]

omit [Ring F] in
/-- What `fill_precache_into` serves is the stored part. -/
theorem fillPrecacheInto_stored {os : Os} {n : Nat} {ws : List Write} (backed : s.Backed)
    (notP2 : s.partyId ≠ .ID2) (positive : 0 < n)
    (h : s.fillPrecacheInto os d s.cursor n = .ok (b, ws)) :
    s.StoredPart d (s.storedItems n) b := by
  have empty_ : s.StoredPart d 0 ⟨[], []⟩ :=
    ⟨fun more => absurd more (Nat.lt_irrefl 0), fun more => absurd more (Nat.lt_irrefl 0),
      fun _ => rfl, fun _ => rfl⟩
  unfold fillPrecacheInto at h
  cases mode : s.storageMode with
  | none | p2Authoritative =>
    simp only [mode] at h
    cases h
    simpa only [storedItems, if_neg notP2, mode] using empty_
  | p01Precache start len =>
    simp only [mode] at h
    have offset : s.storeOffset = s.cursor - start := by simp only [storeOffset, mode]
    split at h
    · rename_i outside
      cases h
      simpa only [storedItems, if_neg notP2, mode, if_pos outside] using empty_
    rename_i inside
    have count : s.storedItems n = min (start + len - s.cursor) n := by
      simp only [storedItems, if_neg notP2, mode, if_neg inside]
    have served : s.storedItems n ≠ 0 := by omega
    rw [← offset, ← count] at h
    obtain ⟨⟨alphas, alphaWrites⟩, tookAlpha, rest⟩ := bind_ok.mp h
    obtain ⟨readAlpha, rfl⟩ := takeStoreRangeInto_ok (unwrapOrPanic_ok.mp tookAlpha)
    rw [Nat.add_sub_cancel_left] at readAlpha
    cases party : s.partyId with
    | ID0 =>
      simp only [party] at rest
      obtain ⟨⟨gammas, gammaWrites⟩, tookGamma, last⟩ := bind_ok.mp rest
      obtain ⟨readGamma, rfl⟩ := takeStoreRangeInto_ok (unwrapOrPanic_ok.mp tookGamma)
      cases last
      -- the masks are read after the alphas were reclaimed, from another file
      rw [Nat.add_sub_cancel_left, readConsumeIntoSlice_congr fun path own =>
        applyAll_consume_ne fun clash => backed.apart path clash own] at readGamma
      exact ⟨fun _ => readAlpha, fun _ _ => readGamma, fun notP0 => absurd party notP0,
        fun zero => absurd zero served⟩
    | ID1 =>
      simp only [party] at rest
      cases rest
      exact ⟨fun _ =>
        readAlpha, fun _ isP0 => by
        simp [party] at isP0, fun _ => rfl, fun zero => absurd zero served⟩
    | ID2 => exact absurd party notP2

/-- A take of at least one item is a stored part followed by regenerated items. -/
theorem takeBatch_parts {s' : LazyEdaBits F K} {c : ChaCha} {os : Os} {n : Nat} {ws : List Write}
    (backed : s.Backed) (positive : 0 < n) (h : s.takeBatch c os d n = .ok (b, s', ws)) :
    ∃ stored rest, b = stored.append rest ∧ s.StoredPart d (s.storedItems n) stored ∧
      s.generateInto c (s.cursor + s.storedItems n) (n - s.storedItems n) = .ok rest := by
  unfold takeBatch at h
  obtain ⟨_, -, h⟩ := bind_ok.mp h
  rw [if_neg (Nat.ne_of_gt positive)] at h
  by_cases isP2 : s.partyId = .ID2
  · have all : s.storedItems n = n := by simp only [storedItems, if_pos isP2]
    have offset : s.storeOffset = s.cursor := by
      cases mode : s.storageMode with
      | none | p2Authoritative => simp only [storeOffset, mode]
      | p01Precache start len => exact absurd isP2 (backed.window start len mode).1
    rw [if_pos isP2] at h
    obtain ⟨⟨alphas, writes⟩, took, last⟩ := bind_ok.mp h
    obtain ⟨read, -⟩ := takeStoreRangeInto_ok (unwrapOrPanic_ok.mp took)
    cases last
    rw [Nat.add_sub_cancel_left, ← offset] at read
    refine ⟨⟨List.replicate n 0, alphas⟩, ⟨[], []⟩, by simp [append], ?_, ?_⟩
    · rw [all]
      exact ⟨fun _ =>
        read, fun _ isP0 => by
        simp [isP2] at isP0, fun _ => rfl, fun zero => absurd zero (Nat.ne_of_gt positive)⟩
    · rw [all, Nat.sub_self]
      rfl
  · rw [if_neg isP2] at h
    obtain ⟨⟨stored, writes⟩, filled, h⟩ := bind_ok.mp h
    obtain ⟨rest, generated, last⟩ := bind_ok.mp h
    cases last
    have part := fillPrecacheInto_stored backed isP2 positive filled
    rw [part.sized.1] at generated
    exact ⟨stored, rest, rfl, part, generated⟩

/-- A part that begins `start` items after the cursor can be filled: P2 reads what it has received;
the others have no window, or one that the part does not begin beyond, nor inside when the reserved
range begins before it. -/
def Reaches (s : LazyEdaBits F K) (start : Nat) : Prop :=
  match s.storageMode with
  | .p2Authoritative => True
  | .none => s.partyId ≠ .ID2
  | .p01Precache first len => len = 0 ∨ s.cursor + start ≤ first + len ∧
      (s.cursor < first → s.cursor + start < first ∨ s.cursor + start = first + len)

end LazyEdaBits

section Views

open LazyEdaBits EdaBitsRangeView

variable {F : Type} [Ring F] [RawElem F] {K : Nat} [RawElem (BitVec K)]
variable {s : LazyEdaBits F K} {n start len : Nat} {d : Disk}

/-- What a view of a reserved range finds out about the items the source has stored. -/
structure SeesStored (s : LazyEdaBits F K) (n : Nat) (v : EdaBitsRangeView F K) (start len : Nat) :
    Prop where
  counted : v.cachedItems = .ok (min (s.storedItems n - start) len)
  offset : start < s.storedItems n → v.startCursor - v.storeStartCursor = s.storeOffset + start
  alphaView : 0 < s.storedItems n → v.alphaView = some s.alphasFlatStore
  gammaView : 0 < s.storedItems n → s.partyId = .ID0 → v.gammaView = some s.gammaStore

variable {r : EdaBitsReservation F K} {c : ChaCha} {b : EdaBitsBatch F K}

omit [Ring F] [RawElem F] [RawElem (BitVec K)] in
/-- A view that starts where the window reaches counts and finds the stored items as the take
does. -/
theorem seesStored_of_reaches (backed : s.Backed) (reserved : s.reserveRange n = .ok r)
    (inside : start + len ≤ n) (positive : 0 < len) (reaches : s.Reaches start) :
    SeesStored s n (r.rangeView start len) start len := by
  unfold LazyEdaBits.reserveRange at reserved
  obtain ⟨_, -, reserved⟩ := bind_ok.mp reserved
  cases mode : s.storageMode with
  | none =>
    simp only [mode] at reserved
    cases reserved
    have notP2 : s.partyId ≠ .ID2 := by simpa only [Reaches, mode] using reaches
    have count : s.storedItems n = 0 := by simp only [storedItems, if_neg notP2, mode]
    refine ⟨?_, fun more => ?_, fun more => ?_, fun more => ?_⟩
    · simp [cachedItems, rangeView, count]
    all_goals omega
  | p2Authoritative =>
    simp only [mode] at reserved
    cases reserved
    have isP2 := backed.role mode
    have count : s.storedItems n = n := by simp only [storedItems, if_pos isP2]
    refine ⟨?_, fun _ => ?_, fun _ => rfl, fun _ isP0 => by simp [isP2] at isP0⟩
    · have begun : ¬ (n = 0 ∨ s.cursor + start < s.cursor) := by omega
      have before : ¬ s.cursor + n < s.cursor + start := by omega
      simp only [cachedItems, rangeView, count, if_neg begun, if_neg before, Nat.add_sub_add_left]
    · simp [rangeView, storeOffset, mode]
  | p01Precache first width =>
    simp only [mode] at reserved
    cases reserved
    have notP2 := (backed.window first width mode).1
    have count : s.storedItems n = if s.cursor < first ∨ first + width ≤ s.cursor then 0
        else min (first + width - s.cursor) n := by
      simp only [storedItems, if_neg notP2, mode]
    have allowed : width = 0 ∨ s.cursor + start ≤ first + width ∧
        (s.cursor < first → s.cursor + start < first ∨ s.cursor + start = first + width) := by
      simpa only [Reaches, mode] using reaches
    refine ⟨?_, fun more => ?_, fun more => ?_, fun more isP0 => ?_⟩
    · change (if width = 0 ∨ s.cursor + start < first then Except.ok 0
        else if first + width < s.cursor + start then .error IoError.panicked
        else .ok (min (first + width - (s.cursor + start)) len)) = _
      by_cases nothing : width = 0 ∨ s.cursor + start < first
      · rw [if_pos nothing]
        have zero : s.storedItems n - start = 0 := by
          rw [count]
          split <;> omega
        simp [zero]
      · have before : ¬ first + width < s.cursor + start := by omega
        rw [if_neg nothing, if_neg before]
        congr 1
        rw [count]
        split <;> omega
    · simp only [rangeView, storeOffset, mode]
      rw [count] at more
      split at more <;> omega
    · rw [count] at more
      exact if_pos more
    · rw [count] at more
      exact if_pos ⟨more, isP0⟩

omit [Ring F] in
/-- What the view reads from the stores is a cut of what the take read. -/
theorem fillFromCache_cut {v : EdaBitsRangeView F K} {stored : EdaBitsBatch F K}
    (sees : SeesStored s n v start len) (party : v.partyId = s.partyId)
    (long : 0 < s.storedItems n → s.storeOffset * K + s.storedItems n * K ≤ s.alphasFlatStore.len ∧
      (s.partyId = .ID0 → s.storeOffset + s.storedItems n ≤ s.gammaStore.len))
    (part : s.StoredPart d (s.storedItems n) stored) :
    v.fillFromCache d (min (s.storedItems n - start) len) = .ok (stored.cut start len) := by
  rw [← cut_min part.sized]
  generalize cached_ : min (s.storedItems n - start) len = cached
  unfold fillFromCache
  split
  · rename_i zero
    rw [zero, cut_zero]
  have begun : start < s.storedItems n := by omega
  have some_ : 0 < s.storedItems n := by omega
  have inside : start + cached ≤ s.storedItems n := by omega
  obtain ⟨longAlpha, longGamma⟩ := long some_
  have flat : start * K + cached * K ≤ s.storedItems n * K := by
    rw [← Nat.add_mul]
    exact Nat.mul_le_mul_right K inside
  have alphas := readIntoSlice_part (part.alphas some_) longAlpha flat
  rw [← Nat.add_mul] at alphas
  simp only [sees.offset begun, sees.alphaView some_, readView, alphas]
  cases isP0 : s.partyId with
  | ID0 =>
    have gammas := readIntoSlice_part (part.gammas some_ isP0) (longGamma isP0) inside
    rw [party, isP0, sees.gammaView some_ isP0]
    simp only [gammas]
    rfl
  | ID1 | ID2 =>
    rw [party, isP0]
    have zeros := part.zeros (by simp [isP0])
    simp only [cut, zeros, drop_replicate, take_replicate,
      Nat.min_eq_left (Nat.le_sub_of_add_le' inside)]
    rfl

omit [Ring F] [RawElem F] [RawElem (BitVec K)] in
/-- The stores are long enough for what a take reads. -/
theorem LazyEdaBits.Backed.long (backed : s.Backed) (available : s.cursor + n ≤ s.total)
    (some_ : 0 < s.storedItems n) :
    s.storeOffset * K + s.storedItems n * K ≤ s.alphasFlatStore.len ∧
      (s.partyId = .ID0 → s.storeOffset + s.storedItems n ≤ s.gammaStore.len) := by
  rw [← Nat.add_mul]
  cases mode : s.storageMode with
  | p01Precache first width =>
    obtain ⟨notP2, alphas, gammas⟩ := backed.window first width mode
    have reach : s.storeOffset + s.storedItems n ≤ width := by
      simp only [storedItems, if_neg notP2, mode] at some_
      simp only [storedItems, storeOffset, if_neg notP2, mode]
      split at some_
      · omega
      · rename_i inside
        rw [if_neg inside]
        omega
    exact ⟨Nat.le_trans (Nat.mul_le_mul_right K reach) alphas,
      fun isP0 => Nat.le_trans reach (gammas isP0)⟩
  | none | p2Authoritative =>
    by_cases isP2 : s.partyId = .ID2
    · have reach : s.storeOffset + s.storedItems n ≤ s.total := by
        simpa only [storeOffset, storedItems, mode, if_pos isP2] using available
      exact ⟨Nat.le_trans (Nat.mul_le_mul_right K reach) (backed.received isP2),
        fun isP0 => by simp [isP2] at isP0⟩
    · simp [storedItems, if_neg isP2, mode] at some_

/-- A part that the source reaches is filled with the cut of the batch a take gives. -/
theorem fillInto_cut {s' : LazyEdaBits F K} {os : Os} {ws : List Write} (wide : 0 < K)
    (backed : s.Backed) (taken : s.takeBatch c os d n = .ok (b, s', ws))
    (reserved : s.reserveRange n = .ok r) (inside : start + len ≤ n) (positive : 0 < len)
    (reaches : s.Reaches start) :
    (r.rangeView start len).fillInto c d = .ok (b.cut start len) := by
  obtain ⟨available, -, -⟩ := takeBatch_spec taken
  obtain ⟨stored, rest, rfl, part, generated⟩ := takeBatch_parts backed (by omega) taken
  obtain ⟨cursor, seed1, pos1, seed2, pos2, fieldBytes, party⟩ := reserveRange_root reserved
  have sees := seesStored_of_reaches backed reserved inside positive reaches
  have fromCache := fillFromCache_cut sees party (backed.long available) part
  unfold fillInto
  rw [if_neg (Nat.ne_of_gt positive : (r.rangeView start len).len ≠ 0), sees.counted]
  refine bind_ok.mpr ⟨_, rfl, bind_ok.mpr ⟨_, fromCache, ?_⟩⟩
  change (if min (s.storedItems n - start) len < len then _ else _) = _
  rw [append_cut part.sized]
  split
  · rename_i more
    have notP2 : s.partyId ≠ .ID2 := fun isP2 => by
      simp only [storedItems, if_pos isP2] at more
      omega
    have left : 0 < n - s.storedItems n := by omega
    have spaced := spaced_of_generateIntoFromState wide left generated
    rw [if_neg (fun isP2 => notP2 (party.symm.trans isP2) : (r.rangeView start len).partyId ≠ .ID2)]
    have regenerated :=
      @generateIntoFromState_of_spaced F _ K _ s.fieldBytes s.seed1 s.seed2 s.pos1 s.pos2
      c s.partyId
      spaced (s.cursor + start + min (s.storedItems n - start) len)
        (len - min (s.storedItems n - start) len)
    simp only [rangeView, cursor, seed1, pos1, seed2, pos2, fieldBytes, party, regenerated]
    have tail : rest = itemsAt F K c s.seed1 s.pos1 s.seed2 s.pos2 s.fieldBytes s.partyId
        (s.cursor + s.storedItems n) (n - s.storedItems n) := generateIntoFromState_eq generated
    have base : s.cursor + start + min (s.storedItems n - start) len =
        s.cursor + s.storedItems n + (start - s.storedItems n) := by omega
    have count : len - min (s.storedItems n - start) len = len - (s.storedItems n - start) := by
      omega
    rw [tail, itemsAt_cut (by omega), base, count]
    rfl
  · have done : len - (s.storedItems n - start) = 0 := by omega
    rw [done, cut_zero]
    simp [append]
    rfl

/-- A part that the source does not reach is not filled. -/
theorem reaches_of_fillInto (reserved : s.reserveRange n = .ok r) (positive : 0 < len)
    (filled : (r.rangeView start len).fillInto c d = .ok b) : s.Reaches start := by
  unfold LazyEdaBits.reserveRange at reserved
  obtain ⟨_, -, reserved⟩ := bind_ok.mp reserved
  unfold fillInto at filled
  rw [if_neg (Nat.ne_of_gt positive : (r.rangeView start len).len ≠ 0)] at filled
  obtain ⟨k, counted, filled⟩ := bind_ok.mp filled
  obtain ⟨cached, read, filled⟩ := bind_ok.mp filled
  cases mode : s.storageMode with
  | p2Authoritative => simp only [LazyEdaBits.Reaches, mode]
  | none =>
    simp only [mode] at reserved
    cases reserved
    simp only [LazyEdaBits.Reaches, mode]
    intro isP2
    have zero : k = 0 := by
      exact (Except.ok.inj counted).symm
    subst zero
    change (if 0 < len then (if s.partyId = .ID2 then Except.error _ else _) else _) = _ at filled
    rw [if_pos positive, if_pos isP2] at filled
    cases filled
  | p01Precache first width =>
    simp only [mode] at reserved
    cases reserved
    simp only [LazyEdaBits.Reaches, mode]
    rcases Nat.eq_zero_or_pos width with zero | some_
    · exact Or.inl zero
    refine Or.inr ?_
    change (if width = 0 ∨ s.cursor + start < first then Except.ok 0
      else if first + width < s.cursor + start then .error IoError.panicked
      else .ok (min (first + width - (s.cursor + start)) len)) = _ at counted
    split at counted
    · omega
    split at counted
    · cases counted
    cases counted
    refine ⟨by omega, fun early => ?_⟩
    -- a range that begins before the window has no view of its files
    have noView : ¬ 0 < (if s.cursor < first ∨ first + width ≤ s.cursor then 0
        else min (first + width - s.cursor) n) := by
      rw [if_pos (Or.inl early)]
      exact Nat.lt_irrefl 0
    by_contra stuck
    have more : min (first + width - (s.cursor + start)) len ≠ 0 := by omega
    have served := (fillFromCache_served read).alphas (Nat.pos_of_ne_zero more)
    simp only [if_neg noView] at served
    cases served

omit [RawElem F] [RawElem (BitVec K)] [Ring F] in
theorem reserveRange_of_available (available : s.cursor + n ≤ s.total) :
    ∃ r, s.reserveRange n = .ok r := by
  unfold LazyEdaBits.reserveRange LazyEdaBits.ensureAvailable
  rw [if_pos available]
  cases mode : s.storageMode <;> exact ⟨_, rfl⟩

/-- A successful take has the requested number of items in every part of its batch. -/
theorem takeBatch_sized {s' : LazyEdaBits F K} {os : Os} {ws : List Write} (backed : s.Backed)
    (taken : s.takeBatch c os d n = .ok (b, s', ws)) : b.Sized n := by
  rcases Nat.eq_zero_or_pos n with rfl | positive
  · unfold LazyEdaBits.takeBatch at taken
    obtain ⟨_, -, taken⟩ := bind_ok.mp taken
    rw [if_pos rfl] at taken
    cases taken
    simp [Sized]
  · obtain ⟨stored, rest, rfl, part, generated⟩ := takeBatch_parts backed positive taken
    obtain ⟨gammas, alphas⟩ := part.sized
    obtain ⟨gammas', alphas'⟩ :=
      itemsAt_sized (F := F) (K := K) c s.seed1 s.pos1 s.seed2 s.pos2 s.fieldBytes s.partyId
      (s.cursor + s.storedItems n) (n - s.storedItems n)
    rw [← generateIntoFromState_eq generated] at gammas' alphas'
    have le : s.storedItems n ≤ n := by
      unfold storedItems
      split
      · exact Nat.le_refl n
      · split
        · split <;> omega
        · exact Nat.zero_le n
    refine ⟨?_, ?_⟩
    · rw [append, length_append, gammas, gammas', Nat.add_sub_cancel' le]
    · rw [append, length_append, alphas, alphas', ← Nat.add_mul, Nat.add_sub_cancel' le]

end Views

namespace EdaBitsReservation

variable {F : Type} [Ring F] [RawElem F] {K : Nat} [RawElem (BitVec K)]

/-- Consecutive parts of the given lengths, as offset and length. -/
def partsFrom : Nat → List Nat → List (Nat × Nat)
  | _, [] => []
  | start, len :: rest => (start, len) :: partsFrom (start + len) rest

/-- Fill consecutive parts of a reserved range, each through its own view, and put the results in
sequence. -/
def fillParts (r : EdaBitsReservation F K) (c : ChaCha) (d : Disk) (lens : List Nat) :
    Except IoError (EdaBitsBatch F K) := do
  let batches ← (partsFrom 0 lens).mapM fun part => (r.rangeView part.1 part.2).fillInto c d
  return batches.foldr append ⟨[], []⟩

theorem mem_partsFrom {start : Nat} {lens : List Nat} {part : Nat × Nat}
    (member : part ∈ partsFrom start lens) :
    part.1 + part.2 ≤ start + lens.sum := by
  induction lens generalizing start with
  | nil => cases member
  | cons len rest ih =>
    rcases mem_cons.mp member with rfl | later
    · exact Nat.add_le_add_left (Nat.le_add_right _ _) _
    · exact Nat.le_trans (ih later) (Nat.le_of_eq (Nat.add_assoc _ _ _))

omit [Ring F] [RawElem F] [RawElem (BitVec K)] in
/-- The cuts of a batch at consecutive parts are the batch from the first to the last. -/
theorem foldr_cut (b : EdaBitsBatch F K) (start : Nat) (lens : List Nat) :
    ((partsFrom start lens).map fun part => b.cut part.1 part.2).foldr append ⟨[], []⟩ =
      b.cut start lens.sum := by
  induction lens generalizing start with
  | nil => exact (cut_zero b start).symm
  | cons len rest ih =>
    rw [partsFrom, map_cons, foldr_cons, ih]
    exact cut_append_cut b start len rest.sum

end EdaBitsReservation

open EdaBitsReservation LazyEdaBits in
/-- Filling the parts of a reserved range gives the batch of a take of the whole range exactly when
the source reaches the beginning of every nonempty part. -/
theorem fillParts_eq_takeBatch_iff {F : Type} [Ring F] [RawElem F] {K : Nat} [RawElem (BitVec K)]
    {s s' : LazyEdaBits F K} {c : ChaCha} {os : Os} {d : Disk} {n : Nat} {b : EdaBitsBatch F K}
    {ws : List Write} (wide : 0 < K) (backed : s.Backed)
    (taken : s.takeBatch c os d n = .ok (b, s', ws)) (lens : List Nat) (partition : lens.sum = n) :
    (∃ r, s.reserveRange n = .ok r ∧ r.fillParts c d lens = .ok b) ↔
      ∀ part ∈ partsFrom 0 lens, 0 < part.2 → s.Reaches part.1 := by
  constructor
  · rintro ⟨r, reserved, filled⟩ part member positive
    obtain ⟨batches, all, -⟩ := bind_ok.mp filled
    obtain ⟨one, done⟩ := mapM_isOk_iff.mp ⟨batches, all⟩ part member
    exact reaches_of_fillInto reserved positive done
  · intro reaches
    obtain ⟨available, -, -⟩ := takeBatch_spec taken
    obtain ⟨r, reserved⟩ := reserveRange_of_available available
    refine ⟨r, reserved, ?_⟩
    have each : ∀ part ∈ partsFrom 0 lens, (r.rangeView part.1 part.2).fillInto c d =
        .ok (b.cut part.1 part.2) := by
      intro part member
      have inside := mem_partsFrom member
      rw [Nat.zero_add, partition] at inside
      rcases Nat.eq_zero_or_pos part.2 with zero | positive
      · rw [zero, cut_zero]
        rfl
      · exact fillInto_cut wide backed taken reserved inside positive (reaches part member positive)
    obtain ⟨batches, all⟩ := mapM_isOk_iff.mpr fun part member => ⟨_, each part member⟩
    have cuts :=
      mapM_ok (fun part member y done => Except.ok.inj (done.symm.trans (each part member))) all
    refine bind_ok.mpr ⟨batches, all, ?_⟩
    rw [cuts, foldr_cut, partition, cut_all (takeBatch_sized backed taken)]
    rfl

/-! ## Every source is backed -/

section Backed

open LazyEdaBits

variable {F : Type} [Ring F] [RawElem F] {K : Nat} [RawElem (BitVec K)]
variable {s : LazyEdaBits F K} {d d' : Disk} {s' : LazyEdaBits F K}

omit [Ring F] [RawElem F] [RawElem (BitVec K)] in
/-- The cursor and the metadata path play no part. -/
theorem LazyEdaBits.Backed.moved (backed : s.Backed)
    (same : s' = { s with cursor := s'.cursor, metaPath := s'.metaPath }) : s'.Backed := by
  rw [same]
  exact ⟨backed.window, backed.role, backed.received, backed.apart⟩

omit [Ring F] [RawElem F] [RawElem (BitVec K)] in
/-- A source of P0 or P1 without a window. -/
theorem backed_of_none (notP2 : s.partyId ≠ .ID2) (mode : s.storageMode = .none)
    (gammas : s.gammaStore = .empty) :
    s.Backed := by
  refine ⟨fun start len window => ?_, fun received => ?_, fun isP2 => absurd isP2 notP2,
    fun path _ => ?_⟩
  · rw [mode] at window
    cases window
  · rw [mode] at received
    cases received
  · rw [gammas]
    simp [storePath]

omit [Ring F] [RawElem F] in
/-- The sources that preprocessing makes, at each party and for each type. -/
theorem preprocessSource_backed (c : ChaCha) (fb : Nat) (dir : String) (counts : RingType → Nat)
    (r : Rep3Rand) (p : PartyID) (t : RingType) :
    (preprocessSource c fb dir counts r p t : LazyEdaBits F t.width).Backed := by
  unfold preprocessSource
  split
  · rename_i isP2
    exact ⟨fun _ _ window => (by cases window), fun _ => isP2, fun _ => Nat.le_refl _,
      fun _ _ => (by simp [newWithStore, storePath])⟩
  · rename_i notP2
    exact backed_of_none notP2 (if_neg notP2) rfl

omit [Ring F] [RawElem F] [RawElem (BitVec K)] in
theorem LazyEdaBits.Backed.clear (backed : s.Backed) (d : Disk) (dir : String) :
    (s.clearPrecacheFiles d dir).1.Backed := by
  unfold clearPrecacheFiles
  split
  · exact backed
  · rename_i notP2
    refine backed_of_none ?_ ?_ ?_ <;> simp [clearPrecacheRuntime, notP2]

theorem LazyEdaBits.Backed.prepare {c : ChaCha} {dir : String} {requested : Nat} (backed : s.Backed)
    (h : s.preparePrecache c d dir requested = .ok (s', d')) : s'.Backed := by
  rcases preparePrecache_spec h with cleared | ⟨rfl, -⟩ | ⟨notP2, -, ⟨gammas, rfl, rfl⟩, -⟩
  · have after := backed.clear d dir
    rw [← cleared] at after
    exact after
  · exact backed
  · refine ⟨fun start len window => ?_, fun received => ?_, fun isP2 => absurd isP2 notP2,
      fun path own => ?_⟩
    · cases window
      exact ⟨notP2, Nat.le_refl _, fun isP0 => by simp only [if_pos isP0]; exact Nat.le_refl _⟩
    · cases received
    · cases own
      split <;> simp [storePath, precacheAlphaPath, precacheGammaPath]

theorem storePath_of_loadFromFile {α : Type} [RawElem α] {path q : Path} {store : BackingStore α}
    (h : loadFromFile α d path = .ok store) (own : storePath store = some q) : q = path := by
  unfold loadFromFile at h
  split at h
  · split at h
    · cases h
      cases own
    split at h
    · cases h
    · cases h
      cases own
      rfl
  · cases h

omit [Ring F] in
/-- A loaded source is backed, whichever files the directory has. -/
theorem backed_of_load {dir : String} {p : PartyID}
    (h : LazyEdaBits.load F K d dir p = .ok (s, d')) : s.Backed := by
  simp only [LazyEdaBits.load, bind_ok] at h
  obtain ⟨m, -, _, -, ⟨store, mode⟩, stored, loaded⟩ := h
  unfold loadStore at stored
  by_cases isP2 : p = .ID2
  · simp only [loadPrecache, if_pos isP2] at loaded
    cases loaded
    split at stored
    · obtain ⟨_, -, checked⟩ := bind_ok.mp stored
      split at checked
      · cases checked
      · rename_i long
        cases checked
        exact ⟨fun _ _ window => (by cases window), fun _ => isP2, fun _ => Nat.not_lt.mp long,
          fun path _ => (by simp [storePath])⟩
    · rename_i nothing
      cases stored
      have zero : m.total = 0 := by simpa [isP2] using nothing
      exact ⟨fun _ _ window => (by cases window), fun received => (by cases received),
        fun _ => (by simp [zero]), fun path _ => (by simp [storePath])⟩
  · rw [if_neg fun both => isP2 both.1] at stored
    cases stored
    rcases LazyEdaBits.loadPrecache_cases isP2 loaded with ⟨-, rfl, -⟩ | ⟨a, cleared⟩ |
      ⟨pm, alphas, gammas, -, -, loadedAlpha, longAlpha, loadedGamma, noGamma, rfl, -⟩
    · exact backed_of_none isP2 rfl rfl
    · have source := congrArg Prod.fst cleared
      dsimp only at source
      rw [source]
      exact (backed_of_none isP2 rfl rfl).clear d dir
    · refine ⟨fun start len window => ?_, fun received => (by cases received),
        fun yes => absurd yes isP2, fun path own clash => ?_⟩
      · cases window
        exact ⟨isP2, longAlpha, fun isP0 => (loadedGamma isP0).2⟩
      · by_cases isP0 : p = .ID0
        · have alpha := storePath_of_loadFromFile loadedAlpha own
          have gamma := storePath_of_loadFromFile (loadedGamma isP0).1 clash
          rw [alpha] at gamma
          simp [precacheAlphaPath, precacheGammaPath] at gamma
        · rw [noGamma isP0] at clash
          cases clash

omit [Ring F] in
theorem extendStore_shape {store store' : BackingStore F} {additional : List F}
    (h : extendStore store d additional = .ok (store', d')) :
    store'.len = store.len + additional.length ∧ storePath store' = storePath store := by
  unfold extendStore at h
  split at h
  · rename_i nothing
    cases h
    simp [List.isEmpty_iff.mp nothing]
  cases store with
  | inMemory | empty =>
    cases h
    simp [BackingStore.len, storePath]
  | fileBacked path len append =>
    dsimp only at h
    split at h
    · cases h
      exact ⟨rfl, rfl⟩
    · cases h

omit [Ring F] [RawElem (BitVec K)] in
/-- P2 stays backed when it receives the full material of the deficit. -/
theorem LazyEdaBits.Backed.extend {deficit : Nat} {alpha2Ext : List F} (backed : s.Backed)
    (full : s.partyId = .ID2 → alpha2Ext.length = deficit * K)
    (h : s.applyExtension d deficit alpha2Ext = .ok (s', d')) : s'.Backed := by
  unfold applyExtension at h
  split at h
  · cases h
    exact backed
  obtain ⟨⟨store, disk⟩, extended, h⟩ := bind_ok.mp h
  obtain ⟨length, path⟩ := extendStore_shape extended
  dsimp only at h
  split at h
  · rename_i notP2
    have cleared := congrArg Prod.fst (Except.ok.inj h)
    dsimp only at cleared
    rw [← cleared]
    unfold clearPrecacheFilesIfPresent
    split
    · refine backed_of_none ?_ ?_ ?_ <;> simp [clearPrecacheFiles, clearPrecacheRuntime, notP2]
    · refine backed_of_none ?_ ?_ ?_ <;> simp [clearPrecacheRuntime, notP2]
  · rename_i notOther
    have isP2 := not_not.mp notOther
    cases h
    refine ⟨fun start len window => absurd isP2 (backed.window start len window).1, backed.role,
      fun _ => ?_, fun q own => backed.apart q (path ▸ own)⟩
    rw [length, full isP2, Nat.add_mul]
    exact Nat.add_le_add_right (backed.received isP2) _

namespace PrecacheSys

/-- An extension brings P2 `K` elements for every new item. -/
def FullExtension (s : PrecacheSys F K) : PrecacheOp F → Prop
  | .extend deficit alpha2Ext => s.src.partyId = .ID2 → alpha2Ext.length = deficit * K
  | _ => True

/-- Every operation keeps the source backed. -/
theorem step_backed {c : ChaCha} {s s' : PrecacheSys F K} {op : PrecacheOp F}
    (full : s.FullExtension op) (backed : s.src.Backed) (h : s.step c op = .ok s') :
    s'.src.Backed := by
  cases op with
  | prepare dir requested =>
    obtain ⟨⟨src, disk⟩, prepared, last⟩ := bind_ok.mp h
    cases last
    exact backed.prepare prepared
  | take os n =>
    obtain ⟨⟨b, src, writes⟩, taken, last⟩ := bind_ok.mp h
    cases last
    obtain ⟨-, rfl, -⟩ := takeBatch_spec taken
    exact backed.moved rfl
  | reserve n =>
    obtain ⟨r, -, last⟩ := bind_ok.mp h
    cases last
    exact backed
  | finalize os i =>
    simp only [step] at h
    split at h
    · cases h
    · cases h
      exact backed.moved rfl
  | extend deficit alpha2Ext =>
    obtain ⟨⟨src, disk⟩, extended, last⟩ := bind_ok.mp h
    cases last
    exact backed.extend full extended
  | save dir =>
    obtain ⟨⟨src, disk⟩, saved, last⟩ := bind_ok.mp h
    cases last
    obtain ⟨rfl, -⟩ := save_ok saved
    exact backed.moved rfl
  | load dir dropRuns =>
    obtain ⟨⟨src, disk⟩, loaded, last⟩ := bind_ok.mp h
    cases last
    exact backed_of_load loaded

/-- A run whose extensions are full keeps the source backed. -/
theorem run_backed {c : ChaCha} {s s' : PrecacheSys F K} {ops : List (PrecacheOp F)}
    (full : AllSteps (step c) FullExtension s ops) (backed : s.src.Backed)
    (h : run (step c) s ops = .ok s') : s'.src.Backed :=
  run_invariant (fun _ _ _ good before stepped => step_backed good before stepped) full backed h

end PrecacheSys

end Backed

namespace PrecacheSys

theorem fourItems_backed : fourItems.src.Backed := backed_of_none (by decide) rfl rfl

def withWindow (requested : Nat) : Except IoError (PrecacheSys (ZMod 251) 8) :=
  run (step countingRng) fourItems [.prepare "pool" requested]

/-- Three items, of which the window holds two, in parts that begin at the cursor and at the end of
the window. -/
theorem fillParts_eq_takeBatch_of_window : ∃ s b src ws r, withWindow 2 = .ok s ∧
    s.src.takeBatch countingRng (fun _ => .punchHole) s.disk 3 = .ok (b, src, ws) ∧
    s.src.reserveRange 3 = .ok r ∧ r.fillParts countingRng s.disk [2, 1] = .ok b := by
  have ready : (withWindow 2).toOption.map (fun s => (s.src.storageMode, s.src.cursor,
      (s.src.takeBatch countingRng (fun _ => .punchHole) s.disk 3).isOk)) =
        some (.p01Precache 0 2, 0, true) := by
    decide +kernel
  cases prepared : withWindow 2 with
  | error e =>
    rw [prepared] at ready
    cases ready
  | ok s =>
    rw [prepared] at ready
    simp only [Except.toOption, Option.map_some, Option.some.injEq, Prod.mk.injEq] at ready
    obtain ⟨mode, cursor, took⟩ := ready
    obtain ⟨⟨b, src, ws⟩, taken⟩ := exists_ok_of_isOk took
    have full : AllSteps (step countingRng) FullExtension fourItems [.prepare "pool" 2] :=
      ⟨trivial, fun _ _ => trivial⟩
    have backed : s.src.Backed := run_backed full fourItems_backed prepared
    have reaches : ∀ part ∈ EdaBitsReservation.partsFrom 0 [2, 1], 0 < part.2 →
        s.src.Reaches part.1 := by
      simp only [LazyEdaBits.Reaches, mode, cursor]
      decide
    obtain ⟨r, reserved, filled⟩ :=
      (fillParts_eq_takeBatch_iff (by decide) backed taken [2, 1] rfl).mpr reaches
    exact ⟨s, b, src, ws, r, rfl, taken, reserved, filled⟩

/-- With a window of one item the second part begins beyond its end, and the number of its items
that the window holds is computed below zero. The take succeeds. -/
theorem fillParts_beyond_window :
    (withWindow 1).toOption.map (fun s =>
      ((s.src.takeBatch countingRng (fun _ => .punchHole) s.disk 3).isOk,
      s.src.reserveRange 3 >>= fun r => r.fillParts countingRng s.disk [2, 1])) =
        some (true, .error .panicked) := by
  decide +kernel

end PrecacheSys

end ProviaVM.Preprocessing
