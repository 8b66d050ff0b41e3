import ProviaVM.Lib.ByteFile
import ProviaVM.Lib.Run
import Mathlib.Data.ZMod.Basic
import ProviaVM.Lib.Numerals

/-! # Persistent state of the preprocessing material

`mpc-core/src/preprocessing/backing_store.rs`: the files a party keeps, the
metadata record of a lazy source, and the dual-mode container `BackingStore`.
The model is the production build (feature `reuse-preproc` off), in which consumed
elements are reclaimed and the cursor is written back.

A file is named by its directory and a `FileName`. Data files are byte lists;
the fixed-layout metadata files are kept as records. Reclaiming a consumed range
and updating a cursor are the durable writes of consumption: they are returned
as a list of `Write`s, so that a crash between any two of them can be described. -/
namespace ProviaVM.Preprocessing
open ByteFile

/-- `RingElement<u8>` in memory. -/
instance : RawElem (BitVec 8) where
  size := 1
  size_pos := Nat.one_pos
  toBytes x := [UInt8.ofBitVec x]
  ofBytes b := (b.headD 0).toBitVec
  length_toBytes _ := rfl
  ofBytes_toBytes _ := rfl

/-- A prime field whose elements fit one byte, on which the model is evaluated. -/
instance : RawElem (ZMod 251) where
  size := 1
  size_pos := Nat.one_pos
  toBytes x := [UInt8.ofNat x.val]
  ofBytes b := ((b.headD 0).toNat : ZMod 251)
  length_toBytes _ := rfl
  ofBytes_toBytes x := by
    have small : x.val < 256 := Nat.lt_trans (ZMod.val_lt x) (by decide)
    have byte : (UInt8.ofNat x.val).toNat = x.val := by
      rw [UInt8.toNat_ofNat', Nat.mod_eq_of_lt small]
    simp [byte]

inductive PartyID where
  | ID0 | ID1 | ID2
  deriving DecidableEq, Repr

def partyIdToByte : PartyID → UInt8
  | .ID0 => 0
  | .ID1 => 1
  | .ID2 => 2

/-- The file names the sources use inside a pool directory; `k` is the ring width `T::K`. -/
inductive FileName where
  | edabitsMeta (k : Nat)
  | edabitsAlpha2 (k : Nat)
  | edabitsPrecacheAlpha (k : Nat)
  | edabitsPrecacheGamma (k : Nat)
  | edabitsPrecacheMeta (k : Nat)
  | ringEdabitsMeta (k : Nat)
  | ringEdabitsAlpha2 (k : Nat)
  | dabitsMeta
  | dabitsStored
  | randOhvMeta
  | randOhvRA
  | randOhvRB
  | randOhvEA
  | randOhvEB
  | wrapMasksMeta
  | wrapMasksData
  | dapointsMeta
  | dapointsData
  deriving DecidableEq, Repr

structure Path where
  dir : String
  name : FileName
  deriving DecidableEq, Repr

abbrev Seed := List UInt8

structure MetaData where
  seed1 : Seed
  pos1 : Nat
  seed2 : Seed
  pos2 : Nat
  total : Nat
  partyIdByte : UInt8
  cursor : Nat
  fieldBytes : Nat
  deriving DecidableEq, Repr

/-- `EdaBitsPrecacheMeta`, the header of a P0/P1 precache. -/
structure EdaBitsPrecacheMeta where
  seed1 : Seed
  pos1 : Nat
  seed2 : Seed
  pos2 : Nat
  fieldBytes : Nat
  total : Nat
  startCursor : Nat
  len : Nat
  partyIdByte : UInt8
  deriving DecidableEq, Repr

inductive Content where
  | data (bytes : List UInt8)
  | header (m : MetaData)
  | precacheMeta (m : EdaBitsPrecacheMeta)
  deriving DecidableEq, Repr

/-- What is on disk: the content of every existing file. -/
abbrev Disk := Path → Option Content

/-- Failures of the storage layer, with the values their messages report. -/
inductive IoError where
  | notFound (path : Path)
  | invalidRange (start stop : Nat)
  | rangeExceedsLen (stop len : Nat)
  | sliceLength (have_ count : Nat)
  | unexpectedEof
  | notMultipleOfElement (fileLen elemSize : Nat)
  | rawPayload (byteLen elemSize : Nat)
  | writeExceedsLen (stop len : Nat)
  | emptyWithOffset (start : Nat)
  | alphaStoreTooShort (have_ need total : Nat)
  | precacheRequest (requested remaining cursor total : Nat)
  | missingView
  | p2CoverageMissing (start stop : Nat)
  | need (n have_ cursor total : Nat)
  | frameSizeMismatch
  | lengthMismatch (left right : Nat)
  | panicked
  deriving DecidableEq, Repr

/-- One durable write of the consumption path: a range of a data file reads as zero, or the cursor
field of a metadata file has a new value. -/
inductive Write where
  | zero (path : Path) (off len : Nat)
  | cursor (path : Path) (value : Nat)
  deriving DecidableEq, Repr

namespace Disk

def set (d : Disk) (p : Path) (c : Content) : Disk := Function.update d p (some c)

def remove (d : Disk) (p : Path) : Disk := Function.update d p none

variable {d : Disk} {p q : Path}

@[simp] theorem set_same (d : Disk) (p : Path) (c : Content) : d.set p c p = some c := by
  simp [set]

theorem set_ne (c : Content) (h : q ≠ p) : d.set p c q = d q := by
  simp [set, h]

@[simp] theorem remove_same (d : Disk) (p : Path) : d.remove p p = none := by
  simp [remove]

theorem remove_ne (h : q ≠ p) : d.remove p q = d q := by
  simp [remove, h]

/-- `update_cursor` changes the cursor of an existing metadata file; its failure on a
missing file is ignored by every caller. -/
def updateCursor (d : Disk) (p : Path) (value : Nat) : Disk :=
  match d p with
  | some (.header m) => d.set p (.header { m with cursor := value })
  | _ => d

def zeroBytes (d : Disk) (p : Path) (off len : Nat) : Disk :=
  match d p with
  | some (.data b) => d.set p (.data (zeroRange off len b))
  | _ => d

def apply (d : Disk) : Write → Disk
  | .zero p off len => d.zeroBytes p off len
  | .cursor p value => d.updateCursor p value

def applyAll (d : Disk) (log : List Write) : Disk := Run.applyAll Disk.apply d log

@[simp] theorem applyAll_nil (d : Disk) : d.applyAll [] = d := rfl

@[simp] theorem applyAll_append (d : Disk) (xs ys : List Write) :
    d.applyAll (xs ++ ys) = (d.applyAll xs).applyAll ys := Run.applyAll_append _ _ _ _

@[simp] theorem applyAll_singleton (d : Disk) (w : Write) : d.applyAll [w] = d.apply w := rfl

theorem updateCursor_ne (value : Nat) (h : q ≠ p) : d.updateCursor p value q = d q := by
  unfold updateCursor
  cases d p with
  | none => rfl
  | some c =>
    cases c with
    | header m => exact set_ne _ h
    | data b => rfl
    | precacheMeta m => rfl

theorem updateCursor_same {m : MetaData} (value : Nat) (h : d p = some (.header m)) :
    d.updateCursor p value p = some (.header { m with cursor := value }) := by
  simp [updateCursor, h]

theorem zeroBytes_ne (off len : Nat) (h : q ≠ p) : d.zeroBytes p off len q = d q := by
  unfold zeroBytes
  cases d p with
  | none => rfl
  | some c =>
    cases c with
    | data b => exact set_ne _ h
    | header m => rfl
    | precacheMeta m => rfl

theorem zeroBytes_same {b : List UInt8} (off len : Nat) (h : d p = some (.data b)) :
    d.zeroBytes p off len p = some (.data (zeroRange off len b)) := by
  simp [zeroBytes, h]

/-- Zeroing never touches a metadata record. -/
theorem zeroBytes_meta {off len : Nat} {m : MetaData} :
    d.zeroBytes p off len q = some (.header m) ↔ d q = some (.header m) := by
  rcases eq_or_ne q p with rfl | h
  · unfold zeroBytes
    cases hq : d q with
    | none => simp [hq]
    | some c => cases c <;> simp [hq]
  · rw [zeroBytes_ne off len h]

end Disk

def writeMeta (d : Disk) (p : Path) (m : MetaData) : Disk := d.set p (.header m)

def readMeta (d : Disk) (p : Path) : Except IoError MetaData :=
  match d p with
  | some (.header m) => .ok m
  | _ => .error (.notFound p)

theorem readMeta_ok {d : Disk} {p : Path} {m : MetaData} :
    readMeta d p = .ok m ↔ d p = some (.header m) := by
  unfold readMeta
  split
  · rename_i m' h
    simp [h]
  · rename_i h
    constructor
    · intro bad
      cases bad
    · intro found
      exact absurd found (h m)

theorem readMeta_unique {d : Disk} {p : Path} {m m' : MetaData} (found : d p = some (.header m))
    (h : readMeta d p = .ok m') : m = m' := by
  have same := found.symm.trans (readMeta_ok.mp h)
  simpa using same

/-- The `assert_eq!` on the party byte that every `load` makes. -/
def assertParty (m : MetaData) (partyId : PartyID) : Except IoError Unit :=
  if m.partyIdByte = partyIdToByte partyId then .ok () else .error .panicked

/-- The `persist_cursor` of every lazy source: a durable write when the source has a
metadata file, nothing otherwise. -/
def persistTo (metaPath : Option Path) (cursor : Nat) : List Write :=
  match metaPath with
  | some path => [.cursor path cursor]
  | none => []

/-- The answer to a reclaim request: the hole punch succeeds, or it fails and the zero-filling
fallback writes some number of its chunks before an error, or all of them. -/
inductive Reclaim where
  | punchHole
  | zeroFill (chunksWritten : Nat)
  deriving DecidableEq, Repr

/-- The answers for the files one operation consumes. -/
abbrev Os := Path → Reclaim

inductive BackingStore (α : Type) where
  | inMemory (v : List α)
  | fileBacked (path : Path) (len : Nat) (appendOffset : Nat)
  | empty
  deriving DecidableEq, Repr

/-- `unwrap_or_else(|e| panic!(..))`, and every slice or assertion that panics. -/
def unwrapOrPanic {α : Type} : Except IoError α → Except IoError α
  | .ok x => .ok x
  | .error _ => .error .panicked

theorem unwrapOrPanic_ok {α : Type} {x : Except IoError α} {a : α} :
    unwrapOrPanic x = .ok a ↔ x = .ok a := by
  cases x <;> simp [unwrapOrPanic]

/-- The zero buffer of the reclaim fallback has 64 KiB. -/
def zeroBufLen : Nat := 64 * 1024

/-- The fallback loop of `consume`: fixed-size chunks until nothing remains. -/
def zeroChunks (path : Path) (cur remaining : Nat) : List Write :=
  if _h : 0 < remaining then
    .zero path cur (min remaining zeroBufLen) ::
      zeroChunks path (cur + min remaining zeroBufLen) (remaining - min remaining zeroBufLen)
  else []
termination_by remaining
decreasing_by simp only [zeroBufLen]; omega

/-- Every chunk of the fallback lies in the range it was asked to zero. -/
theorem mem_zeroChunks {path : Path} {cur remaining : Nat} {w : Write}
    (member : w ∈ zeroChunks path cur remaining) :
    ∃ off len, w = .zero path off len ∧ cur ≤ off ∧ off + len ≤ cur + remaining := by
  induction cur, remaining using zeroChunks.induct with
  | case1 cur remaining more ih =>
    rw [zeroChunks, dif_pos more] at member
    rcases List.mem_cons.mp member with rfl | later
    · exact ⟨_, _, rfl, Nat.le_refl _, by omega⟩
    · obtain ⟨off, len, rfl, low, high⟩ := ih later
      exact ⟨off, len, rfl, by omega, by omega⟩
  | case2 cur remaining done =>
    rw [zeroChunks, dif_neg done] at member
    cases member

namespace BackingStore

variable {α : Type}

def len : BackingStore α → Nat
  | .inMemory v => v.length
  | .fileBacked _ len _ => len
  | .empty => 0

def isEmpty (s : BackingStore α) : Bool := s.len == 0

def validateRange (s : BackingStore α) (start stop : Nat) : Except IoError Unit :=
  if stop < start then .error (.invalidRange start stop)
  else if s.len < stop then .error (.rangeExceedsLen stop s.len)
  else .ok ()

def fromVec (v : List α) : BackingStore α := if v.isEmpty then .empty else .inMemory v

variable [RawElem α]

open RawElem

/-- `file_read_exact_at` followed by the reinterpretation of the bytes as elements. An empty
buffer is filled without a look at the file. -/
def readFile (d : Disk) (path : Path) (start stop : Nat) : Except IoError (List α) :=
  if stop - start = 0 then .ok []
  else match d path with
  | some (.data b) =>
    match readExact (start * size α) ((stop - start) * size α) b with
    | some _ => .ok (elems b start (stop - start))
    | none => .error .unexpectedEof
  | _ => .error (.notFound path)

/-- `read_consume`. An `Empty` store returns no elements whatever the range is. -/
def readConsume (s : BackingStore α) (d : Disk) (start stop : Nat) : Except IoError (List α) :=
  match s with
  | .inMemory v => do
    s.validateRange start stop
    .ok ((v.drop start).take (stop - start))
  | .fileBacked path _ _ => do
    s.validateRange start stop
    if stop - start = 0 then .ok [] else readFile d path start stop
  | .empty => .ok []

/-- `read_consume_into_slice` for a slice of `outLen` elements. The file-backed case has no range
check of its own; `end
- start` underflows for a reversed range. -/
def readConsumeIntoSlice (s : BackingStore α) (d : Disk) (start stop outLen : Nat) :
    Except IoError (List α) :=
  if outLen ≠ stop - start then .error (.sliceLength outLen (stop - start))
  else match s with
    | .inMemory v => do
      s.validateRange start stop
      .ok ((v.drop start).take (stop - start))
    | .fileBacked path _ _ => if stop < start then .error .panicked else readFile d path start stop
    | .empty => if outLen ≠ 0 then .error .unexpectedEof else .ok []

/-- `BackingStoreReadView::read_into_slice` for an output slice of `outLen` elements. -/
def readIntoSlice (s : BackingStore α) (d : Disk) (start stop outLen : Nat) :
    Except IoError (List α) :=
  if outLen ≠ stop - start then .error (.sliceLength outLen (stop - start))
  else match s with
    | .inMemory v => do
      s.validateRange start stop
      .ok ((v.drop start).take (stop - start))
    | .fileBacked path _ _ => do
      s.validateRange start stop
      readFile d path start stop
    | .empty => if outLen ≠ 0 then .error .unexpectedEof else .ok []

/-- `create_file_backed_sized`: truncate, then reserve the capacity. -/
def createFileBackedSized (α : Type) [RawElem α] (d : Disk) (path : Path) (capacity : Nat) :
    BackingStore α × Disk :=
  (.fileBacked path capacity 0, d.set path (.data (setLen (capacity * size α) [])))

def saveToFile (s : BackingStore α) (d : Disk) (path : Path) : Except IoError Disk :=
  match s with
  | .inMemory v => .ok (d.set path (.data (bytesOf v)))
  | .fileBacked src _ _ =>
    if src = path then .ok d
    else match d src with
      | some c => .ok (d.set path c)
      | none => .error (.notFound src)
  | .empty => .ok d

def loadFromFile (α : Type) [RawElem α] (d : Disk) (path : Path) :
    Except IoError (BackingStore α) :=
  match d path with
  | some (.data b) =>
    if b.length = 0 then .ok .empty
    else if b.length % size α ≠ 0 then .error (.notMultipleOfElement b.length (size α))
    else .ok (.fileBacked path (b.length / size α) b.length)
  | _ => .error (.notFound path)

/-- `consume` as the durable writes it performs; nothing for in-memory and empty stores,
for an invalid range and for an empty one. -/
def consume (s : BackingStore α) (os : Os) (start stop : Nat) : List Write :=
  match s with
  | .fileBacked path len _ =>
    if stop < start ∨ len < stop then []
    else if (stop - start) * size α = 0 then []
    else match os path with
      | .punchHole => [.zero path (start * size α) ((stop - start) * size α)]
      | .zeroFill written =>
          (zeroChunks path (start * size α) ((stop - start) * size α)).take written
  | _ => []

/-- Every write of `consume` zeroes bytes of the store's own file inside the range. -/
theorem mem_consume {s : BackingStore α} {os : Os} {start stop : Nat} {w : Write}
    (member : w ∈ s.consume os start stop) :
    ∃ path len append off n, s = .fileBacked path len append ∧ w = .zero path off n ∧
      start ≤ stop ∧ stop ≤ len ∧ start * size α ≤ off ∧ off + n ≤ stop * size α := by
  unfold consume at member
  cases s with
  | inMemory v => cases member
  | empty => cases member
  | fileBacked path len append =>
    dsimp only at member
    split at member
    · cases member
    have le : start ≤ stop := by omega
    have span : start * size α + (stop - start) * size α = stop * size α := by
      rw [← Nat.add_mul, Nat.add_sub_cancel' le]
    split at member
    · cases member
    split at member
    · rw [List.mem_singleton] at member
      exact ⟨path, len, append, _, _, rfl, member, le, by omega, Nat.le_refl _, by omega⟩
    · obtain ⟨off, n, rfl, low, high⟩ := mem_zeroChunks (List.mem_of_mem_take member)
      exact ⟨path, len, append, off, n, rfl, rfl, le, by omega, low, by omega⟩

end BackingStore

end ProviaVM.Preprocessing
