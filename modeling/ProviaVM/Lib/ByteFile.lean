import Mathlib.Data.List.Basic
import Mathlib.Tactic.Ring

/-! # Byte files holding fixed-size elements

A file is the list of its bytes. The operations are the ones a program performs
on an open file: overwriting a range, zeroing a range in place, changing the
length, and reading an exact range. Elements of a type with a fixed raw size are
addressed by index; every lemma says which element indices an operation can
change. -/
namespace ByteFile
open List

/-- A type whose values are stored as a fixed number of raw bytes. -/
class RawElem (α : Type) where
  size : Nat
  size_pos : 0 < size
  toBytes : α → List UInt8
  ofBytes : List UInt8 → α
  length_toBytes : ∀ x, (toBytes x).length = size
  ofBytes_toBytes : ∀ x, ofBytes (toBytes x) = x

attribute [simp] RawElem.length_toBytes RawElem.ofBytes_toBytes

/-- A byte is stored as itself. -/
instance : RawElem UInt8 where
  size := 1
  size_pos := Nat.one_pos
  toBytes x := [x]
  ofBytes b := b.headD 0
  length_toBytes _ := rfl
  ofBytes_toBytes _ := rfl

/-- Zero the bytes `off .. off + len` without changing the file's length. -/
def zeroRange (off len : Nat) (b : List UInt8) : List UInt8 :=
  b.mapIdx fun i x => if off ≤ i ∧ i < off + len then 0 else x

/-- Overwrite at `off`, growing the file (with a zero gap) when it is too short. -/
def writeAt (off : Nat) (data b : List UInt8) : List UInt8 :=
  (b ++ List.replicate (off - b.length) 0).take off ++ data ++ b.drop (off + data.length)

def setLen (n : Nat) (b : List UInt8) : List UInt8 :=
  b.take n ++ List.replicate (n - b.length) 0

/-- The bytes `off .. off + n`, cut at the end of the file. -/
def slice (off n : Nat) (b : List UInt8) : List UInt8 := (b.drop off).take n

/-- A read that must fill its whole buffer. -/
def readExact (off n : Nat) (b : List UInt8) : Option (List UInt8) :=
  if off + n ≤ b.length then some (slice off n b) else none

variable {off : Nat} {data b : List UInt8} {n s : Nat}

@[simp] theorem length_zeroRange (off len : Nat) (b : List UInt8) :
    (zeroRange off len b).length = b.length := by
  simp [zeroRange]

theorem length_writeAt (fits : off + data.length ≤ b.length) :
    (writeAt off data b).length = b.length := by
  simp only [writeAt, length_append, length_take, length_drop]
  omega

theorem length_writeAt_end (atEnd : off = b.length) :
    (writeAt off data b).length = b.length + data.length := by
  simp only [writeAt, length_append, length_take, length_drop]
  omega

@[simp] theorem length_setLen (n : Nat) (b : List UInt8) : (setLen n b).length = n := by
  simp only [setLen, length_append, length_take, length_replicate]
  omega

theorem getElem?_zeroRange (off len i : Nat) (b : List UInt8) :
    (zeroRange off len b)[i]? = if off ≤ i ∧ i < off + len then b[i]?.map fun _ => 0
      else b[i]? := by
  simp only [zeroRange, getElem?_mapIdx]
  split <;> simp_all

theorem getElem?_writeAt (h : off ≤ b.length) (i : Nat) : (writeAt off data b)[i]? =
      if off ≤ i ∧ i < off + data.length then data[i - off]? else b[i]? := by
  have padding : off - b.length = 0 := by omega
  simp only [writeAt, padding, replicate_zero, append_nil, append_assoc]
  rcases Nat.lt_or_ge i off with before | after
  · rw [if_neg (by omega), getElem?_append_left (by simp; omega), getElem?_take_of_lt before]
  · rw [getElem?_append_right (by simp; omega)]
    simp only [length_take, Nat.min_eq_left h]
    rcases Nat.lt_or_ge i (off + data.length) with inside | beyond
    · rw [if_pos ⟨after, inside⟩, getElem?_append_left (by omega)]
    · rw [if_neg (by omega), getElem?_append_right (by omega), getElem?_drop]
      congr 1
      omega

theorem getElem?_setLen_of_lt {i : Nat} (hn : i < n) (hb : i < b.length) :
    (setLen n b)[i]? = b[i]? := by
  rw [setLen, getElem?_append_left (by simp; omega), getElem?_take_of_lt hn]

theorem getElem?_slice (off n i : Nat) (b : List UInt8) :
    (slice off n b)[i]? = if i < n then b[off + i]? else none := by
  simp only [slice, getElem?_take, getElem?_drop]

/-- Two files with the same bytes in a range have the same slice there. -/
theorem slice_congr {d : List UInt8} (same : ∀ i, off ≤ i → i < off + n → b[i]? = d[i]?) :
    slice off n b = slice off n d := by
  apply ext_getElem?
  intro i
  rw [getElem?_slice, getElem?_slice]
  split
  · exact same _ (by omega) (by omega)
  · rfl

theorem slice_zeroRange_of_disjoint {len : Nat} (outside : s + n ≤ off ∨ off + len ≤ s) :
    slice s n (zeroRange off len b) = slice s n b := by
  apply slice_congr
  intro i low high
  rw [getElem?_zeroRange, if_neg (by omega)]

theorem slice_writeAt_of_disjoint (h : off ≤ b.length)
    (outside : s + n ≤ off ∨ off + data.length ≤ s) :
    slice s n (writeAt off data b) = slice s n b := by
  apply slice_congr
  intro i low high
  rw [getElem?_writeAt h, if_neg (by omega)]

theorem slice_writeAt_inside (h : off ≤ b.length) (inside : s + n ≤ data.length) :
    slice (off + s) n (writeAt off data b) = slice s n data := by
  apply ext_getElem?
  intro i
  rw [getElem?_slice, getElem?_slice]
  split
  · rw [getElem?_writeAt h, if_pos (by omega)]
    congr 1
    omega
  · rfl

theorem slice_setLen {m : Nat} (hm : s + n ≤ m) (hb : s + n ≤ b.length) :
    slice s n (setLen m b) = slice s n b := by
  apply slice_congr
  intro i low high
  exact getElem?_setLen_of_lt (by omega) (by omega)

section Elements

variable {α : Type} [RawElem α]

open RawElem

def bytesOf (xs : List α) : List UInt8 := xs.flatMap toBytes

def elemBytes (α : Type) [RawElem α] (b : List UInt8) (i : Nat) : List UInt8 :=
  slice (i * size α) (size α) b

def elemAt (b : List UInt8) (i : Nat) : α := ofBytes (elemBytes α b i)

/-- The `count` elements that start at index `start`. -/
def elems (b : List UInt8) (start count : Nat) : List α :=
  (List.range count).map fun i => elemAt b (start + i)

@[simp] theorem length_bytesOf (xs : List α) : (bytesOf xs).length = xs.length * size α := by
  induction xs with
  | nil => simp [bytesOf]
  | cons x xs ih =>
    change (toBytes x ++ bytesOf xs).length = (xs.length + 1) * size α
    rw [length_append, length_toBytes, Nat.add_mul]
    omega

theorem elemBytes_bytesOf (xs : List α) (i : Nat) (hi : i < xs.length) :
    elemBytes α (bytesOf xs) i = toBytes xs[i] := by
  induction xs generalizing i with
  | nil => simp at hi
  | cons x xs ih =>
    have split : bytesOf (x :: xs) = toBytes x ++ bytesOf xs := rfl
    cases i with
    | zero =>
      rw [elemBytes, slice, Nat.zero_mul, drop_zero, split, take_left' (length_toBytes x)]
      rfl
    | succ i =>
      have rest := ih i (by simpa using hi)
      rw [elemBytes, slice] at rest
      rw [elemBytes, slice, split, Nat.add_mul, Nat.one_mul, Nat.add_comm (i * size α),
        ← drop_drop, drop_left' (length_toBytes x), rest]
      rfl

@[simp] theorem length_elems (b : List UInt8) (start count : Nat) :
    (elems b start count : List α).length = count := by
  simp [elems]

theorem getElem_elems (b : List UInt8) (start count i : Nat)
    (hi : i < (elems b start count : List α).length) :
    (elems b start count : List α)[i] = elemAt b (start + i) := by
  simp [elems]

variable {i : Nat} {b : List UInt8} {xs : List α} {s : Nat}

private theorem mul_size_add_le {j : Nat} (h : i < j) : i * size α + size α ≤ j * size α := by
  have step : (i + 1) * size α ≤ j * size α := Nat.mul_le_mul_right _ h
  rw [Nat.add_mul, Nat.one_mul] at step
  exact step

/-- Writing elements at index `s` changes no element outside the written range. -/
theorem elemBytes_writeAt_of_outside (fits : s * size α ≤ b.length)
    (outside : i < s ∨ s + xs.length ≤ i) :
    elemBytes α (writeAt (s * size α) (bytesOf xs) b) i = elemBytes α b i := by
  apply slice_writeAt_of_disjoint fits
  rw [length_bytesOf, ← Nat.add_mul]
  rcases outside with below | above
  · exact Or.inl (mul_size_add_le below)
  · exact Or.inr (Nat.mul_le_mul_right _ above)

theorem elemAt_writeAt_inside (fits : s * size α ≤ b.length) (hi : i < xs.length) :
    elemAt (writeAt (s * size α) (bytesOf xs) b) (s + i) = xs[i] := by
  have inside : i * size α + size α ≤ (bytesOf xs).length := by
    rw [length_bytesOf]
    exact mul_size_add_le hi
  rw [elemAt, elemBytes, Nat.add_mul, slice_writeAt_inside fits inside]
  change ofBytes (elemBytes α (bytesOf xs) i) = xs[i]
  rw [elemBytes_bytesOf xs i hi, ofBytes_toBytes]

theorem elemAt_writeAt_of_outside (fits : s * size α ≤ b.length)
    (outside : i < s ∨ s + xs.length ≤ i) :
    elemAt (α := α) (writeAt (s * size α) (bytesOf xs) b) i = elemAt b i := by
  rw [elemAt, elemBytes_writeAt_of_outside fits outside, elemAt]

theorem elemAt_setLen {n : Nat} (hn : i < n) (hb : (i + 1) * size α ≤ b.length) :
    elemAt (α := α) (setLen (n * size α) b) i = elemAt b i := by
  rw [elemAt, elemAt, elemBytes, elemBytes, slice_setLen (mul_size_add_le hn)]
  rwa [Nat.add_mul, Nat.one_mul] at hb

/-- A whole written list reads back as it was written. -/
theorem elems_bytesOf (xs : List α) : elems (bytesOf xs) 0 xs.length = xs := by
  apply ext_getElem
  · simp
  · intro i _ hi
    simp [getElem_elems, elemAt, elemBytes_bytesOf xs i hi]

end Elements

end ByteFile
