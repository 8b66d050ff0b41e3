import Mathlib.Algebra.Field.Basic
import ProviaVM.Preprocessing.BackingStore

/-! # Seed regeneration

The lazy sources store a seed and a word position and regenerate their material
by seeking into the ChaCha stream. The stream is a function of the seed and the
word position; `seek_and_generate` reads a byte range of it. The range is the same
for every split of a request, which is what makes one index mean one value. -/
namespace ProviaVM.Preprocessing
open ByteFile List

/-- ChaCha as a function from the seed and the word position to the keystream word. -/
structure ChaCha where
  word : Seed → Nat → UInt32

namespace ChaCha

/-- Byte `j` of a keystream word, in the little-endian order of `fill_bytes`. -/
def wordByte (w : UInt32) (j : Nat) : UInt8 := UInt8.ofNat (w.toNat / 256 ^ j)

/-- Byte `i` of the stream that starts at word `pos`. -/
def streamByte (c : ChaCha) (seed : Seed) (pos i : Nat) : UInt8 :=
  wordByte (c.word seed (pos + i / 4)) (i % 4)

/-- `set_word_pos(pos)` followed by `fill_bytes` on `n` bytes. -/
def fillBytes (c : ChaCha) (seed : Seed) (pos n : Nat) : List UInt8 :=
  (List.range n).map (c.streamByte seed pos)

/-- `seek_and_generate`: seek to the word that holds `byteOffset` and drop the bytes
of that word before it. -/
def seekAndGenerate (c : ChaCha) (seed : Seed) (basePos byteOffset needed : Nat) : List UInt8 :=
  (c.fillBytes seed (basePos + byteOffset / 4) (needed + byteOffset % 4)).drop (byteOffset % 4)

/-- The bytes `off .. off + n` of the stream that starts at word `pos`. -/
def streamSlice (c : ChaCha) (seed : Seed) (pos off n : Nat) : List UInt8 :=
  (List.range n).map fun i => c.streamByte seed pos (off + i)

@[simp] theorem length_streamSlice (c : ChaCha) (seed : Seed) (pos off n : Nat) :
    (c.streamSlice seed pos off n).length = n := by
  simp [streamSlice]

theorem streamByte_seek (c : ChaCha) (seed : Seed) (pos off i : Nat) :
    c.streamByte seed (pos + off / 4) (off % 4 + i) = c.streamByte seed pos (off + i) := by
  have word : pos + off / 4 + (off % 4 + i) / 4 = pos + (off + i) / 4 := by omega
  have byte : (off % 4 + i) % 4 = (off + i) % 4 := by omega
  rw [streamByte, streamByte, word, byte]

/-- Seeking to an arbitrary byte offset reads exactly that range of the stream. -/
theorem seekAndGenerate_eq (c : ChaCha) (seed : Seed) (pos off n : Nat) :
    c.seekAndGenerate seed pos off n = c.streamSlice seed pos off n := by
  apply ext_getElem
  · simp [seekAndGenerate, fillBytes]
  · intro i hi _
    simp only [seekAndGenerate, fillBytes, streamSlice, getElem_drop, getElem_map,
      getElem_range]
    exact c.streamByte_seek seed pos off i

/-- A slice of a stream range is the stream range at the shifted offset. -/
theorem slice_streamSlice (c : ChaCha) (seed : Seed) (pos off n s m : Nat) (fits : s + m ≤ n) :
    slice s m (c.streamSlice seed pos off n) = c.streamSlice seed pos (off + s) m := by
  apply ext_getElem
  · simp only [slice, length_take, length_drop, length_streamSlice]
    omega
  · intro i hi _
    simp only [slice, streamSlice, getElem_take, getElem_drop, getElem_map,
      getElem_range, Nat.add_assoc]

end ChaCha

def fromLeBytes (b : List UInt8) : Nat := b.foldr (fun x acc => x.toNat + 256 * acc) 0

/-- `parse_field`: sixteen bytes read as one `u128` and embedded in the field. Slicing
past the end of the buffer panics. -/
def parseField {F : Type} [NatCast F] (buf : List UInt8) (start : Nat) : Except IoError F :=
  if start + 16 ≤ buf.length then
    let lo := fromLeBytes (slice start 8 buf)
    let hi := fromLeBytes (slice (start + 8) 8 buf)
    .ok ((hi <<< 64 ||| lo : Nat) : F)
  else .error .panicked

end ProviaVM.Preprocessing
