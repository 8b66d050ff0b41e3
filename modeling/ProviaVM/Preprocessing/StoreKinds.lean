import ProviaVM.Preprocessing.StoreContents

/-! # The two kinds of store side by side

The same operations are run on a store that lives in memory and on one that lives in a file,
and their answers are compared. The kinds part on purpose in two places: a file does not grow
under `write_at`, and a consumed range of a file reads as zeros. They part by accident in three
more: `extend` writes at the append offset of the file, which `create_file_backed_sized` leaves
at zero and the writer does not move, `read_consume_into_slice` does not check its range on a
file, and of no elements `from_vec` makes the `Empty` store, which returns no elements for every
`read_consume`. `Twins.Fair` names these places; in every run that avoids them the answers are
equal. -/
namespace ProviaVM.Preprocessing
open ByteFile RawElem BackingStore List

variable {α : Type} [RawElem α]

/-- `resize` to the end of the written range where the vector is too short, then
`copy_from_slice`. -/
def overwrite (start : Nat) (data v : List α) : List α :=
  match data with
  | [] => v
  | first :: _ =>
    let grown := v ++ List.replicate (start + data.length - v.length) first
    grown.take start ++ data ++ grown.drop (start + data.length)

namespace BackingStore

def writeAt (s : BackingStore α) (d : Disk) (start : Nat) (data : List α) :
    Except IoError (BackingStore α × Disk) :=
  if data.isEmpty then .ok (s, d)
  else match s with
    | .inMemory v => .ok (.inMemory (overwrite start data v), d)
    | .fileBacked path len appendOffset =>
      if len < start + data.length then .error (.writeExceedsLen (start + data.length) len)
      else match d path with
        | some (.data b) =>
          .ok (.fileBacked path len (max appendOffset (start * size α + (bytesOf data).length)),
            d.set path (.data (ByteFile.writeAt (start * size α) (bytesOf data) b)))
        | _ => .error (.notFound path)
    | .empty => if start ≠ 0 then .error (.emptyWithOffset start) else .ok (.inMemory data, d)

/-- `BackingStore::write_bytes_at`: the raw bytes of elements, decoded where they are kept in
memory. -/
def writeBytesAt (s : BackingStore α) (d : Disk) (start : Nat) (bytes : List UInt8) :
    Except IoError (BackingStore α × Disk) :=
  if bytes.isEmpty then .ok (s, d)
  else if bytes.length % size α ≠ 0 then .error (.rawPayload bytes.length (size α))
  else
    let n := bytes.length / size α
    match s with
    | .inMemory v => .ok (.inMemory (overwrite start (elems bytes 0 n) v), d)
    | .fileBacked path len appendOffset =>
      if len < start + n then .error (.writeExceedsLen (start + n) len)
      else match d path with
        | some (.data b) =>
          .ok (.fileBacked path len (max appendOffset (start * size α + bytes.length)),
            d.set path (.data (ByteFile.writeAt (start * size α) bytes b)))
        | _ => .error (.notFound path)
    | .empty => if start ≠ 0 then .error (.emptyWithOffset start)
        else .ok (.inMemory (elems bytes 0 n), d)

def interleave (left right : List α) : List α := (left.zip right).flatMap fun (l, r) => [l, r]

def writeInterleavedAt (s : BackingStore α) (d : Disk) (startPair : Nat) (left right : List α) :
    Except IoError (BackingStore α × Disk) :=
  if left.length ≠ right.length then .error (.lengthMismatch left.length right.length)
  else if left.isEmpty then .ok (s, d)
  else s.writeAt d (startPair * 2) (interleave left right)

def writer (s : BackingStore α) : Option FileBackedWriter :=
  match s with
  | .fileBacked path len _ => some ⟨path, len⟩
  | _ => none

/-- A write as the generators make it: through the writer where the store has one, otherwise
with `write_at`. -/
def writeThrough (s : BackingStore α) (d : Disk) (start : Nat) (data : List α) :
    Except IoError (BackingStore α × Disk) :=
  match s.writer with
  | some w => do
    let d ← w.writeAt d start data
    return (s, d)
  | none => s.writeAt d start data

end BackingStore

inductive StoreOp (α : Type) where
  | create (path : Path) (n : Nat)
  | writeAt (start : Nat) (data : List α)
  | writeThrough (start : Nat) (data : List α)
  | extend (additional : List α)
  | readView (start stop outLen : Nat)
  | readConsume (start stop : Nat)
  | readConsumeIntoSlice (start stop outLen : Nat)
  | consume (os : Os) (start stop : Nat)
  | saveLoad (path : Path)

inductive StoreKind where
  | memory | file
  deriving DecidableEq, Repr

structure StoreSys (α : Type) where
  store : BackingStore α
  disk : Disk

open StoreSys

namespace StoreSys

/-- The answer to a change: what was there stays when it is refused. -/
def change (s : StoreSys α) : Except IoError (BackingStore α × Disk) → StoreSys α × Option (List α)
  | .ok (store, disk) => (⟨store, disk⟩, some [])
  | .error _ => (s, none)

/-- One operation: the store afterwards, and the elements it returned or that it was refused. -/
def step (kind : StoreKind) (s : StoreSys α) : StoreOp α → StoreSys α × Option (List α)
  | .create path n =>
    match kind with
    | .memory => (⟨.fromVec (List.replicate n (blank α)), s.disk⟩, some [])
    | .file =>
      let (store, disk) := createFileBackedSized α s.disk path n
      (⟨store, disk⟩, some [])
  | .writeAt start data => s.change (s.store.writeAt s.disk start data)
  | .writeThrough start data => s.change (s.store.writeThrough s.disk start data)
  | .extend additional => s.change (LazyEdaBits.extendStore s.store s.disk additional)
  | .readView start stop outLen => (s, (s.store.readIntoSlice s.disk start stop outLen).toOption)
  | .readConsume start stop => (s, (s.store.readConsume s.disk start stop).toOption)
  | .readConsumeIntoSlice start stop outLen =>
    (s, (s.store.readConsumeIntoSlice s.disk start stop outLen).toOption)
  | .consume os start stop =>
      ({ s with disk := s.disk.applyAll (s.store.consume os start stop) }, some [])
  | .saveLoad path =>
    match s.store.saveToFile s.disk path with
    | .error _ => (s, none)
    | .ok disk =>
      match loadFromFile α disk path with
      | .ok store => (⟨store, disk⟩, some [])
      | .error _ => ({ s with disk := disk }, none)

/-- What a caller sees of a run: the answer to every operation and the length after it. -/
def observe (kind : StoreKind) (s : StoreSys α) : List (StoreOp α) → List (Option (List α) × Nat)
  | [] => []
  | op :: ops =>
    let (s', answer) := s.step kind op
    (answer, s'.store.len) :: observe kind s' ops

end StoreSys

def AppendsAtEnd : BackingStore α → Prop
  | .fileBacked _ len appendOffset => appendOffset = len * size α
  | _ => True

/-- The two runs, and the elements that a file no longer has to hold because they were
consumed. -/
structure Twins (α : Type) where
  memory : StoreSys α
  file : StoreSys α
  consumed : Nat → Prop

namespace Twins

/-- Consumption of a valid range spends it, writing gives it back. -/
def consumedBy (len : Nat) (consumed : Nat → Prop) : StoreOp α → Nat → Prop
  | .create _ _, _ => False
  | .writeAt start data, e => consumed e ∧ (e < start ∨ start + data.length ≤ e)
  | .writeThrough start data, e => consumed e ∧ (e < start ∨ start + data.length ≤ e)
  | .consume _ start stop, e => consumed e ∨ stop ≤ len ∧ start ≤ e ∧ e < stop
  | _, e => consumed e

def step (t : Twins α) (op : StoreOp α) : Twins α where
  memory := (t.memory.step .memory op).1
  file := (t.file.step .file op).1
  consumed := consumedBy t.file.store.len t.consumed op

def Fresh (t : Twins α) (start stop : Nat) : Prop := ∀ e, start ≤ e → e < stop → ¬ t.consumed e

def InFile (t : Twins α) (stop : Nat) : Prop :=
  ∀ path, storePath t.file.store = some path → stop ≤ t.file.store.len

/-- The operation stays clear of the places where the kinds differ. -/
def Fair (t : Twins α) : StoreOp α → Prop
  | .create _ n => 0 < n
  | .writeAt start data => data ≠ [] → t.InFile (start + data.length)
  | .writeThrough start data => data ≠ [] → t.InFile (start + data.length)
  | .extend additional => additional ≠ [] → AppendsAtEnd t.file.store
  | .readView start stop _ => t.Fresh start stop
  | .readConsume start stop => t.Fresh start stop
  | .readConsumeIntoSlice start stop _ =>
    t.Fresh start stop ∧ (start = stop → stop ≤ t.file.store.len)
  | .consume _ _ _ => True
  | .saveLoad _ => True

/-- Every operation of the run is fair when its turn comes. -/
def AllFair (t : Twins α) : List (StoreOp α) → Prop
  | [] => True
  | op :: ops => t.Fair op ∧ (t.step op).AllFair ops

end Twins

section Overwrite

omit [RawElem α]
variable {start : Nat} {data v : List α}

theorem length_overwrite (some_ : data ≠ []) :
    (overwrite start data v).length = max v.length (start + data.length) := by
  obtain ⟨first, rest, rfl⟩ := exists_cons_of_ne_nil some_
  simp only [overwrite, length_append, length_take, length_drop, length_replicate]
  omega

theorem getElem?_overwrite_inside {i : Nat} (inside : i < data.length) :
    (overwrite start data v)[start + i]? = data[i]? := by
  have some_ : data ≠ [] := ne_nil_of_length_pos (by omega)
  obtain ⟨first, rest, rfl⟩ := exists_cons_of_ne_nil some_
  simp only [overwrite]
  have begun :
      ((v ++ List.replicate (start + (first :: rest).length - v.length) first).take start).length =
      start := by
    simp only [length_take, length_append, length_replicate]
    omega
  rw [append_assoc, getElem?_append_right (by omega), begun, Nat.add_sub_cancel_left,
    getElem?_append_left inside]

theorem getElem?_overwrite_outside {e : Nat} (known : e < v.length)
    (outside : e < start ∨ start + data.length ≤ e) :
    (overwrite start data v)[e]? = v[e]? := by
  cases data with
  | nil => rfl
  | cons first rest =>
    simp only [overwrite]
    rcases outside with before | after
    · rw [append_assoc, getElem?_append_left, getElem?_take_of_lt before,
        getElem?_append_left known]
      simp only [length_take, length_append]
      omega
    · rw [getElem?_append_right, getElem?_drop, length_append, length_take, length_append]
      · rw [getElem?_append_left (by omega)]
        congr 1
        omega
      · simp only [length_take, length_append]
        omega

theorem overwrite_ne_nil (some_ : v ≠ []) : overwrite start data v ≠ [] := by
  rcases eq_or_ne data [] with rfl | more
  · exact some_
  · have positive := length_pos_of_ne_nil more
    exact ne_nil_of_length_pos (by rw [length_overwrite more]; omega)

end Overwrite

/-- The store stands for the list `xs`: a vector is `xs` itself, a file has the length of `xs`
and its elements outside the consumed ones. -/
structure Holds (s : StoreSys α) (xs : List α) (consumed : Nat → Prop) : Prop where
  present : s.store ≠ .empty
  len : s.store.len = xs.length
  file : ∀ path, storePath s.store = some path → FileHas α s.disk path xs.length
  vector : storePath s.store = none → s.store = .inMemory xs
  values : ∀ e < xs.length, ¬ consumed e → storedAt s.store s.disk e = xs[e]?

namespace Holds

variable {s : StoreSys α} {xs : List α} {consumed : Nat → Prop}

theorem of_vector (xs : List α) (d : Disk) (consumed : Nat → Prop) :
    Holds ⟨.inMemory xs, d⟩ xs consumed where
  present := by intro bad; cases bad
  len := rfl
  file := by intro path own; cases own
  vector := fun _ => rfl
  values := fun _ _ _ => rfl

theorem of_file {path : Path} {d : Disk} (off : Nat) (file : FileHas α d path xs.length)
    (values : ∀ e < xs.length, ¬ consumed e → fileElem α d path e = xs[e]?) :
    Holds ⟨.fileBacked path xs.length off, d⟩ xs consumed where
  present := by intro bad; cases bad
  len := rfl
  file := by
    intro p own
    cases own
    exact file
  vector := by intro bad; cases bad
  values := values

/-- A store that stands for a list is that vector or a file of its length. -/
theorem cases_store {store : BackingStore α} {d : Disk} (h : Holds ⟨store, d⟩ xs consumed) :
    store = .inMemory xs ∨ ∃ path off, store = .fileBacked path xs.length off ∧
      FileHas α d path xs.length ∧
      ∀ e < xs.length, ¬ consumed e → fileElem α d path e = xs[e]? := by
  cases store with
  | inMemory v => exact Or.inl (h.vector rfl)
  | empty => exact absurd rfl h.present
  | fileBacked path len off =>
    obtain rfl : len = xs.length := h.len
    exact Or.inr ⟨path, off, rfl, h.file path rfl, h.values⟩

end Holds

section Reads

variable {s : StoreSys α} {xs : List α} {consumed : Nat → Prop} {start stop : Nat}

/-- The part of a list a read returns, refused where the range is not one of the list. -/
def sliceOf (xs : List α) (start stop : Nat) : Option (List α) :=
  if start ≤ stop ∧ stop ≤ xs.length then some ((xs.drop start).take (stop - start)) else none

/-- A file that has the list's elements in the range reads as that part of the list. -/
theorem readFile_of_holds {d : Disk} {path : Path} (file : FileHas α d path xs.length)
    (values : ∀ e < xs.length, ¬ consumed e → fileElem α d path e = xs[e]?)
    (fresh : ∀ e, start ≤ e → e < stop → ¬ consumed e) (ordered : start ≤ stop)
    (short : start = stop → stop ≤ xs.length) :
    (readFile d path start stop : Except IoError (List α)).toOption = sliceOf xs start stop := by
  unfold sliceOf
  rcases Nat.eq_or_lt_of_le ordered with rfl | some_
  · rw [if_pos ⟨ordered, short rfl⟩, readFile, Nat.sub_self]
    rfl
  obtain ⟨b, found, sized⟩ := id file
  by_cases fits : stop ≤ xs.length
  · rw [if_pos ⟨ordered, fits⟩]
    have read : readFile d path start stop = .ok (elems (α := α) b start (stop - start)) := by
      have room : start * size α + (stop - start) * size α ≤ b.length := by
        rw [← Nat.add_mul, Nat.add_sub_cancel' ordered, sized]
        exact Nat.mul_le_mul_right _ fits
      rw [readFile, if_neg (by omega)]
      simp only [found, readExact, if_pos room]
    rw [read]
    have stored := readFile_stored read
    have same : elems b start (stop - start) = (xs.drop start).take (stop - start) := by
      apply map_injective_iff.mpr (Option.some_injective α)
      rw [stored, memory_slice_stored fits]
      apply map_congr_left
      intro i member
      have small := mem_range.mp member
      exact values (start + i) (by omega) (fresh _ (Nat.le_add_right _ _) (by omega))
    rw [same]
    rfl
  · rw [if_neg (fun both => fits both.2)]
    have long : ¬ (start * size α + (stop - start) * size α ≤ b.length) := by
      rw [← Nat.add_mul, Nat.add_sub_cancel' ordered, sized, Nat.not_le]
      exact Nat.mul_lt_mul_of_pos_right (Nat.lt_of_not_le fits) size_pos
    rw [readFile, if_neg (by omega)]
    simp only [found, readExact, if_neg long]
    rfl

omit [RawElem α] in
theorem checkedRead_eq {store : BackingStore α} (len : store.len = xs.length)
    {read : Except IoError (List α)}
    (slice : start ≤ stop → stop ≤ xs.length → read.toOption = sliceOf xs start stop) :
    (do store.validateRange start stop; read).toOption = sliceOf xs start stop := by
  unfold validateRange
  split
  · rw [sliceOf, if_neg (by omega)]
    rfl
  split
  · rw [sliceOf, if_neg (by omega)]
    rfl
  · exact slice (by omega) (by omega)

omit [RawElem α] in
theorem vectorRead_eq {v : List α} :
    (do
      validateRange (.inMemory v) start stop
      .ok ((v.drop start).take (stop - start)) : Except IoError (List α)).toOption =
        sliceOf v start stop :=
  checkedRead_eq rfl fun ordered fits => by
    rw [sliceOf, if_pos ⟨ordered, fits⟩]
    rfl

omit [RawElem α] in
/-- A read into a slice of the right length. -/
theorem sizedRead_eq {outLen n : Nat} {read : Except IoError (List α)} {ys : Option (List α)}
    (same : read.toOption = ys) :
    (if outLen ≠ n then .error (.sliceLength outLen n) else read).toOption = if outLen = n then ys
      else none := by
  by_cases sized : outLen = n
  · rw [if_neg (not_not_intro sized), if_pos sized, same]
  · rw [if_pos sized, if_neg sized]
    rfl

variable (h : Holds s xs consumed) (fresh : ∀ e, start ≤ e → e < stop → ¬ consumed e)
include h fresh

/-- `read_consume` on a store that stands for `xs`. -/
theorem readConsume_eq :
    (s.store.readConsume s.disk start stop).toOption = sliceOf xs start stop := by
  obtain ⟨store, d⟩ := s
  rcases h.cases_store with rfl | ⟨path, off, rfl, file, values⟩
  · exact vectorRead_eq
  · refine checkedRead_eq rfl fun ordered fits => ?_
    rw [← readFile_of_holds file values fresh ordered fun _ => fits]
    split
    · rename_i nothing
      rw [readFile, if_pos nothing]
    · rfl

/-- `BackingStoreReadView::read_into_slice` on a store that stands for `xs`. -/
theorem readIntoSlice_eq (outLen : Nat) :
    (s.store.readIntoSlice s.disk start stop outLen).toOption =
      if outLen = stop - start then sliceOf xs start stop else none := by
  refine sizedRead_eq ?_
  obtain ⟨store, d⟩ := s
  rcases h.cases_store with rfl | ⟨path, off, rfl, file, values⟩
  · exact vectorRead_eq
  · exact checkedRead_eq rfl fun ordered fits =>
      readFile_of_holds file values fresh ordered fun _ => fits

/-- `read_consume_into_slice` on a store that stands for `xs`, for a range that is nonempty or
inside the store; a reversed one panics on a file. -/
theorem readConsumeIntoSlice_eq (short : start = stop → stop ≤ xs.length) (outLen : Nat) :
    (s.store.readConsumeIntoSlice s.disk start stop outLen).toOption =
      if outLen = stop - start then sliceOf xs start stop else none := by
  refine sizedRead_eq ?_
  obtain ⟨store, d⟩ := s
  rcases h.cases_store with rfl | ⟨path, off, rfl, file, values⟩
  · exact vectorRead_eq
  · by_cases reversed : stop < start
    · have none : sliceOf xs start stop = none := if_neg fun both => by omega
      simp only [if_pos reversed, none]
      rfl
    · simp only [if_neg reversed]
      exact readFile_of_holds file values fresh (Nat.le_of_not_lt reversed) short

end Reads

section Changes

variable {s : StoreSys α} {xs : List α} {consumed : Nat → Prop}
variable {d : Disk} {start : Nat} {data : List α}

def writtenOver (consumed : Nat → Prop) (start n : Nat) (e : Nat) : Prop :=
  consumed e ∧ (e < start ∨ start + n ≤ e)

theorem Holds.mono {consumed' : Nat → Prop} (h : Holds s xs consumed)
    (more : ∀ e < xs.length, consumed e → consumed' e) : Holds s xs consumed' :=
  ⟨h.present, h.len, h.file, h.vector,
    fun e inside kept => h.values e inside fun c => kept (more e inside c)⟩

/-- What a store stands for depends only on its own file. -/
theorem Holds.congr (h : Holds s xs consumed)
    (same : ∀ path, storePath s.store = some path → d path = s.disk path) :
    Holds ⟨s.store, d⟩ xs consumed where
  present := h.present
  len := h.len
  file := by
    intro path own
    obtain ⟨b, found, sized⟩ := h.file path own
    exact ⟨b, (same path own).trans found, sized⟩
  vector := h.vector
  values := by
    intro e inside kept
    rw [← h.values e inside kept]
    exact storedAt_congr same e

/-- A write inside a file that stands for `xs`. -/
theorem holds_fileWrite {w : FileBackedWriter} {d' : Disk} {off off' : Nat}
    (h : Holds ⟨.fileBacked w.path w.len off, d⟩ xs consumed) (some_ : data ≠ [])
    (written : w.writeAt d start data = .ok d') :
    Holds ⟨.fileBacked w.path w.len off',
      d'⟩ (overwrite start data xs) (writtenOver consumed start data.length) := by
  have sized : w.len = xs.length := h.len
  have fits : start + data.length ≤ w.len := by
    unfold FileBackedWriter.writeAt at written
    rw [if_neg (by simpa using some_)] at written
    split at written
    · cases written
    · omega
  have room : FileHas α d w.path w.len := by
    rw [sized]
    exact h.file w.path rfl
  obtain ⟨file, -, set, kept⟩ := writeAt_ok written room
  have same : (overwrite start data xs).length = w.len := by
    rw [length_overwrite some_]
    omega
  rw [← same] at file ⊢
  apply Holds.of_file off' file
  intro e inside fresh
  by_cases within : start ≤ e ∧ e < start + data.length
  · obtain ⟨low, high⟩ := within
    obtain ⟨i, rfl⟩ := Nat.exists_eq_add_of_le low
    have small : i < data.length := by omega
    rw [set i small, getElem?_overwrite_inside small, getElem?_eq_getElem small]
  · have outside : e < start ∨ start + data.length ≤ e := by omega
    have known : e < xs.length := by omega
    rw [kept e outside, getElem?_overwrite_outside known outside]
    exact h.values e known fun c => fresh ⟨c, outside⟩

/-- `write_at` on a file is the writer's `write_at`, with the append offset raised. -/
theorem writeAt_fileBacked {path : Path} {len off : Nat} (some_ : data ≠ []) :
    BackingStore.writeAt (.fileBacked path len off) d start data = (do
      let d' ← (FileBackedWriter.mk path len).writeAt d start data
      return (.fileBacked path len (max off (start * size α + (bytesOf data).length)), d')) := by
  have nonempty : ¬ data.isEmpty = true := by simpa using some_
  simp only [BackingStore.writeAt, FileBackedWriter.writeAt, if_neg nonempty]
  split
  · rfl
  · cases d path with
    | none => rfl
    | some content => cases content <;> rfl

/-- The bytes of elements are written as the elements are. -/
theorem writeBytesAt_bytesOf (store : BackingStore α) (d : Disk) (start : Nat) (data : List α) :
    store.writeBytesAt d start (bytesOf data) = store.writeAt d start data := by
  have sized := length_bytesOf data
  have whole : ¬ (data.length * size α) % size α ≠ 0 := by simp
  have count : data.length * size α / size α = data.length := Nat.mul_div_cancel _ size_pos
  rcases eq_or_ne data [] with rfl | some_
  · rfl
  have nonempty : ¬ data.isEmpty = true := by simpa using some_
  have positive := Nat.mul_pos (length_pos_of_ne_nil some_) (size_pos (α := α))
  have bytes : ¬ (bytesOf data).isEmpty = true := by
    rw [isEmpty_iff_length_eq_zero]
    omega
  simp only [BackingStore.writeBytesAt, BackingStore.writeAt, if_neg nonempty, if_neg bytes,
    sized, if_neg whole, count, elems_bytesOf]

/-- Inside a file of the right size the writer accepts. -/
theorem writeAt_accepts {w : FileBackedWriter} (room : FileHas α d w.path w.len)
    (fits : start + data.length ≤ w.len) :
    ∃ d', w.writeAt d start data = .ok d' := by
  obtain ⟨b, found, -⟩ := room
  unfold FileBackedWriter.writeAt
  split
  · exact ⟨d, rfl⟩
  · rw [if_neg (by omega), found]
    exact ⟨_, rfl⟩

/-- A change of a store that stands for `xs` is accepted, and the store stands for `ys` afterwards,
of the same kind and in the same file. -/
structure Becomes (s : StoreSys α) (result : StoreSys α × Option (List α)) (ys : List α)
    (consumed : Nat → Prop) : Prop where
  accepted : result.2 = some []
  holds : Holds result.1 ys consumed
  path : storePath result.1.store = storePath s.store
  atEnd : AppendsAtEnd s.store → AppendsAtEnd result.1.store

theorem Becomes.unchanged (h : Holds s xs consumed) : Becomes s (s, some []) xs consumed :=
  ⟨rfl, h, rfl, id⟩

theorem writtenOver_nil (consumed : Nat → Prop) (start : Nat) (e : Nat) (c : consumed e) :
    writtenOver consumed start 0 e :=
  ⟨c, Nat.lt_or_ge e start⟩

/-- The end of a written range is not past the end of the file. -/
theorem writeEnd_le {n len : Nat} (fits : start + n ≤ len) :
    start * size α + n * size α ≤ len * size α := by
  rw [← Nat.add_mul]
  exact Nat.mul_le_mul_right _ fits

section Writes

variable (h : Holds s xs consumed)
  (fits : data ≠ [] → ∀ path, storePath s.store = some path → start + data.length ≤ xs.length)
include h fits

theorem writeAt_becomes :
    Becomes s (s.change (s.store.writeAt s.disk start data)) (overwrite start data xs)
      (writtenOver consumed start data.length) := by
  rcases eq_or_ne data [] with rfl | some_
  · exact Becomes.unchanged (h.mono fun e _ => writtenOver_nil consumed start e)
  have nonempty : ¬ data.isEmpty = true := by simpa using some_
  obtain ⟨store, d⟩ := s
  rcases h.cases_store with rfl | ⟨path, off, rfl, file, values⟩
  · simp only [BackingStore.writeAt, if_neg nonempty]
    exact ⟨rfl, Holds.of_vector _ _ _, rfl, id⟩
  · have room : start + data.length ≤ xs.length := fits some_ path rfl
    obtain ⟨d', written⟩ := writeAt_accepts (w := ⟨path, xs.length⟩) file room
    rw [writeAt_fileBacked some_, written]
    refine ⟨rfl, holds_fileWrite h some_ written, rfl, fun (atEnd : off = xs.length * size α) => ?_⟩
    have below := writeEnd_le (α := α) room
    change max off (start * size α + (bytesOf data).length) = xs.length * size α
    rw [length_bytesOf]
    omega

theorem writeThrough_becomes :
    Becomes s (s.change (s.store.writeThrough s.disk start data)) (overwrite start data xs)
      (writtenOver consumed start data.length) := by
  have direct := writeAt_becomes h fits
  obtain ⟨store, d⟩ := s
  rcases h.cases_store with rfl | ⟨path, off, rfl, file, values⟩
  · exact direct
  · rcases eq_or_ne data [] with rfl | some_
    · exact Becomes.unchanged (h.mono fun e _ => writtenOver_nil consumed start e)
    obtain ⟨d', written⟩ := writeAt_accepts (w := ⟨path, xs.length⟩) file (fits some_ path rfl)
    simp only [BackingStore.writeThrough, BackingStore.writer, written]
    exact ⟨rfl, holds_fileWrite h some_ written, rfl, id⟩

end Writes

/-- Extending appends to the list the store stands for, if a file is written at its end. -/
theorem extend_becomes {ys : List α} (h : Holds s xs consumed)
    (atEnd : ys ≠ [] → AppendsAtEnd s.store) :
    Becomes s (s.change (LazyEdaBits.extendStore s.store s.disk ys)) (xs ++ ys) consumed := by
  rcases eq_or_ne ys [] with rfl | some_
  · rw [append_nil]
    exact Becomes.unchanged h
  have nonempty : ¬ ys.isEmpty = true := by simpa using some_
  obtain ⟨store, d⟩ := s
  rcases h.cases_store with rfl | ⟨path, off, rfl, file, values⟩
  · simp only [LazyEdaBits.extendStore, if_neg nonempty]
    exact ⟨rfl, Holds.of_vector _ _ _, rfl, id⟩
  · obtain rfl : off = xs.length * size α := atEnd some_
    obtain ⟨b, found, sized⟩ := file
    have end_ : xs.length * size α = b.length := sized.symm
    have grown : (ByteFile.writeAt (xs.length * size α) (bytesOf ys) b).length =
        (xs ++ ys).length * size α := by
      rw [length_writeAt_end end_, length_bytesOf, sized, ← Nat.add_mul, length_append]
    simp only [LazyEdaBits.extendStore, if_neg nonempty, found, length_bytesOf, ← Nat.add_mul,
      ← length_append]
    refine ⟨rfl, Holds.of_file _ ⟨_, Disk.set_same _ _ _, grown⟩ fun e inside fresh => ?_,
      rfl, fun _ => rfl⟩
    have bound : (e + 1) * size α ≤ (xs ++ ys).length * size α := Nat.mul_le_mul_right _ inside
    rw [fileElem_data (Disk.set_same _ _ _) (grown ▸ bound)]
    rcases Nat.lt_or_ge e xs.length with old | new
    · have held := values e old fresh
      have room : (e + 1) * size α ≤ b.length := by
        rw [sized]
        exact Nat.mul_le_mul_right _ old
      rw [fileElem_data found room] at held
      rw [elemAt_writeAt_of_outside (Nat.le_of_eq end_) (Or.inl old), held,
        getElem?_append_left old]
    · obtain ⟨i, rfl⟩ := Nat.exists_eq_add_of_le new
      have small : i < ys.length := by
        rw [length_append] at inside
        omega
      rw [elemAt_writeAt_inside (Nat.le_of_eq end_) small, getElem?_append_right new,
        Nat.add_sub_cancel_left, getElem?_eq_getElem small]

/-- Durable writes that spare what is not consumed keep the list. -/
theorem Holds.applyAll {consumed' : Nat → Prop} {ws : List Write} (h : Holds s xs consumed)
    (more : ∀ e, consumed e → consumed' e)
    (spares : ∀ e < xs.length, ¬ consumed' e → ∀ path, storePath s.store = some path →
      ∀ w ∈ ws, Spares α path e w) :
    Holds { s with disk := s.disk.applyAll ws } xs consumed' := by
  refine ⟨h.present, h.len, fun path own => fileHas_applyAll _ (h.file path own), h.vector,
    fun e inside fresh => ?_⟩
  rw [storedAt_applyAll (spares e inside fresh)]
  exact h.values e inside fun c => fresh (more e c)

/-- Consuming a range spares the elements that are not in it. -/
theorem Holds.consume_spares {os : Os} {stop e : Nat} (h : Holds s xs consumed)
    (outside : ¬ (stop ≤ xs.length ∧ start ≤ e ∧ e < stop)) {path : Path} {w : Write}
    (member : w ∈ s.store.consume os start stop) : Spares α path e w := by
  apply spares_of_mem_consume member
  obtain ⟨_, len, _, _, _, isFile, -, -, valid, -⟩ := mem_consume member
  have sized : len = xs.length := by
    have known := h.len
    rwa [isFile] at known
  omega

theorem consume_becomes {os : Os} {stop : Nat} (h : Holds s xs consumed) :
    Becomes s ({ s with disk := s.disk.applyAll (s.store.consume os start stop) }, some []) xs
      (fun e => consumed e ∨ stop ≤ xs.length ∧ start ≤ e ∧ e < stop) where
  accepted := rfl
  path := rfl
  atEnd := id
  holds := h.applyAll (fun _ => Or.inl) fun _ _ fresh _ _ _ member =>
    h.consume_spares (fun within => fresh (Or.inr within)) member

end Changes

section SaveLoad

variable {s : StoreSys α} {xs : List α} {consumed : Nat → Prop}

/-- After saving, the file has the list in it. -/
theorem saveToFile_holds (h : Holds s xs consumed) (path : Path) :
    ∃ d, s.store.saveToFile s.disk path = .ok d ∧ FileHas α d path xs.length ∧
      ∀ e < xs.length, ¬ consumed e → fileElem α d path e = xs[e]? := by
  obtain ⟨store, d⟩ := s
  rcases h.cases_store with rfl | ⟨src, off, rfl, file, values⟩
  · refine ⟨_, rfl, ⟨_, Disk.set_same _ _ _, length_bytesOf xs⟩, fun e inside _ => ?_⟩
    have room : (e + 1) * size α ≤ (bytesOf xs).length := by
      rw [length_bytesOf]
      exact Nat.mul_le_mul_right _ inside
    simp [fileElem_data (Disk.set_same _ _ _) room, elemAt, elemBytes_bytesOf xs e inside]
  · unfold saveToFile
    rcases eq_or_ne src path with rfl | different
    · exact ⟨d, if_pos rfl, file, values⟩
    · obtain ⟨b, found, sized⟩ := file
      have copied : d.set path (.data b) path = d src := (Disk.set_same _ _ _).trans found.symm
      refine ⟨d.set path (.data b), ?_, ⟨b, Disk.set_same _ _ _, sized⟩, fun e inside fresh => ?_⟩
      · dsimp only
        rw [if_neg different, found]
      · rw [← values e inside fresh]
        unfold fileElem
        rw [copied]

/-- A nonempty list comes back from its file. -/
theorem saveLoad_holds (kind : StoreKind) (some_ : xs ≠ []) (h : Holds s xs consumed)
    (path : Path) :
    (s.step kind (.saveLoad path)).2 = some [] ∧
      Holds (s.step kind (.saveLoad path)).1 xs consumed ∧
      AppendsAtEnd (s.step kind (.saveLoad path)).1.store ∧
      storePath (s.step kind (.saveLoad path)).1.store = some path := by
  obtain ⟨d, saved, file, values⟩ := saveToFile_holds h path
  have loaded := loadFromFile_of_fileHas (length_pos_of_ne_nil some_) file
  simp only [StoreSys.step, saved, loaded]
  exact ⟨trivial, Holds.of_file _ file values, rfl, rfl⟩

/-- A store loaded from a file that was there before is `Empty` or stands for the elements in it. -/
theorem loadFromFile_holds {d : Disk} {path : Path} {store : BackingStore α}
    (loaded : loadFromFile α d path = .ok store) :
    store = .empty ∨ storePath store = some path ∧ AppendsAtEnd store ∧
      ∃ xs, xs ≠ [] ∧ Holds ⟨store, d⟩ xs consumed := by
  unfold loadFromFile at loaded
  split at loaded
  case h_2 => cases loaded
  rename_i b found
  split at loaded
  · cases loaded
    exact .inl rfl
  rename_i some_
  split at loaded
  · cases loaded
  rename_i whole
  cases loaded
  have sized : b.length = b.length / size α * size α :=
    (Nat.div_mul_cancel (Nat.dvd_of_mod_eq_zero (not_not.mp whole))).symm
  have length := length_elems (α := α) b 0 (b.length / size α)
  refine .inr ⟨rfl, sized, elems b 0 (b.length / size α), fun none => ?_, ?_⟩
  · rw [none, length_nil] at length
    rw [← length, Nat.zero_mul] at sized
    exact some_ sized
  · have values : ∀ e < (elems b 0 (b.length / size α) : List α).length, ¬ consumed e →
        fileElem α d path e = (elems b 0 (b.length / size α) : List α)[e]? := fun e inside _ => by
      have room : (e + 1) * size α ≤ b.length :=
        sized ▸ Nat.mul_le_mul_right _ (inside.trans_eq length)
      rw [fileElem_data found room, getElem?_eq_getElem inside, getElem_elems, Nat.zero_add]
    have holds := Holds.of_file b.length ⟨b, found, by rw [length, ← sized]⟩ values
    rwa [length] at holds

end SaveLoad

namespace Twins

/-- Both stores are `Empty`, as they were from the start, or both stand for one nonempty list. A
store of the first run in a file was loaded from it and appends at its end, and the other one is in
a file too. -/
inductive Agree (t : Twins α) : Prop
  | empty (memory : t.memory.store = .empty) (file : t.file.store = .empty)
      (disk : t.memory.disk = t.file.disk)
  | list (xs : List α) (some_ : xs ≠ []) (memory : Holds t.memory xs t.consumed)
    (file : Holds t.file xs t.consumed)
      (atEnd : AppendsAtEnd t.memory.store)
      (kinds : storePath t.file.store = none → storePath t.memory.store = none)

theorem Agree.len {t : Twins α} (h : t.Agree) : t.memory.store.len = t.file.store.len := by
  cases h with
  | empty memory file disk => rw [memory, file]
  | list xs some_ memory file => rw [memory.len, file.len]

def StepAgrees (t : Twins α) (op : StoreOp α) : Prop :=
  (t.step op).Agree ∧ (t.memory.step .memory op).2 = (t.file.step .file op).2

/-- A change both stores accept, with the same list afterwards. -/
theorem stepAgrees_of_becomes {t : Twins α} {op : StoreOp α} {ys : List α} (some_ : ys ≠ [])
    (atEnd : AppendsAtEnd t.memory.store)
    (kinds : storePath t.file.store = none → storePath t.memory.store = none)
    (memory : Becomes t.memory (t.memory.step .memory op) ys (t.step op).consumed)
    (file : Becomes t.file (t.file.step .file op) ys (t.step op).consumed) : t.StepAgrees op := by
  refine ⟨.list ys some_ memory.holds file.holds (memory.atEnd atEnd) fun vector => ?_, ?_⟩
  · exact memory.path.trans (kinds (file.path.symm.trans vector))
  · rw [memory.accepted, file.accepted]

/-- An operation that changes neither store, with the same answer. -/
theorem stepAgrees_of_read {t : Twins α} {op : StoreOp α} (h : t.Agree)
    (memory : (t.memory.step .memory op).1 = t.memory) (file : (t.file.step .file op).1 = t.file)
    (consumed : (t.step op).consumed = t.consumed)
    (same : (t.memory.step .memory op).2 = (t.file.step .file op).2) : t.StepAgrees op := by
  refine ⟨?_, same⟩
  have unchanged : t.step op = t := by
    simp only [step] at consumed ⊢
    rw [memory, file, consumed]
  rw [unchanged]
  exact h

section Steps

variable {t : Twins α}
variable {stop start : Nat}

/-- Both kinds start out with the same list, blank or empty. -/
theorem create_agrees (path : Path) {n : Nat} (fair : t.Fair (.create path n)) :
    t.StepAgrees (.create path n) := by
  have some_ : List.replicate n (blank α) ≠ [] := by simpa using Nat.ne_of_gt fair
  have vector : fromVec (List.replicate n (blank α)) = .inMemory (List.replicate n (blank α)) :=
    if_neg (by simpa using some_)
  refine ⟨.list (List.replicate n (blank α)) some_ ?_ ?_ ?_ nofun, rfl⟩
  · simp only [step, StoreSys.step, vector]
    exact Holds.of_vector _ _ _
  case refine_3 => simp only [step, StoreSys.step, vector, AppendsAtEnd]
  have made : FileHas α (t.file.disk.set path (.data (setLen (n * size α) []))) path
      (List.replicate n (blank α)).length := by
    rw [length_replicate]
    exact ⟨_, Disk.set_same _ _ _, length_setLen _ _⟩
  have zeros : ∀ e < (List.replicate n (blank α)).length, ¬ False →
      fileElem α (t.file.disk.set path (.data (setLen (n * size α) []))) path e =
        (List.replicate n (blank α))[e]? := by
    intro e inside _
    rw [length_replicate] at inside
    rw [fileElem_sized inside (Disk.set_same _ _ _), getElem?_replicate, if_pos inside]
  have holds := Holds.of_file 0 made zeros
  rw [length_replicate] at holds
  exact holds

/-- Both `Empty` stores answer a write alike, and become the same vector if it is accepted. -/
theorem emptyWrite_agrees {op : StoreOp α} (start : Nat) (data : List α)
    (memory : t.memory.store = .empty) (file : t.file.store = .empty)
    (disk : t.memory.disk = t.file.disk)
    (isWrite : ∀ kind (s : StoreSys α), s.store = .empty →
      s.step kind op = s.change (s.store.writeAt s.disk start data)) :
    t.StepAgrees op := by
  have first := isWrite .memory t.memory memory
  have second := isWrite .file t.file file
  rw [memory] at first
  rw [file] at second
  unfold StepAgrees step
  rw [first, second]
  unfold BackingStore.writeAt
  split
  · exact ⟨.empty rfl rfl disk, rfl⟩
  rename_i some_
  dsimp only
  split
  · exact ⟨.empty memory file disk, rfl⟩
  · exact ⟨.list data (by simpa using some_) (Holds.of_vector _ _ _) (Holds.of_vector _ _ _) trivial
      fun _ => rfl, rfl⟩

/-- The first run's store can hold a write that the second one's file can. -/
theorem memory_fits {xs : List α} (file : Holds t.file xs t.consumed)
    (kinds : storePath t.file.store = none → storePath t.memory.store = none) (fits : t.InFile stop)
    (path : Path) (own : storePath t.memory.store = some path) : stop ≤ xs.length := by
  cases there : storePath t.file.store with
  | none =>
    rw [kinds there] at own
    cases own
  | some p => exact file.len ▸ fits p there

variable (h : t.Agree)
include h

theorem writeAt_agrees {data : List α} (fair : t.Fair (.writeAt start data)) :
    t.StepAgrees (.writeAt start data) := by
  cases h with
  | empty memory file disk => exact emptyWrite_agrees start data memory file disk fun _ _ _ => rfl
  | list xs some_ memory file atEnd kinds =>
    exact stepAgrees_of_becomes (overwrite_ne_nil some_) atEnd kinds
      (writeAt_becomes memory fun more => memory_fits file kinds (fair more))
      (writeAt_becomes file fun more path own => file.len ▸ fair more path own)

theorem writeThrough_agrees {data : List α} (fair : t.Fair (.writeThrough start data)) :
    t.StepAgrees (.writeThrough start data) := by
  cases h with
  | empty memory file disk =>
    refine emptyWrite_agrees start data memory file disk fun _ s empty => ?_
    simp only [StoreSys.step, BackingStore.writeThrough, empty, BackingStore.writer]
  | list xs some_ memory file atEnd kinds =>
    exact stepAgrees_of_becomes (overwrite_ne_nil some_) atEnd kinds
      (writeThrough_becomes memory fun more => memory_fits file kinds (fair more))
      (writeThrough_becomes file fun more path own => file.len ▸ fair more path own)

theorem extend_agrees {ys : List α} (fair : t.Fair (.extend ys)) : t.StepAgrees (.extend ys) := by
  cases h with
  | empty memory file disk =>
    -- `extend` on `Empty` is a write at the front
    refine emptyWrite_agrees 0 ys memory file disk fun _ s empty => ?_
    simp [StoreSys.step, LazyEdaBits.extendStore, BackingStore.writeAt, empty]
  | list xs some_ memory file atEnd kinds =>
    exact stepAgrees_of_becomes (append_ne_nil_of_left_ne_nil some_ ys) atEnd kinds
      (extend_becomes memory fun _ => atEnd) (extend_becomes file fair)

theorem readView_agrees {outLen : Nat} (fair : t.Fair (.readView start stop outLen)) :
    t.StepAgrees (.readView start stop outLen) := by
  refine stepAgrees_of_read h rfl rfl rfl ?_
  simp only [StoreSys.step]
  cases h with
  | empty memory file disk => rw [memory, file]; rfl
  | list xs some_ memory file => rw [readIntoSlice_eq memory fair, readIntoSlice_eq file fair]

theorem readConsume_agrees (fair : t.Fair (.readConsume start stop)) :
    t.StepAgrees (.readConsume start stop) := by
  refine stepAgrees_of_read h rfl rfl rfl ?_
  simp only [StoreSys.step]
  cases h with
  | empty memory file disk => rw [memory, file]; rfl
  | list xs some_ memory file => rw [readConsume_eq memory fair, readConsume_eq file fair]

theorem readConsumeIntoSlice_agrees {outLen : Nat}
    (fair : t.Fair (.readConsumeIntoSlice start stop outLen)) :
    t.StepAgrees (.readConsumeIntoSlice start stop outLen) := by
  refine stepAgrees_of_read h rfl rfl rfl ?_
  simp only [StoreSys.step]
  cases h with
  | empty memory file disk => rw [memory, file]; rfl
  | list xs some_ memory file =>
    obtain ⟨fresh, short⟩ := fair
    rw [file.len] at short
    rw [readConsumeIntoSlice_eq memory fresh short, readConsumeIntoSlice_eq file fresh short]

theorem consume_agrees (os : Os) (start stop : Nat) : t.StepAgrees (.consume os start stop) := by
  cases h with
  | empty memory file disk =>
    refine ⟨.empty memory file ?_, rfl⟩
    simp only [step, StoreSys.step, memory, file, disk]
  | list xs some_ memory file atEnd kinds =>
    have same : (t.step (.consume os start stop)).consumed =
        fun e => t.consumed e ∨ stop ≤ xs.length ∧ start ≤ e ∧ e < stop := by
      funext e
      simp only [step, consumedBy, file.len]
    refine stepAgrees_of_becomes some_ atEnd kinds ?_ ?_
    · rw [same]
      exact consume_becomes memory
    · rw [same]
      exact consume_becomes file

theorem saveLoad_agrees (path : Path) : t.StepAgrees (.saveLoad path) := by
  cases h with
  | empty memory file disk =>
    -- nothing is saved, so both load what the disk has at the path
    unfold StepAgrees step
    simp only [StoreSys.step, memory, file, disk, saveToFile]
    cases loaded : loadFromFile α t.file.disk path with
    | error e => exact ⟨.empty rfl rfl rfl, trivial⟩
    | ok store =>
      rcases loadFromFile_holds loaded with rfl | ⟨own, atEnd, xs, some_, holds⟩
      · exact ⟨.empty rfl rfl rfl, trivial⟩
      · exact ⟨.list xs some_ holds holds atEnd fun vector => absurd (vector.symm.trans own) nofun,
          trivial⟩
  | list xs some_ memory file atEnd kinds =>
    obtain ⟨accepted, loaded, end_, -⟩ := saveLoad_holds .memory some_ memory path
    obtain ⟨accepted', loaded', -, own⟩ := saveLoad_holds .file some_ file path
    exact ⟨.list xs some_ loaded loaded' end_ fun vector => absurd (vector.symm.trans own) nofun,
      accepted.trans accepted'.symm⟩

/-- A fair operation is answered alike, and the stores agree afterwards. -/
theorem step_agrees {op : StoreOp α} (fair : t.Fair op) : t.StepAgrees op := by
  cases op with
  | create path n => exact create_agrees path fair
  | writeAt start data => exact writeAt_agrees h fair
  | writeThrough start data => exact writeThrough_agrees h fair
  | extend additional => exact extend_agrees h fair
  | readView start stop outLen => exact readView_agrees h fair
  | readConsume start stop => exact readConsume_agrees h fair
  | readConsumeIntoSlice start stop outLen => exact readConsumeIntoSlice_agrees h fair
  | consume os start stop => exact consume_agrees h os start stop
  | saveLoad path => exact saveLoad_agrees h path

end Steps

/-- A fair run shows a caller the same on both stores. -/
theorem observe_agrees {t : Twins α} (h : t.Agree) {ops : List (StoreOp α)} (fair : t.AllFair ops) :
    t.memory.observe .memory ops = t.file.observe .file ops := by
  induction ops generalizing t with
  | nil => rfl
  | cons op ops ih =>
    obtain ⟨here, later⟩ := fair
    obtain ⟨agree, answer⟩ := step_agrees h here
    have len := agree.len
    have rest := ih agree later
    simp only [StoreSys.observe]
    rw [answer]
    congr 1
    exact congrArg _ len

end Twins

/-- Two runs from nothing and from the same disk, one in memory and one in files. -/
def Twins.start (d : Disk) : Twins α := ⟨⟨.empty, d⟩, ⟨.empty, d⟩, fun _ => False⟩

/-- An `Empty` store hands out nothing: views and `read_consume_into_slice` refuse every nonempty
range, `read_consume` returns no elements. -/
theorem empty_reads (d : Disk) {start stop : Nat} (some_ : start < stop) (outLen : Nat) :
    ((BackingStore.empty : BackingStore α).readIntoSlice d start stop outLen).toOption = none ∧
      ((BackingStore.empty : BackingStore α).readConsumeIntoSlice d start stop outLen).toOption =
        none ∧
      (BackingStore.empty : BackingStore α).readConsume d start stop = .ok [] := by
  unfold readIntoSlice BackingStore.readConsumeIntoSlice
  by_cases sized : outLen = stop - start
  · have nonempty : outLen ≠ 0 := by omega
    simp only [if_neg (not_not_intro sized), if_pos nonempty]
    exact ⟨rfl, rfl, rfl⟩
  · rw [if_pos sized]
    exact ⟨rfl, rfl, rfl⟩

def somePath : Path := ⟨"pool", .dabitsStored⟩

/-- A store is created, filled through its writer, read in part, consumed in part and read on. -/
def fairRun : List (StoreOp (BitVec 8)) :=
  [.create somePath 3, .writeThrough 0 [1, 2, 3], .readConsume 0 1,
    .consume (fun _ => .punchHole) 0 1, .readView 1 3 2, .readConsumeIntoSlice 2 4 2]

end ProviaVM.Preprocessing
