import ProviaVM.Preprocessing.EdaBits
import ProviaVM.Lib.Framed

/-! # The elements a store holds

`storedAt` is the element a `BackingStore` holds at an index, in memory or in its file.
One lemma per operation says what it reads or which elements it can change; what is
proved about stores later uses these and not the byte layout. -/
namespace ProviaVM.Preprocessing
open ByteFile RawElem Framed BackingStore Disk List

variable {α : Type} [RawElem α]
variable {d d' : Disk} {path q : Path} {e start stop n : Nat} {store : BackingStore α} {xs : List α}
  {w : Write}

def fileElem (α : Type) [RawElem α] (d : Disk) (path : Path) (e : Nat) : Option α :=
  match d path with
  | some (.data b) => if (e + 1) * size α ≤ b.length then some (elemAt b e) else none
  | _ => none

def storedAt (store : BackingStore α) (d : Disk) (e : Nat) : Option α :=
  match store with
  | .inMemory v => v[e]?
  | .fileBacked path _ _ => fileElem α d path e
  | .empty => none

def storePath (store : BackingStore α) : Option Path :=
  match store with
  | .fileBacked path _ _ => some path
  | _ => none

theorem fileElem_data {b : List UInt8} (found : d path = some (.data b))
    (inside : (e + 1) * size α ≤ b.length) :
    fileElem α d path e = some (elemAt b e) := by
  simp [fileElem, found, inside]

theorem fileElem_congr (same : d' path = d path) (e : Nat) :
    fileElem α d' path e = fileElem α d path e := by
  simp [fileElem, same]

/-- What is stored depends only on the store's own file. -/
theorem storedAt_congr (same : ∀ path, storePath store = some path → d' path = d path) (e : Nat) :
    storedAt store d' e = storedAt store d e := by
  cases store with
  | inMemory v => rfl
  | empty => rfl
  | fileBacked path len append => exact fileElem_congr (same path rfl) e

/-- A store with a file holds the elements of the file. -/
theorem storedAt_of_path (own : storePath store = some path) (d : Disk) (e : Nat) :
    storedAt store d e = fileElem α d path e := by
  cases store with
  | inMemory v => cases own
  | empty => cases own
  | fileBacked p len append =>
    cases own
    rfl

/-- A nonempty store loaded from a file is backed by it. -/
theorem storePath_loadFromFile (h : loadFromFile α d path = .ok store) (nonempty : 0 < store.len) :
    storePath store = some path := by
  unfold loadFromFile at h
  split at h
  · split at h
    · cases h
      exact absurd nonempty (Nat.lt_irrefl 0)
    split at h
    · cases h
    · cases h
      rfl
  · cases h

theorem readFile_stored (h : readFile d path start stop = .ok xs) :
    xs.map some = (List.range (stop - start)).map fun i => fileElem α d path (start + i) := by
  unfold readFile at h
  split at h
  · rename_i nothing
    cases h
    rw [nothing]
    rfl
  split at h
  · rename_i b found
    split at h
    · rename_i bytes exact_
      cases h
      unfold readExact at exact_
      split at exact_
      · rename_i room
        rw [elems, map_map]
        apply map_congr_left
        intro i member
        have small : i < stop - start := mem_range.mp member
        have inside : (start + i + 1) * size α ≤ b.length := by
          calc (start + i + 1) * size α ≤ (start + (stop - start)) * size α :=
                Nat.mul_le_mul_right _ (by omega)
            _ = start * size α + (stop - start) * size α := Nat.add_mul _ _ _
            _ ≤ b.length := room
        exact (fileElem_data found inside).symm
      · cases exact_
    · cases h
  · cases h

omit [RawElem α] in
theorem memory_slice_stored {v : List α} (room : stop ≤ v.length) :
    ((v.drop start).take (stop - start)).map some = (List.range (stop - start)).map fun i =>
      v[start + i]? := by
  apply ext_getElem
  · simp only [length_take, length_drop, length_map, length_range]
    omega
  · intro i hi _
    simp only [getElem_map]
    simp

omit [RawElem α] in
theorem validateRange_ok (h : store.validateRange start stop = .ok ()) :
    start ≤ stop ∧ stop ≤ store.len := by
  unfold validateRange at h
  split at h
  · cases h
  split at h
  · cases h
  · omega

/-- A successful read returns what is stored in the range. -/
theorem readConsumeIntoSlice_stored {n : Nat}
    (h : store.readConsumeIntoSlice d start stop n = .ok xs) :
    xs.map some = (List.range (stop - start)).map fun i => storedAt store d (start + i) := by
  unfold readConsumeIntoSlice at h
  split at h
  · cases h
  cases store with
  | inMemory v =>
    obtain ⟨_, valid, last⟩ := Run.bind_ok.mp h
    cases last
    exact memory_slice_stored (validateRange_ok valid).2
  | fileBacked path len append =>
    dsimp only at h
    split at h
    · cases h
    · exact readFile_stored h
  | empty =>
    dsimp only at h
    split at h
    · cases h
    · cases h
      have nothing : stop - start = 0 := by omega
      rw [nothing]
      rfl

theorem readIntoSlice_stored {n : Nat} (h : store.readIntoSlice d start stop n = .ok xs) :
    xs.map some = (List.range (stop - start)).map fun i => storedAt store d (start + i) := by
  refine readConsumeIntoSlice_stored (n := n) ?_
  cases store with
  | inMemory v => exact h
  | fileBacked path len append =>
    unfold readIntoSlice at h
    split at h
    · cases h
    obtain ⟨_, valid, read⟩ := Run.bind_ok.mp h
    rw [readConsumeIntoSlice, if_neg ‹_›]
    exact (if_neg (Nat.not_lt.mpr (validateRange_ok valid).1)).trans read
  | empty => exact h

omit [RawElem α] in
/-- Values that were read, when it is known what is stored. -/
theorem eq_of_stored {stored : Nat → Option α} {f : Nat → α}
    (read : xs.map some = (List.range n).map stored) (holds : ∀ i < n, stored i = some (f i)) :
    xs = (List.range n).map f := by
  apply map_injective_iff.mpr (Option.some_injective α)
  rw [read, map_map]
  exact map_congr_left fun i member => holds i (mem_range.mp member)

/-- A durable write leaves element `e` of the file alone. -/
def Spares (α : Type) [RawElem α] (path : Path) (e : Nat) : Write → Prop
  | .zero p off len => p = path → (e + 1) * size α ≤ off ∨ off + len ≤ e * size α
  | .cursor _ _ => True

/-- A write that spares an element leaves it as it was. -/
theorem fileElem_apply (spares : Spares α path e w) :
    fileElem α (d.apply w) path e = fileElem α d path e := by
  cases w with
  | cursor p v =>
    rcases eq_or_ne path p with rfl | different
    · unfold fileElem Disk.apply updateCursor
      cases found : d path with
      | none => simp [found]
      | some content => cases content <;> simp [found]
    · exact fileElem_congr (updateCursor_ne v different) e
  | zero p off len =>
    rcases eq_or_ne path p with rfl | different
    · cases found : d path with
      | none => simp [Disk.apply, zeroBytes, found]
      | some content =>
        cases content with
        | header m => simp [Disk.apply, zeroBytes, found]
        | precacheMeta m => simp [Disk.apply, zeroBytes, found]
        | data b =>
          have zeroed : d.apply (.zero path off len) path = some (.data (zeroRange off len b)) :=
            zeroBytes_same off len found
          have apart := spares rfl
          rw [Nat.add_mul, Nat.one_mul] at apart
          have bytes : elemBytes α (zeroRange off len b) e = elemBytes α b e :=
            slice_zeroRange_of_disjoint apart
          simp only [fileElem, zeroed, found, length_zeroRange, elemAt, bytes]
    · exact fileElem_congr (zeroBytes_ne off len different) e

/-- Writes that all spare an element keep it. -/
theorem storedAt_applyAll {ws : List Write}
    (spares : ∀ path, storePath store = some path → ∀ w ∈ ws, Spares α path e w) :
    storedAt store (d.applyAll ws) e = storedAt store d e := by
  cases store with
  | inMemory v => rfl
  | empty => rfl
  | fileBacked path len append =>
    have keeps : ∀ w ∈ ws, ∀ d' : Disk, fileElem α d' path e = fileElem α d path e →
        fileElem α (d'.apply w) path e = fileElem α d path e := by
      intro w member d' held
      rw [fileElem_apply (spares path rfl w member), held]
    exact Run.applyAll_invariant keeps rfl

/-- Consuming a range spares the elements outside it. -/
theorem spares_of_mem_consume {os : Os} (member : w ∈ store.consume os start stop)
    (outside : e < start ∨ stop ≤ e) :
    Spares α path e w := by
  obtain ⟨p, len, append, off, n, -, rfl, -, -, low, high⟩ := mem_consume member
  intro _
  rcases outside with below | above
  · exact Or.inl (Nat.le_trans (Nat.mul_le_mul_right _ below) low)
  · exact Or.inr (Nat.le_trans high (Nat.mul_le_mul_right _ above))

/-- Consuming a store spares every other file. -/
theorem spares_of_mem_consume_other {β : Type} [RawElem β] {store : BackingStore β} {os : Os}
    (member : w ∈ store.consume os start stop) (other : storePath store ≠ some path) :
    Spares α path e w := by
  obtain ⟨p, len, append, off, n, rfl, rfl, -⟩ := mem_consume member
  intro same
  exact absurd (congrArg some same) other

theorem spares_of_mem_persistTo {metaPath : Option Path} {cursor : Nat}
    (member : w ∈ persistTo metaPath cursor) :
    Spares α path e w := by
  cases metaPath with
  | none => cases member
  | some p =>
    obtain rfl := mem_singleton.mp member
    trivial

def FileHas (α : Type) [RawElem α] (d : Disk) (path : Path) (n : Nat) : Prop :=
  ∃ b, d path = some (.data b) ∧ b.length = n * size α

theorem FileHas.congr (file : FileHas α d path n) (same : d' path = d path) :
    FileHas α d' path n := by
  obtain ⟨b, found, sized⟩ := file
  exact ⟨b, same.trans found, sized⟩

/-- What consumption leaves of a file: a data file keeps its length, a metadata record changes in
its cursor at most, a precache record not at all. -/
def SameContent : Option Content → Option Content → Prop
  | none, none => True
  | some (.data b), some (.data b') => b'.length = b.length
  | some (.header m), some (.header m') => m' = { m with cursor := m'.cursor }
  | some (.precacheMeta m), some (.precacheMeta m') => m' = m
  | _, _ => False

theorem SameContent.refl (x : Option Content) : SameContent x x := by
  rcases x with _ | b | m | m
  · trivial
  · rfl
  · rfl
  · rfl

theorem SameContent.trans {x y z : Option Content} (h : SameContent x y) (h' : SameContent y z) :
    SameContent x z := by
  rcases x with _ | b | m | m <;> rcases y with _ | b' | m' | m' <;>
    rcases z with _ | b'' | m'' | m'' <;>
    simp only [SameContent] at h h' ⊢
  · rw [h', h]
  · rw [h', h]
  · rw [h', h]

theorem apply_sameContent (d : Disk) (w : Write) (q : Path) : SameContent (d q) (d.apply w q) := by
  cases w with
  | zero p off len =>
    rcases eq_or_ne q p with rfl | different
    · cases found : d q with
      | none => simp [Disk.apply, zeroBytes, found, SameContent]
      | some content => cases content <;> simp [Disk.apply, zeroBytes, found, SameContent]
    · have same : d.apply (.zero p off len) q = d q := zeroBytes_ne off len different
      rw [same]
      exact SameContent.refl _
  | cursor p value =>
    rcases eq_or_ne q p with rfl | different
    · cases found : d q with
      | none => simp [Disk.apply, updateCursor, found, SameContent]
      | some content => cases content <;> simp [Disk.apply, updateCursor, found, SameContent]
    · have same : d.apply (.cursor p value) q = d q := updateCursor_ne value different
      rw [same]
      exact SameContent.refl _

theorem applyAll_sameContent (d : Disk) (ws : List Write) (q : Path) :
    SameContent (d q) (d.applyAll ws q) := by
  have keeps : ∀ w ∈ ws, ∀ e : Disk, SameContent (d q) (e q) → SameContent (d q) (e.apply w q) :=
    fun w _ e same => same.trans (apply_sameContent e w q)
  exact Run.applyAll_invariant keeps (SameContent.refl _)

/-- Consumption changes a metadata record only in its cursor. -/
theorem header_applyAll {m : MetaData} (ws : List Write) (found : d q = some (.header m)) :
    ∃ cursor, d.applyAll ws q = some (.header { m with cursor := cursor }) := by
  have same := applyAll_sameContent d ws q
  rw [found] at same
  rcases after : d.applyAll ws q with _ | b | m' | m' <;> rw [after] at same <;>
    simp only [SameContent] at same
  exact ⟨m'.cursor, by rw [same]⟩

theorem header_of_applyAll {m' : MetaData} {ws : List Write}
    (found : d.applyAll ws q = some (.header m')) :
    ∃ m, d q = some (.header m) ∧ m' = { m with cursor := m'.cursor } := by
  have same := applyAll_sameContent d ws q
  rw [found] at same
  rcases before : d q with _ | b | m | m <;> rw [before] at same <;> simp only [SameContent] at same
  exact ⟨m, rfl, same⟩

theorem precacheMeta_applyAll {m : EdaBitsPrecacheMeta} (ws : List Write) :
    d.applyAll ws q = some (.precacheMeta m) ↔ d q = some (.precacheMeta m) := by
  have same := applyAll_sameContent d ws q
  rcases before : d q with _ | b | h | m' <;> rcases after :
    d.applyAll ws q with _ | b' | h' | m'' <;>
    rw [before, after] at same <;> simp only [SameContent] at same <;> simp
  rw [same]

/-- Consumption keeps the length of every data file. -/
theorem fileHas_applyAll (ws : List Write) (file : FileHas α d q n) :
    FileHas α (d.applyAll ws) q n := by
  obtain ⟨b, found, sized⟩ := file
  have same := applyAll_sameContent d ws q
  rw [found] at same
  rcases after : d.applyAll ws q with _ | b' | m' | m' <;> rw [after] at same <;>
    simp only [SameContent] at same
  exact ⟨b', after, same.trans sized⟩

/-- What an element reads as in a file that was only sized. -/
def blank (α : Type) [RawElem α] : α := ofBytes (List.replicate (size α) 0)

theorem fileElem_sized (inside : e < n)
    (found : d path = some (.data (ByteFile.setLen (n * size α) []))) :
    fileElem α d path e = some (blank α) := by
  have room : (e + 1) * size α ≤ n * size α := Nat.mul_le_mul_right _ inside
  rw [fileElem_data found (by rw [length_setLen]; exact room)]
  have zeros : ByteFile.setLen (n * size α) [] = List.replicate (n * size α) 0 := by
    simp [ByteFile.setLen]
  have count : min (size α) (n * size α - e * size α) = size α := by
    rw [Nat.add_mul] at room
    omega
  simp [elemAt, elemBytes, zeros, slice, count, blank]

theorem loadFromFile_of_fileHas (positive : 0 < n) (file : FileHas α d path n) :
    loadFromFile α d path = .ok (.fileBacked path n (n * size α)) := by
  obtain ⟨b, found, sized⟩ := file
  have some_ : b.length ≠ 0 := by
    rw [sized]
    exact Nat.ne_of_gt (Nat.mul_pos positive size_pos)
  have whole : ¬ (b.length % size α ≠ 0) := by
    rw [sized, Nat.mul_mod_left]
    exact not_not_intro rfl
  simp only [loadFromFile, found, if_neg some_, if_neg whole]
  rw [sized, Nat.mul_div_cancel _ size_pos]

/-- A write inside the file sets the written elements and no others. -/
theorem writeAt_ok {w : FileBackedWriter} (h : w.writeAt d start xs = .ok d')
    (room : FileHas α d w.path w.len) :
    FileHas α d' w.path w.len ∧ (∀ q, q ≠ w.path → d' q = d q) ∧
      (∀ i (inside : i < xs.length), fileElem α d' w.path (start + i) = some xs[i]) ∧
      ∀ e, e < start ∨ start + xs.length ≤ e → fileElem α d' w.path e = fileElem α d w.path e := by
  unfold FileBackedWriter.writeAt at h
  split at h
  · rename_i nothing
    cases h
    rw [List.isEmpty_iff.mp nothing]
    exact ⟨room, fun _ _ => rfl, fun i inside => absurd inside (Nat.not_lt_zero i), fun _ _ => rfl⟩
  split at h
  · cases h
  obtain ⟨b, found, sized⟩ := room
  rw [found] at h
  cases h
  have upTo : (start + xs.length) * size α ≤ b.length :=
    Nat.le_trans (Nat.mul_le_mul_right _ (by omega)) (Nat.le_of_eq sized.symm)
  have startFits : start * size α ≤ b.length :=
    Nat.le_trans (Nat.mul_le_mul_right _ (Nat.le_add_right _ _)) upTo
  have length : (ByteFile.writeAt (start * size α) (bytesOf xs) b).length = b.length :=
    length_writeAt (by rw [length_bytesOf, ← Nat.add_mul]; exact upTo)
  refine ⟨⟨_, set_same _ _ _, length.trans sized⟩, fun q different => set_ne _ different, ?_, ?_⟩
  · intro i inside
    have end_ : (start + i + 1) * size α ≤ b.length :=
      Nat.le_trans (Nat.mul_le_mul_right _ (by omega)) upTo
    rw [fileElem_data (set_same _ _ _) (length ▸ end_), elemAt_writeAt_inside startFits inside]
  · intro e outside
    simp only [fileElem, set_same, found, length, elemAt_writeAt_of_outside startFits outside]

/-- Some piece of the list, placed at `base`, contains element `e`. -/
def Covered {ι : Type} (ps : List (Piece ι)) (base e : Nat) : Prop :=
  ∃ p ∈ ps, base + p.start ≤ e ∧ e < base + p.start + p.len

/-- Writing pieces of a stream: the covered elements are the stream's, the others stay. -/
theorem writePieces_ok {ι : Type} {w : FileBackedWriter} {f : Nat → α} {base : Nat}
    {ps : List (Piece ι)}
    (h : ps.foldlM (fun d p => w.writeAt d (base + p.start) (p.data f)) d = .ok d')
    (room : FileHas α d w.path w.len) :
    FileHas α d' w.path w.len ∧ (∀ q, q ≠ w.path → d' q = d q) ∧
      (∀ e, Covered ps base e → fileElem α d' w.path e = some (f (e - base))) ∧
      ∀ e, ¬ Covered ps base e → fileElem α d' w.path e = fileElem α d w.path e := by
  induction ps generalizing d with
  | nil =>
    cases h
    refine ⟨room, fun _ _ => rfl, fun e covered => ?_, fun _ _ => rfl⟩
    obtain ⟨p, member, -⟩ := covered
    cases member
  | cons p ps ih =>
    obtain ⟨d₁, first, rest⟩ := Run.bind_ok.mp h
    obtain ⟨room₁, frame₁, set₁, kept₁⟩ := writeAt_ok first room
    obtain ⟨room₂, frame₂, set₂, kept₂⟩ := ih rest room₁
    refine ⟨room₂, fun q different => (frame₂ q different).trans (frame₁ q different), ?_, ?_⟩
    · intro e covered
      by_cases later : Covered ps base e
      · exact set₂ e later
      · obtain ⟨q, member, low, high⟩ := covered
        rcases mem_cons.mp member with rfl | inRest
        · have inside : e - (base + q.start) < (q.data f).length := by
            rw [Piece.length_data]
            omega
          have here := set₁ _ inside
          rw [show base + q.start + (e - (base + q.start)) = e by omega] at here
          rw [kept₂ e later, here]
          simp only [Piece.data, getElem_map, getElem_range]
          congr 2
          omega
        · exact absurd ⟨q, inRest, low, high⟩ later
    · intro e notCovered
      have notLater : ¬ Covered ps base e := by
        rintro ⟨q, member, bounds⟩
        exact notCovered ⟨q, mem_cons_of_mem _ member, bounds⟩
      rw [kept₂ e notLater]
      apply kept₁
      rw [Piece.length_data]
      by_contra inside
      exact notCovered ⟨p, mem_cons_self, by omega, by omega⟩

end ProviaVM.Preprocessing
