import ProviaVM.Poly.EqPolynomial
import ProviaVM.Poly.OneHot
import ProviaVM.Poly.RaPoly

/-! # Committing to and evaluating a shared one-hot polynomial

`commit_rows`, `compute_v_vec_share` and `evaluate` of `one_hot_polynomial.rs`. The
polynomial has a 1 at `k_j * T + j` for each active cycle `j`; a party sees `k_j` under the
mask of the cycle's rotation slot and holds its share of the one-hot vector of each mask. -/
namespace ProviaVM.Poly
open Preprocessing Rep3 WalshHadamard Scatter Multilinear Finset List Option Nat

/-- `Rep3OneHotPolynomial` as one party holds it. -/
structure OneHotShare (F : Type) where
  K : Nat
  maskedIndicesC : List (Option (BitVec 8))
  rotationSlotByCycle : List (Option Nat)
  randOhvEFields : List (List (Rep3Share F))

namespace OneHotShare

variable {F G : Type}

def masked (self : OneHotShare F) (j : Nat) : Option Nat :=
  (self.maskedIndicesC.getD j none).map BitVec.toNat

/-- The slot and the masked index of an active cycle. -/
def slotted (self : OneHotShare F) (j : Nat) : Option (Nat × Nat) := do
  let c ← self.masked j
  let slot ← self.rotationSlotByCycle.getD j none
  return (slot, c)

def numRotationSlots (self : OneHotShare F) : Nat := self.randOhvEFields.length

/-- The own components of `rand_ohv_e_field(slot)`. -/
def eOwn (self : OneHotShare F) (slot : Nat) : List F :=
  (self.randOhvEFields.getD slot []).map (·.a)

section Commit

variable [Field F] [DecidableEq F] [AddCommGroup G] [Module F G]

def convolveRow (arch : TargetArch) (invK : F) (gHat : List F) (s : List G) : List G :=
  let s := List.zipWith (fun si (gi : F) => gi • si) (fwhtInPlace arch s) gHat
  (fwhtInPlace arch s).map (invK • ·)

/-- The rows of one chunk of cycles for all addresses, with a single rotation slot. -/
def alignedChunk (arch : TargetArch) (self : OneHotShare F) (invK : F) (rowLen : Nat)
    (bases : List G) (chunkIndex : Nat) :
    List G :=
  convolveRow arch invK (fwhtInPlace arch (self.eOwn 0))
    (scatter rowLen (fun col => self.masked (chunkIndex * rowLen + col)) (bases.getD · 0)
      (List.replicate self.K 0))

/-- The rows of one chunk of cycles for all addresses, slot by slot. -/
def alignedChunkSlots (arch : TargetArch) (self : OneHotShare F) (invK : F) (rowLen : Nat)
    (bases : List G) (chunkIndex : Nat) :
    List G :=
  let sBySlot :=
    scatterRows rowLen (fun col => self.slotted (chunkIndex * rowLen + col)) (bases.getD · 0)
    (List.replicate self.numRotationSlots (List.replicate self.K 0))
  (List.range self.numRotationSlots).foldl (fun rows slot => List.zipWith (· + ·) rows
    (convolveRow arch invK (fwhtInPlace arch (self.eOwn slot)) (sBySlot.getD slot [])))
      (List.replicate self.K 0)

/-- `G::msm_field_elements`; `none` is the error for different lengths. -/
def msmFieldElements (bases : List G) (scalars : List F) : Option G :=
  if bases.length = scalars.length then
    some (List.zipWith (fun b (s : F) => s • b) bases scalars).sum else none

def fallbackScalars (self : OneHotShare F) (t rowLen row : Nat) : List F :=
  (List.range rowLen).map fun col =>
    let globalIndex := row * rowLen + col
    let k := globalIndex / t
    match self.maskedIndicesC.getD (globalIndex % t) none,
      self.rotationSlotByCycle.getD (globalIndex % t) none with
    | some c, some slot => (self.eOwn slot).getD (c ^^^ BitVec.ofNat 8 k).toNat 0
    | _, _ => 0

/-- `commit_rows` with `DoryGlobals` giving `t` cycles and rows of length `rowLen`; `none` is an
error or a panic. -/
def commitRows (arch : TargetArch) (self : OneHotShare F) (t rowLen : Nat) (bases : List G) :
    Option (List G) :=
  if self.randOhvEFields.isEmpty ∨ ¬ self.randOhvEFields.all (fun e => e.length = self.K) then none
  else
    let numRows := t * self.K / rowLen
    if t % rowLen = 0 then do
      let invK ← inverse self.K
      let rowsPerK := t / rowLen
      let chunk := if self.numRotationSlots = 1 then alignedChunk arch self invK rowLen bases
        else alignedChunkSlots arch self invK rowLen bases
      -- `out[k * rows_per_k + chunk_index]` is entry `k` of the chunk
      return (List.range numRows).map fun row => (chunk (row % rowsPerK)).getD (row / rowsPerK) 0
    else (List.range numRows).mapM fun row =>
      msmFieldElements bases (self.fallbackScalars t rowLen row)

end Commit

section Open

variable [Field F] [DecidableEq F]

def convolution (arch : TargetArch) (self : OneHotShare F) (invK : F) (rowsPerK : Nat)
    (lVec : List F) (rowOffset slot : Nat) :
    List F :=
  let h := (List.range self.K).map fun k => lVec.getD (k * rowsPerK + rowOffset) 0
  let prod := List.zipWith (· * ·) (fwhtInPlace arch h) (fwhtInPlace arch (self.eOwn slot))
  (fwhtInPlace arch prod).map (· * invK)

/-- The sum over the cycles of one column, `(col_index..t).step_by(row_len)`. -/
def columnSum (t rowLen : Nat) (self : OneHotShare F) (conv : Nat → Nat → List F) (col : Nat) : F :=
  ∑ rowOffset ∈ Finset.range ((t - col + rowLen - 1) / rowLen),
    match self.slotted (col + rowOffset * rowLen) with
    | some (slot, c) => (conv rowOffset slot).getD c 0
    | none => 0

/-- One chunk of `v_vec` in the layout with several addresses for a row: all cycles and addresses
whose column lies in it. -/
def updateChunk (self : OneHotShare F) (t rowLen chunkSize : Nat) (coeff : F) (lVec : List F)
    (chunkIndex : Nat) (chunk : List F) : List F :=
  let place (i : Nat) := i % self.K * t + i / self.K
  scatter (t * self.K) (fun i =>
      let col := place i % rowLen
      if (self.slotted (i / self.K)).isSome ∧ chunkIndex * chunkSize ≤ col ∧
        col < chunkIndex * chunkSize + chunkSize ∧
        place i / rowLen < lVec.length then some (col % chunkSize) else none)
    (fun i => match self.slotted (i / self.K) with
      | some (slot, c) =>
          coeff * (self.eOwn slot).getD (i % self.K ^^^ c) 0 * lVec.getD (place i / rowLen) 0
      | none => 0) chunk

/-- `compute_v_vec_share`; `none` is a panic. -/
def computeVVecShare (arch : TargetArch) (threads : Nat) (self : OneHotShare F) (rowLen : Nat)
    (coeff : F) (lVec vVec : List F) :
    Option (List F) :=
  let t := self.maskedIndicesC.length
  if rowLen ≤ t then do
    let invK ← inverse self.K
    let conv := convolution arch self invK (t / rowLen) lVec
    return vVec.mapIdx fun col dest => dest + coeff * columnSum t rowLen self conv col
  else
    let numChunks := threads.nextPowerOfTwo
    let chunkSize := max 1 (rowLen / numChunks)
    let chunk (i : Nat) :=
      updateChunk self t rowLen chunkSize coeff lVec i ((vVec.drop (i * chunkSize)).take chunkSize)
    some ((List.range vVec.length).map fun pos =>
      (chunk (pos / chunkSize)).getD (pos % chunkSize) 0)

def shiftedTables (arch : TargetArch) (self : OneHotShare F) (table : List F) :
    Option (List (List (Rep3Share F))) :=
  self.randOhvEFields.mapM (shiftedTableFromRandOhv arch table)

/-- `evaluate`; `none` is a failed assertion. -/
def evaluate (arch : TargetArch) (self : OneHotShare F) (rAddress rCycle : List F) :
    Option (Rep3Share F) :=
  if rAddress.length ≠ self.K.log2 then none
  else do
    let eqCycle := eqEvals rCycle
    let tables ← self.shiftedTables arch (eqEvals rAddress)
    return (List.range self.maskedIndicesC.length).foldl (fun acc j => match self.slotted j with
      | some (slot, c) => acc + ((tables.getD slot []).getD c ⟨0, 0⟩).map (· * eqCycle.getD j 0)
      | none => acc) ⟨0, 0⟩

end Open

end OneHotShare

section Meaning

variable {F : Type} [Field F]

/-- Coefficient `i` of the one-hot polynomial of the indices `ks`: a 1 at `k_j * T + j` for each
active `j`. -/
def oneHotCoeff (F : Type) [Field F] (ks : List (Option Nat)) (i : Nat) : F :=
  if ks.getD (i % ks.length) none = some (i / ks.length) then 1 else 0

theorem oneHotCoeff_block (ks : List (Option Nat)) (k : Nat) {j : Nat} (inside : j < ks.length) :
    oneHotCoeff F ks (k * ks.length + j) = if ks.getD j none = some k then 1 else 0 := by
  rw [oneHotCoeff, mul_add_mod_self_right, Nat.mod_eq_of_lt inside, Nat.mul_comm k,
    mul_add_div (by omega), Nat.div_eq_of_lt inside, Nat.add_zero]

/-- The parties hold the one-hot polynomial of the indices `ks` below `2 ^ κ`: cycle `j` is opened
under the mask of its slot, of which they share the one-hot vector. -/
structure Represents (κ : Nat) (poly : PartyID → OneHotShare F) (ks : List (Option Nat))
    (slot mask : Nat → Nat) (slots : Nat) :
    Prop where
  width : κ ≤ 8
  size : ∀ p, (poly p).K = 2 ^ κ
  positive : 0 < slots
  slotCount : ∀ p, (poly p).numRotationSlots = slots
  cycles : ∀ p, (poly p).maskedIndicesC.length = ks.length
  opened : ∀ p j, (poly p).masked j = (ks.getD j none).map fun k => k ^^^ mask (slot j)
  active : ∀ p j k, ks.getD j none = some k → k < 2 ^ κ ∧ slot j < slots ∧
    (poly p).rotationSlotByCycle.getD j none = some (slot j)
  masks : ∀ s < slots, mask s < 2 ^ κ ∧
    VecShares (fun p => (poly p).randOhvEFields.getD s []) (oneHot (2 ^ κ) (mask s))

variable {κ : Nat} {poly : PartyID → OneHotShare F} {ks : List (Option Nat)} {slot mask : Nat → Nat}
  {slots : Nat}

namespace Represents

variable (rep : Represents κ poly ks slot mask slots)
include rep

theorem slotted (p : PartyID) (j : Nat) :
    (poly p).slotted j = (ks.getD j none).map fun k => (slot j, k ^^^ mask (slot j)) := by
  rw [OneHotShare.slotted, rep.opened]
  cases active : ks.getD j none with
  | none => rfl
  | some k =>
    rw [(rep.active p j k active).2.2]
    rfl

theorem eOwn_length (p : PartyID) {s : Nat} (inside : s < slots) :
    ((poly p).eOwn s).length = 2 ^ κ := by
  have length := (rep.masks s inside).2.length p
  rw [length_oneHot] at length
  rw [OneHotShare.eOwn, length_map]
  exact length

/-- The own components of a one-hot vector add up to it. -/
theorem eOwn_total {s i : Nat} (inside : s < slots) (small : i < 2 ^ κ) :
    total (fun p => ((poly p).eOwn s).getD i 0) = if i = mask s then 1 else 0 := by
  have sum := (rep.masks s inside).2.own.opens i (by rw [length_oneHot]; exact small)
  rwa [getD_oneHot _ small] at sum

/-- Of all slots and addresses, an active cycle meets exactly its own. -/
theorem meets {k : Nat} (p : PartyID) (j s : Nat) :
    (poly p).slotted j = some (s, k ^^^ mask s) ↔ ks.getD j none = some k ∧ slot j = s := by
  rw [rep.slotted]
  cases ks.getD j none with
  | none => simp
  | some k' =>
    simp only [map_some, Option.some.injEq, Prod.mk.injEq]
    constructor
    · rintro ⟨rfl, same⟩
      exact ⟨xor_left_inj.mp same, rfl⟩
    · rintro ⟨rfl, rfl⟩
      exact ⟨rfl, rfl⟩

/-- The assertions on the shared one-hot vectors. -/
theorem fields_checked (p : PartyID) :
    ¬ ((poly p).randOhvEFields.isEmpty ∨
      ¬ (poly p).randOhvEFields.all (fun e => e.length = (poly p).K)) := by
  rw [not_or, not_not]
  have count := rep.slotCount p
  rw [OneHotShare.numRotationSlots] at count
  have positive := rep.positive
  refine ⟨by rw [isEmpty_iff_length_eq_zero]; omega, all_eq_true.mpr fun e member => ?_⟩
  obtain ⟨s, bound, rfl⟩ := mem_iff_getElem.mp member
  have length := (rep.masks s (by omega)).2.length p
  rw [length_oneHot, getD_eq_getElem _ _ bound] at length
  simpa [rep.size] using length

end Represents

theorem vecSum_range {M : Type} [AddCommGroup M] {n : Nat} {f : PartyID → Nat → M} {g : Nat → M}
    (entries : ∀ i < n, total (fun p => f p i) = g i) :
    VecSum (fun p => (List.range n).map (f p)) ((List.range n).map g) := by
  refine ⟨fun p => by simp, fun i inside => ?_⟩
  simp only [length_map, length_range] at inside
  have at_ : ∀ h : Nat → M, ((List.range n).map h).getD i 0 = h i := by
    intro h
    rw [getD_eq_getElem _ _ (by simpa using inside), getElem_map, getElem_range]
  simpa only [at_] using entries i inside

theorem total_smul {M : Type} [AddCommGroup M] [Module F M] (f : PartyID → F) (x : M) :
    total (fun p => f p • x) = total f • x := by
  simp only [total, add_smul]

/-- The parties' convolutions with their components of a one-hot vector add up to a move by the
mask. -/
theorem Represents.total_convolution {M : Type} [AddCommGroup M] [Module F M]
    (rep : Represents κ poly ks slot mask slots) {s : Nat} (inside : s < slots) (h : Nat → M)
    (i : Nat) :
    total (fun p => ∑ a ∈ Finset.range (2 ^ κ), ((poly p).eOwn s).getD a 0 • h (i ^^^ a)) =
      h (i ^^^ mask s) := by
  rw [total_sum, ← sum_oneHot_smul (R := F) (rep.masks s inside).1 h]
  refine sum_congr rfl fun a small => ?_
  rw [total_smul, rep.eOwn_total inside (Finset.mem_range.mp small)]

section Commit

variable {G : Type} [AddCommGroup G] [Module F G] {arch : TargetArch}

open OneHotShare in
theorem getD_convolveRow (invertible : (2 ^ κ : F) ≠ 0) {g : List F} {s : List G}
    (glen : g.length = 2 ^ κ) (slen : s.length = 2 ^ κ) {i : Nat} (inside : i < 2 ^ κ) :
    (convolveRow arch (2 ^ κ : F)⁻¹ (fwhtInPlace arch g) s).getD i 0 =
      ∑ a ∈ Finset.range (2 ^ κ), g.getD a 0 • s.getD (i ^^^ a) 0 := by
  have gHat := length_fwht arch glen
  have sHat := length_fwht arch slen
  have plen :
      (List.zipWith (fun si (gi : F) => gi • si) (fwhtInPlace arch s) (fwhtInPlace arch g)).length =
      2 ^ κ := by
    simp [gHat, sHat]
  rw [← smul_getD_fwht arch glen slen plen inside invertible
    (fun c small => by rw [getD_zipWith _ (by omega) (by omega) 0 0]), convolveRow]
  rw [getD_eq_getElem _ _ (by rw [length_map, length_fwht arch plen]; exact inside),
    getD_eq_getElem _ _ (by rw [length_fwht arch plen]; exact inside), getElem_map]

open OneHotShare in
theorem length_convolveRow {g : List F} {s : List G} (glen : g.length = 2 ^ κ)
    (slen : s.length = 2 ^ κ) {invK : F} :
    (convolveRow arch invK (fwhtInPlace arch g) s).length = 2 ^ κ := by
  rw [convolveRow, length_map, length_fwht arch]
  simp [length_fwht arch glen, length_fwht arch slen]

/-- What a chunk of cycles contributes to an address. -/
def chunkSum (ks : List (Option Nat)) (rowLen : Nat) (bases : List G) (chunkIndex k : Nat) : G :=
  ∑ col ∈ Finset.range rowLen, if ks.getD (chunkIndex * rowLen + col) none = some k then
    bases.getD col 0 else 0

section Aligned

variable (rep : Represents κ poly ks slot mask slots) (invertible : (2 ^ κ : F) ≠ 0) (rowLen : Nat)
  (bases : List G) (chunkIndex : Nat) {k : Nat} (inside : k < 2 ^ κ)
include rep invertible inside

/-- One rotation slot: the cycles of a chunk at address `k`. -/
theorem alignedChunk_total (single : slots = 1) :
    total (fun p => ((poly p).alignedChunk arch (2 ^ κ : F)⁻¹ rowLen bases chunkIndex).getD k 0) =
      chunkSum ks rowLen bases chunkIndex k := by
  have zero : ∀ {j k}, ks.getD j none = some k → slot j = 0 := fun {j k} active => by
    have := (rep.active .ID0 j k active).2.1
    omega
  have key : ∀ p j, (poly p).masked j = (ks.getD j none).map fun k => k ^^^ mask 0 := by
    intro p j
    rw [rep.opened]
    cases active : ks.getD j none with
    | none => rfl
    | some k => rw [zero active]
  let h : Nat → G := fun c => ∑ col ∈ Finset.range rowLen,
    if ((ks.getD (chunkIndex * rowLen + col) none).map fun k => k ^^^ mask 0) = some c then
      bases.getD col 0 else 0
  have row : ∀ p, ((poly p).alignedChunk arch (2 ^ κ : F)⁻¹ rowLen bases chunkIndex).getD k 0 =
      ∑ a ∈ Finset.range (2 ^ κ), ((poly p).eOwn 0).getD a 0 • h (k ^^^ a) := by
    intro p
    rw [OneHotShare.alignedChunk, getD_convolveRow invertible (rep.eOwn_length p (by omega))
      (by simp [length_scatter, rep.size]) inside]
    refine sum_congr rfl fun a small => ?_
    have bound : k ^^^ a < 2 ^ κ := xor_lt_two_pow inside (Finset.mem_range.mp small)
    rw [getD_scatter _ _ _ (by rw [length_replicate, rep.size]; exact bound)]
    simp [h, key]
  rw [funext row, rep.total_convolution (by omega) h k]
  refine sum_congr rfl fun col _ => if_congr ?_ rfl rfl
  cases ks.getD (chunkIndex * rowLen + col) none with
  | none => simp
  | some k' => simp

/-- Several rotation slots: each cycle counts in its own slot. -/
theorem alignedChunkSlots_total :
    total (fun p => ((poly p).alignedChunkSlots arch (2 ^ κ : F)⁻¹ rowLen bases chunkIndex).getD
      k 0) =
      chunkSum ks rowLen bases chunkIndex k := by
  let h : Nat → Nat → G := fun s c => ∑ col ∈ Finset.range rowLen,
    if (poly .ID0).slotted (chunkIndex * rowLen + col) = some (s, c) then bases.getD col 0 else 0
  have same : ∀ p j, (poly p).slotted j = (poly .ID0).slotted j := fun p j => by
    rw [rep.slotted, rep.slotted]
  have row : ∀ p, ((poly p).alignedChunkSlots arch (2 ^ κ : F)⁻¹ rowLen bases chunkIndex).getD k 0 =
      ∑ s ∈ Finset.range slots, ∑ a ∈ Finset.range (2 ^ κ),
        ((poly p).eOwn s).getD a 0 • h s (k ^^^ a) := by
    intro p
    simp only [OneHotShare.alignedChunkSlots, rep.slotCount, rep.size]
    rw [getD_foldl_zipWith (fun s small =>
      length_convolveRow (rep.eOwn_length p small) (length_scatterRows_zero _ _ _ small))
      length_replicate inside, getD_replicate _ inside, zero_add]
    refine sum_congr rfl fun s small => ?_
    rw [Finset.mem_range] at small
    rw [getD_convolveRow invertible (rep.eOwn_length p small) (length_scatterRows_zero _ _ _ small)
      inside]
    refine sum_congr rfl fun a aSmall => ?_
    rw [getD_scatterRows_zero _ _ _ small (xor_lt_two_pow inside (Finset.mem_range.mp aSmall))]
    simp only [h, same]
  rw [funext row, total_sum]
  have slotSum : ∀ s ∈ Finset.range slots,
    total (fun p => ∑ a ∈ Finset.range (2 ^ κ), ((poly p).eOwn s).getD a 0 • h s (k ^^^ a)) =
      ∑ col ∈ Finset.range rowLen, if ks.getD (chunkIndex * rowLen + col) none = some k ∧
        slot (chunkIndex * rowLen + col) = s
        then bases.getD col 0 else 0 := by
    intro s inside
    rw [rep.total_convolution (Finset.mem_range.mp inside) (h s) k]
    exact sum_congr rfl fun col _ => if_congr (rep.meets .ID0 _ s) rfl rfl
  rw [sum_congr rfl slotSum, sum_comm]
  refine sum_congr rfl fun col _ => ?_
  by_cases active : ks.getD (chunkIndex * rowLen + col) none = some k
  · have own := (rep.active .ID0 _ k active).2.1
    simp only [active, true_and, if_true]
    rw [sum_ite_eq, if_pos (Finset.mem_range.mpr own)]
  · simp only [active, false_and, if_false, sum_const_zero]

end Aligned

def rowCommitment (F : Type) [Field F] [Module F G] (ks : List (Option Nat)) (rowLen : Nat)
    (bases : List G) (row : Nat) : G :=
  ∑ col ∈ Finset.range rowLen, oneHotCoeff F ks (row * rowLen + col) • bases.getD col 0

def rowCommitments (F : Type) [Field F] [Module F G] (κ : Nat) (ks : List (Option Nat))
    (rowLen : Nat) (bases : List G) : List G :=
  (List.range (ks.length * 2 ^ κ / rowLen)).map (rowCommitment F ks rowLen bases)

/-- With rows inside one address, row `k * rowsPerK + chunk` holds a chunk of cycles at address
`k`. -/
theorem rowCommitment_aligned {rowLen rowsPerK : Nat} (aligned : ks.length = rowsPerK * rowLen)
    (bases : List G) {row : Nat} (chunks : 0 < rowsPerK) :
    rowCommitment F ks rowLen bases row =
      chunkSum ks rowLen bases (row % rowsPerK) (row / rowsPerK) := by
  refine sum_congr rfl fun col small => ?_
  have inside : row % rowsPerK * rowLen + col < ks.length := by
    have chunk := mod_lt row chunks
    rw [aligned]
    calc row % rowsPerK * rowLen + col < (row % rowsPerK + 1) * rowLen := by
          rw [Nat.add_mul]
          have := Finset.mem_range.mp small
          omega
      _ ≤ rowsPerK * rowLen := Nat.mul_le_mul_right _ chunk
  have index :
      row * rowLen + col = row / rowsPerK * ks.length + (row % rowsPerK * rowLen + col) := by
    conv_lhs => rw [← Nat.div_add_mod row rowsPerK]
    rw [aligned]
    ring
  simp [index, oneHotCoeff_block ks _ inside]

theorem xor_mask_eq_iff (k m a : Nat) : k ^^^ m ^^^ a = m ↔ k = a := by
  have cancel : (k ^^^ a) ^^^ m = 0 ^^^ m ↔ k ^^^ a = 0 := xor_left_inj
  rwa [Nat.zero_xor, Nat.xor_eq_zero_iff, xor_right_comm] at cancel

/-- Column by column, the scalars of a row that crosses addresses add up to the plaintext
coefficients. -/
theorem fallbackScalars_total (rep : Represents κ poly ks slot mask slots) {rowLen row col : Nat}
    (small : col < rowLen) (address : (row * rowLen + col) / ks.length < 2 ^ κ) :
    total (fun p => ((poly p).fallbackScalars ks.length rowLen row).getD col 0) =
      oneHotCoeff F ks (row * rowLen + col) := by
  have inside : ∀ p, col < ((poly p).fallbackScalars ks.length rowLen row).length := fun p => by
    rwa [OneHotShare.fallbackScalars, length_map, length_range]
  rw [funext fun p => getD_eq_getElem _ _ (inside p), oneHotCoeff]
  simp only [OneHotShare.fallbackScalars, getElem_map, getElem_range]
  have opened := fun p => rep.opened p ((row * rowLen + col) % ks.length)
  simp only [OneHotShare.masked] at opened
  cases active : ks.getD ((row * rowLen + col) % ks.length) none with
  | none =>
    simp only [active, map_none, map_eq_none_iff] at opened
    simp only [opened]
    simp [total]
  | some k =>
    obtain ⟨kIn, own, -⟩ := rep.active .ID0 _ k active
    have maskIn := (rep.masks _ own).1
    have byte : (row * rowLen + col) / ks.length < 2 ^ 8 :=
      lt_of_lt_of_le address (Nat.pow_le_pow_right (by omega) rep.width)
    have entry : ∀ p, ∃ c : BitVec 8,
      (poly p).maskedIndicesC.getD ((row * rowLen + col) % ks.length) none = some c ∧
        c.toNat = k ^^^ mask (slot ((row * rowLen + col) % ks.length)) :=
      fun p => map_eq_some_iff.mp ((opened p).trans (by rw [active]; rfl))
    choose c found value using entry
    simp only [found, (rep.active _ _ k active).2.2, BitVec.toNat_xor, BitVec.toNat_ofNat,
      Nat.mod_eq_of_lt byte, value]
    rw [rep.eOwn_total own (xor_lt_two_pow (xor_lt_two_pow kIn maskIn) address)]
    refine if_congr ?_ rfl rfl
    simp [xor_mask_eq_iff]

/-- The shares of the row commitments of the polynomial. -/
def RowsCommitted [DecidableEq F] (arch : TargetArch) (κ : Nat) (poly : PartyID → OneHotShare F)
    (ks : List (Option Nat)) (rowLen : Nat) (bases : List G) : Prop :=
  ∃ out : PartyID → List G, (∀ p, (poly p).commitRows arch ks.length rowLen bases = some (out p)) ∧
    VecSum out (rowCommitments F κ ks rowLen bases)

/-- Aligned chunks and fallback rows commit to the same plaintext matrix. -/
theorem commitRows_total [DecidableEq F] (rep : Represents κ poly ks slot mask slots)
    (invertible : (2 ^ κ : F) ≠ 0) {rowLen : Nat} (columns : 0 < rowLen) (cycles : 0 < ks.length)
    {bases : List G} (generators : bases.length = rowLen) :
    RowsCommitted arch κ poly ks rowLen bases := by
  by_cases aligned : ks.length % rowLen = 0
  · obtain ⟨rowsPerK, multiple⟩ := dvd_of_mod_eq_zero aligned
    have perK : ks.length / rowLen = rowsPerK := by rw [multiple, Nat.mul_div_cancel_left _ columns]
    have chunks : 0 < rowsPerK := by
      by_contra none
      obtain rfl : rowsPerK = 0 := by omega
      omega
    have rows : ks.length * 2 ^ κ / rowLen = 2 ^ κ * rowsPerK := by
      rw [multiple, Nat.mul_assoc, Nat.mul_div_cancel_left _ columns, Nat.mul_comm]
    refine ⟨_, fun p => by
      rw [OneHotShare.commitRows, if_neg (rep.fields_checked p), if_pos aligned, rep.size,
        inverse_two_pow invertible, perK]
      exact rfl, vecSum_range fun row inside => ?_⟩
    have address : row / rowsPerK < 2 ^ κ := Nat.div_lt_of_lt_mul (by rwa [Nat.mul_comm, ← rows])
    rw [rowCommitment_aligned (by rw [multiple, Nat.mul_comm]) bases chunks]
    simp only [rep.slotCount]
    split
    · exact alignedChunk_total rep invertible rowLen bases _ address ‹_›
    · exact alignedChunkSlots_total rep invertible rowLen bases _ address
  · have msm :
      ∀ p row, OneHotShare.msmFieldElements bases ((poly p).fallbackScalars ks.length rowLen row) =
        some (∑ col ∈ Finset.range rowLen,
          ((poly p).fallbackScalars ks.length rowLen row).getD col 0 • bases.getD col 0) := by
      intro p row
      have length : ((poly p).fallbackScalars ks.length rowLen row).length = rowLen := by
        simp [OneHotShare.fallbackScalars]
      rw [OneHotShare.msmFieldElements, if_pos (generators.trans length.symm),
        sum_zipWith _ generators length 0 0]
    refine ⟨fun p => (List.range (ks.length * 2 ^ κ / rowLen)).map fun row => ∑ col ∈
      Finset.range rowLen, ((poly p).fallbackScalars ks.length rowLen row).getD col 0 •
      bases.getD col 0, fun p => ?_,
        vecSum_range fun row inside => ?_⟩
    · rw [OneHotShare.commitRows, if_neg (rep.fields_checked p), if_neg aligned, rep.size]
      simp only [msm]
      exact mapM_pure
    · rw [total_sum]
      refine sum_congr rfl fun col small => ?_
      rw [Finset.mem_range] at small
      rw [total_smul, fallbackScalars_total rep small]
      refine Nat.div_lt_of_lt_mul ?_
      calc row * rowLen + col < (row + 1) * rowLen := by rw [Nat.add_mul]; omega
        _ ≤ ks.length * 2 ^ κ / rowLen * rowLen := Nat.mul_le_mul_right _ inside
        _ ≤ ks.length * 2 ^ κ := Nat.div_mul_le_self _ _

end Commit

section Open

/-- Entry `col` of the product of a left vector with the coefficient matrix. -/
def vectorMatrix (κ : Nat) (ks : List (Option Nat)) (rowLen : Nat) (lVec : List F) (col : Nat) :
    F :=
  ∑ i ∈ Finset.range (2 ^ κ * ks.length),
    if i % rowLen = col then lVec.getD (i / rowLen) 0 * oneHotCoeff F ks i else 0

/-- A column in a chunk of columns, by its place there. -/
theorem place_in_chunk {size pos col : Nat} (positive : 0 < size) :
    pos / size * size ≤ col ∧ col < pos / size * size + size ∧ col % size = pos % size ↔
      col = pos := by
  constructor
  · rintro ⟨low, high, same⟩
    have quotient : col / size = pos / size :=
      Nat.div_eq_of_lt_le low (by rwa [Nat.add_mul, Nat.one_mul])
    rw [← Nat.div_add_mod col size, ← Nat.div_add_mod pos size, quotient, same]
  · rintro rfl
    have cut := Nat.div_add_mod' col size
    have rest := mod_lt col positive
    exact ⟨by omega, by omega, rfl⟩

theorem chunkKey_iff {size pos col : Nat} (positive : 0 < size) {row : Prop} [Decidable row] :
    (if pos / size * size ≤ col ∧ col < pos / size * size + size ∧ row then some (col % size)
      else none) = some (pos % size) ↔
      col = pos ∧ row := by
  rw [← place_in_chunk positive]
  constructor
  · intro found
    split at found
    · next chunk => exact ⟨⟨chunk.1, chunk.2.1, Option.some.inj found⟩, chunk.2.2⟩
    · cases found
  · rintro ⟨⟨low, high, same⟩, inside⟩
    rw [if_pos ⟨low, high, inside⟩, same]

section Product

variable [DecidableEq F]

/-- The shares of the left vector times the coefficient matrix, scaled and added to what was
there. -/
def VectorProduct (arch : TargetArch) (threads κ : Nat) (poly : PartyID → OneHotShare F)
    (ks : List (Option Nat)) (rowLen : Nat) (coeff : F) (lVec : List F) (v : PartyID → List F) :
    Prop :=
  ∃ out : PartyID → List F, (∀ p, (poly p).computeVVecShare arch threads rowLen coeff lVec (v p) =
    some (out p)) ∧
    VecSum out ((List.range rowLen).map fun col =>
      total (fun p => (v p).getD col 0) + coeff * vectorMatrix κ ks rowLen lVec col)

def Evaluated (arch : TargetArch) (poly : PartyID → OneHotShare F) (ks : List (Option Nat))
    (rAddress rCycle : List F) : Prop :=
  ∃ out : View F, (∀ p, (poly p).evaluate arch rAddress rCycle = some (out p)) ∧
    SumShares out (mle (rAddress ++ rCycle) (oneHotCoeff F ks))

end Product

variable (arch : TargetArch) (rep : Represents κ poly ks slot mask slots)
include rep

theorem Represents.sum_active (j : Nat) (f : Nat → F) :
    (∑ k ∈ Finset.range (2 ^ κ), if ks.getD j none = some k then f k else 0) =
      (ks.getD j none).elim 0 f := by
  cases active : ks.getD j none with
  | none => simp
  | some k =>
    have inside := (rep.active .ID0 j k active).1
    simp only [Option.some.injEq, elim_some]
    rw [sum_ite_eq, if_pos (Finset.mem_range.mpr inside)]

theorem Represents.vectorMatrix_eq (rowLen : Nat) (lVec : List F) (col : Nat) :
    vectorMatrix κ ks rowLen lVec col = ∑ j ∈ Finset.range ks.length,
      (ks.getD j none).elim 0 fun k =>
      if (k * ks.length + j) % rowLen = col then lVec.getD ((k * ks.length + j) / rowLen) 0
        else 0 := by
  rw [vectorMatrix, sum_blocks, sum_comm]
  refine sum_congr rfl fun j inside => ?_
  rw [← rep.sum_active j]
  refine sum_congr rfl fun k _ => ?_
  rw [oneHotCoeff_block ks k (Finset.mem_range.mp inside)]
  split <;> split <;> simp

/-- Several addresses in a row: each chunk of columns collects the cycles and addresses that fall in
it. -/
theorem updateChunk_total {rowLen size : Nat} (positive : 0 < size) (coeff : F)
    (lVec : List F) {v : PartyID → List F} {pos : Nat} (inside : ∀ p, pos < (v p).length) :
    total (fun p => ((poly p).updateChunk ks.length rowLen size coeff lVec (pos / size)
      (((v p).drop (pos / size * size)).take size)).getD (pos % size) 0) =
      total (fun p => (v p).getD pos 0) + coeff * vectorMatrix κ ks rowLen lVec pos := by
  have cut := Nat.div_add_mod' pos size
  have rest := mod_lt pos positive
  have before :
      ∀ p, (((v p).drop (pos / size * size)).take size).getD (pos % size) 0 = (v p).getD pos 0 := by
    intro p
    rw [getD_eq_getElem?_getD, getElem?_take_of_lt rest, getElem?_drop, cut,
      ← getD_eq_getElem?_getD]
  have bound : ∀ p, pos % size < (((v p).drop (pos / size * size)).take size).length := by
    intro p
    have := inside p
    rw [length_take, length_drop]
    omega
  have updated : ∀ p, ((poly p).updateChunk ks.length rowLen size coeff lVec (pos / size)
      (((v p).drop (pos / size * size)).take size)).getD (pos % size) 0 = (v p).getD pos 0 +
        ∑ j ∈ Finset.range ks.length, ∑ k ∈ Finset.range (2 ^ κ),
          if (k * ks.length + j) % rowLen = pos then ((poly p).slotted j).elim 0 fun place =>
            coeff * ((poly p).eOwn place.1).getD (k ^^^ place.2) 0 *
              lVec.getD ((k * ks.length + j) / rowLen) 0 else 0 := by
    intro p
    simp only [OneHotShare.updateChunk, rep.size]
    rw [getD_scatter _ _ _ (bound p), before p, sum_blocks]
    refine congrArg _ (sum_congr rfl fun j _ => sum_congr rfl fun k kIn => ?_)
    rw [Finset.mem_range] at kIn
    have address : (j * 2 ^ κ + k) % 2 ^ κ = k := by
      rw [mul_add_mod_self_right, Nat.mod_eq_of_lt kIn]
    have cycle : (j * 2 ^ κ + k) / 2 ^ κ = j := by
      rw [Nat.mul_comm, mul_add_div (by omega), Nat.div_eq_of_lt kIn, Nat.add_zero]
    rw [address, cycle]
    cases (poly p).slotted j with
    | none => simp
    | some place =>
      simp only [isSome_some, true_and, elim_some]
      rw [if_congr (chunkKey_iff positive) rfl rfl]
      by_cases same : (k * ks.length + j) % rowLen = pos
      · by_cases row : (k * ks.length + j) / rowLen < lVec.length
        · rw [if_pos ⟨same, row⟩, if_pos same]
        · rw [if_neg fun both => row both.2, if_pos same, getD_eq_default lVec _ (by omega),
            mul_zero]
      · rw [if_neg fun both => same both.1, if_neg same]
  simp only [updated]
  rw [total_add, total_sum]
  refine congrArg _ ?_
  rw [rep.vectorMatrix_eq, mul_sum]
  refine sum_congr rfl fun j _ => ?_
  simp only [total_sum, rep.slotted]
  cases active : ks.getD j none with
  | none => simp [total]
  | some k =>
    obtain ⟨kIn, own, -⟩ := rep.active .ID0 j k active
    have maskIn := (rep.masks _ own).1
    have product : ∀ k' < 2 ^ κ, ∀ x : F,
      total (fun p => coeff * ((poly p).eOwn (slot j)).getD (k' ^^^ (k ^^^ mask (slot j))) 0 * x) =
        if k = k' then coeff * x else 0 := by
      intro k' small x
      have sum := rep.eOwn_total own (xor_lt_two_pow small (xor_lt_two_pow kIn maskIn))
      rw [Nat.xor_comm k', if_congr (xor_mask_eq_iff k (mask (slot j)) k') rfl rfl] at sum
      have value := congrArg (fun y => coeff * y * x) sum
      rw [Nat.xor_comm k']
      simp only [total] at value ⊢
      rw [show coeff * (if k = k' then (1 : F) else 0) * x = if k = k' then coeff * x
        else 0 by split <;> ring] at value
      rw [← value]
      ring
    simp only [map_some, elim_some]
    rw [sum_eq_single k]
    · by_cases same : (k * ks.length + j) % rowLen = pos
      · simp only [if_pos same, product k kIn, if_true]
      · simp only [if_neg same, total, add_zero, mul_zero]
    · intro k' small other
      by_cases same : (k' * ks.length + j) % rowLen = pos
      · simp only [if_pos same, product k' (Finset.mem_range.mp small), if_neg other.symm]
      · simp only [if_neg same, total, add_zero]
    · intro outside
      exact absurd (Finset.mem_range.mpr kIn) outside

variable (invertible : (2 ^ κ : F) ≠ 0)
include invertible

/-- The parties' convolutions at a masked index add up to the left vector at the index. -/
theorem convolution_total (rowsPerK : Nat)
    (lVec : List F) (rowOffset : Nat) {j k : Nat} (active : ks.getD j none = some k) :
    total (fun p => ((poly p).convolution arch (2 ^ κ : F)⁻¹ rowsPerK lVec rowOffset (slot j)).getD
      (k ^^^ mask (slot j)) 0) =
      lVec.getD (k * rowsPerK + rowOffset) 0 := by
  obtain ⟨kIn, own, -⟩ := rep.active .ID0 j k active
  have maskIn := (rep.masks _ own).1
  have index : k ^^^ mask (slot j) < 2 ^ κ := xor_lt_two_pow kIn maskIn
  let h : List F := (List.range (2 ^ κ)).map fun k => lVec.getD (k * rowsPerK + rowOffset) 0
  have hlen : h.length = 2 ^ κ := by simp [h]
  have entry : ∀ i < 2 ^ κ, h.getD i 0 = lVec.getD (i * rowsPerK + rowOffset) 0 := by
    intro i small
    rw [getD_eq_getElem _ _ (by omega)]
    simp [h]
  have row : ∀ p, ((poly p).convolution arch (2 ^ κ : F)⁻¹ rowsPerK lVec rowOffset (slot j)).getD
    (k ^^^ mask (slot j)) 0 =
      ∑ a ∈ Finset.range (2 ^ κ), ((poly p).eOwn (slot j)).getD a 0 •
        h.getD (k ^^^ mask (slot j) ^^^ a) 0 := by
    intro p
    have glen := rep.eOwn_length p own
    have gHat := length_fwht arch glen
    have hHat := length_fwht arch hlen
    have plen :
        (List.zipWith (· * ·) (fwhtInPlace arch h)
        (fwhtInPlace arch ((poly p).eOwn (slot j)))).length = 2 ^ κ := by
      simp [gHat, hHat]
    rw [← smul_getD_fwht arch glen hlen plen index invertible fun c small => by
      rw [getD_zipWith _ (by omega) (by omega) 0 0, smul_eq_mul, mul_comm]]
    simp only [OneHotShare.convolution, rep.size]
    rw [getD_eq_getElem _ _ (by rw [length_map, length_fwht arch plen]; exact index), getElem_map,
      getD_eq_getElem _ _ (by rw [length_fwht arch plen]; exact index), smul_eq_mul, mul_comm]
  rw [funext row, rep.total_convolution own (fun i => h.getD i 0), xor_xor_cancel_right,
    entry k kIn]

/-- Rows inside one address: the cycles of a column, one for each row offset. -/
theorem columnSum_total {rowLen rowsPerK : Nat}
    (aligned : ks.length = rowsPerK * rowLen) (lVec : List F) {col : Nat} (small : col < rowLen) :
    total (fun p => OneHotShare.columnSum ks.length rowLen (poly p)
      ((poly p).convolution arch (2 ^ κ : F)⁻¹ rowsPerK lVec) col) =
        vectorMatrix κ ks rowLen lVec col := by
  have count : (ks.length - col + rowLen - 1) / rowLen = rowsPerK := by
    rcases Nat.eq_zero_or_pos rowsPerK with rfl | positive
    · rw [aligned, Nat.zero_mul, Nat.zero_sub, Nat.div_eq_of_lt (by omega)]
    · have whole : rowLen ≤ rowsPerK * rowLen := Nat.le_mul_of_pos_left _ positive
      have split : ks.length - col + rowLen - 1 = rowLen * rowsPerK + (rowLen - 1 - col) := by
        rw [Nat.mul_comm rowLen]
        omega
      rw [split, mul_add_div (by omega), Nat.div_eq_of_lt (by omega), Nat.add_zero]
  simp only [OneHotShare.columnSum, count]
  have byColumn : vectorMatrix κ ks rowLen lVec col =
      ∑ j ∈ Finset.range (rowsPerK * rowLen), if j % rowLen = col then
        (ks.getD j none).elim 0 (fun k => lVec.getD (k * rowsPerK + j / rowLen) 0) else 0 := by
    rw [rep.vectorMatrix_eq, aligned]
    refine sum_congr rfl fun j _ => ?_
    cases ks.getD j none with
    | none => simp
    | some k =>
      have index : k * (rowsPerK * rowLen) + j = rowLen * (k * rowsPerK) + j := by ring
      simp only [elim_some]
      rw [index, mul_add_mod, mul_add_div (by omega)]
  rw [byColumn, sum_remainder rowsPerK small, total_sum]
  refine sum_congr rfl fun rowOffset _ => ?_
  have quotient : (rowOffset * rowLen + col) / rowLen = rowOffset := by
    rw [Nat.mul_comm, mul_add_div (by omega), Nat.div_eq_of_lt small, Nat.add_zero]
  rw [quotient, Nat.add_comm col]
  simp only [rep.slotted]
  cases active : ks.getD (rowOffset * rowLen + col) none with
  | none => simp [total]
  | some k =>
    exact convolution_total arch rep invertible rowsPerK lVec rowOffset active

variable [DecidableEq F]

/-- The parties' vectors after `compute_v_vec_share` add up to the incoming vectors plus the scaled
product. -/
theorem computeVVecShare_total {ρ τ : Nat}
    (cycles : ks.length = 2 ^ τ) (threads : Nat) (coeff : F) (lVec : List F) {v : PartyID → List F}
    (columns : ∀ p, (v p).length = 2 ^ ρ) :
    VectorProduct arch threads κ poly ks (2 ^ ρ) coeff lVec v := by
  by_cases aligned : 2 ^ ρ ≤ ks.length
  · have le : ρ ≤ τ := by
      rw [cycles] at aligned
      exact (Nat.pow_le_pow_iff_right (by omega)).mp aligned
    have multiple : ks.length = 2 ^ (τ - ρ) * 2 ^ ρ := by
      rw [cycles, ← pow_add, Nat.sub_add_cancel le]
    have perK : ks.length / 2 ^ ρ = 2 ^ (τ - ρ) := by simp [multiple]
    refine ⟨fun p => (List.range (2 ^ ρ)).map fun col =>
      (v p).getD col 0 + coeff * OneHotShare.columnSum ks.length (2 ^ ρ) (poly p)
      ((poly p).convolution arch (2 ^ κ : F)⁻¹ (2 ^ (τ - ρ)) lVec) col, fun p => ?_,
        vecSum_range fun col small => ?_⟩
    · simp only [OneHotShare.computeVVecShare, rep.cycles, rep.size, if_pos aligned,
        inverse_two_pow invertible, perK]
      refine congrArg some (ext_getElem (by simp [columns]) fun col inside _ => ?_)
      rw [length_mapIdx] at inside
      simp [inside]
    · have product := columnSum_total arch rep invertible multiple lVec small
      rw [← product]
      simp only [total]
      ring
  · refine ⟨_, fun p => by simp only [OneHotShare.computeVVecShare, rep.cycles,
      if_neg aligned, columns]; exact rfl, vecSum_range fun pos small => ?_⟩
    exact updateChunk_total rep (by omega) coeff lVec fun p => by rw [columns]; exact small

/-- Each slot gets the table shifted by its own mask. -/
theorem shiftedTables_spec {table : List F}
    (length : table.length = 2 ^ κ) :
    ∃ tables : PartyID → List (List (Rep3Share F)),
      (∀ p, (poly p).shiftedTables arch table = some (tables p)) ∧
      ∀ s < slots, VecShares (fun p => (tables p).getD s []) (xorShifted (mask s) table) := by
  have each : ∀ s : Nat, ∃ out : PartyID → List (Rep3Share F), s < slots →
      (∀ p, shiftedTableFromRandOhv arch table ((poly p).randOhvEFields.getD s []) = some (out p)) ∧
        VecShares out (xorShifted (mask s) table) := by
    intro s
    by_cases inside : s < slots
    · obtain ⟨maskIn, shares⟩ := rep.masks s inside
      obtain ⟨out, runs, held⟩ := shiftedTableFromRandOhv_spec arch invertible length maskIn shares
      exact ⟨out, fun _ => ⟨runs, held⟩⟩
    · exact ⟨fun _ => [], fun h => absurd h inside⟩
  choose out spec using each
  refine ⟨fun p => (List.range slots).map fun s => out s p, fun p => ?_, fun s inside => ?_⟩
  · have count := rep.slotCount p
    rw [OneHotShare.numRotationSlots] at count
    have fields : (poly p).randOhvEFields = (List.range slots).map fun s =>
        (poly p).randOhvEFields.getD s [] := by
      refine ext_getElem (by simp [count]) fun s inside _ => ?_
      simp [inside]
    rw [OneHotShare.shiftedTables, fields, mapM_map]
    exact Run.mapM_some fun s inside => (spec s (List.mem_range.mp inside)).1 p
  · have held := (spec s inside).2
    have at_ : ∀ p, ((List.range slots).map fun s => out s p).getD s [] = out s p := by
      intro p
      rw [getD_eq_getElem _ _ (by simpa using inside), getElem_map, getElem_range]
    simpa only [at_] using held

/-- The parties' evaluations are a sharing of the multilinear evaluation. -/
theorem evaluate_total {rAddress rCycle : List F}
    (address : rAddress.length = κ) (cycles : ks.length = 2 ^ rCycle.length) :
    Evaluated arch poly ks rAddress rCycle := by
  have length : (eqEvals rAddress).length = 2 ^ κ := by rw [length_eqEvals, address]
  obtain ⟨tables, runs, shifted⟩ := shiftedTables_spec arch rep invertible length
  have value : mle (rAddress ++ rCycle) (oneHotCoeff F ks) = ∑ j ∈ Finset.range ks.length,
      (ks.getD j none).elim 0 fun k => (eqEvals rAddress).getD k 0 * (eqEvals rCycle).getD j 0 := by
    rw [mle_append, mle_eq_sum, address]
    simp only [mle_eq_sum rCycle, ← cycles, sum_mul]
    rw [sum_comm]
    refine sum_congr rfl fun j inside => ?_
    rw [← rep.sum_active j]
    refine sum_congr rfl fun k _ => ?_
    rw [oneHotCoeff_block ks k (Finset.mem_range.mp inside)]
    split <;> ring
  refine ⟨_, fun p => by
    rw [OneHotShare.evaluate, if_neg (by rw [rep.size, address]; simp), runs p]; exact rfl, ?_⟩
  rw [value]
  simp only [rep.cycles, rep.slotted]
  -- the accumulators of the parties stay a sharing of the partial sum
  suffices ∀ n, SumShares (fun p => (List.range n).foldl (fun acc j =>
      match (ks.getD j none).map fun k => (slot j, k ^^^ mask (slot j)) with
      | some (slot, c) =>
          acc + (((tables p).getD slot []).getD c ⟨0, 0⟩).map (· * (eqEvals rCycle).getD j 0)
      | none => acc) ⟨0, 0⟩) (∑ j ∈ Finset.range n,
        (ks.getD j none).elim 0 fun k =>
          (eqEvals rAddress).getD k 0 * (eqEvals rCycle).getD j 0) from this _
  intro n
  induction n with
  | zero => exact ⟨fun _ => rfl, by simp [total]⟩
  | succ n ih =>
    simp only [List.range_succ, List.foldl_append, List.foldl_cons, Finset.sum_range_succ]
    cases active : ks.getD n none with
    | none =>
      simp only [Option.elim_none, add_zero]
      exact ih
    | some k =>
      obtain ⟨kIn, own, -⟩ := rep.active .ID0 n k active
      have maskIn := (rep.masks _ own).1
      have index : k ^^^ mask (slot n) < (eqEvals rAddress).length := by
        rw [length]
        exact xor_lt_two_pow kIn maskIn
      have entry := (shifted _ own).entry (by rw [length_xorShifted]; exact index)
      rw [getD_xorShifted _ index, xor_xor_cancel_right] at entry
      exact ih.add (entry.mulPublic _)

end Open

variable {G : Type} [AddCommGroup G] [Module F G] [DecidableEq F]

/-- A shared one-hot polynomial commits and opens as the polynomial of its indices. -/
theorem oneHot_commits_and_opens (arch : TargetArch) (threads : Nat) {τ : Nat}
    (rep : Represents κ poly ks slot mask slots) (invertible : (2 ^ κ : F) ≠ 0)
    (cycles : ks.length = 2 ^ τ) (ρ : Nat) :
    (∀ bases : List G, bases.length = 2 ^ ρ → RowsCommitted arch κ poly ks (2 ^ ρ) bases) ∧
    (∀ (coeff : F) (lVec : List F) (v : PartyID → List F), (∀ p, (v p).length = 2 ^ ρ) →
      VectorProduct arch threads κ poly ks (2 ^ ρ) coeff lVec v) ∧
    (∀ rAddress rCycle : List F, rAddress.length = κ → rCycle.length = τ →
      Evaluated arch poly ks rAddress rCycle) := by
  have some_cycle : 0 < ks.length := by rw [cycles]; exact Nat.two_pow_pos τ
  refine ⟨fun bases generators => ?_, fun coeff lVec v columns => ?_,
    fun rAddress rCycle address cycle => ?_⟩
  · exact commitRows_total rep invertible (Nat.two_pow_pos ρ) some_cycle generators
  · exact computeVVecShare_total arch rep invertible cycles threads coeff lVec columns
  · exact evaluate_total arch rep invertible address (by rw [cycles, cycle])

/-- One active cycle at address 1, opened under the mask 1, and one idle cycle. -/
def twoCycles (p : PartyID) : OneHotShare ℚ where
  K := 2 ^ 1
  maskedIndicesC := [some 0, none]
  rotationSlotByCycle := [some 0, none]
  randOhvEFields := [promotedAt (oneHot (2 ^ 1) 1) p]

theorem twoCycles_represents :
    Represents 1 twoCycles [some 1, none] (fun _ => 0) (fun _ => 1) 1 where
  width := by decide
  size _ := rfl
  positive := by decide
  slotCount _ := rfl
  cycles _ := rfl
  opened _ j := by
    match j with
    | 0 => rfl
    | 1 => rfl
    | j + 2 => rfl
  active _ j k found := by
    match j, found with
    | 0, found =>
      obtain rfl : 1 = k := Option.some.inj found
      exact ⟨by decide, by decide, rfl⟩
    | 1, found => cases found
    | j + 2, found => simp at found
  masks s inside := by
    obtain rfl : s = 0 := by omega
    exact ⟨by decide, promotedAt_shares _⟩

theorem oneHot_commits_and_opens_twoCycles :
    RowsCommitted .x86_64 1 twoCycles [some 1, none] (2 ^ 1) [(3 : ℚ), 5] ∧
    VectorProduct .x86_64 4 1 twoCycles [some 1, none] (2 ^ 1) 2 [7, 11] (fun _ => [0, 0]) ∧
    Evaluated .x86_64 twoCycles [some 1, none] [2] [3] := by
  obtain ⟨commits, products, evaluates⟩ :=
    oneHot_commits_and_opens (G := ℚ) .x86_64 4 twoCycles_represents (by norm_num)
      (show [some 1, none].length = 2 ^ 1 from rfl) 1
  exact ⟨commits _ rfl, products _ _ _ fun _ => rfl, evaluates _ _ rfl rfl⟩

end Meaning

end ProviaVM.Poly
