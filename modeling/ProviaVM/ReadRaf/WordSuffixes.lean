import ProviaVM.ReadRaf.BitSuffixes

/-! # Suffixes of whole words

The arms of `eval_suffix_interleaved`, which read the lookup bits as one word of the ring
`T`. A public index goes through `suffix_mle`. A shared one is cut to the suffix bits, and
each arm computes in the full ring, in the half ring or in 32 bits. `Rev8W` is the arm that
does not keep every bit: it reverses the low 32 bits, where the plaintext reverses two
words of 32 bits. -/
namespace ProviaVM.ReadRaf
open Instruction Rep3 Preprocessing Sumcheck LookupBits List

/-! ## Bytes in reverse order -/

theorem getLsbD_placed (v : BitVec 32) (i j k : Nat) :
    (((v >>> (8 * i)) &&& 0xff#32) <<< (8 * j)).getLsbD k =
      (decide (k < 32) && (decide (k / 8 = j) && v.getLsbD (8 * i + k % 8))) := by
  have mask : ∀ n, (0xff#32).getLsbD n = decide (n < 8) := fun n =>
    ParallelPrefix.getLsbD_lowMask (n := 8) (by decide)
  rw [BitVec.getLsbD_shiftLeft, BitVec.getLsbD_and, mask]
  by_cases here : k / 8 = j
  · have inByte : k - 8 * j = k % 8 := by omega
    have above : ¬ k < 8 * j := by omega
    simp [here, above, inByte, Nat.mod_lt]
  · have outside : k < 8 * j ∨ ¬ k - 8 * j < 8 := by omega
    rcases outside with outside | outside <;> simp [here, outside]

theorem getLsbD_last (v : BitVec 32) (k : Nat) :
    ((v >>> (8 * 3)) &&& 0xff#32).getLsbD k =
      (decide (k < 32) && (decide (k / 8 = 0) && v.getLsbD (8 * 3 + k % 8))) := by
  have placed := getLsbD_placed v 3 0 k
  rwa [BitVec.shiftLeft_zero] at placed

theorem getLsbD_swapBytes (v : BitVec 32) {k : Nat} (inside : k < 32) :
    (swapBytes v).getLsbD k = v.getLsbD (8 * (3 - k / 8) + k % 8) := by
  show ((((v >>> (8 * 0)) &&& 0xff#32) <<< (8 * 3)) |||
    (((v >>> (8 * 1)) &&& 0xff#32) <<< (8 * 2)) |||
    (((v >>> (8 * 2)) &&& 0xff#32) <<< (8 * 1)) ||| ((v >>> (8 * 3)) &&& 0xff#32)).getLsbD k = _
  simp only [BitVec.getLsbD_or, getLsbD_placed, getLsbD_last, inside]
  have byte : k / 8 = 0 ∨ k / 8 = 1 ∨ k / 8 = 2 ∨ k / 8 = 3 := by omega
  rcases byte with place | place | place | place <;> simp [place]

/-- The bytes do not overlap, so their XOR is the word in reverse order. -/
theorem swapBytes_eq_xor (v : BitVec 32) :
    swapBytes v = (((v >>> (8 * 0)) &&& 0xff#32) <<< (8 * 3)) ^^^
      (((v >>> (8 * 1)) &&& 0xff#32) <<< (8 * 2)) ^^^
      (((v >>> (8 * 2)) &&& 0xff#32) <<< (8 * 1)) ^^^ ((v >>> (8 * 3)) &&& 0xff#32) := by
  refine BitVec.eq_of_getLsbD_eq fun k inside => ?_
  rw [getLsbD_swapBytes v inside]
  simp only [BitVec.getLsbD_xor, getLsbD_placed, getLsbD_last, inside]
  have byte : k / 8 = 0 ∨ k / 8 = 1 ∨ k / 8 = 2 ∨ k / 8 = 3 := by omega
  rcases byte with place | place | place | place <;> simp [place]

theorem swapBytes_eq_zero {v : BitVec 32} : swapBytes v = 0 ↔ v = 0 := by
  constructor
  · intro zero
    refine BitVec.eq_of_getLsbD_eq fun i inside => ?_
    have moved := getLsbD_swapBytes v (k := 8 * (3 - i / 8) + i % 8) (by omega)
    rw [zero, show 8 * (3 - (8 * (3 - i / 8) + i % 8) / 8) + (8 * (3 - i / 8) + i % 8) % 8 =
      i by omega] at moved
    rw [← moved]
    simp
  · rintro rfl
    decide

/-- Reversing the bytes of the shares reverses those of the word. -/
theorem reverseBytes_spec {w : Nat} {x : View (BitVec w)} {s : BitVec w} (h : XorShares x s) :
    XorShares (reverseBytes x) (swapBytes (s.setWidth 32)) := by
  have byte : ∀ i, XorShares _ ((s.setWidth 32 >>> (8 * i)) &&& 0xff#32) := fun i =>
    ((h.setWidth 32).shiftRight (8 * i)).and_public 0xff#32
  rw [swapBytes_eq_xor]
  exact ((((byte 0).shiftLeft 24).xor ((byte 1).shiftLeft 16)).xor ((byte 2).shiftLeft 8)).xor
    (byte 3)

/-- The two words of a plaintext `Rev8W`. -/
theorem toNat_rev8w (v : BitVec 64) :
    (rev8w v).toNat = (swapBytes (v.setWidth 32)).toNat +
      (swapBytes ((v >>> 32).setWidth 32)).toNat * 2 ^ 32 := by
  simp only [rev8w, BitVec.toNat_add, BitVec.toNat_shiftLeft, BitVec.toNat_setWidth]
  omega

/-! ## Powers of two -/

section Powers

variable {F : Type} [Field F] {w : Nat} {ι : Type} {items : List ι}

/-- The entry of a table of `n` rows for every item. -/
theorem getElem?_flatMap_range {β : Type} (f : ι → Nat → β) {n s : Nat} (inside : s < n) {j : Nat}
    {c : ι} (at_j : items[j]? = some c) :
    (items.flatMap fun c => (List.range n).map (f c))[j * n + s]? = some (f c s) := by
  induction items generalizing j with
  | nil => cases at_j
  | cons first rest ih =>
    rw [flatMap_cons]
    have row : ((List.range n).map (f first)).length = n := by simp
    cases j with
    | zero =>
      cases at_j
      rw [Nat.zero_mul, Nat.zero_add, getElem?_append_left (by rw [row]; exact inside),
        getElem?_map, getElem?_range inside]
      rfl
    | succ j =>
      have past : (j + 1) * n + s = n + (j * n + s) := by ring
      rw [past, getElem?_append_right (by omega), row, Nat.add_sub_cancel_left]
      exact ih at_j

theorem forall₂_getD {α β : Type} {R : α → β → Prop} {as : List α} {bs : List β}
    (h : Forall₂ R as bs) {i : Nat} {b : β} (at_i : bs[i]? = some b) (d : α) :
    R (as.getD i d) b := by
  induction h generalizing i with
  | nil => cases at_i
  | cons first _ ih =>
    cases i with
    | zero =>
      cases at_i
      exact first
    | succ i => exact ih at_i

theorem SumShares.foldl_range {n : Nat} {x : Nat → View F} {v : Nat → F}
    (each : ∀ s < n, SumShares (x s) (v s)) :
    SumShares ((List.range n).foldl (fun acc s => acc.map₂ (· + ·) (x s)) fun _ => ⟨0, 0⟩)
      (∑ s ∈ Finset.range n, v s) := by
  induction n with
  | zero =>
    exact ⟨fun _ => rfl, by simp [total]⟩
  | succ n ih =>
    rw [range_succ, List.foldl_concat, Finset.sum_range_succ]
    exact (ih fun s below => each s (by omega)).add (each n (by omega))

/-- Only the row of the shift amount itself is one. -/
theorem sum_powers {shift : BitVec w} {numBits : Nat} (small : shift.toNat < 2 ^ numBits)
    (narrow : numBits ≤ w) :
    ∑ s ∈ Finset.range (2 ^ numBits),
      ((BitVec.ofBool (decide (shift ^^^ BitVec.ofNat w s = 0))).toNat : F) * ((2 ^ s : Nat) : F) =
      ((2 ^ shift.toNat : Nat) : F) := by
  have row : ∀ s ∈ Finset.range (2 ^ numBits),
      ((BitVec.ofBool (decide (shift ^^^ BitVec.ofNat w s = 0))).toNat : F) * ((2 ^ s : Nat) : F) =
        if shift.toNat = s then ((2 ^ s : Nat) : F) else 0 := fun s mem => by
    have inside : s < 2 ^ w :=
      (Finset.mem_range.mp mem).trans_le (Nat.pow_le_pow_right (by decide) narrow)
    have same : shift ^^^ BitVec.ofNat w s = 0 ↔ shift.toNat = s := by
      rw [xor_eq_zero, ← BitVec.toNat_inj, BitVec.toNat_ofNat, Nat.mod_eq_of_lt inside]
    simp only [cast_ofBool, decide_eq_true_eq, same, ite_mul, one_mul, zero_mul]
  rw [Finset.sum_congr rfl row, Finset.sum_ite_eq, if_pos (Finset.mem_range.mpr small)]

/-- Every amount is compared with the shift, and the power of the only match is selected. -/
theorem evalPow2FromShiftBitsReady_spec [PowerOfTwo w] {shiftVals : List (View (BitVec w))}
    {shift : ι → BitVec w} {numBits : Nat} (narrow : numBits ≤ w)
    (small : ∀ c, (shift c).toNat < 2 ^ numBits)
    (h : Forall₂ (fun x c => XorShares x (shift c)) shiftVals items) :
    Ensures (Forall₂ (fun z c => SumShares z ((2 ^ (shift c).toNat : Nat) : F)) · items)
      (evalPow2FromShiftBitsReady shiftVals numBits) := by
  let rows := items.flatMap fun c => (List.range (2 ^ numBits)).map fun s => (c, s)
  have xored : Forall₂ (fun x (row : ι × Nat) => XorShares x (shift row.1 ^^^ BitVec.ofNat w row.2))
      (shiftVals.flatMap fun x => (List.range (2 ^ numBits)).map fun s =>
        xorPublic x (BitVec.ofNat w s)) rows := by
    refine rel_flatMap h fun x c shares => ?_
    rw [forall₂_map_left_iff, forall₂_map_right_iff, forall₂_same]
    exact fun s _ => shares.xorPublic _
  refine Ensures.bind (isZeroMany_spec xored) fun eqBits bits => ?_
  refine Ensures.bind (bitInjectFromBitsToFieldMany_spec bits) fun eqField known => Ensures.pure ?_
  have lengths := h.length_eq
  refine forall₂_iff_get.mpr ⟨by simp [lengths], fun j below inside => ?_⟩
  simp only [get_eq_getElem, getElem_map, getElem_range]
  rw [← sum_powers (small _) narrow]
  refine SumShares.foldl_range fun s less => ?_
  have row := getElem?_flatMap_range (fun c s => (c, s)) less (getElem?_eq_getElem inside)
  exact (forall₂_getD known row _).mulPublic _

end Powers

/-! ## Words of a phase -/

structure SuffixWord (len : Nat) where
  bits : BitVec 128
  lt : bits.toNat < 2 ^ len

def SuffixWord.lookup {len : Nat} (c : SuffixWord len) : LookupBits := ⟨c.bits, len⟩

/-- A phase with suffix bits, and the ring chosen for it. -/
structure WordPhase (x : Xlen) (t : Uninterleavable) (len : Nat) : Prop where
  ring : Uninterleavable.ofSuffixLen len = some t
  long : 8 ≤ len
  word : len < 2 * x.bits

/-- What the shared arm of a suffix computes: `Rev8W` reads the low 32 bits only. -/
def sharedMle (x : Xlen) (suffix : Suffixes) (b : LookupBits) : Nat :=
  if suffix = .Rev8W then (swapBytes (b.bits.setWidth 32)).toNat else (suffix.suffixMle x b).toNat

/-- The ring of a phase holds the suffix bits, and the half ring half of its bits. -/
theorem ofSuffixLen_ring {t : Uninterleavable} {len : Nat}
    (h : Uninterleavable.ofSuffixLen len = some t) :
    len ≤ t.ring.width ∧ t.ring.width = 2 * t.half.width ∧ 8 ≤ t.half.width ∧
      t.half.width ≤ 64 := by
  have fits : len ≤ t.ring.width := by
    unfold Uninterleavable.ofSuffixLen at h
    split at h
    · cases h
      exact (by omega : len ≤ 128)
    split at h
    · cases h
      exact (by omega : len ≤ 64)
    split at h
    · cases h
      exact (by omega : len ≤ 32)
    split at h
    · cases h
      exact (by omega : len ≤ 16)
    · cases h
  exact ⟨fits, by cases t <;> decide⟩

section Values

variable {x : Xlen} {t : Uninterleavable} {len : Nat} (phase : WordPhase x t len)
  (c : SuffixWord len)
variable {n : Nat}
include phase

theorem WordPhase.toNat_word : (c.bits.setWidth t.ring.width).toNat = c.bits.toNat := by
  obtain ⟨fits, -⟩ := ofSuffixLen_ring phase.ring
  rw [BitVec.toNat_setWidth,
    Nat.mod_eq_of_lt (c.lt.trans_le (Nat.pow_le_pow_right (by decide) fits))]

theorem WordPhase.upper_lt : c.bits.toNat / 2 ^ x.bits < 2 ^ x.bits := by
  rw [Nat.div_lt_iff_lt_mul (Nat.two_pow_pos _), ← Nat.pow_add]
  have := phase.word
  exact c.lt.trans_le (Nat.pow_le_pow_right (by decide) (by omega))

theorem WordPhase.upperWord_value :
    (Suffixes.UpperWord.suffixMle x c.lookup).toNat = c.bits.toNat / 2 ^ x.bits := by
  have upper := phase.upper_lt c
  rw [Suffixes.suffixMle, BitVec.toNat_setWidth, BitVec.toNat_ushiftRight,
    Nat.shiftRight_eq_div_pow]
  exact Nat.mod_eq_of_lt (upper.trans_le (Nat.pow_le_pow_right (by decide) x.bits_le))

omit phase in
theorem LookupBits.toNat_mod (v : BitVec 128) (short : n < 128) :
    (v % (1#128 <<< n)).toNat = v.toNat % 2 ^ n := by
  rw [← new_toNat short, new, if_pos short]

omit phase in
/-- The low `n` bits, for at most one word. -/
theorem toNat_lowBits (v : BitVec 128) (short : n ≤ 64) :
    ((v % (1#128 <<< n)).setWidth 64).toNat = v.toNat % 2 ^ n := by
  rw [BitVec.toNat_setWidth, toNat_mod v (by omega)]
  exact Nat.mod_eq_of_lt ((Nat.mod_lt _ (Nat.two_pow_pos n)).trans_le
    (Nat.pow_le_pow_right (by decide) short))

omit phase in
theorem LookupBits.toNat_split (b : LookupBits) (short : n ≤ 64) :
    (b.split n).2.toU64.toNat = b.bits.toNat % 2 ^ n := by
  have bits : (b.split n).2.bits = b.bits % (1#128 <<< n) % (1#128 <<< n) := if_pos (by omega)
  rw [toU64, bits, toNat_lowBits _ short, toNat_mod _ (by omega), Nat.mod_mod]

omit phase in
theorem toNat_powerU64 (short : n < 64) : (powerU64 n).toNat = 2 ^ n := by
  rw [powerU64, Nat.mod_eq_of_lt short, BitVec.toNat_shiftLeft, Nat.shiftLeft_eq,
    BitVec.toNat_ofNat, Nat.one_mod_two_pow
    (by decide), one_mul, Nat.mod_eq_of_lt (Nat.pow_lt_pow_right (by decide) short)]

theorem WordPhase.len_ne_zero : c.lookup.len ≠ 0 := by
  have := phase.long
  exact (by omega : len ≠ 0)

omit phase in
theorem SuffixWord.power_value (short : n ≤ 6) :
    (powerU64 (c.lookup.split n).2.toU64.toNat).toNat = 2 ^ (c.bits.toNat % 2 ^ n) := by
  have below : c.bits.toNat % 2 ^ n < 64 :=
    (Nat.mod_lt _ (Nat.two_pow_pos n)).trans_le (Nat.pow_le_pow_right (by decide) short)
  have low : (c.lookup.split n).2.toU64.toNat = c.bits.toNat % 2 ^ n := toNat_split _ (by omega)
  rw [low, toNat_powerU64 below]

theorem WordPhase.pow2_value :
    (Suffixes.Pow2.suffixMle x c.lookup).toNat = 2 ^ (c.bits.toNat % 2 ^ x.bits.log2) := by
  rw [Suffixes.suffixMle, if_neg (phase.len_ne_zero c), c.power_value (by cases x <;> decide)]

theorem WordPhase.pow2W_value :
    (Suffixes.Pow2W.suffixMle x c.lookup).toNat = 2 ^ (c.bits.toNat % 2 ^ 5) := by
  rw [Suffixes.suffixMle, if_neg (phase.len_ne_zero c), c.power_value (by decide)]

/-- The sign bit as the shared arm cuts it out. -/
theorem WordPhase.signBit (n : Nat) :
    (((c.bits.setWidth t.ring.width) >>> n).setWidth 1).toNat = if (c.bits >>> n) &&& 1 = 1 then 1
      else 0 := by
  have bit : (c.bits >>> n) &&& 1 = 1 ↔ c.bits.toNat / 2 ^ n % 2 = 1 := by
    rw [← BitVec.toNat_inj, BitVec.toNat_and, BitVec.toNat_ushiftRight, Nat.shiftRight_eq_div_pow]
    show _ &&& 1 = 1 ↔ _
    simp
  rw [BitVec.toNat_setWidth, BitVec.toNat_ushiftRight, phase.toNat_word]
  simp only [bit]
  split <;> omega

theorem WordPhase.signExtension_value (long : x.bits / 2 ≤ len) :
    (Suffixes.SignExtensionUpperHalf.suffixMle x c.lookup).toNat =
    (((c.bits.setWidth t.ring.width) >>> (x.bits / 2 - 1)).setWidth 1).toNat *
      ((2 ^ (x.bits / 2) - 1) * 2 ^ (x.bits / 2)) := by
  have weight : ((powerU64 (x.bits / 2) - 1) <<< (x.bits / 2)).toNat =
      (2 ^ (x.bits / 2) - 1) * 2 ^ (x.bits / 2) := by
    cases x <;> decide
  rw [phase.signBit, Suffixes.suffixMle]
  simp only [show c.lookup.len = len from rfl, show c.lookup.bits = c.bits from rfl, if_pos long]
  split
  · rw [weight, one_mul]
  · rw [zero_mul]
    rfl

theorem WordPhase.overflow_value : (Suffixes.OverflowBitsZero.suffixMle x c.lookup).toNat =
    (BitVec.ofBool (decide ((c.bits.setWidth t.ring.width) >>> x.bits = 0))).toNat := by
  have same :
      (c.lookup.bits >>> x.bits == 0) = decide ((c.bits.setWidth t.ring.width) >>> x.bits = 0) := by
    rw [Bool.eq_iff_iff, beq_iff_eq, decide_eq_true_iff, ← BitVec.toNat_inj, ← BitVec.toNat_inj,
      BitVec.toNat_ushiftRight, BitVec.toNat_ushiftRight, phase.toNat_word]
    rfl
  rw [Suffixes.suffixMle, u64OfBool_toNat, same]

/-- Without bits above the word there is no overflow. -/
theorem WordPhase.upper_eq_zero (narrow : t.ring.width ≤ x.bits) :
    c.bits.toNat / 2 ^ x.bits = 0 := by
  obtain ⟨fits, -⟩ := ofSuffixLen_ring phase.ring
  exact Nat.div_eq_of_lt (c.lt.trans_le (Nat.pow_le_pow_right (by decide) (fits.trans narrow)))

end Values

/-! ## The shared arms -/

/-- The suffixes that are evaluated on interleaved bits. -/
def wordSuffixes : List Suffixes :=
  [.UpperWord, .LowerWord, .LowerHalfWord, .Rev8W, .Pow2, .Pow2W, .SignExtensionUpperHalf,
    .OverflowBitsZero]

section Arms

variable {F : Type} [Field F] {x : Xlen} {t : Uninterleavable} {len : Nat} {ι : Type}
  {items : List ι} {slot : ι → Nat} {word : ι → SuffixWord len}
  {bits : List (View (BitVec t.ring.width))} {out : SuffixFutureBatch F}

/-- The results of an arm by their value as natural numbers. -/
theorem Pushes.values {f g : ι → Nat} {run : Mpc F (SuffixFutureBatch F)}
    (h : Pushes out (items.map fun c => ((f c : F), slot c) : List _) run) (same : ∀ c, f c = g c) :
    Pushes out (items.map fun c => ((g c : F), slot c) : List _) run := by
  rwa [← funext same]

/-- The low `n` bits of a word of the ring. -/
theorem toNat_and_mask {w n : Nat} (v : BitVec w) (short : n < w) :
    (v &&& BitVec.ofNat w (2 ^ n - 1)).toNat = v.toNat % 2 ^ n := by
  have mask : 2 ^ n - 1 < 2 ^ w :=
    (Nat.sub_le _ _).trans_lt (Nat.pow_lt_pow_right (by decide) short)
  rw [BitVec.toNat_and, BitVec.toNat_ofNat, Nat.mod_eq_of_lt mask, Nat.and_two_pow_sub_one_eq_mod]

theorem pushes_constant {α : Type} {R : α → ι → Prop} {rows : List α} (h : Forall₂ R rows items)
    (v : F) :
    Pushes out (items.map fun c => (v, slot c) : List _)
      (pure (out.extendReady (items.map slot) (rows.map fun _ => .pub v))) :=
  pushes_ready (forall₂_map_left_iff.mpr (h.imp fun _ _ _ => rfl))

variable (phase : WordPhase x t len)
  (h : Forall₂ (fun b c => XorShares b ((word c).bits.setWidth t.ring.width)) bits items)
include phase h

/-- The upper word is empty while the ring is no wider than a word. -/
theorem WordPhase.upperWord_pushes :
    ∃ run, evalSharedBits x t len .UpperWord (items.map slot) bits out = some run ∧
    Pushes out (items.map fun c => (((Suffixes.UpperWord.suffixMle x (word c).lookup).toNat : F),
      slot c) : List _) run := by
  refine ⟨_, rfl, ?_⟩
  have shifted := forall₂_map_shares (fun shares => shares.shiftRight x.bits) h
  have value : ∀ c, ((word c).bits.setWidth t.ring.width >>> x.bits).toNat =
      (Suffixes.UpperWord.suffixMle x (word c).lookup).toNat :=
    fun c => by
      rw [phase.upperWord_value, BitVec.toNat_ushiftRight, phase.toNat_word,
      Nat.shiftRight_eq_div_pow]
  split
  · rename_i narrow
    refine Pushes.values ?_ fun c => by rw [phase.upperWord_value, phase.upper_eq_zero _ narrow]
    rw [Nat.cast_zero]
    exact pushes_constant h 0
  split
  · refine Pushes.values (pushes_b2aRing
      (forall₂_map_shares (fun shares => shares.setWidth t.half.width) shifted)) fun c => ?_
    have small : ((word c).bits.setWidth t.ring.width >>> x.bits).toNat < 2 ^ t.half.width := by
      rw [BitVec.toNat_ushiftRight, Nat.shiftRight_eq_div_pow,
        Nat.div_lt_iff_lt_mul (Nat.two_pow_pos _), ← Nat.pow_add]
      exact (BitVec.isLt _).trans_le (Nat.pow_le_pow_right (by decide) (by omega))
    rw [BitVec.toNat_setWidth, Nat.mod_eq_of_lt small, value]
  · exact Pushes.values (pushes_b2aRing shifted) value

/-- Low bits are cut off in the ring and converted from there. -/
theorem WordPhase.lowBits_pushes {n : Nat} :
    Pushes out (items.map fun c => ((((word c).bits.toNat % 2 ^ n : Nat) : F), slot c) : List _)
      (pure (evalLowBits t n (items.map slot) bits out)) := by
  let low (c : ι) : BitVec t.ring.width :=
    if t.ring.width ≤ n then (word c).bits.setWidth t.ring.width
    else (word c).bits.setWidth t.ring.width &&& BitVec.ofNat _ (2 ^ n - 1)
  have masked : Forall₂ (fun b c => XorShares b (low c))
      (if t.ring.width ≤ n then bits
        else bits.map fun b => b.map (· &&& BitVec.ofNat _ (2 ^ n - 1))) items := by
    by_cases wide : t.ring.width ≤ n
    · simpa only [low, if_pos wide] using h
    · simp only [low, if_neg wide]
      exact forall₂_map_shares (fun shares => shares.and_public _) h
  have value : ∀ c, (low c).toNat = (word c).bits.toNat % 2 ^ n := fun c => by
    by_cases wide : t.ring.width ≤ n
    · simp only [low, if_pos wide]
      rw [phase.toNat_word, Nat.mod_eq_of_lt]
      rw [← phase.toNat_word]
      exact (BitVec.isLt _).trans_le (Nat.pow_le_pow_right (by decide) wide)
    · simp only [low, if_neg wide]
      rw [toNat_and_mask _ (by omega), phase.toNat_word]
  unfold evalLowBits
  simp only
  split
  · rename_i fits
    refine Pushes.values (pushes_b2aRing
      (forall₂_map_shares (fun shares => shares.setWidth t.half.width) masked)) fun c => ?_
    have small : (low c).toNat < 2 ^ t.half.width := by
      have least : (low c).toNat < 2 ^ min n t.ring.width := by
        rcases Nat.le_total n t.ring.width with le | le
        · rw [Nat.min_eq_left le, value]
          exact Nat.mod_lt _ (Nat.two_pow_pos n)
        · rw [Nat.min_eq_right le]
          exact BitVec.isLt _
      exact least.trans_le (Nat.pow_le_pow_right (by decide) fits)
    rw [BitVec.toNat_setWidth, Nat.mod_eq_of_lt small, value]
  · exact Pushes.values (pushes_b2aRing masked) value

theorem WordPhase.rev8W_pushes :
    ∃ run, evalSharedBits x t len .Rev8W (items.map slot) bits out = some run ∧
    Pushes out (items.map fun c => (((swapBytes ((word c).bits.setWidth 32)).toNat : F), slot c) :
      List _) run := by
  refine ⟨_, rfl, ?_⟩
  have reversed := forall₂_map_shares (fun shares => reverseBytes_spec shares) h
  have cut : ∀ c, ((word c).bits.setWidth t.ring.width).setWidth 32 = (word c).bits.setWidth 32 :=
    fun c =>
    BitVec.eq_of_toNat_eq (by simp [phase.toNat_word])
  simp only [cut] at reversed
  split
  · rename_i wide
    refine Pushes.values (pushes_b2aRing
      (forall₂_map_shares (fun shares => shares.setWidth t.half.width) reversed)) fun c => ?_
    rw [BitVec.toNat_setWidth_of_le wide]
  · exact pushes_b2aRing reversed

theorem WordPhase.power_pushes {n : Nat} (short : n ≤ 8) :
    Pushes out (items.map fun c => (((2 ^ ((word c).bits.toNat % 2 ^ n) : Nat) : F), slot c) :
      List _)
      (evalPow2 t n (items.map slot) bits out) := by
  obtain ⟨-, double, wide, -⟩ := ofSuffixLen_ring phase.ring
  have shifts :=
    forall₂_map_shares (fun shares => shares.and_public (BitVec.ofNat t.ring.width (2 ^ n - 1))) h
  have value :
    ∀ c, ((word c).bits.setWidth t.ring.width &&& BitVec.ofNat t.ring.width (2 ^ n - 1)).toNat =
      (word c).bits.toNat % 2 ^ n := fun c => by
    rw [toNat_and_mask _ (by omega), phase.toNat_word]
  have small :
      ∀ c, ((word c).bits.setWidth t.ring.width &&& BitVec.ofNat t.ring.width (2 ^ n - 1)).toNat <
      2 ^ n :=
    fun c => value c ▸ Nat.mod_lt _ (Nat.two_pow_pos n)
  refine Pushes.after (evalPow2FromShiftBitsReady_spec (by omega) small shifts) fun result known =>
    ?_
  refine Pushes.values (pushes_ready (forall₂_map_left_iff.mpr known)) fun c => by rw [value]

/-- The sign bit is injected with the weight of the upper half. -/
theorem WordPhase.signExtension_pushes :
    ∃ run, evalSharedBits x t len .SignExtensionUpperHalf (items.map slot) bits out = some run ∧
    Pushes out (items.map fun c =>
      (((Suffixes.SignExtensionUpperHalf.suffixMle x (word c).lookup).toNat : F),
      slot c) : List _) run := by
  refine ⟨_, rfl, ?_⟩
  simp only
  split
  · have one : ∀ c, 1 = (Suffixes.SignExtensionUpperHalf.suffixMle x (word c).lookup).toNat :=
      fun c => by
      rw [Suffixes.suffixMle]
      simp only [show (word c).lookup.len = len from rfl, if_neg (show ¬ x.bits / 2 ≤ len by omega)]
      rfl
    refine Pushes.values ?_ one
    rw [Nat.cast_one]
    exact pushes_constant h 1
  · have signs :=
      forall₂_map_shares (fun shares => (shares.shiftRight (x.bits / 2 - 1)).setWidth 1) h
    have pushed : Pushes out (items.map fun c =>
        ((((((word c).bits.setWidth t.ring.width) >>> (x.bits / 2 - 1)).setWidth 1 :
          BitVec 1).toNat : F) *
          (((2 ^ (x.bits / 2) - 1) * 2 ^ (x.bits / 2) : Nat) : F),
            slot c) : List (F × Nat)) _ := pushes_bitinjectScaled _ signs
    simp only [← Nat.cast_mul] at pushed
    exact Pushes.values pushed fun c => (phase.signExtension_value (word c) (by omega)).symm

/-- The upper word is tested for zero. -/
theorem WordPhase.overflow_pushes :
    ∃ run, evalSharedBits x t len .OverflowBitsZero (items.map slot) bits out = some run ∧
    Pushes out (items.map fun c =>
      (((Suffixes.OverflowBitsZero.suffixMle x (word c).lookup).toNat : F),
      slot c) : List _) run := by
  by_cases narrow : t.ring.width ≤ x.bits
  · refine ⟨_, if_pos narrow, ?_⟩
    have one : ∀ c, 1 = (Suffixes.OverflowBitsZero.suffixMle x (word c).lookup).toNat := fun c => by
      have zero : (word c).bits.setWidth t.ring.width >>> x.bits = 0 := BitVec.eq_of_toNat_eq (by
        rw [BitVec.toNat_ushiftRight, phase.toNat_word, Nat.shiftRight_eq_div_pow,
          phase.upper_eq_zero _ narrow]
        rfl)
      rw [phase.overflow_value, decide_eq_true zero]
      rfl
    refine Pushes.values ?_ one
    rw [Nat.cast_one]
    exact pushes_constant h 1
  · refine ⟨_, if_neg narrow, ?_⟩
    have upper := forall₂_map_shares (fun shares => shares.shiftRight x.bits) h
    refine Pushes.after (isZeroMany_spec upper) fun eqBits zero => ?_
    exact Pushes.values (pushes_bitinject zero) fun c => (phase.overflow_value (word c)).symm

/-- Every arm pushes what it computes of every word, at the slot of the entry. -/
theorem WordPhase.shared_pushes {suffix : Suffixes} (known : suffix ∈ wordSuffixes) :
    ∃ run, evalSharedBits x t len suffix (items.map slot) bits out = some run ∧
      Pushes out (items.map fun c => ((sharedMle x suffix (word c).lookup : F), slot c) : List _)
        run := by
  have long := phase.long
  have bits_le := x.bits_le
  simp only [wordSuffixes, mem_cons, not_mem_nil, or_false] at known
  rcases known with rfl | rfl | rfl | rfl | rfl | rfl | rfl | rfl
  · exact phase.upperWord_pushes h
  · exact ⟨_, rfl, Pushes.values (phase.lowBits_pushes h) fun c => (toNat_lowBits _ bits_le).symm⟩
  · exact ⟨_, rfl, Pushes.values (phase.lowBits_pushes h) fun c =>
      (toNat_lowBits _ (by omega)).symm⟩
  · exact phase.rev8W_pushes h
  · have few : min x.bits.log2 len = x.bits.log2 :=
      Nat.min_eq_left (by cases x <;> exact (by decide : _ ≤ 8).trans long)
    refine ⟨_, rfl, ?_⟩
    rw [few]
    exact Pushes.values (phase.power_pushes h (by cases x <;> decide)) fun c =>
      (phase.pow2_value (word c)).symm
  · have few : min 5 len = 5 := Nat.min_eq_left (by omega)
    refine ⟨_, rfl, ?_⟩
    rw [few]
    exact Pushes.values (phase.power_pushes h (by decide)) fun c =>
      (phase.pow2W_value (word c)).symm
  · exact phase.signExtension_pushes h
  · exact phase.overflow_pushes h

end Arms

/-! ## Public and shared indices -/

/-- A lookup index, and whether the parties hold it in shares. -/
structure LookupEntry (x : Xlen) where
  index : BitVec (2 * x.bits)
  shared : Bool

/-- An entry of a batch that stands for a lookup index. -/
def EntryIs {x : Xlen} : BitVec (2 * x.bits) ⊕ View (BitVec (2 * x.bits)) → LookupEntry x → Prop
  | .inl p, c => p = c.index ∧ c.shared = false
  | .inr s, c => XorShares s c.index ∧ c.shared = true

def LookupEntry.bits {x : Xlen} (c : LookupEntry x) (len : Nat) : LookupBits :=
  .new (c.index.setWidth 128) len

def LookupEntry.value {x : Xlen} (F : Type) [CommRing F] (len : Nat) (suffix : Suffixes)
    (c : LookupEntry x) : F :=
  if c.shared then (sharedMle x suffix (c.bits len) : F) else suffix.plain F x (c.bits len)

section Entries

variable {x : Xlen} {t : Uninterleavable} {len : Nat} (phase : WordPhase x t len)
include phase

theorem WordPhase.short : len < 128 := by
  have := phase.word
  have := x.bits_le
  omega

theorem WordPhase.toNat_masked (p : BitVec (2 * x.bits)) :
    (p &&& suffixMask x len).toNat = p.toNat % 2 ^ len := by
  rw [suffixMask, if_neg (by have := phase.word; omega)]
  exact ParallelPrefix.toNat_and_lowMask p phase.word

/-- The low bits of an index in 128 bits. -/
theorem WordPhase.toNat_new (p : BitVec (2 * x.bits)) :
    (new (p.setWidth 128) len).bits.toNat = p.toNat % 2 ^ len := by
  rw [new_toNat phase.short, BitVec.toNat_setWidth_of_le (by have := x.bits_le; omega)]

/-- The low bits of the index as a word of the phase. -/
def LookupEntry.word (c : LookupEntry x) : SuffixWord len :=
  ⟨(c.bits len).bits, by
    rw [LookupEntry.bits, phase.toNat_new]; exact Nat.mod_lt _ (Nat.two_pow_pos len)⟩

theorem WordPhase.masked_word (c : LookupEntry x) :
    (c.index &&& suffixMask x len).setWidth t.ring.width =
      (c.word phase).bits.setWidth t.ring.width := by
  refine BitVec.eq_of_toNat_eq ?_
  have bits : (c.word phase).bits.toNat = c.index.toNat % 2 ^ len := phase.toNat_new c.index
  rw [phase.toNat_word, BitVec.toNat_setWidth, phase.toNat_masked, bits, Nat.mod_eq_of_lt]
  rw [← bits]
  obtain ⟨fits, -⟩ := ofSuffixLen_ring phase.ring
  exact (c.word phase).lt.trans_le (Nat.pow_le_pow_right (by decide) fits)

theorem WordPhase.plainIndex_masked (F : Type) [Field F] (suffix : Suffixes)
    (p : BitVec (2 * x.bits)) :
    plainIndex x len F suffix (p &&& suffixMask x len) =
      suffix.plain F x (.new (p.setWidth 128) len) := by
  have bits : (new ((p &&& suffixMask x len &&& suffixMask x len).setWidth 128) len).bits =
      (new (p.setWidth 128) len).bits :=
    BitVec.eq_of_toNat_eq (by rw [phase.toNat_new, phase.toNat_masked, phase.toNat_masked,
      phase.toNat_new, Nat.mod_mod, Nat.mod_mod])
  exact congrArg (fun bits => suffix.plain F x ⟨bits, len⟩) bits

end Entries

section Split

variable {F : Type} [Field F] {x : Xlen} {t : Uninterleavable} {len : Nat}
  {out : SuffixFutureBatch F} {held : List F}
variable {suffix : Suffixes}

/-- A relation to values is one to the values with their slots. -/
theorem forall₂_zipIdx {α β : Type} {R : α → β → Prop} {as : List α} {bs : List β}
    (h : Forall₂ R as bs) (base : Nat) :
    Forall₂ (fun a b => a.2 = b.2 ∧ R a.1 b.1) (as.zipIdx base) (bs.zipIdx base) := by
  induction h generalizing base with
  | nil => exact .nil
  | cons first _ ih => exact .cons ⟨rfl, first⟩ (ih (base + 1))

/-- An entry of the batch that the table gets: the index is cut to the suffix bits. -/
def MaskedIs (phase : WordPhase x t len) :
    BitVec (2 * x.bits) ⊕ View (BitVec t.ring.width) → LookupEntry x → Prop
  | .inl p, c => p = c.index &&& suffixMask x len ∧ c.shared = false
  | .inr s, c => XorShares s ((c.word phase).bits.setWidth t.ring.width) ∧ c.shared = true

/-- A row of the batch with its slot: the finished value of a public index, or the word of a shared
one. -/
def RowIs (F : Type) [Field F] (phase : WordPhase x t len) (suffix : Suffixes) :
    Nat × Rep3Value F ⊕ Nat × View (BitVec t.ring.width) → LookupEntry x × Nat → Prop
  | .inl z, c => z.1 = c.2 ∧ z.2.Opens (c.1.value F len suffix)
  | .inr z, c => z.1 = c.2 ∧ XorShares z.2 ((c.1.word phase).bits.setWidth t.ring.width) ∧
    c.1.shared = true

variable (phase : WordPhase x t len)
  {entries : List (BitVec (2 * x.bits) ⊕ View (BitVec (2 * x.bits)))} {ops : List (LookupEntry x)}
include phase

theorem WordPhase.value_public {c : LookupEntry x} (known : c.shared = false) :
    plainIndex x len F suffix (c.index &&& suffixMask x len) = c.value F len suffix := by
  rw [phase.plainIndex_masked, LookupEntry.value, known]
  rfl

theorem WordPhase.value_shared {c : LookupEntry x} (known : c.shared = true) :
    (sharedMle x suffix (c.word phase).lookup : F) = c.value F len suffix := by
  rw [LookupEntry.value, known]
  rfl

/-- The public rows are pushed as they are, the shared ones by their arm. -/
theorem WordPhase.rows_pushes (known : suffix ∈ wordSuffixes)
    {rows : List (Nat × Rep3Value F ⊕ Nat × View (BitVec t.ring.width))}
    {items : List (LookupEntry x × Nat)} (h : Forall₂ (RowIs F phase suffix) rows items) :
    let ready := rows.filterMap Sum.getLeft?
    let shared := rows.filterMap Sum.getRight?
    let first := out.extendReady (ready.map Prod.fst) (ready.map Prod.snd)
    ∃ run, (if shared.isEmpty then some (pure first)
        else evalSharedBits x t len suffix (shared.map Prod.fst) (shared.map Prod.snd) first) =
          some run ∧
      Pushes out (items.map fun c => (c.1.value F len suffix, c.2) : List _) run := by
  intro ready shared first
  have locals : Forall₂ _ ready _ := Slots.forall₂_firsts h
  have others : Forall₂ _ shared _ := Slots.forall₂_seconds h
  have words :
      Forall₂ (fun b (c : LookupEntry x × Nat) =>
      XorShares b ((c.1.word phase).bits.setWidth t.ring.width)) _ _ :=
    forall₂_map_left_iff |>.mpr (others.imp fun _ _ known => known.2.1)
  have values : ∀ c ∈ Slots.seconds rows items,
      ((sharedMle x suffix (c.1.word phase).lookup : F), c.2) = (c.1.value F len suffix, c.2) := by
    have flipped :=
      (others.imp (S := fun _ c => c.1.shared = true ∧ True) fun _ _ known =>
      ⟨known.2.2, trivial⟩).flip
    exact fun c mem =>
      Prod.ext (phase.value_shared (((forall₂_and_left _ _).mp flipped).1 c mem)) rfl
  have arm : ∀ b : SuffixFutureBatch F, ∃ run,
      evalSharedBits x t len suffix ((Slots.seconds rows items).map Prod.snd) (shared.map Prod.snd)
        b = some run ∧
        Pushes b ((Slots.seconds rows items).map fun c =>
          ((sharedMle x suffix (c.1.word phase).lookup : F),
          c.2) : List _) run :=
    fun b => phase.shared_pushes words known
  choose run evaluated pushes using arm
  refine ⟨if shared.isEmpty then pure first else run first, ?_, ?_⟩
  · rw [map_slots others]
    split
    · rfl
    · exact evaluated first
  · refine Pushes.split h ?_ fun b => Pushes.unless_empty others ?_
    · simp only [first, map_slots locals]
      exact pushes_ready (forall₂_map_left_iff.mpr (locals.imp fun _ _ known => known.2))
    · rw [← map_congr_left values]
      exact pushes b

theorem WordPhase.interleaved_pushes (known : suffix ∈ wordSuffixes)
    {bits : MixedBatch (BitVec (2 * x.bits)) t.ring.width}
    (h : Forall₂ (MaskedIs phase) bits.entries ops) (base : Nat) :
    ∃ run, SuffixFutureBatch.evalSuffixInterleaved x t len suffix bits base out = some run ∧
      Pushes out ((ops.zipIdx base).map fun c => (c.1.value F len suffix, c.2) : List _) run := by
  refine phase.rows_pushes known ?_
  rw [forall₂_map_left_iff]
  refine (forall₂_zipIdx h base).imp fun row c entry => ?_
  obtain ⟨e, i⟩ := row
  obtain ⟨same, is⟩ := entry
  cases e with
  | inl p =>
    obtain ⟨rfl, notShared⟩ := is
    exact ⟨same, phase.value_public notShared⟩
  | inr s => exact ⟨same, is⟩

theorem WordPhase.masked_entries (h : Forall₂ EntryIs entries ops) :
    Forall₂ (MaskedIs phase) (entries.map fun index => match index with
      | .inl p => .inl (p &&& suffixMask x len)
      | .inr s =>
        .inr ((s.map (· &&& suffixMask x len)).map (BitVec.setWidth t.ring.width))) ops := by
  rw [forall₂_map_left_iff]
  refine h.imp fun e c is => ?_
  cases e with
  | inl p => exact ⟨is.1 ▸ rfl, is.2⟩
  | inr s =>
    refine ⟨?_, is.2⟩
    rw [← phase.masked_word c]
    exact (is.1.and_public _).setWidth _

/-- All suffixes of a word, for rows that are public or shared. -/
theorem WordPhase.fills (known : suffix ∈ wordSuffixes) (h : Forall₂ EntryIs entries ops)
    (holds : out.Holds held) :
    Fills x t len suffix (interleavedData x t len entries) out held
      (ops.map (LookupEntry.value F len suffix)) := by
  have other : suffix ≠ .One := by
    rintro rfl
    exact absurd known (by decide)
  have size : (interleavedData x t len entries).len =
      (ops.map (LookupEntry.value F len suffix)).length := by
    simp [interleavedData, SuffixBitsBatch.len, MixedBatch.entries_classify, h.length_eq]
  have masked := phase.masked_entries h
  rw [← MixedBatch.entries_classify (List.map _ entries)] at masked
  obtain ⟨run, evaluated, pushes⟩ : ∃ run,
    SuffixFutureBatch.evalSuffixInterleaved x t len suffix _ (out.reserve _).1 (out.reserve _).2 =
    some run ∧
      Pushes (out.reserve _).2 _ run := phase.interleaved_pushes known masked _
  have slots : ∀ base, ((ops.zipIdx base).map fun c => (c.1.value F len suffix, c.2)) =
      (ops.map (LookupEntry.value F len suffix)).zipIdx base := fun base => by
    rw [zipIdx_map]
    rfl
  rw [slots] at pushes
  refine ⟨run, ?_, Pushes.holds holds pushes⟩
  simp only [evaluateSuffixForTable, if_neg other, size]
  exact evaluated

end Split

/-- Where the shared suffix is the plaintext one: the upper of the two words of `Rev8W` is read by
the plaintext only. -/
def WordAgrees {x : Xlen} (len : Nat) (suffix : Suffixes) (c : LookupEntry x) : Prop :=
  suffix = .Rev8W → c.shared = true → c.index.toNat % 2 ^ len / 2 ^ 32 % 2 ^ 32 = 0

section Agreement

variable {x : Xlen} {t : Uninterleavable} {len : Nat}

theorem rev8w_toNat_iff (v : BitVec 128) :
    (rev8w (v.setWidth 64)).toNat = (swapBytes (v.setWidth 32)).toNat ↔
      v.toNat / 2 ^ 32 % 2 ^ 32 = 0 := by
  have low : (v.setWidth 64).setWidth 32 = v.setWidth 32 :=
    BitVec.setWidth_setWidth_of_le _ (by decide)
  have high : (v.setWidth 64 >>> 32).setWidth 32 = 0 ↔ v.toNat / 2 ^ 32 % 2 ^ 32 = 0 := by
    rw [← BitVec.toNat_inj, BitVec.toNat_setWidth, BitVec.toNat_ushiftRight, BitVec.toNat_setWidth]
    show _ = 0 ↔ _
    omega
  rw [toNat_rev8w, low, ← high, ← swapBytes_eq_zero, ← BitVec.toNat_inj]
  show _ ↔ _ = 0
  omega

theorem WordPhase.agrees_iff (phase : WordPhase x t len) {F : Type} [Field F] (large : LargeField F)
    (suffix : Suffixes) (c : LookupEntry x) :
    suffix.plain F x (c.bits len) = c.value F len suffix ↔ WordAgrees len suffix c := by
  by_cases shared : c.shared = true
  · by_cases reversed : suffix = .Rev8W
    · subst reversed
      have bits : (c.bits len).bits.toNat = c.index.toNat % 2 ^ len := phase.toNat_new c.index
      have agree := rev8w_toNat_iff (c.bits len).bits
      simp only [WordAgrees, LookupEntry.value, shared, forall_const]
      rw [← bits, ← agree]
      constructor
      · exact fun equal => large _ _ (BitVec.isLt _) ((BitVec.isLt _).trans (by decide)) equal
      · exact fun equal => congrArg (Nat.cast : Nat → F) equal
    · refine iff_of_true ?_ fun known => absurd known reversed
      rw [LookupEntry.value, if_pos shared, sharedMle, if_neg reversed]
      rfl
  · refine iff_of_true ?_ fun _ known => absurd known shared
    rw [LookupEntry.value, if_neg shared]

theorem Build.wordPhase {b : Build} {t : Uninterleavable} {len : Nat} (used : len ∈ b.suffixLens)
    (ring : Uninterleavable.ofSuffixLen len = some t) : WordPhase b.xlen t len := by
  have lens : ∀ len ∈ b.suffixLens, (len = 0 ∨ 8 ≤ len) ∧ len < 2 * b.xlen.bits := by
    obtain ⟨x, fewer⟩ := b
    cases x <;> cases fewer <;> decide
  obtain ⟨long, word⟩ := lens len used
  refine ⟨ring, long.resolve_left ?_, word⟩
  rintro rfl
  cases ring

theorem WordPhase.evaluatesTo_iff (phase : WordPhase x t len) {F : Type} [Field F]
    (large : LargeField F) {suffix : Suffixes} (known : suffix ∈ wordSuffixes)
    {entries : List (BitVec (2 * x.bits) ⊕ View (BitVec (2 * x.bits)))} {ops : List (LookupEntry x)}
    (h : Forall₂ EntryIs entries ops) {out : SuffixFutureBatch F} {held : List F}
    (holds : out.Holds held) :
    EvaluatesTo x t len suffix (interleavedData x t len entries) out held
      (ops.map fun c => suffix.plain F x (c.bits len)) ↔
      ∀ c ∈ ops, WordAgrees len suffix c := by
  rw [(phase.fills known h holds).evaluatesTo_iff, map_inj_left]
  exact forall₂_congr fun c _ => phase.agrees_iff large suffix c

end Agreement

/-- The suffixes of whole words of a batch of public and shared indices reconstruct to the plaintext
ones exactly where every entry agrees. -/
theorem word_suffixes_iff {F : Type} [Field F] (large : LargeField F) {b : Build} {len : Nat}
    {t : Uninterleavable} (used : len ∈ b.suffixLens)
    (ring : Uninterleavable.ofSuffixLen len = some t)
    {entries : List (BitVec (2 * b.xlen.bits) ⊕ View (BitVec (2 * b.xlen.bits)))}
    {ops : List (LookupEntry b.xlen)} (indices : Forall₂ EntryIs entries ops) {suffix : Suffixes}
    (known : suffix ∈ wordSuffixes) {out : SuffixFutureBatch F} {held : List F}
    (holds : out.Holds held) :
    EvaluatesTo b.xlen t len suffix (interleavedData b.xlen t len entries) out held
        (ops.map fun c => suffix.plain F b.xlen (.new (c.index.setWidth 128) len)) ↔
      ∀ c ∈ ops, WordAgrees len suffix c :=
  (Build.wordPhase used ring).evaluatesTo_iff large known indices holds

/-- A public and a shared index in the phase with 48 suffix bits; the shared one has bits in the low
word only. -/
theorem word_suffixes_iff_low :
    EvaluatesTo .rv64 .u64 48 .Rev8W
      (interleavedData .rv64 .u64 48 [.inl 0x100000000#128, .inr (.promoteToTrivialShare 1#128)])
        .new []
      [(2 ^ 56 : ℚ), 2 ^ 24] := by
  let ops : List (LookupEntry .rv64) := [⟨0x100000000#128, false⟩, ⟨1#128, true⟩]
  have indices : Forall₂ (EntryIs (x := .rv64)) [.inl 0x100000000#128,
      .inr (.promoteToTrivialShare 1#128)] ops :=
    .cons ⟨rfl, rfl⟩ (.cons ⟨.promote 1#128, rfl⟩ .nil)
  have known : Suffixes.Rev8W ∈ wordSuffixes := by decide
  have agrees : ∀ c ∈ ops, WordAgrees 48 .Rev8W c := by
    unfold WordAgrees
    decide +kernel
  have values : (ops.map fun c => Suffixes.Rev8W.plain ℚ .rv64 (c.bits 48)) = [2 ^ 56, 2 ^ 24] := by
    have first :
        (Suffixes.Rev8W.suffixMle .rv64
        ((⟨0x100000000#128, false⟩ : LookupEntry .rv64).bits 48)).toNat = 2 ^ 56 := by
      decide +kernel
    have second :
        (Suffixes.Rev8W.suffixMle .rv64 ((⟨1#128, true⟩ : LookupEntry .rv64).bits 48)).toNat =
        2 ^ 24 := by
      decide +kernel
    show [((Suffixes.Rev8W.suffixMle .rv64 _).toNat : ℚ),
      ((Suffixes.Rev8W.suffixMle .rv64 _).toNat : ℚ)] = _
    rw [first, second]
    norm_num
  exact (word_suffixes_iff (b := ⟨.rv64, false⟩) largeField_rat (by decide) (by decide)
    indices known
    SuffixFutureBatch.new_holds).mpr agrees

/-- The shared index `2 ^ 32` in the same phase: the plaintext `Rev8W` moves its bit to byte 7, the
shared one drops it. -/
theorem rev8W_not_reconstructed :
    ¬ EvaluatesTo .rv64 .u64 48 .Rev8W
      (interleavedData .rv64 .u64 48 [.inr (.promoteToTrivialShare 0x100000000#128)]) .new []
      [(2 ^ 56 : ℚ)] := by
  let ops : List (LookupEntry .rv64) := [⟨0x100000000#128, true⟩]
  have indices :
      Forall₂ (EntryIs (x := .rv64)) [.inr (.promoteToTrivialShare 0x100000000#128)] ops :=
    .cons ⟨.promote 0x100000000#128, rfl⟩ .nil
  have phase : WordPhase .rv64 .u64 48 := ⟨by decide, by decide, by decide⟩
  have values : (ops.map fun c => Suffixes.Rev8W.plain ℚ .rv64 (c.bits 48)) = [2 ^ 56] := by
    have value :
        (Suffixes.Rev8W.suffixMle .rv64
        ((⟨0x100000000#128, true⟩ : LookupEntry .rv64).bits 48)).toNat = 2 ^ 56 := by
      decide +kernel
    show [((Suffixes.Rev8W.suffixMle .rv64 _).toNat : ℚ)] = _
    rw [value]
    norm_num
  rw [← values, phase.evaluatesTo_iff largeField_rat (by decide) indices
    SuffixFutureBatch.new_holds]
  intro agrees
  have clear := agrees _ (mem_cons_self ..) rfl rfl
  revert clear
  decide +kernel

end ProviaVM.ReadRaf
