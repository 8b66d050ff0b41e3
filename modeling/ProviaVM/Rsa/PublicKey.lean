import ProviaVM.Preprocessing.Session

/-! # Parsing an RSA public key

`jolt-inlines/rsa/src/verify.rs`, `parse_pkcs1_modulus`. The length of the SEQUENCE is read and
not used, the sign of the modulus is not looked at, and `checked_shl` drops what it shifts out
of the exponent. The end of an INTEGER is computed with a plain `+`, which panics in a build with
overflow checks where a `usize` of 32 bits does not hold it. `Named` is what a key of 2048 bits
with the exponent 65537 has to be. -/
namespace ProviaVM.Rsa
open Preprocessing List Option

/-- The number whose digits the bytes are, most significant first. -/
def fromBeBytes (bytes : List UInt8) : Nat := fromLeBytes bytes.reverse

/-- `parse_der_length`. Four bytes of length fit into every `usize`. -/
def parseDerLength : List UInt8 → Option (Nat × Nat)
  | [] => none
  | first :: data =>
    if first < 0x80 then some (first.toNat, 1)
    else
      let numBytes := (first &&& 0x7F).toNat
      if numBytes = 0 ∨ numBytes > 4 ∨ data.length < numBytes then none
      else some (fromBeBytes (data.take numBytes), 1 + numBytes)

/-- A tag and a length: the length, and the bytes behind. -/
def readHeader (tag : UInt8) : List UInt8 → Option (Nat × List UInt8)
  | [] => none
  | t :: data => do
    if t ≠ tag then none
    else
      let (len, consumed) ← parseDerLength data
      return (len, data.drop consumed)

/-- The width of `usize`, and whether an overflow panics. -/
structure Target where
  usizeBits : Nat
  overflowChecks : Bool

/-- The parser returns `None`, or panics. -/
inductive Stop where
  | refused
  | panicked
  deriving DecidableEq

/-- The operator `?`. -/
def orRefuse {α : Type} : Option α → Except Stop α
  | some x => .ok x
  | none => .error .refused

/-- An INTEGER at the front of what is left of `size` bytes: its bytes, and those behind. -/
def readInteger (t : Target) (size : Nat) (der : List UInt8) :
    Except Stop (List UInt8 × List UInt8) := do
  let (len, data) ← orRefuse (readHeader 0x02 der)
  let pos := size - data.length
  if t.overflowChecks ∧ 2 ^ t.usizeBits ≤ pos + len then .error .panicked
  -- unchecked, an end that wraps around lies before the start, and `get` fails as well
  else if data.length < len then .error .refused
  else return (data.take len, data.drop len)

def stripSign (bytes : List UInt8) : List UInt8 :=
  if bytes.head? = some 0x00 then bytes.tail else bytes

/-- `e.checked_shl(8)?.checked_add(byte)?` on a `u32`. -/
def pushByte (e : Nat) (byte : UInt8) : Option Nat :=
  let sum := e * 256 % 2 ^ 32 + byte.toNat
  if sum < 2 ^ 32 then some sum else none

/-- `bytes_be_to_limbs_2048`, with limbs of `limbBytes` bytes. -/
def bytesBeToLimbs2048 (limbBytes : Nat) (bytes : List UInt8) : List Nat :=
  (List.range (256 / limbBytes)).map fun i =>
    fromLeBytes ((List.range limbBytes).map fun j => bytes.getD (255 - i * limbBytes - j) 0)

def parsePkcs1Modulus (t : Target) (limbBytes : Nat) (der : List UInt8) :
    Except Stop (List Nat) := do
  let (_, data) ← orRefuse (readHeader 0x30 der)
  let (n, data) ← readInteger t der.length data
  if (stripSign n).length ≠ 256 then .error .refused
  else
    let (e, _) ← readInteger t der.length data
    if (← orRefuse (e.foldlM pushByte 0)) ≠ 65537 then .error .refused
    else return bytesBeToLimbs2048 limbBytes (stripSign n)

/-! ## What a key is -/

/-- The value of the contents of an INTEGER, in two's complement. -/
def integerValue (bytes : List UInt8) : Int :=
  fromBeBytes bytes - if 0x80 ≤ bytes.headD 0 then 256 ^ bytes.length else 0

/-- A length field of the definite form, with at most four bytes of length. -/
inductive LengthField : List UInt8 → Nat → Prop
  | short {x : UInt8} : x < 0x80 → LengthField [x] x.toNat
  | long {x : UInt8} {bytes : List UInt8} :
    ¬ x < 0x80 → (x &&& 0x7F).toNat = bytes.length → bytes ≠ [] →
    bytes.length ≤ 4 → LengthField (x :: bytes) (fromBeBytes bytes)

/-- The tag of a SEQUENCE and a length, then two INTEGERs. -/
structure Layout (der : List UInt8) where
  seqField : List UInt8
  seqLen : Nat
  nField : List UInt8
  n : List UInt8
  eField : List UInt8
  e : List UInt8
  rest : List UInt8
  bytes : der = 0x30 :: seqField ++ (0x02 :: nField ++ n ++ (0x02 :: eField ++ e ++ rest))
  seqLength : LengthField seqField seqLen
  nLength : LengthField nField n.length
  eLength : LengthField eField e.length

/-- The end of the INTEGER at the front of what is left of `size` bytes overflows. -/
def Overflows (t : Target) (size : Nat) (der : List UInt8) : Prop :=
  ∃ len data, readHeader 0x02 der = some (len, data) ∧ t.overflowChecks = true ∧
    2 ^ t.usizeBits ≤ size - data.length + len

/-- The end of the modulus overflows, or that of an exponent behind a modulus of 256 bytes. -/
def EndOverflows (t : Target) (der : List UInt8) : Prop :=
  ∃ seqLen data, readHeader 0x30 der = some (seqLen, data) ∧ (Overflows t der.length data ∨
    ∃ n behind, readInteger t der.length data = .ok (n, behind) ∧ (stripSign n).length = 256 ∧
      Overflows t der.length behind)

/-- The SEQUENCE ends within the input, and both INTEGERs lie in it. -/
def Layout.Inside {der : List UInt8} (k : Layout der) : Prop :=
  (0x02 :: k.nField ++ k.n ++ (0x02 :: k.eField ++ k.e)).length ≤ k.seqLen ∧
    k.seqLen ≤ (0x02 :: k.nField ++ k.n ++ (0x02 :: k.eField ++ k.e ++ k.rest)).length

/-- The bytes start with a SEQUENCE whose first INTEGER is `m`, of 2048 bits, and whose second one
is 65537. -/
def Named (der : List UInt8) (m : Nat) : Prop :=
  ∃ k : Layout der, k.Inside ∧ integerValue k.n = m ∧ 2 ^ 2047 ≤ m ∧ m < 2 ^ 2048 ∧
    integerValue k.e = 65537

/-- The DER encoding of a key with a modulus `m` of 2048 bits; `e` is the exponent, of at most 127
bytes. -/
def derKey (m : Nat) (e : List UInt8) : List UInt8 :=
  0x30 :: [0x82, 0x01, UInt8.ofNat (7 + e.length)] ++
    (0x02 :: [0x82, 0x01, 0x01] ++ (0x00 :: (toLeBytes 256 m).reverse) ++
      (0x02 :: [UInt8.ofNat e.length] ++ e ++ []))

def limbsValue (limbBytes : Nat) (limbs : List Nat) : Nat :=
  limbs.foldr (fun limb acc => limb + 256 ^ limbBytes * acc) 0

/-! ## Numbers -/

theorem fromBeBytes_concat (bytes : List UInt8) (x : UInt8) :
    fromBeBytes (bytes ++ [x]) = fromBeBytes bytes * 256 + x.toNat := by
  rw [fromBeBytes, reverse_concat, Nat.mul_comm, Nat.add_comm]
  rfl

theorem fromBeBytes_lt (bytes : List UInt8) : fromBeBytes bytes < 256 ^ bytes.length := by
  induction bytes using List.reverseRecOn with
  | nil => decide
  | append_singleton bytes x ih =>
    have small := x.toNat_lt
    rw [fromBeBytes_concat, length_append, length_singleton]
    omega

theorem fromBeBytes_cons (x : UInt8) (bytes : List UInt8) :
    fromBeBytes (x :: bytes) = x.toNat * 256 ^ bytes.length + fromBeBytes bytes := by
  induction bytes using List.reverseRecOn with
  | nil => simp [fromBeBytes, fromLeBytes]
  | append_singleton bytes y ih =>
    rw [← cons_append, fromBeBytes_concat, ih, fromBeBytes_concat, length_append, length_singleton]
    ring

/-- The exponent is accumulated modulo the word; the sum never overflows. -/
theorem foldlM_pushByte (bytes : List UInt8) :
    bytes.foldlM pushByte 0 = some (fromBeBytes bytes % 2 ^ 32) := by
  induction bytes using List.reverseRecOn with
  | nil => rfl
  | append_singleton bytes x ih =>
    have small := x.toNat_lt
    rw [foldlM_append, ih, fromBeBytes_concat]
    have pushed : pushByte (fromBeBytes bytes % 2 ^ 32) x =
        some ((fromBeBytes bytes * 256 + x.toNat) % 2 ^ 32) := by
      rw [pushByte, show fromBeBytes bytes % 2 ^ 32 * 256 % 2 ^ 32 + x.toNat =
        (fromBeBytes bytes * 256 + x.toNat) % 2 ^ 32 by omega]
      exact if_pos (Nat.mod_lt _ (by decide))
    exact congrArg (· >>= pure) pushed

theorem fromLeBytes_append (xs ys : List UInt8) :
    fromLeBytes (xs ++ ys) = fromLeBytes xs + 256 ^ xs.length * fromLeBytes ys := by
  induction xs with
  | nil => simp [fromLeBytes]
  | cons x xs ih =>
    have step : ∀ l, fromLeBytes (x :: l) = x.toNat + 256 * fromLeBytes l := fun _ => rfl
    rw [cons_append, step, step, ih, length_cons]
    ring

variable {size : Nat} {bytes data der : List UInt8}

/-- Bytes read in blocks, least significant first. -/
theorem limbsValue_blocks (k : Nat) (l : List UInt8) (whole : l.length = k * size) :
    limbsValue size ((List.range k).map fun i => fromLeBytes ((l.drop (i * size)).take size)) =
      fromLeBytes l := by
  induction k generalizing l with
  | zero =>
    rw [Nat.zero_mul, length_eq_zero_iff] at whole
    rw [whole]
    rfl
  | succ k ih =>
    rw [Nat.succ_mul] at whole
    have rest := ih (l.drop size) (by rw [length_drop]; omega)
    simp only [drop_drop, ← Nat.succ_mul, Nat.add_comm size] at rest
    have first : (l.take size).length = size := length_take_of_le (by omega)
    conv_rhs => rw [← List.take_append_drop size l, fromLeBytes_append, first, ← rest]
    rw [List.range_succ_eq_map, List.map_cons, List.map_map, Nat.zero_mul]
    rfl

theorem limbsValue_bytesBeToLimbs2048 (limb : size ∣ 256) (length : bytes.length = 256) :
    limbsValue size (bytesBeToLimbs2048 size bytes) = fromBeBytes bytes := by
  rw [fromBeBytes, ← limbsValue_blocks (256 / size) bytes.reverse (by rw [length_reverse, length,
    Nat.div_mul_cancel limb])]
  refine congrArg _ (map_congr_left fun i inside => congrArg _ ?_)
  have below : i * size + size ≤ 256 := by
    rw [← Nat.succ_mul, ← Nat.div_mul_cancel limb]
    exact Nat.mul_le_mul_right _ (mem_range.mp inside)
  refine ext_getElem (by simp [length]; omega) fun j _ inBlock => ?_
  have place : i * size + j < 256 := by
    simp only [length_take] at inBlock
    omega
  simp only [getElem_map, getElem_range, getElem_take, getElem_drop, getElem_reverse, length]
  rw [Nat.sub_sub, getD_eq_getElem?_getD, getElem?_eq_getElem (by omega)]
  rfl

/-! ## What the parser reads -/

/-- The length parser reads the short form and the long forms of one to four bytes, minimal or
not. -/
theorem parseDerLength_iff {n k : Nat} : parseDerLength data = some (n, k) ↔
    ∃ field rest, data = field ++ rest ∧ LengthField field n ∧ k = field.length := by
  constructor
  · intro read
    unfold parseDerLength at read
    split at read
    · cases read
    rename_i first data
    split at read
    · rename_i small
      cases read
      exact ⟨[first], data, rfl, .short small, rfl⟩
    rename_i large
    dsimp only at read
    split at read
    · cases read
    · cases read
      have count : (data.take (first &&& 0x7F).toNat).length = (first &&& 0x7F).toNat :=
        length_take_of_le (by omega)
      refine ⟨first :: data.take (first &&& 0x7F).toNat, data.drop (first &&& 0x7F).toNat, ?_,
        .long large count.symm ?_ ?_, ?_⟩
      · simp
      · rw [← length_pos_iff]
        omega
      · omega
      · rw [length_cons, count, Nat.add_comm]
  · rintro ⟨field, rest, rfl, known, rfl⟩
    cases known with
    | short small => exact if_pos small
    | @long first bytes large count some_ few =>
      have positive := length_pos_iff.mpr some_
      rw [cons_append, parseDerLength, if_neg large]
      simp only [count, length_append, take_left]
      rw [if_neg (by omega), length_cons, Nat.add_comm]

theorem readHeader_iff {tag : UInt8} {len : Nat} :
    readHeader tag der = some (len, data) ↔
      ∃ field, der = tag :: field ++ data ∧ LengthField field len := by
  constructor
  · intro read
    unfold readHeader at read
    split at read
    · cases read
    rename_i t rest
    split at read
    · cases read
    · rename_i same
      obtain ⟨⟨n, consumed⟩, length, last⟩ := bind_eq_some_iff.mp read
      obtain ⟨field, behind, rfl, known, rfl⟩ := parseDerLength_iff.mp length
      cases last
      exact ⟨field, by simp [not_not.mp same], known⟩
  · rintro ⟨field, rfl, known⟩
    rw [cons_append, readHeader, if_neg (not_not.mpr rfl)]
    exact bind_eq_some_iff.mpr ⟨_, parseDerLength_iff.mpr ⟨field, data, rfl, known, rfl⟩,
      congrArg (fun behind => some (len, behind)) drop_left⟩

theorem orRefuse_ok {α : Type} {x : Option α} {a : α} : orRefuse x = .ok a ↔ x = some a := by
  cases x <;> simp [orRefuse]

theorem orRefuse_panicked {α : Type} {x : Option α} : orRefuse x = .error .panicked ↔ False := by
  cases x <;> simp [orRefuse]

section Parse

variable {t : Target} {total : Nat}

theorem readInteger_panicked_iff :
    readInteger t total der = .error .panicked ↔ Overflows t total der := by
  simp only [readInteger, Overflows, Run.bind_error, orRefuse_panicked, orRefuse_ok, false_or,
    Prod.exists]
  refine exists_congr fun len => exists_congr fun data => and_congr_right fun _ => ?_
  split
  · simpa using ‹_ ∧ _›
  · rename_i fits
    refine iff_of_false (fun panics => ?_) fits
    split at panics <;> cases panics

theorem readInteger_iff (inside : der.length ≤ total) (bound : total < 2 ^ t.usizeBits) :
    readInteger t total der = .ok (bytes, data) ↔
      ∃ field, der = 0x02 :: field ++ bytes ++ data ∧ LengthField field bytes.length := by
  constructor
  · intro read
    obtain ⟨⟨len, behind⟩, tag, taken⟩ := Run.bind_ok.mp read
    obtain ⟨field, rfl, known⟩ := readHeader_iff.mp (orRefuse_ok.mp tag)
    dsimp only at taken
    split at taken
    · cases taken
    split at taken
    · cases taken
    · cases taken
      rw [← length_take_of_le (i := len) (l := behind) (by omega)] at known
      exact ⟨field, by simp, known⟩
  · rintro ⟨field, rfl, known⟩
    refine Run.bind_ok.mpr
      ⟨_, orRefuse_ok.mpr (readHeader_iff.mpr ⟨field, append_assoc .., known⟩), ?_⟩
    simp only [length_append, length_cons] at inside ⊢
    rw [if_neg (by omega), if_neg (by omega), take_left, drop_left]
    rfl

theorem parsePkcs1Modulus_panicked_iff :
    parsePkcs1Modulus t size der = .error .panicked ↔ EndOverflows t der := by
  simp only [parsePkcs1Modulus, EndOverflows, foldlM_pushByte, Run.bind_error, orRefuse_panicked,
    orRefuse_ok, false_or, Prod.exists, readInteger_panicked_iff]
  refine exists_congr fun _ => exists_congr fun data => and_congr_right fun _ => or_congr_right ?_
  refine exists_congr fun n => exists_congr fun behind => and_congr_right fun _ => ?_
  split
  · simp_all
  · rename_i sized
    simp only [Run.bind_error, readInteger_panicked_iff, not_not.mp sized, true_and,
      or_iff_left_iff_imp]
    rintro ⟨e, -, last⟩
    simp only [orRefuse_panicked, false_or] at last
    obtain ⟨value, -, last⟩ := last
    split at last <;> cases last

variable (bound : der.length < 2 ^ t.usizeBits)
include bound

/-- The parser accepts a layout of two integers whose modulus has 256 bytes after its sign byte; the
exponent is compared modulo `2 ^ 32`. -/
theorem parsePkcs1Modulus_iff {limbs : List Nat} : parsePkcs1Modulus t size der = .ok limbs ↔
    ∃ k : Layout der, (stripSign k.n).length = 256 ∧ fromBeBytes k.e % 2 ^ 32 = 65537 ∧
      limbs = bytesBeToLimbs2048 size (stripSign k.n) := by
  unfold parsePkcs1Modulus
  simp only [foldlM_pushByte]
  constructor
  · intro read
    obtain ⟨⟨seqLen, data⟩, tag, read⟩ := Run.bind_ok.mp read
    obtain ⟨⟨n, behind⟩, first, read⟩ := Run.bind_ok.mp read
    dsimp only at read
    split at read
    · cases read
    rename_i sized
    obtain ⟨⟨e, rest⟩, second, read⟩ := Run.bind_ok.mp read
    obtain ⟨value, last, read⟩ := Run.bind_ok.mp read
    obtain rfl := Option.some.inj (orRefuse_ok.mp last)
    split at read
    · cases read
    rename_i exponent
    cases read
    obtain ⟨seqField, rfl, seqLength⟩ := readHeader_iff.mp (orRefuse_ok.mp tag)
    obtain ⟨nField, rfl, nLength⟩ := (readInteger_iff (by simp; omega) bound).mp first
    obtain ⟨eField, rfl, eLength⟩ := (readInteger_iff (by simp; omega) bound).mp second
    exact ⟨⟨seqField, seqLen, nField, n, eField, e, rest, rfl, seqLength, nLength, eLength⟩,
      not_not.mp sized, not_not.mp exponent, rfl⟩
  · rintro ⟨⟨seqField, seqLen, nField, n, eField, e, rest, rfl, seqLength, nLength, eLength⟩, sized,
      exponent, rfl⟩
    refine Run.bind_ok.mpr ⟨_, orRefuse_ok.mpr (readHeader_iff.mpr ⟨seqField, rfl, seqLength⟩), ?_⟩
    refine Run.bind_ok.mpr ⟨_, (readInteger_iff (by simp; omega) bound).mpr ⟨nField, rfl, nLength⟩,
      ?_⟩
    dsimp only
    rw [if_neg (not_not.mpr sized)]
    refine Run.bind_ok.mpr ⟨_, (readInteger_iff (by simp; omega) bound).mpr ⟨eField, rfl, eLength⟩,
      ?_⟩
    refine Run.bind_ok.mpr ⟨_, rfl, ?_⟩
    rw [if_neg (not_not.mpr exponent)]
    rfl

end Parse

/-- The parts of the front of an input are determined by it. -/
theorem integer_unique {field field' bytes bytes' data data' : List UInt8}
    (same : 0x02 :: field ++ bytes ++ data = 0x02 :: field' ++ bytes' ++ data')
    (known : LengthField field bytes.length) (known' : LengthField field' bytes'.length) :
    field = field' ∧ bytes = bytes' ∧ data = data' := by
  have header : ∀ {field bytes data : List UInt8}, LengthField field bytes.length →
      readHeader 0x02 (0x02 :: field ++ bytes ++ data) = some (bytes.length, bytes ++ data) :=
    fun known => readHeader_iff.mpr ⟨_, append_assoc .., known⟩
  have read := (header known).symm.trans (same ▸ header known')
  obtain ⟨length, behind⟩ := Prod.mk.inj (Option.some.inj read)
  obtain ⟨rfl, rfl⟩ := append_inj behind length
  exact ⟨by simpa using same, rfl, rfl⟩

theorem Layout.unique (k k' : Layout der) : k = k' := by
  obtain ⟨seqField, seqLen, nField, n, eField, e, rest, bytes, seqLength, nLength, eLength⟩ := k
  obtain ⟨seqField', seqLen', nField', n', eField', e', rest', bytes', seqLength', nLength',
    eLength'⟩ := k'
  have tag := (readHeader_iff.mpr ⟨_, bytes, seqLength⟩).symm.trans
    (readHeader_iff.mpr ⟨_, bytes', seqLength'⟩)
  obtain ⟨rfl, data⟩ := Prod.mk.inj (Option.some.inj tag)
  obtain ⟨rfl, rfl, behind⟩ := integer_unique data nLength nLength'
  obtain ⟨rfl, rfl, rfl⟩ := integer_unique behind eLength eLength'
  have seqFields : seqField = seqField' := by simpa using bytes.symm.trans bytes'
  subst seqFields
  rfl

/-! ## Which keys are read -/

theorem integerValue_eq_iff {m : Nat} :
    integerValue bytes = m ↔ bytes.headD 0 < 0x80 ∧ fromBeBytes bytes = m := by
  have small : (fromBeBytes bytes : Int) < 256 ^ bytes.length := by
    exact_mod_cast fromBeBytes_lt bytes
  unfold integerValue
  split
  · rename_i top
    exact ⟨fun value => by omega, fun low => absurd low.1 (UInt8.not_lt.mpr top)⟩
  · rename_i low
    rw [Int.sub_zero, Nat.cast_inj, and_iff_right (UInt8.not_le.mp low)]

theorem two_pow_2048 : 2 ^ 2048 = 256 ^ 256 := by
  rw [show 2048 = 8 * 256 from rfl, pow_mul]
  norm_num only

theorem two_pow_2047 : 2 ^ 2047 = 128 * 256 ^ 255 := by
  rw [show 2047 = 7 + 8 * 255 from rfl, pow_add, pow_mul]
  norm_num only

/-- A modulus of 2048 bits has the sign byte in front. -/
theorem modulus_iff {n : List UInt8} (sized : (stripSign n).length = 256) :
    (integerValue n = fromBeBytes (stripSign n) ∧ 2 ^ 2047 ≤ fromBeBytes (stripSign n)) ↔
      n.length = 257 ∧ 2 ^ 2047 ≤ fromBeBytes n := by
  rw [integerValue_eq_iff]
  cases n with
  | nil => cases sized
  | cons x n =>
    rw [fromBeBytes_cons, two_pow_2047]
    by_cases sign : x = 0
    · subst sign
      have tail : stripSign (0 :: n) = n := rfl
      rw [tail] at sized ⊢
      simp [sized]
    · have whole : stripSign (x :: n) = x :: n := if_neg fun zero => sign (Option.some.inj zero)
      rw [whole] at sized ⊢
      refine ⟨fun ⟨⟨low, _⟩, large⟩ => ?_, fun wide => by omega⟩
      have below := fromBeBytes_lt n
      rw [Nat.succ.inj sized] at below
      rw [fromBeBytes_cons, Nat.succ.inj sized] at large
      have scaled : x.toNat * 256 ^ 255 ≤ 127 * 256 ^ 255 :=
        Nat.mul_le_mul_right _ (Nat.le_of_lt_succ low)
      omega

theorem exponent_sign {e : List UInt8} (value : fromBeBytes e = 65537) : e.headD 0 < 0x80 := by
  cases e with
  | nil => decide
  | cons x e =>
    by_contra top
    have top : 128 ≤ x.toNat := UInt8.not_lt.mp top
    have small := fromBeBytes_lt (x :: e)
    rw [value, length_cons] at small
    rw [fromBeBytes_cons] at value
    have long : 2 ≤ e.length := by
      by_contra short
      have : 256 ^ (e.length + 1) ≤ 256 ^ 2 := Nat.pow_le_pow_right (by decide) (by omega)
      omega
    have scaled : 128 * 256 ^ 2 ≤ x.toNat * 256 ^ e.length :=
      Nat.mul_le_mul top (Nat.pow_le_pow_right (by decide) long)
    omega

section DerKey

variable {m : Nat} (high : m < 2 ^ 2048)
include high

/-- The encoding of a modulus of 2048 bits has the layout the parser reads. -/
theorem derKey_layout {e : List UInt8} (short : e.length < 0x80) :
    ∃ k : Layout (derKey m e), k.n = 0x00 :: (toLeBytes 256 m).reverse ∧
      (stripSign k.n).length = 256 ∧
      fromBeBytes (stripSign k.n) = m ∧ fromBeBytes k.n = m ∧ k.e = e ∧ k.Inside := by
  have sized : (toLeBytes 256 m).reverse.length = 256 := by simp [length_toLeBytes]
  have nLength : LengthField [0x82, 0x01, 0x01] (0x00 :: (toLeBytes 256 m).reverse).length := by
    rw [length_cons, sized]
    exact .long (by decide) rfl (by simp) (by decide)
  have small : (UInt8.ofNat e.length).toNat = e.length :=
    UInt8.toNat_ofNat_of_lt' (Nat.lt_trans short (by decide))
  have eLength := LengthField.short (UInt8.lt_iff_toNat_lt.mpr (small.symm ▸ short))
  rw [small] at eLength
  have seqLength : LengthField [0x82, 0x01, UInt8.ofNat (7 + e.length)] (263 + e.length) := by
    have low : (UInt8.ofNat (7 + e.length)).toNat = 7 + e.length :=
      UInt8.toNat_ofNat_of_lt' (by simp only [UInt8.size]; omega)
    have value : fromBeBytes [0x01, UInt8.ofNat (7 + e.length)] = 263 + e.length := by
      rw [fromBeBytes_cons, fromBeBytes_cons, low]
      simp [fromBeBytes, fromLeBytes]
      omega
    rw [← value]
    exact .long (by decide) (by simp) (by simp) (by simp)
  have value : fromBeBytes (toLeBytes 256 m).reverse = m := by
    rw [fromBeBytes, reverse_reverse, fromLeBytes_toLeBytes _ _ (two_pow_2048 ▸ high)]
  have signed : fromBeBytes (0x00 :: (toLeBytes 256 m).reverse) = m := by
    rw [fromBeBytes_cons, value, UInt8.toNat_zero, Nat.zero_mul, Nat.zero_add]
  refine ⟨⟨_, _, _, _, _, e, [], rfl, seqLength, nLength, eLength⟩, rfl, sized, value,
    signed, rfl, ?_, ?_⟩ <;>
    simp [length_toLeBytes] <;> omega

/-- A key of 2048 bits with the exponent 65537 is what the parser should accept. -/
theorem derKey_right (low : 2 ^ 2047 ≤ m) (k : Layout (derKey m [0x01, 0x00, 0x01])) :
    k.Inside ∧ k.n.length = 257 ∧ 2 ^ 2047 ≤ fromBeBytes k.n ∧ fromBeBytes k.e = 65537 := by
  obtain ⟨k', modulus, -, -, value, exponent, inside⟩ :=
    derKey_layout high (e := [0x01, 0x00, 0x01]) (by decide)
  cases Layout.unique k k'
  exact ⟨inside, by
    rw [modulus]; simp [length_toLeBytes], low.trans_eq value.symm, by rw [exponent]; rfl⟩

end DerKey

theorem LengthField.lt {field : List UInt8} {n : Nat} (h : LengthField field n) : n < 2 ^ 32 := by
  cases h with
  | @short x => exact x.toNat_lt.trans (by decide)
  | @long x bytes large count some_ few =>
    exact (fromBeBytes_lt bytes).trans_le (Nat.pow_le_pow_right (by decide) few)

/-- Every end fits into a `usize` of 64 bits. -/
theorem not_endOverflows {t : Target} (bound : der.length < 2 ^ 63) (wide : t.usizeBits = 64) :
    ¬ EndOverflows t der := by
  have fits : ∀ data, ¬ Overflows t der.length data := by
    rintro data ⟨len, behind, tag, -, large⟩
    obtain ⟨field, -, known⟩ := readHeader_iff.mp tag
    have small := known.lt
    rw [wide] at large
    omega
  rintro ⟨_, data, -, first | ⟨_, behind, -, -, second⟩⟩
  · exact fits data first
  · exact fits behind second

/-- The parser panics exactly where the end of an INTEGER overflows a checked `usize` of 32 bits, so
never where `usize` has 64 bits. What it reads is the modulus of a key in DER with 2048 bits and the
exponent 65537 unless an INTEGER lies outside the SEQUENCE, the modulus lacks the sign byte or its
top bit, or the exponent agrees with 65537 in its low word only. Every key of 2048 bits in DER is
read. -/
theorem parse_pkcs1_modulus_iff {limbBytes : Nat} (limb : limbBytes = 4 ∨ limbBytes = 8)
    (t : Target) (usize : t.usizeBits = 32 ∨ t.usizeBits = 64) (der : List UInt8)
    (bound : der.length < 2 ^ (t.usizeBits - 1)) :
    ((parsePkcs1Modulus t limbBytes der ≠ .error .panicked ∧
        ∀ limbs, parsePkcs1Modulus t limbBytes der = .ok limbs →
          Named der (limbsValue limbBytes limbs)) ↔
      ¬ EndOverflows t der ∧
        ∀ k : Layout der, (stripSign k.n).length = 256 → fromBeBytes k.e % 2 ^ 32 = 65537 →
          k.Inside ∧ k.n.length = 257 ∧ 2 ^ 2047 ≤ fromBeBytes k.n ∧ fromBeBytes k.e = 65537) ∧
    (t.usizeBits = 64 → ¬ EndOverflows t der) ∧
    ∀ m, 2 ^ 2047 ≤ m → m < 2 ^ 2048 → ∃ limbs,
      parsePkcs1Modulus t limbBytes (derKey m [0x01, 0x00, 0x01]) = .ok limbs ∧
        limbsValue limbBytes limbs = m := by
  have divides : limbBytes ∣ 256 := by
    rcases limb with rfl | rfl <;> decide
  have bound' : der.length < 2 ^ t.usizeBits :=
    bound.trans_le (Nat.pow_le_pow_right (by decide) (Nat.sub_le _ _))
  refine ⟨and_congr (not_congr parsePkcs1Modulus_panicked_iff)
    ⟨fun named k sized exponent => ?_, fun keys limbs read => ?_⟩, fun wide => ?_,
      fun m _ high => ?_⟩
  · obtain ⟨k', inside, modulus, top, _, value⟩ :=
      named _ ((parsePkcs1Modulus_iff bound').mpr ⟨k, sized, exponent, rfl⟩)
    cases Layout.unique k k'
    rw [limbsValue_bytesBeToLimbs2048 divides sized] at modulus top
    exact ⟨inside, ((modulus_iff sized).mp ⟨modulus, top⟩).1,
      ((modulus_iff sized).mp ⟨modulus, top⟩).2, (integerValue_eq_iff.mp value).2⟩
  · obtain ⟨k, sized, exponent, rfl⟩ := (parsePkcs1Modulus_iff bound').mp read
    obtain ⟨inside, wide, top, value⟩ := keys k sized exponent
    obtain ⟨modulus, top⟩ := (modulus_iff sized).mpr ⟨wide, top⟩
    have high := fromBeBytes_lt (stripSign k.n)
    rw [sized, ← two_pow_2048] at high
    rw [limbsValue_bytesBeToLimbs2048 divides sized]
    exact ⟨k, inside, modulus, top, high, integerValue_eq_iff.mpr ⟨exponent_sign value, value⟩⟩
  · rw [wide] at bound
    exact not_endOverflows bound wide
  · obtain ⟨k, -, sized, value, -, exponent, -⟩ :=
      derKey_layout high (e := [0x01, 0x00, 0x01]) (by decide)
    have fits : (derKey m [0x01, 0x00, 0x01]).length < 2 ^ t.usizeBits := by
      have length : (derKey m [0x01, 0x00, 0x01]).length = 270 := by simp [derKey, length_toLeBytes]
      rcases usize with width | width <;> rw [width, length] <;> decide
    refine ⟨_, (parsePkcs1Modulus_iff fits).mpr ⟨k, sized, by rw [exponent]; rfl, rfl⟩, ?_⟩
    rw [limbsValue_bytesBeToLimbs2048 divides sized, value]

/-- The guest of the 32-bit build in the profile `build-fast`, which has overflow checks. -/
def checked32 : Target := ⟨32, true⟩

/-- The key with the modulus `2 ^ 2047` is read as what it is. -/
theorem parse_pkcs1_modulus_smallest :
    parsePkcs1Modulus checked32 4 (derKey (2 ^ 2047) [0x01, 0x00, 0x01]) ≠ .error .panicked ∧
      ∀ limbs, parsePkcs1Modulus checked32 4 (derKey (2 ^ 2047) [0x01, 0x00, 0x01]) = .ok limbs →
        Named (derKey (2 ^ 2047) [0x01, 0x00, 0x01]) (limbsValue 4 limbs) := by
  have length : (derKey (2 ^ 2047) [0x01, 0x00, 0x01]).length = 270 := by
    simp [derKey, length_toLeBytes]
  obtain ⟨condition, -, reads⟩ := parse_pkcs1_modulus_iff (.inl rfl) checked32 (.inl rfl)
    (derKey (2 ^ 2047) [0x01, 0x00, 0x01]) (by rw [length]; decide)
  have top : 2 ^ 2047 < 2 ^ 2048 := pow_lt_pow_right₀ one_lt_two (Nat.lt_succ_self 2047)
  obtain ⟨limbs, read, -⟩ := reads (2 ^ 2047) le_rfl top
  refine condition.mpr ⟨fun overflows => ?_, fun k _ _ => derKey_right top le_rfl k⟩
  exact absurd (read.symm.trans (parsePkcs1Modulus_panicked_iff.mpr overflows)) nofun

/-- The exponent `2 ^ 32 + 65537` is accepted where no key with the exponent 65537 was written; and
a length of `2 ^ 32 - 1` bytes makes the parser panic. -/
theorem parse_pkcs1_modulus_exponent_wraps :
    (∃ limbs, parsePkcs1Modulus ⟨64, false⟩ 8 (derKey (2 ^ 2047) [0x01, 0x00, 0x01, 0x00, 0x01]) =
      .ok limbs ∧
      ∀ m, ¬ Named (derKey (2 ^ 2047) [0x01, 0x00, 0x01, 0x00, 0x01]) m) ∧
    parsePkcs1Modulus checked32 4 [0x30, 0x00, 0x02, 0x84, 0xFF, 0xFF, 0xFF, 0xFF] =
      .error .panicked := by
  have top : 2 ^ 2047 < 2 ^ 2048 := pow_lt_pow_right₀ one_lt_two (Nat.lt_succ_self 2047)
  obtain ⟨k, -, sized, -, -, exponent, -⟩ :=
    derKey_layout top (e := [0x01, 0x00, 0x01, 0x00, 0x01]) (by decide)
  have fits : (derKey (2 ^ 2047) [0x01, 0x00, 0x01, 0x00, 0x01]).length < 2 ^ 64 := by
    simp [derKey, length_toLeBytes]
  refine ⟨⟨_, (parsePkcs1Modulus_iff fits).mpr ⟨k, sized, by rw [exponent]; rfl, rfl⟩,
    fun m ⟨k', _, _, _, _, value⟩ => ?_⟩, by decide⟩
  cases Layout.unique k k'
  exact absurd value (by rw [exponent]; decide)

end ProviaVM.Rsa
