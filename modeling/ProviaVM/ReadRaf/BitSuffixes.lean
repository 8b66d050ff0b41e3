import ProviaVM.ReadRaf.SuffixEvaluation

/-! # Suffixes of bits and bitwise words

The arms of `eval_suffix_uninterleaved` that compare the operands or combine them bit by
bit (`suffixes/comparators.rs`, `suffixes/bitwise.rs`). Every batch is split into the
entries with a public and with a shared right operand. Each arm pushes one result for
every entry, at the slot of the entry, and the result is the plaintext suffix, although
the half ring may be wider than the operand. -/
namespace ProviaVM.ReadRaf
open Instruction Rep3 Preprocessing Sumcheck Pushes LookupBits List

def RightIs {w : Nat} : BitVec 64 ⊕ View (BitVec w) → BitVec 64 → Prop
  | .inl p, v => p = v
  | .inr y, v => XorShares y (intoHalf w v)

/-! ## Splitting and recombining -/

section Arms

variable {F : Type} [Field F] {w : Nat} {ι : Type} {items : List ι} {slot : ι → Nat}
  {f : ι → BitVec w} {yv : ι → BitVec 64} {out : SuffixFutureBatch F}

variable {α : Type} {xs : List (View (BitVec w))}

/-- Results for the two parts of a batch. -/
theorem Pushes.split {β : Type} {R : α ⊕ β → ι → Prop} {rows : List (α ⊕ β)}
    (h : Forall₂ R rows items) {value : ι → F × Nat} {first : SuffixFutureBatch F}
    {k : SuffixFutureBatch F → Mpc F (SuffixFutureBatch F)}
    (locals : Pushes out ((Slots.firsts rows items).map value : List _) (pure first))
    (shared : ∀ b, Pushes b ((Slots.seconds rows items).map value : List _) (k b)) :
    Pushes out (items.map value : List _) (k first) := by
  have both := locals.bind shared
  rw [Multiset.coe_add, ← map_append] at both
  rwa [← Multiset.coe_eq_coe.mpr ((Slots.firsts_append_seconds h).map value)]

theorem map_slots {P : Nat × α → ι → Prop} {rows : List (Nat × α)}
    (h : Forall₂ (fun row c => row.1 = slot c ∧ P row c) rows items) :
    rows.map Prod.fst = items.map slot := by
  induction h with
  | nil => rfl
  | cons first _ ih => exact congrArg₂ (· :: ·) first.1 ih

theorem Pushes.unless_empty {R : α → ι → Prop} {rows : List α} (h : Forall₂ R rows items)
    {value : ι → F × Nat} {run : Mpc F (SuffixFutureBatch F)}
    (pushes : Pushes out (items.map value : List _) run) :
    Pushes out (items.map value : List _) (if rows.isEmpty then pure out else run) := by
  split
  · rename_i none
    rw [List.isEmpty_iff] at none
    rw [none, forall₂_nil_left_iff] at h
    rw [h]
    exact nothing
  · exact pushes

variable {h : RingType} {right : MixedBatch (BitVec 64) w}

/-- Public right operands are combined locally and shared ones by the circuit; the batch gets all
results at their slots. -/
theorem evalBitwiseMixed_pushes {f : ι → BitVec h.width} {xs : List (View (BitVec h.width))}
    {right : MixedBatch (BitVec 64) h.width}
    {localFn : View (BitVec h.width) → BitVec 64 → View (BitVec h.width)}
    {mpcFn : List (View (BitVec h.width)) → List (View (BitVec h.width)) →
      Mpc F (List (View (BitVec h.width)))}
    {o : BitVec h.width → BitVec h.width → BitVec h.width}
    (localOk : ∀ x yp s, XorShares x s → XorShares (localFn x yp) (o s (intoHalf _ yp)))
    (mpcOk : ∀ {xs ys} {items : List ι}, Forall₂ (fun x c => XorShares x (f c)) xs items →
      Forall₂ (fun y c => XorShares y (intoHalf _ (yv c))) ys items →
      Ensures (Forall₂ (fun z c => XorShares z (o (f c) (intoHalf _ (yv c)))) · items)
      (mpcFn xs ys))
    (hx : Forall₂ (fun x c => XorShares x (f c)) xs items)
    (hy : Forall₂ (fun y c => RightIs y (yv c)) right.entries items) :
    Pushes out (items.map fun c => (((o (f c) (intoHalf _ (yv c))).toNat : F), slot c) : List _)
      (evalBitwiseMixed h (items.map slot) xs right localFn mpcFn out) := by
  cases right with
  | pub ys =>
    rw [MixedBatch.entries, forall₂_map_left_iff] at hy
    refine pushes_b2aRing (forall₂_zipWith_same (fun x yp c shares known => ?_) hx hy)
    rw [← show yp = yv c from known]
    exact localOk x yp _ shares
  | shared ys =>
    rw [MixedBatch.entries, forall₂_map_left_iff] at hy
    exact Pushes.after (mpcOk hx hy) fun result shares => pushes_b2aRing shares
  | mixed mixed =>
    let R : Nat × View (BitVec h.width) ⊕ Nat × View (BitVec h.width) × View (BitVec h.width) →
      ι → Prop
      | .inl z, c => z.1 = slot c ∧ XorShares z.2 (o (f c) (intoHalf _ (yv c)))
      | .inr z, c => z.1 = slot c ∧ XorShares z.2.1 (f c) ∧ XorShares z.2.2 (intoHalf _ (yv c))
    have indexed : Forall₂ (fun ix c => ix.1 = slot c ∧
        XorShares ix.2 (f c)) ((items.map slot).zip xs) items := by
      clear hy
      induction hx with
      | nil => exact .nil
      | cons first _ ih => exact .cons ⟨rfl, first⟩ ih
    have rows : Forall₂ R (((items.map slot).zip xs).zipWith (bitwiseRow localFn) mixed) items := by
      refine forall₂_zipWith_same (fun ix y c left right => ?_) indexed hy
      cases y with
      | inl yp =>
        have known : yp = yv c := right
        exact ⟨left.1, known ▸ localOk _ yp _ left.2⟩
      | inr y => exact ⟨left.1, left.2, right⟩
    have locals := Slots.forall₂_firsts rows
    have shared := Slots.forall₂_seconds rows
    refine Pushes.split rows (k := bitwiseShared h mpcFn _) ?_ fun b => ?_
    · rw [map_slots locals]
      exact pushes_b2aRing (forall₂_map_left_iff.mpr (locals.imp fun _ _ known => known.2))
    · refine unless_empty shared ?_
      refine Pushes.after (mpcOk (forall₂_map_left_iff.mpr (shared.imp fun _ _ known => known.2.1))
        (forall₂_map_left_iff.mpr (shared.imp fun _ _ known => known.2.2))) fun result shares => ?_
      rw [map_slots shared]
      exact pushes_b2aRing shares

/-- A suffix of the right operand alone: public entries are evaluated in the clear. -/
theorem evalRight_pushes {value : ι → F} {publicVal : BitVec 64 → F}
    {push : List Nat → List (View (BitVec w)) → SuffixFutureBatch F → Mpc F (SuffixFutureBatch F)}
    (publicOk : ∀ c, publicVal (yv c) = value c)
    (pushOk : ∀ {out} {ys} {part : List ι},
      Forall₂ (fun y c => XorShares y (intoHalf w (yv c))) ys part →
      Pushes out (part.map fun c => (value c, slot c) : List _) (push (part.map slot) ys out))
    (hy : Forall₂ (fun y c => RightIs y (yv c)) right.entries items) :
    Pushes out (items.map fun c => (value c, slot c) : List _)
      (evalRight (items.map slot) publicVal push right out) := by
  have opens : ∀ {yp c}, yp = yv c → (Rep3Value.pub (publicVal yp)).Opens (value c) :=
    fun known => known ▸ publicOk _
  cases right with
  | pub ys =>
    rw [MixedBatch.entries, forall₂_map_left_iff] at hy
    exact pushes_ready (forall₂_map_left_iff.mpr (hy.imp fun _ _ known => opens known))
  | shared ys =>
    rw [MixedBatch.entries, forall₂_map_left_iff] at hy
    exact pushOk hy
  | mixed mixed =>
    let R : Nat × Rep3Value F ⊕ Nat × View (BitVec w) → ι → Prop
      | .inl z, c => z.1 = slot c ∧ z.2.Opens (value c)
      | .inr z, c => z.1 = slot c ∧ XorShares z.2 (intoHalf _ (yv c))
    have rows : Forall₂ R ((items.map slot).zipWith (rightRow publicVal) mixed) items := by
      have indexed : Forall₂ (fun i c => i = slot c) (items.map slot) items := by
        rw [forall₂_map_left_iff]
        exact forall₂_same.mpr fun _ _ => rfl
      refine forall₂_zipWith_same (fun i y c at_slot right => ?_) indexed hy
      cases y with
      | inl yp => exact ⟨at_slot, opens right⟩
      | inr y => exact ⟨at_slot, right⟩
    have locals := Slots.forall₂_firsts rows
    have shared := Slots.forall₂_seconds rows
    refine Pushes.split rows (k := rightShared push _) ?_ fun b => unless_empty shared ?_
    · rw [map_slots locals]
      exact pushes_ready (forall₂_map_left_iff.mpr (locals.imp fun _ _ known => known.2))
    · rw [map_slots shared]
      exact pushOk (forall₂_map_left_iff.mpr (shared.imp fun _ _ known => known.2))

/-! ## Comparisons -/

/-- One element of the comparison: the propagate word of `a + b + 1`, and its generate word or the
operands of the AND. -/
def GeRow (a b : BitVec w)
    (row : View (BitVec w) × (View (BitVec w) ⊕ View (BitVec w) × View (BitVec w))) : Prop :=
  XorShares row.1 (a ^^^ b) ∧ match row.2 with
    | .inl g => XorShares g (a &&& b)
    | .inr ab => XorShares ab.1 a ∧ XorShares ab.2 b

theorem geRow_spec {x : View (BitVec w)} {s : BitVec w} (hx : XorShares x s)
    {y : BitVec 64 ⊕ View (BitVec w)} {v : BitVec 64} (hy : RightIs y v) :
    GeRow s (~~~intoHalf w v) (geRow false x y) ∧ GeRow (intoHalf w v) (~~~s) (geRow true x y) := by
  cases y with
  | inl yp =>
    obtain rfl : yp = v := hy
    refine ⟨⟨hx.xorPublic _, hx.and_public _⟩, ⟨?_, ?_⟩⟩
    · rw [BitVec.xor_comm]
      exact hx.not.xorPublic _
    · rw [BitVec.and_comm]
      exact hx.not.and_public _
  | inr y =>
    have shares : XorShares y (intoHalf w v) := hy
    exact ⟨⟨hx.xor shares.not, hx, shares.not⟩, ⟨shares.xor hx.not, shares, hx.not⟩⟩

theorem carries_spec [PowerOfTwo w] {a b : ι → BitVec w}
    {rows : List (View (BitVec w) × (View (BitVec w) ⊕ View (BitVec w) × View (BitVec w)))}
    (h : Forall₂ (fun row c => GeRow (a c) (~~~b c) row) rows items) {g : List (View (BitVec w))}
    (generate : Forall₂ (fun z c => XorShares z (a c &&& ~~~b c)) g items) :
    Ensures (Forall₂ (fun z c => XorShares z (geBit (a c) (b c))) · items)
      (koggeStoneCarriesMany (rows.map Prod.fst)
        (g.zipWith (fun g p => g.map₂ (· ^^^ ·) (p.map (· &&& 1#w))) (rows.map Prod.fst)) :
          Mpc F _) := by
  have propagate : Forall₂ (fun p c => XorShares p (a c ^^^ ~~~b c)) (rows.map Prod.fst) items := by
    rw [forall₂_map_left_iff]
    exact h.imp fun _ _ row => row.1
  have carried := forall₂_carried propagate generate
  refine Ensures.bind (koggeStoneInnerWithCarryMany_spec propagate carried) fun r added =>
    Ensures.pure ?_
  refine added.2.imp fun z c bit => ?_
  rw [geBit_not]
  exact bit

/-- The AND of the shared entries, put back among the public ones. -/
theorem geManyMixed_rows [PowerOfTwo w] {a b : ι → BitVec w} {swap : Bool}
    (h : Forall₂ (fun row c => GeRow (a c) (~~~b c) row) (xs.zipWith (geRow swap) right.entries)
      items) :
    Ensures (Forall₂ (fun z c => XorShares z (geBit (a c) (b c))) · items)
      (geManyMixed swap xs right : Mpc F _) := by
  let R : View (BitVec w) ⊕ View (BitVec w) × View (BitVec w) → ι → Prop
    | .inl g, c => XorShares g (a c &&& ~~~b c)
    | .inr ab, c => XorShares ab.1 (a c) ∧ XorShares ab.2 (~~~b c)
  have rows : Forall₂ R ((xs.zipWith (geRow swap) right.entries).map Prod.snd) items := by
    rw [forall₂_map_left_iff]
    refine h.imp fun row c known => ?_
    obtain ⟨p, g⟩ := row
    cases g with
    | inl g => exact known.2
    | inr ab => exact known.2
  have shared := Slots.forall₂_seconds rows
  have products :=
    andMany_items (F := F) (forall₂_map_left_iff.mpr (shared.imp fun _ _ known => known.1))
    (forall₂_map_left_iff.mpr (shared.imp fun _ _ known => known.2))
  refine Ensures.bind products fun results known => ?_
  exact carries_spec h (Slots.forall₂_weave (fun _ _ known => known) rows known)

theorem geManyMixed_spec [PowerOfTwo w] (hx : Forall₂ (fun x c => XorShares x (f c)) xs items)
    (hy : Forall₂ (fun y c => RightIs y (yv c)) right.entries items) :
    Ensures (Forall₂ (fun z c => XorShares z (geBit (f c) (intoHalf w (yv c)))) · items)
        (geManyMixed false xs right : Mpc F _) ∧
      Ensures (Forall₂ (fun z c => XorShares z (geBit (intoHalf w (yv c)) (f c))) · items)
        (geManyMixed true xs right : Mpc F _) :=
  ⟨geManyMixed_rows (forall₂_zipWith_same (fun _ _ _ left right => (geRow_spec left right).1)
    hx hy),
    geManyMixed_rows (forall₂_zipWith_same (fun _ _ _ left right => (geRow_spec left right).2)
    hx hy)⟩

theorem xorEntry_spec (hx : Forall₂ (fun x c => XorShares x (f c)) xs items)
    (hy : Forall₂ (fun y c => RightIs y (yv c)) right.entries items) :
    Forall₂ (fun z c => XorShares z (f c ^^^ intoHalf w (yv c))) (xs.zipWith xorEntry right.entries)
      items := by
  refine forall₂_zipWith_same (fun x y c left right => ?_) hx hy
  cases y with
  | inl yp =>
    obtain rfl : yp = yv c := right
    exact left.xorPublic _
  | inr y => exact left.xor right

/-- Two zero tests and one AND. -/
theorem bothZero_pushes [PowerOfTwo w] {f g : ι → BitVec w} {first second : List (View (BitVec w))}
    (hf : Forall₂ (fun x c => XorShares x (f c)) first items)
    (hg : Forall₂ (fun x c => XorShares x (g c)) second items) :
    Pushes out (items.map fun c => (((BitVec.ofBool (f c = 0 && g c = 0)).toNat : F), slot c) :
      List _)
      (bothZero (items.map slot) first second out) := by
  have combined :
      Forall₂ (fun x v => XorShares x (id v)) (first ++ second) (items.map f ++ items.map g) :=
    rel_append (forall₂_map_right_iff.mpr hf) (forall₂_map_right_iff.mpr hg)
  refine Pushes.after (isZeroMany_spec combined) fun bits known => ?_
  have left := forall₂_take_append _ _ _ known
  have right := forall₂_drop_append _ _ _ known
  rw [length_map, ← hf.length_eq, forall₂_map_right_iff] at left right
  refine Pushes.after (andMany_items left right) fun result shares =>
    pushes_bitinject (shares.imp fun z c bit => ?_)
  have both : BitVec.ofBool (decide (f c = 0)) &&& BitVec.ofBool (decide (g c = 0)) =
      BitVec.ofBool (decide (f c = 0) && decide (g c = 0)) := by
    cases decide (f c = 0) <;> cases decide (g c = 0) <;> rfl
  rw [← both]
  exact bit

end Arms

/-! ## Operands of a phase -/

structure Operands (n : Nat) where
  left : BitVec 64
  right : BitVec 64
  left_lt : left.toNat < 2 ^ n
  right_lt : right.toNat < 2 ^ n

def Operands.bits {n : Nat} (c : Operands n) : LookupBits :=
  .new (interleaveBits c.left c.right) (2 * n)

/-- A phase whose suffix has `n` bits of each operand, and the ring chosen for it. -/
structure Phase (x : Xlen) (t : Uninterleavable) (n : Nat) : Prop where
  ring : Uninterleavable.ofSuffixLen (2 * n) = some t
  word : n < x.bits

theorem u64OfBool_toNat (c : Bool) : (u64OfBool c).toNat = (BitVec.ofBool c).toNat :=
  by cases c <;> rfl

variable {w n : Nat}

theorem xor_eq_zero {a b : BitVec w} : a ^^^ b = 0 ↔ a = b := BitVec.xor_eq_zero_iff

/-- The OR with a public word as the source computes it. -/
theorem xor_and_not (a b : BitVec w) : a &&& ~~~b ^^^ b = a ||| b := by
  refine BitVec.eq_of_getLsbD_eq fun i inside => ?_
  simp only [BitVec.getLsbD_xor, BitVec.getLsbD_and, BitVec.getLsbD_not, BitVec.getLsbD_or, inside]
  cases a.getLsbD i <;> cases b.getLsbD i <;> rfl

theorem toNat_intoHalf {v : BitVec 64} (small : v.toNat < 2 ^ n) (wide : n ≤ w) :
    (intoHalf w v).toNat = v.toNat := by
  rw [intoHalf, BitVec.toNat_setWidth,
    Nat.mod_eq_of_lt (small.trans_le (Nat.pow_le_pow_right (by decide) wide))]

theorem toNat_allOnes (fits : n ≤ w) : (allOnes w n).toNat = 2 ^ n - 1 := by
  have below : 2 ^ n - 1 < 2 ^ w :=
    (Nat.sub_lt (Nat.two_pow_pos n) Nat.one_pos).trans_le (Nat.pow_le_pow_right (by decide) fits)
  rw [allOnes, Nat.min_eq_left fits, BitVec.toNat_ofNat, Nat.mod_eq_of_lt below]

theorem powerU64_sub_one (short : n < 64) : (powerU64 n - 1).toNat = 2 ^ n - 1 := by
  have mask : powerU64 n - 1 = ParallelPrefix.lowMask 64 n := by
    rw [powerU64, Nat.mod_eq_of_lt short]
    rfl
  rw [mask, ParallelPrefix.toNat_lowMask short]

theorem and_three_eq_zero (v : BitVec 128) :
    v &&& 3 = 0 ↔ v.getLsbD 0 = false ∧ v.getLsbD 1 = false := by
  have mask : ∀ i, (3 : BitVec 128).getLsbD i = decide (i < 2) := fun i =>
    ParallelPrefix.getLsbD_lowMask (n := 2) (by decide)
  constructor
  · intro zero
    have bit : ∀ i, (v &&& 3).getLsbD i = false := fun i => zero ▸ BitVec.getLsbD_zero
    simpa [mask] using And.intro (bit 0) (bit 1)
  · rintro ⟨first, second⟩
    refine BitVec.eq_of_getLsbD_eq fun i _ => ?_
    rw [BitVec.getLsbD_and, mask, show (0 : BitVec 128).getLsbD i = false from BitVec.getLsbD_zero]
    rcases i with _ | _ | i
    · rw [first, Bool.false_and]
    · rw [second, Bool.false_and]
    · simp

namespace Phase

variable {x : Xlen} {t : Uninterleavable} {n : Nat} (phase : Phase x t n) (c : Operands n)
include phase

theorem pos : 0 < n := (ofSuffixLen_half phase.ring).1

theorem half : n ≤ t.half.width := (ofSuffixLen_half phase.ring).2.1

theorem narrow : t.half.width ≤ 64 := (ofSuffixLen_half phase.ring).2.2.1

theorem short : n < 64 := phase.word.trans_le x.bits_le

theorem uninterleave :
    c.bits.uninterleave = (⟨c.left.setWidth 128, n⟩, ⟨c.right.setWidth 128, n⟩) :=
  uninterleave_interleaveBits phase.short.le c.left_lt c.right_lt

theorem toNat_left : (intoHalf t.half.width c.left).toNat = c.left.toNat :=
  toNat_intoHalf c.left_lt phase.half

theorem toNat_right : (intoHalf t.half.width c.right).toNat = c.right.toNat :=
  toNat_intoHalf c.right_lt phase.half

/-- A word of the half ring that is the cut of a word of at most `n` bits. -/
theorem toNat_word {v : BitVec 64} (small : v.toNat < 2 ^ n) :
    (v.setWidth t.half.width).toNat = v.toNat :=
  toNat_intoHalf small phase.half

theorem and_value : (Suffixes.And.suffixMle x c.bits).toNat =
    (intoHalf t.half.width c.left &&& intoHalf t.half.width c.right).toNat := by
  have small : (c.left &&& c.right).toNat < 2 ^ n :=
    (BitVec.toNat_and .. ▸ Nat.and_le_left).trans_lt c.left_lt
  rw [intoHalf, intoHalf, ← BitVec.setWidth_and, phase.toNat_word small, Suffixes.suffixMle,
    phase.uninterleave]
  simp only [toU64_setWidth]

theorem notAnd_value : (Suffixes.NotAnd.suffixMle x c.bits).toNat =
    (intoHalf t.half.width c.left &&& ~~~intoHalf t.half.width c.right).toNat := by
  have small : (c.left &&& ~~~c.right).toNat < 2 ^ n :=
    (BitVec.toNat_and .. ▸ Nat.and_le_left).trans_lt c.left_lt
  rw [intoHalf, intoHalf, ← BitVec.setWidth_not phase.narrow, ← BitVec.setWidth_and,
    phase.toNat_word small, Suffixes.suffixMle, phase.uninterleave]
  simp only [toU64_setWidth]

theorem or_value : (Suffixes.Or.suffixMle x c.bits).toNat =
    (intoHalf t.half.width c.left ||| intoHalf t.half.width c.right).toNat := by
  have small : (c.left ||| c.right).toNat < 2 ^ n :=
    BitVec.toNat_or .. ▸ Nat.or_lt_two_pow c.left_lt c.right_lt
  rw [intoHalf, intoHalf, ← BitVec.setWidth_or, phase.toNat_word small, Suffixes.suffixMle,
    phase.uninterleave]
  simp only [toU64_setWidth]

theorem xor_value : (Suffixes.Xor.suffixMle x c.bits).toNat =
    (intoHalf t.half.width c.left ^^^ intoHalf t.half.width c.right).toNat := by
  have small : (c.left ^^^ c.right).toNat < 2 ^ n :=
    BitVec.toNat_xor .. ▸ Nat.xor_lt_two_pow c.left_lt c.right_lt
  rw [intoHalf, intoHalf, ← BitVec.setWidth_xor, phase.toNat_word small, Suffixes.suffixMle,
    phase.uninterleave]
  simp only [toU64_setWidth]

/-- A comparison in the half ring is a comparison of the operands. -/
theorem lessThan_value : (Suffixes.LessThan.suffixMle x c.bits).toNat =
    (~~~geBit (intoHalf t.half.width c.left) (intoHalf t.half.width c.right)).toNat := by
  rw [Arithmetic.not_geBit, BitVec.ult, phase.toNat_left, phase.toNat_right, ← u64OfBool_toNat,
    Suffixes.suffixMle, phase.uninterleave]
  simp only [toU64_setWidth]
  rfl

theorem greaterThan_value : (Suffixes.GreaterThan.suffixMle x c.bits).toNat =
    (~~~geBit (intoHalf t.half.width c.right) (intoHalf t.half.width c.left)).toNat := by
  rw [Arithmetic.not_geBit, BitVec.ult, phase.toNat_left, phase.toNat_right, ← u64OfBool_toNat,
    Suffixes.suffixMle, phase.uninterleave]
  simp only [toU64_setWidth]
  rfl

theorem left_eq_zero : intoHalf t.half.width c.left = 0 ↔ c.left = 0 := by
  rw [← BitVec.toNat_inj, ← BitVec.toNat_inj, phase.toNat_left]
  simp

theorem right_eq_zero : intoHalf t.half.width c.right = 0 ↔ c.right = 0 := by
  rw [← BitVec.toNat_inj, ← BitVec.toNat_inj, phase.toNat_right]
  simp

theorem eq_value : (Suffixes.Eq.suffixMle x c.bits).toNat =
    (BitVec.ofBool (intoHalf t.half.width c.left ^^^ intoHalf t.half.width c.right = 0)).toNat := by
  have same : (c.left.setWidth 128 == c.right.setWidth 128) =
      decide (intoHalf t.half.width c.left ^^^ intoHalf t.half.width c.right = 0) := by
    rw [Bool.eq_iff_iff, beq_iff_eq, decide_eq_true_iff, xor_eq_zero, ← BitVec.toNat_inj,
      ← BitVec.toNat_inj, phase.toNat_left, phase.toNat_right, toNat_setWidth128, toNat_setWidth128]
  rw [← same, ← u64OfBool_toNat, Suffixes.suffixMle, phase.uninterleave]

theorem leftIsZero_value : (Suffixes.LeftOperandIsZero.suffixMle x c.bits).toNat =
    (BitVec.ofBool (intoHalf t.half.width c.left = 0)).toNat := by
  rw [Suffixes.suffixMle, phase.uninterleave, u64OfBool_toNat]
  simp only [toU64_setWidth, phase.left_eq_zero]
  rfl

theorem rightIsZero_value : (Suffixes.RightOperandIsZero.suffixMle x c.bits).toNat =
    (BitVec.ofBool (intoHalf t.half.width c.right = 0)).toNat := by
  rw [Suffixes.suffixMle, phase.uninterleave, u64OfBool_toNat]
  simp only [toU64_setWidth, phase.right_eq_zero]
  rfl

/-- The right operand is all ones, in the half ring and in the plaintext. -/
theorem allOnes_iff :
    intoHalf t.half.width c.right ^^^ allOnes t.half.width (2 * n / 2) = 0 ↔
      powerU64 n - 1 = c.right := by
  rw [xor_eq_zero, ← BitVec.toNat_inj, ← BitVec.toNat_inj, phase.toNat_right,
    powerU64_sub_one phase.short, Nat.mul_div_cancel_left n (by decide), toNat_allOnes phase.half]
  exact eq_comm

theorem divByZero_value : (Suffixes.DivByZero.suffixMle x c.bits).toNat =
    (BitVec.ofBool (intoHalf t.half.width c.left = 0 &&
      intoHalf t.half.width c.right ^^^ allOnes t.half.width (2 * n / 2) = 0)).toNat := by
  rw [Suffixes.suffixMle, phase.uninterleave, u64OfBool_toNat]
  simp only [toU64_setWidth, phase.left_eq_zero, phase.allOnes_iff]
  rw [Bool.beq_comm (a := c.right)]
  rfl

theorem changeDivisor_value : (Suffixes.ChangeDivisor.suffixMle x c.bits).toNat =
    (BitVec.ofBool (intoHalf t.half.width c.right ^^^ allOnes t.half.width (2 * n / 2) = 0 &&
      intoHalf t.half.width c.left = 0)).toNat := by
  rw [Suffixes.suffixMle, phase.uninterleave, u64OfBool_toNat]
  simp only [toU64_setWidth, phase.left_eq_zero, phase.allOnes_iff]
  rfl

/-- Cutting to 32 bits in the half ring is cutting the operand. -/
theorem word32 {v : BitVec 64} (small : v.toNat < 2 ^ n) :
    (intoHalf t.half.width v).setWidth 32 = v.setWidth 32 := by
  refine BitVec.eq_of_toNat_eq ?_
  simp [toNat_intoHalf small phase.half]

/-- The suffix is 1 when the low words seen are 0 on the left and all ones on the right. -/
theorem changeDivisorW_value : (Suffixes.ChangeDivisorW.suffixMle x c.bits).toNat =
    (BitVec.ofBool ((intoHalf t.half.width c.right).setWidth 32 ^^^
      allOnes 32 (min (2 * n / 2) (x.bits / 2)) = 0 &&
      (intoHalf t.half.width c.left).setWidth 32 = 0)).toNat := by
  have half : x.bits / 2 ≤ 32 := by cases x <;> decide
  have wide : ∀ v : BitVec 32, (v.setWidth 64).toNat = v.toNat :=
    fun v => BitVec.toNat_setWidth_of_le (by decide)
  have ones : (c.right.setWidth 32 ^^^ allOnes 32 (min n (x.bits / 2)) = 0) ↔
      powerU64 (min n (x.bits / 2)) - 1 = (c.right.setWidth 32).setWidth 64 := by
    rw [xor_eq_zero, ← BitVec.toNat_inj, ← BitVec.toNat_inj, powerU64_sub_one (by omega),
      toNat_allOnes (by omega)]
    exact eq_comm
  have zero : (c.left.setWidth 32 = 0) ↔ (c.left.setWidth 32).setWidth 64 = 0 := by
    rw [← BitVec.toNat_inj, ← BitVec.toNat_inj]
    rfl
  rw [Suffixes.suffixMle, phase.uninterleave, u64OfBool_toNat, phase.word32 c.left_lt,
    phase.word32 c.right_lt, Nat.mul_div_cancel_left n (by decide)]
  simp only [toU64_setWidth, ones, zero]
  rfl

/-- The suffix is 1 when the lowest bits of both operands are clear. -/
theorem twoLsb_value : (Suffixes.TwoLsb.suffixMle x c.bits).toNat =
    (~~~((intoHalf t.half.width c.left).setWidth 1 |||
      (intoHalf t.half.width c.right).setWidth 1)).toNat := by
  have pos := phase.pos
  have wide : 0 < t.half.width := pos.trans_le phase.half
  have kept : c.bits.bits = interleaveBits c.left c.right := by
    rw [Operands.bits, new_of_lt (by have := phase.short; omega)
      (interleaveBits_lt c.left_lt c.right_lt)]
  have len : (c.bits.len == 0) = false := by
    rw [beq_eq_false_iff_ne]
    exact Nat.mul_ne_zero (by decide) pos.ne'
  obtain ⟨even, odd⟩ := getLsbD_interleaveBits c.left c.right (i := 0) (by decide)
  have bit : ∀ v : BitVec 64, (intoHalf t.half.width v).setWidth 1 = BitVec.ofBool (v.getLsbD 0) :=
    fun v => by
    rw [BitVec.setWidth_one, intoHalf, BitVec.getLsbD_setWidth, decide_eq_true wide, Bool.true_and]
  have both : (c.bits.bits &&& 3 == 0) = (!c.left.getLsbD 0 && !c.right.getLsbD 0) := by
    rw [Bool.eq_iff_iff, beq_iff_eq, and_three_eq_zero, kept, even,
      odd]
    simp [and_comm]
  rw [Suffixes.suffixMle, len, both, bit, bit]
  cases c.left.getLsbD 0 <;> cases c.right.getLsbD 0 <;> rfl

end Phase

/-! ## Agreement -/

/-- The suffixes of bits and bitwise words whose right operands may be public. -/
def mixedSuffixes : List Suffixes :=
  [.LessThan, .GreaterThan, .Eq, .LeftOperandIsZero, .RightOperandIsZero, .And, .NotAnd, .Or, .Xor]

/-- The suffixes of bits of the tables whose right operands are shared. -/
def divisionSuffixes : List Suffixes := [.DivByZero, .ChangeDivisor, .ChangeDivisorW, .TwoLsb]

/-- The operands of a batch in a phase: the left ones are shared, the right ones are public or
shared. -/
structure BatchOperands (t : Uninterleavable) {n : Nat} (ops : List (Operands n))
    (xs : List (View (BitVec t.half.width))) (right : MixedBatch (BitVec 64) t.half.width) :
    Prop where
  left : List.Forall₂ (fun x c => XorShares x (intoHalf t.half.width c.left)) xs ops
  right : List.Forall₂ (fun y c => RightIs y c.right) right.entries ops

section Agreement

variable {F : Type} [Field F] {x : Xlen} {t : Uninterleavable} {n : Nat}
  {xs : List (View (BitVec t.half.width))} {right : MixedBatch (BitVec 64) t.half.width}
  {out : SuffixFutureBatch F}

/-- A relation to the operands is one to the operands with their slots. -/
theorem forall₂_slots {α : Type} {R : α → Operands n → Prop} {as : List α} {ops : List (Operands n)}
    (base : Nat) (h : Forall₂ R as ops) : Forall₂ (fun a c => R a c.1) as (ops.zipIdx base) := by
  have names := zipIdx_map_fst base ops
  rw [← names, forall₂_map_right_iff] at h
  exact h

variable {suffix : Suffixes}

theorem Pushes.plain {items : List (Operands n × Nat)} {value : Operands n × Nat → Nat}
    {run : Mpc F (SuffixFutureBatch F)}
    (h : Pushes out (items.map fun c => ((value c : F), c.2) : List _) run)
    (same : ∀ c, (suffix.suffixMle x c.1.bits).toNat = value c) :
    Pushes out (items.map fun c => (suffix.plain F x c.1.bits, c.2) : List _) run := by
  have values : (fun c : Operands n × Nat => ((value c : F), c.2)) = fun c =>
      (suffix.plain F x c.1.bits, c.2) := by
    funext c
    rw [Suffixes.plain, same]
  rwa [← values]

theorem cast_ofBool (b : Bool) : ((BitVec.ofBool b).toNat : F) = if b then 1 else 0 :=
  by cases b <;> simp

variable {items : List (Operands n × Nat)} (phase : Phase x t n)
  (hx : Forall₂ (fun x c => XorShares x (intoHalf t.half.width c.1.left)) xs items)
  (hy : Forall₂ (fun y c => RightIs y c.1.right) right.entries items)
include phase hx hy

/-- Every arm with right operands of any kind pushes the plaintext suffix of every entry at its
slot. -/
theorem Phase.mixed_pushes (known : suffix ∈ mixedSuffixes) :
    ∃ run, evalSharedLeft x t (2 * n) suffix (items.map Prod.snd) xs right out = some run ∧
      Pushes out (items.map fun c => (suffix.plain F x c.1.bits, c.2) : List _) run := by
  have compared := geManyMixed_spec (F := F) hx hy
  simp only [mixedSuffixes, mem_cons, not_mem_nil, or_false] at known
  rcases known with rfl | rfl | rfl | rfl | rfl | rfl | rfl | rfl | rfl
  · refine ⟨_, rfl, plain ?_ fun c => phase.lessThan_value c.1⟩
    exact Pushes.after compared.1 fun bits ge =>
      pushes_bitinject (forall₂_map_shares (fun shares => shares.not) ge)
  · refine ⟨_, rfl, plain ?_ fun c => phase.greaterThan_value c.1⟩
    exact Pushes.after compared.2 fun bits ge =>
      pushes_bitinject (forall₂_map_shares (fun shares => shares.not) ge)
  · refine ⟨_, rfl, plain ?_ fun c => phase.eq_value c.1⟩
    exact Pushes.after (isZeroMany_spec (xorEntry_spec hx hy)) fun bits eq => pushes_bitinject eq
  · refine ⟨_, rfl, plain ?_ fun c => phase.leftIsZero_value c.1⟩
    exact Pushes.after (isZeroMany_spec hx) fun bits eq => pushes_bitinject eq
  · refine ⟨_, rfl, plain ?_ fun c => phase.rightIsZero_value c.1⟩
    refine evalRight_pushes (fun c => ?_) (fun shares => ?_) hy
    · simp only [cast_ofBool, decide_eq_true_eq, phase.right_eq_zero]
    · exact Pushes.after (isZeroMany_spec shares) fun bits eq => pushes_bitinject eq
  · refine ⟨_, rfl, plain ?_ fun c => phase.and_value c.1⟩
    exact evalBitwiseMixed_pushes (fun _ _ _ shares => shares.and_public _) andMany_items hx hy
  · refine ⟨_, rfl, plain ?_ fun c => phase.notAnd_value c.1⟩
    exact evalBitwiseMixed_pushes (o := fun s t => s &&& ~~~t)
      (fun _ _ _ shares => shares.and_public _)
      (fun left right => andMany_items left (forall₂_map_shares (fun shares => shares.not) right))
        hx hy
  · refine ⟨_, rfl, plain ?_ fun c => phase.or_value c.1⟩
    refine evalBitwiseMixed_pushes (fun _ yp s shares => ?_) orMany_items hx hy
    rw [← xor_and_not]
    exact (shares.and_public _).xorPublic _
  · refine ⟨_, rfl, plain ?_ fun c => phase.xor_value c.1⟩
    exact pushes_b2aRing (xorEntry_spec hx hy)

/-- The suffixes of the division tables need a shared right operand. -/
theorem Phase.division_pushes (known : suffix ∈ divisionSuffixes) (shared : right.asShared.isSome) :
    ∃ run, evalSharedLeft x t (2 * n) suffix (items.map Prod.snd) xs right out = some run ∧
      Pushes out (items.map fun c => (suffix.plain F x c.1.bits, c.2) : List _) run := by
  cases right with
  | pub ys => cases shared
  | mixed ys => cases shared
  | shared ys =>
    rw [MixedBatch.entries, forall₂_map_left_iff] at hy
    have words : Forall₂ (fun y c => XorShares y (intoHalf t.half.width c.1.right)) ys items := hy
    simp only [divisionSuffixes, mem_cons, not_mem_nil, or_false] at known
    rcases known with rfl | rfl | rfl | rfl
    · refine ⟨_, rfl, plain ?_ fun c => phase.divByZero_value c.1⟩
      exact bothZero_pushes hx (forall₂_map_shares (fun shares => shares.xorPublic _) words)
    · refine ⟨_, rfl, plain ?_ fun c => phase.changeDivisor_value c.1⟩
      exact bothZero_pushes (forall₂_map_shares (fun shares => shares.xorPublic _) words) hx
    · refine ⟨_, rfl, plain ?_ fun c => phase.changeDivisorW_value c.1⟩
      exact bothZero_pushes (forall₂_map_shares (fun shares => shares.xorPublic _)
        (forall₂_map_shares (fun shares => shares.setWidth 32) words))
          (forall₂_map_shares (fun shares => shares.setWidth 32) hx)
    · refine ⟨_, rfl, plain ?_ fun c => phase.twoLsb_value c.1⟩
      refine Pushes.after (orMany_items (forall₂_map_shares (fun shares => shares.setWidth 1) hx)
        (forall₂_map_shares (fun shares => shares.setWidth 1) words)) fun bits either => ?_
      exact pushes_bitinject (forall₂_map_shares (fun shares => shares.not) either)

end Agreement

/-- Evaluated for a table in a batch that holds values already, the suffix fills its slots with
these values: after `fulfill_with_pool` every slot of the batch opens to its own. -/
def EvaluatesTo {F : Type} [Field F] (x : Xlen) (t : Uninterleavable) (suffixLen : Nat)
    (suffix : Suffixes) (data : SuffixBitsBatch x t) (out : SuffixFutureBatch F)
    (held values : List F) : Prop :=
  let (base, reserved) := out.reserve data.len
  ∃ run, evaluateSuffixForTable x t suffixLen suffix data base reserved = some run ∧
    Ensures (List.Forall₂ Rep3Value.Opens · (held ++ values)) (run >>=
      SuffixFutureBatch.fulfillWithPool)

/-- Evaluated for a table in a batch that holds values already, the suffix makes it hold these
values as well, at the slots reserved for it. -/
def Fills {F : Type} [Field F] (x : Xlen) (t : Uninterleavable) (suffixLen : Nat)
    (suffix : Suffixes) (data : SuffixBitsBatch x t) (out : SuffixFutureBatch F)
    (held values : List F) : Prop :=
  let (base, reserved) := out.reserve data.len
  ∃ run, evaluateSuffixForTable x t suffixLen suffix data base reserved = some run ∧
    Ensures (SuffixFutureBatch.Holds · (held ++ values)) run

theorem Build.phase {b : Build} {t : Uninterleavable} (used : 2 * n ∈ b.suffixLens)
    (ring : Uninterleavable.ofSuffixLen (2 * n) = some t) : Phase b.xlen t n := by
  have short : ∀ suffixLen ∈ b.suffixLens, suffixLen / 2 < b.xlen.bits := by
    obtain ⟨x, fewer⟩ := b
    cases x <;> cases fewer <;> decide
  have half := short _ used
  rw [Nat.mul_div_cancel_left n (by decide)] at half
  exact ⟨ring, half⟩

section Evaluation

variable {F : Type} [Field F] {x : Xlen} {t : Uninterleavable} {n : Nat} {ops : List (Operands n)}
  {xs : List (View (BitVec t.half.width))} {right : MixedBatch (BitVec 64) t.half.width}
  {out : SuffixFutureBatch F} {held : List F}

/-- What an arm pushes for its slots, the evaluation adds to the batch. -/
theorem fills_of_arm {suffixLen : Nat} {suffix : Suffixes} (other : suffix ≠ .One)
    {value : Operands n → F} (same : xs.length = ops.length)
    (arm : ∀ (base : Nat) (out : SuffixFutureBatch F), ∃ run,
      evalSharedLeft x t suffixLen suffix ((ops.zipIdx base).map Prod.snd) xs right out = some run ∧
      Pushes out ((ops.zipIdx base).map fun c => (value c.1, c.2) : List _) run)
    (holds : out.Holds held) :
    Fills x t suffixLen suffix (.uninterleaved (.shared xs) right) out held (ops.map value) := by
  have len :
      (SuffixBitsBatch.uninterleaved (x := x) (.shared xs) right).len = (ops.map value).length := by
    rw [length_map, ← same]
    exact length_map _
  obtain ⟨run, evaluated, pushes⟩ :=
    arm (out.reserve (ops.map value).length).1 (out.reserve (ops.map value).length).2
  have slots : ∀ base, ((ops.zipIdx base).map fun c => (value c.1, c.2)) =
    (ops.map value).zipIdx base := fun base => by
    rw [zipIdx_map]
    rfl
  rw [zipIdx_map_snd, ← same] at evaluated
  rw [slots] at pushes
  simp only [Fills, len, evaluateSuffixForTable, if_neg other,
    SuffixFutureBatch.evalSuffixUninterleaved]
  by_cases none : xs.isEmpty
  · rw [if_pos none]
    refine ⟨_, rfl, Pushes.holds holds ?_⟩
    rw [List.isEmpty_iff] at none
    subst none
    rw [length_nil, eq_comm, length_eq_zero_iff] at same
    subst same
    exact nothing
  · rw [if_neg none]
    exact ⟨run, evaluated, Pushes.holds holds pushes⟩

variable {suffixLen : Nat} {suffix : Suffixes} {data : SuffixBitsBatch x t} {actual values : List F}

/-- A batch that was filled opens to what it holds. -/
theorem Fills.evaluatesTo (h : Fills x t suffixLen suffix data out held values) :
    EvaluatesTo x t suffixLen suffix data out held values := by
  obtain ⟨run, evaluated, filled⟩ := h
  exact ⟨run, evaluated, Ensures.bind filled fun _ holds =>
    SuffixFutureBatch.fulfillWithPool_spec holds⟩

theorem opens_unique {vs : List (Rep3Value F)} {l l' : List F} (h : Forall₂ Rep3Value.Opens vs l)
    (h' : Forall₂ Rep3Value.Opens vs l') : l = l' := by
  induction h generalizing l' with
  | nil => exact (forall₂_nil_left_iff.mp h').symm
  | cons head _ ih =>
    obtain ⟨b, rest, also, tail, rfl⟩ := forall₂_cons_left_iff.mp h'
    rw [head.unique also, ih tail]

/-- A batch that was filled with some values opens to no others. -/
theorem Fills.evaluatesTo_iff (h : Fills x t suffixLen suffix data out held actual) :
    EvaluatesTo x t suffixLen suffix data out held values ↔ values = actual := by
  constructor
  · rintro ⟨run, evaluated, opens⟩
    obtain ⟨run', evaluated', opened⟩ := h.evaluatesTo
    cases evaluated.symm.trans evaluated'
    obtain ⟨coins⟩ := coins_exist (F := F)
    exact append_cancel_left (opens_unique (opens coins) (opened coins))
  · rintro rfl
    exact h.evaluatesTo

end Evaluation

/-- The suffixes of bits and bitwise words of a table whose left operands are shared are the
plaintext ones, each at the slot of its entry. -/
theorem bit_suffixes_reconstruct {F : Type} [Field F] {b : Build} {n : Nat} {t : Uninterleavable}
    (used : 2 * n ∈ b.suffixLens) (ring : Uninterleavable.ofSuffixLen (2 * n) = some t)
    {ops : List (Operands n)} {xs : List (View (BitVec t.half.width))}
    {right : MixedBatch (BitVec 64) t.half.width} (operands : BatchOperands t ops xs right)
    {suffix : Suffixes}
    (known : suffix ∈ mixedSuffixes ∨ suffix ∈ divisionSuffixes ∧ right.asShared.isSome)
    {out : SuffixFutureBatch F} {held : List F} (holds : out.Holds held) :
    EvaluatesTo b.xlen t (2 * n) suffix (.uninterleaved (.shared xs) right) out held
      (ops.map fun c => suffix.plain F b.xlen (.new (interleaveBits c.left c.right) (2 * n))) := by
  have phase := Build.phase used ring
  have other : suffix ≠ .One := by
    rintro rfl
    rcases known with known | known
    · exact absurd known (by decide)
    · exact absurd known.1 (by decide)
  refine (fills_of_arm other operands.left.length_eq (fun base out => ?_) holds).evaluatesTo
  have left := forall₂_slots base operands.left
  have right := forall₂_slots base operands.right
  rcases known with mixed | division
  · exact phase.mixed_pushes left right mixed
  · exact phase.division_pushes left right division.1 division.2

/-- Two shared left operands, against a public and a shared right one. -/
theorem bit_suffixes_reconstruct_lessThan :
    EvaluatesTo .rv64 .u64 48 .LessThan
      (.uninterleaved (.shared [.promoteToTrivialShare 5#32, .promoteToTrivialShare 9#32])
        (.mixed [.inl 7, .inr (.promoteToTrivialShare 7#32)]))
      .new [] [(1 : ℚ), 0] := by
  let ops : List (Operands 24) := [⟨5, 7, by decide, by decide⟩, ⟨9, 7, by decide, by decide⟩]
  have operands : BatchOperands .u64 ops [.promoteToTrivialShare 5#32, .promoteToTrivialShare 9#32]
      (.mixed [.inl 7, .inr (.promoteToTrivialShare 7#32)]) :=
    ⟨.cons (.promote 5#32) (.cons (.promote 9#32) .nil), .cons rfl (.cons (.promote 7#32) .nil)⟩
  have lessThan : Suffixes.LessThan ∈ mixedSuffixes := by decide
  have values :
      (ops.map fun c => Suffixes.LessThan.plain ℚ .rv64 (.new (interleaveBits c.left c.right) 48)) =
      [1, 0] := by
    have first : (Suffixes.LessThan.suffixMle .rv64 (.new (interleaveBits 5 7) 48)).toNat = 1 := by
      decide +kernel
    have second : (Suffixes.LessThan.suffixMle .rv64 (.new (interleaveBits 9 7) 48)).toNat = 0 := by
      decide +kernel
    simp only [ops, map_cons, Suffixes.plain, first, second]
    norm_num
  exact bit_suffixes_reconstruct (b := ⟨.rv64, false⟩) (by decide) (by decide) operands
    (.inl lessThan)
    SuffixFutureBatch.new_holds

end ProviaVM.ReadRaf
