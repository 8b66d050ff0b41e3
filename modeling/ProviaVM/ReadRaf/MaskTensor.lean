import ProviaVM.Poly.Fwht
import ProviaVM.Rep3.FieldCast

/-! # The masks of a phase

`ReadRafProverState::init_phase` of `read_raf_checking.rs`. The key of a phase is cut in
chunks, each opened under its own mask. The opened chunks are packed into one word, the
first chunk highest, and the transforms of the one-hot vectors of the chunk masks are
multiplied in a tree, all rotation slots in one batch for each level. -/
namespace ProviaVM.ReadRaf
open Preprocessing Rep3 Poly WalshHadamard List BitVec

section Packing

/-- The loop over the chunks of one cycle, from chunk `i` on: the packed key and the rotation
slot. -/
def combineChunks (logKChunk chunksPerPhase : Nat) :
    Nat → List (Option (BitVec 8) × Option Nat) → BitVec 16 → Option Nat →
      Option (BitVec 16) × Option Nat
  | _, [], val, slot => (some val, slot)
  | _, (none, _) :: _, _, slot => (none, slot)
  | i, (some c, s) :: rest, val, slot =>
    combineChunks logKChunk chunksPerPhase (i + 1) rest
      (val ||| c.setWidth 16 <<< (logKChunk * (chunksPerPhase - 1 - i))) (if i = 0 then s else slot)

/-- `c16[j]` and `rotation_slot_by_cycle[j]` from the chunks of a cycle. -/
def deriveC16 (logKChunk : Nat) (chunks : List (Option (BitVec 8) × Option Nat)) :
    Option (BitVec 16) × Option Nat :=
  combineChunks logKChunk chunks.length 0 chunks 0 none

/-- Digits of `b` bits, the first one highest. -/
def concat (b : Nat) (digits : List Nat) : Nat := digits.foldl (fun acc d => acc * 2 ^ b + d) 0

theorem concat_append (b : Nat) (digits : List Nat) (d : Nat) :
    concat b (digits ++ [d]) = concat b digits * 2 ^ b + d := by
  rw [concat, foldl_append]
  rfl

theorem foldl_concat (b acc : Nat) (digits : List Nat) :
    digits.foldl (fun acc d => acc * 2 ^ b + d) acc =
      acc * 2 ^ (b * digits.length) + concat b digits := by
  induction digits using List.reverseRecOn with
  | nil => simp [concat]
  | append_singleton digits d ih =>
    rw [foldl_append, foldl_cons, foldl_nil, ih, concat_append, length_append, length_singleton,
      Nat.mul_add]
    ring

theorem concat_cons (b d : Nat) (digits : List Nat) :
    concat b (d :: digits) = d * 2 ^ (b * digits.length) + concat b digits := by
  rw [concat, foldl_cons, foldl_concat, Nat.zero_mul, Nat.zero_add]

theorem concat_lt {b : Nat} {digits : List Nat} (small : ∀ d ∈ digits, d < 2 ^ b) :
    concat b digits < 2 ^ (b * digits.length) := by
  induction digits using List.reverseRecOn with
  | nil => simp [concat]
  | append_singleton digits d ih =>
    have high := ih fun d inside => small d (by simp [inside])
    have low := small d (by simp)
    rw [concat_append, length_append, length_singleton, Nat.mul_add, Nat.mul_one, Nat.pow_add]
    calc concat b digits * 2 ^ b + d < concat b digits * 2 ^ b + 2 ^ b := by omega
      _ = (concat b digits + 1) * 2 ^ b := by ring
      _ ≤ 2 ^ (b * digits.length) * 2 ^ b := Nat.mul_le_mul_right _ high

/-- A block and a place in it, under XOR. -/
theorem xor_block {l c r : Nat} (cIn : c < 2 ^ l) (rIn : r < 2 ^ l) (c' r' : Nat) :
    (c' * 2 ^ l + c) ^^^ (r' * 2 ^ l + r) = (c' ^^^ r') * 2 ^ l + (c ^^^ r) := by
  have inside := Nat.xor_lt_two_pow cIn rIn
  apply Nat.eq_of_testBit_eq
  intro i
  rw [Nat.testBit_xor, Nat.mul_comm c', Nat.mul_comm r', Nat.mul_comm (c' ^^^ r'),
    Nat.testBit_two_pow_mul_add _ cIn, Nat.testBit_two_pow_mul_add _ rIn,
    Nat.testBit_two_pow_mul_add _ inside]
  split <;> rw [Nat.testBit_xor]

/-- Masking the chunks masks the packed key with the packed masks. -/
theorem concat_xor {b : Nat} {ks rs : List Nat} (kIn : ∀ k ∈ ks, k < 2 ^ b)
    (rIn : ∀ r ∈ rs, r < 2 ^ b) (length : ks.length = rs.length) :
    concat b (List.zipWith (· ^^^ ·) ks rs) = concat b ks ^^^ concat b rs := by
  induction ks generalizing rs with
  | nil =>
    cases rs with
    | nil => simp [concat]
    | cons => simp at length
  | cons k ks ih =>
    cases rs with
    | nil => simp at length
    | cons r rs =>
      have tail : ks.length = rs.length := by simpa using length
      have kTail : ∀ k ∈ ks, k < 2 ^ b := fun k inside => kIn k (by simp [inside])
      have rTail : ∀ r ∈ rs, r < 2 ^ b := fun r inside => rIn r (by simp [inside])
      have below := concat_lt rTail
      rw [← tail] at below
      simp [concat_cons, ih kTail rTail tail, ← tail, xor_block (concat_lt kTail) below]

/-- A digit below the digits already written. -/
theorem or_digit {b d : Nat} (digit : d < 2 ^ b) (h m : Nat) :
    h * 2 ^ b * 2 ^ m ||| d * 2 ^ m = (h * 2 ^ b + d) * 2 ^ m := by
  rw [← Nat.shiftLeft_eq _ m, ← Nat.shiftLeft_eq d, ← Nat.shiftLeft_or_distrib,
    ← Nat.shiftLeft_eq h, ← Nat.shiftLeft_add_eq_or_of_lt digit, Nat.shiftLeft_eq]

/-- The loop ORs disjoint digits into the word. -/
theorem combineChunks_spec {b n : Nat} (fits : b * n ≤ 16) {cs : List (BitVec 8)}
    {slots : List (Option Nat)} (small : ∀ c ∈ cs, c.toNat < 2 ^ b)
    (length : cs.length = slots.length) {done : Nat} (sum : done + cs.length = n) {high : Nat}
    (highIn : high < 2 ^ (b * done)) (slot : Option Nat) :
    ((combineChunks b n done ((cs.map some).zip slots)
      (BitVec.ofNat 16 (high * 2 ^ (b * cs.length))) slot).1 =
      some (BitVec.ofNat 16 (high * 2 ^ (b * cs.length) + concat b (cs.map BitVec.toNat)))) := by
  induction cs generalizing slots done high slot with
  | nil => simp [combineChunks, concat]
  | cons c cs ih =>
    cases slots with
    | nil => simp at length
    | cons s slots =>
      simp only [length_cons] at sum length
      have shift : n - 1 - done = cs.length := by omega
      have digit := small c (by simp)
      have room : b * done + b + b * cs.length ≤ 16 := by
        calc b * done + b + b * cs.length = b * n := by rw [← sum]; ring
          _ ≤ 16 := fits
      have next : high * 2 ^ b + c.toNat < 2 ^ (b * (done + 1)) := by
        rw [Nat.mul_add, Nat.mul_one, Nat.pow_add]
        calc high * 2 ^ b + c.toNat < (high + 1) * 2 ^ b := by rw [Nat.add_mul]; omega
          _ ≤ 2 ^ (b * done) * 2 ^ b := Nat.mul_le_mul_right _ highIn
      have bound : (high * 2 ^ b + c.toNat) * 2 ^ (b * cs.length) < 2 ^ 16 := by
        calc (high * 2 ^ b + c.toNat) * 2 ^ (b * cs.length) <
                 2 ^ (b * (done + 1)) * 2 ^ (b * cs.length) :=
              Nat.mul_lt_mul_of_pos_right next (Nat.two_pow_pos _)
          _ = 2 ^ (b * done + b + b * cs.length) := by rw [Nat.mul_add, Nat.mul_one, ← Nat.pow_add]
          _ ≤ 2 ^ 16 := Nat.pow_le_pow_right (by omega) room
      have word :
        (BitVec.ofNat 16 (high * 2 ^ (b * (cs.length + 1))) |||
        c.setWidth 16 <<< (b * (n - 1 - done))) =
          BitVec.ofNat 16 ((high * 2 ^ b + c.toNat) * 2 ^ (b * cs.length)) := by
        apply eq_of_toNat_eq
        have split : high * 2 ^ (b * (cs.length + 1)) = high * 2 ^ b * 2 ^ (b * cs.length) := by
          ring
        have highBound : high * 2 ^ b * 2 ^ (b * cs.length) < 2 ^ 16 :=
          lt_of_le_of_lt (Nat.mul_le_mul_right _ (by omega)) bound
        have byte : c.toNat % 2 ^ 16 = c.toNat := Nat.mod_eq_of_lt (by omega)
        have lowBound : c.toNat * 2 ^ (b * cs.length) < 2 ^ 16 :=
          lt_of_le_of_lt (Nat.mul_le_mul_right _ (by omega)) bound
        rw [toNat_or, toNat_shiftLeft, toNat_setWidth, toNat_ofNat, toNat_ofNat,
          shift, split,
          Nat.mod_eq_of_lt highBound, Nat.mod_eq_of_lt bound, byte, Nat.shiftLeft_eq,
            Nat.mod_eq_of_lt lowBound,
            or_digit digit]
      rw [map_cons, zip_cons_cons, combineChunks, length_cons, word,
        ih (fun c inside => small c (by simp [inside])) (by omega) (show done + 1 + cs.length =
          n by omega) next,
        map_cons, concat_cons, length_map, Nat.mul_add b]
      congr 2
      ring

/-- The packed key is the concatenation of the opened chunks. -/
theorem deriveC16_spec {b : Nat} {cs : List (BitVec 8)} {slots : List (Option Nat)}
    (fits : b * cs.length ≤ 16) (small : ∀ c ∈ cs, c.toNat < 2 ^ b)
    (length : cs.length = slots.length) :
    ∃ key, (deriveC16 b ((cs.map some).zip slots)).1 = some key ∧
      key.toNat = concat b (cs.map BitVec.toNat) := by
  refine ⟨BitVec.ofNat 16 (concat b (cs.map BitVec.toNat)), ?_, ?_⟩
  · have loop :=
      combineChunks_spec fits small length (Nat.zero_add _) (show 0 < 2 ^ (b * 0) by simp) none
    simpa [deriveC16, length] using loop
  · have bound := concat_lt (show ∀ d ∈ cs.map BitVec.toNat, d < 2 ^ b by simpa using small)
    rw [length_map] at bound
    rw [toNat_ofNat, Nat.mod_eq_of_lt (lt_of_lt_of_le bound (Nat.pow_le_pow_right (by omega) fits))]

end Packing

section Tensor

variable {F : Type} [Field F]

def mulVec (pairs : List (View F × View F)) : Mpc F (List (View F)) := pairs.mapM fun (x, y) => do
  let mask ← maskingFieldElement
  return .reshare fun p => (x p).localMul (y p) + mask p

/-- The pairs of entries of neighbouring chunks; a last chunk without a neighbour is left out. -/
def expandPairs {α : Type} : List (List α) → List (α × α)
  | left :: right :: rest => (left.flatMap fun a => right.map fun b => (a, b)) ++ expandPairs rest
  | _ => []

/-- The products of one slot, cut back into chunks; what is left belongs to the next slots. -/
def cutProducts {α β : Type} : List (List α) → List β → List (List β) × List β
  | left :: right :: rest, products =>
    let len := left.length * right.length
    let (next, left) := cutProducts rest (products.drop len)
    (products.take len :: next, left)
  | _, products => ([], products)

def cutSlots {α β : Type} : List (List (List α)) → List β → List (List (List β))
  | [], _ => []
  | level :: levels, products =>
    let (next, rest) := cutProducts level products
    next :: cutSlots levels rest

def tensorRound (levels : List (List (List (View F)))) : Mpc F (List (List (List (View F)))) := do
  let products ← mulVec (levels.flatMap expandPairs)
  return cutSlots levels products

/-- `while levels[0].len() > 1`, with fuel for the levels. -/
def tensorLoop : Nat → List (List (List (View F))) → Mpc F (List (List (List (View F))))
  | 0, levels => pure levels
  | fuel + 1, levels =>
    if 1 < (levels.headD []).length then do
      let next ← tensorRound levels
      tensorLoop fuel next
    else pure levels

/-- `ehat16_by_slot` of `init_phase` from the one-hot vectors of the chunks, each by slot;
`none` is a failed check. -/
def ehat16BySlot (arch : TargetArch) (kChunk : Nat) (eFields : List (List (List (View F)))) :
    Option (Mpc F (List (List (View F)))) :=
  let slotCount := (eFields.headD []).length
  if eFields.all (fun slots => decide (0 < slots.length ∧ (slots.headD []).length = kChunk)) &&
      eFields.all (fun slots => decide (slots.length = slotCount)) then
    let levels := (List.range slotCount).map fun slot => eFields.map fun slots =>
      fwhtInPlace arch (slots.getD slot [])
    some do
      let levels ← tensorLoop eFields.length levels
      return levels.map fun level => level.headD []
  else none

/-- The values of the products of neighbouring chunks. -/
def tensorPairs : List (List F) → List (List F)
  | left :: right :: rest => (left.flatMap fun a => right.map fun b => a * b) :: tensorPairs rest
  | _ => []

theorem mulVec_spec {pairs : List (View F × View F)} {vals : List (F × F)}
    (h : Forall₂ (fun xy st => SumShares xy.1 st.1 ∧ SumShares xy.2 st.2) pairs vals) :
    Ensures (Forall₂ SumShares · (vals.map fun st => st.1 * st.2)) (mulVec pairs) := by
  refine Ensures.imp (Ensures.mapM ?_ h) fun _ held =>
    forall₂_map_right_iff.mpr held
  rintro ⟨x, y⟩ ⟨s, t⟩ ⟨hx, hy⟩
  refine Ensures.bind maskingFieldElement_spec fun mask zero =>
    Ensures.pure ⟨replicated_reshare _, ?_⟩
  have products := total_localMul hx hy
  simp only [total, View.reshare] at zero products ⊢
  linear_combination products + zero

theorem forall₂_flatMap {α β γ δ : Type} {R : α → β → Prop} {S : γ → δ → Prop} {f : α → List γ}
    {g : β → List δ} (one : ∀ a b, R a b → Forall₂ S (f a) (g b)) {as : List α} {bs : List β}
    (h : Forall₂ R as bs) :
    Forall₂ S (as.flatMap f) (bs.flatMap g) := by
  induction h with
  | nil => exact .nil
  | cons head _ ih =>
    exact rel_append (one _ _ head) ih

theorem expandPairs_forall₂ : ∀ {level : List (List (View F))} {vals : List (List F)},
    Forall₂ (Forall₂ SumShares) level vals →
    Forall₂ (fun xy st => SumShares xy.1 st.1 ∧ SumShares xy.2 st.2) (expandPairs level)
      (expandPairs vals)
  | [], [], .nil => .nil
  | [_], [_], .cons _ .nil => .nil
  | _ :: _ :: _, _ :: _ :: _, .cons left (.cons right rest) =>
    rel_append (forall₂_flatMap (fun _ _ ha => forall₂_map_left_iff.mpr
      (forall₂_map_right_iff.mpr (right.imp fun _ _ hb => ⟨ha, hb⟩))) left)
        (expandPairs_forall₂ rest)

theorem forall₂_split {α β : Type} {R : α → β → Prop} {as : List α} {bs cs : List β}
    (h : Forall₂ R as (bs ++ cs)) {n : Nat} (length : bs.length = n) :
    Forall₂ R (as.take n) bs ∧ Forall₂ R (as.drop n) cs := by
  subst length
  exact ⟨by simpa using forall₂_take bs.length h, by simpa using forall₂_drop bs.length h⟩

/-- Cutting the batch gives each slot its products. -/
theorem cutProducts_spec :
    ∀ {level : List (List (View F))} {vals : List (List F)} {products : List (View F)}
      {others : List F},
    Forall₂ (Forall₂ SumShares) level vals →
    Forall₂ SumShares products ((expandPairs vals).map (fun st => st.1 * st.2) ++ others) →
    Forall₂ (Forall₂ SumShares) (cutProducts level products).1 (tensorPairs vals) ∧
      Forall₂ SumShares (cutProducts level products).2 others
  | [], [], _, _, .nil, held => ⟨.nil, held⟩
  | [_], [_], _, _, .cons _ .nil, held => ⟨.nil, held⟩
  | _ :: _ :: _, l :: r :: vals, products, others, .cons left (.cons right rest), held => by
    rw [expandPairs, List.map_append, List.append_assoc] at held
    have length : ((l.flatMap fun a => r.map fun b => (a, b)).map fun st => st.1 * st.2).length =
      l.length * r.length := by
      simp
    obtain ⟨first, more⟩ := forall₂_split held length
    have sizes := congrArg₂ (· * ·) left.length_eq right.length_eq
    obtain ⟨next, remaining⟩ := cutProducts_spec rest more
    simp only [cutProducts, sizes]
    refine ⟨.cons ?_ next, remaining⟩
    simpa [map_flatMap, Function.comp_def] using first

theorem cutSlots_spec :
    ∀ {levels : List (List (List (View F)))} {vals : List (List (List F))}
      {products : List (View F)},
    Forall₂ (Forall₂ (Forall₂ SumShares)) levels vals →
    Forall₂ SumShares products ((vals.flatMap expandPairs).map fun st => st.1 * st.2) →
    Forall₂ (Forall₂ (Forall₂ SumShares)) (cutSlots levels products) (vals.map tensorPairs)
  | [], [], _, .nil, _ => .nil
  | _ :: _, _ :: _, _, .cons level levels, held => by
    rw [flatMap_cons, List.map_append] at held
    obtain ⟨next, rest⟩ := cutProducts_spec level held
    exact .cons next (cutSlots_spec levels rest)

theorem tensorRound_spec {levels : List (List (List (View F)))} {vals : List (List (List F))}
    (h : Forall₂ (Forall₂ (Forall₂ SumShares)) levels vals) :
    Ensures (Forall₂ (Forall₂ (Forall₂ SumShares)) · (vals.map tensorPairs)) (tensorRound levels) :=
  Ensures.bind (mulVec_spec (forall₂_flatMap (fun _ _ => expandPairs_forall₂) h)) fun _ held =>
    Ensures.pure (cutSlots_spec h held)

def character (w r : Nat) : List F := (List.range (2 ^ w)).map fun c => ((sign w c r : ℤ) : F)

theorem fwht_oneHot (arch : TargetArch) {w r : Nat} (inside : r < 2 ^ w) :
    fwhtInPlace arch (oneHot (2 ^ w) r : List F) = character w r := by
  have length := length_fwht arch (length_oneHot (F := F) (2 ^ w) r)
  refine ext_getElem (by rw [length]; simp [character]) fun c small _ => ?_
  rw [length] at small
  have value := getD_fwht arch (length_oneHot (F := F) (2 ^ w) r) small
  rw [transform_congr fun j jIn => getD_oneHot r jIn, transform_oneHot inside,
    getD_eq_getElem _ _ (by rw [length]; exact small)] at value
  simp [value, character]

theorem range_mul (m n : Nat) :
    List.range (m * n) = (List.range m).flatMap fun i => (List.range n).map (i * n + ·) := by
  induction m with
  | zero => simp
  | succ m ih => rw [Nat.succ_mul, range_add, ih, range_succ, flatMap_append, flatMap_singleton]

/-- The product of two characters, the first index outermost, is a character of the longer key. -/
theorem character_tensor (w : Nat) {r : Nat} (inside : r < 2 ^ w) (r' : Nat) :
    ((character w r').flatMap fun a => (character w r).map fun b => a * b) =
      (character (2 * w) (r' * 2 ^ w + r) : List F) := by
  rw [character, character, character, Nat.two_mul, Nat.pow_add, range_mul, map_flatMap,
    flatMap_map]
  refine flatMap_congr fun c' _ => ?_
  rw [map_map, map_map]
  refine map_congr_left fun c small => ?_
  simp only [Function.comp_apply]
  rw [sign_append w w (mem_range.mp small) inside]
  push_cast
  ring

def pairUp (w : Nat) : List Nat → List Nat
  | r' :: r :: rest => (r' * 2 ^ w + r) :: pairUp w rest
  | _ => []

theorem tensorPairs_characters (w : Nat) : ∀ {rs : List Nat}, (∀ r ∈ rs, r < 2 ^ w) →
    tensorPairs (rs.map (character w)) = (pairUp w rs).map (character (2 * w) : Nat → List F)
  | [], _ => rfl
  | [_], _ => rfl
  | r' :: r :: rs, small => by
    have rest : ∀ r ∈ rs, r < 2 ^ w := fun r inside => small r (by simp [inside])
    have tail := tensorPairs_characters w rest
    simp [tensorPairs, character_tensor w (small r (by simp)), tail, pairUp]

theorem pairUp_small (w : Nat) :
    ∀ {rs : List Nat}, (∀ r ∈ rs, r < 2 ^ w) → ∀ r ∈ pairUp w rs, r < 2 ^ (2 * w)
  | [], _, _, inside => by simp [pairUp] at inside
  | [_], _, _, inside => by simp [pairUp] at inside
  | r' :: r :: rs, small, q, inside => by
    rw [pairUp, mem_cons] at inside
    rcases inside with rfl | inside
    · have high := small r' (by simp)
      have low := small r (by simp)
      rw [Nat.two_mul, Nat.pow_add]
      calc r' * 2 ^ w + r < (r' + 1) * 2 ^ w := by rw [Nat.add_mul]; omega
        _ ≤ 2 ^ w * 2 ^ w := Nat.mul_le_mul_right _ high
    · exact pairUp_small w (fun r inside => small r (by simp [inside])) q inside

theorem pairUp_length (w : Nat) : ∀ rs : List Nat, (pairUp w rs).length = rs.length / 2
  | [] => rfl
  | [_] => by simp [pairUp]
  | _ :: _ :: rs => by
    rw [pairUp, length_cons, pairUp_length w rs, length_cons, length_cons]
    omega

theorem pairUp_concat (w : Nat) :
    ∀ {n : Nat} {rs : List Nat}, rs.length = 2 * n → concat (2 * w) (pairUp w rs) = concat w rs
  | 0, [], _ => rfl
  | n + 1, r' :: r :: rs, even => by
    have tail : rs.length = 2 * n := by
      simp only [length_cons] at even
      omega
    rw [pairUp, concat_cons, concat_cons, concat_cons, pairUp_concat w tail, pairUp_length,
      length_cons, tail, Nat.mul_div_cancel_left _ (by omega), Nat.mul_add]
    ring

theorem head_length {levels : List (List (List (View F)))} {vals : List (List (List F))}
    (h : Forall₂ (Forall₂ (Forall₂ SumShares)) levels vals) :
    (levels.headD []).length = (vals.headD []).length := by
  cases h with
  | nil => rfl
  | cons head _ => exact head.length_eq

/-- After as many levels as there are doublings, one character of the whole key is left. -/
theorem tensorLoop_spec {t fuel w : Nat} {levels : List (List (List (View F)))}
    {masks : List (List Nat)} (le : t ≤ fuel)
    (valid : ∀ rs ∈ masks, rs.length = 2 ^ t ∧ ∀ r ∈ rs, r < 2 ^ w)
    (held : Forall₂ (Forall₂ (Forall₂ SumShares)) levels (masks.map (List.map (character w)))) :
    Ensures (Forall₂ (Forall₂ (Forall₂ SumShares)) · (masks.map fun rs =>
      [character (w * 2 ^ t) (concat w rs)]))
      (tensorLoop fuel levels) := by
  induction t generalizing fuel w levels masks with
  | zero =>
    have single : masks.map (List.map (character w)) =
        masks.map fun rs => [(character (w * 2 ^ 0) (concat w rs) : List F)] := by
      refine map_congr_left fun rs inside => ?_
      obtain ⟨r, rfl⟩ := length_eq_one_iff.mp (valid rs inside).1
      simp [concat]
    have stop : ¬ 1 < (levels.headD []).length := by
      rw [head_length held]
      cases masks with
      | nil => simp
      | cons rs _ =>
        have one := (valid rs (by simp)).1
        simp [one]
    rw [single] at held
    cases fuel with
    | zero => exact Ensures.pure held
    | succ fuel =>
      rw [tensorLoop, if_neg stop]
      exact Ensures.pure held
  | succ t ih =>
    obtain ⟨fuel, rfl⟩ := Nat.exists_eq_succ_of_ne_zero (show fuel ≠ 0 by omega)
    cases masks with
    | nil =>
      cases held
      exact Ensures.pure .nil
    | cons rs masks =>
      have more : 1 < (levels.headD []).length := by
        rw [head_length held]
        simp [(valid rs (by simp)).1]
      have half : ∀ ps ∈ (rs :: masks).map (pairUp w), ps.length = 2 ^ t ∧ ∀ r ∈ ps,
          r < 2 ^ (2 * w) := by
        intro _ inside
        obtain ⟨qs, member, rfl⟩ := mem_map.mp inside
        obtain ⟨length, small⟩ := valid qs member
        refine ⟨?_, pairUp_small w small⟩
        rw [pairUp_length, length, pow_succ, Nat.mul_div_cancel _ (by omega)]
      have paired : ((rs :: masks).map (List.map (character w : Nat → List F))).map tensorPairs =
          ((rs :: masks).map (pairUp w)).map (List.map (character (2 * w))) := by
        rw [map_map, map_map]
        exact map_congr_left fun qs member => tensorPairs_characters w (valid qs member).2
      have whole :
        (((rs :: masks).map (pairUp w)).map fun qs =>
        [(character (2 * w * 2 ^ t) (concat (2 * w) qs) : List F)]) =
          (rs :: masks).map fun qs => [character (w * 2 ^ (t + 1)) (concat w qs)] := by
        rw [map_map]
        refine map_congr_left fun qs member => ?_
        rw [Function.comp_apply,
          pairUp_concat w ((valid qs member).1.trans (by rw [pow_succ, Nat.mul_comm])),
          pow_succ, Nat.mul_comm 2 w, Nat.mul_assoc, Nat.mul_comm 2]
      rw [tensorLoop, if_pos more]
      refine Ensures.bind (tensorRound_spec held) fun next products => ?_
      rw [paired] at products
      rw [← whole]
      exact ih (by omega) half products

theorem fwht_views (arch : TargetArch) {k : Nat} {e : List (View F)} {v : List F}
    (h : Forall₂ SumShares e v) (length : v.length = 2 ^ k) :
    Forall₂ SumShares (fwhtInPlace arch e) (fwhtInPlace arch v) := by
  have elen : e.length = 2 ^ k := h.length_eq.trans length
  have opened := (vecShares_iff.mpr h).fwht arch length
  rw [← vecShares_iff]
  simpa only [fwht_map arch elen (fun x : View F => x _) (fun _ _ => rfl) fun _ _ =>
    rfl] using opened

/-- For each slot, the transforms of the one-hot vectors of the chunk masks multiply to that of the
one-hot vector of the packed mask. -/
theorem ehat16BySlot_spec (arch : TargetArch) {b t : Nat} {eFields : List (List (List (View F)))}
    {masks : List (List Nat)} (chunks : eFields.length = 2 ^ t) (slots : 0 < masks.length)
    (valid : ∀ rs ∈ masks, rs.length = 2 ^ t ∧ ∀ r ∈ rs, r < 2 ^ b)
    (shares : ∀ i < 2 ^ t, (eFields.getD i []).length = masks.length ∧ ∀ slot < masks.length,
      Forall₂ SumShares ((eFields.getD i []).getD slot [])
      (oneHot (2 ^ b) ((masks.getD slot []).getD i 0))) :
    ∃ run, ehat16BySlot arch (2 ^ b) eFields = some run ∧
      Ensures (Forall₂ (fun ehat rs => Forall₂ SumShares ehat
        (fwhtInPlace arch (oneHot (2 ^ (b * 2 ^ t)) (concat b rs)))) · masks) run := by
  have member :
      ∀ slots ∈ eFields, slots.length = masks.length ∧ (slots.headD []).length = 2 ^ b := by
    intro slotsOf inside
    obtain ⟨i, bound, rfl⟩ := mem_iff_getElem.mp inside
    obtain ⟨count, entries⟩ := shares i (by omega)
    have first := (entries 0 slots).length_eq
    rw [length_oneHot, getD_eq_getElem _ _ bound] at first
    rw [getD_eq_getElem _ _ bound] at count
    refine ⟨count, ?_⟩
    rw [headD_eq_head?_getD, head?_eq_getElem?]
    exact first
  have head : (eFields.headD []).length = masks.length := by
    cases eFields with
    | nil => exact absurd chunks (by simpa using (Nat.two_pow_pos t).ne)
    | cons slotsOf _ => exact (member slotsOf (by simp)).1
  have checks :
    (eFields.all (fun slots => decide (0 < slots.length ∧ (slots.headD []).length = 2 ^ b)) &&
      eFields.all (fun slots => decide (slots.length = (eFields.headD []).length))) = true := by
    rw [Bool.and_eq_true, all_eq_true, all_eq_true]
    refine ⟨fun s inside => ?_, fun s inside => ?_⟩
    · obtain ⟨count, width⟩ := member s inside
      exact decide_eq_true ⟨by omega, width⟩
    · exact decide_eq_true ((member s inside).1.trans head.symm)
  refine ⟨_, by rw [ehat16BySlot, if_pos checks], ?_⟩
  have start : Forall₂ (Forall₂ (Forall₂ SumShares))
      ((List.range (eFields.headD []).length).map fun slot => eFields.map fun slots =>
        fwhtInPlace arch (slots.getD slot []))
      (masks.map (List.map (character b))) := by
    rw [head]
    refine forall₂_iff_get.mpr ⟨by simp, fun slot left right => ?_⟩
    simp only [length_map] at right
    obtain ⟨count, small⟩ := valid _ (getElem_mem right)
    refine forall₂_iff_get.mpr ⟨by simp [chunks, count], fun i iLeft iRight => ?_⟩
    simp only [get_eq_getElem, getElem_map, getElem_range, length_map] at iLeft iRight ⊢
    have entry := (shares i (by omega)).2 slot right
    rw [getD_eq_getElem _ _ iLeft, getD_eq_getElem masks _ right,
      getD_eq_getElem _ _ iRight] at entry
    rw [← fwht_oneHot arch (small _ (getElem_mem iRight))]
    exact fwht_views arch entry (length_oneHot _ _)
  refine Ensures.bind (tensorLoop_spec (by rw [chunks]; exact (Nat.lt_two_pow_self).le) valid start)
    fun levels held =>
    Ensures.pure ?_
  have whole : (masks.map fun rs => [(character (b * 2 ^ t) (concat b rs) : List F)]) =
      masks.map fun rs => [fwhtInPlace arch (oneHot (2 ^ (b * 2 ^ t)) (concat b rs))] := by
    refine map_congr_left fun rs inside => ?_
    obtain ⟨count, small⟩ := valid rs inside
    have bound := concat_lt small
    rw [count] at bound
    rw [fwht_oneHot arch bound]
  rw [whole, forall₂_map_right_iff] at held
  refine forall₂_map_left_iff.mpr (held.imp ?_)
  rintro level rs (_ | ⟨head, _⟩)
  exact head

end Tensor

section Exact

/-- The Walsh-Hadamard transform of a vector of length `2 ^ k`. -/
def walshHadamard {G : Type} [AddCommGroup G] (k : Nat) (a : List G) : List G :=
  (List.range (2 ^ k)).map (transform k (a.getD · 0))

theorem inPlace_eq_walshHadamard {G : Type} [AddCommGroup G] {k : Nat} {a : List G}
    (length : a.length = 2 ^ k) :
    inPlace k a = walshHadamard k a := by
  refine ext_getElem (by rw [length_inPlace length]; simp [walshHadamard]) fun i inside _ => ?_
  rw [length_inPlace length] at inside
  have value := getD_inPlace length inside
  rw [getD_eq_getElem _ _ (by rw [length_inPlace length]; exact inside)] at value
  simp [value, walshHadamard]

variable {F : Type} [Field F]

def Multiplies
    (mulFn : (PartyID → List (Rep3Share F)) → (PartyID → List (Rep3Share F)) → PartyID →
      List (Rep3Share F)) :
    Prop :=
  ∀ {x y v w}, VecShares x v → VecShares y w → VecShares (mulFn x y) (List.zipWith (· * ·) v w)

/-- The key of a row is the concatenated index under the concatenated mask. -/
theorem deriveC16_masked {b : Nat} {ks rs : List (BitVec 8)} {slots : List (Option Nat)}
    (fits : b * ks.length ≤ 16) (kIn : ∀ k ∈ ks, k.toNat < 2 ^ b) (rIn : ∀ r ∈ rs, r.toNat < 2 ^ b)
    (length : ks.length = rs.length) (slotLength : ks.length = slots.length) :
    ∃ key, (deriveC16 b (((List.zipWith (· ^^^ ·) ks rs).map some).zip slots)).1 = some key ∧
      key.toNat = concat b (ks.map BitVec.toNat) ^^^ concat b (rs.map BitVec.toNat) := by
  have count : (List.zipWith (· ^^^ ·) ks rs).length = ks.length := by simp [length]
  have digits : (List.zipWith (· ^^^ ·) ks rs).map BitVec.toNat =
      List.zipWith (· ^^^ ·) (ks.map BitVec.toNat) (rs.map BitVec.toNat) := by
    rw [zipWith_map]
    simp
  have small : ∀ c ∈ List.zipWith (· ^^^ ·) ks rs, c.toNat < 2 ^ b := by
    intro c inside
    obtain ⟨i, bound, rfl⟩ := mem_iff_getElem.mp inside
    rw [getElem_zipWith]
    exact Nat.xor_lt_two_pow (kIn _ (getElem_mem _)) (rIn _ (getElem_mem _))
  obtain ⟨key, packed, value⟩ :=
    deriveC16_spec (by rw [count]; exact fits) small (count.trans slotLength)
  refine ⟨key, packed, ?_⟩
  rw [value, digits, concat_xor (by simpa using kIn) (by simpa using rIn) (by simpa using length)]

/-- Unmasking the public histogram `h` gives additive shares of its entries moved by `r`. -/
def PublicUnmasked [DecidableEq F] (arch : TargetArch) (h : List F)
    (e : PartyID → List (Rep3Share F)) (r : Nat) : Prop :=
  ∃ out, (∀ p, unmaskHistogramPublic arch h (fwhtInPlace arch (e p)) p = some (out p)) ∧
    VecSum out (xorShifted r h)

/-- Convolving the one-hot vector with a shared histogram of `h` gives shares of the entries moved
by `r`. -/
def Convolved [DecidableEq F] (arch : TargetArch) (h : List F) (e x : PartyID → List (Rep3Share F))
    (mulFn : (PartyID → List (Rep3Share F)) → (PartyID → List (Rep3Share F)) → PartyID →
      List (Rep3Share F))
    (r : Nat) : Prop :=
  ∃ out, (∀ p, xorConvolveRep3WithMul arch e x mulFn p = some (out p)) ∧
    VecShares out (xorShifted r h)

def TableShifted [DecidableEq F] (arch : TargetArch) (table : List F)
    (e : PartyID → List (Rep3Share F)) (r : Nat) : Prop :=
  ∃ out, (∀ p, shiftEqTableWithMask arch table (fwhtInPlace arch (e p)) = some (out p)) ∧
    VecShares out (xorShifted r table)

/-- The parties hold the one-hot vector of each mask: `eFields` by chunk and slot, `masks` by slot
and chunk. -/
structure ChunkMasks (b t : Nat) (eFields : List (List (List (View F)))) (masks : List (List Nat)) :
    Prop where
  chunks : eFields.length = 2 ^ t
  slots : 0 < masks.length
  valid : ∀ rs ∈ masks, rs.length = 2 ^ t ∧ ∀ r ∈ rs, r < 2 ^ b
  shares : ∀ i < 2 ^ t, (eFields.getD i []).length = masks.length ∧ ∀ slot < masks.length,
    List.Forall₂ SumShares ((eFields.getD i []).getD slot [])
      (oneHot (2 ^ b) ((masks.getD slot []).getD i 0))

/-- For each slot the phase ends with the transform of the one-hot vector of the packed mask. -/
def TensorOfMasks (arch : TargetArch) (b t : Nat) (eFields : List (List (List (View F))))
    (masks : List (List Nat)) : Prop :=
  ∃ run, ehat16BySlot arch (2 ^ b) eFields = some run ∧
    Ensures (List.Forall₂ (fun ehat rs => List.Forall₂ SumShares ehat
      (fwhtInPlace arch (oneHot (2 ^ (b * 2 ^ t)) (concat b rs)))) · masks) run

/-- The transforms are Walsh-Hadamard transforms; a histogram or table times the shared transform of
a mask's one-hot vector is moved by the mask; and the transforms of a phase's chunk masks multiply
to that of the mask of its packed key. -/
theorem fwht_unmasking_exact [DecidableEq F] (arch : TargetArch) :
    (∀ (G : Type) [AddCommGroup G] (k : Nat) (a : List G), a.length = 2 ^ k →
      fwhtRadix4 a = walshHadamard k a ∧ fwhtRadix8 a = walshHadamard k a ∧
        fwhtInPlace arch a = walshHadamard k a) ∧
    (∀ (k r : Nat) (h : List F) (e : PartyID → List (Rep3Share F)), (2 ^ k : F) ≠ 0 →
      h.length = 2 ^ k → r < 2 ^ k →
      VecShares e (oneHot (2 ^ k) r) →
      PublicUnmasked arch h e r ∧
      (∀ x, VecShares x h →
        VecSum (fun p => fwhtUnmaskRep3ToAdditive arch (x p) (fwhtInPlace arch (e p)) (2 ^ k : F)⁻¹)
          (xorShifted r h)) ∧
      (∀ x mulFn, VecShares x h → Multiplies mulFn → Convolved arch h e x mulFn r) ∧
      TableShifted arch h e r) ∧
    (∀ (b t : Nat) (eFields : List (List (List (View F)))) (masks : List (List Nat)),
      ChunkMasks b t eFields masks →
      TensorOfMasks arch b t eFields masks) ∧
    (∀ (b : Nat) (ks rs : List (BitVec 8)) (slots : List (Option Nat)), b * ks.length ≤ 16 →
      (∀ k ∈ ks, k.toNat < 2 ^ b) → (∀ r ∈ rs, r.toNat < 2 ^ b) → ks.length = rs.length →
        ks.length = slots.length →
      ∃ key, (deriveC16 b (((List.zipWith (· ^^^ ·) ks rs).map some).zip slots)).1 = some key ∧
        key.toNat = concat b (ks.map BitVec.toNat) ^^^ concat b (rs.map BitVec.toNat)) := by
  refine ⟨fun G _ k a length => ?_, fun k r h e invertible hlen rIn shares => ⟨?_, ?_, ?_, ?_⟩,
    ?_, ?_⟩
  · rw [fwhtRadix4_eq length, fwhtRadix8_eq length, fwhtInPlace_eq arch length,
      inPlace_eq_walshHadamard length]
    exact ⟨rfl, rfl, rfl⟩
  · exact unmaskHistogramPublic_spec invertible hlen rIn shares
  · exact fun x hist => fwhtUnmaskRep3ToAdditive_spec invertible hlen rIn hist shares
  · intro x mulFn hist multiplies
    have convolved : ∃ out, (∀ p, xorConvolveRep3WithMul arch e x mulFn p = some (out p)) ∧
        VecShares out (xorConvolution (oneHot (2 ^ k) r) h) :=
      xorConvolveRep3WithMul_spec invertible (length_oneHot _ _) hlen shares hist multiplies
    rwa [xorConvolution_oneHot rIn hlen] at convolved
  · exact shiftEqTableWithMask_spec invertible hlen rIn shares
  · exact fun b t eFields masks held =>
      ehat16BySlot_spec arch held.chunks held.slots held.valid held.shares
  · exact fun b ks rs slots fits kIn rIn length slotLength =>
      deriveC16_masked fits kIn rIn length slotLength

/-- Two entries, mask 1, and keys of two chunks. -/
theorem fwht_unmasking_exact_two :
    (fwhtRadix8 [3, 5] = walshHadamard 1 [(3 : ℚ), 5]) ∧
    PublicUnmasked .x86_64 [(3 : ℚ), 5] (promotedAt (oneHot (2 ^ 1) 1)) 1 ∧
    TensorOfMasks .x86_64 1 1 [[promoted (oneHot (2 ^ 1) 1 : List ℚ)],
      [promoted (oneHot (2 ^ 1) 0)]] [[1, 0]] ∧
    (∃ key, (deriveC16 4 (([(3 : BitVec 8) ^^^ 9, 5 ^^^ 6].map some).zip [some 0, some 0])).1 =
      some key ∧
      key.toNat = concat 4 [3, 5] ^^^ concat 4 [9, 6]) := by
  obtain ⟨transforms, unmasks, tensor, packing⟩ := fwht_unmasking_exact (F := ℚ) .x86_64
  refine ⟨(transforms ℚ 1 [3, 5] rfl).2.1, ?_,
    tensor 1 1 _ _ ⟨rfl, by decide, by decide, fun i inside => ?_⟩, ?_⟩
  · exact (unmasks 1 1 [3, 5] _ (by norm_num) rfl (by decide) (promotedAt_shares _)).1
  · obtain rfl | rfl : i = 0 ∨ i = 1 := by omega
    all_goals
      refine ⟨rfl, fun slot only => ?_⟩
      obtain rfl : slot = 0 := by simpa using only
      exact promoted_shares _
  · exact packing 4 [3, 5] [9, 6] [some 0, some 0] (by decide) (by decide) (by decide) rfl rfl

end Exact

end ProviaVM.ReadRaf
